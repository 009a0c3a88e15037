import Ossim.Mem.System

/-!
Looking up an area of memory by its number.

`get_vma_by_num` walks the list of areas until the number of an area reaches
the one it is asked for. It reads the next node before the test for the end
of the list, so the test comes too late, and it does not compare the number
of the area it stops at. The list of a process has area 0 only, but the
function is written for any list.
-/

namespace Ossim.Mem

open Ossim.Lib

/-! ### The function -/

/-- A node of the list `mm->mmap`, with its `unsigned long vm_id`. -/
structure AreaNode where
  vmId : BitVec 64
  area : VmArea

/-- The loop of `get_vma_by_num`, with `vmait` and the nodes from `pvma` on.
The inner `none` is `NULL`; the outer one means that a null link has been
followed. -/
def vmaLoop (vmaid : Int) : (vmait : Int) → List AreaNode → Option (Option AreaNode)
  | _, [] => some none
  | vmait, pvma :: rest =>
    if vmait < vmaid then
      match rest with
      | [] => none
      | next :: rest => vmaLoop vmaid (toInt next.vmId.toNat) (next :: rest)
    else some (some pvma)

/-- `get_vma_by_num` -/
def getVmaByNum (mmap : List AreaNode) (vmaid : Int) : Option (Option AreaNode) :=
  match mmap with
  | [] => some none
  | pvma :: rest => vmaLoop vmaid (toInt pvma.vmId.toNat) (pvma :: rest)

/-- The area with the number that was asked for, or `NULL` if there is none. -/
def ExactLookup (mmap : List AreaNode) (vmaid : Int) (r : Option (Option AreaNode)) : Prop :=
  (∃ node ∈ mmap, (node.vmId.toNat : Int) = vmaid ∧ r = some (some node)) ∨
    (∀ node ∈ mmap, (node.vmId.toNat : Int) ≠ vmaid) ∧ r = some none

/-! ### What it finds -/

theorem getVmaByNum_cons_of_lt {node : AreaNode} {vmaid : Int}
    (h : toInt node.vmId.toNat < vmaid) (next : AreaNode) (rest : List AreaNode) :
    getVmaByNum (node :: next :: rest) vmaid = getVmaByNum (next :: rest) vmaid := by
  rw [getVmaByNum, vmaLoop, if_pos h]
  rfl

theorem getVmaByNum_cons_of_le {node : AreaNode} {vmaid : Int}
    (h : vmaid ≤ toInt node.vmId.toNat) (rest : List AreaNode) :
    getVmaByNum (node :: rest) vmaid = some (some node) := by
  rw [getVmaByNum, vmaLoop.eq_def]
  exact if_neg (Int.not_lt.mpr h)

/-- Behind the last area the walk follows a null link. -/
theorem getVmaByNum_last {node : AreaNode} {vmaid : Int} (h : toInt node.vmId.toNat < vmaid) :
    getVmaByNum [node] vmaid = none := by
  rw [getVmaByNum, vmaLoop, if_pos h]

/-- On a list that is not empty the result is never `NULL`. -/
theorem getVmaByNum_ne_null (node : AreaNode) (rest : List AreaNode) (vmaid : Int) :
    getVmaByNum (node :: rest) vmaid ≠ some none := by
  induction rest generalizing node with
  | nil =>
      rcases Int.lt_or_le (toInt node.vmId.toNat) vmaid with hlt | hle
      · rw [getVmaByNum_last hlt]
        nofun
      · rw [getVmaByNum_cons_of_le hle]
        nofun
  | cons next rest ih =>
      rcases Int.lt_or_le (toInt node.vmId.toNat) vmaid with hlt | hle
      · rw [getVmaByNum_cons_of_lt hlt]
        exact ih next
      · rw [getVmaByNum_cons_of_le hle]
        nofun

/-- Numbers below the one that is asked for survive the conversion to `int`,
so the walk does not stop before the area it looks for. -/
theorem getVmaByNum_of_mem {mmap : List AreaNode} {node : AreaNode} {vmaid : Int}
    (hsorted : mmap.Pairwise fun a b => a.vmId < b.vmId) (hint : vmaid < 2 ^ 31)
    (hmem : node ∈ mmap) (hid : (node.vmId.toNat : Int) = vmaid) :
    getVmaByNum mmap vmaid = some (some node) := by
  induction mmap with
  | nil => cases hmem
  | cons first rest ih =>
      rw [List.pairwise_cons] at hsorted
      obtain ⟨hfirst, hrest⟩ := hsorted
      rcases List.mem_cons.mp hmem with heq | hmem
      · subst heq
        refine getVmaByNum_cons_of_le ?_ rest
        rw [toInt_eq_self (by omega), hid]
      · have hlt : first.vmId.toNat < node.vmId.toNat := BitVec.lt_def.mp (hfirst node hmem)
        have hskip : toInt first.vmId.toNat < vmaid := by
          rw [toInt_eq_self (by omega)]
          omega
        cases rest with
        | nil => cases hmem
        | cons next rest =>
            rw [getVmaByNum_cons_of_lt hskip]
            exact ih hrest hmem

/-- The lookup is exact on the empty list and for the numbers of areas, and
nowhere else. -/
theorem get_vma_by_num_exact_iff {mmap : List AreaNode} {vmaid : Int}
    (hsorted : mmap.Pairwise fun a b => a.vmId < b.vmId) (hint : vmaid < 2 ^ 31) :
    ExactLookup mmap vmaid (getVmaByNum mmap vmaid) ↔
      mmap = [] ∨ ∃ node ∈ mmap, (node.vmId.toNat : Int) = vmaid := by
  constructor
  · rintro (⟨node, hmem, hid, -⟩ | ⟨hnone, hnull⟩)
    · exact .inr ⟨node, hmem, hid⟩
    · cases mmap with
      | nil => exact .inl rfl
      | cons first rest => exact absurd hnull (getVmaByNum_ne_null first rest vmaid)
  · rintro (rfl | ⟨node, hmem, hid⟩)
    · exact .inr ⟨fun _ => nofun, rfl⟩
    · exact .inl ⟨node, hmem, hid, getVmaByNum_of_mem hsorted hint hmem hid⟩

/-- Areas 0 and 5. -/
def twoAreas : List AreaNode := [⟨0, ⟨0, 4096, 4096, []⟩⟩, ⟨5, ⟨4096, 8192, 8192, []⟩⟩]

/-- Area 5 is found, and for area 3 it is found too. -/
theorem get_vma_by_num_exact_iff_twoAreas :
    ExactLookup twoAreas 5 (getVmaByNum twoAreas 5) ∧
      ¬ExactLookup twoAreas 3 (getVmaByNum twoAreas 3) := by
  have hsorted : twoAreas.Pairwise fun a b => a.vmId < b.vmId := by
    simp [twoAreas]
  refine ⟨(get_vma_by_num_exact_iff hsorted (by decide)).mpr (.inr ?_), fun h => ?_⟩
  · exact ⟨⟨5, ⟨4096, 8192, 8192, []⟩⟩, by simp [twoAreas], rfl⟩
  · have hthree := (get_vma_by_num_exact_iff hsorted (by decide)).mp h
    simp [twoAreas] at hthree

/-! ### The list of a process -/

/-- The list that `init_mm` sets up. -/
def areaList (s : Sys) (p : Pid) : List AreaNode := [⟨0, s.mmap p⟩]

/-- `inc_vma_limit` crashes where the lookup does, and else works on area 0,
whatever the number. -/
theorem getVmaByNum_areaList (s : Sys) (p : Pid) (vmaid : Int) :
    getVmaByNum (areaList s p) vmaid =
      if vmaFound vmaid then some (some ⟨0, s.mmap p⟩) else none := by
  have hzero : toInt (AreaNode.vmId ⟨0, s.mmap p⟩).toNat = 0 := by
    change toInt 0 = 0
    decide
  rw [vmaFound]
  by_cases hle : vmaid ≤ 0
  · rw [if_pos (decide_eq_true hle)]
    exact getVmaByNum_cons_of_le (by rw [hzero]; exact hle) []
  · rw [if_neg (by simpa using hle)]
    exact getVmaByNum_last (by rw [hzero]; omega)

/-- Process 1 asks for area 1, which it does not have, through
`SYSMEM_INC_OP`: the lookup in its list follows a null link. For area -1 it is
given area 0. -/
theorem no_area_one : ∃ s,
    Run (Step step) (boot 4096 4096 fun _ => true) [.load] s ∧
    run s 1 { opcode := .syscall, arg0 := 17, arg1 := 2, arg2 := 1, arg3 := 4096 } ⟨0, 0⟩ = none ∧
    ¬ExactLookup (areaList s 1) 1 (getVmaByNum (areaList s 1) 1) ∧
    ¬ExactLookup (areaList s 1) (-1) (getVmaByNum (areaList s 1) (-1)) := by
  refine ⟨_, run_of_exec rfl, ?_, ?_, ?_⟩
  · rw [← Option.isNone_iff_eq_none]
    decide +kernel
  · rw [getVmaByNum_areaList]
    rintro (⟨_, -, -, hnone⟩ | ⟨-, hnone⟩)
    · cases hnone
    · cases hnone
  · rw [getVmaByNum_areaList]
    rintro (⟨node, hmem, hid, -⟩ | ⟨-, hnull⟩)
    · rw [List.mem_singleton.mp hmem] at hid
      cases hid
    · cases hnull

end Ossim.Mem
