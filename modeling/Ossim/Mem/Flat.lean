import Ossim.Mem.Lifecycle

/-!
Paging refines a flat private memory, and frames are partitioned.

Seen from outside the memory of a process is a map from addresses to the
byte stored there last. In every reachable state a page that can be read
yields that byte, wherever the page was in the meantime; and every frame of
a device is in exactly one place.
-/

namespace Ossim.Mem

open Ossim.Lib

/-! ### The flat memory -/

/-- The memory a process believes to have. -/
def Sys.flat (s : Sys) (p : Pid) (addr : Nat) : Option Byte :=
  (lastStore s.stores p addr).map Store.value

/-- A store that succeeds is a store to the flat memory. -/
theorem flat_pgSetval {s t : Sys} {p : Pid} {addr : Nat} {v : Byte} {copied : Bool}
    (h : pgSetval s p addr v copied = (true, t)) (q : Pid) (a : Nat) :
    t.flat q a = if q = p ∧ a = addr then some v else s.flat q a := by
  have hmeta := meta_pgGetpage s p (addr / 2 ^ 12)
  rw [pgSetval] at h
  generalize pgGetpage s p (addr / 2 ^ 12) = r at hmeta h
  obtain ⟨_ | f, u⟩ := r
  · cases h
  · dsimp only at h
    split at h
    · cases h
    · rename_i w hw
      cases h
      have hstores : (u.poke .mram (f * pageSz + addr % 2 ^ 12) v).stores = s.stores :=
        congrArg Sys.Meta.stores hmeta
      rw [memphyWrite_eq_some hw, Sys.flat, lastStore]
      dsimp only
      rw [List.find?_cons, ← lastStore, hstores]
      rcases eq_or_ne q p with rfl | hq
      · rcases eq_or_ne a addr with rfl | ha
        · simp
        · have hmiss : (addr == a) = false := beq_eq_false_iff_ne.mpr (Ne.symm ha)
          simp [hmiss, ha, Sys.flat]
      · have hmiss : (p == q) = false := beq_eq_false_iff_ne.mpr (Ne.symm hq)
        simp [hmiss, hq, Sys.flat]

/-- A byte that `pg_getval` yields at a user address is the one its process
stored there last, if it stored one, whatever happened in between. -/
theorem pgGetval_refines_flat {ramSz swpSz : Nat} {host : Nat → Bool} {ops : List Op} {s : Sys}
    (hrun : Run LowStep (boot ramSz swpSz host) ops s) {p : Pid} (hp : p ∈ s.runningList)
    {addr : Nat} (haddr : addr < 2 ^ 56) {b v : Byte} (hget : (pgGetval s p addr).1 = some b)
    (hflat : s.flat p addr = some v) : b = v := by
  obtain ⟨e, he, rfl⟩ := Option.map_eq_some_iff.mp hflat
  exact ((inv_of_run hrun).1.pgGetval hp haddr).2 b e hget he

/-- Process 1 maps a page and stores a byte in it. -/
def oneStore : List Op :=
  [.load, .inst 1 { opcode := .alloc, arg0 := 100, arg1 := 0 } ⟨0, 0⟩,
    .inst 1 { opcode := .write, arg0 := 7, arg1 := 0, arg2 := 20 } ⟨0, 0⟩]

theorem oneStore_isSome : (lowExec (boot 8192 4096 fun _ => true) oneStore).isSome = true := by
  decide +kernel

theorem pgGetval_refines_flat_oneStore : ∃ s,
    Run LowStep (boot 8192 4096 fun _ => true) oneStore s ∧
    ∃ b v, (pgGetval s 1 20).1 = some b ∧ s.flat 1 20 = some v ∧ b = v := by
  have hrun := run_of_lowExec (Option.some_get oneStore_isSome).symm
  refine ⟨_, hrun, 7, 7, ?_, ?_,
    pgGetval_refines_flat hrun (p := 1) ?_ (show 20 < 2 ^ 56 by decide) ?_ ?_⟩
  all_goals decide +kernel

/-! ### The partition -/

/-- The frames of the present pages of a process. -/
def Sys.ramFrames (s : Sys) (p : Pid) : List Nat := (s.pgd p).entries.filterMap pteRamFrame

/-- The swap frames of the swapped pages of a process. -/
def Sys.swpFrames (s : Sys) (p : Pid) : List Nat := (s.pgd p).entries.filterMap pteSwpFrame

theorem count_range (n x : Nat) : (List.range n).count x = if x < n then 1 else 0 := by
  split
  · rename_i hx
    exact List.count_eq_one_of_mem List.nodup_range (List.mem_range.mpr hx)
  · rename_i hx
    exact List.count_eq_zero.mpr fun hmem => hx (List.mem_range.mp hmem)

theorem count_ramFrames (s : Sys) (x : Nat) :
    (s.runningList.flatMap s.ramFrames).count x = tally s.runningList (s.owned .mram x) := by
  rw [List.count_flatMap, tally]
  congr 1
  exact List.map_congr_left fun p _ => count_pteRamFrame x _

theorem count_swpFrames (s : Sys) (x : Nat) :
    (s.runningList.flatMap s.swpFrames).count x = tally s.runningList (s.owned .mswp x) := by
  rw [List.count_flatMap, tally]
  congr 1
  exact List.map_congr_left fun p _ => count_pteSwpFrame x _

/-- The free list, the used list and the page tables of the live processes
together name every frame exactly once. -/
theorem frames_partition {ramSz swpSz : Nat} {ops : List Op} {s : Sys}
    (hrun : Run LowStep (boot ramSz swpSz fun _ => true) ops s) :
    (s.freeFpList .mram ++ (s.usedFpList .mram).map UsedFrame.fpn ++
      s.runningList.flatMap s.ramFrames).Perm (List.range (numfp (toInt ramSz))) ∧
    (s.freeFpList .mswp ++ s.runningList.flatMap s.swpFrames).Perm
      (List.range (numfp (toInt swpSz))) := by
  have hinv := (inv_of_run hrun).1
  have hsize := maxsz_of_run hrun
  have hlost := (hinv.host rfl).2
  constructor
  · refine List.perm_iff_count.mpr fun x => ?_
    have hcount := hinv.owners .mram x
    simp only [Sys.owners, held, hlost, List.count_nil, hsize] at hcount
    rw [List.count_append, List.count_append, count_ramFrames, count_range]
    exact hcount
  · refine List.perm_iff_count.mpr fun x => ?_
    have hcount := hinv.owners .mswp x
    simp only [Sys.owners, held, hlost, hinv.swpUsed, List.map_nil, List.count_nil, hsize] at hcount
    rw [List.count_append, count_swpFrames, count_range]
    exact hcount

/-- Process 1 gets a kernel page and a page of its own. -/
def twoPages : List Op :=
  [.load, .inst 1 { opcode := .kmalloc, arg0 := 100, arg1 := 0 } ⟨0, 0⟩,
    .inst 1 { opcode := .alloc, arg0 := 100, arg1 := 1 } ⟨0, 0⟩]

theorem frames_partition_twoPages : ∃ s, Run LowStep (boot 12288 4096 fun _ => true) twoPages s ∧
    (s.freeFpList .mram ++ (s.usedFpList .mram).map UsedFrame.fpn ++
      s.runningList.flatMap s.ramFrames).Perm (List.range (numfp (toInt 12288))) := by
  have hsome : (lowExec (boot 12288 4096 fun _ => true) twoPages).isSome = true := by
    decide +kernel
  have hrun := run_of_lowExec (Option.some_get hsome).symm
  exact ⟨_, hrun, (frames_partition hrun).1⟩

end Ossim.Mem
