import Ossim.Mem.Lifecycle

/-!
What an `ALLOC` delivers.

The size of an `ALLOC` is a word, but both searches take an `int`, and they
cut the region with the arithmetic of words. So the size that is delivered is
the one that the conversion leaves, and only if the region does not reach the
end of the address space.
-/

namespace Ossim.Mem

open Ossim.Lib

/-- Region `rgid` runs forward and has the size that was asked for. -/
def Delivered (s : Sys) (p : Pid) (rgid size : Nat) : Prop :=
  (s.symrgtbl p rgid).rgStart < (s.symrgtbl p rgid).rgEnd ∧
    (s.symrgtbl p rgid).rgEnd - (s.symrgtbl p rgid).rgStart = size

instance (s : Sys) (p : Pid) (rgid size : Nat) : Decidable (Delivered s p rgid size) :=
  inferInstanceAs (Decidable (_ ∧ _))

/-- The node at which the search stops. -/
def firstFit (n : Nat) (l : List VmRg) : Option VmRg :=
  l.find? fun rg => decide ((rg.rgStart + n) % 2 ^ 64 ≤ rg.rgEnd)

/-- The free list in which the search of an `ALLOC` that succeeds finds its
region: the one before the call, or the one after the growth. -/
def searched (s : Sys) (p : Pid) (size : Nat) (junk : VmRg) : List VmRg :=
  match getFreeVmrgArea s p (toInt size) with
  | (some _, _) => (s.mmap p).vmFreergList
  | (none, s) => ((grown s p (allocInc size) junk).mmap p).vmFreergList

/-- The search stops at a region that starts at most `n` bytes before the end
of the address space. -/
def StopsAtTop (n : Nat) (l : List VmRg) : Prop := ∃ rg ∈ firstFit n l, 2 ^ 64 ≤ rg.rgStart + n

theorem takeFree_firstFit (n : Nat) (l : List VmRg) :
    (takeFree n l).map Prod.fst =
      (firstFit n l).map fun rg => ⟨rg.rgStart, (rg.rgStart + n) % 2 ^ 64⟩ := by
  induction l with
  | nil => rfl
  | cons rg l ih =>
      rw [takeFree, firstFit, List.find?_cons]
      by_cases hfits : (rg.rgStart + n) % 2 ^ 64 ≤ rg.rgEnd
      · rw [if_pos hfits, decide_eq_true hfits]
        rfl
      · rw [if_neg hfits, decide_eq_false hfits, Option.map_map]
        exact ih

/-- A search that succeeds has stopped at a node of the list. -/
theorem getFreeVmrgArea_firstFit {s t : Sys} {p : Pid} {size : Int} {rg : VmRg}
    (h : getFreeVmrgArea s p size = (some rg, t)) :
    ∃ node ∈ firstFit (ofInt size) (s.mmap p).vmFreergList,
      rg = ⟨node.rgStart, (node.rgStart + ofInt size) % 2 ^ 64⟩ := by
  have hfit := takeFree_firstFit (ofInt size) (s.mmap p).vmFreergList
  rw [getFreeVmrgArea] at h
  cases htake : takeFree (ofInt size) (s.mmap p).vmFreergList with
  | none =>
      rw [htake] at h
      cases h
  | some r =>
      rw [htake] at h hfit
      dsimp only at h
      split at h
      · cases h
      · cases h
        obtain ⟨node, hnode, heq⟩ := Option.map_eq_some_iff.mp hfit.symm
        exact ⟨node, hnode, heq.symm⟩

/-- What an `ALLOC` that succeeds has put into the table. -/
theorem alloc_firstFit {s t : Sys} {p : Pid} {rgid size : Nat} {junk : VmRg}
    (h : alloc s p rgid size junk = some (0, t)) :
    size ≠ 0 ∧ ∃ node ∈ firstFit (ofInt (toInt size)) (searched s p size junk),
      t.symrgtbl p rgid = ⟨node.rgStart, (node.rgStart + ofInt (toInt size)) % 2 ^ 64⟩ := by
  have hset : ∀ (u : Sys) (rg : VmRg), (u.setSymrg p rgid rg).symrgtbl p rgid = rg := by
    intro u rg
    simp [Sys.setSymrg]
  rw [alloc] at h
  split at h
  · cases h
  · rename_i hargs
    refine ⟨fun hzero => hargs (.inr hzero), ?_⟩
    rw [searched]
    cases hget : getFreeVmrgArea s p (toInt size) with
    | mk r u =>
        rw [hget] at h
        cases r with
        | some rg =>
            cases h
            rw [hset]
            exact getFreeVmrgArea_firstFit hget
        | none =>
            dsimp only at h ⊢
            split at h
            · cases h
            · split at h
              · cases h
              · rename_i sret v hv
                obtain ⟨rfl, -⟩ | ⟨-, rfl, rfl⟩ := incVmaLimit_cases hv
                · cases h
                · rw [if_neg (by decide)] at h
                  cases hagain : getFreeVmrgArea (grown u p (allocInc size) junk) p
                    (toInt size) with
                  | mk r w =>
                      rw [hagain] at h
                      cases r with
                      | none => cases h
                      | some rg =>
                          cases h
                          rw [hset]
                          exact getFreeVmrgArea_firstFit hagain

/-- The words that the conversion to `int` and back leaves alone. -/
theorem ofInt_toInt_eq_iff {size : Nat} (hsize : size < 2 ^ 64) :
    ofInt (toInt size) = size ↔ size < 2 ^ 31 ∨ 2 ^ 64 - 2 ^ 31 ≤ size := by
  rw [toInt, ofInt]
  split <;> omega

/-- An `ALLOC` that returns 0 has delivered what was asked for exactly if the
size survives the conversion to `int` and the region does not reach the end of
the address space. -/
theorem alloc_delivers_iff {s t : Sys} {p : Pid} {rgid size : Nat} {junk : VmRg}
    (hsize : size < 2 ^ 64) (h : alloc s p rgid size junk = some (0, t)) :
    Delivered t p rgid size ↔
      (size < 2 ^ 31 ∨ 2 ^ 64 - 2 ^ 31 ≤ size) ∧ ¬StopsAtTop size (searched s p size junk) := by
  obtain ⟨hne, node, hnode, hrg⟩ := alloc_firstFit h
  rw [← ofInt_toInt_eq_iff hsize, Delivered, hrg]
  have hlt := ofInt_lt (toInt size)
  dsimp only
  constructor
  · rintro ⟨hforward, hdiff⟩
    -- a sum that wraps around is below the start
    have hsum : node.rgStart + ofInt (toInt size) < 2 ^ 64 := by omega
    rw [Nat.mod_eq_of_lt hsum] at hdiff
    have heq : ofInt (toInt size) = size := by omega
    rw [heq] at hnode hsum
    refine ⟨heq, ?_⟩
    rintro ⟨node', hnode', htop⟩
    rw [Option.mem_unique hnode' hnode] at htop
    omega
  · rintro ⟨heq, htop⟩
    rw [heq] at hnode ⊢
    have hsum : node.rgStart + size < 2 ^ 64 :=
      Nat.lt_of_not_le fun hle => htop ⟨node, hnode, hle⟩
    rw [Nat.mod_eq_of_lt hsum]
    omega

/-- Process 1 holds 100 bytes of its only page. -/
def hundredBytes : List Op :=
  [.load, .inst 1 { opcode := .alloc, arg0 := 100, arg1 := 0 } ⟨0, 0⟩]

theorem hundredBytes_isSome :
    (exec step (boot 4096 0 fun _ => true) hundredBytes).isSome = true := by
  decide +kernel

def pageStarted : Sys :=
  (exec step (boot 4096 0 fun _ => true) hundredBytes).get hundredBytes_isSome

theorem run_pageStarted :
    Run (Step step) (boot 4096 0 fun _ => true) hundredBytes pageStarted :=
  run_of_exec (Option.some_get hundredBytes_isSome).symm

/-- The return code and the region of an `ALLOC` in that state. -/
theorem alloc_of_region (size : Nat) (rg : VmRg)
    (h : (alloc pageStarted 1 1 size ⟨0, 0⟩).map (fun r => (r.1, r.2.symrgtbl 1 1)) =
      some (0, rg)) :
    ∃ t, alloc pageStarted 1 1 size ⟨0, 0⟩ = some (0, t) ∧ t.symrgtbl 1 1 = rg := by
  obtain ⟨⟨ret, t⟩, halloc, heq⟩ := Option.map_eq_some_iff.mp h
  cases heq
  exact ⟨t, halloc, rfl⟩

/-- 200 bytes are cut from the free region. -/
theorem alloc_delivers_iff_pageStarted :
    ∃ t, alloc pageStarted 1 1 200 ⟨0, 0⟩ = some (0, t) ∧ t.symrgtbl 1 1 = ⟨100, 300⟩ ∧
      (Delivered t 1 1 200 ↔ (200 < 2 ^ 31 ∨ 2 ^ 64 - 2 ^ 31 ≤ 200) ∧
        ¬StopsAtTop 200 (searched pageStarted 1 200 ⟨0, 0⟩)) := by
  obtain ⟨t, halloc, hrg⟩ := alloc_of_region 200 ⟨100, 300⟩ (by decide +kernel)
  exact ⟨t, halloc, hrg, alloc_delivers_iff (by decide) halloc⟩

/-- A request of `2^32 + 5` bytes gets 5. -/
theorem alloc_short :
    Run (Step step) (boot 4096 0 fun _ => true) hundredBytes pageStarted ∧
      ∃ t, alloc pageStarted 1 1 (2 ^ 32 + 5) ⟨0, 0⟩ = some (0, t) ∧
        t.symrgtbl 1 1 = ⟨100, 105⟩ ∧ ¬Delivered t 1 1 (2 ^ 32 + 5) := by
  obtain ⟨t, halloc, hrg⟩ := alloc_of_region (2 ^ 32 + 5) ⟨100, 105⟩ (by decide +kernel)
  refine ⟨run_pageStarted, t, halloc, hrg, ?_⟩
  rw [Delivered, hrg]
  decide

end Ossim.Mem
