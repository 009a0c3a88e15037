import Ossim.Mem.Copies

/-!
Copies that fail.

A copy checks each byte when its turn comes, so one that fails has copied
the bytes before the first that could not be copied. They stay. Nothing has
changed exactly if those bytes were equal already; which they are is decided
in the state before the call, by the checks and by what the page tables and
the lists allow.
-/

namespace Ossim.Mem

open Ossim.Lib

/-- The bytes that a copy reaches are equal already. -/
def EqualAlready (s : Sys) (p : Pid) (user kernel offset size : Nat) : Prop :=
  ∀ i < size, (∀ j ≤ i, CopyByteOk p user kernel offset s j) →
    s.byteAt (kernelPlace s p kernel offset i) = s.byteAt (userPlace s p user offset i)

section Failure

variable {ok : Prop} {s t : Sys} {p : Pid} {src dst : Nat → Place} {Ok : Nat → Prop}
  {size n : Nat} {ret : Int}

/-- A copy that fails changes nothing if the bytes it can reach are equal
already, and only then if it reaches them all. -/
theorem CopyEnd.same_iff (hend : CopyEnd ok p s t src dst Ok size ret n) (hret : ret ≠ 0)
    (hsep : ∀ i j, src i ≠ dst j) (hinj : ∀ i j, i < j → j < n → dst i ≠ dst j) :
    ((∀ i < size, (∀ j ≤ i, Ok j) → s.byteAt (dst i) = s.byteAt (src i)) →
      t.byteAt = s.byteAt) ∧
    (ok → t.byteAt = s.byteAt →
      ∀ i < size, (∀ j ≤ i, Ok j) → s.byteAt (dst i) = s.byteAt (src i)) := by
  have hiff : t.byteAt = s.byteAt ↔
      ∀ i, 0 ≤ i → i < 0 + n → s.byteAt (dst i) = s.byteAt (src i) := by
    rw [hend.view]
    exact copied_eq_self_iff hsep fun i j hij hj => hinj i j hij (by omega)
  have hle := hend.le
  constructor
  · intro hequal
    exact hiff.mpr fun i _ hi => hequal i (by omega) fun j hj => hend.each j (by omega)
  · intro hok hsame i hi hall
    refine hiff.mp hsame i (Nat.zero_le i) ?_
    by_contra hge
    exact hend.stop hret hok (hall n (by omega))

end Failure

/-- In every state of a run that keeps page tables and breaks in order, a
copy that fails has changed no byte if the bytes it reaches are equal
already; with a host that never refuses, only then. -/
theorem failed_copy_changes_nothing {ramSz swpSz : Nat} {host : Nat → Bool} {ops : List Op}
    {s : Sys} (hrun : Run LowStep (boot ramSz swpSz host) ops s) {p : Pid}
    (hp : p ∈ s.runningList) (source destination size : Nat) {offset : Nat}
    (hoff : offset < 2 ^ 32) :
    (∀ t, libkmemCopyFromUser s p source destination offset size = (-1, t) →
      (EqualAlready s p source destination offset size → t.byteAt = s.byteAt) ∧
      (host = (fun _ => true) → t.byteAt = s.byteAt →
        EqualAlready s p source destination offset size)) ∧
    ∀ t, libkmemCopyToUser s p source destination offset size = (-1, t) →
      (EqualAlready s p destination source offset size → t.byteAt = s.byteAt) ∧
      (host = (fun _ => true) → t.byteAt = s.byteAt →
        EqualAlready s p destination source offset size) := by
  obtain ⟨hinv, -⟩ := inv_of_run hrun
  constructor
  · intro t hcopy
    obtain ⟨n, hend⟩ := hinv.libkmemCopyFromUser_end hp hcopy
    have hlt (i : Nat) (hi : i < n) : offset + i < 2 ^ 32 :=
      hinv.offset_lt hoff (fun j hj => (hend.each j hj).2) hi
    exact hend.same_iff (by decide) (userPlace_ne_kernelPlace s p source destination offset)
      fun i j hij hj => kernelPlace_ne hij (hlt j hj)
  · intro t hcopy
    obtain ⟨n, hend⟩ := hinv.libkmemCopyToUser_end hp hcopy
    have hlt (i : Nat) (hi : i < n) : offset + i < 2 ^ 32 :=
      hinv.offset_lt hoff (fun j hj => (hend.each j hj).2) hi
    obtain ⟨henough, honly⟩ := hend.same_iff (by decide)
      (fun i j => (userPlace_ne_kernelPlace s p destination source offset j i).symm)
      fun i j hij hj => userPlace_ne hij (hlt j hj)
    exact ⟨fun hequal => henough fun i hi hall => (hequal i hi hall).symm,
      fun hhost hsame i hi hall => (honly hhost hsame i hi hall).symm⟩

/-- A copy past the end of a region that was never written. -/
theorem failed_copy_changes_nothing_zeros :
    Run LowStep (boot 16384 0 fun _ => true) copyRegions threeRegions ∧
      1 ∈ threeRegions.runningList ∧ EqualAlready threeRegions 1 2 1 99 2 ∧
      ∃ t, libkmemCopyFromUser threeRegions 1 2 1 99 2 = (-1, t) ∧
        t.byteAt = threeRegions.byteAt := by
  have hrun := run_copyRegions.mono fun _ _ _ h => h.lowStep
  have hp : 1 ∈ threeRegions.runningList := by decide +kernel
  have hequal : EqualAlready threeRegions 1 2 1 99 2 := by
    intro i hi hall
    match i with
    | 0 => decide +kernel
    | 1 => exact absurd (hall 1 (Nat.le_refl 1)).1.access (by decide +kernel)
  have hcopy : libkmemCopyFromUser threeRegions 1 2 1 99 2 =
      (-1, (libkmemCopyFromUser threeRegions 1 2 1 99 2).2) := pair_of_fst (by decide +kernel)
  have hsame := (failed_copy_changes_nothing hrun hp 2 1 2 (show 99 < 2 ^ 32 by decide)).1 _ hcopy
  exact ⟨hrun, hp, hequal, _, hcopy, hsame.1 hequal⟩

/-- A copy of two bytes from the last byte of a region on. -/
theorem pastTheEnd_copies_one :
    Run LowStep (boot 16384 0 fun _ => true) copyRegions threeRegions ∧
      1 ∈ threeRegions.runningList ∧
      ∃ t, libkmemCopyFromUser threeRegions 1 0 1 99 2 = (-1, t) ∧
        t.byteAt (threeRegions.kernelByte 1 1 99 0) ≠
          threeRegions.byteAt (threeRegions.kernelByte 1 1 99 0) := by
  refine ⟨run_copyRegions.mono fun _ _ _ h => h.lowStep, by decide +kernel, _,
    pair_of_fst (by decide +kernel), by decide +kernel⟩

end Ossim.Mem
