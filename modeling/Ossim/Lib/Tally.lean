import Mathlib.Algebra.BigOperators.Group.List.Basic
import Mathlib.Algebra.GroupWithZero.Nat
import Mathlib.Data.List.Nodup

/-!
Tallies over a list of owners.

Each owner in a list without repetitions holds a number of copies of
something. The tally is the sum. When one owner changes its holding the
tally moves with it, and where the tally is at most one there is at most
one owner.
-/

namespace Ossim.Lib

variable {ι : Type*} {l : List ι} {f g : ι → Nat} {a b : ι}

/-- The copies all owners of the list hold together. -/
def tally (l : List ι) (f : ι → Nat) : Nat := (l.map f).sum

theorem tally_congr (h : ∀ i ∈ l, f i = g i) : tally l f = tally l g := by
  rw [tally, tally, List.map_congr_left h]

theorem tally_append (l l' : List ι) (f : ι → Nat) :
    tally (l ++ l') f = tally l f + tally l' f := by
  simp [tally]

variable [DecidableEq ι]

theorem tally_erase (ha : a ∈ l) : tally (l.erase a) f + f a = tally l f := by
  have hperm := (List.perm_cons_erase ha).map f
  rw [tally, tally, hperm.sum_eq, List.map_cons, List.sum_cons, Nat.add_comm]

theorem le_tally (ha : a ∈ l) : f a ≤ tally l f := by
  have := tally_erase (f := f) ha
  omega

/-- Only the owner `a` changes its holding. -/
theorem tally_change (hl : l.Nodup) (ha : a ∈ l) (h : ∀ i ∈ l, i ≠ a → f i = g i) :
    tally l f + g a = tally l g + f a := by
  have hf := tally_erase (f := f) ha
  have hg := tally_erase (f := g) ha
  have hrest : tally (l.erase a) f = tally (l.erase a) g :=
    tally_congr fun i hi => h i (List.mem_of_mem_erase hi) (hl.mem_erase_iff.mp hi).1
  omega

theorem owner_unique (ha : a ∈ l) (hb : b ∈ l) (hone : tally l f ≤ 1) (hfa : 1 ≤ f a)
    (hfb : 1 ≤ f b) : b = a := by
  by_contra hne
  have hrest : f b ≤ tally (l.erase a) f := le_tally ((List.mem_erase_of_ne hne).mpr hb)
  have := tally_erase (f := f) ha
  omega

end Ossim.Lib
