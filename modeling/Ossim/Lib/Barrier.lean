import Mathlib.Logic.Function.Basic

/-!
A barrier between parties that work in slots.

A party works in its slot, reports that it is done with it, waits, and goes
on to the next slot; it may leave for good while it works. What makes this
a barrier is the side condition of the step to the next slot: every party
that has not left is done with the slot that is to be left. Then no party
is ever a slot ahead of one that is still at work.
-/

namespace Ossim.Lib

inductive Phase
  | working
  | waiting
  | left
  deriving DecidableEq

structure Party where
  /-- the slots it has gone through -/
  slot : Nat
  phase : Phase

namespace Party

/-- The slots the party is done with. -/
def finished (x : Party) : Nat := if x.phase = .waiting then x.slot + 1 else x.slot

theorem slot_le_finished (x : Party) : x.slot ≤ x.finished := by
  rw [finished]
  split <;> omega

def report (x : Party) : Party := { x with phase := .waiting }

def pass (x : Party) : Party := { slot := x.slot + 1, phase := .working }

def leave (x : Party) : Party := { x with phase := .left }

end Party

variable {ι : Type*} (members : List ι)

/-- Every member that has not left is done with the slot of `i`. -/
def MayPass (b : ι → Party) (i : ι) : Prop :=
  ∀ j ∈ members, (b j).phase = .left ∨ (b i).slot < (b j).finished

instance (b : ι → Party) (i : ι) : Decidable (MayPass members b i) :=
  inferInstanceAs (Decidable (∀ j ∈ members, _))

/-- No member is a slot ahead of one that has not left. -/
def Together (b : ι → Party) : Prop :=
  ∀ i ∈ members, ∀ j ∈ members, (b j).phase = .left ∨ (b i).slot ≤ (b j).finished

namespace Together

variable [DecidableEq ι] {members} {b : ι → Party} {i : ι}

/-- One party changes. What has to be shown is how it stands to all. -/
theorem update (h : Together members b) {x : Party} (hi : i ∈ members)
    (hahead : ∀ j ∈ members, j ≠ i → (b j).phase = .left ∨ x.slot ≤ (b j).finished)
    (hbehind : x.phase = .left ∨ (b i).phase ≠ .left ∧ (b i).finished ≤ x.finished) :
    Together members (Function.update b i x) := by
  intro j hj k hk
  rcases eq_or_ne k i with rfl | hki
  · rw [Function.update_self]
    rcases hbehind with hleft | ⟨hnot, hle⟩
    · exact .inl hleft
    rcases eq_or_ne j k with rfl | hjk
    · rw [Function.update_self]
      exact .inr x.slot_le_finished
    · rw [Function.update_of_ne hjk]
      exact .inr (Nat.le_trans ((h j hj k hk).resolve_left hnot) hle)
  · rw [Function.update_of_ne hki]
    rcases eq_or_ne j i with rfl | hji
    · rw [Function.update_self]
      exact hahead k hk hki
    · rw [Function.update_of_ne hji]
      exact h j hj k hk

theorem report (h : Together members b) (hi : i ∈ members) (hwork : (b i).phase = .working) :
    Together members (Function.update b i (b i).report) := by
  refine h.update hi (fun j hj _ => h i hi j hj) (.inr ⟨?_, ?_⟩)
  · rw [hwork]
    decide
  · simp [Party.finished, Party.report, hwork]

theorem pass (h : Together members b) (hi : i ∈ members) (hwait : (b i).phase = .waiting)
    (hpass : MayPass members b i) : Together members (Function.update b i (b i).pass) := by
  refine h.update hi (fun j hj _ => hpass j hj) (.inr ⟨?_, ?_⟩)
  · rw [hwait]
    decide
  · simp [Party.finished, Party.pass, hwait]

theorem leave (h : Together members b) (hi : i ∈ members) :
    Together members (Function.update b i (b i).leave) :=
  h.update hi (fun j hj _ => h i hi j hj) (.inl rfl)

end Together

end Ossim.Lib
