import Mathlib.Algebra.Order.Group.Int
import Mathlib.Data.List.Count
import Mathlib.Logic.Function.Basic
import Ossim.Lib.Run

/-!
Budgets that are spent one unit at a time and refilled all at once.

A history is a list of events. `balance` keeps the accounts without any
check, so that an account can go below zero; `Pays` is the step that spends
only where something is left. Along a run of such steps every account stays
between zero and its full budget, and what is spent from one account
between two refills is at most its full budget.
-/

namespace Ossim.Lib

variable {κ : Type*} [DecidableEq κ]

inductive BudgetEvent (κ : Type*)
  | refill
  | spend (k : κ)
  deriving DecidableEq

namespace BudgetEvent

/-- The accounts after one event. -/
def apply (full : κ → Int) (b : κ → Int) : BudgetEvent κ → κ → Int
  | .refill => full
  | .spend k => Function.update b k (b k - 1)

/-- The accounts after a history that starts with full accounts. -/
def balance (full : κ → Int) (events : List (BudgetEvent κ)) : κ → Int :=
  events.foldl (apply full) full

/-- One event, which spends only from an account with something left. -/
def Pays (full : κ → Int) (b : κ → Int) (e : BudgetEvent κ) (b' : κ → Int) : Prop :=
  b' = apply full b e ∧ ∀ k, e = .spend k → 0 < b k

variable {full b b' : κ → Int} {events : List (BudgetEvent κ)}

theorem Pays.bounded {e : BudgetEvent κ} (h : Pays full b e b') (hfull : ∀ k, 0 ≤ full k)
    (hb : ∀ k, 0 ≤ b k ∧ b k ≤ full k) (k : κ) : 0 ≤ b' k ∧ b' k ≤ full k := by
  obtain ⟨rfl, hpos⟩ := h
  cases e with
  | refill => exact ⟨hfull k, le_refl _⟩
  | spend j =>
      have hj := hpos j rfl
      have hk := hb k
      by_cases hkj : k = j
      · subst hkj
        rw [apply, Function.update_self]
        omega
      · rw [apply, Function.update_of_ne hkj]
        exact hk

theorem bounded_of_run (h : Run (Pays full) b events b') (hfull : ∀ k, 0 ≤ full k)
    (hb : ∀ k, 0 ≤ b k ∧ b k ≤ full k) (k : κ) : 0 ≤ b' k ∧ b' k ≤ full k :=
  h.invariant (I := fun b => ∀ k, 0 ≤ b k ∧ b k ≤ full k)
    (fun _ _ _ hI hstep => hstep.bounded hfull hI) hb k

theorem eq_foldl_of_run (h : Run (Pays full) b events b') :
    b' = events.foldl (apply full) b := by
  induction h with
  | nil b => rfl
  | cons hstep _ ih =>
      rw [ih, hstep.1]
      rfl

/-- Without a refill, an account goes down by what is spent from it. -/
theorem count_add_of_run (h : Run (Pays full) b events b') (hno : .refill ∉ events) (k : κ) :
    (events.count (.spend k) : Int) + b' k = b k := by
  induction h with
  | nil b => simp
  | @cons b c b' e events hstep _ ih =>
      obtain ⟨rfl, -⟩ := hstep
      have ih := ih fun hmem => hno (List.mem_cons_of_mem _ hmem)
      cases e with
      | refill => exact absurd (List.mem_cons_self ..) hno
      | spend j =>
          by_cases hkj : k = j
          · subst hkj
            rw [apply, Function.update_self] at ih
            rw [List.count_cons_self]
            push_cast
            omega
          · rw [apply, Function.update_of_ne hkj] at ih
            rw [List.count_cons_of_ne (fun heq => hkj (BudgetEvent.spend.inj heq).symm)]
            exact ih

/-- A stretch of a history without a refill spends at most the full budget
of an account. -/
theorem spent_le {pre mid post : List (BudgetEvent κ)}
    (h : Run (Pays full) b (pre ++ mid ++ post) b') (hfull : ∀ k, 0 ≤ full k)
    (hb : ∀ k, 0 ≤ b k ∧ b k ≤ full k) (hno : .refill ∉ mid) (k : κ) :
    (mid.count (.spend k) : Int) ≤ full k := by
  obtain ⟨c, hfirst, -⟩ := h.split
  obtain ⟨a, hpre, hmid⟩ := hfirst.split
  have ha := bounded_of_run hpre hfull hb k
  have hc := bounded_of_run hfirst hfull hb k
  have hcount := count_add_of_run hmid hno k
  omega

end BudgetEvent

end Ossim.Lib
