import Mathlib.Data.List.Basic
import Mathlib.Data.List.Nodup

/-!
Logs of arrivals and departures.

A log tells in which order keys came in and went out, its newest move first.
It determines which keys are inside, and when each of them came in last.
The list of the keys inside, the newest first, is what a queue holds that
puts arrivals in front and takes departures out wherever they are.
-/

namespace Ossim.Lib

/-- A key comes in or goes out. -/
inductive Move (κ : Type*)
  | arrive (k : κ)
  | leave (k : κ)
  deriving DecidableEq

namespace Move

section

variable {κ : Type*} [DecidableEq κ]

/-- The keys inside after the moves of a log. -/
def inside : List (Move κ) → List κ
  | [] => []
  | arrive k :: log => k :: inside log
  | leave k :: log => (inside log).filter (· ≠ k)

/-- The time of the last arrival of a key. -/
def arrivedAt (k : κ) : List (Move κ) → Nat
  | [] => 0
  | m :: log => if m = arrive k then log.length + 1 else arrivedAt k log

/-- Only a key that is not inside comes in. -/
def Valid : List (Move κ) → Prop
  | [] => True
  | arrive k :: log => k ∉ inside log ∧ Valid log
  | leave _ :: log => Valid log

theorem arrivedAt_le (k : κ) (log : List (Move κ)) : arrivedAt k log ≤ log.length := by
  induction log with
  | nil => exact Nat.le_refl _
  | cons m log ih =>
      rw [arrivedAt]
      split
      · exact Nat.le_refl _
      · exact Nat.le_succ_of_le ih

theorem nodup_inside {log : List (Move κ)} (h : Valid log) : (inside log).Nodup := by
  induction log with
  | nil => exact List.nodup_nil
  | cons m log ih =>
      cases m with
      | arrive k => exact List.nodup_cons.mpr ⟨h.1, ih h.2⟩
      | leave k => exact (ih h).filter _

/-- The keys inside are ordered by their last arrival. -/
theorem pairwise_inside {log : List (Move κ)} (h : Valid log) :
    (inside log).Pairwise fun newer older => arrivedAt older log < arrivedAt newer log := by
  induction log with
  | nil => exact .nil
  | cons m log ih =>
      cases m with
      | arrive k =>
          have hold {a : κ} (ha : a ∈ inside log) :
              arrivedAt a (arrive k :: log) = arrivedAt a log := by
            rw [arrivedAt, if_neg]
            intro heq
            cases heq
            exact h.1 ha
          refine .cons (fun a ha => ?_) ((ih h.2).imp_of_mem fun ha hb hlt => ?_)
          · rw [hold ha, arrivedAt, if_pos rfl]
            exact Nat.lt_succ_of_le (arrivedAt_le a log)
          · rw [hold ha, hold hb]
            exact hlt
      | leave k =>
          refine ((ih h).sublist List.filter_sublist).imp fun hlt => ?_
          simpa only [arrivedAt, reduceCtorEq, if_false] using hlt

end

/-! ### Keys of one class -/

section

variable {ι α : Type*} [DecidableEq ι]

/-- The keys of one class, without it. -/
def ofClass (c : ι) (l : List (ι × α)) : List α :=
  l.filterMap fun k => if k.1 = c then some k.2 else none

theorem mem_ofClass {c : ι} {l : List (ι × α)} {a : α} : a ∈ ofClass c l ↔ (c, a) ∈ l := by
  simp only [ofClass, List.mem_filterMap, Option.ite_none_right_eq_some, Option.some.injEq]
  constructor
  · rintro ⟨⟨c', a'⟩, hmem, rfl, rfl⟩
    exact hmem
  · exact fun hmem => ⟨(c, a), hmem, rfl, rfl⟩

theorem ofClass_cons_self (c : ι) (a : α) (l : List (ι × α)) :
    ofClass c ((c, a) :: l) = a :: ofClass c l := by
  simp [ofClass]

theorem ofClass_cons_of_ne {c d : ι} (h : d ≠ c) (a : α) (l : List (ι × α)) :
    ofClass d ((c, a) :: l) = ofClass d l := by
  simp [ofClass, h.symm]

variable [DecidableEq α]

theorem ofClass_leave_self (c : ι) (a : α) (log : List (Move (ι × α))) :
    ofClass c (inside (leave (c, a) :: log)) = (ofClass c (inside log)).filter (· ≠ a) := by
  rw [inside]
  induction inside log with
  | nil => rfl
  | cons k l ih =>
      obtain ⟨d, b⟩ := k
      rcases eq_or_ne d c with rfl | hd
      · rw [ofClass_cons_self]
        rcases eq_or_ne b a with rfl | hb
        · rw [List.filter_cons_of_neg (by simp), List.filter_cons_of_neg (by simp), ih]
        · rw [List.filter_cons_of_pos (by simp [hb]), List.filter_cons_of_pos (by simp [hb]),
            ofClass_cons_self, ih]
      · rw [ofClass_cons_of_ne hd.symm, List.filter_cons_of_pos (by simp [hd]),
          ofClass_cons_of_ne hd.symm, ih]

theorem ofClass_leave_of_ne {c d : ι} (h : d ≠ c) (a : α) (log : List (Move (ι × α))) :
    ofClass d (inside (leave (c, a) :: log)) = ofClass d (inside log) := by
  rw [inside]
  induction inside log with
  | nil => rfl
  | cons k l ih =>
      obtain ⟨e, b⟩ := k
      rcases eq_or_ne e d with rfl | he
      · rw [List.filter_cons_of_pos (by simp [h]), ofClass_cons_self, ofClass_cons_self, ih]
      · rw [ofClass_cons_of_ne he.symm, List.filter_cons]
        split
        · rw [ofClass_cons_of_ne he.symm, ih]
        · exact ih

theorem nodup_ofClass {c : ι} {log : List (Move (ι × α))} (h : Valid log) :
    (ofClass c (inside log)).Nodup := by
  refine (nodup_inside h).filterMap fun k k' a hk hk' => ?_
  simp only [Option.mem_def, Option.ite_none_right_eq_some, Option.some.injEq] at hk hk'
  exact Prod.ext (hk.1.trans hk'.1.symm) (hk.2.trans hk'.2.symm)

theorem pairwise_ofClass {c : ι} {log : List (Move (ι × α))} (h : Valid log) :
    (ofClass c (inside log)).Pairwise fun newer older =>
      arrivedAt (c, older) log < arrivedAt (c, newer) log := by
  refine (pairwise_inside h).filterMap _ fun k k' hlt a hk b hk' => ?_
  simp only [Option.ite_none_right_eq_some, Option.some.injEq] at hk hk'
  have hnewer : (c, a) = k := Prod.ext hk.1.symm hk.2.symm
  have holder : (c, b) = k' := Prod.ext hk'.1.symm hk'.2.symm
  rw [hnewer, holder]
  exact hlt

/-- Departures of one class. -/
def leaveAll (c : ι) (l : List α) : List (Move (ι × α)) := l.map fun a => leave (c, a)

theorem valid_leaveAll {c : ι} {log : List (Move (ι × α))} (h : Valid log) (l : List α) :
    Valid (leaveAll c l ++ log) := by
  induction l with
  | nil => exact h
  | cons a l ih => exact ih

theorem inside_leaveAll_subset (c : ι) (l : List α) (log : List (Move (ι × α))) :
    inside (leaveAll c l ++ log) ⊆ inside log := by
  induction l with
  | nil => exact List.Subset.refl _
  | cons a l ih => exact fun k hk => ih (List.mem_filter.mp hk).1

theorem ofClass_leaveAll {c d : ι} (h : d ≠ c) (l : List α) (log : List (Move (ι × α))) :
    ofClass d (inside (leaveAll c l ++ log)) = ofClass d (inside log) := by
  induction l with
  | nil => rfl
  | cons a l ih => exact (ofClass_leave_of_ne h a _).trans ih

end

end Move

end Ossim.Lib
