import Mathlib.Order.Bounds.Defs
import Ossim.Lib.Budget
import Ossim.Sched.Rounds

/-!
The policy of the multi-level queue.

A call of `get_mlq_proc` serves the first waiting queue with budget, or the
first waiting queue when no budget is left for any of them. How often a
queue is served in a round is read off the history of the budget table: one
event for each dispatch and one for each refill, in the order in which the
calls make them.
-/

namespace Ossim.Sched

open Ossim.Lib

/-- The queue that is served next. -/
def SchedT.Serves (s : SchedT) (p : Nat) : Prop :=
  IsLeast {q | q < maxPrio ∧ s.ready q ≠ [] ∧ 0 < s.slot q} p ∨
    (∀ q < maxPrio, s.ready q ≠ [] → s.slot q = 0) ∧ IsLeast {q | q < maxPrio ∧ s.ready q ≠ []} p

theorem Dispatches.serves {s t : SchedT} {p : Nat} {x : ProcId} (h : Dispatches s p x t) :
    s.Serves p := by
  have hready : s.ready p ≠ [] := by
    rw [h.head]
    exact List.cons_ne_nil _ _
  obtain ⟨hpos, hleast, -⟩ | ⟨hzero, hleast, -⟩ := h.slots
  · refine .inl ⟨⟨h.lt, hready, hpos⟩, ?_⟩
    rintro q ⟨-, hq, hslot⟩
    by_contra hlt
    exact Nat.ne_of_gt hslot (hleast q (Nat.lt_of_not_le hlt) hq)
  · refine .inr ⟨hzero, ⟨h.lt, hready⟩, ?_⟩
    rintro q ⟨-, hq⟩
    by_contra hlt
    exact hq (hleast q (Nat.lt_of_not_le hlt))

theorem getMlqProc_eq_none_iff (s : SchedT) :
    (getMlqProc s).1 = none ↔ ∀ p < maxPrio, s.ready p = [] := by
  obtain ⟨hempty, hnone, -⟩ | ⟨p, x, hx, hd⟩ := getMlqProc_spec s
  · exact ⟨fun _ => hempty, fun _ => hnone⟩
  · constructor
    · intro hnone
      rw [hx] at hnone
      cases hnone
    · intro hempty
      have hhead := hd.head
      rw [hempty p hd.lt] at hhead
      cases hhead

/-! ### The history of the budgets -/

/-- What a scan does to the budgets. -/
def SchedT.passEvents (s : SchedT) : List (BudgetEvent Nat) :=
  match (List.range maxPrio).find?
      fun prio => !(s.mlqReadyQueue prio).empty && decide (0 < s.slot prio) with
  | none => []
  | some prio => [.spend prio]

/-- What a call of `get_mlq_proc` does to the budgets, in its order. -/
def getEvents (s : SchedT) : List (BudgetEvent Nat) :=
  let first := s.pass
  let result := if first.1.isNone then first.2.refill.pass else first
  let scans :=
    if first.1.isNone then s.passEvents ++ .refill :: first.2.refill.passEvents else s.passEvents
  scans ++ if (List.range maxPrio).all fun prio => result.2.slot prio == 0 then [.refill] else []

/-- What a sequence of calls does to the budgets, up to a call that exits. -/
def slotEvents (prio : ProcId → Nat) (s : SchedT) : List SchedOp → List (BudgetEvent Nat)
  | [] => []
  | op :: ops =>
      (if op = .get then getEvents s else []) ++
        match schedStep prio s op with
        | none => []
        | some t => slotEvents prio t ops

/-- The `int` array `slot`. -/
def SchedT.slots (s : SchedT) (prio : Nat) : Int := s.slot prio

def fullSlots (prio : Nat) : Int := fullSlot prio

theorem slots_update {s t : SchedT} {p : Nat} (hpos : 0 < s.slot p)
    (ht : t.slot = Function.update s.slot p (s.slot p - 1)) :
    t.slots = Function.update s.slots p (s.slots p - 1) := by
  funext q
  by_cases hq : q = p
  · subst hq
    rw [Function.update_self, SchedT.slots, SchedT.slots, ht, Function.update_self]
    omega
  · rw [Function.update_of_ne hq, SchedT.slots, SchedT.slots, ht, Function.update_of_ne hq]

theorem run_passEvents (s : SchedT) :
    Run (BudgetEvent.Pays fullSlots) s.slots s.passEvents s.pass.2.slots := by
  unfold SchedT.passEvents
  split
  next hfind =>
    rw [SchedT.pass, hfind]
    exact .nil _
  next p hfind =>
    obtain ⟨x, -, -, -, -, -, hpos, -, hslot⟩ := SchedT.pass_of_find hfind
    refine .cons ⟨slots_update hpos hslot, ?_⟩ (.nil _)
    rintro q ⟨⟩
    exact Int.natCast_pos.mpr hpos

theorem run_getEvents (s : SchedT) :
    Run (BudgetEvent.Pays fullSlots) s.slots (getEvents s) (getMlqProc s).2.slots := by
  have hrefill : ∀ t : SchedT,
      BudgetEvent.Pays fullSlots t.slots .refill t.refill.slots :=
    fun t => ⟨rfl, fun _ h => nomatch h⟩
  have hscans : ∀ result : SchedT, ∀ scans,
      Run (BudgetEvent.Pays fullSlots) s.slots scans result.slots →
      Run (BudgetEvent.Pays fullSlots) s.slots
        (scans ++ if (List.range maxPrio).all fun prio => result.slot prio == 0 then [.refill]
          else [])
        { result with slot := housekeeping result.slot }.slots := by
    intro result scans hrun
    unfold housekeeping
    split
    · exact hrun.snoc (hrefill result)
    · rw [List.append_nil]
      exact hrun
  unfold getEvents getMlqProc
  dsimp only
  apply hscans
  split
  · exact (run_passEvents s).append (.cons (hrefill _) (run_passEvents _))
  · exact run_passEvents s

theorem slots_of_ne_get {prio : ProcId → Nat} {s t : SchedT} {op : SchedOp}
    (hstep : schedStep prio s op = some t) (hop : op ≠ .get) : t.slots = s.slots := by
  have hslot : t.slot = s.slot := by
    cases op with
    | add p => exact (addMlqProc_spec hstep).2.1
    | put p => exact (prio_lt_of_putMlqProc hstep).2.1
    | get => exact absurd rfl hop
    | finish p =>
        cases hstep
        rfl
  funext q
  rw [SchedT.slots, SchedT.slots, hslot]

theorem run_slotEvents {prio : ProcId → Nat} {ops : List SchedOp} {s t : SchedT}
    (hrun : Run (Step (schedStep prio)) s ops t) :
    Run (BudgetEvent.Pays fullSlots) s.slots (slotEvents prio s ops) t.slots := by
  induction hrun with
  | nil s => exact .nil _
  | @cons s u t op ops hstep _ ih =>
      rw [slotEvents, show schedStep prio s op = some u from hstep]
      refine Run.append ?_ ih
      by_cases hop : op = .get
      · subst hop
        cases hstep
        exact run_getEvents s
      · rw [if_neg hop, slots_of_ne_get hstep hop]
        exact .nil _

/-! ### Dispatches in the history -/

theorem passEvents_of_none {s : SchedT} (h : s.pass.1 = none) : s.passEvents = [] := by
  unfold SchedT.passEvents
  split
  next => rfl
  next p hfind =>
    obtain ⟨x, hx, -⟩ := SchedT.pass_of_find hfind
    rw [h] at hx
    cases hx

theorem passEvents_of_some {s : SchedT} {x : ProcId} (h : s.pass.1 = some x) :
    ∃ p, s.passEvents = [.spend p] ∧ s.ready p = x :: s.pass.2.ready p := by
  unfold SchedT.passEvents
  split
  next hfind =>
    rw [SchedT.pass, hfind] at h
    cases h
  next p hfind =>
    obtain ⟨y, hy, -, hready, -⟩ := SchedT.pass_of_find hfind
    rw [h] at hy
    cases hy
    exact ⟨p, rfl, hready⟩

/-- The dispatches among the events. -/
def dispatches (events : List (BudgetEvent Nat)) : List (BudgetEvent Nat) :=
  events.filter (· ≠ .refill)

theorem dispatches_getEvents (s : SchedT) :
    (getMlqProc s).1 = none ∧ dispatches (getEvents s) = [] ∨
      ∃ p x, (getMlqProc s).1 = some x ∧ dispatches (getEvents s) = [.spend p] ∧
        s.ready p = x :: (getMlqProc s).2.ready p := by
  have hlast : ∀ scans : List (BudgetEvent Nat), ∀ c : Bool,
      dispatches (scans ++ if c then [.refill] else []) = dispatches scans := by
    intro scans c
    cases c <;> simp [dispatches]
  cases hfirst : s.pass.1 with
  | some x =>
      obtain ⟨p, hevents, hready⟩ := passEvents_of_some hfirst
      refine .inr ⟨p, x, by simp [getMlqProc, hfirst], ?_, ?_⟩
      · simp only [getEvents, hlast, hfirst, Option.isNone_some, Bool.false_eq_true, if_false,
          hevents]
        rfl
      · rw [hready]
        simp [getMlqProc, hfirst, SchedT.ready]
  | none =>
      have hpass := SchedT.pass_of_none hfirst
      have hevents : dispatches (getEvents s) = dispatches s.refill.passEvents := by
        simp only [getEvents, hlast, hpass, Option.isNone_none, if_true,
          passEvents_of_none hfirst]
        rfl
      rw [hevents]
      cases hsecond : s.refill.pass.1 with
      | none =>
          refine .inl ⟨by simp [getMlqProc, hpass, hsecond], ?_⟩
          rw [passEvents_of_none hsecond]
          rfl
      | some x =>
          obtain ⟨p, hspend, hready⟩ := passEvents_of_some hsecond
          refine .inr ⟨p, x, by simp [getMlqProc, hpass, hsecond], by rw [hspend]; rfl, ?_⟩
          rw [show s.ready p = s.refill.ready p from rfl, hready]
          simp [getMlqProc, hpass, SchedT.ready]

/-! ### Whole call sequences -/

theorem fullSlots_nonneg (p : Nat) : 0 ≤ fullSlots p := Int.natCast_nonneg _

/-- In every state that calls on the scheduler can lead to, `get_mlq_proc`
fails only if no process waits, and otherwise takes the oldest process of
the queue that is to be served. At every point of the calls that led there
the budget of queue `p` is between 0 and `MAX_PRIO - p`, and between two
refills the queue was served at most `MAX_PRIO - p` times. -/
theorem getMlqProc_policy (prio : ProcId → Nat) {ops : List SchedOp} {s : SchedT}
    (hrun : Run (Step (schedStep prio)) initScheduler ops s) :
    ((getMlqProc s).1 = none ↔ ∀ p < maxPrio, s.ready p = []) ∧
      (∀ x, (getMlqProc s).1 = some x → ∃ p, s.Serves p ∧ dispatches (getEvents s) = [.spend p] ∧
        s.ready p = x :: (getMlqProc s).2.ready p ∧
        ∀ q, q ≠ p → (getMlqProc s).2.ready q = s.ready q) ∧
      (∀ p < maxPrio, (s.slot p : Int) = BudgetEvent.balance fullSlots
        (slotEvents prio initScheduler ops) p) ∧
      (∀ pre post, slotEvents prio initScheduler ops = pre ++ post → ∀ p < maxPrio,
        0 ≤ BudgetEvent.balance fullSlots pre p ∧
          BudgetEvent.balance fullSlots pre p ≤ maxPrio - p) ∧
      ∀ pre mid post, slotEvents prio initScheduler ops = pre ++ mid ++ post → .refill ∉ mid →
        ∀ p < maxPrio, mid.count (.spend p) ≤ maxPrio - p := by
  have hevents := run_slotEvents hrun
  have hstart : ∀ p, 0 ≤ initScheduler.slots p ∧ initScheduler.slots p ≤ fullSlots p :=
    fun p => ⟨fullSlots_nonneg p, le_refl _⟩
  refine ⟨getMlqProc_eq_none_iff s, ?_, ?_, ?_, ?_⟩
  · intro x hx
    obtain ⟨-, hnone, -⟩ | ⟨p, y, hy, hd⟩ := getMlqProc_spec s
    · rw [hnone] at hx
      cases hx
    rw [hx] at hy
    cases hy
    refine ⟨p, hd.serves, ?_, hd.head, hd.other⟩
    obtain ⟨hnone, -⟩ | ⟨r, z, hz, hspend, hready⟩ := dispatches_getEvents s
    · rw [hnone] at hx
      cases hx
    -- only the served queue changes
    have hrp : r = p := by
      by_contra hne
      rw [hd.other r hne] at hready
      exact List.cons_ne_self _ _ hready.symm
    rw [hspend, hrp]
  · intro p _
    exact congrFun (BudgetEvent.eq_foldl_of_run hevents) p
  · intro pre post heq p hp
    rw [heq] at hevents
    obtain ⟨b, hpre, -⟩ := hevents.split
    have hb := BudgetEvent.bounded_of_run hpre fullSlots_nonneg hstart p
    rw [BudgetEvent.eq_foldl_of_run hpre] at hb
    refine ⟨hb.1, le_trans hb.2 ?_⟩
    rw [fullSlots, fullSlot]
    omega
  · intro pre mid post heq hno p hp
    rw [heq] at hevents
    have hle := BudgetEvent.spent_le hevents fullSlots_nonneg hstart hno p
    exact Int.ofNat_le.mp hle

/-- Two processes wait, the later one with the higher priority. -/
theorem getMlqProc_policy_overtaking :
    ∃ s, Run (Step (schedStep id)) initScheduler [.add 1, .add 0] s ∧
      (getMlqProc s).1 = some 0 ∧ ∃ p, s.Serves p ∧ dispatches (getEvents s) = [.spend p] ∧
        s.ready p = 0 :: (getMlqProc s).2.ready p ∧
        ∀ q, q ≠ p → (getMlqProc s).2.ready q = s.ready q := by
  obtain ⟨s, hs⟩ : ∃ s, exec (schedStep id) initScheduler [.add 1, .add 0] = some s := ⟨_, rfl⟩
  have hrun := run_of_exec hs
  have hget : (getMlqProc s).1 = some 0 := by
    cases hs
    decide +kernel
  exact ⟨s, hrun, hget, (getMlqProc_policy id hrun).2.1 0 hget⟩

end Ossim.Sched
