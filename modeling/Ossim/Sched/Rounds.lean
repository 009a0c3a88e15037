import Ossim.Sched.Mlq

/-!
The end-of-round housekeeping of `get_mlq_proc` cannot be observed.

`getMlqProcLazy` is the dispatcher without the last block, which refills in
pass 2 only. At every point of a run the budgets of the source are the
housekept budgets of the lazy dispatcher, and everything else is the same.
-/

namespace Ossim.Sched

/-- `get_mlq_proc` without its last block. -/
def getMlqProcLazy (s : SchedT) : Option ProcId × SchedT :=
  let first := s.pass
  if first.1.isNone then first.2.refill.pass else first

/-- A call on the scheduler with dispatcher `get`: what it returns, if it
is a dispatch, and the state it leaves. -/
def callWith (get : SchedT → Option ProcId × SchedT) (prio : ProcId → Nat) (s : SchedT) :
    SchedOp → Option (List (Option ProcId) × SchedT)
  | .add p => (addMlqProc prio s p).map ([], ·)
  | .put p => (putMlqProc prio s p).map ([], ·)
  | .get => some ([(get s).1], (get s).2)
  | .finish p => some ([], finishProc s p)

/-- What a sequence of calls gets from the dispatcher, up to a call that exits. -/
def returned (get : SchedT → Option ProcId × SchedT) (prio : ProcId → Nat) (s : SchedT) :
    List SchedOp → List (Option ProcId)
  | [] => []
  | op :: ops =>
      match callWith get prio s op with
      | none => []
      | some (out, t) => out ++ returned get prio t ops

/-- The state with the housekeeping done. -/
def SchedT.tidy (s : SchedT) : SchedT := { s with slot := housekeeping s.slot }

theorem tidy_initScheduler : initScheduler.tidy = initScheduler := by
  have hk : housekeeping fullSlot = fullSlot := by
    obtain ⟨-, hk⟩ | ⟨-, hk⟩ := housekeeping_cases fullSlot <;> exact hk
  simp only [SchedT.tidy, initScheduler, hk]

theorem SchedT.pass_of_none {s : SchedT} (h : s.pass.1 = none) : s.pass = (none, s) := by
  refine SchedT.pass_none fun q hq hne => ?_
  by_contra hslot
  obtain ⟨p, x, hx, -⟩ := SchedT.pass_some ⟨q, hq, hne, Nat.pos_of_ne_zero hslot⟩
  rw [h] at hx
  cases hx

/-- After the housekeeping the dispatcher does what the lazy one does
without it, and tidies up the result. -/
theorem getMlqProc_tidy (s : SchedT) :
    getMlqProc s.tidy = ((getMlqProcLazy s).1, (getMlqProcLazy s).2.tidy) := by
  obtain ⟨hzero, hk⟩ | ⟨-, hk⟩ := housekeeping_cases s.slot
  · -- the round is over: pass 1 of the lazy dispatcher finds nothing
    have hnone : s.pass = (none, s) := SchedT.pass_none fun q hq _ => hzero q hq
    have htidy : s.tidy = s.refill := by simp only [SchedT.tidy, SchedT.refill, hk]
    have hlazy : getMlqProcLazy s = s.refill.pass := by
      simp only [getMlqProcLazy, hnone, Option.isNone_none, if_true]
    rw [htidy, hlazy]
    cases hpass : s.refill.pass.1 with
    | none =>
        have hsame : s.refill.pass.2 = s.refill := by rw [SchedT.pass_of_none hpass]
        have hagain : s.refill.pass.2.refill.pass = s.refill.pass := by
          rw [hsame]
          rfl
        simp only [getMlqProc, hpass, Option.isNone_none, if_true, hagain, SchedT.tidy]
    | some x => simp [getMlqProc, hpass, SchedT.tidy]
  · have htidy : s.tidy = s := by simp only [SchedT.tidy, hk]
    rw [htidy]
    rfl

/-! ### Arrivals do not look at the budgets -/

theorem putMlqProc_tidy (prio : ProcId → Nat) (s : SchedT) (p : ProcId) :
    putMlqProc prio s.tidy p = (putMlqProc prio s p).map SchedT.tidy := by
  unfold putMlqProc
  split
  · rw [Option.map_map]
    rfl
  · rfl

theorem addMlqProc_tidy (prio : ProcId → Nat) (s : SchedT) (p : ProcId) :
    addMlqProc prio s.tidy p = (addMlqProc prio s p).map SchedT.tidy := by
  rw [addMlqProc, putMlqProc_tidy, Option.bind_map, addMlqProc, Option.map_bind]
  congr 1
  funext t
  rw [Function.comp_apply, Function.comp_apply, Option.map_map]
  rfl

theorem callWith_tidy (prio : ProcId → Nat) (s : SchedT) (op : SchedOp) :
    callWith getMlqProc prio s.tidy op =
      (callWith getMlqProcLazy prio s op).map fun r => (r.1, r.2.tidy) := by
  cases op with
  | add p =>
      rw [callWith, callWith, addMlqProc_tidy, Option.map_map, Option.map_map]
      rfl
  | put p =>
      rw [callWith, callWith, putMlqProc_tidy, Option.map_map, Option.map_map]
      rfl
  | get =>
      rw [callWith, callWith, getMlqProc_tidy]
      rfl
  | finish p => rfl

theorem returned_tidy (prio : ProcId → Nat) (s : SchedT) (ops : List SchedOp) :
    returned getMlqProc prio s.tidy ops = returned getMlqProcLazy prio s ops := by
  induction ops generalizing s with
  | nil => rfl
  | cons op ops ih =>
      rw [returned, returned, callWith_tidy]
      cases callWith getMlqProcLazy prio s op with
      | none => rfl
      | some r => exact congrArg (r.1 ++ ·) (ih r.2)

/-- No sequence of calls can tell the dispatcher from the lazy one. -/
theorem housekeeping_unobservable (prio : ProcId → Nat) (ops : List SchedOp) :
    returned getMlqProc prio initScheduler ops =
      returned getMlqProcLazy prio initScheduler ops := by
  have h := returned_tidy prio initScheduler ops
  rwa [tidy_initScheduler] at h

end Ossim.Sched
