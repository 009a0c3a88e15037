import Ossim.Sched.Queue

/-!
The multi-level queue scheduler of `sched.c`.

`SchedT` holds what the functions share under `queue_lock`: one ready
queue and one dispatch budget per priority, and the list of all loaded
processes. Each function is one atomic step, as it is in the source,
where it holds the lock from its first to its last access. A call that
ends in `exit(EXIT_FAILURE)` has no resulting state.

`getMlqProc_spec` says once what the dispatcher can do; nothing else
unfolds it.
-/

namespace Ossim.Sched

/-- `MAX_PRIO` of `os-cfg.h`. -/
def maxPrio : Nat := 140

/-- A process, as the scheduler sees it: the pointer to its PCB. -/
abbrev ProcId := Nat

/-- The static data of `sched.c`. -/
structure SchedT where
  mlqReadyQueue : Nat → QueueT ProcId
  slot : Nat → Nat
  runningList : QueueT ProcId

/-- The budgets at the start of a round. -/
def fullSlot (prio : Nat) : Nat := maxPrio - prio

def initScheduler : SchedT where
  mlqReadyQueue _ := QueueT.init
  slot := fullSlot
  runningList := QueueT.init

namespace SchedT

/-- The processes waiting at one priority, oldest first. -/
def ready (s : SchedT) (prio : Nat) : List ProcId := (s.mlqReadyQueue prio).toList

/-- The processes that `find_proc` sees. -/
def running (s : SchedT) : List ProcId := s.runningList.toList

/-- One scan of `get_mlq_proc`: dispatch from the first queue that is not
empty and has budget left. Both passes of the function are this scan. -/
def pass (s : SchedT) : Option ProcId × SchedT :=
  match (List.range maxPrio).find?
      fun prio => !(s.mlqReadyQueue prio).empty && decide (0 < s.slot prio) with
  | none => (none, s)
  | some prio =>
      ((s.mlqReadyQueue prio).dequeue.1,
        { s with
          mlqReadyQueue :=
            Function.update s.mlqReadyQueue prio (s.mlqReadyQueue prio).dequeue.2
          slot := Function.update s.slot prio (s.slot prio - 1) })

def refill (s : SchedT) : SchedT := { s with slot := fullSlot }

end SchedT

/-- The end-of-round housekeeping on the budget table. -/
def housekeeping (slot : Nat → Nat) : Nat → Nat :=
  if (List.range maxPrio).all fun prio => slot prio == 0 then fullSlot else slot

/-- `get_mlq_proc`. -/
def getMlqProc (s : SchedT) : Option ProcId × SchedT :=
  let first := s.pass
  let result := if first.1.isNone then first.2.refill.pass else first
  (result.1, { result.2 with slot := housekeeping result.2.slot })

variable (prio : ProcId → Nat)

/-- `put_mlq_proc`: a process goes back to the queue of its own priority. -/
def putMlqProc (s : SchedT) (p : ProcId) : Option SchedT :=
  if prio p < maxPrio then
    ((s.mlqReadyQueue (prio p)).enqueue p).map fun q =>
      { s with mlqReadyQueue := Function.update s.mlqReadyQueue (prio p) q }
  else none

/-- `add_mlq_proc`: a loaded process enters its ready queue and the running
list. When the running list is full the source takes it out of the ready
queue again, but only to exit. -/
def addMlqProc (s : SchedT) (p : ProcId) : Option SchedT :=
  (putMlqProc prio s p).bind fun t =>
    (t.runningList.enqueue p).map fun r => { t with runningList := r }

/-- `finish_proc`. -/
def finishProc (s : SchedT) (p : ProcId) : SchedT :=
  { s with runningList := s.runningList.purge p }

/-- The calls the other threads make on the scheduler. -/
inductive SchedOp where
  | add (p : ProcId)
  | put (p : ProcId)
  | get
  | finish (p : ProcId)
  deriving DecidableEq

def schedStep (s : SchedT) : SchedOp → Option SchedT
  | .add p => addMlqProc prio s p
  | .put p => putMlqProc prio s p
  | .get => some (getMlqProc s).2
  | .finish p => some (finishProc s p)

/-! ### What the dispatcher does -/

theorem housekeeping_cases (slot : Nat → Nat) :
    (∀ q < maxPrio, slot q = 0) ∧ housekeeping slot = fullSlot ∨
      (∃ q < maxPrio, 0 < slot q) ∧ housekeeping slot = slot := by
  unfold housekeeping
  split
  next h =>
    left
    simpa using h
  next h =>
    right
    simpa [Nat.pos_iff_ne_zero] using h

/-- `x` is the oldest process of queue `p`, and taking it leads from `s` to
`t`. The last field says which of the two passes picked `p` and with what
budgets the call ends. -/
structure Dispatches (s : SchedT) (p : Nat) (x : ProcId) (t : SchedT) : Prop where
  lt : p < maxPrio
  head : s.ready p = x :: t.ready p
  other : ∀ q, q ≠ p → t.ready q = s.ready q
  running : t.running = s.running
  slots :
    0 < s.slot p ∧ (∀ q < p, s.ready q ≠ [] → s.slot q = 0) ∧
        t.slot = housekeeping (Function.update s.slot p (s.slot p - 1)) ∨
      (∀ q < maxPrio, s.ready q ≠ [] → s.slot q = 0) ∧ (∀ q < p, s.ready q = []) ∧
        t.slot = housekeeping (Function.update fullSlot p (fullSlot p - 1))

/-- A scan that finds nothing: no waiting process has budget. -/
theorem SchedT.pass_none {s : SchedT}
    (h : ∀ q < maxPrio, s.ready q ≠ [] → s.slot q = 0) : s.pass = (none, s) := by
  have hfind : (List.range maxPrio).find?
      (fun prio => !(s.mlqReadyQueue prio).empty && decide (0 < s.slot prio)) = none := by
    rw [List.find?_eq_none]
    intro q hq
    have hslot := h q (List.mem_range.mp hq)
    simp only [Bool.and_eq_true, Bool.not_eq_true', decide_eq_true_eq, not_and]
    intro hne hpos
    have hready : s.ready q ≠ [] := fun hnil => by
      rw [(QueueT.empty_iff _).mpr hnil] at hne
      cases hne
    exact Nat.ne_of_gt hpos (hslot hready)
  simp only [SchedT.pass, hfind]

/-- A scan that stops at queue `p`, described by the state it leaves. -/
theorem SchedT.pass_of_find {s : SchedT} {p : Nat}
    (hp : (List.range maxPrio).find?
      (fun prio => !(s.mlqReadyQueue prio).empty && decide (0 < s.slot prio)) = some p) :
    ∃ x, s.pass.1 = some x ∧ p < maxPrio ∧ s.ready p = x :: s.pass.2.ready p ∧
      (∀ q, q ≠ p → s.pass.2.ready q = s.ready q) ∧ s.pass.2.running = s.running ∧
      0 < s.slot p ∧ (∀ q < p, s.ready q ≠ [] → s.slot q = 0) ∧
      s.pass.2.slot = Function.update s.slot p (s.slot p - 1) := by
  have hpass : s.pass = ((s.mlqReadyQueue p).dequeue.1,
      { s with
        mlqReadyQueue := Function.update s.mlqReadyQueue p (s.mlqReadyQueue p).dequeue.2
        slot := Function.update s.slot p (s.slot p - 1) }) := by
    simp only [SchedT.pass, hp]
  rw [List.find?_range_eq_some] at hp
  obtain ⟨hprop, hmem, hfirst⟩ := hp
  simp only [Bool.and_eq_true, Bool.not_eq_true', decide_eq_true_eq] at hprop
  obtain ⟨hempty, hpos⟩ := hprop
  have hready : s.ready p ≠ [] := fun hnil => by
    rw [(QueueT.empty_iff _).mpr hnil] at hempty
    cases hempty
  obtain ⟨x, rest, hcons⟩ := List.exists_cons_of_ne_nil hready
  obtain ⟨hhead, htail⟩ := QueueT.dequeue_of_cons hcons
  refine ⟨x, by rw [hpass]; exact hhead, List.mem_range.mp hmem, ?_, ?_, ?_, hpos, ?_, ?_⟩
  · rw [hpass, hcons]
    simp [SchedT.ready, htail]
  · intro q hq
    rw [hpass]
    simp [SchedT.ready, Function.update_of_ne hq]
  · rw [hpass]
    rfl
  · intro q hq hne
    have hq' := hfirst q hq
    simp only [Bool.not_eq_true', Bool.and_eq_false_iff, Bool.not_eq_false',
      decide_eq_false_iff_not, Nat.not_lt, Nat.le_zero] at hq'
    exact hq'.resolve_left fun he => hne ((QueueT.empty_iff _).mp he)
  · rw [hpass]

theorem SchedT.pass_some {s : SchedT} (h : ∃ q < maxPrio, s.ready q ≠ [] ∧ 0 < s.slot q) :
    ∃ p x, s.pass.1 = some x ∧ p < maxPrio ∧ s.ready p = x :: s.pass.2.ready p ∧
      (∀ q, q ≠ p → s.pass.2.ready q = s.ready q) ∧ s.pass.2.running = s.running ∧
      0 < s.slot p ∧ (∀ q < p, s.ready q ≠ [] → s.slot q = 0) ∧
      s.pass.2.slot = Function.update s.slot p (s.slot p - 1) := by
  have hsome : ((List.range maxPrio).find?
      (fun prio => !(s.mlqReadyQueue prio).empty && decide (0 < s.slot prio))).isSome := by
    obtain ⟨q, hq, hready, hpos⟩ := h
    rw [List.find?_isSome]
    refine ⟨q, List.mem_range.mpr hq, ?_⟩
    have hempty : (s.mlqReadyQueue q).empty = false :=
      Bool.eq_false_iff.mpr fun he => hready ((QueueT.empty_iff _).mp he)
    simp [hempty, hpos]
  obtain ⟨p, hp⟩ := Option.isSome_iff_exists.mp hsome
  exact ⟨p, SchedT.pass_of_find hp⟩

/-- The dispatcher either finds every ready queue empty, or takes the oldest
process of one queue. -/
theorem getMlqProc_spec (s : SchedT) :
    ((∀ p < maxPrio, s.ready p = []) ∧ (getMlqProc s).1 = none ∧
        (∀ q, (getMlqProc s).2.ready q = s.ready q) ∧
        (getMlqProc s).2.running = s.running ∧ (getMlqProc s).2.slot = fullSlot) ∨
      ∃ p x, (getMlqProc s).1 = some x ∧ Dispatches s p x (getMlqProc s).2 := by
  by_cases hbudget : ∃ q < maxPrio, s.ready q ≠ [] ∧ 0 < s.slot q
  · -- pass 1 dispatches
    obtain ⟨p, x, hx, hlt, hhead, hother, hrun, hpos, hleast, hslot⟩ := SchedT.pass_some hbudget
    have hget : getMlqProc s =
        (some x, { s.pass.2 with slot := housekeeping s.pass.2.slot }) := by
      simp [getMlqProc, hx]
    refine .inr ⟨p, x, by rw [hget], ?_⟩
    rw [hget]
    exact ⟨hlt, hhead, hother, hrun, .inl ⟨hpos, hleast, congrArg housekeeping hslot⟩⟩
  · -- pass 1 finds nothing: the budgets are refilled and pass 2 runs
    have hnone : ∀ q < maxPrio, s.ready q ≠ [] → s.slot q = 0 := by
      intro q hq hne
      by_contra hpos
      exact hbudget ⟨q, hq, hne, Nat.pos_of_ne_zero hpos⟩
    have hget : getMlqProc s =
        (s.refill.pass.1, { s.refill.pass.2 with
          slot := housekeeping s.refill.pass.2.slot }) := by
      simp [getMlqProc, SchedT.pass_none hnone]
    by_cases hwait : ∃ q < maxPrio, s.ready q ≠ []
    · obtain ⟨q, hq, hne⟩ := hwait
      have hfull : ∀ q < maxPrio, 0 < s.refill.slot q := fun q hq => Nat.sub_pos_of_lt hq
      obtain ⟨p, x, hx, hlt, hhead, hother, hrun, -, hleast, hslot⟩ :=
        SchedT.pass_some (s := s.refill) ⟨q, hq, hne, hfull q hq⟩
      refine .inr ⟨p, x, by rw [hget]; exact hx, ?_⟩
      rw [hget]
      refine ⟨hlt, hhead, hother, hrun, .inr ⟨hnone, ?_, congrArg housekeeping hslot⟩⟩
      intro q hq
      by_contra hne
      exact Nat.ne_of_gt (hfull q (Nat.lt_trans hq hlt)) (hleast q hq hne)
    · have hempty : ∀ q < maxPrio, s.ready q = [] := by
        intro q hq
        by_contra hne
        exact hwait ⟨q, hq, hne⟩
      have hpass : s.refill.pass = (none, s.refill) :=
        SchedT.pass_none fun q hq hne => absurd (hempty q hq) hne
      rw [hpass] at hget
      refine .inl ⟨hempty, by rw [hget], fun q => by rw [hget]; rfl, by rw [hget]; rfl, ?_⟩
      rw [hget]
      obtain ⟨-, hk⟩ | ⟨-, hk⟩ := housekeeping_cases fullSlot <;> exact hk

/-! ### What the other calls do to the lists -/

variable {prio}

theorem ready_putMlqProc {s t : SchedT} {p : ProcId} (h : putMlqProc prio s p = some t) (q : Nat) :
    t.ready q = if q = prio p then s.ready q ++ [p] else s.ready q := by
  unfold putMlqProc at h
  split at h
  · obtain ⟨queue, hq, rfl⟩ := Option.map_eq_some_iff.mp h
    by_cases hqp : q = prio p
    · subst hqp
      simpa [SchedT.ready] using QueueT.toList_enqueue hq
    · simp [SchedT.ready, hqp]
  · cases h

theorem prio_lt_of_putMlqProc {s t : SchedT} {p : ProcId} (h : putMlqProc prio s p = some t) :
    prio p < maxPrio ∧ t.slot = s.slot ∧ t.running = s.running := by
  unfold putMlqProc at h
  split at h
  next hlt =>
    obtain ⟨queue, hq, rfl⟩ := Option.map_eq_some_iff.mp h
    exact ⟨hlt, rfl, rfl⟩
  next => cases h

/-- The queue-full branch of `put_mlq_proc`. -/
theorem putMlqProc_isSome_iff {s : SchedT} {p : ProcId} (hp : prio p < maxPrio) :
    (putMlqProc prio s p).isSome ↔ (s.ready (prio p)).length < maxQueueSize := by
  rw [putMlqProc, if_pos hp, Option.isSome_map, QueueT.enqueue_isSome_iff]
  rfl

theorem addMlqProc_spec {s t : SchedT} {p : ProcId} (h : addMlqProc prio s p = some t) :
    prio p < maxPrio ∧ t.slot = s.slot ∧ t.running = s.running ++ [p] ∧
      (∀ q, t.ready q = if q = prio p then s.ready q ++ [p] else s.ready q) ∧
      t.running.length ≤ maxQueueSize := by
  obtain ⟨u, hput, hadd⟩ := Option.bind_eq_some_iff.mp h
  obtain ⟨r, hr, rfl⟩ := Option.map_eq_some_iff.mp hadd
  obtain ⟨hlt, hslot, hrun⟩ := prio_lt_of_putMlqProc hput
  have hlen : u.running.length < maxQueueSize :=
    (QueueT.enqueue_isSome_iff _ _).mp (by rw [hr]; rfl)
  have hrl : r.toList = u.running ++ [p] := QueueT.toList_enqueue hr
  refine ⟨hlt, hslot, ?_, fun q => ready_putMlqProc hput q, ?_⟩
  · rw [← hrun]
    exact hrl
  · show r.toList.length ≤ maxQueueSize
    rw [hrl, List.length_append]
    exact hlen

@[simp] theorem running_finishProc (s : SchedT) (p : ProcId) :
    (finishProc s p).running = s.running.erase p := QueueT.toList_purge _ _

@[simp] theorem ready_finishProc (s : SchedT) (p q : ProcId) :
    (finishProc s p).ready q = s.ready q := rfl

@[simp] theorem slot_finishProc (s : SchedT) (p : ProcId) :
    (finishProc s p).slot = s.slot := rfl

end Ossim.Sched
