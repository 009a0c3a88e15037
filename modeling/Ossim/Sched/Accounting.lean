import Mathlib.Algebra.BigOperators.Group.Finset.Piecewise
import Mathlib.Algebra.Order.BigOperators.Group.Finset
import Ossim.Lib.Run
import Ossim.Sched.CpuLoop

/-!
Every process is accounted for.

For each process the invariant counts occurrences: in the running list,
in the ready queues, and in the hands of CPUs. A loaded process that has
not finished is counted once in the first and once in the other two
together; any other process is counted nowhere. All steps of all threads
move these counts in step, so nothing is lost or duplicated, and a process
that a CPU hands back always finds room: everything in its queue is in the
running list too, and so is the process itself.
-/

namespace Ossim.Sched

open Ossim.Lib

/-- The occurrences of `x` in the ready queues. -/
def queued (s : SchedT) (x : ProcId) : Nat :=
  ∑ p ∈ Finset.range maxPrio, (s.ready p).count x

/-- The CPUs below `n` that hold `x`. -/
def holders (n : Nat) (cpu : Nat → Cpu) (x : ProcId) : Nat :=
  ∑ i ∈ Finset.range n, if (cpu i).held = some x then 1 else 0

/-- `x` was added and is not finished. -/
def OsT.Live (s : OsT) (x : ProcId) : Prop := x < s.ldNext ∧ x ∉ s.finished

instance (s : OsT) (x : ProcId) : Decidable (s.Live x) :=
  inferInstanceAs (Decidable (_ ∧ _))

structure Accounted (c : Config) (s : OsT) : Prop where
  running : ∀ x, s.sched.running.count x = if s.Live x then 1 else 0
  owned : ∀ x, queued s.sched x + holders c.numCpus s.cpu x = if s.Live x then 1 else 0
  prio : ∀ p, ∀ x ∈ s.sched.ready p, c.prio x = p
  prioLt : ∀ x, s.Live x → c.prio x < maxPrio
  bounded : s.sched.running.length ≤ maxQueueSize
  finished : ∀ x ∈ s.finished, x < s.ldNext

/-! ### How the counts move -/

theorem queued_congr {s t : SchedT} (h : ∀ p, t.ready p = s.ready p) (x : ProcId) :
    queued t x = queued s x := by
  simp only [queued, h]

/-- Only queue `p` changes. -/
theorem queued_change {s t : SchedT} {p : Nat} (hp : p < maxPrio)
    (hother : ∀ q, q ≠ p → t.ready q = s.ready q) (x : ProcId) :
    queued t x + (s.ready p).count x = queued s x + (t.ready p).count x := by
  have hmem : p ∈ Finset.range maxPrio := Finset.mem_range.mpr hp
  have hs := Finset.add_sum_erase (Finset.range maxPrio) (fun q => (s.ready q).count x) hmem
  have ht := Finset.add_sum_erase (Finset.range maxPrio) (fun q => (t.ready q).count x) hmem
  have hrest : ∑ q ∈ (Finset.range maxPrio).erase p, (t.ready q).count x =
      ∑ q ∈ (Finset.range maxPrio).erase p, (s.ready q).count x :=
    Finset.sum_congr rfl fun q hq => by rw [hother q (Finset.ne_of_mem_erase hq)]
  simp only [queued]
  omega

theorem holders_update {n i : Nat} (hi : i < n) (cpu : Nat → Cpu) (me : Cpu) (x : ProcId) :
    holders n (Function.update cpu i me) x + (if (cpu i).held = some x then 1 else 0) =
      holders n cpu x + (if me.held = some x then 1 else 0) := by
  have hmem : i ∈ Finset.range n := Finset.mem_range.mpr hi
  have hs := Finset.add_sum_erase (Finset.range n)
    (fun j => if (cpu j).held = some x then 1 else 0) hmem
  have ht := Finset.add_sum_erase (Finset.range n)
    (fun j => if (Function.update cpu i me j).held = some x then 1 else 0) hmem
  have hrest : (∑ j ∈ (Finset.range n).erase i,
        if (Function.update cpu i me j).held = some x then 1 else 0) =
      ∑ j ∈ (Finset.range n).erase i, if (cpu j).held = some x then 1 else 0 :=
    Finset.sum_congr rfl fun j hj => by rw [Function.update_of_ne (Finset.ne_of_mem_erase hj)]
  simp only [Function.update_self] at ht
  simp only [holders]
  omega

theorem one_le_holders {n i : Nat} (hi : i < n) {cpu : Nat → Cpu} {x : ProcId}
    (h : (cpu i).held = some x) : 1 ≤ holders n cpu x := by
  have hs := Finset.add_sum_erase (Finset.range n)
    (fun j => if (cpu j).held = some x then 1 else 0) (Finset.mem_range.mpr hi)
  simp only [h, if_true] at hs
  simp only [holders]
  omega

/-- The dispatcher takes what it returns out of the ready queues. -/
theorem queued_getMlqProc (s : SchedT) (x : ProcId) :
    queued (getMlqProc s).2 x + (if (getMlqProc s).1 = some x then 1 else 0) = queued s x := by
  obtain ⟨-, hnone, hready, -, -⟩ | ⟨p, y, hy, hd⟩ := getMlqProc_spec s
  · simp [hnone, queued_congr hready]
  · have hchange := queued_change hd.lt hd.other x
    rw [hd.head, List.count_cons] at hchange
    rw [hy]
    simp only [beq_iff_eq, Option.some.injEq] at hchange ⊢
    omega

theorem running_getMlqProc (s : SchedT) : (getMlqProc s).2.running = s.running := by
  obtain ⟨-, -, -, hrun, -⟩ | ⟨p, y, -, hd⟩ := getMlqProc_spec s
  · exact hrun
  · exact hd.running

theorem mem_ready_getMlqProc {s : SchedT} {p : Nat} {x : ProcId}
    (h : x ∈ (getMlqProc s).2.ready p) : x ∈ s.ready p := by
  obtain ⟨-, -, hready, -, -⟩ | ⟨q, y, -, hd⟩ := getMlqProc_spec s
  · rwa [hready] at h
  · by_cases hpq : p = q
    · subst hpq
      rw [hd.head]
      exact List.mem_cons_of_mem _ h
    · rwa [hd.other p hpq] at h

theorem queued_putMlqProc {prio : ProcId → Nat} {s t : SchedT} {p : ProcId}
    (h : putMlqProc prio s p = some t) (x : ProcId) :
    queued t x = queued s x + (if p = x then 1 else 0) := by
  obtain ⟨hlt, -, -⟩ := prio_lt_of_putMlqProc h
  have hchange := queued_change (s := s) (t := t) hlt
    (fun q hq => by rw [ready_putMlqProc h, if_neg hq]) x
  have hcount : (t.ready (prio p)).count x =
      (s.ready (prio p)).count x + (if p = x then 1 else 0) := by
    rw [ready_putMlqProc h, if_pos rfl, List.count_append, List.count_singleton]
    simp only [beq_iff_eq]
  omega

/-! ### Consequences of the invariant -/

namespace Accounted

variable {c : Config} {s t : OsT}

theorem live_of_held (h : Accounted c s) {i : Nat} (hi : i < c.numCpus) {x : ProcId}
    (hx : (s.cpu i).held = some x) : s.Live x := by
  by_contra hlive
  have howned := h.owned x
  have := one_le_holders hi hx
  rw [if_neg hlive] at howned
  omega

theorem live_of_queued (h : Accounted c s) {p : Nat} (hp : p < maxPrio) {x : ProcId}
    (hx : x ∈ s.sched.ready p) : s.Live x ∧ (s.sched.ready p).count x = 1 ∧
      holders c.numCpus s.cpu x = 0 := by
  have hpos : 0 < (s.sched.ready p).count x := List.count_pos_iff.mpr hx
  have hle : (s.sched.ready p).count x ≤ queued s.sched x :=
    Finset.single_le_sum (f := fun q => (s.sched.ready q).count x) (fun _ _ => Nat.zero_le _)
      (Finset.mem_range.mpr hp)
  have howned := h.owned x
  by_cases hlive : s.Live x
  · rw [if_pos hlive] at howned
    exact ⟨hlive, by omega, by omega⟩
  · rw [if_neg hlive] at howned
    omega

/-- A process in the hands of a CPU always finds room in its queue: the
queue and the process itself are together part of the running list. -/
theorem put_isSome (h : Accounted c s) {i : Nat} (hi : i < c.numCpus) {x : ProcId}
    (hx : (s.cpu i).held = some x) : (putMlqProc c.prio s.sched x).isSome := by
  have hlive := h.live_of_held hi hx
  have hlt := h.prioLt x hlive
  rw [putMlqProc_isSome_iff hlt]
  have hnodup : (x :: s.sched.ready (c.prio x)).Nodup := by
    refine List.nodup_cons.mpr ⟨fun hmem => ?_, List.nodup_iff_count_le_one.mpr fun y => ?_⟩
    · have := (h.live_of_queued hlt hmem).2.2
      have := one_le_holders hi hx
      omega
    · by_cases hy : y ∈ s.sched.ready (c.prio x)
      · exact (h.live_of_queued hlt hy).2.1.le
      · rw [List.count_eq_zero_of_not_mem hy]
        exact Nat.zero_le 1
  have hsub : x :: s.sched.ready (c.prio x) ⊆ s.sched.running := by
    intro y hy
    have hylive : s.Live y := by
      rcases List.mem_cons.mp hy with rfl | hq
      · exact hlive
      · exact (h.live_of_queued hlt hq).1
    have hrun := h.running y
    rw [if_pos hylive] at hrun
    exact List.count_pos_iff.mp (by omega)
  have hlen := (List.subperm_of_subset hnodup hsub).length_le
  have hbound := h.bounded
  simp only [List.length_cons] at hlen
  omega

/-! ### Preservation -/

/-- A CPU hands itself what the dispatcher returns. -/
theorem get (h : Accounted c s) {i : Nat} (hi : i < c.numCpus) {me : Cpu}
    (hold : (s.cpu i).held = none) (hnew : me.held = (getMlqProc s.sched).1) :
    Accounted c ({ s with sched := (getMlqProc s.sched).2 }.setCpu i me) where
  running x := by
    show (getMlqProc s.sched).2.running.count x = _
    rw [running_getMlqProc]
    exact h.running x
  owned x := by
    have hq := queued_getMlqProc s.sched x
    have hh := holders_update hi s.cpu me x
    have howned := h.owned x
    rw [hold, hnew] at hh
    simp only [reduceCtorEq, if_false] at hh
    show queued (getMlqProc s.sched).2 x + holders c.numCpus (Function.update s.cpu i me) x = _
    have hlive : ({ s with sched := (getMlqProc s.sched).2 }.setCpu i me).Live x = s.Live x := rfl
    simp only [hlive]
    omega
  prio p x hx := h.prio p x (mem_ready_getMlqProc hx)
  prioLt := h.prioLt
  bounded := by
    show (getMlqProc s.sched).2.running.length ≤ _
    rw [running_getMlqProc]
    exact h.bounded
  finished := h.finished

/-- A CPU changes only its own variables and holds what it held. -/
theorem keep (h : Accounted c s) {i : Nat} (hi : i < c.numCpus) {me : Cpu} {pc : ProcId → Nat}
    (hheld : me.held = (s.cpu i).held) : Accounted c ({ s with pc := pc }.setCpu i me) where
  running := h.running
  owned x := by
    have hh := holders_update hi s.cpu me x
    have howned := h.owned x
    rw [hheld] at hh
    show queued s.sched x + holders c.numCpus (Function.update s.cpu i me) x = _
    have hlive : ({ s with pc := pc }.setCpu i me).Live x = s.Live x := rfl
    simp only [hlive]
    omega
  prio := h.prio
  prioLt := h.prioLt
  bounded := h.bounded
  finished := h.finished

theorem finish (h : Accounted c s) {i : Nat} (hi : i < c.numCpus) {p : ProcId} {me : Cpu}
    (hold : (s.cpu i).held = some p) (hnew : me.held = none) :
    Accounted c
      ({ s with sched := finishProc s.sched p, finished := p :: s.finished }.setCpu i me) := by
  have hp := h.live_of_held hi hold
  have hlive (x : ProcId) :
      ({ s with sched := finishProc s.sched p, finished := p :: s.finished }.setCpu i me).Live x ↔
        s.Live x ∧ x ≠ p := by
    simp only [OsT.Live, OsT.setCpu, List.mem_cons, not_or]
    tauto
  refine ⟨fun x => ?_, fun x => ?_, h.prio, fun x hx => h.prioLt x ((hlive x).mp hx).1, ?_, ?_⟩
  · show (finishProc s.sched p).running.count x = _
    rw [running_finishProc]
    by_cases hx : x = p
    · have hrun := h.running p
      subst hx
      rw [if_pos hp] at hrun
      rw [List.count_erase_self, if_neg (fun hl => ((hlive x).mp hl).2 rfl), hrun]
    · rw [List.count_erase_of_ne hx, h.running x]
      simp only [hlive, hx, ne_eq, not_false_eq_true, and_true]
  · have hh := holders_update hi s.cpu me x
    have howned := h.owned x
    rw [hold, hnew] at hh
    simp only [reduceCtorEq, if_false, Option.some.injEq] at hh
    show queued s.sched x + holders c.numCpus (Function.update s.cpu i me) x = _
    by_cases hx : p = x
    · subst hx
      rw [if_pos hp] at howned
      rw [if_neg (fun hl => ((hlive p).mp hl).2 rfl)]
      simp only [if_true] at hh
      omega
    · simp only [if_neg hx] at hh
      simp only [hlive, Ne.symm hx, ne_eq, not_false_eq_true, and_true]
      omega
  · show (finishProc s.sched p).running.length ≤ _
    rw [running_finishProc]
    exact le_trans (List.length_erase_le) h.bounded
  · intro x hx
    rcases List.mem_cons.mp hx with rfl | hx
    · exact hp.1
    · exact h.finished x hx

theorem requeue (h : Accounted c s) {i : Nat} (hi : i < c.numCpus) {p : ProcId} {me : Cpu}
    {u : SchedT} (hput : putMlqProc c.prio s.sched p = some u)
    (hold : (s.cpu i).held = some p) (hnew : me.held = none) :
    Accounted c ({ s with sched := u }.setCpu i me) := by
  obtain ⟨-, -, hrun⟩ := prio_lt_of_putMlqProc hput
  refine ⟨fun x => ?_, fun x => ?_, fun q x hx => ?_, h.prioLt, ?_, h.finished⟩
  · show u.running.count x = _
    rw [hrun]
    exact h.running x
  · have hh := holders_update hi s.cpu me x
    have hq := queued_putMlqProc hput x
    have howned := h.owned x
    rw [hold, hnew] at hh
    simp only [reduceCtorEq, if_false, Option.some.injEq] at hh
    show queued u x + holders c.numCpus (Function.update s.cpu i me) x = _
    have hlive : ({ s with sched := u }.setCpu i me).Live x = s.Live x := rfl
    simp only [hlive]
    omega
  · change x ∈ u.ready q at hx
    rw [ready_putMlqProc hput] at hx
    split at hx
    next hq =>
      rcases List.mem_append.mp hx with hx | hx
      · exact h.prio q x hx
      · rw [List.mem_singleton.mp hx, hq]
    next => exact h.prio q x hx
  · show u.running.length ≤ _
    rw [hrun]
    exact h.bounded

theorem add (h : Accounted c s) {u : SchedT}
    (hadd : addMlqProc c.prio s.sched s.ldNext = some u) :
    Accounted c { s with sched := u, ldNext := s.ldNext + 1 } := by
  obtain ⟨hlt, -, hrun, hready, hlen⟩ := addMlqProc_spec hadd
  have hfresh : s.ldNext ∉ s.finished := fun hmem => Nat.lt_irrefl _ (h.finished _ hmem)
  have hlive (x : ProcId) : ({ s with sched := u, ldNext := s.ldNext + 1 } : OsT).Live x ↔
      s.Live x ∨ x = s.ldNext := by
    simp only [OsT.Live]
    constructor
    · rintro ⟨hx, hnot⟩
      rcases Nat.lt_succ_iff_lt_or_eq.mp hx with hx | hx
      · exact .inl ⟨hx, hnot⟩
      · exact .inr hx
    · rintro (⟨hx, hnot⟩ | rfl)
      · exact ⟨Nat.lt_succ_of_lt hx, hnot⟩
      · exact ⟨Nat.lt_succ_self _, hfresh⟩
  have hcount (x : ProcId) : (if ({ s with sched := u, ldNext := s.ldNext + 1 } : OsT).Live x
      then 1 else 0) = (if s.Live x then 1 else 0) + if s.ldNext = x then 1 else 0 := by
    by_cases hx : x = s.ldNext
    · have hnot : ¬s.Live x := fun hl => Nat.ne_of_lt hl.1 hx
      rw [if_pos ((hlive x).mpr (.inr hx)), if_neg hnot, if_pos hx.symm]
    · rw [if_neg (Ne.symm hx)]
      simp only [hlive, hx, or_false, Nat.add_zero]
  have hput : ∀ q, q ≠ c.prio s.ldNext → u.ready q = s.sched.ready q := fun q hq => by
    rw [hready, if_neg hq]
  refine ⟨fun x => ?_, fun x => ?_, fun q x hx => ?_, fun x hx => ?_, hlen, fun x hx => ?_⟩
  · show u.running.count x = _
    rw [hcount, hrun, List.count_append, h.running x, List.count_singleton]
    simp only [beq_iff_eq]
  · have hq := queued_change hlt hput x
    have howned := h.owned x
    rw [hready, if_pos rfl, List.count_append, List.count_singleton] at hq
    simp only [beq_iff_eq] at hq
    show queued u x + holders c.numCpus s.cpu x = _
    rw [hcount]
    omega
  · change x ∈ u.ready q at hx
    rw [hready] at hx
    split at hx
    next hq =>
      rcases List.mem_append.mp hx with hx | hx
      · exact h.prio q x hx
      · rw [List.mem_singleton.mp hx, hq]
    next => exact h.prio q x hx
  · rcases (hlive x).mp hx with hx | rfl
    · exact h.prioLt x hx
    · exact hlt
  · exact Nat.lt_succ_of_lt (h.finished x hx)

theorem cpuStep (h : Accounted c s) {i : Nat} (hi : i < c.numCpus)
    (hstep : cpuStep c s i = some t) : Accounted c t := by
  have hrun (p : ProcId) : ∃ pc, run c s p = { s with pc := pc } := by
    unfold run
    split
    · exact ⟨s.pc, rfl⟩
    · exact ⟨_, rfl⟩
  cases cpuStep_cases hstep with
  | loadFailed hloc hproc hget =>
      exact h.get hi (by simp [Cpu.held, hproc]) (by simp [Cpu.held, hproc, hget])
  | load p hloc hproc hget =>
      exact h.get hi (by simp [Cpu.held, hproc]) (by simp [Cpu.held, hget])
  | finish p hloc hproc hpc =>
      exact h.finish hi (by simp [Cpu.held, hloc, hproc]) (by simp [Cpu.held])
  | requeue p u hloc hproc hpc htime hput =>
      exact h.requeue hi hput (by simp [Cpu.held, hloc, hproc]) (by simp [Cpu.held])
  | keep p hloc hproc hpc htime => exact h.keep hi (by simp [Cpu.held, hloc])
  | reload hloc => exact h.get hi (by simp [Cpu.held, hloc]) (by simp [Cpu.held])
  | stop hloc hproc hdone => exact h.keep hi (by simp [Cpu.held, hloc])
  | skip hloc hproc hdone => exact h.keep hi (by simp [Cpu.held, hloc])
  | exec p left hloc hproc hleft =>
      obtain ⟨pc, hpc⟩ := hrun p
      rw [hpc]
      exact h.keep hi (by simp [Cpu.held, hloc])
  | slot hloc => exact h.keep hi (by simp [Cpu.held, hloc])

theorem step (h : Accounted c s) {turn : Turn} (hstep : Step (osStep c) s turn t) :
    Accounted c t := by
  unfold Step at hstep
  cases turn with
  | cpu i =>
      simp only [osStep] at hstep
      split at hstep
      next hi => exact h.cpuStep hi hstep
      next => cases hstep
  | loader =>
      simp only [osStep, ldStep] at hstep
      split at hstep
      · split at hstep
        · cases hstep
          exact h
        · obtain ⟨u, hu, rfl⟩ := Option.map_eq_some_iff.mp hstep
          exact h.add hu
      · split at hstep
        · cases hstep
        · cases hstep
          exact ⟨h.running, h.owned, h.prio, h.prioLt, h.bounded, h.finished⟩
  | timer =>
      cases hstep
      exact ⟨h.running, h.owned, h.prio, h.prioLt, h.bounded, h.finished⟩

end Accounted

theorem accounted_init (c : Config) : Accounted c initOs where
  running x := by
    rw [if_neg fun h => Nat.not_lt_zero x h.1]
    rfl
  owned x := by
    rw [if_neg fun h => Nat.not_lt_zero x h.1]
    simp [queued, holders, initOs, initScheduler, SchedT.ready, Cpu.held]
  prio p x hx := by simp [initOs, initScheduler, SchedT.ready] at hx
  prioLt x hx := absurd hx.1 (Nat.not_lt_zero x)
  bounded := Nat.zero_le _
  finished x hx := by simp [initOs] at hx

/-- In every reachable state of any number of CPUs and the loader, a process
that was added and has not finished is once in the running list and once in
the ready queues or the hands of a CPU, in the queue of its own priority if
queued; a finished process is nowhere; and handing back a process never
meets a full queue. -/
theorem process_accounted_once (c : Config) {turns : List Turn} {s : OsT}
    (hreach : Run (Step (osStep c)) initOs turns s) :
    (∀ x < s.ldNext, x ∉ s.finished →
      s.sched.running.count x = 1 ∧ queued s.sched x + holders c.numCpus s.cpu x = 1) ∧
    (∀ x ∈ s.finished,
      s.sched.running.count x = 0 ∧ queued s.sched x = 0 ∧ holders c.numCpus s.cpu x = 0) ∧
    (∀ p < maxPrio, ∀ x ∈ s.sched.ready p, c.prio x = p) ∧
    ∀ i < c.numCpus, ∀ x, (s.cpu i).held = some x → (putMlqProc c.prio s.sched x).isSome := by
  have h : Accounted c s :=
    hreach.invariant (fun _ _ _ hs hstep => hs.step hstep) (accounted_init c)
  refine ⟨fun x hx hnot => ?_, fun x hx => ?_, fun p _ x hx => h.prio p x hx,
    fun i hi x hx => h.put_isSome hi hx⟩
  · have hlive : s.Live x := ⟨hx, hnot⟩
    exact ⟨by rw [h.running x, if_pos hlive], by rw [h.owned x, if_pos hlive]⟩
  · have hdead : ¬s.Live x := fun hl => hl.2 hx
    have howned := h.owned x
    rw [if_neg hdead] at howned
    exact ⟨by rw [h.running x, if_neg hdead], by omega, by omega⟩

/-- One CPU takes the only process of a two-instruction program and hands it
back at the end of its slot. -/
def oneCpu : Config where
  numCpus := 1
  numProcesses := 1
  timeSlot := 1
  startTime _ := 0
  prio _ := 7
  codeSize _ := 2

theorem process_accounted_once_oneCpu :
    ∃ s, Run (Step (osStep oneCpu)) initOs [.loader, .cpu 0, .cpu 0, .cpu 0] s ∧
      0 < s.ldNext ∧ 0 ∉ s.finished ∧
      s.sched.running.count 0 = 1 ∧ queued s.sched 0 + holders 1 s.cpu 0 = 1 := by
  obtain ⟨s, hs⟩ : ∃ s, exec (osStep oneCpu) initOs
      [.loader, .cpu 0, .cpu 0, .cpu 0] = some s := ⟨_, rfl⟩
  have hfacts : (exec (osStep oneCpu) initOs [.loader, .cpu 0, .cpu 0, .cpu 0]).all
      (fun s => decide (0 < s.ldNext) && decide (0 ∉ s.finished)) = true := by
    decide +kernel
  rw [hs] at hfacts
  simp only [Option.all_some, Bool.and_eq_true, decide_eq_true_eq] at hfacts
  obtain ⟨hnext, hnot⟩ := hfacts
  have hrun := run_of_exec hs
  exact ⟨s, hrun, hnext, hnot, (process_accounted_once oneCpu hrun).1 0 hnext hnot⟩

end Ossim.Sched
