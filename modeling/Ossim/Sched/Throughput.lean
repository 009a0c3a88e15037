import Mathlib.Tactic.Ring
import Ossim.Sched.Arrivals
import Ossim.Sched.Quanta

/-!
How much gets done in a slot, and how many steps a slot can take.

Once all processes are added no slot is wasted: at a tick either every CPU
has executed an instruction in the slot, or the ready queues are empty and
every process that is not finished has executed one. A CPU that finds
nothing to do has looked at empty queues; what is in them later was put
there by a CPU that then takes something out again in the same slot.

A slot of the first kind is paid for by the sum of the program lengths, one
of the second kind by the longest program. So all processes are finished
after a number of slots that depends on the configuration only. Nor can the
threads run forever within a slot, so the same holds for a number of steps.
-/

namespace Ossim.Sched

open Ossim.Lib

variable (c : Config)

/-- The calls of `run` a process takes: a CPU also runs an empty program
once before it finds it at its end. -/
def need (x : ProcId) : Nat := max (c.codeSize x) 1

/-- The CPU has run its process in this iteration of the loop. -/
def Cpu.Ran (me : Cpu) (x : ProcId) : Prop :=
  me.proc = some x ∧ (me.loc = .head ∨ me.loc = .nextSlot)

/-- What the processes have executed. -/
structure WorkInv (c : Config) (s : OsT) (execs : ProcId → Nat) : Prop where
  nodup : s.finished.Nodup
  pc : ∀ x, s.pc x = min (execs x) (c.codeSize x)
  le : ∀ x, execs x ≤ need c x
  complete : ∀ x ∈ s.finished, execs x = need c x
  ran : ∀ i < c.numCpus, ∀ x, (s.cpu i).Ran x → 1 ≤ execs x
  left : ∀ x, execs x < need c x ∨ x ∈ s.finished ∨ ∃ i < c.numCpus, (s.cpu i).Ran x

namespace WorkInv

variable {c} {s u : OsT} {execs : ProcId → Nat} {i : Nat}

theorem start (c : Config) : WorkInv c initOs fun _ => 0 where
  nodup := List.nodup_nil
  pc x := (Nat.zero_min _).symm
  le x := Nat.zero_le _
  complete x h := by cases h
  ran i _ x h := by
    obtain ⟨hproc, -⟩ := h
    cases hproc
  left x := .inl (Nat.le_max_right ..)

/-- A CPU changes its variables and nothing is executed or finished. -/
theorem quiet (h : WorkInv c s execs) (hi : i < c.numCpus) (hfin : u.finished = s.finished)
    (hpc : u.pc = s.pc) (hother : ∀ j ≠ i, u.cpu j = s.cpu j)
    (henter : ∀ x, (u.cpu i).Ran x → 1 ≤ execs x)
    (hleave : ∀ x, (s.cpu i).Ran x → execs x < need c x ∨ (u.cpu i).Ran x) :
    WorkInv c u execs := by
  refine ⟨hfin ▸ h.nodup, hpc ▸ h.pc, h.le, hfin ▸ h.complete, fun j hj x hx => ?_, fun x => ?_⟩
  · rcases eq_or_ne j i with rfl | hji
    · exact henter x hx
    · rw [hother j hji] at hx
      exact h.ran j hj x hx
  · rw [hfin]
    rcases h.left x with hlt | hmem | ⟨j, hj, hx⟩
    · exact .inl hlt
    · exact .inr (.inl hmem)
    · rcases eq_or_ne j i with rfl | hji
      · exact (hleave x hx).imp_right fun hran => .inr ⟨j, hj, hran⟩
      · exact .inr (.inr ⟨j, hj, by rwa [hother j hji]⟩)

/-- A process that a CPU is about to run has something left. -/
theorem lt_need (h : WorkInv c s execs) (hacc : Accounted c s) (hi : i < c.numCpus) {p : ProcId}
    (hloc : (s.cpu i).loc = .recheck) (hproc : (s.cpu i).proc = some p) : execs p < need c p := by
  have hheld : (s.cpu i).held = some p := by simp [Cpu.held, hloc, hproc]
  rcases h.left p with hlt | hmem | ⟨j, hj, hran, hjloc⟩
  · exact hlt
  · exact absurd hmem (hacc.live_of_held hi hheld).2
  · have hjheld : (s.cpu j).held = some p := by
      rcases hjloc with hjloc | hjloc <;> simp [Cpu.held, hjloc, hran]
    obtain rfl := QuantaInv.holder_unique hacc hi hj hheld hjheld
    rw [hloc] at hjloc
    rcases hjloc with hjloc | hjloc <;> cases hjloc

theorem run_pc_eq (h : WorkInv c s execs) (p : ProcId) (hlt : execs p < need c p) (x : ProcId) :
    (Sched.run c s p).pc x =
      min (Function.update execs p (execs p + 1) x) (c.codeSize x) := by
  have hpc := h.pc p
  rcases eq_or_ne x p with rfl | hxp
  · rw [Function.update_self, Sched.run]
    rw [need] at hlt
    split
    · omega
    · simp only [Function.update_self]
      omega
  · rw [Function.update_of_ne hxp, QuantaInv.run_pc hxp]
    exact h.pc x

theorem exec (h : WorkInv c s execs) (hacc : Accounted c s) (hi : i < c.numCpus) {p : ProcId}
    {me : Cpu} (hloc : (s.cpu i).loc = .recheck) (hproc : (s.cpu i).proc = some p)
    (hme : me.proc = some p) (hnext : me.loc = .nextSlot) :
    WorkInv c ((Sched.run c s p).setCpu i me) (Function.update execs p (execs p + 1)) := by
  have hlt := h.lt_need hacc hi hloc hproc
  have hfin : ((Sched.run c s p).setCpu i me).finished = s.finished := QuantaInv.run_finished c s p
  have hother (j : Nat) (hji : j ≠ i) : ((Sched.run c s p).setCpu i me).cpu j = s.cpu j := by
    rw [cpu_setCpu_of_ne _ hji, QuantaInv.run_cpu]
  refine ⟨hfin ▸ h.nodup, h.run_pc_eq p hlt, fun x => ?_, fun x hx => ?_, fun j hj x hx => ?_,
    fun x => ?_⟩
  · rcases eq_or_ne x p with rfl | hxp
    · rw [Function.update_self]
      exact hlt
    · rw [Function.update_of_ne hxp]
      exact h.le x
  · rw [hfin] at hx
    rcases eq_or_ne x p with rfl | hxp
    · exact absurd (h.complete x hx) (Nat.ne_of_lt hlt)
    · rw [Function.update_of_ne hxp]
      exact h.complete x hx
  · rcases eq_or_ne x p with rfl | hxp
    · rw [Function.update_self]
      exact Nat.le_add_left 1 _
    · rw [Function.update_of_ne hxp]
      rcases eq_or_ne j i with rfl | hji
      · obtain ⟨hx, -⟩ := hx
        rw [cpu_setCpu_self, hme] at hx
        exact absurd (Option.some.inj hx).symm hxp
      · rw [hother j hji] at hx
        exact h.ran j hj x hx
  · rw [hfin]
    rcases eq_or_ne x p with rfl | hxp
    · exact .inr (.inr ⟨i, hi, by rw [cpu_setCpu_self]; exact ⟨hme, .inr hnext⟩⟩)
    · rw [Function.update_of_ne hxp]
      rcases h.left x with hless | hmem | ⟨j, hj, hran⟩
      · exact .inl hless
      · exact .inr (.inl hmem)
      · have hji : j ≠ i := by
          rintro rfl
          obtain ⟨hx, -⟩ := hran
          rw [hproc] at hx
          exact hxp (Option.some.inj hx).symm
        exact .inr (.inr ⟨j, hj, by rwa [hother j hji]⟩)

theorem finish (h : WorkInv c s execs) (hacc : Accounted c s) (hi : i < c.numCpus) {p : ProcId}
    {me : Cpu} (hloc : (s.cpu i).loc = .head) (hproc : (s.cpu i).proc = some p)
    (hpc : s.pc p = c.codeSize p) (hme : me.loc = .reload) :
    WorkInv c ({ s with sched := finishProc s.sched p, finished := p :: s.finished }.setCpu i me)
      execs := by
  have hheld : (s.cpu i).held = some p := by simp [Cpu.held, hloc, hproc]
  have hlive := hacc.live_of_held hi hheld
  have hdone : execs p = need c p := by
    have hmin := h.pc p
    have hle := h.le p
    have hone := h.ran i hi p ⟨hproc, .inl hloc⟩
    rw [need] at hle ⊢
    omega
  refine ⟨List.nodup_cons.mpr ⟨hlive.2, h.nodup⟩, h.pc, h.le, fun x hx => ?_, fun j hj x hx => ?_,
    fun x => ?_⟩
  · rcases List.mem_cons.mp hx with rfl | hx
    · exact hdone
    · exact h.complete x hx
  · rcases eq_or_ne j i with rfl | hji
    · obtain ⟨-, hx⟩ := hx
      rw [cpu_setCpu_self, hme] at hx
      rcases hx with hx | hx <;> cases hx
    · rw [cpu_setCpu_of_ne _ hji] at hx
      exact h.ran j hj x hx
  · rcases h.left x with hless | hmem | ⟨j, hj, hran⟩
    · exact .inl hless
    · exact .inr (.inl (List.mem_cons_of_mem _ hmem))
    · rcases eq_or_ne j i with rfl | hji
      · obtain ⟨hx, -⟩ := hran
        rw [hproc] at hx
        exact .inr (.inl (Option.some.inj hx ▸ List.mem_cons_self ..))
      · exact .inr (.inr ⟨j, hj, by rwa [cpu_setCpu_of_ne _ hji]⟩)

/-- A process finishes at the end of its program. -/
theorem pc_of_finished (h : WorkInv c s execs) {p : ProcId} (hp : p ∈ s.finished) :
    s.pc p = c.codeSize p := by
  rw [h.pc, h.complete p hp, need]
  exact Nat.min_eq_right (Nat.le_max_left ..)

/-- A program that is not at its end has something left. -/
theorem lt_need_of_pc (h : WorkInv c s execs) {p : ProcId} (hpc : s.pc p ≠ c.codeSize p) :
    execs p < need c p := by
  have hmin := h.pc p
  rw [need]
  omega

end WorkInv

variable {c} {s t : Simulator} {i : Nat}

theorem calls_of_loc (hloc : (s.os.cpu i).loc ≠ .recheck) : s.calls i = s.execs := by
  rw [Simulator.calls]
  split
  · rename_i heq _
    exact absurd heq hloc
  · rfl

theorem calls_of_none (hproc : (s.os.cpu i).proc = none) : s.calls i = s.execs := by
  rw [Simulator.calls]
  split
  · rename_i _ heq
    rw [hproc] at heq
    cases heq
  · rfl

theorem calls_of_some {p : ProcId} (hloc : (s.os.cpu i).loc = .recheck)
    (hproc : (s.os.cpu i).proc = some p) :
    s.calls i = Function.update s.execs p (s.execs p + 1) := by
  rw [Simulator.calls, hloc, hproc]

theorem WorkInv.cpuStep (h : WorkInv c s.os s.execs) (hacc : Accounted c s.os)
    (hi : i < c.numCpus) {u : OsT} (hstep : cpuStep c s.os i = some u) :
    WorkInv c u (s.calls i) := by
  have hother (j : Nat) (hji : j ≠ i) := cpuStep_other hstep hji
  cases cpuStep_cases hstep with
  | loadFailed hloc hproc =>
      rw [calls_of_none hproc]
      refine h.quiet hi rfl rfl hother (fun x hx => ?_) fun x hx => ?_
      · simp [Cpu.Ran, hproc] at hx
      · simp [Cpu.Ran, hproc] at hx
  | load p hloc hproc =>
      rw [calls_of_none hproc]
      refine h.quiet hi rfl rfl hother (fun x hx => ?_) fun x hx => ?_
      · simp [Cpu.Ran] at hx
      · simp [Cpu.Ran, hproc] at hx
  | finish p hloc hproc hpc =>
      rw [calls_of_loc (by rw [hloc]; decide)]
      exact h.finish hacc hi hloc hproc hpc rfl
  | requeue p v hloc hproc hpc | keep p hloc hproc hpc =>
      rw [calls_of_loc (by rw [hloc]; decide)]
      refine h.quiet hi rfl rfl hother (fun x hx => ?_) fun x hx => ?_
      · simp [Cpu.Ran] at hx
      · obtain ⟨hx, -⟩ := hx
        rw [hproc] at hx
        exact .inl (h.lt_need_of_pc (Option.some.inj hx ▸ hpc))
  | reload hloc =>
      rw [calls_of_loc (by rw [hloc]; decide)]
      refine h.quiet hi rfl rfl hother (fun x hx => ?_) fun x hx => ?_
      · simp [Cpu.Ran] at hx
      · simp [Cpu.Ran, hloc] at hx
  | stop hloc hproc | skip hloc hproc =>
      rw [calls_of_none hproc]
      refine h.quiet hi rfl rfl hother (fun x hx => ?_) fun x hx => ?_
      · simp [Cpu.Ran, hproc] at hx
      · simp [Cpu.Ran, hproc] at hx
  | exec p left hloc hproc =>
      rw [calls_of_some hloc hproc]
      exact h.exec hacc hi hloc hproc hproc rfl
  | slot hloc =>
      rw [calls_of_loc (by rw [hloc]; decide)]
      refine h.quiet hi rfl rfl hother (fun x hx => ?_) fun x hx => ?_
      · rw [cpu_setCpu_self] at hx
        exact h.ran i hi x ⟨hx.1, .inr hloc⟩
      · rw [cpu_setCpu_self]
        exact .inr ⟨hx.1, .inl rfl⟩

theorem WorkInv.step (h : WorkInv c s.os s.execs) (hphase : PhaseInv c s) {th : ThreadId}
    (hstep : simStep c s th = some t) : WorkInv c t.os t.execs := by
  cases simStep_cases hstep with
  | pass hi hloc hwait hdone hcpu =>
      have hwork := h.cpuStep hphase.acc hi hcpu
      rw [calls_of_loc (by rw [hloc]; decide)] at hwork
      exact hwork
  | cpu hi hslot hcpu => exact h.cpuStep hphase.acc hi hcpu
  | report | leave | wait | add | setDone | ldReport | ldPass | ldLeave | timer | join | stop
  | finish => exact ⟨h.nodup, h.pc, h.le, h.complete, h.ran, h.left⟩

/-! ### The work of a slot -/

/-- The processes in the ready queues. -/
def waitingCount (s : SchedT) : Nat := ∑ q ∈ Finset.range maxPrio, (s.ready q).length

/-- The CPUs that have put a process back, or finished one, and are to take
another. -/
def reloading (n : Nat) (cpu : Nat → Cpu) : Nat :=
  ∑ i ∈ Finset.range n, if (cpu i).loc = .reload then 1 else 0

/-- CPU `i` has run a process in the slot of the time. -/
def Simulator.RanNow (s : Simulator) (i : Nat) : Prop :=
  (s.os.cpu i).loc = .nextSlot ∧ (s.os.cpu i).proc ≠ none ∧
    (s.timer.threads i).slot = s.os.time

/-- CPU `i` has found the queues empty in the slot of the time, or for good. -/
def Simulator.IdleNow (s : Simulator) (i : Nat) : Prop :=
  (s.os.cpu i).loc = .stopped ∨ (s.os.cpu i).proc = none ∧
    ((s.os.cpu i).loc = .recheck ∨
      (s.os.cpu i).loc = .nextSlot ∧ (s.timer.threads i).slot = s.os.time)

instance (s : Simulator) (i : Nat) : Decidable (s.RanNow i) :=
  inferInstanceAs (Decidable (_ ∧ _))

theorem sum_update {n i : Nat} (hi : i < n) {f g : Nat → Nat} (h : ∀ j ≠ i, g j = f j) :
    ∑ j ∈ Finset.range n, g j + f i = ∑ j ∈ Finset.range n, f j + g i := by
  have hmem : i ∈ Finset.range n := Finset.mem_range.mpr hi
  have hf := Finset.add_sum_erase (Finset.range n) f hmem
  have hg := Finset.add_sum_erase (Finset.range n) g hmem
  have hrest : ∑ j ∈ (Finset.range n).erase i, g j = ∑ j ∈ (Finset.range n).erase i, f j :=
    Finset.sum_congr rfl fun j hj => h j (Finset.ne_of_mem_erase hj)
  omega

theorem waitingCount_getMlqProc (s : SchedT) :
    waitingCount (getMlqProc s).2 + (if (getMlqProc s).1 = none then 0 else 1) = waitingCount s ∧
      ((getMlqProc s).1 = none → waitingCount (getMlqProc s).2 = 0) := by
  obtain ⟨hnil, hnone, hready, -, -⟩ | ⟨p, y, hy, hd⟩ := getMlqProc_spec s
  · have hzero : waitingCount (getMlqProc s).2 = 0 :=
      Finset.sum_eq_zero fun q hq => by rw [hready, hnil q (Finset.mem_range.mp hq)]; rfl
    refine ⟨?_, fun _ => hzero⟩
    simp only [hnone, if_true, waitingCount, hready, Nat.add_zero]
  · have hsum := sum_update hd.lt (f := fun q => (s.ready q).length)
      (g := fun q => ((getMlqProc s).2.ready q).length) fun q hq => by rw [hd.other q hq]
    rw [hd.head, List.length_cons] at hsum
    refine ⟨?_, fun hnone => ?_⟩
    · rw [hy, if_neg (by simp)]
      simp only [waitingCount]
      omega
    · rw [hy] at hnone
      cases hnone

theorem waitingCount_putMlqProc {prio : ProcId → Nat} {s t : SchedT} {p : ProcId}
    (h : putMlqProc prio s p = some t) : waitingCount t = waitingCount s + 1 := by
  obtain ⟨hlt, -, -⟩ := prio_lt_of_putMlqProc h
  have hsum := sum_update hlt (f := fun q => (s.ready q).length)
    (g := fun q => (t.ready q).length) fun q hq => by rw [ready_putMlqProc h, if_neg hq]
  simp only [ready_putMlqProc h, if_true, List.length_append, List.length_singleton] at hsum
  simp only [waitingCount, ready_putMlqProc h]
  omega

theorem queued_le_waitingCount (s : SchedT) (x : ProcId) : queued s x ≤ waitingCount s :=
  Finset.sum_le_sum fun _ _ => List.count_le_length

/-- What waits is what some CPU is about to take, once a CPU has found nothing. -/
def Drained (c : Config) (s : Simulator) : Prop :=
  freeAt c c.numProcesses ≤ s.os.time → (∃ i < c.numCpus, s.IdleNow i) →
    waitingCount s.os.sched ≤ reloading c.numCpus s.os.cpu

/-- The slots since the last process was added: in `full` of them every CPU
has executed an instruction, in `drain` of them every process has. -/
structure Credit (c : Config) (s : Simulator) (full drain : Nat) : Prop where
  slots : full + drain = s.os.time - freeAt c c.numProcesses
  live : ∀ x, s.os.Live x → drain ≤ s.execs x
  ran : ∀ i < c.numCpus, s.RanNow i → ∀ x, (s.os.cpu i).proc = some x → drain + 1 ≤ s.execs x
  total : c.numCpus * full + (∑ i ∈ Finset.range c.numCpus, if s.RanNow i then 1 else 0) ≤
    ∑ x ∈ Finset.range c.numProcesses, s.execs x

/-- The numbers of waiting processes and of CPUs about to take one move
together, unless a CPU has just found nothing. -/
theorem cpuStep_waiting {s u : OsT} (hi : i < c.numCpus) (h : cpuStep c s i = some u) :
    waitingCount u.sched = 0 ∨ waitingCount u.sched + reloading c.numCpus s.cpu ≤
      waitingCount s.sched + reloading c.numCpus u.cpu := by
  obtain ⟨hget, hempty⟩ := waitingCount_getMlqProc s.sched
  have hrel : reloading c.numCpus u.cpu + (if (s.cpu i).loc = .reload then 1 else 0) =
      reloading c.numCpus s.cpu + if (u.cpu i).loc = .reload then 1 else 0 :=
    sum_update hi (f := fun j => if (s.cpu j).loc = .reload then 1 else 0)
      (g := fun j => if (u.cpu j).loc = .reload then 1 else 0)
      fun j hj => by rw [cpuStep_other h hj]
  have hrun (p : ProcId) : (run c s p).sched = s.sched := by
    unfold run
    split <;> rfl
  generalize reloading c.numCpus u.cpu = r at hrel ⊢
  cases cpuStep_cases h with
  | loadFailed hloc hproc hnone => exact .inl (hempty hnone)
  | load p hloc hproc hsome =>
      rw [hsome, if_neg (by simp)] at hget
      simp only [cpu_setCpu_self, hloc, reduceCtorEq, if_false] at hrel
      right
      change waitingCount (getMlqProc s.sched).2 + _ ≤ _
      omega
  | finish p hloc hproc =>
      simp only [cpu_setCpu_self, hloc, reduceCtorEq, if_false, if_true] at hrel
      right
      change waitingCount s.sched + _ ≤ _
      omega
  | requeue p v hloc hproc hpc htime hput =>
      have hcount := waitingCount_putMlqProc hput
      simp only [cpu_setCpu_self, hloc, reduceCtorEq, if_false, if_true] at hrel
      right
      change waitingCount v + _ ≤ _
      omega
  | reload hloc =>
      cases hr : (getMlqProc s.sched).1 with
      | none => exact .inl (hempty hr)
      | some p =>
          rw [hr, if_neg (by simp)] at hget
          simp only [cpu_setCpu_self, hloc, reduceCtorEq, if_false, if_true] at hrel
          right
          change waitingCount (getMlqProc s.sched).2 + _ ≤ _
          omega
  | keep p hloc | stop hloc | skip hloc | slot hloc =>
      simp only [cpu_setCpu_self, hloc, reduceCtorEq, if_false] at hrel
      right
      change waitingCount s.sched + _ ≤ _
      omega
  | exec p left hloc =>
      simp only [cpu_setCpu_self, hloc, reduceCtorEq, if_false] at hrel
      right
      change waitingCount (run c s p).sched + _ ≤ _
      rw [hrun]
      omega

/-- Where a CPU ends up with nothing to do it has just found nothing, or it
had nothing to do before. -/
theorem cpuStep_idle {s u : OsT} (h : cpuStep c s i = some u)
    (hidle : (u.cpu i).loc = .stopped ∨ (u.cpu i).proc = none ∧
      ((u.cpu i).loc = .recheck ∨ (u.cpu i).loc = .nextSlot)) :
    waitingCount u.sched = 0 ∨ (s.cpu i).loc = .recheck ∧ (s.cpu i).proc = none := by
  obtain ⟨-, hempty⟩ := waitingCount_getMlqProc s.sched
  cases cpuStep_cases h with
  | loadFailed hloc hproc hnone => exact .inl (hempty hnone)
  | reload hloc =>
      simp only [cpu_setCpu_self, reduceCtorEq, false_or, true_or, and_true] at hidle
      exact .inl (hempty hidle)
  | stop hloc hproc | skip hloc hproc => exact .inr ⟨hloc, hproc⟩
  | load | finish | requeue | slot => simp at hidle
  | keep p hloc hproc | exec p left hloc hproc => simp [hproc] at hidle

theorem Drained.frame (h : Drained c s) (htime : t.os.time = s.os.time)
    (hwait : waitingCount s.os.sched ≤ reloading c.numCpus s.os.cpu →
      waitingCount t.os.sched ≤ reloading c.numCpus t.os.cpu)
    (hidle : ∀ i < c.numCpus, t.IdleNow i →
      s.IdleNow i ∨ waitingCount t.os.sched ≤ reloading c.numCpus t.os.cpu) : Drained c t := by
  rintro hfree ⟨i, hi, hnow⟩
  rw [htime] at hfree
  rcases hidle i hi hnow with hbefore | hle
  · exact hwait (h hfree ⟨i, hi, hbefore⟩)
  · exact hle

/-- CPU `i` takes a step; the slots of the other threads stay. -/
theorem Drained.cpuStep (h : Drained c s) {u : OsT} {tm : TimerT} {execs : ProcId → Nat}
    (hi : i < c.numCpus) (hslots : ∀ j ≠ i, tm.threads j = s.timer.threads j)
    (hstep : cpuStep c s.os i = some u) :
    Drained c { s with os := u, timer := tm, execs := execs } := by
  have hzero (hz : waitingCount u.sched = 0) :
      waitingCount u.sched ≤ reloading c.numCpus u.cpu := hz ▸ Nat.zero_le _
  refine h.frame (cpuStep_time hstep) (fun hle => ?_) fun j hj hnow => ?_
  · rcases cpuStep_waiting hi hstep with hz | hmove
    · exact hzero hz
    · change waitingCount u.sched ≤ reloading c.numCpus u.cpu
      omega
  · rcases eq_or_ne j i with rfl | hji
    · rcases cpuStep_idle hstep (hnow.imp_right fun ⟨hn, hloc⟩ => ⟨hn, hloc.imp_right And.left⟩)
        with hz | ⟨hloc, hproc⟩
      · exact .inr (hzero hz)
      · exact .inl (.inr ⟨hproc, .inl hloc⟩)
    · left
      simp only [Simulator.IdleNow, cpuStep_other hstep hji, cpuStep_time hstep,
        hslots j hji] at hnow
      exact hnow

/-- A step that changes neither the CPUs nor the queues nor the slots. -/
theorem Drained.still (h : Drained c s) (hsched : t.os.sched = s.os.sched)
    (hcpu : t.os.cpu = s.os.cpu) (htime : t.os.time = s.os.time)
    (hslots : ∀ j < c.numCpus, (t.timer.threads j).slot = (s.timer.threads j).slot) :
    Drained c t := by
  refine h.frame htime (fun hle => ?_) fun j hj hnow => .inl ?_
  · rw [hsched, hcpu]
    exact hle
  · simp only [Simulator.IdleNow, hcpu, htime, hslots j hj] at hnow
    exact hnow

theorem event_tick {s : TimerT} (h : s.loc.event = some .tick) :
    ∃ fsh event, s.loc = .scan [] fsh event := by
  cases hl : s.loc with
  | scan rest fsh event =>
      cases rest with
      | nil => exact ⟨fsh, event, rfl⟩
      | cons i rest =>
          rw [hl] at h
          cases h
  | clear rest =>
      rw [hl] at h
      cases rest <;> cases h
  | head | exited =>
      rw [hl] at h
      cases h

/-- When the time goes up, every thread is done with its slot or detached. -/
theorem SimInv.at_tick (h : SimInv c s) (hev : s.timer.loc.event = some .tick)
    (hi : i ≤ c.numCpus) : (s.timer.threads i).phase = .left ∨
      (s.timer.threads i).phase = .waiting ∧ (s.timer.threads i).slot = s.os.time := by
  obtain ⟨evs, hinv⟩ := h.timer
  obtain ⟨fsh, event, hl⟩ := event_tick hev
  have hmem := mem_devices h hi
  have hd := hinv.device i hmem
  have hloc := hinv.loc
  rw [LocOk, hl] at hloc
  rcases hloc.1 i hmem (by simp) with hdone | hfsh
  · have hwait := hd.done hdone
    have hslot := hd.slot (by rw [hwait]; decide)
    have hrel := hd.released
    rw [if_neg (by simp [hdone])] at hslot
    rw [hl] at hrel
    simp only [TimerLoc.pending, List.count_nil] at hrel
    refine .inr ⟨hwait, ?_⟩
    change (s.timer.dev i).thread.slot = _
    rw [h.time, hinv.time]
    omega
  · exact .inl (hd.fsh.mp hfsh)

/-- At a tick a CPU has run its process in the slot, or it waits without
one, or it has stopped. -/
theorem cpu_at_tick (hsim : SimInv c s) (hshut : ShutdownInv c s.slots)
    (hev : s.timer.loc.event = some .tick) (hi : i < c.numCpus) :
    (s.os.cpu i).loc = .stopped ∨
      (s.os.cpu i).loc = .nextSlot ∧ (s.timer.threads i).slot = s.os.time := by
  obtain ⟨hwait, hleft⟩ := hshut.cpuPhase i hi
  rcases hsim.at_tick hev (Nat.le_of_lt hi) with hphase | ⟨hphase, hslot⟩
  · exact .inl (hleft hphase)
  · exact .inr ⟨hwait hphase, hslot⟩

theorem Drained.tick (h : Drained c s) (hsim : SimInv c s) (hshut : ShutdownInv c s.slots)
    (harr : ArrivalInv c s) (hev : s.timer.loc.event = some .tick)
    (hsched : t.os.sched = s.os.sched)
    (hcpu : t.os.cpu = s.os.cpu) (htime : t.os.time = s.os.time + 1)
    (hslots : t.timer.threads = s.timer.threads) : Drained c t := by
  rintro - ⟨i, hi, hnow⟩
  rw [hsched, hcpu]
  rw [Simulator.IdleNow, hcpu, htime, hslots] at hnow
  have hstop : (s.os.cpu i).loc = .stopped := by
    rcases cpu_at_tick hsim hshut hev hi with hstop | ⟨hloc, hslot⟩
    · exact hstop
    · rw [hloc, hslot] at hnow
      simp at hnow
  -- a CPU stops only after the last process is added
  have hdone := (hshut.stopped i hi hstop).1
  exact h (harr.detach (hshut.done.mp hdone)).2 ⟨i, hi, .inl hstop⟩

/-- A thread that stays in its slot does not change the slot of any. -/
theorem slot_update (f : Nat → Party) {i : Nat} {x : Party} (hx : x.slot = (f i).slot) (j : Nat) :
    (Function.update f i x j).slot = (f j).slot := by
  rcases eq_or_ne j i with rfl | hji
  · rw [Function.update_self, hx]
  · rw [Function.update_of_ne hji]

theorem Drained.step (h : Drained c s) (hsim : SimInv c s) (hphase : PhaseInv c s)
    (hshut : ShutdownInv c s.slots) (harr : ArrivalInv c s) {th : ThreadId}
    (hstep : simStep c s th = some t) : Drained c t := by
  have hld {j : Nat} {x : Party} (hj : j < c.numCpus) :
      Function.update s.timer.threads c.numCpus x j = s.timer.threads j :=
    Function.update_of_ne (Nat.ne_of_lt hj) ..
  cases simStep_cases hstep with
  | report | ldReport =>
      refine h.still rfl rfl rfl fun j _ => ?_
      rw [threads_reported]
      apply slot_update
      rfl
  | pass hi hloc hwait hdone hcpu =>
      refine h.cpuStep hi (fun j hj => ?_) hcpu
      rw [threads_passed, Function.update_of_ne hj]
  | leave | ldLeave =>
      refine h.still rfl rfl rfl fun j _ => ?_
      rw [threads_detached]
      apply slot_update
      rfl
  | cpu hi hslot hcpu => exact h.cpuStep hi (fun _ _ => rfl) hcpu
  | wait | setDone => exact h.still rfl rfl rfl fun _ _ => rfl
  | add hloc hnext htime hadd =>
      intro hfree
      have harrive := harr.time_eq_arrival hsim hphase hloc hnext htime
      have hmono : freeAt c (s.os.ldNext + 1) ≤ freeAt c c.numProcesses := freeAt_mono c hnext
      rw [freeAt_succ, ← harrive] at hmono
      exact absurd hfree (Nat.not_le.mpr hmono)
  | ldPass =>
      refine h.still rfl rfl rfl fun j hj => ?_
      rw [threads_passed, hld hj]
  | @timer ev tm hawake hev htm =>
      obtain ⟨hthreads, -, htime⟩ := timerStep_event hev htm
      by_cases htick : ev = .tick
      · subst htick
        rw [if_pos rfl, ← hsim.time] at htime
        exact h.tick hsim hshut harr hev rfl rfl htime hthreads
      · rw [if_neg htick, Nat.add_zero, ← hsim.time] at htime
        exact h.still rfl rfl htime fun j _ => by rw [hthreads]
  | join | stop | finish => exact h.still rfl rfl rfl fun _ _ => rfl

/-! ### Credit -/

namespace Credit

variable {full drain : Nat}

/-- A step that executes nothing. -/
theorem frame (h : Credit c s full drain) (htime : t.os.time = s.os.time)
    (hexecs : t.execs = s.execs) (hlive : ∀ x, t.os.Live x → s.os.Live x)
    (hran : ∀ i < c.numCpus, t.RanNow i → s.RanNow i ∧ (t.os.cpu i).proc = (s.os.cpu i).proc) :
    Credit c t full drain := by
  refine ⟨htime ▸ h.slots, fun x hx => ?_, fun i hi hnow x hx => ?_, ?_⟩
  · rw [hexecs]
    exact h.live x (hlive x hx)
  · obtain ⟨hbefore, hproc⟩ := hran i hi hnow
    rw [hexecs]
    exact h.ran i hi hbefore x (hproc ▸ hx)
  · rw [hexecs]
    refine Nat.le_trans (Nat.add_le_add_left (Finset.sum_le_sum fun i hi => ?_) _) h.total
    by_cases hnow : t.RanNow i
    · rw [if_pos hnow, if_pos (hran i (Finset.mem_range.mp hi) hnow).1]
    · rw [if_neg hnow]
      exact Nat.zero_le _

/-- CPU `i` executes an instruction of `p`. -/
theorem exec (h : Credit c s full drain) (hphase : PhaseInv c s) (harr : ArrivalInv c s)
    (hi : i < c.numCpus) {p : ProcId} {me : Cpu} (hloc : (s.os.cpu i).loc = .recheck)
    (hproc : (s.os.cpu i).proc = some p) (hme : me.proc = some p) :
    Credit c { s with os := (Sched.run c s.os p).setCpu i me, execs := s.calls i } full drain := by
  have hlive := hphase.acc.live_of_held hi (x := p) (by simp [Cpu.held, hloc, hproc])
  have hlt : p < c.numProcesses := Nat.lt_of_lt_of_le hlive.1 harr.next
  have hstate : ∃ pc, Sched.run c s.os p = { s.os with pc := pc } := by
    unfold Sched.run
    split
    · exact ⟨s.os.pc, rfl⟩
    · exact ⟨_, rfl⟩
  obtain ⟨pc, hstate⟩ := hstate
  rw [hstate]
  have hmono (x : ProcId) : s.execs x ≤ s.calls i x := by
    rw [calls_of_some hloc hproc]
    rcases eq_or_ne x p with rfl | hxp
    · rw [Function.update_self]
      exact Nat.le_succ _
    · rw [Function.update_of_ne hxp]
  have hp : s.calls i p = s.execs p + 1 := by
    rw [calls_of_some hloc hproc, Function.update_self]
  have hother (j : Nat) (hji : j ≠ i) : ({ s with
      os := { s.os with pc := pc }.setCpu i me, execs := s.calls i } : Simulator).RanNow j =
      s.RanNow j := by
    simp only [Simulator.RanNow, cpu_setCpu_of_ne _ hji]
    rfl
  refine ⟨h.slots, fun x hx => Nat.le_trans (h.live x hx) (hmono x), fun j hj hnow x hx => ?_, ?_⟩
  · rcases eq_or_ne j i with rfl | hji
    · change (({ s.os with pc := pc }.setCpu j me).cpu j).proc = some x at hx
      rw [cpu_setCpu_self, hme] at hx
      obtain rfl := Option.some.inj hx
      change drain + 1 ≤ s.calls j p
      rw [hp]
      exact Nat.succ_le_succ (h.live p hlive)
    · rw [hother j hji] at hnow
      change (({ s.os with pc := pc }.setCpu i me).cpu j).proc = some x at hx
      rw [cpu_setCpu_of_ne _ hji] at hx
      exact Nat.le_trans (h.ran j hj hnow x hx) (hmono x)
  · have hnow : ¬s.RanNow i := by
      rintro ⟨hnext, -⟩
      rw [hloc] at hnext
      cases hnext
    have hcount := sum_update hi (f := fun j => if s.RanNow j then 1 else 0)
      (g := fun j => if ({ s with
        os := { s.os with pc := pc }.setCpu i me, execs := s.calls i } : Simulator).RanNow j
        then 1 else 0) fun j hji => by simp only [hother j hji]
    have hwork := sum_update hlt (f := s.execs) (g := s.calls i) fun x hxp => by
      rw [calls_of_some hloc hproc, Function.update_of_ne hxp]
    rw [if_neg hnow] at hcount
    rw [hp] at hwork
    have htotal := h.total
    have hone (b : Prop) [Decidable b] : (if b then 1 else 0) ≤ 1 := by split <;> omega
    have hle := hone (({ s with
      os := { s.os with pc := pc }.setCpu i me, execs := s.calls i } : Simulator).RanNow i)
    change c.numCpus * full + _ ≤ ∑ x ∈ Finset.range c.numProcesses, s.calls i x
    omega

/-- CPU `i` takes a step away from its device. -/
theorem cpuStep (h : Credit c s full drain) (hphase : PhaseInv c s) (harr : ArrivalInv c s)
    (hi : i < c.numCpus) (hslot : (s.os.cpu i).loc ≠ .nextSlot) {u : OsT}
    (hstep : Sched.cpuStep c s.os i = some u) :
    Credit c { s with os := u, execs := s.calls i } full drain := by
  have hquiet (hcalls : s.calls i = s.execs) (htime : u.time = s.os.time)
      (hlive : ∀ x, u.Live x → s.os.Live x)
      (hme : (u.cpu i).loc = .nextSlot → (u.cpu i).proc = none) :
      Credit c { s with os := u, execs := s.calls i } full drain := by
    refine h.frame htime hcalls hlive fun j _ hnow => ?_
    rcases eq_or_ne j i with rfl | hji
    · obtain ⟨hloc, hproc, -⟩ := hnow
      exact absurd (hme hloc) hproc
    · simp only [Simulator.RanNow, cpuStep_other hstep hji, htime] at hnow
      exact ⟨hnow, by rw [cpuStep_other hstep hji]⟩
  cases cpuStep_cases hstep with
  | loadFailed hloc hproc =>
      exact hquiet (calls_of_none hproc) rfl (fun _ => id) fun _ => by simp [hproc]
  | load p hloc hproc => exact hquiet (calls_of_none hproc) rfl (fun _ => id) (by simp)
  | finish p hloc =>
      exact hquiet (calls_of_loc (by rw [hloc]; decide)) rfl
        (fun x hx => ⟨hx.1, fun hmem => hx.2 (List.mem_cons_of_mem _ hmem)⟩) (by simp)
  | requeue p v hloc | keep p hloc =>
      exact hquiet (calls_of_loc (by rw [hloc]; decide)) rfl (fun _ => id) (by simp)
  | reload hloc =>
      exact hquiet (calls_of_loc (by rw [hloc]; decide)) rfl (fun _ => id) (by simp)
  | stop hloc hproc | skip hloc hproc =>
      exact hquiet (calls_of_none hproc) rfl (fun _ => id) fun _ => by simp [hproc]
  | exec p left hloc hproc => exact h.exec hphase harr hi hloc hproc hproc
  | slot hloc => exact absurd hloc hslot

/-- Nobody has run anything in a slot that begins. -/
theorem notRan_tick (hsim : SimInv c s) (hshut : ShutdownInv c s.slots)
    (hev : s.timer.loc.event = some .tick) (hi : i < c.numCpus) (hcpu : t.os.cpu = s.os.cpu)
    (htime : t.os.time = s.os.time + 1) (hthreads : t.timer.threads = s.timer.threads) :
    ¬t.RanNow i := by
  rintro ⟨hloc, -, hslot⟩
  rw [hcpu] at hloc
  rw [hthreads, htime] at hslot
  rcases cpu_at_tick hsim hshut hev hi with hstop | ⟨-, hbefore⟩
  · rw [hloc] at hstop
    cases hstop
  · omega

/-- A process that is not finished and does not wait in a queue was run in
the slot. -/
theorem ran_at_tick (hsim : SimInv c s) (hshut : ShutdownInv c s.slots)
    (hev : s.timer.loc.event = some .tick) (hempty : waitingCount s.os.sched = 0) {x : ProcId}
    (hlive : s.os.Live x) : ∃ i < c.numCpus, s.RanNow i ∧ (s.os.cpu i).proc = some x := by
  have howned := hshut.acc.owned x
  change queued s.os.sched x + holders c.numCpus s.os.cpu x = if s.os.Live x then 1 else 0 at howned
  have hqueued := queued_le_waitingCount s.os.sched x
  rw [if_pos hlive] at howned
  obtain ⟨i, hi, hheld⟩ : ∃ i ∈ Finset.range c.numCpus,
      (if (s.os.cpu i).held = some x then 1 else 0) ≠ 0 :=
    Finset.exists_ne_zero_of_sum_ne_zero (by simp only [holders] at howned; omega)
  have hi := Finset.mem_range.mp hi
  have hheld : (s.os.cpu i).held = some x := by
    by_contra hnot
    rw [if_neg hnot] at hheld
    exact hheld rfl
  have hproc : (s.os.cpu i).proc = some x := by
    rw [Cpu.held] at hheld
    split at hheld
    · cases hheld
    · exact hheld
  refine ⟨i, hi, ?_, hproc⟩
  rcases cpu_at_tick hsim hshut hev hi with hstop | ⟨hloc, hslot⟩
  · have hnone := (hshut.stopped i hi hstop).2
    change (s.os.cpu i).proc = none at hnone
    rw [hproc] at hnone
    cases hnone
  · exact ⟨hloc, by rw [hproc]; simp, hslot⟩

end Credit

/-- No slot is wasted: every CPU has run a process in it, or every process
that is left was run. -/
theorem full_or_drained (hdrained : Drained c s) (hsim : SimInv c s)
    (hshut : ShutdownInv c s.slots) (hev : s.timer.loc.event = some .tick)
    (hfree : freeAt c c.numProcesses ≤ s.os.time) :
    (∀ i < c.numCpus, s.RanNow i) ∨
      ∀ x, s.os.Live x → ∃ i < c.numCpus, s.RanNow i ∧ (s.os.cpu i).proc = some x := by
  by_cases hall : ∀ i < c.numCpus, s.RanNow i
  · exact .inl hall
  right
  -- some CPU has found the queues empty
  simp only [not_forall] at hall
  obtain ⟨i, hi, hran⟩ := hall
  have hidle : s.IdleNow i := by
    rcases cpu_at_tick hsim hshut hev hi with hstop | ⟨hloc, hslot⟩
    · exact .inl hstop
    · refine .inr ⟨?_, .inr ⟨hloc, hslot⟩⟩
      by_contra hproc
      exact hran ⟨hloc, hproc, hslot⟩
  have hnone : reloading c.numCpus s.os.cpu = 0 := by
    refine Finset.sum_eq_zero fun j hj => if_neg fun hreload => ?_
    rcases cpu_at_tick hsim hshut hev (Finset.mem_range.mp hj) with hstop | ⟨hloc, -⟩
    · rw [hreload] at hstop
      cases hstop
    · rw [hreload] at hloc
      cases hloc
  have hle := hdrained hfree ⟨i, hi, hidle⟩
  rw [hnone] at hle
  intro x hlive
  exact Credit.ran_at_tick hsim hshut hev (Nat.le_zero.mp hle) hlive

/-- A CPU that has run a process in the slot had run it before the step, or
the step was that. -/
theorem ranNow_step (hsim : SimInv c s) (hshut : ShutdownInv c s.slots) {th : ThreadId}
    (hstep : simStep c s th = some t) (hi : i < c.numCpus) (hnow : t.RanNow i) :
    t.os.time = s.os.time ∧ (t.os.cpu i).proc = (s.os.cpu i).proc ∧
      (s.RanNow i ∨ th = .cpu i ∧ (s.os.cpu i).loc = .recheck) := by
  have hstill (hcpu : t.os.cpu = s.os.cpu) (htime : t.os.time = s.os.time)
      (hslot : (t.timer.threads i).slot = (s.timer.threads i).slot) :
      t.os.time = s.os.time ∧ (t.os.cpu i).proc = (s.os.cpu i).proc ∧
        (s.RanNow i ∨ th = .cpu i ∧ (s.os.cpu i).loc = .recheck) := by
    simp only [Simulator.RanNow, hcpu, htime, hslot] at hnow
    exact ⟨htime, by rw [hcpu], .inl hnow⟩
  cases simStep_cases hstep with
  | report | ldReport =>
      refine hstill rfl rfl ?_
      rw [threads_reported]
      apply slot_update
      rfl
  | leave | ldLeave =>
      refine hstill rfl rfl ?_
      rw [threads_detached]
      apply slot_update
      rfl
  | ldPass =>
      refine hstill rfl rfl ?_
      rw [threads_passed, Function.update_of_ne (Nat.ne_of_lt hi)]
  | @pass j u hj hloc hwait hdone hcpu =>
      have hji : i ≠ j := by
        rintro rfl
        have hnext : (u.cpu i).loc = .nextSlot := hnow.1
        rw [cpuStep, hloc] at hcpu
        cases hcpu
        rw [cpu_setCpu_self] at hnext
        cases hnext
      simp only [Simulator.RanNow, cpuStep_other hcpu hji, cpuStep_time hcpu, threads_passed,
        Function.update_of_ne hji] at hnow
      exact ⟨cpuStep_time hcpu, by rw [cpuStep_other hcpu hji], .inl hnow⟩
  | @cpu j u hj hslot hcpu =>
      refine ⟨cpuStep_time hcpu, ?_⟩
      rcases eq_or_ne i j with rfl | hji
      · obtain ⟨hnext, hproc, -⟩ := hnow
        cases cpuStep_cases hcpu with
        | exec p left hloc hp =>
            refine ⟨?_, .inr ⟨rfl, hloc⟩⟩
            simp only [cpu_setCpu_self]
        | loadFailed hloc hp => exact absurd (by simp [hp]) hproc
        | skip hloc hp => exact absurd (by simp [hp]) hproc
        | load | finish | requeue | keep | reload | stop => simp at hnext
        | slot hloc => exact absurd hloc hslot
      · simp only [Simulator.RanNow, cpuStep_other hcpu hji, cpuStep_time hcpu] at hnow
        exact ⟨by rw [cpuStep_other hcpu hji], .inl hnow⟩
  | @timer ev tm hawake hev htm =>
      obtain ⟨hthreads, -, htime⟩ := timerStep_event hev htm
      by_cases htick : ev = .tick
      · subst htick
        rw [if_pos rfl, ← hsim.time] at htime
        exact absurd hnow (Credit.notRan_tick hsim hshut hev hi rfl htime hthreads)
      · rw [if_neg htick, Nat.add_zero, ← hsim.time] at htime
        exact hstill rfl htime (by rw [hthreads])
  | wait | setDone | add | join | stop | finish => exact hstill rfl rfl rfl

namespace Credit

variable {full drain : Nat}

/-- The time goes up. -/
theorem tick (h : Credit c s full drain) (hdrained : Drained c s) (hsim : SimInv c s)
    (hshut : ShutdownInv c s.slots) (hev : s.timer.loc.event = some .tick)
    (hcpu : t.os.cpu = s.os.cpu) (htime : t.os.time = s.os.time + 1)
    (hthreads : t.timer.threads = s.timer.threads) (hlive : ∀ x, t.os.Live x → s.os.Live x)
    (hexecs : t.execs = s.execs) : ∃ full' drain', Credit c t full' drain' := by
  have hnot (i : Nat) (hi : i < c.numCpus) : ¬t.RanNow i :=
    notRan_tick hsim hshut hev hi hcpu htime hthreads
  have hzero : (∑ i ∈ Finset.range c.numCpus, if t.RanNow i then 1 else 0) = 0 :=
    Finset.sum_eq_zero fun i hi => if_neg (hnot i (Finset.mem_range.mp hi))
  have hslots := h.slots
  have htotal := h.total
  have hkeep (x : ProcId) (hx : t.os.Live x) : drain ≤ t.execs x := hexecs ▸ h.live x (hlive x hx)
  by_cases hfree : freeAt c c.numProcesses ≤ s.os.time
  · rcases full_or_drained hdrained hsim hshut hev hfree with hall | hdrain
    · refine ⟨full + 1, drain, by omega, hkeep, fun i hi hnow => absurd hnow (hnot i hi), ?_⟩
      have hcount : (∑ i ∈ Finset.range c.numCpus, if s.RanNow i then 1 else 0) = c.numCpus := by
        rw [Finset.sum_congr rfl fun i hi => if_pos (hall i (Finset.mem_range.mp hi))]
        simp
      rw [hcount] at htotal
      rw [hzero, hexecs, Nat.mul_succ, Nat.add_zero]
      exact htotal
    · refine ⟨full, drain + 1, by omega, fun x hx => ?_, fun i hi hnow => absurd hnow (hnot i hi),
        ?_⟩
      · obtain ⟨j, hj, hnow, hproc⟩ := hdrain x (hlive x hx)
        rw [hexecs]
        exact h.ran j hj hnow x hproc
      · rw [hzero, hexecs]
        omega
  · refine ⟨full, drain, by omega, hkeep, fun i hi hnow => absurd hnow (hnot i hi), ?_⟩
    rw [hzero, hexecs]
    omega

/-- A step that changes neither the CPUs nor the slots. -/
theorem still (h : Credit c s full drain) (hcpu : t.os.cpu = s.os.cpu)
    (htime : t.os.time = s.os.time) (hexecs : t.execs = s.execs)
    (hlive : ∀ x, t.os.Live x → s.os.Live x)
    (hslots : ∀ j < c.numCpus, (t.timer.threads j).slot = (s.timer.threads j).slot) :
    Credit c t full drain := by
  refine h.frame htime hexecs hlive fun j hj hnow => ?_
  simp only [Simulator.RanNow, hcpu, htime, hslots j hj] at hnow
  exact ⟨hnow, by rw [hcpu]⟩

/-- The loader adds a process: no slot counts yet. -/
theorem add (h : Credit c s full drain) (hsim : SimInv c s) (hphase : PhaseInv c s)
    (harr : ArrivalInv c s) {u : SchedT} (hloc : s.ldLoc = .load)
    (hnext : s.os.ldNext < c.numProcesses) (htime : c.startTime s.os.ldNext ≤ s.os.time) :
    Credit c { s with
      os := { s.os with sched := u, ldNext := s.os.ldNext + 1 }, ldLoc := .nextSlot }
      full drain := by
  have harrive := harr.time_eq_arrival hsim hphase hloc hnext htime
  have hmono : freeAt c (s.os.ldNext + 1) ≤ freeAt c c.numProcesses := freeAt_mono c hnext
  rw [freeAt_succ, ← harrive] at hmono
  have hslots := h.slots
  have hzero : drain = 0 := by omega
  exact ⟨h.slots, fun x _ => by rw [hzero]; exact Nat.zero_le _, h.ran, h.total⟩

theorem step (h : Credit c s full drain) (hdrained : Drained c s) (hsim : SimInv c s)
    (hphase : PhaseInv c s) (hshut : ShutdownInv c s.slots) (harr : ArrivalInv c s)
    {th : ThreadId} (hstep : simStep c s th = some t) :
    ∃ full' drain', Credit c t full' drain' := by
  have hld {j : Nat} {x : Party} (hj : j < c.numCpus) :
      Function.update s.timer.threads c.numCpus x j = s.timer.threads j :=
    Function.update_of_ne (Nat.ne_of_lt hj) ..
  cases simStep_cases hstep with
  | report | ldReport =>
      refine ⟨full, drain, h.still rfl rfl rfl (fun _ => id) fun j _ => ?_⟩
      rw [threads_reported]
      apply slot_update
      rfl
  | @pass i u hi hloc hwait hdone hcpu =>
      refine ⟨full, drain, h.frame (cpuStep_time hcpu) rfl (fun x hx => ?_) fun j _ hnow => ?_⟩
      · cases cpuStep_cases hcpu with
        | slot => exact hx
        | loadFailed hl | load _ hl | finish _ hl | requeue _ _ hl | keep _ hl | reload hl
        | stop hl | skip hl | exec _ _ hl =>
            rw [hloc] at hl
            cases hl
      · have hji : j ≠ i := by
          rintro rfl
          have hhead : (u.cpu j).loc = .head := by
            rw [Sched.cpuStep, hloc] at hcpu
            cases hcpu
            simp
          have hnext : (u.cpu j).loc = .nextSlot := hnow.1
          rw [hhead] at hnext
          cases hnext
        simp only [Simulator.RanNow, cpuStep_other hcpu hji, cpuStep_time hcpu, threads_passed,
          Function.update_of_ne hji] at hnow
        exact ⟨hnow, by rw [cpuStep_other hcpu hji]⟩
  | leave | ldLeave =>
      refine ⟨full, drain, h.still rfl rfl rfl (fun _ => id) fun j _ => ?_⟩
      rw [threads_detached]
      apply slot_update
      rfl
  | cpu hi hslot hcpu => exact ⟨full, drain, h.cpuStep hphase harr hi hslot hcpu⟩
  | wait | setDone => exact ⟨full, drain, h.still rfl rfl rfl (fun _ => id) fun _ _ => rfl⟩
  | add hloc hnext htime hadd => exact ⟨full, drain, h.add hsim hphase harr hloc hnext htime⟩
  | ldPass =>
      refine ⟨full, drain, h.still rfl rfl rfl (fun _ => id) fun j hj => ?_⟩
      rw [threads_passed, hld hj]
  | @timer ev tm hawake hev htm =>
      obtain ⟨hthreads, -, htime⟩ := timerStep_event hev htm
      by_cases htick : ev = .tick
      · subst htick
        rw [if_pos rfl, ← hsim.time] at htime
        exact h.tick hdrained hsim hshut hev rfl htime hthreads (fun _ => id) rfl
      · rw [if_neg htick, Nat.add_zero, ← hsim.time] at htime
        exact ⟨full, drain, h.still rfl htime rfl (fun _ => id) fun j _ => by rw [hthreads]⟩
  | join | stop | finish =>
      exact ⟨full, drain, h.still rfl rfl rfl (fun _ => id) fun _ _ => rfl⟩

end Credit

/-- All that the bounds below rest on. -/
structure PaceInv (c : Config) (s : Simulator) : Prop where
  sim : SimInv c s
  phase : PhaseInv c s
  shut : ShutdownInv c s.slots
  arr : ArrivalInv c s
  work : WorkInv c s.os s.execs
  drained : Drained c s
  credit : ∃ full drain, Credit c s full drain

theorem PaceInv.start (c : Config) : PaceInv c (startSimulator c) where
  sim := .start c
  phase := .start c
  shut := .start c
  arr := .start c
  work := .start c
  drained := by
    rintro - ⟨i, -, hidle⟩
    simp [Simulator.IdleNow, startSimulator, initOs] at hidle
  credit := by
    refine ⟨0, 0, ?_, fun x _ => Nat.zero_le _, fun i _ hnow => ?_, ?_⟩
    · exact (Nat.zero_sub _).symm
    · simp [Simulator.RanNow, startSimulator, initOs] at hnow
    · simp [Simulator.RanNow, startSimulator, initOs]

theorem PaceInv.of_run (hcpus : 0 < c.numCpus) {ths : List ThreadId}
    (hrun : Run (Step (simStep c)) (startSimulator c) ths s) : PaceInv c s := by
  refine hrun.invariant (fun s th t h hstep => ?_) (.start c)
  obtain ⟨full, drain, hcredit⟩ := h.credit
  exact ⟨h.sim.step hstep, h.phase.step hstep, h.shut.simStep hcpus h.sim hstep,
    h.arr.step h.sim h.phase hstep,
    h.work.step h.phase hstep, h.drained.step h.sim h.phase h.shut h.arr hstep,
    hcredit.step h.drained h.sim h.phase h.shut h.arr hstep⟩

theorem PaceInv.all_added (h : PaceInv c s) (hfree : freeAt c c.numProcesses ≤ s.os.time)
    {x : ProcId} (hx : x < c.numProcesses) : x < s.os.ldNext := by
  have hmono : freeAt c (x + 1) ≤ freeAt c c.numProcesses := freeAt_mono c hx
  rw [freeAt_succ] at hmono
  exact h.arr.lt_ldNext h.sim h.phase hx (by omega)

/-- After the slot of the last process no slot is wasted. When the time goes
up, every CPU has called `run` in the slot that ends, or it was called in it on
every process that is not finished. -/
theorem slots_work_conserving (hcpus : 0 < c.numCpus) {ths : List ThreadId}
    (hrun : Run (Step (simStep c)) (startSimulator c) ths s)
    (htick : s.timer.loc.event = some .tick) (hfree : freeAt c c.numProcesses ≤ s.timer.time) :
    (∀ i < c.numCpus, s.RanNow i) ∨
      ∀ x < c.numProcesses, x ∉ s.os.finished →
        ∃ i < c.numCpus, s.RanNow i ∧ (s.os.cpu i).proc = some x := by
  have h := PaceInv.of_run hcpus hrun
  rw [← h.sim.time] at hfree
  exact (full_or_drained h.drained h.sim h.shut htick hfree).imp_right
    fun hall x hx hnot => hall x ⟨h.all_added hfree hx, hnot⟩

/-- The slots that all programs together can fill. -/
def evenShare (c : Config) : Nat := (∑ x ∈ Finset.range c.numProcesses, need c x) / c.numCpus

/-- The length of the longest of the first programs. -/
def longestOf (c : Config) : Nat → Nat
  | 0 => 0
  | k + 1 => max (longestOf c k) (need c k)

theorem need_le_longestOf {x k : Nat} (h : x < k) : need c x ≤ longestOf c k := by
  induction k with
  | zero => omega
  | succ k ih =>
      rcases Nat.eq_or_lt_of_le (Nat.le_of_lt_succ h) with rfl | hlt
      · exact Nat.le_max_right ..
      · exact Nat.le_trans (ih hlt) (Nat.le_max_left ..)

/-- The length of the longest program. -/
def longest (c : Config) : Nat := longestOf c c.numProcesses

/-- A slot in which all processes are finished. -/
def slotBound (c : Config) : Nat := freeAt c c.numProcesses + evenShare c + longest c + 1

theorem PaceInv.finished (h : PaceInv c s) (hcpus : 0 < c.numCpus)
    (htime : slotBound c ≤ s.os.time) {x : ProcId} (hx : x < c.numProcesses) :
    x ∈ s.os.finished := by
  rw [slotBound] at htime
  by_contra hnot
  obtain ⟨full, drain, hcredit⟩ := h.credit
  have hlive : s.os.Live x := ⟨h.all_added (by omega) hx, hnot⟩
  have hdrain : drain ≤ longest c :=
    calc drain ≤ s.execs x := hcredit.live x hlive
      _ ≤ need c x := h.work.le x
      _ ≤ _ := need_le_longestOf hx
  have hfull : full ≤ evenShare c := by
    rw [evenShare, Nat.le_div_iff_mul_le hcpus, Nat.mul_comm]
    calc c.numCpus * full ≤ ∑ x ∈ Finset.range c.numProcesses, s.execs x :=
          Nat.le_trans (Nat.le_add_right ..) hcredit.total
      _ ≤ _ := Finset.sum_le_sum fun y _ => h.work.le y
  have hslots := hcredit.slots
  omega

/-- In every order of the steps all processes are finished when the slot
after the last arrival, the total length of the programs divided by the
number of CPUs, the longest program and one more slot have gone by. -/
theorem finished_by_slotBound (hcpus : 0 < c.numCpus) {ths : List ThreadId}
    (hrun : Run (Step (simStep c)) (startSimulator c) ths s) (htime : slotBound c ≤ s.timer.time) :
    ∀ x < c.numProcesses, x ∈ s.os.finished := by
  have h := PaceInv.of_run hcpus hrun
  rw [← h.sim.time] at htime
  exact fun x hx => h.finished hcpus htime hx

/-! ### The end of `main` -/

theorem SimInv.left_of_returned (h : SimInv c s) (hret : s.mainLoc = .returned)
    (hi : i ≤ c.numCpus) : (s.timer.threads i).phase = .left := by
  refine h.joined i hi fun j _ hj => ?_
  rw [hret] at hj
  cases hj

namespace PaceInv

theorem stopped_of_returned (h : PaceInv c s) (hret : s.mainLoc = .returned)
    (hi : i < c.numCpus) : (s.os.cpu i).loc = .stopped :=
  (h.shut.cpuPhase i hi).2 (h.sim.left_of_returned hret (Nat.le_of_lt hi))

theorem end_of_returned (h : PaceInv c s) (hret : s.mainLoc = .returned) :
    s.os.ldNext = c.numProcesses ∧ freeAt c c.numProcesses ≤ s.os.time :=
  h.arr.detach (.inr (h.phase.gone.mpr (h.sim.left_of_returned hret (Nat.le_refl _))))

/-- The last CPU to look has found nothing. -/
theorem nothing_waits (h : PaceInv c s) (hcpus : 0 < c.numCpus) (hret : s.mainLoc = .returned) :
    waitingCount s.os.sched = 0 := by
  have hle := h.drained (h.end_of_returned hret).2
    ⟨0, hcpus, .inl (h.stopped_of_returned hret hcpus)⟩
  have hnone : reloading c.numCpus s.os.cpu = 0 := Finset.sum_eq_zero fun i hi => by
    rw [h.stopped_of_returned hret (Finset.mem_range.mp hi)]
    rfl
  exact Nat.le_zero.mp (Nat.le_trans hle (Nat.le_of_eq hnone))

theorem none_live (h : PaceInv c s) (hcpus : 0 < c.numCpus) (hret : s.mainLoc = .returned)
    (x : ProcId) : ¬s.os.Live x := by
  intro hlive
  have howned := h.phase.acc.owned x
  have hqueued := queued_le_waitingCount s.os.sched x
  have hzero := h.nothing_waits hcpus hret
  have hheld : holders c.numCpus s.os.cpu x = 0 := by
    refine Finset.sum_eq_zero fun i hi => if_neg ?_
    have hi := Finset.mem_range.mp hi
    have hstop := h.stopped_of_returned hret hi
    have hnone : (s.os.cpu i).proc = none := (h.shut.stopped i hi hstop).2
    simp [Cpu.held, hstop, hnone]
  rw [if_pos hlive] at howned
  omega

theorem running_of_returned (h : PaceInv c s) (hcpus : 0 < c.numCpus)
    (hret : s.mainLoc = .returned) : s.os.sched.running = [] := by
  refine List.eq_nil_iff_forall_not_mem.mpr fun x hx => ?_
  have hcount := h.phase.acc.running x
  rw [if_neg (h.none_live hcpus hret x)] at hcount
  exact List.count_eq_zero.mp hcount hx

end PaceInv

/-- When `main` returns, the timer and all threads have ended, every process
was loaded and has finished once, with the program counter at the end of its
program, and the scheduler is empty. -/
theorem main_returns_complete (hcpus : 0 < c.numCpus) {ths : List ThreadId}
    (hrun : Run (Step (simStep c)) (startSimulator c) ths s) (hret : s.mainLoc = .returned) :
    s.timer.loc = .exited ∧ (∀ i ≤ c.numCpus, (s.timer.threads i).phase = .left) ∧
      s.os.finished.Perm (List.range c.numProcesses) ∧
      (∀ x < c.numProcesses, s.os.pc x = c.codeSize x ∧ s.execs x = need c x) ∧
      (∀ q < maxPrio, s.os.sched.ready q = []) ∧ s.os.sched.running = [] := by
  have h := PaceInv.of_run hcpus hrun
  have hmem (x : ProcId) : x ∈ s.os.finished ↔ x < c.numProcesses := by
    rw [← (h.end_of_returned hret).1]
    refine ⟨fun hx => h.phase.acc.finished x hx, fun hx => ?_⟩
    by_contra hnot
    exact h.none_live hcpus hret x ⟨hx, hnot⟩
  refine ⟨h.sim.returned hret, fun i hi => h.sim.left_of_returned hret hi, ?_, fun x hx => ?_,
    fun q hq => ?_, h.running_of_returned hcpus hret⟩
  · rw [List.perm_ext_iff_of_nodup h.work.nodup List.nodup_range]
    intro x
    rw [hmem, List.mem_range]
  · have hfinished := (hmem x).mpr hx
    exact ⟨h.work.pc_of_finished hfinished, h.work.complete x hfinished⟩
  · have hsum := Finset.sum_eq_zero_iff.mp (h.nothing_waits hcpus hret) q (Finset.mem_range.mpr hq)
    exact List.length_eq_zero_iff.mp hsum

/-! ### The steps of a slot -/

/-- How far CPU `i` has come: five steps make a slot. -/
def cpuRank (me : Cpu) (x : Party) : Nat :=
  5 * x.slot + match me.loc with
    | .head => 0
    | .reload => 1
    | .recheck => 2
    | .nextSlot | .stopped => if x.phase = .working then 3 else 4

def ldRank (loc : LdLoc) (x : Party) : Nat :=
  3 * x.slot + match loc with
    | .load => 0
    | .nextSlot => if x.phase = .working then 1 else 2
    | .detach => 1
    | .gone => 2

/-- The timer looks at all `n` devices twice in a round; the time goes up in
the middle. -/
def timerRank (n : Nat) (s : TimerT) : Nat :=
  (2 * n + 3) * s.time + match s.loc with
    | .head => n + 1
    | .scan rest _ _ => n + 2 + (n - rest.length)
    | .clear rest _ _ => n - rest.length
    | .exited => n + 2

def mainRank (n : Nat) : MainLoc → Nat
  | .join i => i
  | .stopTimer => n
  | .joinTimer => n + 1
  | .returned => n + 2

/-- How far the program has come. -/
def Simulator.rank (c : Config) (s : Simulator) : Nat :=
  ∑ i ∈ Finset.range c.numCpus, cpuRank (s.os.cpu i) (s.timer.threads i) +
    ldRank s.ldLoc (s.timer.threads c.numCpus) + timerRank (c.numCpus + 1) s.timer +
    mainRank (c.numCpus + 1) s.mainLoc

theorem cpuStep_rank {s u : OsT} {x : Party} (h : cpuStep c s i = some u)
    (hslot : (s.cpu i).loc ≠ .nextSlot) (hwork : x.phase = .working) :
    cpuRank (s.cpu i) x < cpuRank (u.cpu i) x := by
  cases cpuStep_cases h with
  | loadFailed hloc | load _ hloc | finish _ hloc | requeue _ _ hloc | keep _ hloc | reload hloc
  | stop hloc | skip hloc | exec _ _ hloc => simp [cpuRank, hloc, hwork]
  | slot hloc => exact absurd hloc hslot

theorem cpuStep_rank_pass {s u : OsT} {x : Party} (h : cpuStep c s i = some u)
    (hslot : (s.cpu i).loc = .nextSlot) (hwait : x.phase = .waiting) :
    cpuRank (s.cpu i) x < cpuRank (u.cpu i) x.pass := by
  rw [cpuStep, hslot] at h
  cases h
  simp [cpuRank, hslot, hwait, Party.pass]
  omega

theorem timerStep_rank {n : Nat} {s t : TimerT} {ev : TimerEvent} (hev : s.loc.event = some ev)
    (hawake : s.asleep = false) (hlen : s.devList.length = n) (hrest : s.loc.rest <:+ s.devList)
    (h : timerStep s ev = some t) : timerRank n s < timerRank n t := by
  have hle := hrest.length_le
  cases hl : s.loc with
  | head =>
      rw [hl] at hev
      cases hev
      simp only [timerStep, hl, Option.some.injEq] at h
      subst h
      cases hstop : s.timerStop <;> simp [timerRank, hl, hlen]
  | scan rest fsh event =>
      rw [hl] at hev hle
      cases rest with
      | nil =>
          cases hev
          simp only [timerStep, hl, Option.some.injEq] at h
          subst h
          simp only [timerRank, hl, List.length_nil, hlen, Nat.mul_succ]
          omega
      | cons i rest =>
          cases hev
          simp only [TimerT.asleep, hl] at hawake
          simp only [timerStep, hl, hawake, ne_eq, not_true_eq_false, if_false,
            Bool.false_eq_true, Option.some.injEq] at h
          subst h
          simp only [TimerLoc.rest, List.length_cons] at hle
          simp only [timerRank, hl, List.length_cons]
          omega
  | clear rest fsh event =>
      rw [hl] at hev hle
      cases rest with
      | nil =>
          cases hev
          simp only [timerStep, hl, Option.some.injEq] at h
          subst h
          by_cases heq : fsh = event <;> simp [timerRank, hl, heq]
      | cons i rest =>
          cases hev
          simp only [timerStep, hl, ne_eq, not_true_eq_false, if_false, Option.some.injEq] at h
          subst h
          simp only [TimerLoc.rest, List.length_cons] at hle
          simp only [timerRank, hl, TimerT.setDev, List.length_cons]
          omega
  | exited =>
      rw [hl] at hev
      cases hev

theorem sum_cpuRank_lt {n : Nat} {cpu cpu' : Nat → Cpu} {b b' : Nat → Party} (hi : i < n)
    (hother : ∀ j ≠ i, cpu' j = cpu j ∧ b' j = b j)
    (hlt : cpuRank (cpu i) (b i) < cpuRank (cpu' i) (b' i)) :
    ∑ j ∈ Finset.range n, cpuRank (cpu j) (b j) <
      ∑ j ∈ Finset.range n, cpuRank (cpu' j) (b' j) := by
  have hsum := sum_update hi (f := fun j => cpuRank (cpu j) (b j))
    (g := fun j => cpuRank (cpu' j) (b' j)) fun j hj => by rw [(hother j hj).1, (hother j hj).2]
  omega

/-- A step of CPU `i` that takes it on. -/
theorem rank_lt_cpu {u : OsT} {tm : TimerT} {execs : ProcId → Nat} {x : Party}
    (hi : i < c.numCpus) (hthreads : tm.threads = Function.update s.timer.threads i x)
    (htm : timerRank (c.numCpus + 1) tm = timerRank (c.numCpus + 1) s.timer)
    (hother : ∀ j ≠ i, u.cpu j = s.os.cpu j)
    (hlt : cpuRank (s.os.cpu i) (s.timer.threads i) < cpuRank (u.cpu i) x) :
    s.rank c < Simulator.rank c ⟨u, tm, s.ldLoc, s.mainLoc, execs⟩ := by
  have hsum : ∑ j ∈ Finset.range c.numCpus, cpuRank (s.os.cpu j) (s.timer.threads j) <
      ∑ j ∈ Finset.range c.numCpus, cpuRank (u.cpu j) (tm.threads j) := by
    refine sum_cpuRank_lt hi (fun j hj => ⟨hother j hj, ?_⟩) ?_
    · rw [hthreads, Function.update_of_ne hj]
    · rw [hthreads, Function.update_self]
      exact hlt
  have hld : tm.threads c.numCpus = s.timer.threads c.numCpus := by
    rw [hthreads, Function.update_of_ne (Nat.ne_of_lt hi).symm]
  simp only [Simulator.rank, htm, hld]
  omega

/-- The same for the loader. -/
theorem rank_lt_loader {u : OsT} {tm : TimerT} {loc : LdLoc} {x : Party}
    (hthreads : tm.threads = Function.update s.timer.threads c.numCpus x)
    (htm : timerRank (c.numCpus + 1) tm = timerRank (c.numCpus + 1) s.timer)
    (hcpu : u.cpu = s.os.cpu)
    (hlt : ldRank s.ldLoc (s.timer.threads c.numCpus) < ldRank loc x) :
    s.rank c < Simulator.rank c ⟨u, tm, loc, s.mainLoc, s.execs⟩ := by
  have hsum : ∑ j ∈ Finset.range c.numCpus, cpuRank (u.cpu j) (tm.threads j) =
      ∑ j ∈ Finset.range c.numCpus, cpuRank (s.os.cpu j) (s.timer.threads j) := by
    refine Finset.sum_congr rfl fun j hj => ?_
    rw [hcpu, hthreads, Function.update_of_ne (Nat.ne_of_lt (Finset.mem_range.mp hj))]
  have hld : tm.threads c.numCpus = x := by rw [hthreads, Function.update_self]
  simp only [Simulator.rank, htm, hld, hsum]
  omega

/-- Every step goes on. -/
theorem rank_lt (hsim : SimInv c s) (hphase : PhaseInv c s)
    (hshut : 0 < c.numCpus → ShutdownInv c s.slots) {th : ThreadId}
    (hstep : simStep c s th = some t) : s.rank c < t.rank c := by
  have hsame (i : Nat) : s.timer.threads =
      Function.update s.timer.threads i (s.timer.threads i) :=
    (Function.update_eq_self i _).symm
  cases simStep_cases hstep with
  | report hi hloc hwork =>
      refine rank_lt_cpu hi (threads_reported ..) rfl (fun _ _ => rfl) ?_
      simp [cpuRank, hloc, hwork, Party.report]
  | pass hi hloc hwait hdone hcpu =>
      exact rank_lt_cpu hi (threads_passed ..) rfl (fun j hj => cpuStep_other hcpu hj)
        (cpuStep_rank_pass hcpu hloc hwait)
  | leave hi hloc hwork =>
      refine rank_lt_cpu hi (threads_detached ..) rfl (fun _ _ => rfl) ?_
      simp [cpuRank, hloc, hwork, Party.leave]
  | @cpu i u hi hslot hcpu =>
      have hwork : (s.timer.threads i).phase = .working := by
        cases hp : (s.timer.threads i).phase with
        | working => rfl
        | waiting => exact absurd (hphase.cpu i hi hp) hslot
        | left =>
            have hstop : (s.os.cpu i).loc = .stopped :=
              ((hshut (Nat.zero_lt_of_lt hi)).cpuPhase i hi).2 hp
            rw [cpuStep, hstop] at hcpu
            cases hcpu
      exact rank_lt_cpu hi (hsame i) rfl (fun j hj => cpuStep_other hcpu hj)
        (cpuStep_rank hcpu hslot hwork)
  | wait hloc | add hloc =>
      refine rank_lt_loader (hsame _) rfl rfl ?_
      simp [ldRank, hloc, hphase.ld_working (.inl hloc)]
  | setDone hloc =>
      refine rank_lt_loader (hsame _) rfl rfl ?_
      simp [ldRank, hloc]
  | ldReport hloc hwork =>
      refine rank_lt_loader (threads_reported ..) rfl rfl ?_
      simp [ldRank, hloc, hwork, Party.report]
  | ldPass hloc hwait =>
      refine rank_lt_loader (threads_passed ..) rfl rfl ?_
      simp [ldRank, hloc, hwait, Party.pass]
      omega
  | ldLeave hloc =>
      refine rank_lt_loader (threads_detached ..) rfl rfl ?_
      simp [ldRank, hloc, Party.leave]
  | timer hawake hev htm =>
      obtain ⟨evs, hinv⟩ := hsim.timer
      have hlen : s.timer.devList.length = c.numCpus + 1 := by
        rw [hinv.devs, List.length_reverse, List.length_range]
      have hlt := timerStep_rank hev hawake hlen hsim.rest htm
      obtain ⟨hthreads, -⟩ := timerStep_event hev htm
      simp only [Simulator.rank, hthreads]
      omega
  | join hloc hleft =>
      simp only [Simulator.rank, hloc]
      have hle := hsim.joins _ hloc
      split <;> simp only [mainRank] <;> omega
  | stop hloc =>
      simp only [Simulator.rank, hloc, mainRank]
      exact Nat.lt_succ_self _
  | finish hloc =>
      simp only [Simulator.rank, hloc, mainRank]
      omega

/-- The rank is bounded by the time. -/
theorem rank_le (hsim : SimInv c s) :
    s.rank c ≤ (7 * c.numCpus + 8) * s.timer.time + 7 * c.numCpus + 9 := by
  obtain ⟨evs, hinv⟩ := hsim.timer
  have hslot (i : Nat) (hi : i ≤ c.numCpus) : (s.timer.threads i).slot ≤ s.timer.time := by
    rw [hinv.time]
    exact (hinv.device i (mem_devices hsim hi)).le
  have hcpu : ∑ i ∈ Finset.range c.numCpus, cpuRank (s.os.cpu i) (s.timer.threads i) ≤
      c.numCpus * (5 * s.timer.time + 4) := by
    have hone (i : Nat) (hi : i ∈ Finset.range c.numCpus) :
        cpuRank (s.os.cpu i) (s.timer.threads i) ≤ 5 * s.timer.time + 4 := by
      have hle := hslot i (Nat.le_of_lt (Finset.mem_range.mp hi))
      rw [cpuRank]
      split <;> (try split) <;> omega
    refine Nat.le_trans (Finset.sum_le_sum hone) ?_
    rw [Finset.sum_const, Finset.card_range]
    exact Nat.le_refl _
  have hld : ldRank s.ldLoc (s.timer.threads c.numCpus) ≤ 3 * s.timer.time + 2 := by
    have hle := hslot _ (Nat.le_refl _)
    unfold ldRank
    split <;> (try split) <;> omega
  have htimer : timerRank (c.numCpus + 1) s.timer ≤
      (2 * (c.numCpus + 1) + 3) * s.timer.time + 2 * (c.numCpus + 1) + 2 := by
    rw [timerRank]
    split <;> omega
  have hmain : mainRank (c.numCpus + 1) s.mainLoc ≤ c.numCpus + 3 := by
    cases hl : s.mainLoc with
    | join i =>
        have hle := hsim.joins i hl
        simp only [mainRank]
        omega
    | stopTimer | joinTimer | returned => simp [mainRank]
  calc s.rank c ≤ c.numCpus * (5 * s.timer.time + 4) + (3 * s.timer.time + 2) +
        ((2 * (c.numCpus + 1) + 3) * s.timer.time + 2 * (c.numCpus + 1) + 2) + (c.numCpus + 3) :=
        Nat.add_le_add (Nat.add_le_add (Nat.add_le_add hcpu hld) htimer) hmain
    _ = (7 * c.numCpus + 8) * s.timer.time + 7 * c.numCpus + 9 := by ring

theorem length_le_rank {ths : List ThreadId}
    (hrun : Run (Step (simStep c)) (startSimulator c) ths s) :
    ths.length + (c.numCpus + 2) ≤ s.rank c := by
  suffices h : SimInv c s ∧ PhaseInv c s ∧ (0 < c.numCpus → ShutdownInv c s.slots) ∧
      ths.length + (c.numCpus + 2) ≤ s.rank c from h.2.2.2
  refine hrun.history (I := fun ths s => SimInv c s ∧ PhaseInv c s ∧
    (0 < c.numCpus → ShutdownInv c s.slots) ∧ ths.length + (c.numCpus + 2) ≤ s.rank c)
    (fun ths s th t h hstep => ?_) ⟨.start c, .start c, fun _ => .start c, ?_⟩
  · obtain ⟨hsim, hphase, hshut, hle⟩ := h
    have hlt := rank_lt hsim hphase hshut hstep
    refine ⟨hsim.step hstep, hphase.step hstep, fun hcpus => (hshut hcpus).simStep hcpus hsim hstep,
      ?_⟩
    rw [List.length_append, List.length_singleton]
    omega
  · rw [startSimulator, attached_eq]
    simp [Simulator.rank, initOs, initTimer, newDevice, TimerT.threads, cpuRank, ldRank, timerRank,
      mainRank]

/-- The threads cannot go on forever within a slot: in every order of the
steps their number is bounded by the time. -/
theorem steps_bounded_by_time {ths : List ThreadId}
    (hrun : Run (Step (simStep c)) (startSimulator c) ths s) :
    ths.length ≤ (7 * c.numCpus + 8) * s.timer.time + 6 * c.numCpus + 7 := by
  have hlen := length_le_rank hrun
  have hle := rank_le (SimInv.of_run hrun)
  omega

theorem steps_bounded_by_time_toTheEnd : ∃ s,
    Run (Step (simStep (oneProcess 1))) (startSimulator (oneProcess 1)) toTheEnd s ∧
      s.timer.time = 2 ∧ toTheEnd.length ≤ 15 * s.timer.time + 13 := by
  obtain ⟨s, hs, hend⟩ := (Option.any_eq_true _ _).mp toTheEnd_returns
  have hrun := run_of_exec hs
  exact ⟨s, hrun, (of_decide_eq_true hend).2, steps_bounded_by_time hrun⟩

/-- So whatever order the threads are scheduled in, all processes are
finished after a number of steps that depends on the configuration only. -/
theorem finished_after_steps (hcpus : 0 < c.numCpus) {ths : List ThreadId}
    (hrun : Run (Step (simStep c)) (startSimulator c) ths s)
    (hlen : (7 * c.numCpus + 8) * slotBound c + 6 * c.numCpus + 7 ≤ ths.length) :
    ∀ x < c.numProcesses, x ∈ s.os.finished := by
  have h := PaceInv.of_run hcpus hrun
  have hle := rank_le h.sim
  have hrank := length_le_rank hrun
  have htime : slotBound c ≤ s.os.time := by
    rw [h.sim.time]
    refine Nat.le_of_mul_le_mul_left ?_ (Nat.succ_pos (7 * c.numCpus + 7))
    change (7 * c.numCpus + 8) * slotBound c ≤ (7 * c.numCpus + 8) * s.timer.time
    omega
  exact fun x hx => h.finished hcpus htime hx

end Ossim.Sched
