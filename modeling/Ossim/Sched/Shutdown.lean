import Ossim.Lib.Barrier
import Ossim.Sched.Accounting

/-!
The end of the simulation, with the slots of the timer.

The loader passes a whole slot between its last `add_proc` and `set_done`.
A CPU looks at the ready queues and at the `done` flag in two steps, but
within one slot. So a CPU that reads `done` has looked at the queues after
the last process was added, and the last CPU to look at them has found them
empty: whoever puts a process back looks again.

The timer appears as the barrier it is: a thread goes on to its next slot
when all threads are done with the one it leaves or are detached. The time
may go up at any moment, which allows more schedules than the timer does.
-/

namespace Ossim.Sched

open Ossim.Lib

/-- Where the loader stands in `ld_routine`. -/
inductive LdLoc
  /-- the tests of the two loops -/
  | load
  /-- inside `next_slot` -/
  | nextSlot
  /-- after `set_done` -/
  | detach
  | gone
  deriving DecidableEq

/-- The threads of `os.c` between the slots of the timer. Thread `i` is CPU
`i`, and the loader is the thread after the last CPU. -/
structure SlotOs where
  os : OsT
  thread : Nat → Party
  ldLoc : LdLoc

def initSlotOs : SlotOs := ⟨initOs, fun _ => ⟨0, .working⟩, .load⟩

variable (c : Config)

/-- The threads attached to the timer. -/
def threads : List Nat := List.range (c.numCpus + 1)

def SlotOs.setThread (s : SlotOs) (i : Nat) (x : Party) : SlotOs :=
  { s with thread := Function.update s.thread i x }

/-- One step of CPU `i`. Inside `next_slot` it reports its slot and then
waits for the barrier; after the loop it detaches. -/
def cpuSlotStep (s : SlotOs) (i : Nat) : Option SlotOs :=
  match (s.os.cpu i).loc, (s.thread i).phase with
  | .nextSlot, .working => some (s.setThread i (s.thread i).report)
  | .nextSlot, .waiting =>
    if MayPass (threads c) s.thread i then
      (cpuStep c s.os i).map fun t => { s with os := t }.setThread i (s.thread i).pass
    else none
  | .nextSlot, .left => none
  | .stopped, .working => some (s.setThread i (s.thread i).leave)
  | .stopped, _ => none
  | _, _ => (cpuStep c s.os i).map fun t => { s with os := t }

/-- One step of the loader. -/
def ldSlotStep (s : SlotOs) : Option SlotOs :=
  let me := s.thread c.numCpus
  match s.ldLoc with
  | .load =>
    (ldStep c s.os).map fun t =>
      { s with os := t, ldLoc := if s.os.ldNext < c.numProcesses then .nextSlot else .detach }
  | .nextSlot =>
    match me.phase with
    | .working => some (s.setThread c.numCpus me.report)
    | .waiting =>
      if MayPass (threads c) s.thread c.numCpus then
        some ({ s with ldLoc := .load }.setThread c.numCpus me.pass)
      else none
    | .left => none
  | .detach => some ({ s with ldLoc := .gone }.setThread c.numCpus me.leave)
  | .gone => none

def slotStep (s : SlotOs) : Turn → Option SlotOs
  | .cpu i => if i < c.numCpus then cpuSlotStep c s i else none
  | .loader => ldSlotStep c s
  | .timer => some { s with os := { s.os with time := s.os.time + 1 } }

/-! ### What a step can be -/

inductive SlotMove (s : SlotOs) : SlotOs → Prop
  | report {i : Nat} (hi : i < c.numCpus) (hloc : (s.os.cpu i).loc = .nextSlot)
      (hwork : (s.thread i).phase = .working) : SlotMove s (s.setThread i (s.thread i).report)
  | pass {i : Nat} {t : OsT} (hi : i < c.numCpus) (hloc : (s.os.cpu i).loc = .nextSlot)
      (hwait : (s.thread i).phase = .waiting) (hpass : MayPass (threads c) s.thread i)
      (hstep : cpuStep c s.os i = some t) :
      SlotMove s ({ s with os := t }.setThread i (s.thread i).pass)
  | leave {i : Nat} (hi : i < c.numCpus) (hloc : (s.os.cpu i).loc = .stopped) :
      SlotMove s (s.setThread i (s.thread i).leave)
  | cpu {i : Nat} {t : OsT} (hi : i < c.numCpus) (hslot : (s.os.cpu i).loc ≠ .nextSlot)
      (hstep : cpuStep c s.os i = some t) : SlotMove s { s with os := t }
  | wait (hloc : s.ldLoc = .load) (hnext : s.os.ldNext < c.numProcesses) :
      SlotMove s { s with ldLoc := .nextSlot }
  | add {u : SchedT} (hloc : s.ldLoc = .load) (hnext : s.os.ldNext < c.numProcesses)
      (hadd : addMlqProc c.prio s.os.sched s.os.ldNext = some u) :
      SlotMove s
        { s with os := { s.os with sched := u, ldNext := s.os.ldNext + 1 }, ldLoc := .nextSlot }
  | setDone (hloc : s.ldLoc = .load) (hnext : c.numProcesses ≤ s.os.ldNext) :
      SlotMove s { s with os := { s.os with done := true }, ldLoc := .detach }
  | ldReport (hloc : s.ldLoc = .nextSlot) (hwork : (s.thread c.numCpus).phase = .working) :
      SlotMove s (s.setThread c.numCpus (s.thread c.numCpus).report)
  | ldPass (hloc : s.ldLoc = .nextSlot) (hwait : (s.thread c.numCpus).phase = .waiting)
      (hpass : MayPass (threads c) s.thread c.numCpus) :
      SlotMove s ({ s with ldLoc := .load }.setThread c.numCpus (s.thread c.numCpus).pass)
  | ldLeave (hloc : s.ldLoc = .detach) :
      SlotMove s ({ s with ldLoc := .gone }.setThread c.numCpus (s.thread c.numCpus).leave)
  | time : SlotMove s { s with os := { s.os with time := s.os.time + 1 } }

theorem cpuSlotStep_cases {c : Config} {s t : SlotOs} {i : Nat} (hi : i < c.numCpus)
    (h : cpuSlotStep c s i = some t) : SlotMove c s t := by
  simp only [cpuSlotStep] at h
  split at h
  · rename_i hloc hphase
    cases h
    exact .report hi hloc hphase
  · rename_i hloc hphase
    split at h
    · rename_i hpass
      obtain ⟨u, hu, rfl⟩ := Option.map_eq_some_iff.mp h
      exact .pass hi hloc hphase hpass hu
    · cases h
  · cases h
  · rename_i hloc hphase
    cases h
    exact .leave hi hloc
  · cases h
  · rename_i _ hnot hnot' hnot'' _
    obtain ⟨u, hu, rfl⟩ := Option.map_eq_some_iff.mp h
    refine .cpu hi (fun hloc => ?_) hu
    cases hphase : (s.thread i).phase with
    | working => exact hnot hloc hphase
    | waiting => exact hnot' hloc hphase
    | left => exact hnot'' hloc hphase

theorem slotStep_cases {c : Config} {s t : SlotOs} {turn : Turn} (h : slotStep c s turn = some t) :
    SlotMove c s t := by
  cases turn with
  | cpu i =>
      simp only [slotStep] at h
      split at h
      · rename_i hi
        exact cpuSlotStep_cases hi h
      · cases h
  | loader =>
      simp only [slotStep, ldSlotStep] at h
      cases hloc : s.ldLoc with
      | load =>
          simp only [hloc, ldStep] at h
          obtain ⟨u, hu, rfl⟩ := Option.map_eq_some_iff.mp h
          split at hu
          · rename_i hnext
            rw [if_pos hnext]
            split at hu
            · cases hu
              exact .wait hloc hnext
            · obtain ⟨v, hv, rfl⟩ := Option.map_eq_some_iff.mp hu
              exact .add hloc hnext hv
          · rename_i hnext
            rw [if_neg hnext]
            split at hu
            · cases hu
            · cases hu
              exact .setDone hloc (Nat.not_lt.mp hnext)
      | nextSlot =>
          simp only [hloc] at h
          split at h
          · rename_i hphase
            cases h
            exact .ldReport hloc hphase
          · rename_i hphase
            split at h
            · rename_i hpass
              cases h
              exact .ldPass hloc hphase hpass
            · cases h
          · cases h
      | detach =>
          simp only [hloc] at h
          cases h
          exact .ldLeave hloc
      | gone =>
          simp only [hloc] at h
          cases h
  | timer =>
      cases h
      exact .time

/-! ### Who looks at the queues again -/

/-- Some process is in a ready queue. -/
def Waiting (s : SchedT) : Prop := ∃ q < maxPrio, s.ready q ≠ []

/-- The CPU comes back to `get_proc` even if `done` is set. -/
def Cpu.Looks (x : Cpu) : Prop := x.loc ≠ .stopped ∧ (x.loc = .recheck → x.proc ≠ none)

/-- After its step a CPU looks again, or it has just seen all queues empty,
or it stops. -/
theorem cpuStep_looks {c : Config} {s t : OsT} {i : Nat} (h : cpuStep c s i = some t) :
    (t.cpu i).Looks ∨ ¬Waiting t.sched ∨
      (s.cpu i).loc = .recheck ∧ (s.cpu i).proc = none ∧ s.done = true ∧ t.sched = s.sched := by
  have hempty : (getMlqProc s.sched).1 = none → ¬Waiting (getMlqProc s.sched).2 := by
    obtain ⟨hnil, -, hready, -, -⟩ | ⟨p, y, hy, -⟩ := getMlqProc_spec s.sched
    · rintro - ⟨q, hq, hne⟩
      rw [hready] at hne
      exact hne (hnil q hq)
    · rw [hy]
      exact fun hnone => by cases hnone
  cases cpuStep_cases h with
  | loadFailed | finish | requeue | skip | exec | slot => left; simp [Cpu.Looks]
  | load p => left; simp [Cpu.Looks]
  | keep p hloc hproc => left; simp [Cpu.Looks, hproc]
  | reload hloc =>
      cases hget : (getMlqProc s.sched).1 with
      | none => exact .inr (.inl (hempty hget))
      | some p => left; simp [Cpu.Looks]
  | stop hloc hproc hdone => exact .inr (.inr ⟨hloc, hproc, hdone, rfl⟩)

/-- Nothing but the flag and the processes that are loaded matters outside
the CPUs. -/
theorem cpuStep_loader {c : Config} {s t : OsT} {i : Nat} (h : cpuStep c s i = some t) :
    t.done = s.done ∧ t.ldNext = s.ldNext := by
  have hrun (p : ProcId) : (run c s p).done = s.done ∧ (run c s p).ldNext = s.ldNext := by
    unfold run
    split <;> exact ⟨rfl, rfl⟩
  cases cpuStep_cases h with
  | exec p => exact hrun p
  | loadFailed | load | finish | requeue | keep | reload | stop | skip | slot => exact ⟨rfl, rfl⟩

theorem cpuStep_stopped {c : Config} {s t : OsT} {i : Nat} (h : cpuStep c s i = some t)
    (hstop : (t.cpu i).loc = .stopped) : s.done = true ∧ (t.cpu i).proc = none := by
  cases cpuStep_cases h with
  | stop hloc hproc hdone => exact ⟨hdone, by simpa using hproc⟩
  | loadFailed | load | finish | requeue | keep | reload | skip | exec | slot =>
      simp at hstop

/-! ### The invariant -/

structure ShutdownInv (c : Config) (s : SlotOs) : Prop where
  acc : Accounted c s.os
  together : Together (threads c) s.thread
  cpuPhase : ∀ i < c.numCpus, ((s.thread i).phase = .waiting → (s.os.cpu i).loc = .nextSlot) ∧
    ((s.thread i).phase = .left → (s.os.cpu i).loc = .stopped)
  ldPhase : ((s.thread c.numCpus).phase = .waiting → s.ldLoc = .nextSlot) ∧
    ((s.thread c.numCpus).phase = .left → s.ldLoc = .gone)
  done : s.os.done = true ↔ s.ldLoc = .detach ∨ s.ldLoc = .gone
  next : s.os.ldNext ≤ c.numProcesses ∧ (s.os.done = true → s.os.ldNext = c.numProcesses)
  stopped : ∀ i < c.numCpus, (s.os.cpu i).loc = .stopped →
    s.os.done = true ∧ (s.os.cpu i).proc = none
  /-- once all processes are added, a process that waits is seen by some CPU;
  until the loader has passed its slot, that may be one that looked before
  the last process came -/
  looks : s.os.ldNext = c.numProcesses → Waiting s.os.sched →
    (∃ i < c.numCpus, (s.os.cpu i).Looks) ∨
      s.ldLoc = .nextSlot ∧ ∃ i < c.numCpus, (s.os.cpu i).loc = .recheck ∧
        (s.thread i).slot ≤ (s.thread c.numCpus).slot

theorem mem_threads {c : Config} {i : Nat} : i ∈ threads c ↔ i ≤ c.numCpus := by
  rw [threads, List.mem_range, Nat.lt_succ_iff]

namespace ShutdownInv

variable {c : Config} {s t : SlotOs}

theorem boot (c : Config) : ShutdownInv c initSlotOs where
  acc := accounted_init c
  together _ _ _ _ := .inr (Nat.le_refl 0)
  cpuPhase _ _ := ⟨fun h => (by cases h), fun h => by cases h⟩
  ldPhase := ⟨fun h => (by cases h), fun h => by cases h⟩
  done := by simp [initSlotOs, initOs]
  next := ⟨Nat.zero_le _, fun h => by cases h⟩
  stopped _ _ h := by cases h
  looks _ hwait := by
    obtain ⟨q, -, hne⟩ := hwait
    exact absurd rfl hne

/-- After a step of a CPU some CPU looks at the queues again, if a process
waits there. -/
theorem looks_cpu (h : ShutdownInv c s) {i : Nat} {u : OsT} (hi : i < c.numCpus)
    (hstep : cpuStep c s.os i = some u) (hnext : u.ldNext = c.numProcesses)
    (hwait : Waiting u.sched) : ∃ j < c.numCpus, (u.cpu j).Looks := by
  obtain ⟨-, hld⟩ := cpuStep_loader hstep
  rw [hld] at hnext
  obtain hlooks | hnot | ⟨hloc, hproc, hdone, hsched⟩ := cpuStep_looks hstep
  · exact ⟨i, hi, hlooks⟩
  · exact absurd hwait hnot
  · -- CPU `i` stops, so it is another one that looks
    rw [hsched] at hwait
    rcases h.looks hnext hwait with ⟨j, hj, hlooks⟩ | ⟨hslot, -⟩
    · have hji : j ≠ i := by
        rintro rfl
        exact hlooks.2 hloc hproc
      refine ⟨j, hj, ?_⟩
      rw [cpuStep_other hstep hji]
      exact hlooks
    · rw [h.done, hslot] at hdone
      rcases hdone with hdone | hdone <;> cases hdone

/-- A step of a CPU, with what it does to the slots of its thread. -/
theorem cpu (h : ShutdownInv c s) {i : Nat} {u : OsT} {x : Party} (hi : i < c.numCpus)
    (hstep : cpuStep c s.os i = some u)
    (htogether : Together (threads c) (Function.update s.thread i x))
    (hphase : x.phase = .working) :
    ShutdownInv c ({ s with os := u }.setThread i x) := by
  obtain ⟨hdone, hld⟩ := cpuStep_loader hstep
  have hne : c.numCpus ≠ i := (Nat.ne_of_lt hi).symm
  refine ⟨h.acc.cpuStep hi hstep, htogether, fun j hj => ?_, ?_, ?_, ?_, fun j hj hstop => ?_,
    fun hnext hwait => .inl (h.looks_cpu hi hstep hnext hwait)⟩
  · rcases eq_or_ne j i with rfl | hji
    · simp only [SlotOs.setThread, Function.update_self, hphase]
      exact ⟨fun hfalse => (by cases hfalse), fun hfalse => by cases hfalse⟩
    · simp only [SlotOs.setThread, Function.update_of_ne hji, cpuStep_other hstep hji]
      exact h.cpuPhase j hj
  · simp only [SlotOs.setThread, Function.update_of_ne hne]
    exact h.ldPhase
  · change u.done = true ↔ _
    rw [hdone]
    exact h.done
  · change u.ldNext ≤ _ ∧ (u.done = true → u.ldNext = _)
    rw [hdone, hld]
    exact h.next
  · change u.done = true ∧ _
    rw [hdone]
    rcases eq_or_ne j i with rfl | hji
    · exact cpuStep_stopped hstep hstop
    · change (u.cpu j).loc = _ at hstop
      change s.os.done = true ∧ (u.cpu j).proc = none
      rw [cpuStep_other hstep hji] at hstop ⊢
      exact h.stopped j hj hstop

/-- A step of thread `i` that changes its phase only. -/
theorem thread (h : ShutdownInv c s) {i : Nat} {x : Party}
    (htogether : Together (threads c) (Function.update s.thread i x))
    (hslot : x.slot = (s.thread i).slot)
    (hcpu : i < c.numCpus → (x.phase = .waiting → (s.os.cpu i).loc = .nextSlot) ∧
      (x.phase = .left → (s.os.cpu i).loc = .stopped))
    (hld : i = c.numCpus → (x.phase = .waiting → s.ldLoc = .nextSlot) ∧
      (x.phase = .left → s.ldLoc = .gone)) : ShutdownInv c (s.setThread i x) := by
  have hslots (j : Nat) : (Function.update s.thread i x j).slot = (s.thread j).slot := by
    rcases eq_or_ne j i with rfl | hji
    · rw [Function.update_self, hslot]
    · rw [Function.update_of_ne hji]
  refine ⟨h.acc, htogether, fun j hj => ?_, ?_, h.done, h.next, h.stopped, fun hnext hwait => ?_⟩
  · rcases eq_or_ne j i with rfl | hji
    · simp only [SlotOs.setThread, Function.update_self]
      exact hcpu hj
    · simp only [SlotOs.setThread, Function.update_of_ne hji]
      exact h.cpuPhase j hj
  · rcases eq_or_ne c.numCpus i with rfl | hne
    · simp only [SlotOs.setThread, Function.update_self]
      exact hld rfl
    · simp only [SlotOs.setThread, Function.update_of_ne hne]
      exact h.ldPhase
  · simp only [SlotOs.setThread, hslots]
    exact h.looks hnext hwait

/-- The phase of the loader while it is not in `next_slot`. -/
theorem ld_working (h : ShutdownInv c s) (hslot : s.ldLoc ≠ .nextSlot) (hgone : s.ldLoc ≠ .gone) :
    (s.thread c.numCpus).phase = .working := by
  cases hphase : (s.thread c.numCpus).phase with
  | working => rfl
  | waiting => exact absurd (h.ldPhase.1 hphase) hslot
  | left => exact absurd (h.ldPhase.2 hphase) hgone

/-- A CPU between the two looks is at work in its slot. -/
theorem cpu_working (h : ShutdownInv c s) {i : Nat} (hi : i < c.numCpus)
    (hloc : (s.os.cpu i).loc = .recheck) : (s.thread i).phase = .working := by
  cases hphase : (s.thread i).phase with
  | working => rfl
  | waiting =>
      have hslot := (h.cpuPhase i hi).1 hphase
      rw [hloc] at hslot
      cases hslot
  | left =>
      have hstop := (h.cpuPhase i hi).2 hphase
      rw [hloc] at hstop
      cases hstop

/-- The loader adds a process: no CPU has stopped, and none is ahead of the
loader. -/
theorem add (h : ShutdownInv c s) (hcpus : 0 < c.numCpus) {u : SchedT} (hloc : s.ldLoc = .load)
    (hnext : s.os.ldNext < c.numProcesses)
    (hadd : addMlqProc c.prio s.os.sched s.os.ldNext = some u) :
    ShutdownInv c
      { s with os := { s.os with sched := u, ldNext := s.os.ldNext + 1 }, ldLoc := .nextSlot } := by
  have hwork := h.ld_working (by rw [hloc]; decide) (by rw [hloc]; decide)
  have hdone : ¬s.os.done = true := by
    rw [h.done, hloc]
    simp
  refine ⟨h.acc.add hadd, h.together, h.cpuPhase, ⟨fun _ => rfl, fun hleft => ?_⟩, ?_,
    ⟨hnext, fun hd => absurd hd hdone⟩, h.stopped, fun _ _ => ?_⟩
  · rw [hwork] at hleft
    cases hleft
  · simpa using hdone
  · have hle : (s.thread 0).slot ≤ (s.thread c.numCpus).slot := by
      have htog := h.together 0 (mem_threads.mpr (Nat.zero_le _)) c.numCpus
        (mem_threads.mpr (Nat.le_refl _))
      simpa [Party.finished, hwork] using htog
    by_cases hrecheck : (s.os.cpu 0).loc = .recheck
    · exact .inr ⟨rfl, 0, hcpus, hrecheck, hle⟩
    · exact .inl ⟨0, hcpus, fun hstop => hdone (h.stopped 0 hcpus hstop).1,
        fun hr => absurd hr hrecheck⟩

/-- The loader passes its slot, so no CPU can still be between the two looks
in the slot of the last process. -/
theorem ldPass (h : ShutdownInv c s) (hloc : s.ldLoc = .nextSlot)
    (hwait : (s.thread c.numCpus).phase = .waiting)
    (hpass : MayPass (threads c) s.thread c.numCpus) :
    ShutdownInv c ({ s with ldLoc := .load }.setThread c.numCpus (s.thread c.numCpus).pass) := by
  have hmem : c.numCpus ∈ threads c := mem_threads.mpr (Nat.le_refl _)
  have hdone : ¬s.os.done = true := by
    rw [h.done, hloc]
    simp
  refine ⟨h.acc, h.together.pass hmem hwait hpass, fun j hj => ?_, ?_, ?_, h.next, h.stopped,
    fun hnext hw => ?_⟩
  · simp only [SlotOs.setThread, Function.update_of_ne (Nat.ne_of_lt hj)]
    exact h.cpuPhase j hj
  · simp [SlotOs.setThread, Party.pass]
  · simpa [SlotOs.setThread] using hdone
  · rcases h.looks hnext hw with hlooks | ⟨-, i, hi, hrecheck, hle⟩
    · exact .inl hlooks
    · have hwork := h.cpu_working hi hrecheck
      have hfin := hpass i (mem_threads.mpr (Nat.le_of_lt hi))
      simp only [Party.finished, hwork, reduceCtorEq, if_false, false_or] at hfin
      omega

theorem step (h : ShutdownInv c s) (hcpus : 0 < c.numCpus) {turn : Turn}
    (hstep : slotStep c s turn = some t) : ShutdownInv c t := by
  have hmem {i : Nat} (hi : i < c.numCpus) : i ∈ threads c := mem_threads.mpr (Nat.le_of_lt hi)
  have hld : c.numCpus ∈ threads c := mem_threads.mpr (Nat.le_refl _)
  cases slotStep_cases hstep with
  | @report i hi hloc hwork =>
      exact h.thread (h.together.report (hmem hi) hwork) rfl
        (fun _ => ⟨fun _ => hloc, fun hfalse => by cases hfalse⟩)
        fun heq => absurd heq (Nat.ne_of_lt hi)
  | @pass i u hi hloc hwait hpass hcpu =>
      exact h.cpu hi hcpu (h.together.pass (hmem hi) hwait hpass) rfl
  | @leave i hi hloc =>
      exact h.thread (h.together.leave (hmem hi)) rfl
        (fun _ => ⟨fun hfalse => (by cases hfalse), fun _ => hloc⟩)
        fun heq => absurd heq (Nat.ne_of_lt hi)
  | @cpu i u hi hslot hcpu =>
      have hwork : (s.thread i).phase = .working := by
        cases hphase : (s.thread i).phase with
        | working => rfl
        | waiting => exact absurd ((h.cpuPhase i hi).1 hphase) hslot
        | left =>
            rw [cpuStep, (h.cpuPhase i hi).2 hphase] at hcpu
            cases hcpu
      have hsame : Function.update s.thread i (s.thread i) = s.thread :=
        Function.update_eq_self i s.thread
      have hinv := h.cpu (x := s.thread i) hi hcpu (by rw [hsame]; exact h.together) hwork
      rw [SlotOs.setThread, hsame] at hinv
      exact hinv
  | wait hloc hnext =>
      have hwork := h.ld_working (by rw [hloc]; decide) (by rw [hloc]; decide)
      have hdone := h.done
      rw [hloc] at hdone
      refine ⟨h.acc, h.together, h.cpuPhase, ⟨fun _ => rfl, fun hleft => ?_⟩, ?_, h.next, h.stopped,
        fun heq => absurd heq (Nat.ne_of_lt hnext)⟩
      · rw [hwork] at hleft
        cases hleft
      · simpa using hdone
  | add hloc hnext hadd => exact h.add hcpus hloc hnext hadd
  | setDone hloc hnext =>
      have hwork := h.ld_working (by rw [hloc]; decide) (by rw [hloc]; decide)
      have heq : s.os.ldNext = c.numProcesses := Nat.le_antisymm h.next.1 hnext
      have hacc := h.acc
      refine ⟨⟨hacc.running, hacc.owned, hacc.prio, hacc.prioLt, hacc.bounded, hacc.finished⟩,
        h.together, h.cpuPhase, ⟨fun hwait => ?_, fun hleft => ?_⟩, ?_, ⟨h.next.1, fun _ => heq⟩,
        fun i hi hstop => ⟨rfl, (h.stopped i hi hstop).2⟩, fun _ hwait => ?_⟩
      · rw [hwork] at hwait
        cases hwait
      · rw [hwork] at hleft
        cases hleft
      · simp
      · refine (h.looks heq hwait).imp_right fun hslot => ?_
        rw [hloc] at hslot
        cases hslot.1
  | ldReport hloc hwork =>
      exact h.thread (h.together.report hld hwork) rfl
        (fun hlt => absurd hlt (Nat.lt_irrefl _))
        fun _ => ⟨fun _ => hloc, fun hfalse => by cases hfalse⟩
  | ldPass hloc hwait hpass => exact h.ldPass hloc hwait hpass
  | ldLeave hloc =>
      have hdone := h.done
      rw [hloc] at hdone
      refine ⟨h.acc, h.together.leave hld, fun j hj => ?_, ?_, ?_, h.next, h.stopped,
        fun hnext hwait => .inl ?_⟩
      · simp only [SlotOs.setThread, Function.update_of_ne (Nat.ne_of_lt hj)]
        exact h.cpuPhase j hj
      · simp [SlotOs.setThread, Party.leave]
      · simpa [SlotOs.setThread] using hdone
      · rcases h.looks hnext hwait with hlooks | ⟨hslot, -⟩
        · exact hlooks
        · rw [hloc] at hslot
          cases hslot
  | time =>
      have hacc := h.acc
      exact ⟨⟨hacc.running, hacc.owned, hacc.prio, hacc.prioLt, hacc.bounded, hacc.finished⟩,
        h.together, h.cpuPhase, h.ldPhase, h.done, h.next, h.stopped, h.looks⟩

end ShutdownInv

/-- When all CPUs have stopped nothing is left behind: every configured
process was loaded and has finished, and the ready queues are empty. -/
theorem none_stranded {c : Config} (hcpus : 0 < c.numCpus) {turns : List Turn} {s : SlotOs}
    (hrun : Run (Step (slotStep c)) initSlotOs turns s)
    (hstop : ∀ i < c.numCpus, (s.os.cpu i).loc = .stopped) :
    s.os.ldNext = c.numProcesses ∧ (∀ x < c.numProcesses, x ∈ s.os.finished) ∧
      ∀ q < maxPrio, s.os.sched.ready q = [] := by
  have h : ShutdownInv c s :=
    hrun.invariant (fun _ _ _ hs hstep => hs.step hcpus hstep) (.boot c)
  have hdone := (h.stopped 0 hcpus (hstop 0 hcpus)).1
  have hnext := h.next.2 hdone
  have hempty : ∀ q < maxPrio, s.os.sched.ready q = [] := by
    intro q hq
    by_contra hne
    rcases h.looks hnext ⟨q, hq, hne⟩ with ⟨i, hi, hlooks⟩ | ⟨hslot, -⟩
    · exact hlooks.1 (hstop i hi)
    · rw [h.done, hslot] at hdone
      rcases hdone with hdone | hdone <;> cases hdone
  refine ⟨hnext, fun x hx => ?_, hempty⟩
  by_contra hnot
  have howned := h.acc.owned x
  have hqueued : queued s.os.sched x = 0 :=
    Finset.sum_eq_zero fun q hq => by rw [hempty q (Finset.mem_range.mp hq)]; rfl
  have hheld : holders c.numCpus s.os.cpu x = 0 := by
    refine Finset.sum_eq_zero fun i hi => ?_
    have hi := Finset.mem_range.mp hi
    rw [if_neg]
    simp [Cpu.held, hstop i hi, (h.stopped i hi (hstop i hi)).2]
  rw [if_pos ⟨by rw [hnext]; exact hx, hnot⟩] at howned
  omega

/-- One process of one instruction. -/
def oneProcess (cpus : Nat) : Config where
  numCpus := cpus
  numProcesses := 1
  timeSlot := 2
  startTime _ := 0
  prio _ := 7
  codeSize _ := 1

/-- CPU 0 runs the process in slot 0, and finishes it and stops in slot 1,
after the loader has set `done`. -/
def runAndStop : List Turn :=
  [.loader, .loader, .cpu 0, .cpu 0, .cpu 0, .loader, .loader, .cpu 0, .cpu 0, .cpu 0, .cpu 0]

theorem runAndStop_stops : (exec (slotStep (oneProcess 1)) initSlotOs runAndStop).any
    (fun s => (s.os.cpu 0).loc = .stopped) = true := by
  decide +kernel

theorem none_stranded_oneProcess : ∃ s,
    Run (Step (slotStep (oneProcess 1))) initSlotOs runAndStop s ∧
    (∀ i < 1, (s.os.cpu i).loc = .stopped) ∧ 0 ∈ s.os.finished := by
  obtain ⟨s, hs, hloc⟩ := (Option.any_eq_true _ _).mp runAndStop_stops
  have hrun := run_of_exec hs
  have hstop : ∀ i < 1, (s.os.cpu i).loc = .stopped := by
    intro i hi
    obtain rfl := Nat.lt_one_iff.mp hi
    exact of_decide_eq_true hloc
  have hnone := none_stranded (c := oneProcess 1) (by decide) hrun hstop
  exact ⟨s, hrun, hstop, hnone.2.1 0 (by decide)⟩

theorem noCpu_ends :
    (exec (slotStep (oneProcess 0)) initSlotOs [.loader, .loader, .loader, .loader, .loader]).any
      (fun s => s.ldLoc = .gone ∧ 0 ∉ s.os.finished) = true := by
  decide +kernel

/-- Without a CPU the loader ends with the process still in its queue. -/
theorem noCpu_strands : ∃ s,
    Run (Step (slotStep (oneProcess 0))) initSlotOs
      [.loader, .loader, .loader, .loader, .loader] s ∧
    (∀ i < (oneProcess 0).numCpus, (s.os.cpu i).loc = .stopped) ∧ s.ldLoc = .gone ∧
    ¬∀ x < (oneProcess 0).numProcesses, x ∈ s.os.finished := by
  obtain ⟨s, hs, hend⟩ := (Option.any_eq_true _ _).mp noCpu_ends
  obtain ⟨hgone, hnot⟩ := of_decide_eq_true hend
  exact ⟨s, run_of_exec hs, fun i hi => absurd hi (Nat.not_lt_zero i), hgone,
    fun hall => hnot (hall 0 (by decide))⟩

end Ossim.Sched
