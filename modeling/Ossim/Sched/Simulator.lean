import Ossim.Sched.Shutdown
import Ossim.Sched.Timer

/-!
The whole program: `main`, its CPU threads, the loader and the timer.

Here the threads meet at the flags of `timer.c` and nowhere else. A thread
in `next_slot` sets its flag, and then it goes on when it finds the flag
cleared; the timer sees the flags only, one at a time. `main` joins the
CPUs in order, then the loader, and stops the timer last. A thread that
sleeps has no step, so a state without steps is a deadlock.

That the flags act as a barrier is a theorem here: the runs of the program
are runs of the threads between the slots of a barrier, and the invariants
proved there carry over.
-/

namespace Ossim.Sched

open Ossim.Lib

/-- Where `main` stands once the threads run. -/
inductive MainLoc
  /-- `pthread_join`, for the CPUs in order and then for the loader -/
  | join (i : Nat)
  /-- at the call of `stop_timer` -/
  | stopTimer
  /-- `pthread_join(_timer, NULL)` -/
  | joinTimer
  | returned
  deriving DecidableEq

structure Simulator where
  os : OsT
  timer : TimerT
  ldLoc : LdLoc
  mainLoc : MainLoc
  /-- how often `run` was called on a process -/
  execs : ProcId → Nat

inductive ThreadId
  | cpu (i : Nat)
  | loader
  | timer
  | main
  deriving DecidableEq

variable (c : Config)

/-- The program when the threads are started: device `i` belongs to CPU `i`,
and the last one to the loader. -/
def startSimulator : Simulator :=
  ⟨initOs, attached (c.numCpus + 1), .load, .join 0, fun _ => 0⟩

/-- The calls of `run` after the next step of CPU `i`. -/
def Simulator.calls (s : Simulator) (i : Nat) : ProcId → Nat :=
  match (s.os.cpu i).loc, (s.os.cpu i).proc with
  | .recheck, some p => Function.update s.execs p (s.execs p + 1)
  | _, _ => s.execs

/-- One step of CPU `i`. -/
def cpuRoutine (s : Simulator) (i : Nat) : Option Simulator :=
  match (s.os.cpu i).loc, (s.timer.threads i).phase with
  | .nextSlot, .working => (timerStep s.timer (.report i)).map fun t => { s with timer := t }
  | .nextSlot, .waiting =>
    -- asleep on `timer_cond` while the flag is set
    if (s.timer.dev i).done then none
    else (timerStep s.timer (.poll i)).bind fun t =>
      (cpuStep c s.os i).map fun u => { s with os := u, timer := t }
  | .nextSlot, .left => none
  | .stopped, .working => (timerStep s.timer (.detach i)).map fun t => { s with timer := t }
  | .stopped, _ => none
  | _, _ => (cpuStep c s.os i).map fun u => { s with os := u, execs := s.calls i }

/-- One step of the loader. -/
def ldRoutine (s : Simulator) : Option Simulator :=
  match s.ldLoc with
  | .load =>
    (ldStep c s.os).map fun t =>
      { s with os := t, ldLoc := if s.os.ldNext < c.numProcesses then .nextSlot else .detach }
  | .nextSlot =>
    match (s.timer.threads c.numCpus).phase with
    | .working => (timerStep s.timer (.report c.numCpus)).map fun t => { s with timer := t }
    | .waiting =>
      if (s.timer.dev c.numCpus).done then none
      else (timerStep s.timer (.poll c.numCpus)).map fun t =>
        { s with timer := t, ldLoc := .load }
    | .left => none
  | .detach =>
    (timerStep s.timer (.detach c.numCpus)).map fun t => { s with timer := t, ldLoc := .gone }
  | .gone => none

/-- What the timer does next. -/
def TimerLoc.event : TimerLoc → Option TimerEvent
  | .head => some .enter
  | .scan (i :: _) _ _ => some (.check i)
  | .scan [] _ _ => some .tick
  | .clear (i :: _) _ _ => some (.clear i)
  | .clear [] _ _ => some .compare
  | .exited => none

/-- The timer waits on `event_cond` of a device. -/
def TimerT.asleep (s : TimerT) : Bool :=
  match s.loc with
  | .scan (i :: _) _ _ => !(s.dev i).done && !(s.dev i).fsh
  | _ => false

/-- One step of `timer_routine`; the other threads read the time it writes. -/
def timerRoutine (s : Simulator) : Option Simulator :=
  if s.timer.asleep then none
  else s.timer.loc.event.bind fun ev =>
    (timerStep s.timer ev).map fun t => { s with timer := t, os := { s.os with time := t.time } }

/-- One step of `main` after `pthread_create`. -/
def mainRoutine (s : Simulator) : Option Simulator :=
  match s.mainLoc with
  | .join i =>
    if (s.timer.threads i).phase = .left then
      some { s with mainLoc := if i < c.numCpus then .join (i + 1) else .stopTimer }
    else none
  | .stopTimer =>
    (timerStep s.timer .stop).map fun t => { s with timer := t, mainLoc := .joinTimer }
  | .joinTimer =>
    match s.timer.loc with
    | .exited => some { s with mainLoc := .returned }
    | _ => none
  | .returned => none

/-- One step of a thread. An instruction that writes over the program counter,
or crashes, is not told from the others (see `Sched.run`). -/
def simStep (s : Simulator) : ThreadId → Option Simulator
  | .cpu i => if i < c.numCpus then cpuRoutine c s i else none
  | .loader => ldRoutine c s
  | .timer => timerRoutine s
  | .main => mainRoutine c s

/-! ### What a step can be -/

/-- The first half of `next_slot` of device `i`. -/
def TimerT.reported (s : TimerT) (i : Nat) : TimerT :=
  s.setDev i { s.dev i with done := true, thread := (s.threads i).report }

/-- The second half, when the flag is cleared. -/
def TimerT.passed (s : TimerT) (i : Nat) : TimerT :=
  s.setDev i { s.dev i with thread := (s.threads i).pass }

def TimerT.detached (s : TimerT) (i : Nat) : TimerT :=
  s.setDev i { s.dev i with fsh := true, thread := (s.threads i).leave }

/-- Everything a step of a thread can be. -/
inductive SimMove (s : Simulator) : ThreadId → Simulator → Prop
  | report {i : Nat} (hi : i < c.numCpus) (hloc : (s.os.cpu i).loc = .nextSlot)
      (hwork : (s.timer.threads i).phase = .working) :
      SimMove s (.cpu i) { s with timer := s.timer.reported i }
  | pass {i : Nat} {u : OsT} (hi : i < c.numCpus) (hloc : (s.os.cpu i).loc = .nextSlot)
      (hwait : (s.timer.threads i).phase = .waiting) (hdone : (s.timer.dev i).done = false)
      (hstep : cpuStep c s.os i = some u) :
      SimMove s (.cpu i) { s with os := u, timer := s.timer.passed i }
  | leave {i : Nat} (hi : i < c.numCpus) (hloc : (s.os.cpu i).loc = .stopped)
      (hwork : (s.timer.threads i).phase = .working) :
      SimMove s (.cpu i) { s with timer := s.timer.detached i }
  | cpu {i : Nat} {u : OsT} (hi : i < c.numCpus) (hslot : (s.os.cpu i).loc ≠ .nextSlot)
      (hstep : cpuStep c s.os i = some u) :
      SimMove s (.cpu i) { s with os := u, execs := s.calls i }
  | wait (hloc : s.ldLoc = .load) (hnext : s.os.ldNext < c.numProcesses)
      (htime : s.os.time < c.startTime s.os.ldNext) :
      SimMove s .loader { s with ldLoc := .nextSlot }
  | add {u : SchedT} (hloc : s.ldLoc = .load) (hnext : s.os.ldNext < c.numProcesses)
      (htime : c.startTime s.os.ldNext ≤ s.os.time)
      (hadd : addMlqProc c.prio s.os.sched s.os.ldNext = some u) :
      SimMove s .loader
        { s with os := { s.os with sched := u, ldNext := s.os.ldNext + 1 }, ldLoc := .nextSlot }
  | setDone (hloc : s.ldLoc = .load) (hnext : c.numProcesses ≤ s.os.ldNext)
      (hdone : s.os.done = false) :
      SimMove s .loader { s with os := { s.os with done := true }, ldLoc := .detach }
  | ldReport (hloc : s.ldLoc = .nextSlot)
      (hwork : (s.timer.threads c.numCpus).phase = .working) :
      SimMove s .loader { s with timer := s.timer.reported c.numCpus }
  | ldPass (hloc : s.ldLoc = .nextSlot) (hwait : (s.timer.threads c.numCpus).phase = .waiting)
      (hdone : (s.timer.dev c.numCpus).done = false) :
      SimMove s .loader { s with timer := s.timer.passed c.numCpus, ldLoc := .load }
  | ldLeave (hloc : s.ldLoc = .detach)
      (hwork : (s.timer.threads c.numCpus).phase = .working) :
      SimMove s .loader { s with timer := s.timer.detached c.numCpus, ldLoc := .gone }
  | timer {ev : TimerEvent} {t : TimerT} (hawake : s.timer.asleep = false)
      (hev : s.timer.loc.event = some ev) (hstep : timerStep s.timer ev = some t) :
      SimMove s .timer { s with timer := t, os := { s.os with time := t.time } }
  | join {i : Nat} (hloc : s.mainLoc = .join i) (hleft : (s.timer.threads i).phase = .left) :
      SimMove s .main { s with mainLoc := if i < c.numCpus then .join (i + 1) else .stopTimer }
  | stop (hloc : s.mainLoc = .stopTimer) :
      SimMove s .main { s with timer := { s.timer with timerStop := true }, mainLoc := .joinTimer }
  | finish (hloc : s.mainLoc = .joinTimer) (hexit : s.timer.loc = .exited) :
      SimMove s .main { s with mainLoc := .returned }

variable {c} {s t : Simulator} {i : Nat}

theorem timerStep_report {s t : TimerT} (h : timerStep s (.report i) = some t) :
    (s.threads i).phase = .working ∧ t = s.reported i := by
  cases timerStep_cases h with
  | report hi hwork => exact ⟨hwork, rfl⟩

theorem timerStep_detach {s t : TimerT} (h : timerStep s (.detach i) = some t) :
    (s.threads i).phase = .working ∧ t = s.detached i := by
  cases timerStep_cases h with
  | detach hi hwork => exact ⟨hwork, rfl⟩

theorem timerStep_poll {s t : TimerT} (hdone : (s.dev i).done = false)
    (h : timerStep s (.poll i) = some t) : t = s.passed i := by
  simp only [timerStep, hdone] at h
  split at h
  · cases h
    simp only [TimerT.passed, hdone]
  · cases h

theorem cpuRoutine_cases (hi : i < c.numCpus) (h : cpuRoutine c s i = some t) :
    SimMove c s (.cpu i) t := by
  simp only [cpuRoutine] at h
  split at h
  · rename_i hloc _
    obtain ⟨u, hu, rfl⟩ := Option.map_eq_some_iff.mp h
    obtain ⟨hwork, rfl⟩ := timerStep_report hu
    exact .report hi hloc hwork
  · rename_i hloc hwait
    split at h
    · cases h
    · rename_i hdone
      obtain ⟨v, hv, hmap⟩ := Option.bind_eq_some_iff.mp h
      obtain ⟨u, hu, rfl⟩ := Option.map_eq_some_iff.mp hmap
      obtain rfl := timerStep_poll (by simpa using hdone) hv
      exact .pass hi hloc hwait (by simpa using hdone) hu
  · cases h
  · rename_i hloc _
    obtain ⟨u, hu, rfl⟩ := Option.map_eq_some_iff.mp h
    obtain ⟨hwork, rfl⟩ := timerStep_detach hu
    exact .leave hi hloc hwork
  · cases h
  · rename_i _ hnot hnot' hnot'' _
    obtain ⟨u, hu, rfl⟩ := Option.map_eq_some_iff.mp h
    refine .cpu hi (fun hloc => ?_) hu
    cases hphase : (s.timer.threads i).phase with
    | working => exact hnot hloc hphase
    | waiting => exact hnot' hloc hphase
    | left => exact hnot'' hloc hphase

theorem ldRoutine_cases (h : ldRoutine c s = some t) : SimMove c s .loader t := by
  simp only [ldRoutine] at h
  split at h
  · rename_i hloc
    simp only [ldStep] at h
    obtain ⟨u, hu, rfl⟩ := Option.map_eq_some_iff.mp h
    split at hu
    · rename_i hnext
      rw [if_pos hnext]
      split at hu
      · rename_i htime
        cases hu
        exact .wait hloc hnext htime
      · rename_i htime
        obtain ⟨v, hv, rfl⟩ := Option.map_eq_some_iff.mp hu
        exact .add hloc hnext (Nat.not_lt.mp htime) hv
    · rename_i hnext
      rw [if_neg hnext]
      split at hu
      · cases hu
      · rename_i hdone
        cases hu
        exact .setDone hloc (Nat.not_lt.mp hnext) (by simpa using hdone)
  · rename_i hloc
    split at h
    · obtain ⟨u, hu, rfl⟩ := Option.map_eq_some_iff.mp h
      obtain ⟨hwork, rfl⟩ := timerStep_report hu
      exact .ldReport hloc hwork
    · rename_i hwait
      split at h
      · cases h
      · rename_i hdone
        obtain ⟨u, hu, rfl⟩ := Option.map_eq_some_iff.mp h
        obtain rfl := timerStep_poll (by simpa using hdone) hu
        exact .ldPass hloc hwait (by simpa using hdone)
    · cases h
  · rename_i hloc
    obtain ⟨u, hu, rfl⟩ := Option.map_eq_some_iff.mp h
    obtain ⟨hwork, rfl⟩ := timerStep_detach hu
    exact .ldLeave hloc hwork
  · cases h

theorem simStep_cases {th : ThreadId} (h : simStep c s th = some t) : SimMove c s th t := by
  cases th with
  | cpu i =>
      simp only [simStep] at h
      split at h
      · rename_i hi
        exact cpuRoutine_cases hi h
      · cases h
  | loader => exact ldRoutine_cases h
  | timer =>
      simp only [simStep, timerRoutine] at h
      split at h
      · cases h
      · rename_i hawake
        obtain ⟨ev, hev, hmap⟩ := Option.bind_eq_some_iff.mp h
        obtain ⟨u, hu, rfl⟩ := Option.map_eq_some_iff.mp hmap
        exact .timer (by simpa using hawake) hev hu
  | main =>
      simp only [simStep, mainRoutine] at h
      split at h
      · rename_i hloc
        split at h
        · rename_i hleft
          cases h
          exact .join hloc hleft
        · cases h
      · rename_i hloc
        cases h
        exact .stop hloc
      · rename_i hloc
        split at h
        · rename_i hexit
          cases h
          exact .finish hloc hexit
        · cases h
      · cases h

/-! ### The threads between the slots -/

/-- The program without the flags and without `main`. -/
def Simulator.slots (s : Simulator) : SlotOs := ⟨s.os, s.timer.threads, s.ldLoc⟩

theorem threads_setDev (s : TimerT) (i : Nat) (d : Device) :
    (s.setDev i d).threads = Function.update s.threads i d.thread := by
  funext j
  rcases eq_or_ne j i with rfl | hji
  · simp [TimerT.threads, TimerT.setDev]
  · simp [TimerT.threads, TimerT.setDev, Function.update_of_ne hji]

@[simp] theorem threads_reported (s : TimerT) (i : Nat) :
    (s.reported i).threads = Function.update s.threads i (s.threads i).report :=
  threads_setDev ..

@[simp] theorem threads_passed (s : TimerT) (i : Nat) :
    (s.passed i).threads = Function.update s.threads i (s.threads i).pass :=
  threads_setDev ..

@[simp] theorem threads_detached (s : TimerT) (i : Nat) :
    (s.detached i).threads = Function.update s.threads i (s.threads i).leave :=
  threads_setDev ..

/-- A step of the timer changes no thread, and the time only if it ticks. -/
theorem timerStep_event {s t : TimerT} {ev : TimerEvent} (hev : s.loc.event = some ev)
    (h : timerStep s ev = some t) : t.threads = s.threads ∧ t.timerStop = s.timerStop ∧
      t.time = s.time + if ev = .tick then 1 else 0 := by
  cases timerStep_cases h with
  | enter | check | compare | wait | tick => exact ⟨rfl, rfl, rfl⟩
  | @clear i =>
      refine ⟨?_, rfl, rfl⟩
      change (s.setDev i _).threads = _
      rw [threads_setDev]
      exact Function.update_eq_self i s.threads
  | report | blocked | pass | detach | stop =>
      cases hl : s.loc with
      | scan rest | clear rest => cases rest <;> rw [hl] at hev <;> cases hev
      | head | exited =>
          rw [hl] at hev
          cases hev

/-- The devices that are left of the loop the timer is in. -/
def TimerLoc.rest : TimerLoc → List Nat
  | .scan rest _ _ | .clear rest _ _ => rest
  | .head | .exited => []

theorem rest_suffix_step {s t : TimerT} {ev : TimerEvent} (h : s.loc.rest <:+ s.devList)
    (hstep : timerStep s ev = some t) : t.loc.rest <:+ t.devList := by
  cases timerStep_cases hstep with
  | enter hloc =>
      cases hstop : s.timerStop with
      | true => exact List.nil_suffix
      | false => exact List.suffix_refl _
  | check hloc | clear hloc =>
      rw [hloc] at h
      exact (List.suffix_cons ..).trans h
  | tick hloc => exact List.suffix_refl _
  | @compare fsh event hloc =>
      change TimerLoc.rest (if fsh = event then .exited else .head) <:+ _
      split <;> exact List.nil_suffix
  | wait | blocked | report | pass | detach | stop => exact h

/-- What holds of the flags and of `main`: the threads that `main` has
joined are detached, and only `main` stops the timer. -/
structure SimInv (c : Config) (s : Simulator) : Prop where
  time : s.os.time = s.timer.time
  timer : ∃ evs, TimerInv (c.numCpus + 1) evs s.timer
  rest : s.timer.loc.rest <:+ s.timer.devList
  joined : ∀ i ≤ c.numCpus, (∀ j ≤ i, s.mainLoc ≠ .join j) → (s.timer.threads i).phase = .left
  joins : ∀ i, s.mainLoc = .join i → i ≤ c.numCpus
  stopped : s.timer.timerStop = true → ∀ i, s.mainLoc ≠ .join i
  returned : s.mainLoc = .returned → s.timer.loc = .exited

theorem TimerInv.mem_devList {n : Nat} {evs : List TimerEvent} {s : TimerT}
    (h : TimerInv n evs s) : i ∈ s.devList ↔ i < n := by
  rw [h.devs, List.mem_reverse, List.mem_range]

namespace SimInv

theorem start (c : Config) : SimInv c (startSimulator c) where
  time := by
    rw [startSimulator, attached_eq]
    rfl
  timer := ⟨[], .attached _⟩
  rest := by
    rw [startSimulator, attached_eq]
    exact List.nil_suffix
  joined i _ h := absurd rfl (h 0 (Nat.zero_le i))
  joins i h := by
    cases h
    exact Nat.zero_le _
  stopped h := by
    rw [startSimulator, attached_eq] at h
    cases h
  returned h := by cases h

/-- A thread other than `main` takes a step at its own device. -/
theorem device (h : SimInv c s) {u : OsT} {tm : TimerT} {loc : LdLoc} {execs : ProcId → Nat}
    {ev : TimerEvent} {x : Party} (hstep : timerStep s.timer ev = some tm)
    (htime : u.time = s.os.time) (htm : tm.time = s.timer.time)
    (hthreads : tm.threads = Function.update s.timer.threads i x)
    (hleft : (s.timer.threads i).phase ≠ .left) (hstop : tm.timerStop = s.timer.timerStop)
    (hloc : tm.loc = s.timer.loc) :
    SimInv c ⟨u, tm, loc, s.mainLoc, execs⟩ := by
  obtain ⟨evs, hinv⟩ := h.timer
  refine ⟨?_, ⟨_, hinv.step hstep⟩, rest_suffix_step h.rest hstep, fun j hj hpast => ?_, h.joins,
    fun hs => ?_, fun hret => ?_⟩
  · rw [htime, htm]
    exact h.time
  · have hphase := h.joined j hj hpast
    rw [hthreads, Function.update_of_ne]
    · exact hphase
    · rintro rfl
      exact hleft hphase
  · rw [hstop] at hs
    exact h.stopped hs
  · rw [hloc]
    exact h.returned hret

theorem report (h : SimInv c s) (hi : i ≤ c.numCpus)
    (hwork : (s.timer.threads i).phase = .working) :
    SimInv c { s with timer := s.timer.reported i } := by
  obtain ⟨evs, hinv⟩ := h.timer
  have hstep : timerStep s.timer (.report i) = some (s.timer.reported i) :=
    if_pos ⟨hinv.mem_devList.mpr (Nat.lt_succ_of_le hi), hwork⟩
  exact h.device hstep rfl rfl (threads_reported ..) (by rw [hwork]; decide) rfl rfl

theorem pass (h : SimInv c s) {u : OsT} {loc : LdLoc} (hi : i ≤ c.numCpus)
    (hwait : (s.timer.threads i).phase = .waiting) (hdone : (s.timer.dev i).done = false)
    (htime : u.time = s.os.time) :
    SimInv c { s with os := u, timer := s.timer.passed i, ldLoc := loc } := by
  obtain ⟨evs, hinv⟩ := h.timer
  have hstep : timerStep s.timer (.poll i) = some (s.timer.passed i) := by
    simp only [timerStep]
    rw [if_pos ⟨hinv.mem_devList.mpr (Nat.lt_succ_of_le hi), hwait⟩, if_neg (by simp [hdone])]
    rfl
  exact h.device hstep htime rfl (threads_passed ..) (by rw [hwait]; decide) rfl rfl

theorem leave (h : SimInv c s) {loc : LdLoc} (hi : i ≤ c.numCpus)
    (hwork : (s.timer.threads i).phase = .working) :
    SimInv c { s with timer := s.timer.detached i, ldLoc := loc } := by
  obtain ⟨evs, hinv⟩ := h.timer
  have hstep : timerStep s.timer (.detach i) = some (s.timer.detached i) :=
    if_pos ⟨hinv.mem_devList.mpr (Nat.lt_succ_of_le hi), hwork⟩
  exact h.device hstep rfl rfl (threads_detached ..) (by rw [hwork]; decide) rfl rfl

/-- A step away from the devices. -/
theorem frame (h : SimInv c s) {u : OsT} {loc : LdLoc} {execs : ProcId → Nat}
    (htime : u.time = s.os.time) : SimInv c ⟨u, s.timer, loc, s.mainLoc, execs⟩ :=
  ⟨htime.trans h.time, h.timer, h.rest, h.joined, h.joins, h.stopped, h.returned⟩

end SimInv

theorem cpuStep_time {s t : OsT} (h : cpuStep c s i = some t) : t.time = s.time := by
  have hrun (p : ProcId) : (run c s p).time = s.time := by
    unfold run
    split <;> rfl
  cases cpuStep_cases h with
  | exec p => exact hrun p
  | loadFailed | load | finish | requeue | keep | reload | stop | skip | slot => rfl

theorem SimInv.step (h : SimInv c s) {th : ThreadId} (hstep : simStep c s th = some t) :
    SimInv c t := by
  cases simStep_cases hstep with
  | report hi hloc hwork => exact h.report (Nat.le_of_lt hi) hwork
  | pass hi hloc hwait hdone hcpu =>
      exact h.pass (Nat.le_of_lt hi) hwait hdone (cpuStep_time hcpu)
  | leave hi hloc hwork => exact h.leave (Nat.le_of_lt hi) hwork
  | cpu hi hslot hcpu => exact h.frame (cpuStep_time hcpu)
  | wait | add | setDone => exact h.frame rfl
  | ldReport hloc hwork => exact h.report (Nat.le_refl _) hwork
  | ldPass hloc hwait hdone => exact h.pass (Nat.le_refl _) hwait hdone rfl
  | ldLeave hloc hwork => exact h.leave (Nat.le_refl _) hwork
  | @timer ev tm hawake hev htm =>
      obtain ⟨evs, hinv⟩ := h.timer
      obtain ⟨hthreads, hstop, -⟩ := timerStep_event hev htm
      refine ⟨rfl, ⟨_, hinv.step htm⟩, rest_suffix_step h.rest htm, fun i hi hpast => ?_, h.joins,
        fun hs => ?_, fun hret => ?_⟩
      · rw [hthreads]
        exact h.joined i hi hpast
      · rw [hstop] at hs
        exact h.stopped hs
      · rw [h.returned hret] at hev
        cases hev
  | @join i hloc hleft =>
      have hi := h.joins i hloc
      refine ⟨h.time, h.timer, h.rest, fun j hj hpast => ?_, fun j hj => ?_, fun hs => ?_,
        fun hret => ?_⟩
      · rcases Nat.lt_or_ge j i with hji | hij
        · refine h.joined j hj fun k hk heq => ?_
          rw [hloc] at heq
          cases heq
          omega
        · rcases Nat.eq_or_lt_of_le hij with rfl | hlt
          · exact hleft
          · refine absurd ?_ (hpast (i + 1) hlt)
            exact if_pos (Nat.lt_of_lt_of_le hlt hj)
      · split at hj
        · cases hj
          omega
        · cases hj
      · exact absurd hloc (h.stopped hs i)
      · split at hret <;> cases hret
  | stop hloc =>
      obtain ⟨evs, hinv⟩ := h.timer
      have hstop : timerStep s.timer .stop = some { s.timer with timerStop := true } := rfl
      refine ⟨h.time, ⟨_, hinv.step hstop⟩, h.rest, fun i hi _ => ?_,
        fun j hj => (by cases hj), fun _ j hj => (by cases hj), fun hret => (by cases hret)⟩
      refine h.joined i hi fun j _ hj => ?_
      rw [hloc] at hj
      cases hj
  | finish hloc hexit =>
      refine ⟨h.time, h.timer, h.rest, fun i hi _ => ?_, fun j hj => (by cases hj),
        fun _ j hj => (by cases hj), fun _ => hexit⟩
      refine h.joined i hi fun j _ hj => ?_
      rw [hloc] at hj
      cases hj

theorem SimInv.of_run {ths : List ThreadId}
    (hrun : Run (Step (simStep c)) (startSimulator c) ths s) : SimInv c s :=
  hrun.invariant (fun _ _ _ hs hstep => hs.step hstep) (.start c)

/-! ### The flags are a barrier -/

/-- The same thread between the slots. The timer is only seen when it ticks,
and `main` not at all. -/
def ThreadId.turn : ThreadId → Option Turn
  | .cpu i => some (.cpu i)
  | .loader => some .loader
  | .timer | .main => none

/-- A thread that finds its flag cleared may pass the barrier. -/
theorem SimInv.mayPass (h : SimInv c s) (hi : i ≤ c.numCpus)
    (hwait : (s.timer.threads i).phase = .waiting) (hdone : (s.timer.dev i).done = false) :
    MayPass (threads c) s.timer.threads i := by
  obtain ⟨evs, hinv⟩ := h.timer
  intro j hj
  exact hinv.mayPass (hinv.mem_devList.mpr (Nat.lt_succ_of_le hi)) hwait hdone j
    (hinv.mem_devList.mpr (Nat.lt_succ_of_le (mem_threads.mp hj)))

theorem cpuSlotStep_inner {s : SlotOs} {u : OsT} (hslot : (s.os.cpu i).loc ≠ .nextSlot)
    (hstep : cpuStep c s.os i = some u) : cpuSlotStep c s i = some { s with os := u } := by
  simp only [cpuSlotStep]
  split
  · rename_i hloc _
    exact absurd hloc hslot
  · rename_i hloc _
    exact absurd hloc hslot
  · rename_i hloc _
    exact absurd hloc hslot
  · rename_i hloc _
    rw [cpuStep, hloc] at hstep
    cases hstep
  · rename_i hloc _
    rw [cpuStep, hloc] at hstep
    cases hstep
  · rw [hstep]
    rfl

/-- A step of the program is the same step between the slots, or none; a
tick is the step of the timer there. -/
theorem SimInv.slotStep (h : SimInv c s) {th : ThreadId} (hstep : simStep c s th = some t) :
    (∃ turn ≠ .timer, th.turn = some turn ∧ slotStep c s.slots turn = some t.slots ∧
        t.timer.time = s.timer.time) ∨
      th.turn = none ∧ (t.slots = s.slots ∧ t.timer.time = s.timer.time ∨
        Sched.slotStep c s.slots .timer = some t.slots ∧ t.timer.time = s.timer.time + 1) := by
  cases simStep_cases hstep with
  | @report i hi hloc hwork =>
      refine .inl ⟨.cpu i, by simp, rfl, ?_, rfl⟩
      simp [Sched.slotStep, cpuSlotStep, Simulator.slots, hi, hloc, hwork, SlotOs.setThread]
  | @pass i u hi hloc hwait hdone hcpu =>
      refine .inl ⟨.cpu i, by simp, rfl, ?_, rfl⟩
      have hpass := h.mayPass (Nat.le_of_lt hi) hwait hdone
      simp [Sched.slotStep, cpuSlotStep, Simulator.slots, hi, hloc, hwait, hpass, hcpu,
        SlotOs.setThread]
  | @leave i hi hloc hwork =>
      refine .inl ⟨.cpu i, by simp, rfl, ?_, rfl⟩
      simp [Sched.slotStep, cpuSlotStep, Simulator.slots, hi, hloc, hwork, SlotOs.setThread]
  | @cpu i u hi hslot hcpu =>
      refine .inl ⟨.cpu i, by simp, rfl, ?_, rfl⟩
      rw [Sched.slotStep, if_pos hi]
      exact cpuSlotStep_inner hslot hcpu
  | wait hloc hnext htime =>
      refine .inl ⟨.loader, by simp, rfl, ?_, rfl⟩
      simp [Sched.slotStep, ldSlotStep, ldStep, Simulator.slots, hloc, hnext, htime]
  | add hloc hnext htime hadd =>
      refine .inl ⟨.loader, by simp, rfl, ?_, rfl⟩
      simp [Sched.slotStep, ldSlotStep, ldStep, Simulator.slots, hloc, hnext,
        Nat.not_lt.mpr htime, hadd]
  | setDone hloc hnext hdone =>
      refine .inl ⟨.loader, by simp, rfl, ?_, rfl⟩
      simp [Sched.slotStep, ldSlotStep, ldStep, Simulator.slots, hloc, Nat.not_lt.mpr hnext, hdone]
  | ldReport hloc hwork =>
      refine .inl ⟨.loader, by simp, rfl, ?_, rfl⟩
      simp [Sched.slotStep, ldSlotStep, Simulator.slots, hloc, hwork, SlotOs.setThread]
  | ldPass hloc hwait hdone =>
      refine .inl ⟨.loader, by simp, rfl, ?_, rfl⟩
      have hpass := h.mayPass (Nat.le_refl _) hwait hdone
      simp [Sched.slotStep, ldSlotStep, Simulator.slots, hloc, hwait, hpass, SlotOs.setThread]
  | ldLeave hloc hwork =>
      refine .inl ⟨.loader, by simp, rfl, ?_, rfl⟩
      simp [Sched.slotStep, ldSlotStep, Simulator.slots, hloc, SlotOs.setThread]
  | @timer ev tm hawake hev htm =>
      obtain ⟨hthreads, -, htime⟩ := timerStep_event hev htm
      refine .inr ⟨rfl, ?_⟩
      split at htime
      · refine .inr ⟨?_, htime⟩
        simp only [Sched.slotStep, Simulator.slots, hthreads, htime, h.time]
      · refine .inl ⟨?_, htime⟩
        simp only [Simulator.slots, hthreads, htime, Nat.add_zero, ← h.time]
  | join | stop | finish => exact .inr ⟨rfl, .inl ⟨rfl, rfl⟩⟩

/-- In every order of the steps of `main`, of the CPUs, of the loader and of
the timer, the threads do what they do between the slots of a barrier: the
same steps of the same threads in the same order, and as many steps of the
clock as the timer has ticked. -/
theorem refines_slots {ths : List ThreadId}
    (hrun : Run (Step (simStep c)) (startSimulator c) ths s) :
    ∃ turns, Run (Step (slotStep c)) initSlotOs turns s.slots ∧
      turns.filter (· ≠ .timer) = ths.filterMap ThreadId.turn ∧
      turns.count .timer = s.timer.time := by
  suffices h : SimInv c s ∧ ∃ turns, Run (Step (slotStep c)) initSlotOs turns s.slots ∧
      turns.filter (· ≠ .timer) = ths.filterMap ThreadId.turn ∧
      turns.count .timer = s.timer.time from h.2
  refine hrun.history (I := fun ths s => SimInv c s ∧
    ∃ turns, Run (Step (slotStep c)) initSlotOs turns s.slots ∧
      turns.filter (· ≠ .timer) = ths.filterMap ThreadId.turn ∧
      turns.count .timer = s.timer.time) (fun ths s th t hs hstep => ?_) ⟨.start c, [], ?_, rfl, ?_⟩
  · obtain ⟨hinv, turns, hturns, hsame, hcount⟩ := hs
    refine ⟨hinv.step hstep, ?_⟩
    rcases hinv.slotStep hstep with ⟨turn, hne, hturn, hslot, htime⟩ | ⟨hturn, hslots | hslots⟩
    · refine ⟨turns ++ [turn], hturns.snoc hslot, ?_, ?_⟩
      · simpa [hturn, hne] using hsame
      · rw [List.count_append, List.count_singleton, htime, hcount]
        simp [hne]
    · refine ⟨turns, hslots.1 ▸ hturns, ?_, by rw [hslots.2, hcount]⟩
      simpa [hturn] using hsame
    · have hR : Step (slotStep c) s.slots .timer t.slots := hslots.1
      refine ⟨turns ++ [.timer], hturns.snoc hR, ?_, ?_⟩
      · simpa [hturn] using hsame
      · rw [List.count_append, hslots.2, hcount]
        rfl
  · rw [startSimulator, attached_eq]
    exact .nil _
  · rw [startSimulator, attached_eq]
    rfl

theorem ShutdownInv.simStep (h : ShutdownInv c s.slots) (hcpus : 0 < c.numCpus) (hsim : SimInv c s)
    {th : ThreadId} (hstep : simStep c s th = some t) : ShutdownInv c t.slots := by
  rcases hsim.slotStep hstep with ⟨turn, -, -, hslot, -⟩ | ⟨-, hslots | hslots⟩
  · exact h.step hcpus hslot
  · rw [hslots.1]
    exact h
  · exact h.step hcpus hslots.1

theorem ShutdownInv.start (c : Config) : ShutdownInv c (startSimulator c).slots := by
  rw [startSimulator, attached_eq]
  exact .boot c

/-- Three slots with one CPU: it runs the process in slot 0 and finishes it in
slot 1, the timer finds everybody detached in slot 2, and `main` returns. -/
def toTheEnd : List ThreadId :=
  List.flatten [[.loader, .loader, .cpu 0, .cpu 0, .cpu 0], List.replicate 5 .timer,
    [.loader, .loader, .loader, .timer], List.replicate 5 (.cpu 0), List.replicate 8 .timer,
    List.replicate 4 .main]

theorem toTheEnd_returns : (exec (simStep (oneProcess 1)) (startSimulator (oneProcess 1))
    toTheEnd).any (fun s => s.mainLoc = .returned ∧ s.timer.time = 2) = true := by
  decide +kernel

theorem refines_slots_toTheEnd : ∃ s turns,
    Run (Step (simStep (oneProcess 1))) (startSimulator (oneProcess 1)) toTheEnd s ∧
      s.mainLoc = .returned ∧ Run (Step (slotStep (oneProcess 1))) initSlotOs turns s.slots ∧
      turns.count .timer = 2 := by
  obtain ⟨s, hs, hend⟩ := (Option.any_eq_true _ _).mp toTheEnd_returns
  obtain ⟨hret, htime⟩ := of_decide_eq_true hend
  have hrun := run_of_exec hs
  obtain ⟨turns, hturns, -, hcount⟩ := refines_slots hrun
  exact ⟨s, turns, hrun, hret, hturns, hcount.trans htime⟩

/-! ### No deadlock -/

/-- How the phases of the threads go with their control. -/
structure PhaseInv (c : Config) (s : Simulator) : Prop where
  acc : Accounted c s.os
  cpu : ∀ i < c.numCpus, (s.timer.threads i).phase = .waiting → (s.os.cpu i).loc = .nextSlot
  ld : (s.timer.threads c.numCpus).phase = .waiting → s.ldLoc = .nextSlot
  gone : s.ldLoc = .gone ↔ (s.timer.threads c.numCpus).phase = .left
  done : s.os.done = true → s.ldLoc = .detach ∨ s.ldLoc = .gone

namespace PhaseInv

theorem start (c : Config) : PhaseInv c (startSimulator c) := by
  rw [startSimulator, attached_eq]
  refine ⟨accounted_init c, fun i _ h => (by cases h), fun h => (by cases h), ?_,
    fun h => by cases h⟩
  simp [initTimer, newDevice, TimerT.threads]

/-- A CPU takes a step, at its device or away from it. -/
theorem cpuThread (h : PhaseInv c s) {u : OsT} {tm : TimerT} {x : Party} {execs : ProcId → Nat}
    (hi : i < c.numCpus) (hacc : Accounted c u) (hdone : u.done = s.os.done)
    (hother : ∀ j ≠ i, u.cpu j = s.os.cpu j)
    (hthreads : tm.threads = Function.update s.timer.threads i x)
    (hphase : x.phase = .waiting → (u.cpu i).loc = .nextSlot) :
    PhaseInv c ⟨u, tm, s.ldLoc, s.mainLoc, execs⟩ := by
  have hne : c.numCpus ≠ i := (Nat.ne_of_lt hi).symm
  refine ⟨hacc, fun j hj => ?_, ?_, ?_, fun hd => h.done (hdone ▸ hd)⟩
  · rcases eq_or_ne j i with rfl | hji
    · rw [hthreads, Function.update_self]
      exact hphase
    · rw [hthreads, Function.update_of_ne hji, hother j hji]
      exact h.cpu j hj
  · rw [hthreads, Function.update_of_ne hne]
    exact h.ld
  · rw [hthreads, Function.update_of_ne hne]
    exact h.gone

/-- The loader takes a step. -/
theorem ldThread (h : PhaseInv c s) {u : OsT} {tm : TimerT} {x : Party} {loc : LdLoc}
    (hacc : Accounted c u) (hcpu : u.cpu = s.os.cpu)
    (hthreads : tm.threads = Function.update s.timer.threads c.numCpus x)
    (hphase : x.phase = .waiting → loc = .nextSlot) (hgone : loc = .gone ↔ x.phase = .left)
    (hdone : u.done = true → loc = .detach ∨ loc = .gone) :
    PhaseInv c ⟨u, tm, loc, s.mainLoc, s.execs⟩ := by
  refine ⟨hacc, fun j hj => ?_, ?_, ?_, hdone⟩
  · rw [hthreads, Function.update_of_ne (Nat.ne_of_lt hj), hcpu]
    exact h.cpu j hj
  · rw [hthreads, Function.update_self]
    exact hphase
  · rw [hthreads, Function.update_self]
    exact hgone

theorem step (h : PhaseInv c s) {th : ThreadId} (hstep : simStep c s th = some t) :
    PhaseInv c t := by
  have hsame (i : Nat) : s.timer.threads =
      Function.update s.timer.threads i (s.timer.threads i) :=
    (Function.update_eq_self i _).symm
  cases simStep_cases hstep with
  | report hi hloc hwork =>
      exact h.cpuThread hi h.acc rfl (fun _ _ => rfl) (threads_reported ..) fun _ => hloc
  | pass hi hloc hwait hdone hcpu =>
      exact h.cpuThread hi (h.acc.cpuStep hi hcpu) (cpuStep_loader hcpu).1
        (fun j hj => cpuStep_other hcpu hj) (threads_passed ..) fun hfalse => by cases hfalse
  | leave hi hloc hwork =>
      exact h.cpuThread hi h.acc rfl (fun _ _ => rfl) (threads_detached ..)
        fun hfalse => by cases hfalse
  | cpu hi hslot hcpu =>
      exact h.cpuThread hi (h.acc.cpuStep hi hcpu) (cpuStep_loader hcpu).1
        (fun j hj => cpuStep_other hcpu hj) (hsame _)
        fun hwait => absurd (h.cpu _ hi hwait) hslot
  | wait hloc hnext htime =>
      refine h.ldThread h.acc rfl (hsame _) (fun _ => rfl) (by rw [← h.gone, hloc]; simp)
        fun hd => ?_
      have hload := h.done hd
      rw [hloc] at hload
      simp at hload
  | add hloc hnext htime hadd =>
      refine h.ldThread (h.acc.add hadd) rfl (hsame _) (fun _ => rfl)
        (by rw [← h.gone, hloc]; simp) fun hd => ?_
      have hload := h.done hd
      rw [hloc] at hload
      simp at hload
  | setDone hloc hnext hdone =>
      have hacc := h.acc
      refine h.ldThread
        ⟨hacc.running, hacc.owned, hacc.prio, hacc.prioLt, hacc.bounded, hacc.finished⟩ rfl
        (hsame _) (fun hwait => ?_) (by rw [← h.gone, hloc]; simp) fun _ => .inl rfl
      have hslot := h.ld hwait
      rw [hloc] at hslot
      cases hslot
  | ldReport hloc hwork =>
      exact h.ldThread h.acc rfl (threads_reported ..) (fun _ => hloc)
        (by simp [hloc, Party.report]) h.done
  | ldPass hloc hwait hdone =>
      refine h.ldThread h.acc rfl (threads_passed ..) (fun hfalse => (by cases hfalse))
        (by simp [Party.pass]) fun hd => ?_
      have hslot := h.done hd
      rw [hloc] at hslot
      simp at hslot
  | ldLeave hloc hwork =>
      exact h.ldThread h.acc rfl (threads_detached ..) (fun hfalse => (by cases hfalse))
        (by simp [Party.leave]) fun _ => .inr rfl
  | timer hawake hev htm =>
      obtain ⟨hthreads, -⟩ := timerStep_event hev htm
      have hacc := h.acc
      refine ⟨⟨hacc.running, hacc.owned, hacc.prio, hacc.prioLt, hacc.bounded, hacc.finished⟩,
        ?_, ?_, ?_, h.done⟩
      · rw [hthreads]
        exact h.cpu
      · rw [hthreads]
        exact h.ld
      · rw [hthreads]
        exact h.gone
  | join | stop | finish => exact ⟨h.acc, h.cpu, h.ld, h.gone, h.done⟩

theorem of_run {ths : List ThreadId} (hrun : Run (Step (simStep c)) (startSimulator c) ths s) :
    PhaseInv c s :=
  hrun.invariant (fun _ _ _ hs hstep => hs.step hstep) (.start c)

end PhaseInv

/-- `add_proc` is about to end the program: the priority is out of range or
a queue is full. -/
def ExitsNext (c : Config) (s : Simulator) : Prop :=
  s.ldLoc = .load ∧ s.os.ldNext < c.numProcesses ∧ c.startTime s.os.ldNext ≤ s.os.time ∧
    addMlqProc c.prio s.os.sched s.os.ldNext = none

/-- A list of living processes without repetition is not longer than the
number of processes loaded so far. -/
theorem length_le_ldNext {s : OsT} {l : List ProcId}
    (h : ∀ x, l.count x ≤ if s.Live x then 1 else 0) : l.length ≤ s.ldNext := by
  have hnodup : l.Nodup := by
    rw [List.nodup_iff_count_le_one]
    intro x
    exact Nat.le_trans (h x) (by split <;> omega)
  have hsub : l ⊆ List.range s.ldNext := by
    intro x hx
    have hlive : s.Live x := by
      by_contra hnot
      have hcount := h x
      rw [if_neg hnot] at hcount
      exact absurd (List.count_pos_iff.mpr hx) (by omega)
    exact List.mem_range.mpr hlive.1
  calc l.length ≤ (List.range s.ldNext).length := (hnodup.subperm hsub).length_le
    _ = s.ldNext := List.length_range

/-- While fewer processes are loaded than a queue can hold, only the priority
decides. -/
theorem Accounted.addMlqProc_isSome {s : OsT} (h : Accounted c s) {p : ProcId}
    (hprio : c.prio p < maxPrio) (hroom : s.ldNext < maxQueueSize) :
    (addMlqProc c.prio s.sched p).isSome := by
  have hready : (s.sched.ready (c.prio p)).length ≤ s.ldNext := by
    refine length_le_ldNext fun x => ?_
    rw [← h.owned x]
    refine Nat.le_trans ?_ (Nat.le_add_right ..)
    exact Finset.single_le_sum (f := fun q => (s.sched.ready q).count x) (fun _ _ => Nat.zero_le _)
      (Finset.mem_range.mpr hprio)
  have hrunning : s.sched.running.length ≤ s.ldNext :=
    length_le_ldNext fun x => Nat.le_of_eq (h.running x)
  obtain ⟨q, hq⟩ := Option.isSome_iff_exists.mp ((QueueT.enqueue_isSome_iff (s.sched.mlqReadyQueue
    (c.prio p)) p).mpr (Nat.lt_of_le_of_lt hready hroom))
  obtain ⟨r, hr⟩ := Option.isSome_iff_exists.mp
    ((QueueT.enqueue_isSome_iff s.sched.runningList p).mpr
    (Nat.lt_of_le_of_lt hrunning hroom))
  simp [addMlqProc, putMlqProc, hprio, hq, hr]

theorem PhaseInv.not_exitsNext (h : PhaseInv c s) (hprio : ∀ k < c.numProcesses, c.prio k < maxPrio)
    (hfew : c.numProcesses ≤ maxQueueSize) : ¬ExitsNext c s := by
  rintro ⟨-, hlt, -, hnone⟩
  have hsome := h.acc.addMlqProc_isSome (hprio _ hlt) (Nat.lt_of_lt_of_le hlt hfew)
  rw [hnone] at hsome
  cases hsome

theorem Accounted.cpuStep_isSome {s : OsT} (h : Accounted c s) (hi : i < c.numCpus)
    (hloc : (s.cpu i).loc ≠ .stopped) : (Sched.cpuStep c s i).isSome := by
  cases hl : (s.cpu i).loc with
  | head =>
      cases hproc : (s.cpu i).proc with
      | none => simp [Sched.cpuStep, hl, hproc]
      | some p =>
          have hput := h.put_isSome hi (x := p) (by simp [Cpu.held, hl, hproc])
          simp only [Sched.cpuStep, hl, hproc]
          split
          · rfl
          · split
            · rw [Option.isSome_map]
              exact hput
            · rfl
  | reload | nextSlot => simp [Sched.cpuStep, hl]
  | recheck => cases hproc : (s.cpu i).proc <;> simp [Sched.cpuStep, hl, hproc]
  | stopped => exact absurd hl hloc

section Enabled

variable (hsim : SimInv c s) (h : PhaseInv c s)

include hsim in
theorem mem_devices (hi : i ≤ c.numCpus) : i ∈ s.timer.devList := by
  obtain ⟨evs, hinv⟩ := hsim.timer
  exact hinv.mem_devList.mpr (Nat.lt_succ_of_le hi)

include hsim h in
/-- A CPU that is neither asleep nor gone has a step. -/
theorem cpuRoutine_isSome (hi : i < c.numCpus) (hleft : (s.timer.threads i).phase ≠ .left)
    (hdone : (s.timer.dev i).done = false) : (cpuRoutine c s i).isSome := by
  have hmem := mem_devices hsim (Nat.le_of_lt hi)
  have hcpu := h.acc.cpuStep_isSome hi
  cases hphase : (s.timer.threads i).phase with
  | left => exact absurd hphase hleft
  | waiting =>
      have hloc := h.cpu i hi hphase
      simp only [cpuRoutine, hloc, hphase, hdone, timerStep, hmem, true_and, if_true,
        Bool.false_eq_true, if_false, Option.bind_some, Option.isSome_map]
      exact hcpu (by rw [hloc]; decide)
  | working =>
      cases hloc : (s.os.cpu i).loc with
      | nextSlot | stopped => simp [cpuRoutine, hloc, hphase, timerStep, hmem]
      | head | reload | recheck =>
          simp only [cpuRoutine, hloc, hphase, Option.isSome_map]
          exact hcpu (by rw [hloc]; decide)

include hsim h in
/-- The same for the loader, but for the processes that cannot be added. -/
theorem ldRoutine_isSome (hleft : (s.timer.threads c.numCpus).phase ≠ .left)
    (hdone : (s.timer.dev c.numCpus).done = false) :
    (ldRoutine c s).isSome ∨ ExitsNext c s := by
  have hmem := mem_devices hsim (Nat.le_refl _)
  cases hloc : s.ldLoc with
  | load =>
      have hflag : s.os.done = false := by
        by_contra hd
        have hload := h.done (by simpa using hd)
        rw [hloc] at hload
        simp at hload
      simp only [ldRoutine, hloc, ldStep, Option.isSome_map]
      split
      · rename_i hnext
        split
        · exact .inl rfl
        · rename_i htime
          rw [Option.isSome_map]
          cases hadd : addMlqProc c.prio s.os.sched s.os.ldNext with
          | none => exact .inr ⟨hloc, hnext, Nat.not_lt.mp htime, hadd⟩
          | some u => exact .inl rfl
      · rw [if_neg (by simp [hflag])]
        exact .inl rfl
  | nextSlot =>
      left
      cases hphase : (s.timer.threads c.numCpus).phase with
      | left => exact absurd hphase hleft
      | working => simp [ldRoutine, hloc, hphase, timerStep, hmem]
      | waiting => simp [ldRoutine, hloc, hphase, hdone, timerStep, hmem]
  | detach =>
      left
      have hwork : (s.timer.threads c.numCpus).phase = .working := by
        cases hphase : (s.timer.threads c.numCpus).phase with
        | working => rfl
        | left => exact absurd hphase hleft
        | waiting =>
            have hslot := h.ld hphase
            rw [hloc] at hslot
            cases hslot
      simp [ldRoutine, hloc, timerStep, hmem, hwork]
  | gone => exact absurd (h.gone.mp hloc) hleft

include hsim in
/-- The timer sleeps only on a device whose thread is not gone and whose
flag is cleared. -/
theorem asleep_cases (hsleep : s.timer.asleep = true) :
    ∃ i ≤ c.numCpus, (s.timer.threads i).phase ≠ .left ∧ (s.timer.dev i).done = false := by
  obtain ⟨evs, hinv⟩ := hsim.timer
  rw [TimerT.asleep] at hsleep
  split at hsleep
  · rename_i i rest fsh event hloc
    simp only [Bool.and_eq_true, Bool.not_eq_true'] at hsleep
    have hrest := hsim.rest
    rw [hloc] at hrest
    have hscan : i ∈ s.timer.devList := hrest.subset (List.mem_cons_self ..)
    refine ⟨i, Nat.lt_succ_iff.mp (hinv.mem_devList.mp hscan), fun hleft => ?_, hsleep.1⟩
    have hfsh := (hinv.device i hscan).fsh.mpr hleft
    rw [hsleep.2] at hfsh
    cases hfsh
  · cases hsleep

theorem timerRoutine_isSome (hawake : s.timer.asleep = false) (hloc : s.timer.loc ≠ .exited) :
    (timerRoutine s).isSome := by
  rw [timerRoutine, if_neg (by simp [hawake])]
  cases hl : s.timer.loc with
  | head => simp [TimerLoc.event, timerStep, hl]
  | scan rest fsh event =>
      cases rest with
      | nil => simp [TimerLoc.event, timerStep, hl]
      | cons i rest =>
          simp only [TimerLoc.event, timerStep, hl, Option.bind_some, Option.isSome_map]
          simp only [ne_eq, not_true_eq_false, if_false]
          split <;> rfl
  | clear rest fsh event => cases rest <;> simp [TimerLoc.event, timerStep, hl]
  | exited => exact absurd hl hloc

include hsim in
/-- Once the timer has ended `main` does not sleep. -/
theorem mainRoutine_isSome (hexit : s.timer.loc = .exited) (hret : s.mainLoc ≠ .returned) :
    (mainRoutine c s).isSome := by
  obtain ⟨evs, hinv⟩ := hsim.timer
  cases hl : s.mainLoc with
  | join i =>
      have hleft : (s.timer.threads i).phase = .left := by
        have hloc := hinv.loc
        rw [LocOk, hexit] at hloc
        rcases hloc with hstop | hall
        · exact absurd hl (hsim.stopped hstop i)
        · exact hall i (mem_devices hsim (hsim.joins i hl))
      simp [mainRoutine, hl, hleft]
  | stopTimer => simp [mainRoutine, hl, timerStep]
  | joinTimer => simp [mainRoutine, hl, hexit]
  | returned => exact absurd hl hret

end Enabled

theorem PhaseInv.not_stuck (h : PhaseInv c s) (hsim : SimInv c s) :
    s.mainLoc = .returned ∨ (∃ th t, simStep c s th = some t) ∨ ExitsNext c s := by
  rcases eq_or_ne s.mainLoc .returned with hret | hret
  · exact .inl hret
  right
  cases hsleep : s.timer.asleep with
  | true =>
      -- the thread the timer waits for is awake
      obtain ⟨i, hi, hleft, hdone⟩ := asleep_cases hsim hsleep
      rcases Nat.eq_or_lt_of_le hi with rfl | hlt
      · refine (ldRoutine_isSome hsim h hleft hdone).imp_left fun hsome => ?_
        exact ⟨.loader, Option.isSome_iff_exists.mp hsome⟩
      · left
        obtain ⟨t, ht⟩ := Option.isSome_iff_exists.mp (cpuRoutine_isSome hsim h hlt hleft hdone)
        refine ⟨.cpu i, t, ?_⟩
        rw [simStep, if_pos hlt]
        exact ht
  | false =>
      left
      by_cases hexit : s.timer.loc = .exited
      · exact ⟨.main, Option.isSome_iff_exists.mp (mainRoutine_isSome hsim hexit hret)⟩
      · exact ⟨.timer, Option.isSome_iff_exists.mp (timerRoutine_isSome hsleep hexit)⟩

/-- The program never deadlocks. In every state that any order of the steps
leads to, `main` has returned, or some thread has a step, or the loader is at
an `add_proc` that ends the program. -/
theorem never_stuck {ths : List ThreadId}
    (hrun : Run (Step (simStep c)) (startSimulator c) ths s) :
    s.mainLoc = .returned ∨ (∃ th t, simStep c s th = some t) ∨ ExitsNext c s :=
  (PhaseInv.of_run hrun).not_stuck (SimInv.of_run hrun)

/-- The loader is to add a process in slot 0 and CPU 0 sleeps. -/
theorem never_stuck_cpuAsleep : ∃ s,
    Run (Step (simStep (oneProcess 1))) (startSimulator (oneProcess 1)) [.cpu 0, .cpu 0, .timer] s ∧
      (s.timer.dev 0).done = true ∧
      (s.mainLoc = .returned ∨ (∃ th t, simStep (oneProcess 1) s th = some t) ∨
        ExitsNext (oneProcess 1) s) := by
  have hflag : (exec (simStep (oneProcess 1)) (startSimulator (oneProcess 1))
      [.cpu 0, .cpu 0, .timer]).any (fun s => (s.timer.dev 0).done) = true := by
    decide +kernel
  obtain ⟨s, hs, hdone⟩ := (Option.any_eq_true _ _).mp hflag
  have hrun := run_of_exec hs
  exact ⟨s, hrun, hdone, never_stuck hrun⟩

end Ossim.Sched
