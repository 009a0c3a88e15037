import Ossim.Whole

/-!
What the simulator gets done, instructions included.

The counts of the scheduler take each call of `run` for one instruction. That
is so in a run of the whole, which does not go past an instruction that
crashes or stores behind the registers of its process, where `pc` lies. So in
such a run no slot is wasted, all programs are executed within a number of
slots and of steps that depends on the workload only, and `main` returns when
they have been executed from the first to the last instruction.
-/

namespace Ossim

open Ossim.Lib

variable {w : Workload} {host : Nat → Bool} {ls : List (Sched.ThreadId × Mem.VmRg)} {m : Machine}

/-- The run has a step in the slot of `m` in which CPU `i` executes an
instruction of `x`. -/
def ExecutedNow (w : Workload) (host : Nat → Bool) (ls : List (Sched.ThreadId × Mem.VmRg))
    (m : Machine) (i : Nat) (x : Sched.ProcId) : Prop :=
  ∃ before junk after m₁ ins, ls = before ++ (.cpu i, junk) :: after ∧
    Run (Step (machineStep w)) (w.start host) before m₁ ∧
    m₁.sim.timer.time = m.sim.timer.time ∧
    memoryOp w m₁.sim (.cpu i) junk = some (.inst (pidOf x) ins junk)

theorem ExecutedNow.snoc {m' : Machine} {i : Nat} {x : Sched.ProcId}
    {l : Sched.ThreadId × Mem.VmRg} (h : ExecutedNow w host ls m i x)
    (htime : m'.sim.timer.time = m.sim.timer.time) : ExecutedNow w host (ls ++ [l]) m' i x := by
  obtain ⟨before, junk, after, m₁, ins, rfl, hrun, htime₁, hop⟩ := h
  exact ⟨before, junk, after ++ [l], m₁, ins, by simp, hrun, htime₁.trans htime.symm, hop⟩

theorem paceInv_of_run (hcpus : 0 < w.numCpus)
    (hrun : Run (Step (machineStep w)) (w.start host) ls m) : Sched.PaceInv w.config m.sim :=
  .of_run hcpus (whole_runs_both hrun).1

/-- A CPU that has run a process in the slot has executed an instruction of
it. -/
theorem executedNow_of_ranNow (hcpus : 0 < w.numCpus) (hcode : ∀ x < w.numProcesses, w.code x ≠ [])
    (hrun : Run (Step (machineStep w)) (w.start host) ls m) {i : Nat} (hi : i < w.numCpus)
    (hnow : m.sim.RanNow i) {x : Sched.ProcId} (hx : (m.sim.os.cpu i).proc = some x) :
    ExecutedNow w host ls m i x := by
  refine (hrun.history (I := fun ls m => Run (Step (machineStep w)) (w.start host) ls m ∧
    (m.sim.RanNow i → ∀ x, (m.sim.os.cpu i).proc = some x → ExecutedNow w host ls m i x))
    (fun ls m l m' h hstep => ?_) ⟨.nil _, fun hnow => ?_⟩).2 hnow x hx
  · obtain ⟨hbefore, hran⟩ := h
    refine ⟨hbefore.snoc hstep, fun hnow x hx => ?_⟩
    have hpace := paceInv_of_run hcpus hbefore
    have hpace' := paceInv_of_run hcpus (hbefore.snoc hstep)
    obtain ⟨htime, hproc, hcase⟩ :=
      Sched.ranNow_step hpace.sim hpace.shut (machineStep_cases hstep).1 hi hnow
    rw [hpace'.sim.time, hpace.sim.time] at htime
    rw [hproc] at hx
    obtain hsame | ⟨hth, hloc⟩ := hcase
    · exact (hran hsame x hx).snoc htime
    · -- the step is the instruction itself
      obtain ⟨th, junk⟩ := l
      obtain rfl : th = .cpu i := hth
      have hheld : (m.sim.os.cpu i).held = some x := by simp [Sched.Cpu.held, hloc, hx]
      have hlive := hpace.phase.acc.live_of_held hi hheld
      have hlt := hpace.work.lt_need hpace.phase.acc hi hloc hx
      have hpc := hpace.work.pc x
      have hlen := List.length_pos_of_ne_nil (hcode x (Nat.lt_of_lt_of_le hlive.1 hpace.arr.next))
      have hsize : w.config.codeSize x = (w.code x).length := rfl
      have hget : m.sim.os.pc x < (w.code x).length := by
        rw [Sched.need] at hlt
        omega
      refine ⟨ls, junk, [], m, (w.code x)[m.sim.os.pc x], rfl, hbefore, htime.symm, ?_⟩
      simp only [memoryOp, hloc, hx]
      rw [List.getElem?_eq_getElem hget, Option.map_some]
  · obtain ⟨hloc, -⟩ := hnow
    simp [Workload.start, Sched.startSimulator, Sched.initOs] at hloc

/-- After the slot of the last process no slot is wasted. When the time goes
up, every CPU has executed an instruction in the slot that ends, or of every
process that is not finished an instruction was executed in it. -/
theorem no_slot_wasted (hcpus : 0 < w.numCpus) (hcode : ∀ x < w.numProcesses, w.code x ≠ [])
    (hrun : Run (Step (machineStep w)) (w.start host) ls m)
    (htick : m.sim.timer.loc.event = some .tick)
    (hfree : Sched.freeAt w.config w.numProcesses ≤ m.sim.timer.time) :
    (∀ i < w.numCpus, ∃ x, ExecutedNow w host ls m i x) ∨
      ∀ x < w.numProcesses, x ∉ m.sim.os.finished →
        ∃ i < w.numCpus, ExecutedNow w host ls m i x := by
  refine (Sched.slots_work_conserving hcpus (whole_runs_both hrun).1 htick hfree).imp
    (fun hall i hi => ?_) fun hall x hx hnot => ?_
  · obtain ⟨x, hx⟩ := Option.ne_none_iff_exists'.mp (hall i hi).2.1
    exact ⟨x, executedNow_of_ranNow hcpus hcode hrun hi (hall i hi) hx⟩
  · obtain ⟨i, hi, hnow, hproc⟩ := hall x hx hnot
    exact ⟨i, hi, executedNow_of_ranNow hcpus hcode hrun hi hnow hproc⟩

/-- The timer is about to end slot 1, the first one after the arrival. -/
theorem pagesSchedule_ticks : (exec (machineStep pagesWorkload)
    (pagesWorkload.start fun _ => true) (pagesSchedule.take 22)).any
    (fun m => m.sim.timer.loc.event = some .tick ∧ m.sim.timer.time = 1) = true := by
  decide +kernel

theorem no_slot_wasted_pages : ∃ m,
    Run (Step (machineStep pagesWorkload)) (pagesWorkload.start fun _ => true)
      (pagesSchedule.take 22) m ∧
    ((∀ i < 1, ∃ x, ExecutedNow pagesWorkload (fun _ => true) (pagesSchedule.take 22) m i x) ∨
      ∀ x < 1, x ∉ m.sim.os.finished →
        ∃ i < 1, ExecutedNow pagesWorkload (fun _ => true) (pagesSchedule.take 22) m i x) := by
  obtain ⟨m, hm, hend⟩ := (Option.any_eq_true _ _).mp pagesSchedule_ticks
  obtain ⟨htick, htime⟩ := of_decide_eq_true hend
  have hrun := run_of_exec hm
  have hfree : Sched.freeAt pagesWorkload.config 1 ≤ m.sim.timer.time := by
    rw [htime]
    decide
  exact ⟨m, hrun, no_slot_wasted (by decide) (fun _ _ => List.cons_ne_nil _ _) hrun htick hfree⟩

/-- All processes have finished, and executed their programs, when the slot
after the last arrival, the total length of the programs divided by the number
of CPUs, the longest program and one more slot have gone by; an empty program
counts one. -/
theorem done_by_slotBound (hcpus : 0 < w.numCpus)
    (hrun : Run (Step (machineStep w)) (w.start host) ls m)
    (htime : Sched.slotBound w.config ≤ m.sim.timer.time) :
    ∀ x < w.numProcesses, x ∈ m.sim.os.finished ∧ m.sim.os.pc x = (w.code x).length := by
  intro x hx
  have hfinished := Sched.finished_by_slotBound hcpus (whole_runs_both hrun).1 htime x hx
  exact ⟨hfinished, (paceInv_of_run hcpus hrun).work.pc_of_finished hfinished⟩

/-- So the same holds after a number of steps that depends on the workload
only, whatever order the threads are scheduled in. -/
theorem done_after_steps (hcpus : 0 < w.numCpus)
    (hrun : Run (Step (machineStep w)) (w.start host) ls m)
    (hlen : (7 * w.numCpus + 8) * Sched.slotBound w.config + 6 * w.numCpus + 7 ≤ ls.length) :
    ∀ x < w.numProcesses, x ∈ m.sim.os.finished ∧ m.sim.os.pc x = (w.code x).length := by
  intro x hx
  have hfinished := Sched.finished_after_steps hcpus (whole_runs_both hrun).1
    (by rw [List.length_map]; exact hlen) x hx
  exact ⟨hfinished, (paceInv_of_run hcpus hrun).work.pc_of_finished hfinished⟩

/-- Two CPUs for one process of one instruction. -/
def calcWorkload : Workload where
  numCpus := 2
  numProcesses := 1
  timeSlot := 2
  startTime _ := 0
  prio _ := 7
  code _ := [{ opcode := .calc }]
  memramsz := 4096
  memswpsz := 4096

/-- CPU 1 looks before the process is there and never sees `done`, so the
slots go on. -/
def idleCpu (n : Nat) : List (Sched.ThreadId × Mem.VmRg) :=
  (List.flatten ([[.cpu 1, .cpu 1, .loader, .loader, .cpu 0, .cpu 0, .cpu 0],
    List.replicate 6 .timer, [.loader, .loader, .loader, .timer, .cpu 1, .cpu 1, .cpu 1, .timer],
    List.replicate 5 (.cpu 0), List.replicate 8 .timer] ++
    List.replicate n ([.cpu 1, .cpu 1, .cpu 1] ++ List.replicate 9 .timer))).map
    fun th => (th, ⟨0, 0⟩)

theorem idleCpu_time : (exec (machineStep calcWorkload) (calcWorkload.start fun _ => true)
    (idleCpu 1)).any (fun m => m.sim.timer.time = Sched.slotBound calcWorkload.config) = true := by
  decide +kernel

theorem done_by_slotBound_idleCpu : ∃ m,
    Run (Step (machineStep calcWorkload)) (calcWorkload.start fun _ => true) (idleCpu 1) m ∧
      0 ∈ m.sim.os.finished ∧ m.sim.os.pc 0 = 1 := by
  obtain ⟨m, hm, hend⟩ := (Option.any_eq_true _ _).mp idleCpu_time
  have hrun := run_of_exec hm
  have htime := Nat.le_of_eq (of_decide_eq_true hend).symm
  exact ⟨m, hrun, done_by_slotBound (by decide) hrun htime 0 (by decide)⟩

theorem idleCpu_isSome : (exec (machineStep calcWorkload) (calcWorkload.start fun _ => true)
    (idleCpu 5)).isSome = true := by
  decide +kernel

theorem done_after_steps_idleCpu : ∃ m,
    Run (Step (machineStep calcWorkload)) (calcWorkload.start fun _ => true) (idleCpu 5) m ∧
      0 ∈ m.sim.os.finished ∧ m.sim.os.pc 0 = 1 := by
  obtain ⟨m, hm⟩ := Option.isSome_iff_exists.mp idleCpu_isSome
  have hrun := run_of_exec hm
  have hlen : (7 * 2 + 8) * Sched.slotBound calcWorkload.config + 6 * 2 + 7 ≤
      (idleCpu 5).length := by
    decide +kernel
  exact ⟨m, hrun, done_after_steps (by decide) hrun hlen 0 (by decide)⟩

/-- When `main` returns, the timer and all threads have ended, every process
was loaded and has finished once, and both halves of the system are empty.
What each process has done is its program from the first to the last
instruction and then its exit. -/
theorem main_returns_executed (hcpus : 0 < w.numCpus)
    (hrun : Run (Step (machineStep w)) (w.start host) ls m)
    (hret : m.sim.mainLoc = .returned) :
    m.sim.timer.loc = .exited ∧ (∀ i ≤ w.numCpus, (m.sim.timer.threads i).phase = .left) ∧
      m.sim.os.finished.Perm (List.range w.numProcesses) ∧
      (∃ ops, Run (Step Mem.step) (Mem.boot w.memramsz w.memswpsz host) ops m.mem ∧
        ∀ x < w.numProcesses, doings (pidOf x) ops = (w.code x).map some ++ [none]) ∧
      (∀ q < Sched.maxPrio, m.sim.os.sched.ready q = []) ∧ m.sim.os.sched.running = [] ∧
      m.mem.runningList = [] := by
  obtain ⟨hsim, ops, hops, hdoings, -, hrunning⟩ := whole_runs_both hrun
  obtain ⟨hexited, hleft, hfinished, hdone, hready, hempty⟩ :=
    Sched.main_returns_complete hcpus hsim hret
  refine ⟨hexited, hleft, hfinished, ⟨ops, hops, fun x hx => ?_⟩, hready, hempty, ?_⟩
  · have hmem : x ∈ m.sim.os.finished := hfinished.mem_iff.mpr (List.mem_range.mpr hx)
    have hpc : m.sim.os.pc x = (w.code x).length := (hdone x hx).1
    rw [hdoings, hpc, List.take_length, if_pos hmem]
  · rw [hrunning, hempty]
    rfl

theorem main_returns_executed_pages : ∃ m,
    Run (Step (machineStep pagesWorkload)) (pagesWorkload.start fun _ => true) pagesSchedule m ∧
      m.sim.os.finished.Perm [0] ∧ m.mem.runningList = [] := by
  obtain ⟨m, hm, hret⟩ := (Option.any_eq_true _ _).mp pagesSchedule_returns
  have hrun := run_of_exec (exec_of_guarded hm)
  obtain ⟨-, -, hfinished, -, -, -, hempty⟩ :=
    main_returns_executed (by decide) hrun (of_decide_eq_true hret)
  exact ⟨m, hrun, hfinished, hempty⟩

/-! ### No other end -/

/-- A CPU is about to execute an instruction that crashes or stores behind
the registers of its process. -/
def CrashesNext (w : Workload) (m : Machine) : Prop :=
  ∃ i < w.numCpus, ∃ x ins, (m.sim.os.cpu i).loc = .recheck ∧ (m.sim.os.cpu i).proc = some x ∧
    (w.code x)[m.sim.os.pc x]? = some ins ∧ ∀ junk, Mem.run m.mem (pidOf x) ins junk = none

theorem agree_of_run (hrun : Run (Step (machineStep w)) (w.start host) ls m) :
    ∃ ops, Agree w m.sim.os m.mem ops := by
  have hall : Run (MachineStep w fun _ _ _ => True) (w.start host) ls m :=
    hrun.mono fun _ _ _ hstep => ⟨hstep, fun _ _ => trivial⟩
  obtain ⟨-, ops, -, hinv⟩ := WholeInv.of_run hall
  exact ⟨ops, hinv.agree⟩

/-- A thread that has a step has it in the whole too, unless it is at an
instruction without a next state. -/
theorem machineStep_or_crashes (hrun : Run (Step (machineStep w)) (w.start host) ls m)
    {th : Sched.ThreadId} {u : Sched.Simulator} (hstep : Sched.simStep w.config m.sim th = some u) :
    (∃ l m', machineStep w m l = some m') ∨ CrashesNext w m := by
  have hgo (junk : Mem.VmRg) (hperform : ∀ op, memoryOp w m.sim th junk = some op →
      ∃ mem, perform m.mem op = some mem) : ∃ l m', machineStep w m l = some m' := by
    cases hop : memoryOp w m.sim th junk with
    | none => exact ⟨(th, junk), ⟨u, m.mem⟩, by rw [machineStep, hstep, Option.bind_some, hop]⟩
    | some op =>
        obtain ⟨mem, hmem⟩ := hperform op hop
        refine ⟨(th, junk), ⟨u, mem⟩, ?_⟩
        rw [machineStep, hstep, Option.bind_some, hop]
        dsimp only
        rw [hmem, Option.map_some]
  cases th with
  | timer | main => exact .inl (hgo ⟨0, 0⟩ fun _ hop => (by cases hop))
  | loader =>
      refine .inl (hgo ⟨0, 0⟩ fun op hop => ?_)
      rw [memoryOp] at hop
      split at hop
      · rename_i hload
        cases hop
        obtain ⟨ops, hagree⟩ := agree_of_run hrun
        cases Sched.simStep_cases hstep with
        | add hloc hnext htime hadd =>
            obtain ⟨mem, hmem, -⟩ := hagree.load hadd
            exact ⟨mem, hmem⟩
        | wait hloc hnext htime => exact absurd hload.2.2 (Nat.not_le.mpr htime)
        | setDone hloc hnext => exact absurd hload.2.1 (Nat.not_lt.mpr hnext)
        | ldReport hloc | ldPass hloc | ldLeave hloc =>
            rw [hloc] at hload
            cases hload.1
      · cases hop
  | cpu i =>
      have hi : i < w.numCpus := by
        by_contra hnot
        have hnone : Sched.simStep w.config m.sim (.cpu i) = none := if_neg hnot
        rw [hnone] at hstep
        cases hstep
      by_cases hcrash : CrashesNext w m
      · exact .inr hcrash
      left
      by_cases hat : (m.sim.os.cpu i).loc = .recheck ∧ ∃ x, (m.sim.os.cpu i).proc = some x
      · obtain ⟨hloc, x, hx⟩ := hat
        cases hget : (w.code x)[m.sim.os.pc x]? with
        | none =>
            refine hgo ⟨0, 0⟩ fun op hop => ?_
            simp only [memoryOp, hloc, hx, hget, Option.map_none, reduceCtorEq] at hop
        | some ins =>
            -- some answer of the host lets the instruction go on
            obtain ⟨junk, hjunk⟩ : ∃ junk, Mem.run m.mem (pidOf x) ins junk ≠ none := by
              by_contra hnone
              simp only [not_exists, not_not] at hnone
              exact hcrash ⟨i, hi, x, ins, hloc, hx, hget, hnone⟩
            obtain ⟨r, hr⟩ := Option.ne_none_iff_exists'.mp hjunk
            refine hgo junk fun op hop => ?_
            simp only [memoryOp, hloc, hx, hget, Option.map_some, Option.some.injEq] at hop
            subst hop
            exact ⟨r.2, by rw [perform, hr, Option.map_some]⟩
      · refine hgo ⟨0, 0⟩ fun op hop => ?_
        rw [memoryOp] at hop
        split at hop
        · rename_i x hloc hx
          exact absurd ⟨hloc, x, hx⟩ hat
        · split at hop
          · cases hop
            exact ⟨_, rfl⟩
          · cases hop
        · cases hop

end Ossim
