import Ossim.Sched.Mlq

/-!
The threads of `os.c`: the CPU loop and the loader.

A CPU is a small state machine. Its control locations are the points of
`cpu_routine` between two accesses to shared data, so one step is one
scheduler call, one look at the `done` flag, or one executed instruction;
tests on the CPU's own variables are taken together with the access that
follows them. The loader adds the configured processes in order and then
sets `done`. A step that ends in `exit(EXIT_FAILURE)` has no successor.

Instructions are seen only through the program counter, which none of them
sets: one that stores past `regs[9]`, where `pc` and `prio` lie, or one that
crashes, counts here like any other. In `Ossim.Whole`, where the instructions
are executed, these two have no step. The barrier of `timer.c` is left open:
any thread may pass its slot at any time, which allows every schedule the
barrier allows.
-/

namespace Ossim.Sched

/-- What `read_config` and `load` supply. Process `i` is the one loaded from
line `i` of the configuration. -/
structure Config where
  numCpus : Nat
  numProcesses : Nat
  timeSlot : Int
  startTime : ProcId → Nat
  prio : ProcId → Nat
  codeSize : ProcId → Nat

/-- Where a CPU stands in `cpu_routine`. -/
inductive CpuLoc where
  /-- the top of `while (1)` -/
  | head
  /-- after `finish_proc` or `put_proc`, before the `get_proc` that follows -/
  | reload
  /-- "Recheck process status after loading new process" -/
  | recheck
  /-- inside `next_slot` -/
  | nextSlot
  /-- after `break` -/
  | stopped
  deriving DecidableEq

/-- The local variables of `cpu_routine`. -/
structure Cpu where
  loc : CpuLoc
  proc : Option ProcId
  timeLeft : Int

/-- The process a CPU is responsible for. After `finish_proc` and `put_proc`
the variable `proc` still points to a process the CPU has given up. -/
def Cpu.held (c : Cpu) : Option ProcId :=
  if c.loc = .reload then none else c.proc

structure OsT where
  sched : SchedT
  pc : ProcId → Nat
  cpu : Nat → Cpu
  done : Bool
  /-- the loop variable `i` of `ld_routine`: the processes below it are loaded -/
  ldNext : Nat
  time : Nat
  /-- the processes passed to `finish_proc` so far -/
  finished : List ProcId

def initOs : OsT where
  sched := initScheduler
  pc _ := 0
  cpu _ := { loc := .head, proc := none, timeLeft := 0 }
  done := false
  ldNext := 0
  time := 0
  finished := []

def OsT.setCpu (s : OsT) (i : Nat) (c : Cpu) : OsT :=
  { s with cpu := Function.update s.cpu i c }

variable (c : Config)

/-- `run`, as far as the loop sees it, if the instruction keeps to the ten
registers. -/
def run (s : OsT) (p : ProcId) : OsT :=
  if s.pc p ≥ c.codeSize p then s
  else { s with pc := Function.update s.pc p (s.pc p + 1) }

/-- One step of CPU `i` through `cpu_routine`. -/
def cpuStep (s : OsT) (i : Nat) : Option OsT :=
  let me := s.cpu i
  match me.loc with
  | .head =>
      match me.proc with
      | none =>
          let r := getMlqProc s.sched
          -- "First load failed": the `continue` skips the recheck
          let loc := if r.1.isNone then CpuLoc.nextSlot else .recheck
          some ({ s with sched := r.2 }.setCpu i { me with proc := r.1, loc := loc })
      | some p =>
          if s.pc p = c.codeSize p then
            some ({ s with sched := finishProc s.sched p, finished := p :: s.finished }.setCpu i
              { me with loc := .reload })
          else if me.timeLeft = 0 then
            (putMlqProc c.prio s.sched p).map fun t =>
              { s with sched := t }.setCpu i { me with loc := .reload }
          else some (s.setCpu i { me with loc := .recheck })
  | .reload =>
      let r := getMlqProc s.sched
      some ({ s with sched := r.2 }.setCpu i { loc := .recheck, proc := r.1, timeLeft := 0 })
  | .recheck =>
      match me.proc with
      | none => some (s.setCpu i { me with loc := if s.done then .stopped else .nextSlot })
      | some p =>
          let left := if me.timeLeft = 0 then c.timeSlot else me.timeLeft
          some ((run c s p).setCpu i { me with timeLeft := left - 1, loc := .nextSlot })
  | .nextSlot => some (s.setCpu i { me with loc := .head })
  | .stopped => none

/-- Everything a step of CPU `i` can be. -/
inductive CpuMove (s : OsT) (i : Nat) : OsT → Prop
  | loadFailed (hloc : (s.cpu i).loc = .head) (hproc : (s.cpu i).proc = none)
      (hget : (getMlqProc s.sched).1 = none) :
      CpuMove s i ({ s with sched := (getMlqProc s.sched).2 }.setCpu i
        { s.cpu i with loc := .nextSlot })
  | load (p : ProcId) (hloc : (s.cpu i).loc = .head) (hproc : (s.cpu i).proc = none)
      (hget : (getMlqProc s.sched).1 = some p) :
      CpuMove s i ({ s with sched := (getMlqProc s.sched).2 }.setCpu i
        { s.cpu i with proc := some p, loc := .recheck })
  | finish (p : ProcId) (hloc : (s.cpu i).loc = .head) (hproc : (s.cpu i).proc = some p)
      (hpc : s.pc p = c.codeSize p) :
      CpuMove s i
        ({ s with sched := finishProc s.sched p, finished := p :: s.finished }.setCpu i
          { s.cpu i with loc := .reload })
  | requeue (p : ProcId) (t : SchedT) (hloc : (s.cpu i).loc = .head)
      (hproc : (s.cpu i).proc = some p) (hpc : s.pc p ≠ c.codeSize p)
      (htime : (s.cpu i).timeLeft = 0) (hput : putMlqProc c.prio s.sched p = some t) :
      CpuMove s i ({ s with sched := t }.setCpu i { s.cpu i with loc := .reload })
  | keep (p : ProcId) (hloc : (s.cpu i).loc = .head) (hproc : (s.cpu i).proc = some p)
      (hpc : s.pc p ≠ c.codeSize p) (htime : (s.cpu i).timeLeft ≠ 0) :
      CpuMove s i (s.setCpu i { s.cpu i with loc := .recheck })
  | reload (hloc : (s.cpu i).loc = .reload) :
      CpuMove s i ({ s with sched := (getMlqProc s.sched).2 }.setCpu i
        { loc := .recheck, proc := (getMlqProc s.sched).1, timeLeft := 0 })
  | stop (hloc : (s.cpu i).loc = .recheck) (hproc : (s.cpu i).proc = none)
      (hdone : s.done = true) : CpuMove s i (s.setCpu i { s.cpu i with loc := .stopped })
  | skip (hloc : (s.cpu i).loc = .recheck) (hproc : (s.cpu i).proc = none)
      (hdone : s.done = false) : CpuMove s i (s.setCpu i { s.cpu i with loc := .nextSlot })
  | exec (p : ProcId) (left : Int) (hloc : (s.cpu i).loc = .recheck)
      (hproc : (s.cpu i).proc = some p)
      (hleft : left = if (s.cpu i).timeLeft = 0 then c.timeSlot else (s.cpu i).timeLeft) :
      CpuMove s i ((run c s p).setCpu i { s.cpu i with timeLeft := left - 1, loc := .nextSlot })
  | slot (hloc : (s.cpu i).loc = .nextSlot) :
      CpuMove s i (s.setCpu i { s.cpu i with loc := .head })

theorem cpuStep_cases {c : Config} {s t : OsT} {i : Nat} (h : cpuStep c s i = some t) :
    CpuMove c s i t := by
  simp only [cpuStep] at h
  cases hloc : (s.cpu i).loc <;> simp only [hloc] at h
  case head =>
    cases hproc : (s.cpu i).proc with
    | none =>
        simp only [hproc, Option.some.injEq] at h
        cases hget : (getMlqProc s.sched).1 with
        | none =>
            rw [← h, hget]
            simpa [hproc] using CpuMove.loadFailed (c := c) hloc hproc hget
        | some p =>
            rw [← h, hget]
            exact .load p hloc hproc hget
    | some p =>
        simp only [hproc] at h
        split at h
        next hpc =>
          cases h
          simpa [hproc] using CpuMove.finish (c := c) p hloc hproc hpc
        next hpc =>
          split at h
          next htime =>
            obtain ⟨u, hput, rfl⟩ := Option.map_eq_some_iff.mp h
            simpa [hproc] using CpuMove.requeue (c := c) p u hloc hproc hpc htime hput
          next htime =>
            cases h
            simpa [hproc] using CpuMove.keep (c := c) p hloc hproc hpc htime
  case reload =>
    cases h
    exact .reload hloc
  case recheck =>
    cases hproc : (s.cpu i).proc with
    | none =>
        simp only [hproc, Option.some.injEq] at h
        cases hdone : s.done with
        | true =>
            rw [← h, hdone]
            simpa [hproc] using CpuMove.stop (c := c) hloc hproc hdone
        | false =>
            rw [← h, hdone]
            simpa [hproc] using CpuMove.skip (c := c) hloc hproc hdone
    | some p =>
        simp only [hproc, Option.some.injEq] at h
        rw [← h]
        simpa [hproc] using CpuMove.exec (c := c) p _ hloc hproc rfl
  case nextSlot =>
    cases h
    exact .slot hloc
  case stopped => cases h

/-- One step of `ld_routine`: wait for the start time, add the process, and
set `done` after the last one. -/
def ldStep (s : OsT) : Option OsT :=
  if s.ldNext < c.numProcesses then
    if s.time < c.startTime s.ldNext then some s
    else (addMlqProc c.prio s.sched s.ldNext).map fun t =>
      { s with sched := t, ldNext := s.ldNext + 1 }
  else if s.done then none
  else some { s with done := true }

/-- Whose turn it is. -/
inductive Turn where
  | cpu (i : Nat)
  | loader
  | timer
  deriving DecidableEq

def osStep (s : OsT) : Turn → Option OsT
  | .cpu i => if i < c.numCpus then cpuStep c s i else none
  | .loader => ldStep c s
  | .timer => some { s with time := s.time + 1 }

/-! ### Whole iterations

An iteration of `cpu_routine` is the run of CPU steps from one visit to the
top of the loop to the next one, or to the `break`. -/

/-- At most `n` steps of CPU `i`, up to the end of its iteration. -/
def toIterationEnd (i : Nat) : Nat → OsT → Option OsT
  | 0, s => some s
  | n + 1, s => (cpuStep c s i).bind fun t =>
      if (t.cpu i).loc = .head ∨ (t.cpu i).loc = .stopped then some t
      else toIterationEnd i n t

/-- One iteration of `cpu_routine`. The longest path through the body is
`head`, `reload`, `recheck`, `nextSlot`. -/
def cpuIteration (i : Nat) (s : OsT) : Option OsT := toIterationEnd c i 4 s

/-- The system at the granularity of loop iterations. -/
def osIteration (s : OsT) : Turn → Option OsT
  | .cpu i => if i < c.numCpus then cpuIteration c i s else none
  | .loader => ldStep c s
  | .timer => some { s with time := s.time + 1 }

@[simp] theorem cpu_setCpu_self (s : OsT) (i : Nat) (me : Cpu) : (s.setCpu i me).cpu i = me :=
  Function.update_self ..

theorem cpu_setCpu_of_ne (s : OsT) {i j : Nat} (h : j ≠ i) (me : Cpu) :
    (s.setCpu i me).cpu j = s.cpu j := Function.update_of_ne h ..

theorem cpuStep_other {c : Config} {s t : OsT} {i j : Nat} (h : cpuStep c s i = some t)
    (hj : j ≠ i) : t.cpu j = s.cpu j := by
  have hrun (p : ProcId) : (run c s p).cpu = s.cpu := by unfold run; split <;> rfl
  cases cpuStep_cases h with
  | exec p left => rw [cpu_setCpu_of_ne _ hj, hrun]
  | _ => exact cpu_setCpu_of_ne _ hj _

end Ossim.Sched
