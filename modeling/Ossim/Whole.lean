import Ossim.Mem.Returns
import Ossim.Mem.Flat
import Ossim.Sched.Throughput

/-!
The simulator as a whole: the threads of `os.c` at work on the memory.

The scheduler sees an instruction as a step of the program counter, and the
memory system takes its operations as they come. Here the two meet: `run`
executes the instruction at the program counter of the process, `finish_proc`
and `free_pcb_all` take the process out of both halves, and the loader brings
it into both. The process ids are handed out in the order of the
configuration, from 1 on.

A run of the whole is a run of each half. On the memory side the operations
of a process are its program, from the first instruction to the program
counter, and then its exit.
-/

namespace Ossim

open Ossim.Lib

/-- A configuration with its programs, as `read_config` and `load` supply
them. -/
structure Workload where
  numCpus : Nat
  numProcesses : Nat
  timeSlot : Int
  startTime : Sched.ProcId → Nat
  prio : Sched.ProcId → Nat
  code : Sched.ProcId → List Mem.Inst
  memramsz : Nat
  memswpsz : Nat

/-- What the scheduler sees of it. -/
def Workload.config (w : Workload) : Sched.Config where
  numCpus := w.numCpus
  numProcesses := w.numProcesses
  timeSlot := w.timeSlot
  startTime := w.startTime
  prio := w.prio
  codeSize x := (w.code x).length

/-- `avail_pid` of `loader.c` -/
def pidOf (x : Sched.ProcId) : Mem.Pid := x + 1

structure Machine where
  sim : Sched.Simulator
  mem : Mem.Sys

variable (w : Workload)

def Workload.start (host : Nat → Bool) : Machine :=
  ⟨Sched.startSimulator w.config, Mem.boot w.memramsz w.memswpsz host⟩

/-- What the next step of a thread asks of the memory. -/
def memoryOp (s : Sched.Simulator) (th : Sched.ThreadId) (junk : Mem.VmRg) : Option Mem.Op :=
  match th with
  | .cpu i =>
    match (s.os.cpu i).loc, (s.os.cpu i).proc with
    | .recheck, some x => (w.code x)[s.os.pc x]?.map fun ins => .inst (pidOf x) ins junk
    | .head, some x => if s.os.pc x = (w.code x).length then some (.exit (pidOf x)) else none
    | _, _ => none
  | .loader =>
    if s.ldLoc = .load ∧ s.os.ldNext < w.numProcesses ∧ w.startTime s.os.ldNext ≤ s.os.time then
      some .load
    else none
  | .timer | .main => none

/-- The operation itself; the threads do not look whether the process is
alive. -/
def perform (s : Mem.Sys) : Mem.Op → Option Mem.Sys
  | .load => Mem.loadProc s
  | .inst p ins junk => (Mem.run s p ins junk).map Prod.snd
  | .exit p => some (Mem.exitProc s p)

/-- One step of a thread. With it comes what the host leaves in the memory
of the node that the instruction may allocate. -/
def machineStep (m : Machine) (l : Sched.ThreadId × Mem.VmRg) : Option Machine :=
  (Sched.simStep w.config m.sim l.1).bind fun t =>
    match memoryOp w m.sim l.1 l.2 with
    | none => some ⟨t, m.mem⟩
    | some op => (perform m.mem op).map fun u => ⟨t, u⟩

/-- A step whose operation on the memory, if there is one, satisfies `C`. -/
def MachineStep (C : Mem.Sys → Mem.Op → Mem.Sys → Prop) (m : Machine)
    (l : Sched.ThreadId × Mem.VmRg) (m' : Machine) : Prop :=
  machineStep w m l = some m' ∧ ∀ op, memoryOp w m.sim l.1 l.2 = some op → C m.mem op m'.mem

/-- What process `p` does: its instructions, and `none` for its exit. -/
def doings (p : Mem.Pid) (ops : List Mem.Op) : List (Option Mem.Inst) :=
  ops.filterMap fun
    | .inst q ins _ => if q = p then some (some ins) else none
    | .exit q => if q = p then some none else none
    | .load => none

/-- The processes loaded so far. -/
def loads (ops : List Mem.Op) : Nat :=
  ops.countP fun
    | .load => true
    | _ => false

variable {w} {m m' : Machine} {th : Sched.ThreadId} {junk : Mem.VmRg}

theorem machineStep_cases {l : Sched.ThreadId × Mem.VmRg} (h : machineStep w m l = some m') :
    Sched.simStep w.config m.sim l.1 = some m'.sim ∧
      (memoryOp w m.sim l.1 l.2 = none ∧ m'.mem = m.mem ∨
        ∃ op, memoryOp w m.sim l.1 l.2 = some op ∧ perform m.mem op = some m'.mem) := by
  obtain ⟨t, ht, hrest⟩ := Option.bind_eq_some_iff.mp h
  cases hop : memoryOp w m.sim l.1 l.2 with
  | none =>
      rw [hop] at hrest
      cases hrest
      exact ⟨ht, .inl ⟨rfl, rfl⟩⟩
  | some op =>
      rw [hop] at hrest
      obtain ⟨u, hu, rfl⟩ := Option.map_eq_some_iff.mp hrest
      exact ⟨ht, .inr ⟨op, rfl, hu⟩⟩

/-! ### The two halves together -/

/-- The halves agree on who is alive, and the memory has seen what the
scheduler says was executed. -/
structure Agree (w : Workload) (s : Sched.OsT) (mem : Mem.Sys) (ops : List Mem.Op) : Prop where
  running : mem.runningList = s.sched.running.map pidOf
  pid : mem.availPid = s.ldNext + 1
  loads : loads ops = s.ldNext
  doings : ∀ x, doings (pidOf x) ops = ((w.code x).take (s.pc x)).map some ++
    if x ∈ s.finished then [none] else []

theorem pidOf_inj {x y : Sched.ProcId} (h : pidOf x = pidOf y) : x = y := Nat.succ.inj h

theorem map_pidOf_erase (l : List Sched.ProcId) (x : Sched.ProcId) :
    (l.erase x).map pidOf = (l.map pidOf).erase (pidOf x) := by
  induction l with
  | nil => rfl
  | cons y l ih =>
      rcases eq_or_ne y x with rfl | hyx
      · simp
      · have hne : pidOf y ≠ pidOf x := fun heq => hyx (pidOf_inj heq)
        rw [List.erase_cons_tail (by simpa using hyx), List.map_cons, List.map_cons,
          List.erase_cons_tail (by simpa using hne), ih]

theorem runningList_inst {s t : Mem.Sys} {p : Mem.Pid} {ins : Mem.Inst} {ret : Int}
    (h : Mem.run s p ins junk = some (ret, t)) :
    t.runningList = s.runningList ∧ t.availPid = s.availPid :=
  ⟨(Mem.Private.run h).runningList, (Mem.Private.run h).availPid⟩

namespace Agree

variable {s t : Sched.OsT} {mem mem' : Mem.Sys} {ops : List Mem.Op} {x : Sched.ProcId}

theorem start (w : Workload) (host : Nat → Bool) :
    Agree w Sched.initOs (w.start host).mem [] where
  running := rfl
  pid := rfl
  loads := rfl
  doings _ := rfl

/-- A step that changes none of what is compared. -/
theorem still (h : Agree w s mem ops) (hrun : t.sched.running = s.sched.running)
    (hnext : t.ldNext = s.ldNext) (hpc : t.pc = s.pc) (hfin : t.finished = s.finished) :
    Agree w t mem ops :=
  ⟨hrun ▸ h.running, hnext ▸ h.pid, hnext ▸ h.loads, hpc ▸ hfin ▸ h.doings⟩

theorem mem_running (h : Agree w s mem ops) : pidOf x ∈ mem.runningList ↔ x ∈ s.sched.running := by
  rw [h.running, List.mem_map]
  refine ⟨?_, fun hx => ⟨x, hx, rfl⟩⟩
  rintro ⟨y, hy, heq⟩
  exact pidOf_inj heq ▸ hy

/-- The process `x` executes an instruction. -/
theorem inst (h : Agree w s mem ops) {ins : Mem.Inst} {ret : Int}
    (hget : (w.code x)[s.pc x]? = some ins)
    (hrun : Mem.run mem (pidOf x) ins junk = some (ret, mem'))
    (hsched : t.sched.running = s.sched.running) (hnext : t.ldNext = s.ldNext)
    (hpc : t.pc = Function.update s.pc x (s.pc x + 1)) (hfin : t.finished = s.finished)
    (hlive : x ∉ s.finished) : Agree w t mem' (ops ++ [.inst (pidOf x) ins junk]) := by
  obtain ⟨hlist, havail⟩ := runningList_inst hrun
  refine ⟨?_, ?_, ?_, fun y => ?_⟩
  · rw [hlist, hsched]
    exact h.running
  · rw [havail, hnext]
    exact h.pid
  · rw [hnext, ← h.loads]
    simp [Ossim.loads]
  · have hdo := h.doings y
    simp only [Ossim.doings] at hdo ⊢
    rw [List.filterMap_append, hdo, hpc, hfin]
    rcases eq_or_ne y x with rfl | hyx
    · rw [if_neg hlive, Function.update_self, List.take_add_one, hget]
      simp
    · have hne : pidOf x ≠ pidOf y := fun heq => hyx (pidOf_inj heq).symm
      rw [Function.update_of_ne hyx]
      simp [hne]

/-- The process `x` exits. -/
theorem exit (h : Agree w s mem ops)
    (hsched : t.sched.running = s.sched.running.erase x) (hnext : t.ldNext = s.ldNext)
    (hpc : t.pc = s.pc) (hfin : t.finished = x :: s.finished) (hlive : x ∉ s.finished) :
    Agree w t (Mem.exitProc mem (pidOf x)) (ops ++ [.exit (pidOf x)]) := by
  have hpriv := Mem.exitProc_private mem (pidOf x)
  refine ⟨?_, ?_, ?_, fun y => ?_⟩
  · rw [hpriv.runningList, hsched, map_pidOf_erase]
    exact congrArg (List.erase · (pidOf x)) h.running
  · rw [hpriv.availPid, hnext]
    exact h.pid
  · rw [hnext, ← h.loads]
    simp [Ossim.loads]
  · have hdo := h.doings y
    simp only [Ossim.doings] at hdo ⊢
    rw [List.filterMap_append, hdo, hpc, hfin]
    rcases eq_or_ne y x with rfl | hyx
    · simp [hlive]
    · have hne : pidOf x ≠ pidOf y := fun heq => hyx (pidOf_inj heq).symm
      simp [hne, hyx]

/-- The loader adds a process; both lists have room for it. -/
theorem load (h : Agree w s mem ops) {prio : Sched.ProcId → Nat} {u : Sched.SchedT}
    (hadd : Sched.addMlqProc prio s.sched s.ldNext = some u) :
    ∃ mem', Mem.loadProc mem = some mem' ∧
      Agree w { s with sched := u, ldNext := s.ldNext + 1 } mem' (ops ++ [.load]) := by
  obtain ⟨-, -, hrun, -, hlen⟩ := Sched.addMlqProc_spec hadd
  have hroom : mem.runningList.length < Sched.maxQueueSize := by
    rw [h.running, List.length_map]
    rw [hrun, List.length_append, List.length_singleton] at hlen
    exact hlen
  refine ⟨_, if_pos hroom, ?_, ?_, ?_, fun y => ?_⟩
  · change mem.runningList ++ [mem.availPid] = u.running.map pidOf
    rw [hrun, List.map_append, h.running, h.pid]
    rfl
  · exact congrArg (· + 1) h.pid
  · change _ = s.ldNext + 1
    rw [← h.loads]
    simp [Ossim.loads]
  · have hdo := h.doings y
    simp only [Ossim.doings] at hdo ⊢
    rw [List.filterMap_append, hdo]
    simp

end Agree

/-! ### One step of the whole -/

/-- What every reachable state of the whole satisfies. -/
structure WholeInv (w : Workload) (m : Machine) (ops : List Mem.Op) : Prop where
  sim : Sched.SimInv w.config m.sim
  phase : Sched.PhaseInv w.config m.sim
  work : Sched.WorkInv w.config m.sim.os m.sim.execs
  agree : Agree w m.sim.os m.mem ops

/-- A step of the whole that is none of the memory, or one that is. -/
def Follows (w : Workload) (m m' : Machine) (l : Sched.ThreadId × Mem.VmRg) (ops : List Mem.Op) :
    Prop :=
  memoryOp w m.sim l.1 l.2 = none ∧ Agree w m'.sim.os m'.mem ops ∨
    ∃ op, memoryOp w m.sim l.1 l.2 = some op ∧ Mem.step m.mem op = some m'.mem ∧
      Agree w m'.sim.os m'.mem (ops ++ [op])

namespace WholeInv

variable {ops : List Mem.Op}

theorem start (w : Workload) (host : Nat → Bool) : WholeInv w (w.start host) [] :=
  ⟨.start _, .start _, .start _, .start w host⟩

/-- A process in the hands of a CPU is alive on both sides. -/
theorem alive (h : WholeInv w m ops) {i : Nat} (hi : i < w.numCpus) {x : Sched.ProcId}
    (hheld : (m.sim.os.cpu i).held = some x) :
    pidOf x ∈ m.mem.runningList ∧ x ∉ m.sim.os.finished := by
  have hlive := h.phase.acc.live_of_held hi hheld
  have hcount := h.phase.acc.running x
  rw [if_pos hlive] at hcount
  exact ⟨h.agree.mem_running.mpr (List.count_pos_iff.mp (by omega)), hlive.2⟩

/-- A step of CPU `i` away from its device. -/
theorem cpu (h : WholeInv w m ops) {i : Nat} (hi : i < w.numCpus) {u : Sched.OsT} {mem : Mem.Sys}
    {tm : Sched.TimerT} {execs : Sched.ProcId → Nat}
    (hstep : Sched.cpuStep w.config m.sim.os i = some u)
    (hmem : memoryOp w m.sim (.cpu i) junk = none ∧ mem = m.mem ∨
      ∃ op, memoryOp w m.sim (.cpu i) junk = some op ∧ perform m.mem op = some mem) :
    Follows w m ⟨⟨u, tm, m.sim.ldLoc, m.sim.mainLoc, execs⟩, mem⟩ (.cpu i, junk) ops := by
  have hquiet (hnone : memoryOp w m.sim (.cpu i) junk = none)
      (hrun : u.sched.running = m.sim.os.sched.running) (hnext : u.ldNext = m.sim.os.ldNext)
      (hpc : u.pc = m.sim.os.pc) (hfin : u.finished = m.sim.os.finished) :
      Follows w m ⟨⟨u, tm, m.sim.ldLoc, m.sim.mainLoc, execs⟩, mem⟩ (.cpu i, junk) ops := by
    rcases hmem with ⟨-, rfl⟩ | ⟨op, hop, -⟩
    · exact .inl ⟨hnone, h.agree.still hrun hnext hpc hfin⟩
    · rw [hnone] at hop
      cases hop
  cases Sched.cpuStep_cases hstep with
  | loadFailed hloc hproc | load _ hloc hproc =>
      exact hquiet (by simp [memoryOp, hloc, hproc]) (Sched.running_getMlqProc _) rfl rfl rfl
  | reload hloc =>
      exact hquiet (by simp [memoryOp, hloc]) (Sched.running_getMlqProc _) rfl rfl rfl
  | requeue x v hloc hproc hpc htime hput =>
      refine hquiet ?_ (Sched.prio_lt_of_putMlqProc hput).2.2 rfl rfl rfl
      simp only [memoryOp, hloc, hproc]
      exact if_neg hpc
  | keep x hloc hproc hpc =>
      refine hquiet ?_ rfl rfl rfl rfl
      simp only [memoryOp, hloc, hproc]
      exact if_neg hpc
  | stop hloc hproc | skip hloc hproc =>
      exact hquiet (by simp [memoryOp, hloc, hproc]) rfl rfl rfl rfl
  | slot hloc => exact hquiet (by simp [memoryOp, hloc]) rfl rfl rfl rfl
  | finish x hloc hproc hpc =>
      have hop : memoryOp w m.sim (.cpu i) junk = some (.exit (pidOf x)) := by
        simp only [memoryOp, hloc, hproc]
        exact if_pos hpc
      obtain ⟨halive, hnot⟩ := h.alive hi (x := x) (by simp [Sched.Cpu.held, hloc, hproc])
      rcases hmem with ⟨hnone, -⟩ | ⟨op, hop', hperf⟩
      · rw [hnone] at hop
        cases hop
      · rw [hop'] at hop
        cases hop
        rw [perform] at hperf
        obtain rfl := Option.some.inj hperf
        refine .inr ⟨_, hop', if_pos halive, ?_⟩
        exact h.agree.exit (Sched.running_finishProc ..) rfl rfl rfl hnot
  | exec x left hloc hproc =>
      have hop : memoryOp w m.sim (.cpu i) junk =
          (w.code x)[m.sim.os.pc x]?.map fun ins => .inst (pidOf x) ins junk := by
        simp only [memoryOp, hloc, hproc]
      obtain ⟨halive, hnot⟩ := h.alive hi (x := x) (by simp [Sched.Cpu.held, hloc, hproc])
      cases hget : (w.code x)[m.sim.os.pc x]? with
      | none =>
          rw [hget] at hop
          have hpast : m.sim.os.pc x ≥ w.config.codeSize x := List.getElem?_eq_none_iff.mp hget
          refine hquiet hop ?_ ?_ ?_ ?_ <;>
            rw [Sched.run, if_pos hpast] <;> rfl
      | some ins =>
          rw [hget, Option.map_some] at hop
          have hpc : ¬m.sim.os.pc x ≥ w.config.codeSize x :=
            Nat.not_le.mpr (List.getElem?_eq_some_iff.mp hget).1
          rcases hmem with ⟨hnone, -⟩ | ⟨op, hop', hperf⟩
          · rw [hnone] at hop
            cases hop
          · rw [hop'] at hop
            cases hop
            obtain ⟨⟨ret, v⟩, hrun, rfl⟩ := Option.map_eq_some_iff.mp hperf
            refine .inr ⟨_, hop', ?_, ?_⟩
            · rw [Mem.step, if_pos halive, hrun]
              rfl
            · rw [Sched.run, if_neg hpc]
              exact h.agree.inst hget hrun rfl rfl rfl rfl hnot

/-- A step of a thread is one of the memory or none. -/
theorem follows (h : WholeInv w m ops) {l : Sched.ThreadId × Mem.VmRg}
    (hstep : machineStep w m l = some m') : Follows w m m' l ops := by
  obtain ⟨th, junk⟩ := l
  obtain ⟨hsim, hmem⟩ := machineStep_cases hstep
  obtain ⟨sim', mem'⟩ := m'
  simp only at hsim hmem
  have hquiet (hnone : memoryOp w m.sim th junk = none) (hagree : Agree w sim'.os m.mem ops) :
      Follows w m ⟨sim', mem'⟩ (th, junk) ops := by
    rcases hmem with ⟨-, rfl⟩ | ⟨op, hop, -⟩
    · exact .inl ⟨hnone, hagree⟩
    · rw [hnone] at hop
      cases hop
  cases Sched.simStep_cases hsim with
  | report hi hloc | leave hi hloc => exact hquiet (by simp [memoryOp, hloc]) h.agree
  | pass hi hloc hwait hdone hcpu => exact h.cpu hi hcpu hmem
  | cpu hi hslot hcpu => exact h.cpu hi hcpu hmem
  | wait hloc hnext htime =>
      refine hquiet ?_ (h.agree.still rfl rfl rfl rfl)
      exact if_neg fun hand => Nat.not_le.mpr htime hand.2.2
  | setDone hloc hnext =>
      refine hquiet ?_ (h.agree.still rfl rfl rfl rfl)
      exact if_neg fun hand => Nat.not_lt.mpr hnext hand.2.1
  | add hloc hnext htime hadd =>
      have hop : memoryOp w m.sim .loader junk = some .load := if_pos ⟨hloc, hnext, htime⟩
      obtain ⟨u, hload, hagree⟩ := h.agree.load hadd
      rcases hmem with ⟨hnone, -⟩ | ⟨op, hop', hperf⟩
      · rw [hnone] at hop
        cases hop
      · rw [hop'] at hop
        cases hop
        have heq : some u = some mem' := hload.symm.trans hperf
        cases heq
        exact .inr ⟨_, hop', hload, hagree⟩
  | ldReport hloc | ldPass hloc | ldLeave hloc =>
      refine hquiet ?_ h.agree
      exact if_neg fun hand => by
        rw [hloc] at hand
        cases hand.1
  | timer => exact hquiet rfl (h.agree.still rfl rfl rfl rfl)
  | join | stop | finish => exact hquiet rfl h.agree

theorem step (h : WholeInv w m ops) {l : Sched.ThreadId × Mem.VmRg}
    (hstep : machineStep w m l = some m') :
    memoryOp w m.sim l.1 l.2 = none ∧ m'.mem = m.mem ∧ WholeInv w m' ops ∨
      ∃ op, memoryOp w m.sim l.1 l.2 = some op ∧ Mem.step m.mem op = some m'.mem ∧
        WholeInv w m' (ops ++ [op]) := by
  obtain ⟨hsim, hmem⟩ := machineStep_cases hstep
  have hinv {ops' : List Mem.Op} (hagree : Agree w m'.sim.os m'.mem ops') : WholeInv w m' ops' :=
    ⟨h.sim.step hsim, h.phase.step hsim, h.work.step h.phase hsim, hagree⟩
  rcases h.follows hstep with ⟨hnone, hagree⟩ | ⟨op, hop, hstep, hagree⟩
  · rcases hmem with ⟨-, hsame⟩ | ⟨op, hop, -⟩
    · exact .inl ⟨hnone, hsame, hinv hagree⟩
    · rw [hnone] at hop
      cases hop
  · exact .inr ⟨op, hop, hstep, hinv hagree⟩

end WholeInv

/-! ### Runs -/

/-- A run of the whole, read on both sides. -/
theorem WholeInv.of_run {C : Mem.Sys → Mem.Op → Mem.Sys → Prop} {host : Nat → Bool}
    {ls : List (Sched.ThreadId × Mem.VmRg)}
    (hrun : Run (MachineStep w C) (w.start host) ls m) :
    Run (Step (Sched.simStep w.config)) (Sched.startSimulator w.config) (ls.map Prod.fst) m.sim ∧
      ∃ ops, Run (fun s op t => Mem.step s op = some t ∧ C s op t)
        (Mem.boot w.memramsz w.memswpsz host) ops m.mem ∧ WholeInv w m ops := by
  refine hrun.history (I := fun ls m =>
    Run (Step (Sched.simStep w.config)) (Sched.startSimulator w.config) (ls.map Prod.fst) m.sim ∧
      ∃ ops, Run (fun s op t => Mem.step s op = some t ∧ C s op t)
        (Mem.boot w.memramsz w.memswpsz host) ops m.mem ∧ WholeInv w m ops)
    (fun ls m l m' h hstep => ?_) ⟨.nil _, [], .nil _, .start w host⟩
  obtain ⟨hsim, ops, hops, hinv⟩ := h
  obtain ⟨hstep, hC⟩ := hstep
  refine ⟨?_, ?_⟩
  · rw [List.map_append]
    exact hsim.snoc (machineStep_cases hstep).1
  · rcases hinv.step hstep with ⟨-, hsame, hinv'⟩ | ⟨op, hop, hmem, hinv'⟩
    · exact ⟨ops, hsame ▸ hops, hinv'⟩
    · exact ⟨ops ++ [op], hops.snoc ⟨hmem, hC op hop⟩, hinv'⟩

/-- In every order of the steps the whole is a run of the threads together
with a run of the memory system. There, the operations of each process are
its program up to the program counter, in order, and its exit once it has
finished; the processes are loaded in the order of the configuration; and
the living processes of the memory are those of the scheduler. -/
theorem whole_runs_both {host : Nat → Bool} {ls : List (Sched.ThreadId × Mem.VmRg)}
    (hrun : Run (Step (machineStep w)) (w.start host) ls m) :
    Run (Step (Sched.simStep w.config)) (Sched.startSimulator w.config) (ls.map Prod.fst) m.sim ∧
      ∃ ops, Run (Step Mem.step) (Mem.boot w.memramsz w.memswpsz host) ops m.mem ∧
        (∀ x, doings (pidOf x) ops = ((w.code x).take (m.sim.os.pc x)).map some ++
          if x ∈ m.sim.os.finished then [none] else []) ∧
        loads ops = m.sim.os.ldNext ∧
        m.mem.runningList = m.sim.os.sched.running.map pidOf := by
  have hall : Run (MachineStep w fun _ _ _ => True) (w.start host) ls m :=
    hrun.mono fun _ _ _ hstep => ⟨hstep, fun _ _ => trivial⟩
  obtain ⟨hsim, ops, hops, hinv⟩ := WholeInv.of_run hall
  exact ⟨hsim, ops, hops.mono fun _ _ _ hstep => hstep.1, hinv.agree.doings, hinv.agree.loads,
    hinv.agree.running⟩

/-- A process that allocates a user page and a kernel page, writes to the
first and frees it. -/
def pagesWorkload : Workload where
  numCpus := 1
  numProcesses := 1
  timeSlot := 2
  startTime _ := 0
  prio _ := 7
  code _ := [{ opcode := .alloc, arg0 := 100, arg1 := 0 },
    { opcode := .kmalloc, arg0 := 100, arg1 := 1 },
    { opcode := .write, arg0 := 5, arg1 := 0, arg2 := 20 }, { opcode := .free, arg0 := 0 }]
  memramsz := 12288
  memswpsz := 4096

def pagesThreads : List Sched.ThreadId :=
  List.flatten [[.loader, .loader], List.replicate 3 (.cpu 0), List.replicate 5 .timer,
    [.loader, .loader, .loader, .timer], List.replicate 4 (.cpu 0), List.replicate 7 .timer,
    List.replicate 5 (.cpu 0), List.replicate 7 .timer, List.replicate 4 (.cpu 0),
    List.replicate 7 .timer, List.replicate 5 (.cpu 0), List.replicate 8 .timer,
    List.replicate 4 .main]

/-- Its run to the end of `main`, in five slots. -/
def pagesSchedule : List (Sched.ThreadId × Mem.VmRg) := pagesThreads.map fun th => (th, ⟨0, 0⟩)

/-- The steps of `machineStep` that keep the records. -/
def recordingMachine (w : Workload) : Machine → Sched.ThreadId × Mem.VmRg → Option Machine :=
  guarded (machineStep w) fun m l _ => (memoryOp w m.sim l.1 l.2).all fun op =>
    decide (op.NoSyscall ∧ op.LowGrowth m.mem ∧ op.KeepsRecords m.mem)

theorem pagesSchedule_returns : (exec (recordingMachine pagesWorkload)
    (pagesWorkload.start fun _ => true) pagesSchedule).any
    (fun m => m.sim.mainLoc = .returned) = true := by
  decide +kernel

theorem whole_runs_both_pages : ∃ m ops,
    Run (Step (machineStep pagesWorkload)) (pagesWorkload.start fun _ => true) pagesSchedule m ∧
      Run (Step Mem.step) (Mem.boot 12288 4096 fun _ => true) ops m.mem ∧ loads ops = 1 := by
  obtain ⟨m, hm, hret⟩ := (Option.any_eq_true _ _).mp pagesSchedule_returns
  have hrun := run_of_exec (exec_of_guarded hm)
  obtain ⟨hsim, ops, hops, -, hloads, -⟩ := whole_runs_both hrun
  have hpace := Sched.PaceInv.of_run (by decide) hsim
  refine ⟨m, ops, hrun, hops, ?_⟩
  rw [hloads]
  exact (hpace.end_of_returned (of_decide_eq_true hret)).1

end Ossim
