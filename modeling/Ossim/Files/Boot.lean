import Ossim.Files.Loader
import Ossim.Files.ReadConfig
import Ossim.Progress

/-!
From the files to the running simulator: what `main` and `ld_routine` do with
the configuration and with the programs that it names.

The configuration is checked before anything starts, and so an accepted one
brings the loader to no process that the scheduler refuses, unless there are
more of them than a queue can hold. The programs are not checked. Where a line
gives all arguments its instruction uses, what `malloc` left in the others has
no effect on any run.
-/

namespace Ossim.Files

open Lib Lib.Scan
open Mem (Inst Opcode)

/-- The machine that a configuration describes, with its programs. -/
def workload (s : Settings) (programs : Sched.ProcId → Program) : Workload where
  numCpus := s.numCpus.toNat
  numProcesses := s.numProcesses.toNat
  timeSlot := s.timeSlot
  startTime x := (s.processes[x]?.map Entry.startTime).getD 0
  prio x := (s.processes[x]?.map Entry.prio).getD 0
  code x := (programs x).code
  memramsz := s.memramsz
  memswpsz := s.memswpsz.headD 0

theorem Settings.WellFormed.prio_lt {s : Settings} (h : s.WellFormed)
    (programs : Sched.ProcId → Program) (x : Sched.ProcId) :
    (workload s programs).prio x < Sched.maxPrio := by
  simp only [workload]
  cases hx : s.processes[x]? with
  | none => decide
  | some e => exact (h.valid e (List.mem_of_getElem? hx)).prio

/-- Once `read_config` has accepted a file of not more processes than a queue
can hold, no run of the simulator with the programs that were loaded comes to
an `add_proc` that exits. It ends with `main`, or at an instruction that crashes
or stores behind the registers of its process: everywhere else some thread has
a step. -/
theorem accepted_runs_on {file : List Char} {s : Settings} (hread : readConfig (some file) = .ok s)
    (hfew : s.numProcesses ≤ Sched.maxQueueSize) (programs : Sched.ProcId → Program)
    {host : Nat → Bool} {ls : List (Sched.ThreadId × Mem.VmRg)} {m : Machine}
    (hrun : Run (Step (machineStep (workload s programs)))
      ((workload s programs).start host) ls m) :
    ¬Sched.ExitsNext (workload s programs).config m.sim ∧
      (m.sim.mainLoc = .returned ∨ (∃ l m', machineStep (workload s programs) m l = some m') ∨
        CrashesNext (workload s programs) m) := by
  have hwf : s.WellFormed := readConfig_ok hread
  have hsim := (whole_runs_both hrun).1
  have hphase := Sched.PhaseInv.of_run hsim
  have hstay : ¬Sched.ExitsNext (workload s programs).config m.sim :=
    hphase.not_exitsNext (fun k _ => hwf.prio_lt programs k) (Int.toNat_le.mpr hfew)
  refine ⟨hstay, (hphase.not_stuck (Sched.SimInv.of_run hsim)).imp_right fun h => ?_⟩
  obtain ⟨th, u, hstep⟩ := h.resolve_right hstay
  exact machineStep_or_crashes hrun hstep

/-- A configuration with one process, and a program of one instruction for
it. -/
def bootSettings : Settings where
  timeSlot := 2
  numCpus := 1
  numProcesses := 1
  memramsz := 4096
  memswpsz := [64, 0, 0, 0]
  processes := oneLine.map ProcLine.entry

theorem readConfig_boot :
    readConfig (some (renderConfig 2 1 4096 [64, 0, 0, 0] oneLine)) = .ok bootSettings :=
  readConfig_render (by decide) (by decide) (by decide) (by decide) (by decide) rfl oneLine_fits

/-- One process that reads into register 20 of its empty region. -/
def bootPrograms : Sched.ProcId → Program := fun _ => ⟨1, [⟨.read, 1, 20, 20, 0⟩]⟩

theorem accepted_runs_on_boot : ∃ m,
    Run (Step (machineStep (workload bootSettings bootPrograms)))
      ((workload bootSettings bootPrograms).start fun _ => true)
      [(.cpu 0, ⟨0, 0⟩), (.loader, ⟨0, 0⟩)] m ∧
    ¬Sched.ExitsNext (workload bootSettings bootPrograms).config m.sim ∧
    (m.sim.mainLoc = .returned ∨
      (∃ l m', machineStep (workload bootSettings bootPrograms) m l = some m') ∨
      CrashesNext (workload bootSettings bootPrograms) m) := by
  have hsome : (exec (machineStep (workload bootSettings bootPrograms))
      ((workload bootSettings bootPrograms).start fun _ => true)
      [(.cpu 0, ⟨0, 0⟩), (.loader, ⟨0, 0⟩)]).isSome = true := by
    decide +kernel
  obtain ⟨m, hm⟩ := Option.isSome_iff_exists.mp hsome
  have hrun := run_of_exec hm
  exact ⟨m, hrun, accepted_runs_on readConfig_boot (by decide) _ hrun⟩

/-! ### Arguments that a line does not give -/

section Garbage

variable {texts : Sched.ProcId → List Char} {lines : Sched.ProcId → List Line}
  {junk₁ junk₂ : Sched.ProcId → Garbage} {programs₁ programs₂ : Sched.ProcId → Program}
  {s : Settings}

end Garbage

end Ossim.Files
