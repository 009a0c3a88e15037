import Ossim.Lib.Run
import Ossim.Sched.CpuLoop

/-!
Idle CPUs at the end of the simulation.

The stop test of `cpu_routine` stands behind the recheck, and the branch
for a CPU without a process jumps over the recheck when the ready queues
are empty. So once the loader is done and nothing is left to run, a CPU
that is back at the top of the loop never reaches the test: it passes
slot after slot.
-/

namespace Ossim.Sched

open Ossim.Lib

/-- Nothing left to do: the loader has set `done`, every ready queue is
empty and no CPU holds a process. -/
def Idle (c : Config) (s : OsT) : Prop :=
  s.done = true ∧ (∀ p < maxPrio, s.sched.ready p = []) ∧
    ∀ i < c.numCpus, (s.cpu i).held = none

/-- CPU `i` takes the stop branch in its next iteration. -/
def StopsNext (c : Config) (s : OsT) (i : Nat) : Prop :=
  ∃ t, cpuIteration c i s = some t ∧ (t.cpu i).loc = .stopped

/-- Between iterations a CPU is at the top of the loop or has stopped. -/
def AtLoopHead (s : OsT) : Prop :=
  ∀ i, (s.cpu i).loc = .head ∨ (s.cpu i).loc = .stopped

/-! ### An iteration ends where the next one starts -/

theorem toIterationEnd_other {c : Config} {i j n : Nat} {s t : OsT}
    (h : toIterationEnd c i n s = some t) (hj : j ≠ i) : t.cpu j = s.cpu j := by
  induction n generalizing s with
  | zero =>
      cases h
      rfl
  | succ n ih =>
      obtain ⟨u, hu, hrest⟩ := Option.bind_eq_some_iff.mp h
      have hsame := cpuStep_other hu hj
      split at hrest
      · cases hrest
        exact hsame
      · rw [ih hrest, hsame]

/-- How many steps an iteration has left at most. -/
def CpuLoc.left : CpuLoc → Nat
  | .head => 4
  | .reload => 3
  | .recheck => 2
  | .nextSlot => 1
  | .stopped => 0

theorem cpuStep_left {c : Config} {s t : OsT} {i : Nat} (h : cpuStep c s i = some t)
    (hend : ¬((t.cpu i).loc = .head ∨ (t.cpu i).loc = .stopped)) :
    (t.cpu i).loc.left < (s.cpu i).loc.left := by
  cases cpuStep_cases h with
  | stop => simp at hend
  | slot => simp at hend
  | _ => simp_all [CpuLoc.left]

theorem toIterationEnd_loc {c : Config} {i n : Nat} {s t : OsT}
    (h : toIterationEnd c i n s = some t) (hn : (s.cpu i).loc.left ≤ n) :
    (t.cpu i).loc = .head ∨ (t.cpu i).loc = .stopped := by
  induction n generalizing s with
  | zero =>
      cases h
      cases hloc : (t.cpu i).loc <;> simp_all [CpuLoc.left]
  | succ n ih =>
      obtain ⟨u, hu, hrest⟩ := Option.bind_eq_some_iff.mp h
      split at hrest
      next hend =>
        cases hrest
        exact hend
      next hend =>
        have := cpuStep_left hu hend
        exact ih hrest (by omega)

theorem atLoopHead_step {c : Config} {s t : OsT} {turn : Turn} (hs : AtLoopHead s)
    (h : Step (osIteration c) s turn t) : AtLoopHead t := by
  intro j
  unfold Step at h
  cases turn with
  | cpu i =>
      simp only [osIteration] at h
      split at h
      · by_cases hj : j = i
        · subst hj
          refine toIterationEnd_loc h ?_
          cases (s.cpu j).loc <;> decide
        · rw [toIterationEnd_other h hj]
          exact hs j
      · cases h
  | loader =>
      simp only [osIteration, ldStep] at h
      split at h
      · split at h
        · cases h
          exact hs j
        · obtain ⟨u, -, rfl⟩ := Option.map_eq_some_iff.mp h
          exact hs j
      · split at h
        · cases h
        · cases h
          exact hs j
  | timer =>
      cases h
      exact hs j

/-! ### The idle iteration -/

/-- With nothing to fetch, an iteration of a CPU without a process is one
failed load and one slot: it ends where it began. -/
theorem cpuIteration_idle {c : Config} {s : OsT} {i : Nat}
    (hready : ∀ p < maxPrio, s.sched.ready p = []) (hloc : (s.cpu i).loc = .head)
    (hproc : (s.cpu i).proc = none) :
    ∃ t, cpuIteration c i s = some t ∧ t.cpu i = s.cpu i := by
  have hget : (getMlqProc s.sched).1 = none := by
    obtain ⟨-, hnone, -⟩ | ⟨p, x, -, hd⟩ := getMlqProc_spec s.sched
    · exact hnone
    · have hhead := hd.head
      rw [hready p hd.lt] at hhead
      cases hhead
  refine ⟨_, by simp [cpuIteration, toIterationEnd, cpuStep, hloc, hproc, hget]; rfl, ?_⟩
  simp only [cpu_setCpu_self]
  cases hme : s.cpu i
  simp_all

/-- In a state with nothing left to do, every CPU that has not stopped takes
the stop branch next exactly if there is no such CPU. -/
theorem idle_stopsNext_iff (c : Config) {turns : List Turn} {s : OsT}
    (hreach : Run (Step (osIteration c)) initOs turns s) (hidle : Idle c s) :
    (∀ i < c.numCpus, (s.cpu i).loc ≠ .stopped → StopsNext c s i) ↔
      ∀ i < c.numCpus, (s.cpu i).loc = .stopped := by
  obtain ⟨-, hready, hheld⟩ := hidle
  have hhead : AtLoopHead s :=
    hreach.invariant (fun _ _ _ hs hstep => atLoopHead_step hs hstep) fun _ => .inl rfl
  constructor
  · intro hstop i hi
    by_contra hrunning
    have hloc : (s.cpu i).loc = .head := (hhead i).resolve_right hrunning
    have hproc : (s.cpu i).proc = none := by simpa [Cpu.held, hloc] using hheld i hi
    obtain ⟨t, ht, hsame⟩ := cpuIteration_idle (c := c) hready hloc hproc
    obtain ⟨u, hu, hstopped⟩ := hstop i hi hrunning
    rw [ht] at hu
    cases hu
    rw [hsame, hloc] at hstopped
    cases hstopped
  · intro hall i hi hrunning
    exact absurd (hall i hi) hrunning

/-- Two CPUs and one process of one instruction. -/
def twoCpus : Config where
  numCpus := 2
  numProcesses := 1
  timeSlot := 2
  startTime _ := 0
  prio _ := 0
  codeSize _ := 1

/-- CPU 0 runs and finishes the only process and stops; CPU 1, which never
got a process, is left at the top of its loop. -/
theorem twoCpus_reaches_idle :
    ∃ s, Run (Step (osIteration twoCpus)) initOs [.loader, .cpu 0, .loader, .cpu 0] s ∧
      Idle twoCpus s ∧ (s.cpu 1).loc = .head ∧ (s.cpu 1).proc = none := by
  obtain ⟨s, hs⟩ : ∃ s, exec (osIteration twoCpus) initOs
      [.loader, .cpu 0, .loader, .cpu 0] = some s := ⟨_, rfl⟩
  have hfacts : (exec (osIteration twoCpus) initOs [.loader, .cpu 0, .loader, .cpu 0]).all
      (fun s => s.done && (List.range maxPrio).all (fun p => s.sched.ready p == []) &&
        ((s.cpu 0).proc == none) && ((s.cpu 1).loc == .head) &&
        ((s.cpu 1).proc == none)) = true := by
    decide +kernel
  rw [hs] at hfacts
  simp only [Option.all_some, Bool.and_eq_true, List.all_eq_true, List.mem_range,
    beq_iff_eq] at hfacts
  obtain ⟨⟨⟨⟨hdone, hready⟩, hproc0⟩, hhead⟩, hproc1⟩ := hfacts
  refine ⟨s, run_of_exec hs, ⟨hdone, hready, ?_⟩, hhead, hproc1⟩
  intro i hi
  have hi' : i = 0 ∨ i = 1 := by simp only [twoCpus] at hi; omega
  rcases hi' with rfl | rfl
  · simp [Cpu.held, hproc0]
  · simp [Cpu.held, hproc1]

theorem twoCpus_not_stopsNext :
    ∃ s, Run (Step (osIteration twoCpus)) initOs [.loader, .cpu 0, .loader, .cpu 0] s ∧
      Idle twoCpus s ∧ 1 < twoCpus.numCpus ∧ (s.cpu 1).loc ≠ .stopped ∧
      ¬StopsNext twoCpus s 1 := by
  obtain ⟨s, hrun, hidle, hhead, hproc⟩ := twoCpus_reaches_idle
  refine ⟨s, hrun, hidle, by decide, by rw [hhead]; decide, ?_⟩
  rintro ⟨u, hu, hloc⟩
  obtain ⟨t, ht, hsame⟩ := cpuIteration_idle (c := twoCpus) hidle.2.1 hhead hproc
  rw [ht] at hu
  cases hu
  rw [hsame, hhead] at hloc
  cases hloc

theorem idle_stopsNext_iff_twoCpus :
    ∃ s, Run (Step (osIteration twoCpus)) initOs [.loader, .cpu 0, .loader, .cpu 0] s ∧
      Idle twoCpus s ∧
      ((∀ i < twoCpus.numCpus, (s.cpu i).loc ≠ .stopped → StopsNext twoCpus s i) ↔
        ∀ i < twoCpus.numCpus, (s.cpu i).loc = .stopped) := by
  obtain ⟨s, hrun, hidle, -⟩ := twoCpus_reaches_idle
  exact ⟨s, hrun, hidle, idle_stopsNext_iff twoCpus hrun hidle⟩

end Ossim.Sched
