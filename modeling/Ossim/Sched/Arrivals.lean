import Ossim.Sched.Simulator

/-!
When the processes arrive.

The loader works in slots like every thread: it waits for the start time of
a process one slot at a time, and after it has added one it goes to the next
slot before it turns to another. So the slot in which a process is added is
a function of the configuration alone, whatever the order of the threads.
-/

namespace Ossim.Sched

open Ossim.Lib

variable (c : Config)

/-- The slot in which the loader turns to process `k`. -/
def freeAt : Nat → Nat
  | 0 => 0
  | k + 1 => max (c.startTime k) (freeAt k) + 1

/-- The slot in which process `k` is added. -/
def arrival (k : Nat) : Nat := max (c.startTime k) (freeAt c k)

theorem freeAt_succ (k : Nat) : freeAt c (k + 1) = arrival c k + 1 := rfl

theorem freeAt_mono : Monotone (freeAt c) := by
  apply monotone_nat_of_le_succ
  intro k
  rw [freeAt_succ, arrival]
  omega

theorem arrival_lt {j k : Nat} (h : j < k) : arrival c j < arrival c k := by
  have hmono := freeAt_mono c (Nat.succ_le_of_lt h)
  rw [Nat.succ_eq_add_one, freeAt_succ] at hmono
  rw [arrival.eq_def c k]
  omega

/-- The last slot in which the loader looks at process `k`, or at the end of
the list. -/
def lastLook (k : Nat) : Nat := if k < c.numProcesses then arrival c k else freeAt c k

theorem freeAt_le_lastLook (k : Nat) : freeAt c k ≤ lastLook c k := by
  rw [lastLook]
  split
  · exact Nat.le_max_right ..
  · exact Nat.le_refl _

variable {c} {s t : Simulator} {i : Nat}

theorem lastLook_le {k : Nat} (hk : k ≤ c.numProcesses) :
    lastLook c k ≤ freeAt c c.numProcesses := by
  rw [lastLook]
  split
  · rename_i hlt
    have hmono : freeAt c (k + 1) ≤ freeAt c c.numProcesses := freeAt_mono c hlt
    rw [freeAt_succ] at hmono
    exact Nat.le_of_succ_le hmono
  · exact freeAt_mono c hk

/-! ### The slots of the threads -/

/-- A thread at work is in the slot of the time. -/
theorem SimInv.slot_of_working (h : SimInv c s) (hi : i ≤ c.numCpus)
    (hwork : (s.timer.threads i).phase = .working) : (s.timer.threads i).slot = s.os.time := by
  obtain ⟨evs, hinv⟩ := h.timer
  have hmem := mem_devices h hi
  have hle : (s.timer.threads i).slot ≤ _ := (hinv.device i hmem).le
  have hge := hinv.ticks_le_finished hmem (by rw [hwork]; decide)
  rw [Party.finished, if_neg (by rw [hwork]; decide)] at hge
  rw [h.time, hinv.time]
  exact Nat.le_antisymm hle hge

/-- One that waits is in that slot, or still in the one before. -/
theorem SimInv.slot_of_waiting (h : SimInv c s) (hi : i ≤ c.numCpus)
    (hwait : (s.timer.threads i).phase = .waiting) :
    (s.timer.threads i).slot ≤ s.os.time ∧ s.os.time ≤ (s.timer.threads i).slot + 1 := by
  obtain ⟨evs, hinv⟩ := h.timer
  have hmem := mem_devices h hi
  have hle : (s.timer.threads i).slot ≤ _ := (hinv.device i hmem).le
  have hge := hinv.ticks_le_finished hmem (by rw [hwait]; decide)
  rw [Party.finished, if_pos hwait] at hge
  rw [h.time, hinv.time]
  exact ⟨hle, hge⟩

/-! ### Where the loader is -/

/-- The loader is never early and never late. -/
structure ArrivalInv (c : Config) (s : Simulator) : Prop where
  next : s.os.ldNext ≤ c.numProcesses
  load : s.ldLoc = .load → freeAt c s.os.ldNext ≤ (s.timer.threads c.numCpus).slot ∧
    (s.timer.threads c.numCpus).slot ≤ lastLook c s.os.ldNext
  nextSlot : s.ldLoc = .nextSlot → freeAt c s.os.ldNext ≤ (s.timer.threads c.numCpus).slot + 1 ∧
    (s.timer.threads c.numCpus).slot + 1 ≤ lastLook c s.os.ldNext
  detach : s.ldLoc = .detach ∨ s.ldLoc = .gone →
    s.os.ldNext = c.numProcesses ∧ freeAt c c.numProcesses ≤ s.os.time

theorem PhaseInv.ld_working (h : PhaseInv c s) (hload : s.ldLoc = .load ∨ s.ldLoc = .detach) :
    (s.timer.threads c.numCpus).phase = .working := by
  cases hphase : (s.timer.threads c.numCpus).phase with
  | working => rfl
  | waiting =>
      have hslot := h.ld hphase
      rcases hload with hload | hload <;> rw [hload] at hslot <;> cases hslot
  | left =>
      have hgone := h.gone.mpr hphase
      rcases hload with hload | hload <;> rw [hload] at hgone <;> cases hgone

namespace ArrivalInv

theorem start (c : Config) : ArrivalInv c (startSimulator c) := by
  rw [startSimulator, attached_eq]
  exact ⟨Nat.zero_le _, fun _ => ⟨Nat.zero_le _, Nat.zero_le _⟩, fun h => (by cases h),
    fun h => by rcases h with h | h <;> cases h⟩

/-- A step of another thread, which may let time pass. -/
theorem frame (h : ArrivalInv c s) (hnext : t.os.ldNext = s.os.ldNext) (hloc : t.ldLoc = s.ldLoc)
    (hslot : (t.timer.threads c.numCpus).slot = (s.timer.threads c.numCpus).slot)
    (htime : s.os.time ≤ t.os.time) : ArrivalInv c t := by
  refine ⟨?_, ?_, ?_, ?_⟩ <;> rw [hnext]
  · exact h.next
  · rw [hloc, hslot]
    exact h.load
  · rw [hloc, hslot]
    exact h.nextSlot
  · rw [hloc]
    intro hdetach
    obtain ⟨hend, hle⟩ := h.detach hdetach
    exact ⟨hend, Nat.le_trans hle htime⟩

/-- The loader adds a process in its slot. -/
theorem time_eq_arrival (h : ArrivalInv c s) (hsim : SimInv c s) (hphase : PhaseInv c s)
    (hloc : s.ldLoc = .load) (hnext : s.os.ldNext < c.numProcesses)
    (htime : c.startTime s.os.ldNext ≤ s.os.time) : s.os.time = arrival c s.os.ldNext := by
  have hslot := hsim.slot_of_working (Nat.le_refl _) (hphase.ld_working (.inl hloc))
  obtain ⟨hle, hge⟩ := h.load hloc
  rw [lastLook, if_pos hnext] at hge
  rw [hslot] at hle hge
  exact Nat.le_antisymm hge (Nat.max_le.mpr ⟨htime, hle⟩)

/-- The loader ends in the slot after the last process. -/
theorem time_eq_freeAt (h : ArrivalInv c s) (hsim : SimInv c s) (hphase : PhaseInv c s)
    (hloc : s.ldLoc = .load) (hnext : c.numProcesses ≤ s.os.ldNext) :
    s.os.ldNext = c.numProcesses ∧ s.os.time = freeAt c c.numProcesses := by
  have heq := Nat.le_antisymm h.next hnext
  have hslot := hsim.slot_of_working (Nat.le_refl _) (hphase.ld_working (.inl hloc))
  obtain ⟨hle, hge⟩ := h.load hloc
  rw [lastLook, if_neg (Nat.not_lt.mpr hnext)] at hge
  rw [hslot, heq] at hle hge
  exact ⟨heq, Nat.le_antisymm hge hle⟩

theorem step (h : ArrivalInv c s) (hsim : SimInv c s) (hphase : PhaseInv c s) {th : ThreadId}
    (hstep : simStep c s th = some t) : ArrivalInv c t := by
  have hother {i : Nat} {x : Party} (hi : i < c.numCpus) :
      Function.update s.timer.threads i x c.numCpus = s.timer.threads c.numCpus :=
    Function.update_of_ne (Nat.ne_of_lt hi).symm ..
  have hwork (hloc : s.ldLoc = .load) : (s.timer.threads c.numCpus).slot = s.os.time :=
    hsim.slot_of_working (Nat.le_refl _) (hphase.ld_working (.inl hloc))
  cases simStep_cases hstep with
  | report hi =>
      exact h.frame rfl rfl (by simp only [threads_reported, hother hi]) (Nat.le_refl _)
  | pass hi hloc hwait hdone hcpu =>
      exact h.frame (cpuStep_loader hcpu).2 rfl (by simp only [threads_passed, hother hi])
        (Nat.le_of_eq (cpuStep_time hcpu).symm)
  | leave hi =>
      exact h.frame rfl rfl (by simp only [threads_detached, hother hi]) (Nat.le_refl _)
  | cpu hi hslot hcpu =>
      exact h.frame (cpuStep_loader hcpu).2 rfl rfl (Nat.le_of_eq (cpuStep_time hcpu).symm)
  | wait hloc hnext htime =>
      obtain ⟨hle, -⟩ := h.load hloc
      refine ⟨h.next, fun hfalse => (by cases hfalse), fun _ => ⟨Nat.le_succ_of_le hle, ?_⟩,
        fun hfalse => by rcases hfalse with hfalse | hfalse <;> cases hfalse⟩
      change (s.timer.threads c.numCpus).slot + 1 ≤ _
      rw [hwork hloc, lastLook, if_pos hnext]
      exact Nat.le_trans htime (Nat.le_max_left ..)
  | add hloc hnext htime hadd =>
      have harrive := h.time_eq_arrival hsim hphase hloc hnext htime
      have hfree : freeAt c (s.os.ldNext + 1) = (s.timer.threads c.numCpus).slot + 1 := by
        rw [freeAt_succ, ← harrive, hwork hloc]
      refine ⟨hnext, fun hfalse => (by cases hfalse), fun _ => ⟨Nat.le_of_eq hfree, ?_⟩,
        fun hfalse => by rcases hfalse with hfalse | hfalse <;> cases hfalse⟩
      exact Nat.le_trans (Nat.le_of_eq hfree.symm) (freeAt_le_lastLook c _)
  | setDone hloc hnext hdone =>
      obtain ⟨heq, htime⟩ := h.time_eq_freeAt hsim hphase hloc hnext
      exact ⟨h.next, fun hfalse => (by cases hfalse), fun hfalse => (by cases hfalse),
        fun _ => ⟨heq, Nat.le_of_eq htime.symm⟩⟩
  | ldReport hloc =>
      exact h.frame rfl rfl (by simp [Party.report]) (Nat.le_refl _)
  | ldPass hloc hwait hdone =>
      obtain ⟨hle, hge⟩ := h.nextSlot hloc
      refine ⟨h.next, fun _ => ?_, fun hfalse => (by cases hfalse),
        fun hfalse => by rcases hfalse with hfalse | hfalse <;> cases hfalse⟩
      simp only [threads_passed, Function.update_self, Party.pass]
      exact ⟨hle, hge⟩
  | ldLeave hloc =>
      obtain ⟨heq, htime⟩ := h.detach (.inl hloc)
      exact ⟨h.next, fun hfalse => (by cases hfalse), fun hfalse => (by cases hfalse),
        fun _ => ⟨heq, htime⟩⟩
  | timer hawake hev htm =>
      obtain ⟨hthreads, -, htime⟩ := timerStep_event hev htm
      refine h.frame rfl rfl (by simp only [hthreads]) ?_
      rw [hsim.time, htime]
      exact Nat.le_add_right ..
  | join | stop | finish => exact h.frame rfl rfl rfl (Nat.le_refl _)

theorem of_run {ths : List ThreadId} (hrun : Run (Step (simStep c)) (startSimulator c) ths s) :
    ArrivalInv c s := by
  suffices h : SimInv c s ∧ PhaseInv c s ∧ ArrivalInv c s from h.2.2
  exact hrun.invariant (I := fun s => SimInv c s ∧ PhaseInv c s ∧ ArrivalInv c s)
    (fun _ _ _ hs hstep => ⟨hs.1.step hstep, hs.2.1.step hstep, hs.2.2.step hs.1 hs.2.1 hstep⟩)
    ⟨.start c, .start c, .start c⟩

/-- What the loader has not added after the slot of a process is a later one. -/
theorem lt_ldNext (h : ArrivalInv c s) (hsim : SimInv c s) (hphase : PhaseInv c s) {k : Nat}
    (hk : k < c.numProcesses) (htime : arrival c k < s.os.time) : k < s.os.ldNext := by
  by_contra hnot
  have hle := Nat.not_lt.mp hnot
  have hlast : lastLook c s.os.ldNext ≤ arrival c k := by
    rw [lastLook, if_pos (Nat.lt_of_le_of_lt hle hk)]
    rcases Nat.eq_or_lt_of_le hle with heq | hlt
    · rw [heq]
    · exact Nat.le_of_lt (arrival_lt c hlt)
  have hend : s.ldLoc ≠ .detach ∧ s.ldLoc ≠ .gone := by
    refine not_or.mp fun hdetach => ?_
    have heq := (h.detach hdetach).1
    omega
  cases hloc : s.ldLoc with
  | load =>
      have hslot := hsim.slot_of_working (Nat.le_refl _) (hphase.ld_working (.inl hloc))
      have hload := (h.load hloc).2
      omega
  | nextSlot =>
      have hslot := (h.nextSlot hloc).2
      cases hp : (s.timer.threads c.numCpus).phase with
      | working =>
          have hwork := hsim.slot_of_working (Nat.le_refl _) hp
          omega
      | waiting =>
          have hwait := hsim.slot_of_waiting (Nat.le_refl _) hp
          omega
      | left => exact hend.2 (hphase.gone.mpr hp)
  | detach => exact hend.1 hloc
  | gone => exact hend.2 hloc

/-- After the slot behind the last process the loader has ended. -/
theorem detached_of_lt (h : ArrivalInv c s) (hsim : SimInv c s) (hphase : PhaseInv c s)
    (htime : freeAt c c.numProcesses < s.os.time) : s.ldLoc = .detach ∨ s.ldLoc = .gone := by
  have hlast := lastLook_le h.next
  cases hloc : s.ldLoc with
  | load =>
      have hslot := hsim.slot_of_working (Nat.le_refl _) (hphase.ld_working (.inl hloc))
      have hload := (h.load hloc).2
      omega
  | nextSlot =>
      have hslot := (h.nextSlot hloc).2
      cases hp : (s.timer.threads c.numCpus).phase with
      | working =>
          have hwork := hsim.slot_of_working (Nat.le_refl _) hp
          omega
      | waiting =>
          have hwait := hsim.slot_of_waiting (Nat.le_refl _) hp
          omega
      | left =>
          rw [hphase.gone.mpr hp] at hloc
          cases hloc
  | detach => exact .inl rfl
  | gone => exact .inr rfl

theorem arrival_le_time (h : ArrivalInv c s) (hsim : SimInv c s) (hphase : PhaseInv c s) {k : Nat}
    (hk : k < s.os.ldNext) : arrival c k ≤ s.os.time := by
  have hfree : arrival c k + 1 ≤ freeAt c s.os.ldNext := freeAt_mono c (Nat.succ_le_of_lt hk)
  cases hloc : s.ldLoc with
  | load =>
      have hslot := hsim.slot_of_working (Nat.le_refl _) (hphase.ld_working (.inl hloc))
      have hload := (h.load hloc).1
      omega
  | nextSlot =>
      have hslot := (h.nextSlot hloc).1
      cases hp : (s.timer.threads c.numCpus).phase with
      | working =>
          have hwork := hsim.slot_of_working (Nat.le_refl _) hp
          omega
      | waiting =>
          have hwait := hsim.slot_of_waiting (Nat.le_refl _) hp
          omega
      | left =>
          rw [hphase.gone.mpr hp] at hloc
          cases hloc
  | detach =>
      obtain ⟨heq, hend⟩ := h.detach (.inl hloc)
      rw [heq] at hfree
      omega
  | gone =>
      obtain ⟨heq, hend⟩ := h.detach (.inr hloc)
      rw [heq] at hfree
      omega

end ArrivalInv

/-- The loader sets `done` before it leaves. -/
theorem done_of_detached {ths : List ThreadId}
    (hrun : Run (Step (simStep c)) (startSimulator c) ths s) :
    s.ldLoc = .detach ∨ s.ldLoc = .gone → s.os.done = true := by
  refine hrun.invariant (I := fun s => s.ldLoc = .detach ∨ s.ldLoc = .gone → s.os.done = true)
    (fun s th t h hstep => ?_) fun h => ?_
  · cases simStep_cases hstep with
    | pass _ _ _ _ hcpu | cpu _ _ hcpu =>
        intro hloc
        exact (cpuStep_loader hcpu).1.trans (h hloc)
    | setDone => exact fun _ => rfl
    | ldLeave hloc => exact fun _ => h (.inl hloc)
    | wait | add | ldPass =>
        rintro (hloc | hloc)
        · cases hloc
        · cases hloc
    | report | leave | ldReport | timer | join | stop | finish => exact h
  · obtain h | h := h
    · cases h
    · cases h

/-- In every order of the steps, process `k` is added in slot `arrival c k`:
a step of the loader that adds it finds that time, before that slot it is not
there, and after it, it is. The flag `done` is set in the slot after the last
process: before that slot it is not set, and after it, it is. -/
theorem arrivals_exact {ths : List ThreadId}
    (hrun : Run (Step (simStep c)) (startSimulator c) ths s) :
    (∀ k < c.numProcesses, (k < s.os.ldNext → arrival c k ≤ s.os.time) ∧
      (arrival c k < s.os.time → k < s.os.ldNext)) ∧
    (s.os.done = true → freeAt c c.numProcesses ≤ s.os.time) ∧
    (freeAt c c.numProcesses < s.os.time → s.os.done = true) ∧
    ∀ t, simStep c s .loader = some t →
      (s.os.ldNext < t.os.ldNext →
        t.os.ldNext = s.os.ldNext + 1 ∧ s.os.time = arrival c s.os.ldNext) ∧
      (s.os.done = false → t.os.done = true →
        s.os.ldNext = c.numProcesses ∧ s.os.time = freeAt c c.numProcesses) := by
  have hsim := SimInv.of_run hrun
  have hphase := PhaseInv.of_run hrun
  have h := ArrivalInv.of_run hrun
  refine ⟨fun k hk => ⟨fun hlt => h.arrival_le_time hsim hphase hlt,
    fun hlt => h.lt_ldNext hsim hphase hk hlt⟩, fun hdone => (h.detach (hphase.done hdone)).2,
    fun hlt => done_of_detached hrun (h.detached_of_lt hsim hphase hlt), fun t hstep => ?_⟩
  cases simStep_cases hstep with
  | add hloc hnext htime hadd =>
      refine ⟨fun _ => ⟨rfl, h.time_eq_arrival hsim hphase hloc hnext htime⟩, fun hnot hd => ?_⟩
      rw [hnot] at hd
      cases hd
  | setDone hloc hnext hdone =>
      exact ⟨fun hlt => absurd hlt (Nat.lt_irrefl _),
        fun _ _ => h.time_eq_freeAt hsim hphase hloc hnext⟩
  | wait | ldReport | ldPass | ldLeave =>
      refine ⟨fun hlt => absurd hlt (Nat.lt_irrefl _), fun hnot hd => ?_⟩
      rw [hnot] at hd
      cases hd

/-- A process with start time 1 is added in slot 1. -/
def lateProcess : Config := { oneProcess 1 with startTime := fun _ => 1 }

def untilAdded : List ThreadId :=
  List.flatten [[.loader, .loader, .cpu 0, .cpu 0], List.replicate 5 .timer, [.loader]]

theorem untilAdded_adds : (exec (simStep lateProcess) (startSimulator lateProcess)
    untilAdded).any (fun s => (simStep lateProcess s .loader).any
      fun t => s.os.ldNext < t.os.ldNext) = true := by
  decide +kernel

theorem arrivals_exact_lateProcess : ∃ s t,
    Run (Step (simStep lateProcess)) (startSimulator lateProcess) untilAdded s ∧
      simStep lateProcess s .loader = some t ∧ s.os.ldNext < t.os.ldNext ∧
      s.os.time = arrival lateProcess s.os.ldNext := by
  obtain ⟨s, hs, hany⟩ := (Option.any_eq_true _ _).mp untilAdded_adds
  obtain ⟨t, ht, hlt⟩ := (Option.any_eq_true _ _).mp hany
  have hlt := of_decide_eq_true hlt
  have hrun := run_of_exec hs
  exact ⟨s, t, hrun, ht, hlt, (((arrivals_exact hrun).2.2.2 t ht).1 hlt).2⟩

end Ossim.Sched
