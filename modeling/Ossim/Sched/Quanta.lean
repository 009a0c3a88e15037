import Ossim.Sched.Accounting

/-!
Programs run in order and in full quanta.

A run of the CPUs is recorded as the events of each process: dispatch,
executed instruction, requeue and finish, with the CPU they happen on. The
record is compared with the life of a process as it should be: it is put on
a CPU, executes exactly `time_slot` instructions there before it is queued
again, and leaves earlier only when its program is at the end.

The variable `time_left` is shared by all branches of the loop. What it
says about the process at hand depends on where the CPU stands, and it says
nothing about a process whose program has ended; that one is taken off the
CPU by the test that comes first.
-/

namespace Ossim.Sched

open Ossim.Lib

/-! ### The record -/

/-- What happens to a process, and on which CPU. -/
inductive ProcEvent
  | dispatch (cpu : Nat)
  | exec (cpu pc : Nat)
  | requeue (cpu : Nat)
  | finish (cpu : Nat)
  deriving DecidableEq

variable (c : Config)

/-- The event of a step of CPU `i`. -/
def cpuEvent (s : OsT) (i : Nat) : Option (ProcId × ProcEvent) :=
  match (s.cpu i).loc, (s.cpu i).proc with
  | .head, none | .reload, _ => (getMlqProc s.sched).1.map (·, .dispatch i)
  | .head, some p =>
    if s.pc p = c.codeSize p then some (p, .finish i)
    else if (s.cpu i).timeLeft = 0 then some (p, .requeue i)
    else none
  | .recheck, some p => if s.pc p ≥ c.codeSize p then none else some (p, .exec i (s.pc p))
  | _, _ => none

abbrev ProcLog := List (ProcId × ProcEvent)

/-- A step together with its event. -/
def logStep (x : OsT × ProcLog) (turn : Turn) : Option (OsT × ProcLog) :=
  (osStep c x.1 turn).map fun t => (t, match turn with
    | .cpu i => x.2 ++ (cpuEvent c x.1 i).toList
    | _ => x.2)

/-- The events of one process. -/
def eventsOf (p : ProcId) (log : ProcLog) : List ProcEvent :=
  log.filterMap fun e => if e.1 = p then some e.2 else none

/-- The instructions that were executed, in order. -/
def executed (evs : List ProcEvent) : List Nat :=
  evs.filterMap fun
    | .exec _ pc => some pc
    | _ => none

/-! ### The life of a process -/

inductive ProcState
  | ready
  /-- on a CPU, with the instructions executed since the dispatch -/
  | running (cpu ran : Nat)
  | finished

/-- How a process may get from one state to the next, with quanta of `ts`
instructions. -/
inductive Life (ts : Nat) : List ProcEvent → ProcState → Prop
  | new : Life ts [] .ready
  | dispatch {l : List ProcEvent} (i : Nat) (h : Life ts l .ready) :
      Life ts (l ++ [.dispatch i]) (.running i 0)
  | exec {l : List ProcEvent} {i n : Nat} (pc : Nat) (h : Life ts l (.running i n)) (hlt : n < ts) :
      Life ts (l ++ [.exec i pc]) (.running i (n + 1))
  | requeue {l : List ProcEvent} {i : Nat} (h : Life ts l (.running i ts)) :
      Life ts (l ++ [.requeue i]) .ready
  | finish {l : List ProcEvent} {i n : Nat} (h : Life ts l (.running i n)) :
      Life ts (l ++ [.finish i]) .finished

namespace Life

variable {ts : Nat} {l : List ProcEvent} {st : ProcState}

theorem ran_le {i n : Nat} (h : Life ts l st) (hst : st = .running i n) : n ≤ ts := by
  cases h with
  | new => cases hst
  | dispatch _ _ =>
      cases hst
      exact Nat.zero_le _
  | exec pc h hlt =>
      cases hst
      exact hlt
  | requeue h => cases hst
  | finish h => cases hst

/-- A beginning of a life is a life. -/
theorem take {pre post : List ProcEvent} (h : Life ts (pre ++ post) st) : ∃ st, Life ts pre st := by
  generalize hl : pre ++ post = l at h
  induction h generalizing post with
  | new =>
      rw [List.append_eq_nil_iff.mp hl |>.1]
      exact ⟨_, .new⟩
  | dispatch i h ih | exec pc h hlt ih | requeue h ih | finish h ih =>
      rcases List.eq_nil_or_concat post with rfl | ⟨post', e, rfl⟩
      · rw [List.append_nil] at hl
        rw [hl]
        first
          | exact ⟨_, .dispatch i h⟩ | exact ⟨_, .exec pc h hlt⟩ | exact ⟨_, .requeue h⟩
          | exact ⟨_, .finish h⟩
      · rw [List.concat_eq_append, ← List.append_assoc] at hl
        exact ih (List.append_inj_left' hl rfl)

/-- The last of the events behind a given one. -/
theorem concat_split {a b e : ProcEvent} {pre rest : List ProcEvent}
    (h : l ++ [a] = pre ++ b :: rest.concat e) : l = pre ++ b :: rest ∧ a = e := by
  rw [List.concat_eq_append, ← List.cons_append, ← List.append_assoc] at h
  obtain ⟨hleft, hright⟩ := List.append_inj' h rfl
  exact ⟨hleft, (List.cons.inj hright).1⟩

/-- What follows a dispatch, up to the next requeue: instructions on the same
CPU, at most a quantum of them, and perhaps the end of the program. -/
theorem after_dispatch (h : Life ts l st) {pre rest : List ProcEvent} {i : Nat}
    (hl : l = pre ++ .dispatch i :: rest) (hno : ∀ j, ProcEvent.requeue j ∉ rest) :
    ∃ execs, (∀ e ∈ execs, ∃ pc, e = ProcEvent.exec i pc) ∧ execs.length ≤ ts ∧
      (rest = execs ∧ st = .running i execs.length ∨
        rest = execs ++ [.finish i] ∧ st = .finished) := by
  induction h generalizing rest with
  | new => simp at hl
  | @dispatch l j h ih =>
      rcases List.eq_nil_or_concat rest with rfl | ⟨rest', e, rfl⟩
      · obtain ⟨-, heq⟩ := List.append_inj' hl rfl
        cases heq
        exact ⟨[], by simp, Nat.zero_le _, .inl ⟨rfl, rfl⟩⟩
      · -- a second dispatch needs a requeue before it
        obtain ⟨hsplit, -⟩ := concat_split hl
        obtain ⟨execs, -, -, ⟨-, hst⟩ | ⟨-, hst⟩⟩ := ih hsplit fun k hk => hno k (by simp [hk])
        all_goals cases hst
  | @exec l j n pc h hlt ih =>
      rcases List.eq_nil_or_concat rest with rfl | ⟨rest', e, rfl⟩
      · cases (List.append_inj' hl rfl).2
      · obtain ⟨hsplit, rfl⟩ := concat_split hl
        obtain ⟨execs, hexec, -, ⟨rfl, hst⟩ | ⟨-, hst⟩⟩ :=
          ih hsplit fun k hk => hno k (by simp [hk])
        · cases hst
          refine ⟨rest' ++ [.exec i pc], fun e he => ?_, ?_, .inl ⟨by simp, by simp⟩⟩
          swap
          · rw [List.length_append]
            exact hlt
          rcases List.mem_append.mp he with he | he
          · exact hexec e he
          · exact ⟨pc, List.mem_singleton.mp he⟩
        · cases hst
  | @requeue l j h ih =>
      rcases List.eq_nil_or_concat rest with rfl | ⟨rest', e, rfl⟩
      · cases (List.append_inj' hl rfl).2
      · obtain ⟨-, rfl⟩ := concat_split hl
        exact absurd (by simp) (hno j)
  | @finish l j n h ih =>
      rcases List.eq_nil_or_concat rest with rfl | ⟨rest', e, rfl⟩
      · cases (List.append_inj' hl rfl).2
      · obtain ⟨hsplit, rfl⟩ := concat_split hl
        obtain ⟨execs, hexec, hle, ⟨rfl, hst⟩ | ⟨-, hst⟩⟩ :=
          ih hsplit fun k hk => hno k (by simp [hk])
        · cases hst
          exact ⟨rest', hexec, hle, .inr ⟨by simp, rfl⟩⟩
        · cases hst

theorem before_requeue {i : Nat} (h : Life ts (l ++ [.requeue i]) st) :
    Life ts l (.running i ts) := by
  generalize hl : l ++ [ProcEvent.requeue i] = l' at h
  cases h with
  | new => simp at hl
  | dispatch j h => cases (List.append_inj' hl rfl).2
  | exec pc h hlt => cases (List.append_inj' hl rfl).2
  | requeue h =>
      obtain ⟨rfl, heq⟩ := List.append_inj' hl rfl
      cases heq
      exact h
  | finish h => cases (List.append_inj' hl rfl).2

/-- Nothing comes after the finish. -/
theorem after_finish (h : Life ts l st) {pre rest : List ProcEvent} {i : Nat}
    (hl : l = pre ++ .finish i :: rest) : rest = [] ∧ st = .finished := by
  induction h generalizing rest with
  | new => simp at hl
  | dispatch j h ih | exec pc h hlt ih | requeue h ih =>
      rcases List.eq_nil_or_concat rest with rfl | ⟨rest', e, rfl⟩
      · cases (List.append_inj' hl rfl).2
      · cases (ih (concat_split hl).1).2
  | finish h ih =>
      rcases List.eq_nil_or_concat rest with rfl | ⟨rest', e, rfl⟩
      · exact ⟨rfl, rfl⟩
      · cases (ih (concat_split hl).1).2

end Life

/-! ### What the CPUs know -/

theorem eventsOf_append (p : ProcId) (log log' : ProcLog) :
    eventsOf p (log ++ log') = eventsOf p log ++ eventsOf p log' :=
  List.filterMap_append ..

/-- The quantum of the process `p` on a CPU, after `n` instructions. -/
def Quantum (c : Config) (s : OsT) (me : Cpu) (p : ProcId) (n : Nat) : Prop :=
  match me.loc with
  | .recheck =>
      me.timeLeft = 0 ∧ n = 0 ∨ 0 < me.timeLeft ∧ me.timeLeft + n = c.timeSlot
  | .head | .nextSlot => s.pc p = c.codeSize p ∨ me.timeLeft + n = c.timeSlot
  | .reload | .stopped => False

/-- The state of the life of `p` agrees with the CPUs. -/
def Agrees (c : Config) (s : OsT) (p : ProcId) : ProcState → Prop
  | .ready => p ∉ s.finished ∧ ∀ i < c.numCpus, (s.cpu i).held ≠ some p
  | .running i n => i < c.numCpus ∧ (s.cpu i).held = some p ∧ Quantum c s (s.cpu i) p n
  | .finished => p ∈ s.finished ∧ s.pc p = c.codeSize p

structure QuantaInv (c : Config) (x : OsT × ProcLog) : Prop where
  acc : Accounted c x.1
  le : ∀ p, x.1.pc p ≤ c.codeSize p
  executed : ∀ p, executed (eventsOf p x.2) = List.range (x.1.pc p)
  life : ∀ p, ∃ st, Life c.timeSlot.toNat (eventsOf p x.2) st ∧ Agrees c x.1 p st
  idle : ∀ i < c.numCpus, (x.1.cpu i).proc = none → (x.1.cpu i).timeLeft = 0

/-- A process that CPU `i` has nothing to do with. -/
theorem Agrees.frame {c : Config} {s t : OsT} {p : ProcId} {st : ProcState} {i : Nat}
    (h : Agrees c s p st) (hfin : p ∈ t.finished ↔ p ∈ s.finished) (hpc : t.pc p = s.pc p)
    (hother : ∀ j, j ≠ i → t.cpu j = s.cpu j) (hold : (s.cpu i).held ≠ some p)
    (hnew : (t.cpu i).held ≠ some p) : Agrees c t p st := by
  cases st with
  | ready =>
      refine ⟨fun hmem => h.1 (hfin.mp hmem), fun j hj => ?_⟩
      rcases eq_or_ne j i with rfl | hji
      · exact hnew
      · rw [hother j hji]
        exact h.2 j hj
  | running j n =>
      obtain ⟨hj, hheld, hquant⟩ := h
      have hji : j ≠ i := by
        rintro rfl
        exact hold hheld
      rw [Agrees, hother j hji, Quantum, hpc]
      exact ⟨hj, hheld, hquant⟩
  | finished =>
      rw [Agrees, hpc]
      exact ⟨hfin.mpr h.1, h.2⟩

namespace QuantaInv

variable {c : Config} {s t : OsT} {log : ProcLog} {i : Nat} {p : ProcId}

/-- At most one CPU holds a process. -/
theorem holder_unique (h : Accounted c s) {i j : Nat} (hi : i < c.numCpus) (hj : j < c.numCpus)
    (hip : (s.cpu i).held = some p) (hjp : (s.cpu j).held = some p) : j = i := by
  by_contra hne
  have howned := h.owned p
  have htwo : 2 ≤ holders c.numCpus s.cpu p := by
    have hsum := Finset.add_sum_erase (Finset.range c.numCpus)
      (fun k => if (s.cpu k).held = some p then 1 else 0) (Finset.mem_range.mpr hi)
    have hone : 1 ≤ ∑ k ∈ (Finset.range c.numCpus).erase i,
        if (s.cpu k).held = some p then 1 else 0 := by
      have hle := Finset.single_le_sum
        (f := fun k => if (s.cpu k).held = some p then 1 else 0) (fun _ _ => Nat.zero_le _)
        (Finset.mem_erase.mpr ⟨hne, Finset.mem_range.mpr hj⟩)
      simpa only [if_pos hjp] using hle
    simp only [if_pos hip] at hsum
    simp only [holders]
    omega
  split at howned <;> omega

/-- The state of a process that a CPU holds. -/
theorem running_of_held (h : QuantaInv c (s, log)) (hi : i < c.numCpus)
    (hheld : (s.cpu i).held = some p) :
    ∃ n, Life c.timeSlot.toNat (eventsOf p log) (.running i n) ∧ Quantum c s (s.cpu i) p n := by
  obtain ⟨st, hlife, hagrees⟩ := h.life p
  cases st with
  | ready => exact absurd hheld (hagrees.2 i hi)
  | running j n =>
      obtain ⟨hj, hjheld, hquant⟩ := hagrees
      obtain rfl := holder_unique h.acc hj hi hjheld hheld
      exact ⟨n, hlife, hquant⟩
  | finished => exact absurd hagrees.1 (h.acc.live_of_held hi hheld).2

/-- The state of a process in a ready queue. -/
theorem ready_of_dispatched (h : QuantaInv c (s, log)) (hget : (getMlqProc s.sched).1 = some p) :
    Life c.timeSlot.toNat (eventsOf p log) .ready ∧ s.Live p := by
  have hqueued := queued_getMlqProc s.sched p
  rw [if_pos hget] at hqueued
  have howned := h.acc.owned p
  have hlive : s.Live p := by
    by_contra hnot
    change _ = if s.Live p then 1 else 0 at howned
    rw [if_neg hnot] at howned
    change queued s.sched p + _ = 0 at howned
    omega
  refine ⟨?_, hlive⟩
  obtain ⟨st, hlife, hagrees⟩ := h.life p
  cases st with
  | ready => exact hlife
  | running j n =>
      have hone : 1 ≤ holders c.numCpus s.cpu p := one_le_holders hagrees.1 hagrees.2.1
      change queued s.sched p + holders c.numCpus s.cpu p = _ at howned
      split at howned <;> omega
  | finished => exact absurd hagrees.1 hlive.2

theorem eventsOf_map (p q : ProcId) (evs : List ProcEvent) :
    eventsOf q (evs.map (p, ·)) = if p = q then evs else [] := by
  by_cases hpq : p = q
  · rw [if_pos hpq, eventsOf, List.filterMap_map]
    simp [hpq]
  · rw [if_neg hpq, eventsOf, List.filterMap_map]
    simp [hpq]

/-- A step of CPU `i` that is about process `p`. -/
theorem update (h : QuantaInv c (s, log)) (evs : List ProcEvent) (st : ProcState)
    (hacc : Accounted c t) (hother : ∀ j, j ≠ i → t.cpu j = s.cpu j)
    (hfin : ∀ q, q ≠ p → (q ∈ t.finished ↔ q ∈ s.finished)) (hpc : ∀ q, q ≠ p → t.pc q = s.pc q)
    (hold : ∀ q, q ≠ p → (s.cpu i).held ≠ some q) (hnew : ∀ q, q ≠ p → (t.cpu i).held ≠ some q)
    (hidle : (t.cpu i).proc = none → (t.cpu i).timeLeft = 0) (hle : t.pc p ≤ c.codeSize p)
    (hexec : List.range (s.pc p) ++ Sched.executed evs = List.range (t.pc p))
    (hlife : Life c.timeSlot.toNat (eventsOf p log ++ evs) st) (hagrees : Agrees c t p st) :
    QuantaInv c (t, log ++ evs.map (p, ·)) := by
  refine ⟨hacc, fun q => ?_, fun q => ?_, fun q => ?_, fun j hj => ?_⟩
  · rcases eq_or_ne q p with rfl | hqp
    · exact hle
    · change t.pc q ≤ _
      rw [hpc q hqp]
      exact h.le q
  · rw [eventsOf_append, eventsOf_map]
    rcases eq_or_ne q p with rfl | hqp
    · have hold := h.executed q
      rw [if_pos rfl, Sched.executed, List.filterMap_append, ← Sched.executed, ← Sched.executed,
        hold]
      exact hexec
    · rw [if_neg (Ne.symm hqp), List.append_nil, hpc q hqp]
      exact h.executed q
  · rw [eventsOf_append, eventsOf_map]
    rcases eq_or_ne q p with rfl | hqp
    · rw [if_pos rfl]
      exact ⟨st, hlife, hagrees⟩
    · obtain ⟨st', hlife', hagrees'⟩ := h.life q
      rw [if_neg (Ne.symm hqp), List.append_nil]
      exact ⟨st', hlife', hagrees'.frame (hfin q hqp) (hpc q hqp) hother (hold q hqp) (hnew q hqp)⟩
  · rcases eq_or_ne j i with rfl | hji
    · exact hidle
    · change (t.cpu j).proc = none → (t.cpu j).timeLeft = 0
      rw [hother j hji]
      exact h.idle j hj

/-- A step of CPU `i` without a process. -/
theorem quiet (h : QuantaInv c (s, log)) (hacc : Accounted c t)
    (hother : ∀ j, j ≠ i → t.cpu j = s.cpu j) (hfin : t.finished = s.finished) (hpc : t.pc = s.pc)
    (hold : (s.cpu i).held = none) (hnew : (t.cpu i).held = none)
    (hidle : (t.cpu i).proc = none → (t.cpu i).timeLeft = 0) : QuantaInv c (t, log) := by
  refine ⟨hacc, fun q => ?_, fun q => ?_, fun q => ?_, fun j hj => ?_⟩
  · change t.pc q ≤ _
    rw [hpc]
    exact h.le q
  · change _ = List.range (t.pc q)
    rw [hpc]
    exact h.executed q
  · obtain ⟨st, hlife, hagrees⟩ := h.life q
    refine ⟨st, hlife, hagrees.frame (by rw [hfin]) (by rw [hpc]) hother ?_ ?_⟩
    · rw [hold]
      exact fun hfalse => by cases hfalse
    · rw [hnew]
      exact fun hfalse => by cases hfalse
  · rcases eq_or_ne j i with rfl | hji
    · exact hidle
    · change (t.cpu j).proc = none → (t.cpu j).timeLeft = 0
      rw [hother j hji]
      exact h.idle j hj

/-- A step of CPU `i` that leaves it without a process. -/
theorem staysIdle (h : QuantaInv c (s, log)) (hi : i < c.numCpus) (hacc : Accounted c t)
    (hother : ∀ j, j ≠ i → t.cpu j = s.cpu j) (hfin : t.finished = s.finished) (hpc : t.pc = s.pc)
    (hproc : (s.cpu i).proc = none) (hproc' : (t.cpu i).proc = none)
    (htime : (t.cpu i).timeLeft = (s.cpu i).timeLeft) : QuantaInv c (t, log) := by
  refine h.quiet hacc hother hfin hpc (by simp [Cpu.held, hproc]) (by simp [Cpu.held, hproc']) ?_
  intro _
  rw [htime]
  exact h.idle i hi hproc

theorem run_pc {c : Config} {s : OsT} {p q : ProcId} (hne : q ≠ p) :
    (Sched.run c s p).pc q = s.pc q := by
  unfold Sched.run
  split
  · rfl
  · exact Function.update_of_ne hne ..

theorem run_finished (c : Config) (s : OsT) (p : ProcId) :
    (Sched.run c s p).finished = s.finished := by
  unfold Sched.run
  split <;> rfl

theorem run_cpu (c : Config) (s : OsT) (p : ProcId) : (Sched.run c s p).cpu = s.cpu := by
  unfold Sched.run
  split <;> rfl

/-- The CPU takes the process `p` out of the ready queues. -/
theorem dispatched (h : QuantaInv c (s, log)) (hi : i < c.numCpus) (hacc : Accounted c t)
    (hget : (getMlqProc s.sched).1 = some p) (hold : (s.cpu i).held = none)
    (hother : ∀ j, j ≠ i → t.cpu j = s.cpu j) (hfin : t.finished = s.finished) (hpc : t.pc = s.pc)
    (hcpu : t.cpu i = ⟨.recheck, some p, 0⟩) :
    QuantaInv c (t, log ++ [(p, .dispatch i)]) := by
  have hlife := (h.ready_of_dispatched hget).1
  refine h.update [.dispatch i] (.running i 0) hacc hother (fun q _ => by rw [hfin])
    (fun q _ => by rw [hpc]) (fun q _ => by rw [hold]; simp) (fun q hq => ?_) (by simp [hcpu])
    (by rw [hpc]; exact h.le p) (by simp [Sched.executed, hpc]) (.dispatch i hlife) ?_
  · rw [hcpu]
    simpa [Cpu.held] using Ne.symm hq
  · refine ⟨hi, by simp [hcpu, Cpu.held], ?_⟩
    simp [Quantum, hcpu]

/-- The CPU keeps its process and its quantum. -/
theorem kept (h : QuantaInv c (s, log)) (hacc : Accounted c t)
    (hother : ∀ j, j ≠ i → t.cpu j = s.cpu j) (hfin : t.finished = s.finished) (hpc : t.pc = s.pc)
    (hold : (s.cpu i).held = some p) (hnew : (t.cpu i).held = some p) (hi : i < c.numCpus)
    (hquant : ∀ n ≤ c.timeSlot.toNat, Quantum c s (s.cpu i) p n → Quantum c t (t.cpu i) p n) :
    QuantaInv c (t, log) := by
  obtain ⟨n, hlife, hq⟩ := h.running_of_held hi hold
  have hproc : (t.cpu i).proc = some p := by
    rw [Cpu.held] at hnew
    split at hnew
    · cases hnew
    · exact hnew
  have hupdate := h.update [] (.running i n) (p := p) hacc hother
    (fun q _ => by rw [hfin]) (fun q _ => by rw [hpc])
    (fun q hqp => by rw [hold]; simpa using Ne.symm hqp)
    (fun q hqp => by rw [hnew]; simpa using Ne.symm hqp) (by simp [hproc])
    (by rw [hpc]; exact h.le p) (by simp [Sched.executed, hpc]) (by simpa using hlife)
    ⟨hi, hnew, hquant n (hlife.ran_le rfl) hq⟩
  simpa using hupdate

/-- The instruction a CPU executes, and the quantum it is part of. -/
theorem ran (h : QuantaInv c (s, log)) (hslot : 1 ≤ c.timeSlot) (hi : i < c.numCpus) {left : Int}
    (hloc : (s.cpu i).loc = .recheck) (hproc : (s.cpu i).proc = some p)
    (hleft : left = if (s.cpu i).timeLeft = 0 then c.timeSlot else (s.cpu i).timeLeft)
    (hacc : Accounted c
      ((Sched.run c s p).setCpu i { s.cpu i with timeLeft := left - 1, loc := .nextSlot })) :
    QuantaInv c
      ((Sched.run c s p).setCpu i { s.cpu i with timeLeft := left - 1, loc := .nextSlot },
        log ++ (if s.pc p ≥ c.codeSize p then [] else [.exec i (s.pc p)]).map (p, ·)) := by
  have hheld : (s.cpu i).held = some p := by simp [Cpu.held, hloc, hproc]
  obtain ⟨n, hlife, hquant⟩ := h.running_of_held hi hheld
  rw [Quantum, hloc] at hquant
  -- the quantum that `time_left` stands for before it is counted down
  have hfull : left + n = c.timeSlot := by
    rcases hquant with ⟨hzero, rfl⟩ | ⟨hpos, hsum⟩
    · rw [hleft, if_pos hzero]
      simp
    · rw [hleft, if_neg (by omega)]
      exact hsum
  have hpos : 1 ≤ left := by
    rw [hleft]
    split <;> omega
  have hle : s.pc p ≤ c.codeSize p := h.le p
  have hother : ∀ j, j ≠ i → ((Sched.run c s p).setCpu i
      { s.cpu i with timeLeft := left - 1, loc := .nextSlot }).cpu j = s.cpu j := fun j hj => by
    rw [cpu_setCpu_of_ne _ hj, run_cpu]
  have hsame : (⟨.nextSlot, (s.cpu i).proc, left - 1⟩ : Cpu).held = some p := by
    simp [Cpu.held, hproc]
  refine h.update _ (.running i (if s.pc p ≥ c.codeSize p then n else n + 1)) hacc hother
    (fun q _ => ?_) (fun q hq => run_pc hq) (fun q hq => ?_) (fun q hq => ?_) ?_ ?_ ?_ ?_ ?_
  · change q ∈ (Sched.run c s p).finished ↔ _
    rw [run_finished]
  · rw [hheld]
    simpa using Ne.symm hq
  · rw [cpu_setCpu_self, hsame]
    simpa using Ne.symm hq
  · simp [hproc]
  · change (Sched.run c s p).pc p ≤ _
    unfold Sched.run
    split
    · exact hle
    · simp only [Function.update_self]
      omega
  · change _ = List.range ((Sched.run c s p).pc p)
    unfold Sched.run
    split
    · simp [Sched.executed]
    · simp [Sched.executed, List.range_succ]
  · split
    · simpa using hlife
    · exact hlife.exec _ (by omega)
  · refine ⟨hi, by rw [cpu_setCpu_self, hsame], ?_⟩
    rw [cpu_setCpu_self, Quantum]
    change (Sched.run c s p).pc p = _ ∨ _
    unfold Sched.run
    split
    · exact .inl (by omega)
    · right
      push_cast
      omega

theorem cpuStep (h : QuantaInv c (s, log)) (hslot : 1 ≤ c.timeSlot) (hi : i < c.numCpus)
    (hstep : cpuStep c s i = some t) : QuantaInv c (t, log ++ (cpuEvent c s i).toList) := by
  have hacc := h.acc.cpuStep hi hstep
  have hother : ∀ j, j ≠ i → t.cpu j = s.cpu j := fun j hj => cpuStep_other hstep hj
  cases cpuStep_cases hstep with
  | loadFailed hloc hproc hget =>
      have hevent : cpuEvent c s i = none := by simp [cpuEvent, hloc, hproc, hget]
      rw [hevent, Option.toList_none, List.append_nil]
      exact h.staysIdle hi hacc hother rfl rfl hproc (by rw [cpu_setCpu_self, hproc])
        (by rw [cpu_setCpu_self])
  | load p hloc hproc hget =>
      have hevent : cpuEvent c s i = some (p, .dispatch i) := by simp [cpuEvent, hloc, hproc, hget]
      rw [hevent]
      refine h.dispatched hi hacc hget (by simp [Cpu.held, hproc]) hother rfl rfl ?_
      have htime : (s.cpu i).timeLeft = 0 := h.idle i hi hproc
      rw [cpu_setCpu_self]
      dsimp only
      rw [htime]
  | finish p hloc hproc hpc =>
      have hevent : cpuEvent c s i = some (p, .finish i) := by simp [cpuEvent, hloc, hproc, hpc]
      have hheld : (s.cpu i).held = some p := by simp [Cpu.held, hloc, hproc]
      obtain ⟨n, hlife, -⟩ := h.running_of_held hi hheld
      rw [hevent]
      refine h.update [.finish i] .finished hacc hother (fun q hq => ?_)
        (fun q _ => rfl) (fun q hq => ?_) (fun q hq => by simp [Cpu.held]) (by simp [hproc])
        (h.le p) (by simp [Sched.executed, OsT.setCpu]) (.finish hlife) ⟨by simp [OsT.setCpu], hpc⟩
      · simp [OsT.setCpu, hq]
      · rw [hheld]
        simpa using Ne.symm hq
  | requeue p u hloc hproc hpc htime hput =>
      have hevent : cpuEvent c s i = some (p, .requeue i) := by
        simp [cpuEvent, hloc, hproc, hpc, htime]
      have hheld : (s.cpu i).held = some p := by simp [Cpu.held, hloc, hproc]
      obtain ⟨n, hlife, hquant⟩ := h.running_of_held hi hheld
      -- the program is not at its end, so the quantum is used up
      have hn : n = c.timeSlot.toNat := by
        rw [Quantum, hloc] at hquant
        rcases hquant with hend | hsum
        · exact absurd hend hpc
        · omega
      rw [hevent]
      rw [hn] at hlife
      refine h.update [.requeue i] .ready hacc hother (fun q _ => Iff.rfl)
        (fun q _ => rfl) (fun q hq => ?_) (fun q hq => by simp [Cpu.held]) (by simp [hproc])
        (h.le p) (by simp [Sched.executed, OsT.setCpu]) (.requeue hlife) ⟨?_, fun j hj hjp => ?_⟩
      · rw [hheld]
        simpa using Ne.symm hq
      · exact (h.acc.live_of_held hi hheld).2
      · rcases eq_or_ne j i with rfl | hji
        · simp [Cpu.held] at hjp
        · rw [hother j hji] at hjp
          exact hji (holder_unique h.acc hi hj hheld hjp)
  | keep p hloc hproc hpc htime =>
      have hevent : cpuEvent c s i = none := by simp [cpuEvent, hloc, hproc, hpc, htime]
      rw [hevent, Option.toList_none, List.append_nil]
      refine h.kept hacc hother rfl rfl (p := p) (by simp [Cpu.held, hloc, hproc])
        (by simp [Cpu.held, hproc]) hi fun n hn hq => ?_
      rw [Quantum, hloc] at hq
      rw [cpu_setCpu_self]
      rcases hq with hend | hsum
      · exact absurd hend hpc
      · exact .inr ⟨by dsimp only; omega, hsum⟩
  | reload hloc =>
      cases hget : (getMlqProc s.sched).1 with
      | none =>
          have hevent : cpuEvent c s i = none := by simp [cpuEvent, hloc, hget]
          rw [hevent, Option.toList_none, List.append_nil]
          rw [hget] at hacc hother
          exact h.quiet hacc hother rfl rfl (by simp [Cpu.held, hloc]) (by simp [Cpu.held])
            (by simp)
      | some p =>
          have hevent : cpuEvent c s i = some (p, .dispatch i) := by simp [cpuEvent, hloc, hget]
          rw [hevent]
          rw [hget] at hacc hother
          exact h.dispatched hi hacc hget (by simp [Cpu.held, hloc]) hother rfl rfl
            (cpu_setCpu_self ..)
  | stop hloc hproc hdone | skip hloc hproc hdone =>
      have hevent : cpuEvent c s i = none := by simp [cpuEvent, hloc, hproc]
      rw [hevent, Option.toList_none, List.append_nil]
      exact h.staysIdle hi hacc hother rfl rfl hproc (by rw [cpu_setCpu_self, hproc])
        (by rw [cpu_setCpu_self])
  | exec p left hloc hproc hleft =>
      have hran := h.ran hslot hi hloc hproc hleft hacc
      have hevent : (cpuEvent c s i).toList =
          (if s.pc p ≥ c.codeSize p then [] else [.exec i (s.pc p)]).map (p, ·) := by
        rw [cpuEvent, hloc, hproc]
        dsimp only
        split <;> rfl
      rw [hevent]
      exact hran
  | slot hloc =>
      have hevent : cpuEvent c s i = none := by simp [cpuEvent, hloc]
      rw [hevent, Option.toList_none, List.append_nil]
      cases hproc : (s.cpu i).proc with
      | none =>
          exact h.staysIdle hi hacc hother rfl rfl hproc (by rw [cpu_setCpu_self, hproc])
            (by rw [cpu_setCpu_self])
      | some p =>
          refine h.kept hacc hother rfl rfl (p := p) (by simp [Cpu.held, hloc, hproc])
            (by simp [Cpu.held, hproc]) hi fun n _ hq => ?_
          rw [Quantum, hloc] at hq
          rw [cpu_setCpu_self]
          exact hq

/-- The loader and the timer change nothing the invariant looks at. -/
theorem other (h : QuantaInv c (s, log)) (hacc : Accounted c t) (hfin : t.finished = s.finished)
    (hpc : t.pc = s.pc) (hcpu : t.cpu = s.cpu) : QuantaInv c (t, log) := by
  have hfields : ∀ q st, Agrees c s q st → Agrees c t q st := by
    intro q st hagrees
    cases st <;> simpa only [Agrees, Quantum, hfin, hpc, hcpu] using hagrees
  refine ⟨hacc, ?_, ?_, fun q => ?_, ?_⟩
  · simpa only [hpc] using h.le
  · simpa only [hpc] using h.executed
  · obtain ⟨st, hlife, hagrees⟩ := h.life q
    exact ⟨st, hlife, hfields q st hagrees⟩
  · simpa only [hcpu] using h.idle

theorem step {x y : OsT × ProcLog} {turn : Turn} (h : QuantaInv c x) (hslot : 1 ≤ c.timeSlot)
    (hstep : Step (logStep c) x turn y) : QuantaInv c y := by
  obtain ⟨s, log⟩ := x
  obtain ⟨t, ht, rfl⟩ := Option.map_eq_some_iff.mp hstep
  have hacc := h.acc.step ht
  cases turn with
  | cpu i =>
      simp only [osStep] at ht
      split at ht
      next hi => exact h.cpuStep hslot hi ht
      next => cases ht
  | loader =>
      simp only [osStep, ldStep] at ht
      split at ht
      · split at ht
        · cases ht
          exact h
        · obtain ⟨u, -, rfl⟩ := Option.map_eq_some_iff.mp ht
          exact h.other hacc rfl rfl rfl
      · split at ht
        · cases ht
        · cases ht
          exact h.other hacc rfl rfl rfl
  | timer =>
      cases ht
      exact h.other hacc rfl rfl rfl

end QuantaInv

theorem quantaInv_init (c : Config) : QuantaInv c (initOs, []) where
  acc := accounted_init c
  le _ := Nat.zero_le _
  executed _ := rfl
  life _ := ⟨.ready, .new, fun hmem => (nomatch hmem), fun _ _ hheld => by
    simp [initOs, Cpu.held] at hheld⟩
  idle _ _ _ := rfl

/-- Keeping the record does not restrict the run. -/
theorem logStep_run {c : Config} {s t : OsT} {turns : List Turn}
    (h : Run (Step (osStep c)) s turns t) (log : ProcLog) :
    ∃ log', Run (Step (logStep c)) (s, log) turns (t, log') := by
  induction h generalizing log with
  | nil s => exact ⟨log, .nil _⟩
  | cons hstep _ ih =>
      obtain ⟨log', hrun⟩ := ih _
      exact ⟨log', .cons (Option.map_eq_some_iff.mpr ⟨_, hstep, rfl⟩) hrun⟩

/-- Along every run of any number of CPUs, the loader and the timer, the
instructions executed for a process are those of its program in order, and
no two CPUs have the process at a time. It is reported finished once, after
the last instruction. Between a dispatch and the next requeue the CPU
executes exactly `time_slot` instructions, and without a requeue the process
is still on its CPU, within its quantum, or has left it by finishing. -/
theorem executed_in_quanta {c : Config} (hslot : 1 ≤ c.timeSlot) {turns : List Turn} {s : OsT}
    {log : ProcLog} (hrun : Run (Step (logStep c)) (initOs, []) turns (s, log)) (p : ProcId) :
    (executed (eventsOf p log) = List.range (s.pc p) ∧ s.pc p ≤ c.codeSize p) ∧
    (∀ i < c.numCpus, ∀ j < c.numCpus,
      (s.cpu i).held = some p → (s.cpu j).held = some p → i = j) ∧
    (p ∈ s.finished → executed (eventsOf p log) = List.range (c.codeSize p)) ∧
    (∀ pre i post, eventsOf p log = pre ++ .finish i :: post →
      executed pre = List.range (c.codeSize p) ∧ post = []) ∧
    (∀ pre i mid j post, eventsOf p log = pre ++ .dispatch i :: (mid ++ .requeue j :: post) →
      (∀ k, ProcEvent.requeue k ∉ mid) →
      j = i ∧ mid.length = c.timeSlot ∧ ∀ e ∈ mid, ∃ pc, e = .exec i pc) ∧
    (∀ pre i rest, eventsOf p log = pre ++ .dispatch i :: rest →
      (∀ k, ProcEvent.requeue k ∉ rest) →
      ∃ execs : List ProcEvent, (∀ e ∈ execs, ∃ pc, e = .exec i pc) ∧
        execs.length ≤ c.timeSlot ∧
        (rest = execs ∧ (s.cpu i).held = some p ∨ rest = execs ++ [.finish i])) := by
  have hinv : QuantaInv c (s, log) :=
    hrun.invariant (fun _ _ _ h hstep => h.step hslot hstep) (quantaInv_init c)
  obtain ⟨st, hlife, hagrees⟩ := hinv.life p
  have hexec := hinv.executed p
  have hend : st = .finished → s.pc p = c.codeSize p := by
    rintro rfl
    exact hagrees.2
  refine ⟨⟨hexec, hinv.le p⟩,
    fun i hi j hj hip hjp => QuantaInv.holder_unique hinv.acc hj hi hjp hip,
    fun hmem => ?_, fun pre i post hl => ?_, fun pre i mid j post hl hno => ?_,
    fun pre i rest hl hno => ?_⟩
  · cases st with
    | ready => exact absurd hmem hagrees.1
    | running i n => exact absurd hmem (hinv.acc.live_of_held hagrees.1 hagrees.2.1).2
    | finished => rw [hexec, hend rfl]
  · obtain ⟨rfl, hst⟩ := hlife.after_finish hl
    rw [hl, hend hst] at hexec
    refine ⟨?_, rfl⟩
    simpa [executed] using hexec
  · -- the life up to the requeue, and up to the event before it
    have hsplit : eventsOf p log = ((pre ++ .dispatch i :: mid) ++ [.requeue j]) ++ post := by
      simpa using hl
    rw [hsplit] at hlife
    obtain ⟨st', hlife'⟩ := hlife.take
    obtain ⟨execs, hexecs, -, ⟨rfl, hst⟩ | ⟨-, hst⟩⟩ :=
      hlife'.before_requeue.after_dispatch rfl hno
    · obtain ⟨hcpu, hlen⟩ := ProcState.running.inj hst
      exact ⟨hcpu, by omega, hexecs⟩
    · cases hst
  · obtain ⟨execs, hexecs, hle, hcase⟩ := hlife.after_dispatch hl hno
    refine ⟨execs, hexecs, by omega, ?_⟩
    rcases hcase with ⟨hrest, rfl⟩ | ⟨hrest, -⟩
    · exact .inl ⟨hrest, hagrees.2.1⟩
    · exact .inr hrest

/-- One CPU, quanta of two instructions and a program of three. -/
def threeInstructions : Config where
  numCpus := 1
  numProcesses := 1
  timeSlot := 2
  startTime _ := 0
  prio _ := 7
  codeSize _ := 3

/-- The program takes a full quantum and is finished in the next one. -/
def twoQuanta : List Turn := .loader :: List.replicate 11 (.cpu 0)

theorem twoQuanta_events : (exec (logStep threeInstructions) (initOs, []) twoQuanta).any
    (fun x => eventsOf 0 x.2 = [.dispatch 0, .exec 0 0, .exec 0 1, .requeue 0, .dispatch 0,
      .exec 0 2, .finish 0]) = true := by
  decide +kernel

theorem executed_in_quanta_twoQuanta : ∃ s log,
    Run (Step (logStep threeInstructions)) (initOs, []) twoQuanta (s, log) ∧
    executed (eventsOf 0 log) = [0, 1, 2] := by
  obtain ⟨⟨s, log⟩, hs, hevents⟩ := (Option.any_eq_true _ _).mp twoQuanta_events
  have hrun := run_of_exec hs
  have hquanta := executed_in_quanta (by decide) hrun 0
  have hfinish := hquanta.2.2.2.1 [.dispatch 0, .exec 0 0, .exec 0 1, .requeue 0, .dispatch 0,
    .exec 0 2] 0 [] (of_decide_eq_true hevents)
  refine ⟨s, log, hrun, ?_⟩
  rw [of_decide_eq_true hevents]
  exact hfinish.1

end Ossim.Sched
