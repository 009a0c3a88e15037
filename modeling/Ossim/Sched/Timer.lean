import Mathlib.Data.List.Nodup
import Mathlib.Data.List.Count
import Ossim.Lib.Barrier
import Ossim.Lib.Run

/-!
The timer of `timer.c`.

A device has two flags. Its thread sets `done` in `next_slot` and waits
until the flag is cleared; the timer waits until every device is done or
detached, counts the time up and then clears the flags one by one. A device
that is released early may set its flag again while the timer still clears
others, but the timer does not come back to it before the next round.

Each access to a flag is one step, and the steps of the timer and of the
threads come in any order. A thread is also a party of a barrier, which
counts its slots; the flags do not look at the count.
-/

namespace Ossim.Sched

open Ossim.Lib

/-- `struct timer_id_t`, with the thread that owns it -/
structure Device where
  done : Bool
  fsh : Bool
  thread : Party

/-- Where `timer_routine` stands. Both loops over the devices carry the part
of the list that is left, and the counters `fsh` and `event`. -/
inductive TimerLoc
  /-- `while (!timer_stop)` -/
  | head
  /-- "Wait for all devices have done the job in current time slot" -/
  | scan (rest : List Nat) (fsh event : Nat)
  /-- "Let devices continue their job" -/
  | clear (rest : List Nat) (fsh event : Nat)
  /-- after the loop -/
  | exited

structure TimerT where
  dev : Nat → Device
  devList : List Nat
  loc : TimerLoc
  time : Nat
  timerStop : Bool

def TimerT.setDev (s : TimerT) (i : Nat) (d : Device) : TimerT :=
  { s with dev := Function.update s.dev i d }

/-- The threads as parties of a barrier. -/
def TimerT.threads (s : TimerT) (i : Nat) : Party := (s.dev i).thread

/-- A device as `attach_event` makes it. -/
def newDevice : Device := ⟨false, false, ⟨0, .working⟩⟩

/-- `attach_event`, which is refused once the timer has started; the list
grows at its head. -/
def attachEvent (s : TimerT) : TimerT :=
  { s with
    dev := Function.update s.dev s.devList.length newDevice
    devList := s.devList.length :: s.devList }

/-- The static data of `timer.c`. -/
def initTimer : TimerT := ⟨fun _ => newDevice, [], .head, 0, false⟩

/-- The timer as `start_timer` finds it after `n` attachments. -/
def attached : Nat → TimerT
  | 0 => initTimer
  | n + 1 => attachEvent (attached n)

inductive TimerEvent
  /-- the timer looks at `timer_stop` -/
  | enter
  /-- the timer looks at the flags of a device -/
  | check (i : Nat)
  /-- `_time++` -/
  | tick
  /-- the timer clears `done` of a device -/
  | clear (i : Nat)
  /-- the timer compares `fsh` and `event` -/
  | compare
  /-- `next_slot` sets `done` -/
  | report (i : Nat)
  /-- `next_slot` looks at `done` -/
  | poll (i : Nat)
  /-- `detach_event` -/
  | detach (i : Nat)
  /-- `stop_timer` sets `timer_stop` -/
  | stop
  deriving DecidableEq

/-- One step. Where the code waits on a condition variable, looking at the
flag again changes nothing. -/
def timerStep (s : TimerT) : TimerEvent → Option TimerT
  | .enter =>
    match s.loc with
    | .head => some { s with loc := if s.timerStop then .exited else .scan s.devList 0 0 }
    | _ => none
  | .check i =>
    match s.loc with
    | .scan (j :: rest) fsh event =>
      if i ≠ j then none
      else if !(s.dev i).done && !(s.dev i).fsh then some s
      else some { s with loc := .scan rest (if (s.dev i).fsh then fsh + 1 else fsh) (event + 1) }
    | _ => none
  | .tick =>
    match s.loc with
    | .scan [] fsh event => some { s with loc := .clear s.devList fsh event, time := s.time + 1 }
    | _ => none
  | .clear i =>
    match s.loc with
    | .clear (j :: rest) fsh event =>
      if i ≠ j then none
      else some { s.setDev i { s.dev i with done := false } with loc := .clear rest fsh event }
    | _ => none
  | .compare =>
    match s.loc with
    | .clear [] fsh event => some { s with loc := if fsh = event then .exited else .head }
    | _ => none
  | .report i =>
    if i ∈ s.devList ∧ (s.threads i).phase = .working then
      some (s.setDev i { s.dev i with done := true, thread := (s.threads i).report })
    else none
  | .poll i =>
    if i ∈ s.devList ∧ (s.threads i).phase = .waiting then
      if (s.dev i).done then some s
      else some (s.setDev i { s.dev i with thread := (s.threads i).pass })
    else none
  | .detach i =>
    if i ∈ s.devList ∧ (s.threads i).phase = .working then
      some (s.setDev i { s.dev i with fsh := true, thread := (s.threads i).leave })
    else none
  | .stop => some { s with timerStop := true }

/-- Everything a step can be. -/
inductive TimerMove (s : TimerT) : TimerEvent → TimerT → Prop
  | enter (hloc : s.loc = .head) :
      TimerMove s .enter { s with loc := if s.timerStop then .exited else .scan s.devList 0 0 }
  | wait (i : Nat) : TimerMove s (.check i) s
  | check {i : Nat} {rest : List Nat} {fsh event : Nat} (hloc : s.loc = .scan (i :: rest) fsh event)
      (hready : (s.dev i).done = true ∨ (s.dev i).fsh = true) :
      TimerMove s (.check i)
        { s with loc := .scan rest (if (s.dev i).fsh then fsh + 1 else fsh) (event + 1) }
  | tick {fsh event : Nat} (hloc : s.loc = .scan [] fsh event) :
      TimerMove s .tick { s with loc := .clear s.devList fsh event, time := s.time + 1 }
  | clear {i : Nat} {rest : List Nat} {fsh event : Nat}
      (hloc : s.loc = .clear (i :: rest) fsh event) :
      TimerMove s (.clear i)
        { s.setDev i { s.dev i with done := false } with loc := .clear rest fsh event }
  | compare {fsh event : Nat} (hloc : s.loc = .clear [] fsh event) :
      TimerMove s .compare { s with loc := if fsh = event then .exited else .head }
  | report {i : Nat} (hi : i ∈ s.devList) (hwork : (s.threads i).phase = .working) :
      TimerMove s (.report i)
        (s.setDev i { s.dev i with done := true, thread := (s.threads i).report })
  | blocked (i : Nat) : TimerMove s (.poll i) s
  | pass {i : Nat} (hi : i ∈ s.devList) (hwait : (s.threads i).phase = .waiting)
      (hdone : (s.dev i).done = false) :
      TimerMove s (.poll i) (s.setDev i { s.dev i with thread := (s.threads i).pass })
  | detach {i : Nat} (hi : i ∈ s.devList) (hwork : (s.threads i).phase = .working) :
      TimerMove s (.detach i)
        (s.setDev i { s.dev i with fsh := true, thread := (s.threads i).leave })
  | stop : TimerMove s .stop { s with timerStop := true }

theorem timerStep_cases {s t : TimerT} {ev : TimerEvent} (h : timerStep s ev = some t) :
    TimerMove s ev t := by
  cases ev with
  | enter =>
      simp only [timerStep] at h
      split at h
      · rename_i hloc
        cases h
        exact .enter hloc
      · cases h
  | check i =>
      simp only [timerStep] at h
      split at h
      · rename_i j rest fsh event hloc
        split at h
        · cases h
        · rename_i hij
          obtain rfl := not_not.mp hij
          split at h
          · cases h
            exact .wait i
          · rename_i hready
            cases h
            simp only [Bool.and_eq_true, Bool.not_eq_true', not_and_or, Bool.not_eq_false]
              at hready
            exact .check hloc hready
      · cases h
  | tick =>
      simp only [timerStep] at h
      split at h
      · rename_i hloc
        cases h
        exact .tick hloc
      · cases h
  | clear i =>
      simp only [timerStep] at h
      split at h
      · rename_i j rest fsh event hloc
        split at h
        · cases h
        · rename_i hij
          obtain rfl := not_not.mp hij
          cases h
          exact .clear hloc
      · cases h
  | compare =>
      simp only [timerStep] at h
      split at h
      · rename_i hloc
        cases h
        exact .compare hloc
      · cases h
  | report i =>
      simp only [timerStep] at h
      split at h
      · rename_i hand
        cases h
        exact .report hand.1 hand.2
      · cases h
  | poll i =>
      simp only [timerStep] at h
      split at h
      · rename_i hand
        split at h
        · cases h
          exact .blocked i
        · rename_i hdone
          cases h
          exact .pass hand.1 hand.2 (by simpa using hdone)
      · cases h
  | detach i =>
      simp only [timerStep] at h
      split at h
      · rename_i hand
        cases h
        exact .detach hand.1 hand.2
      · cases h
  | stop =>
      cases h
      exact .stop

/-! ### The invariant -/

/-- The devices that the timer is about to release. -/
def TimerLoc.pending : TimerLoc → List Nat
  | .clear rest _ _ => rest
  | _ => []

/-- The timer does not have to wait for the device. -/
def Device.ready (d : Device) : Prop := d.done = true ∨ d.fsh = true

/-- A device was released `cleared` times, and `pending` releases are to
come in this round; the slots of its thread follow the releases, but for a
release it has not seen yet. -/
structure DeviceOk (cleared pending ticks : Nat) (d : Device) : Prop where
  fsh : d.fsh = true ↔ d.thread.phase = .left
  done : d.done = true → d.thread.phase = .waiting
  released : cleared + pending = ticks
  slot : d.thread.phase ≠ .left →
    d.thread.slot + (if d.thread.phase = .waiting ∧ d.done = false then 1 else 0) = cleared
  le : d.thread.slot ≤ ticks

namespace DeviceOk

variable {cleared pending ticks : Nat} {d : Device}

/-- A device that is attached has finished as many slots as there were
ticks: a pending one waits with its flag set. -/
theorem ticks_le (h : DeviceOk cleared pending ticks d) (hatt : d.thread.phase ≠ .left)
    (hone : pending ≤ 1) (hready : 0 < pending → d.ready) : ticks ≤ d.thread.finished := by
  have hslot := h.slot hatt
  have hrel := h.released
  rw [Party.finished]
  rcases Nat.eq_zero_or_pos pending with hzero | hpos
  · split at hslot
    · rename_i hand
      rw [if_pos hand.1]
      omega
    · split <;> omega
  · have hdone := (hready hpos).resolve_right fun hfsh => hatt (h.fsh.mp hfsh)
    rw [if_neg (by simp [hdone])] at hslot
    rw [if_pos (h.done hdone)]
    omega

/-- The timer releases the device. -/
theorem clear (h : DeviceOk cleared (pending + 1) ticks d) (hready : d.ready) :
    DeviceOk (cleared + 1) pending ticks { d with done := false } := by
  have hrel := h.released
  refine ⟨h.fsh, fun hfalse => (by cases hfalse), by omega, fun hatt => ?_, h.le⟩
  have hslot := h.slot hatt
  have hdone := hready.resolve_right fun hfsh => hatt (h.fsh.mp hfsh)
  rw [if_neg (by simp [hdone])] at hslot
  rw [if_pos ⟨h.done hdone, rfl⟩]
  exact congrArg (· + 1) hslot

theorem report (h : DeviceOk cleared pending ticks d) (hwork : d.thread.phase = .working) :
    DeviceOk cleared pending ticks { d with done := true, thread := d.thread.report } := by
  have hslot := h.slot (by rw [hwork]; decide)
  refine ⟨?_, fun _ => rfl, h.released, fun _ => ?_, h.le⟩
  · rw [h.fsh, hwork]
    simp [Party.report]
  · rw [if_neg (by simp [hwork])] at hslot
    rw [if_neg (by simp)]
    exact hslot

/-- The thread sees its release. -/
theorem pass (h : DeviceOk cleared pending ticks d) (hwait : d.thread.phase = .waiting)
    (hdone : d.done = false) :
    DeviceOk cleared pending ticks { d with thread := d.thread.pass } := by
  have hslot := h.slot (by rw [hwait]; decide)
  have hrel := h.released
  rw [if_pos ⟨hwait, hdone⟩] at hslot
  refine ⟨?_, fun htrue => ?_, h.released, fun _ => ?_, ?_⟩
  · rw [h.fsh, hwait]
    simp [Party.pass]
  · rw [hdone] at htrue
    cases htrue
  · rw [if_neg (by simp [Party.pass])]
    exact hslot
  · change d.thread.slot + 1 ≤ ticks
    omega

theorem leave (h : DeviceOk cleared pending ticks d) (hwork : d.thread.phase = .working) :
    DeviceOk cleared pending ticks { d with fsh := true, thread := d.thread.leave } := by
  refine ⟨by simp [Party.leave], fun hdone => ?_, h.released, fun hatt => absurd rfl hatt, h.le⟩
  have hwait := h.done hdone
  rw [hwork] at hwait
  cases hwait

end DeviceOk

/-- What the timer knows where it stands. -/
def LocOk (s : TimerT) : Prop :=
  match s.loc with
  | .head => True
  | .scan rest fsh event =>
      (∀ i ∈ s.devList, i ∉ rest → (s.dev i).ready) ∧ fsh ≤ event ∧
        (fsh = event → ∀ i ∈ s.devList, i ∉ rest → (s.threads i).phase = .left)
  | .clear rest fsh event =>
      rest.Nodup ∧ (∀ i ∈ rest, (s.dev i).ready) ∧
        (fsh = event → ∀ i ∈ s.devList, (s.threads i).phase = .left)
  | .exited => s.timerStop = true ∨ ∀ i ∈ s.devList, (s.threads i).phase = .left

structure TimerInv (n : Nat) (evs : List TimerEvent) (s : TimerT) : Prop where
  devs : s.devList = (List.range n).reverse
  time : s.time = evs.count .tick
  device : ∀ i ∈ s.devList,
    DeviceOk (evs.count (.clear i)) (s.loc.pending.count i) (evs.count .tick) (s.dev i)
  loc : LocOk s

theorem LocOk.ready_of_pending {s : TimerT} (h : LocOk s) {i : Nat} (hi : i ∈ s.loc.pending) :
    (s.dev i).ready := by
  rw [LocOk] at h
  cases hl : s.loc with
  | clear rest fsh event =>
      rw [hl] at h hi
      exact h.2.1 i hi
  | head | scan rest fsh event | exited =>
      rw [hl] at hi
      cases hi

theorem LocOk.pending_nodup {s : TimerT} (h : LocOk s) : s.loc.pending.Nodup := by
  rw [LocOk] at h
  cases hl : s.loc with
  | clear rest fsh event =>
      rw [hl] at h
      exact h.1
  | head | scan rest fsh event | exited => exact List.nodup_nil

theorem LocOk.mono {s t : TimerT} (h : LocOk s) (hloc : t.loc = s.loc)
    (hlist : t.devList = s.devList) (hstop : s.timerStop = true → t.timerStop = true)
    (hready : ∀ i, (s.dev i).ready → (t.dev i).ready)
    (hleft : ∀ i, (s.threads i).phase = .left → (t.threads i).phase = .left) : LocOk t := by
  rw [LocOk] at h ⊢
  rw [hloc, hlist]
  cases hl : s.loc with
  | head => trivial
  | scan rest fsh event =>
      rw [hl] at h
      obtain ⟨hscan, hle, hall⟩ := h
      exact ⟨fun i hi hrest => hready i (hscan i hi hrest), hle,
        fun heq i hi hrest => hleft i (hall heq i hi hrest)⟩
  | clear rest fsh event =>
      rw [hl] at h
      obtain ⟨hnodup, hrest, hall⟩ := h
      exact ⟨hnodup, fun i hi => hready i (hrest i hi), fun heq i hi => hleft i (hall heq i hi)⟩
  | exited =>
      rw [hl] at h
      exact h.imp hstop fun hall i hi => hleft i (hall i hi)

theorem count_snoc (evs : List TimerEvent) (ev x : TimerEvent) :
    (evs ++ [ev]).count x = evs.count x + if ev = x then 1 else 0 := by
  rw [List.count_append, List.count_singleton]
  simp only [beq_iff_eq]

namespace TimerInv

variable {n : Nat} {evs : List TimerEvent} {s t : TimerT} {ev : TimerEvent}

/-- A step of the timer that neither ticks nor clears a flag. -/
theorem move (h : TimerInv n evs s) (hdev : t.dev = s.dev) (hlist : t.devList = s.devList)
    (htime : t.time = s.time) (hpend : t.loc.pending = s.loc.pending) (hloc : LocOk t)
    (htick : ev ≠ .tick) (hclear : ∀ i, ev ≠ .clear i) : TimerInv n (evs ++ [ev]) t := by
  refine ⟨hlist.trans h.devs, ?_, fun i hi => ?_, hloc⟩
  · rw [htime, count_snoc, if_neg htick]
    exact h.time
  · rw [hlist] at hi
    have hd := h.device i hi
    simp only [count_snoc, if_neg htick, if_neg (hclear i), hpend, hdev]
    exact hd

/-- A step of the thread of a device. -/
theorem setDev {i : Nat} {d : Device} (h : TimerInv n evs s) (htick : ev ≠ .tick)
    (hclear : ∀ i, ev ≠ .clear i)
    (hd : DeviceOk (evs.count (.clear i)) (s.loc.pending.count i) (evs.count .tick) d)
    (hready : (s.dev i).ready → d.ready)
    (hleft : (s.threads i).phase = .left → d.thread.phase = .left) :
    TimerInv n (evs ++ [ev]) (s.setDev i d) := by
  refine ⟨h.devs, ?_, fun j hj => ?_, h.loc.mono rfl rfl id (fun j hj => ?_) fun j hj => ?_⟩
  · rw [count_snoc, if_neg htick]
    exact h.time
  · simp only [count_snoc, if_neg htick, if_neg (hclear j)]
    rcases eq_or_ne j i with rfl | hji
    · simp only [TimerT.setDev, Function.update_self]
      exact hd
    · simp only [TimerT.setDev, Function.update_of_ne hji]
      exact h.device j hj
  all_goals
    rcases eq_or_ne j i with rfl | hji
    · simp only [TimerT.setDev, TimerT.threads, Function.update_self]
      first | exact hready hj | exact hleft hj
    · simp only [TimerT.setDev, TimerT.threads, Function.update_of_ne hji]
      exact hj

theorem nodup (h : TimerInv n evs s) : s.devList.Nodup := by
  rw [h.devs]
  exact List.nodup_reverse.mpr List.nodup_range

/-- What a device has finished is at least the time. -/
theorem ticks_le_finished (h : TimerInv n evs s) {i : Nat} (hi : i ∈ s.devList)
    (hatt : (s.threads i).phase ≠ .left) : evs.count .tick ≤ (s.threads i).finished :=
  (h.device i hi).ticks_le hatt (List.nodup_iff_count_le_one.mp h.loc.pending_nodup i)
    fun hpos => h.loc.ready_of_pending (List.count_pos_iff.mp hpos)

/-- A thread sees its release only when all devices are done with its slot. -/
theorem mayPass (h : TimerInv n evs s) {i : Nat} (hi : i ∈ s.devList)
    (hwait : (s.threads i).phase = .waiting) (hdone : (s.dev i).done = false) :
    MayPass s.devList s.threads i := by
  intro j hj
  rcases eq_or_ne (s.threads j).phase .left with hleft | hatt
  · exact .inl hleft
  · have hd := h.device i hi
    have hslot := hd.slot (by change (s.threads i).phase ≠ _; rw [hwait]; decide)
    rw [if_pos ⟨hwait, hdone⟩] at hslot
    have hrel := hd.released
    have hfin := h.ticks_le_finished hj hatt
    change (s.threads i).slot + 1 = _ at hslot
    right
    omega

/-- The timer has looked at a device and does not have to wait for it. -/
theorem check (h : TimerInv n evs s) {i : Nat} {rest : List Nat} {fsh event : Nat}
    (hl : s.loc = .scan (i :: rest) fsh event) (hready : (s.dev i).ready) :
    TimerInv n (evs ++ [.check i])
      { s with loc := .scan rest (if (s.dev i).fsh then fsh + 1 else fsh) (event + 1) } := by
  have hloc := h.loc
  rw [LocOk, hl] at hloc
  obtain ⟨hscan, hle, hall⟩ := hloc
  refine h.move rfl rfl rfl (by rw [hl]; rfl) ⟨fun j hj hrest => ?_, ?_, fun heq j hj hrest => ?_⟩
    (by simp) (by simp)
  · rcases eq_or_ne j i with rfl | hji
    · exact hready
    · exact hscan j hj (by simp [hji, hrest])
  · split <;> omega
  · -- the counters stay equal only as long as every device is detached
    split at heq
    · rename_i hfsh
      rcases eq_or_ne j i with rfl | hji
      · exact (h.device j hj).fsh.mp hfsh
      · exact hall (by omega) j hj (by simp [hji, hrest])
    · omega

theorem tick (h : TimerInv n evs s) {fsh event : Nat} (hl : s.loc = .scan [] fsh event) :
    TimerInv n (evs ++ [.tick])
      { s with loc := .clear s.devList fsh event, time := s.time + 1 } := by
  have hloc := h.loc
  rw [LocOk, hl] at hloc
  obtain ⟨hscan, -, hall⟩ := hloc
  refine ⟨h.devs, ?_, fun i hi => ?_, h.nodup, fun i hi => hscan i hi (by simp),
    fun heq i hi => hall heq i hi (by simp)⟩
  · rw [count_snoc, if_pos rfl]
    exact congrArg (· + 1) h.time
  · have hd := h.device i hi
    have hrel := hd.released
    have hle := hd.le
    have hone : s.devList.count i = 1 := List.count_eq_one_of_mem h.nodup hi
    rw [hl] at hrel
    simp only [TimerLoc.pending, List.count_nil] at hrel
    simp only [count_snoc, reduceCtorEq, if_false, if_true, Nat.add_zero, TimerLoc.pending, hone]
    exact ⟨hd.fsh, hd.done, by omega, hd.slot, by omega⟩

theorem clear (h : TimerInv n evs s) {i : Nat} {rest : List Nat} {fsh event : Nat}
    (hl : s.loc = .clear (i :: rest) fsh event) :
    TimerInv n (evs ++ [.clear i])
      { s.setDev i { s.dev i with done := false } with loc := .clear rest fsh event } := by
  have hloc := h.loc
  rw [LocOk, hl] at hloc
  obtain ⟨hrest, hready, hall⟩ := hloc
  have hi : i ∉ rest := (List.nodup_cons.mp hrest).1
  refine ⟨h.devs, ?_, fun j hj => ?_, (List.nodup_cons.mp hrest).2, fun j hj => ?_,
    fun heq j hj => ?_⟩
  · rw [count_snoc, if_neg (by simp)]
    exact h.time
  · have hd := h.device j hj
    rw [hl] at hd
    simp only [TimerLoc.pending, List.count_cons, beq_iff_eq] at hd
    simp only [count_snoc, TimerEvent.clear.injEq, reduceCtorEq, if_false, Nat.add_zero,
      TimerT.setDev, TimerLoc.pending]
    rcases eq_or_ne j i with rfl | hji
    · rw [if_pos rfl] at hd
      rw [if_pos rfl, Function.update_self]
      exact hd.clear (hready j (List.mem_cons_self ..))
    · rw [if_neg (Ne.symm hji)] at hd
      rw [if_neg (Ne.symm hji), Function.update_of_ne hji]
      exact hd
  · have hji : j ≠ i := fun heq => hi (heq ▸ hj)
    simp only [TimerT.setDev, Function.update_of_ne hji]
    exact hready j (List.mem_cons_of_mem i hj)
  · have hleft := hall heq j hj
    rcases eq_or_ne j i with rfl | hji
    · simp only [TimerT.setDev, TimerT.threads, Function.update_self]
      exact hleft
    · simp only [TimerT.setDev, TimerT.threads, Function.update_of_ne hji]
      exact hleft

theorem step (h : TimerInv n evs s) (hstep : timerStep s ev = some t) :
    TimerInv n (evs ++ [ev]) t := by
  cases timerStep_cases hstep with
  | enter hl =>
      cases hstop : s.timerStop with
      | true => exact h.move rfl rfl rfl (by rw [hl]; rfl) (.inl rfl) (by simp) (by simp)
      | false =>
          refine h.move rfl rfl rfl (by rw [hl]; rfl) ⟨fun i hi hnot => absurd hi hnot, ?_,
            fun _ i hi hnot => absurd hi hnot⟩ (by simp) (by simp)
          exact Nat.le_refl 0
  | wait i => exact h.move rfl rfl rfl rfl h.loc (by simp) (by simp)
  | check hl hready => exact h.check hl hready
  | tick hl => exact h.tick hl
  | clear hl => exact h.clear hl
  | @compare fsh event hl =>
      have hloc := h.loc
      rw [LocOk, hl] at hloc
      split
      · rename_i heq
        exact h.move rfl rfl rfl (by rw [hl]; rfl) (.inr (hloc.2.2 heq)) (by simp) (by simp)
      · exact h.move rfl rfl rfl (by rw [hl]; rfl) trivial (by simp) (by simp)
  | @report i hi hwork =>
      refine h.setDev (by simp) (by simp) ((h.device i hi).report hwork) (fun _ => .inl rfl)
        fun hleft => ?_
      rw [hwork] at hleft
      cases hleft
  | blocked i => exact h.move rfl rfl rfl rfl h.loc (by simp) (by simp)
  | @pass i hi hwait hdone =>
      have hd := h.device i hi
      refine h.setDev (by simp) (by simp) (hd.pass hwait hdone) (fun hready => ?_) fun hleft => ?_
      · rcases hready with hready | hready
        · rw [hdone] at hready
          cases hready
        · exact .inr hready
      · rw [hwait] at hleft
        cases hleft
  | @detach i hi hwork =>
      exact h.setDev (by simp) (by simp) ((h.device i hi).leave hwork) (fun _ => .inr rfl)
        fun _ => rfl
  | stop =>
      exact h.move rfl rfl rfl rfl (h.loc.mono rfl rfl (fun _ => rfl) (fun _ => id) fun _ => id)
        (by simp) (by simp)

end TimerInv

theorem attached_eq (n : Nat) :
    attached n = { initTimer with devList := (List.range n).reverse } := by
  induction n with
  | zero => rfl
  | succ n ih =>
      rw [attached, ih, attachEvent, List.range_succ, List.reverse_append, List.length_reverse,
        List.length_range]
      simp only [initTimer, TimerT.mk.injEq, List.reverse_singleton, List.singleton_append,
        and_true]
      exact Function.update_eq_self n _

theorem TimerInv.attached (n : Nat) : TimerInv n [] (Sched.attached n) := by
  rw [attached_eq]
  refine ⟨rfl, rfl, fun i _ => ⟨?_, ?_, rfl, fun _ => rfl, Nat.le_refl 0⟩, trivial⟩
  · simp [initTimer, newDevice]
  · simp [initTimer, newDevice]

/-- In every order of the steps of the timer and of `n` devices: a device
goes on to its next slot only when every device is done with the slot it
leaves, or detached; every tick releases each device once, and an attached
device goes on once for each release; and the timer ends before
`stop_timer` only if all devices are detached. -/
theorem timer_is_barrier {n : Nat} {evs : List TimerEvent} {s : TimerT}
    (hrun : Run (Step timerStep) (attached n) evs s) :
    (∀ ev t, timerStep s ev = some t → ∀ i < n,
      (t.threads i).slot = (s.threads i).slot ∨
        (t.threads i).slot = (s.threads i).slot + 1 ∧
          ∀ j < n, (s.threads j).phase = .left ∨ (s.threads i).slot < (s.threads j).finished) ∧
    (∀ i < n, evs.count (.clear i) + s.loc.pending.count i = evs.count .tick ∧
      s.loc.pending.count i ≤ 1 ∧
      ((s.threads i).phase ≠ .left →
        (s.threads i).slot +
            (if (s.threads i).phase = .waiting ∧ (s.dev i).done = false then 1 else 0) =
          evs.count (.clear i))) ∧
    (s.loc = .exited → s.timerStop = true ∨ ∀ i < n, (s.threads i).phase = .left) := by
  have h : TimerInv n evs s :=
    hrun.history (fun _ _ _ _ hs hstep => hs.step hstep) (.attached n)
  have hmem {i : Nat} : i ∈ s.devList ↔ i < n := by
    rw [h.devs, List.mem_reverse, List.mem_range]
  refine ⟨fun ev t hstep i hi => ?_, fun i hi => ?_, fun hexit => ?_⟩
  · have hset (j : Nat) (d : Device) (hd : d.thread.slot = (s.threads j).slot) :
        ((s.setDev j d).threads i).slot = (s.threads i).slot := by
      rcases eq_or_ne i j with rfl | hij
      · simp only [TimerT.setDev, TimerT.threads, Function.update_self]
        exact hd
      · simp only [TimerT.setDev, TimerT.threads, Function.update_of_ne hij]
    cases timerStep_cases hstep with
    | @pass j hj hwait hdone =>
        rcases eq_or_ne i j with rfl | hij
        · refine .inr ⟨?_, fun k hk => h.mayPass hj hwait hdone k (hmem.mpr hk)⟩
          simp only [TimerT.setDev, TimerT.threads, Function.update_self]
          rfl
        · left
          simp only [TimerT.setDev, TimerT.threads, Function.update_of_ne hij]
    | @clear j => exact .inl (hset j _ rfl)
    | @report j => exact .inl (hset j _ rfl)
    | @detach j => exact .inl (hset j _ rfl)
    | enter | wait | check | tick | compare | blocked | stop => exact .inl rfl
  · have hd := h.device i (hmem.mpr hi)
    exact ⟨hd.released, List.nodup_iff_count_le_one.mp h.loc.pending_nodup i, hd.slot⟩
  · have hloc := h.loc
    rw [LocOk, hexit] at hloc
    exact hloc.imp_right fun hall i hi => hall i (hmem.mpr hi)

/-- Two devices. Device 1 reports slot 0 and is released first; it reports
slot 1 before device 0 is released from slot 0. -/
def earlyReport : List TimerEvent :=
  [.report 1, .enter, .check 1, .report 0, .check 0, .tick, .clear 1, .poll 1, .report 1, .clear 0]

theorem earlyReport_isSome : (exec timerStep (attached 2) earlyReport).isSome = true := by
  decide +kernel

theorem timer_is_barrier_earlyReport : ∃ s, Run (Step timerStep) (attached 2) earlyReport s ∧
    earlyReport.count (.clear 0) + s.loc.pending.count 0 = earlyReport.count .tick := by
  have hrun := run_of_exec (Option.some_get earlyReport_isSome).symm
  exact ⟨_, hrun, ((timer_is_barrier hrun).2.1 0 (by decide)).1⟩

end Ossim.Sched
