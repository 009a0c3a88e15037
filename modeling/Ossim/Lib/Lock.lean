import Mathlib.Logic.Relation
import Ossim.Lib.Run

/-!
Code seen through its mutexes.

A piece of code is reduced to the mutexes it takes and gives back; every
test in it becomes a free choice, so that its paths are all the paths the
control flow has and not only those that some input takes. A path is the
list of mutex operations on it.

`wp` is a weakest precondition over the mutexes held. It asks at every
acquisition that the mutex ranks above all that are held, and at every
release that the mutex is held; a loop has to leave alone what is held.
Threads that run paths of this kind, in any interleaving, never wait for
each other in a circle, because each waits for a mutex of higher rank than
any it holds.
-/

namespace Ossim.Lib

variable {L : Type*}

/-- An operation on a mutex. -/
inductive LockOp (L : Type*)
  | acquire (l : L)
  | release (l : L)

inductive Code (L : Type*)
  | skip
  | acquire (l : L)
  | release (l : L)
  /-- `return`, out of the function that is being called -/
  | ret
  /-- the end of the whole program -/
  | exit
  | seq (a b : Code L)
  | alt (a b : Code L)
  /-- any number of rounds -/
  | loop (a : Code L)
  /-- a function body -/
  | call (a : Code L)

namespace Code

instance : AndThen (Code L) := ⟨fun a b => a.seq (b ())⟩

/-- A branch without `else`. -/
def maybe (a : Code L) : Code L := a.alt .skip

/-- How a piece of code is left. -/
inductive Outcome
  | next
  | returned
  | exited
  deriving DecidableEq

/-- The paths through a piece of code. -/
inductive Path : Code L → List (LockOp L) → Outcome → Prop
  | skip : Path .skip [] .next
  | acquire (l : L) : Path (.acquire l) [.acquire l] .next
  | release (l : L) : Path (.release l) [.release l] .next
  | ret : Path .ret [] .returned
  | exit : Path .exit [] .exited
  | seq {a b : Code L} {p q : List (LockOp L)} {o : Outcome} (ha : Path a p .next)
      (hb : Path b q o) : Path (a.seq b) (p ++ q) o
  | seqLeft {a b : Code L} {p : List (LockOp L)} {o : Outcome} (ha : Path a p o)
      (ho : o ≠ .next) : Path (a.seq b) p o
  | left {a b : Code L} {p : List (LockOp L)} {o : Outcome} (ha : Path a p o) : Path (a.alt b) p o
  | right {a b : Code L} {p : List (LockOp L)} {o : Outcome} (hb : Path b p o) : Path (a.alt b) p o
  | loopEnd {a : Code L} : Path a.loop [] .next
  | loopRound {a : Code L} {p q : List (LockOp L)} {o : Outcome} (ha : Path a p .next)
      (hrest : Path a.loop q o) : Path a.loop (p ++ q) o
  | loopLeft {a : Code L} {p : List (LockOp L)} {o : Outcome} (ha : Path a p o)
      (ho : o ≠ .next) : Path a.loop p o
  | call {a : Code L} {p : List (LockOp L)} {o : Outcome} (ha : Path a p o)
      (ho : o ≠ .exited) : Path a.call p .next
  | callExit {a : Code L} {p : List (LockOp L)} (ha : Path a p .exited) : Path a.call p .exited

end Code

/-! ### Lock order -/

section Order

/-- All mutexes in `held` rank below `r`. -/
def Below (rank : L → Nat) (r : Nat) (held : List L) : Prop := ∀ l ∈ held, rank l < r

section

variable {rank : L → Nat} {r : Nat} {held : List L}

@[simp] theorem below_nil : Below rank r [] := fun _ h => nomatch h

@[simp] theorem below_cons {l : L} : Below rank r (l :: held) ↔ rank l < r ∧ Below rank r held :=
  List.forall_mem_cons

theorem Below.mono {r' : Nat} (h : Below rank r held) (hle : r ≤ r') : Below rank r' held :=
  fun l hl => Nat.lt_of_lt_of_le (h l hl) hle

end

variable [DecidableEq L] (rank : L → Nat)

/-- The operations respect the order, release only what is held, and end
with the mutexes that `Q` allows. -/
def Obeys : List L → List (LockOp L) → (List L → Prop) → Prop
  | held, [], Q => Q held
  | held, .acquire l :: ops, Q => Below rank (rank l) held ∧ Obeys (l :: held) ops Q
  | held, .release l :: ops, Q => l ∈ held ∧ Obeys (held.erase l) ops Q

/-- From `held`, every path of the code respects the order and ends in `N`,
or by a `return` in `R`. -/
def wp : Code L → (List L → Prop) → (List L → Prop) → List L → Prop
  | .skip, N, _, held => N held
  | .acquire l, N, _, held => Below rank (rank l) held ∧ N (l :: held)
  | .release l, N, _, held => l ∈ held ∧ N (held.erase l)
  | .ret, _, R, held => R held
  | .exit, _, _, held => held = []
  | .seq a b, N, R, held => wp a (wp b N R) R held
  | .alt a b, N, R, held => wp a N R held ∧ wp b N R held
  | .loop a, N, R, held => N held ∧ wp a (· = held) R held
  | .call a, N, _, held => wp a N N held

variable {rank} {held : List L} {N R Q : List L → Prop}

@[simp] theorem wp_skip : wp rank .skip N R held ↔ N held := Iff.rfl

@[simp] theorem wp_acquire {l : L} :
    wp rank (.acquire l) N R held ↔ Below rank (rank l) held ∧ N (l :: held) := Iff.rfl

@[simp] theorem wp_release {l : L} :
    wp rank (.release l) N R held ↔ l ∈ held ∧ N (held.erase l) := Iff.rfl

@[simp] theorem wp_ret : wp rank .ret N R held ↔ R held := Iff.rfl

@[simp] theorem wp_exit : wp rank .exit N R held ↔ held = [] := Iff.rfl

@[simp] theorem wp_seq {a b : Code L} :
    wp rank (a >> b) N R held ↔ wp rank a (wp rank b N R) R held := Iff.rfl

@[simp] theorem wp_alt {a b : Code L} :
    wp rank (a.alt b) N R held ↔ wp rank a N R held ∧ wp rank b N R held := Iff.rfl

@[simp] theorem wp_maybe {a : Code L} :
    wp rank a.maybe N R held ↔ wp rank a N R held ∧ N held := Iff.rfl

@[simp] theorem wp_loop {a : Code L} :
    wp rank a.loop N R held ↔ N held ∧ wp rank a (· = held) R held := Iff.rfl

@[simp] theorem wp_call {a : Code L} : wp rank a.call N R held ↔ wp rank a N N held := Iff.rfl

theorem Obeys.mono {ops : List (LockOp L)} {Q' : List L → Prop} (hQ : ∀ held, Q held → Q' held)
    (h : Obeys rank held ops Q) : Obeys rank held ops Q' := by
  induction ops generalizing held with
  | nil => exact hQ held h
  | cons op ops ih =>
      cases op with
      | acquire l => exact ⟨h.1, ih h.2⟩
      | release l => exact ⟨h.1, ih h.2⟩

theorem Obeys.append {p q : List (LockOp L)}
    (h : Obeys rank held p fun held' => Obeys rank held' q Q) : Obeys rank held (p ++ q) Q := by
  induction p generalizing held with
  | nil => exact h
  | cons op p ih =>
      cases op with
      | acquire l => exact ⟨h.1, ih h.2⟩
      | release l => exact ⟨h.1, ih h.2⟩

/-- What may be held where a piece of code is left. -/
def Code.Outcome.post (N R : List L → Prop) : Code.Outcome → List L → Prop
  | .next => N
  | .returned => R
  | .exited => (· = [])

theorem obeys_of_wp {a : Code L} {ops : List (LockOp L)} {o : Code.Outcome}
    (hpath : Code.Path a ops o) (h : wp rank a N R held) :
    Obeys rank held ops (o.post N R) := by
  induction hpath generalizing held N R with
  | skip | ret | exit => exact h
  | acquire l | release l => exact h
  | seq ha hb iha ihb => exact .append ((iha h).mono fun _ h' => ihb h')
  | @seqLeft a b p o ha ho iha =>
      have hleft := iha (N := wp rank b N R) h
      cases o with
      | next => exact absurd rfl ho
      | returned | exited => exact hleft
  | left ha ih => exact ih h.1
  | right hb ih => exact ih h.2
  | loopEnd => exact h.1
  | loopRound ha hrest iha ihrest =>
      -- a round leaves the mutexes as they were, so the rest starts from the same ones
      refine .append ((iha h.2).mono fun held' heq => ?_)
      cases heq
      exact ihrest h
  | @loopLeft a p o ha ho iha =>
      have hleft := iha (N := (· = held)) h.2
      cases o with
      | next => exact absurd rfl ho
      | returned | exited => exact hleft
  | @call a p o ha ho iha =>
      have hbody := iha (N := N) (R := N) h
      cases o with
      | next | returned => exact hbody
      | exited => exact absurd rfl ho
  | callExit ha iha => exact iha (N := N) (R := N) h

/-- Code that holds nothing afterwards, wherever it is left. -/
theorem obeys_of_wp_nil {a : Code L} {ops : List (LockOp L)} {o : Code.Outcome}
    (hpath : Code.Path a ops o) (h : wp rank a (· = []) (· = []) []) :
    Obeys rank [] ops (· = []) := by
  refine (obeys_of_wp hpath h).mono fun held hpost => ?_
  cases o <;> exact hpost

end Order

/-! ### Threads -/

variable {T : Type*} [DecidableEq L]

/-- What each thread holds, and what is left of the call it is in. -/
structure Threads (T L : Type*) where
  held : T → List L
  todo : T → List (LockOp L)

/-- No thread is in a call. -/
def Threads.idle : Threads T L := ⟨fun _ => [], fun _ => []⟩

/-- Thread `t` requests mutex `l`. -/
def Threads.Requests (s : Threads T L) (t : T) (l : L) : Prop :=
  ∃ ops, s.todo t = .acquire l :: ops

/-- Thread `t` requests a mutex that `u` holds. -/
def Threads.WaitsFor (s : Threads T L) (t u : T) : Prop := ∃ l, s.Requests t l ∧ l ∈ s.held u

variable {rank : L → Nat} {s s' : Threads T L} {t u : T}

/-- Every thread obeys the order in what is left of its call. -/
def Threads.Ordered (rank : L → Nat) (s : Threads T L) : Prop :=
  ∀ t, Obeys rank (s.held t) (s.todo t) (· = [])

theorem Threads.Ordered.below (h : s.Ordered rank) {l : L} (hreq : s.Requests t l) :
    Below rank (rank l) (s.held t) := by
  obtain ⟨ops, htodo⟩ := hreq
  have ht := h t
  rw [htodo] at ht
  exact ht.1

/-- Along a chain of waiting threads the rank of what is requested does not
exceed the rank of what the last one holds. -/
theorem Threads.Ordered.chain (h : s.Ordered rank) (hwait : Relation.TransGen s.WaitsFor t u)
    {l : L}
    (hreq : s.Requests t l) : ∃ m ∈ s.held u, rank l ≤ rank m := by
  induction hwait with
  | single hwait =>
      obtain ⟨m, ⟨ops, hm⟩, hheld⟩ := hwait
      obtain ⟨ops', hl⟩ := hreq
      rw [hl] at hm
      cases hm
      exact ⟨l, hheld, Nat.le_refl _⟩
  | tail _ hlast ih =>
      obtain ⟨m, hm, hle⟩ := ih
      obtain ⟨n, hn, hheld⟩ := hlast
      exact ⟨n, hheld, Nat.le_trans hle (Nat.le_of_lt (h.below hn m hm))⟩

theorem Threads.Ordered.no_cycle (h : s.Ordered rank) (t : T) :
    ¬Relation.TransGen s.WaitsFor t t := by
  intro hcycle
  obtain ⟨u, ⟨l, hreq, -⟩, -⟩ := Relation.TransGen.head'_iff.mp hcycle
  obtain ⟨m, hm, hle⟩ := h.chain hcycle hreq
  exact Nat.lt_irrefl _ (Nat.lt_of_lt_of_le (h.below hreq m hm) hle)

variable [DecidableEq T] {paths : List (LockOp L) → Prop}

/-- A step of thread `t`: it starts a call along one of `paths`, takes a mutex
that no thread holds, or gives one back. -/
inductive Threads.Step (paths : List (LockOp L) → Prop) (s : Threads T L) (t : T) :
    Threads T L → Prop
  | start {ops : List (LockOp L)} (hidle : s.todo t = []) (hops : paths ops) :
      Step paths s t ⟨s.held, Function.update s.todo t ops⟩
  | acquire {l : L} {ops : List (LockOp L)} (htodo : s.todo t = .acquire l :: ops)
      (hfree : ∀ u, l ∉ s.held u) :
      Step paths s t
        ⟨Function.update s.held t (l :: s.held t), Function.update s.todo t ops⟩
  | release {l : L} {ops : List (LockOp L)} (htodo : s.todo t = .release l :: ops) :
      Step paths s t
        ⟨Function.update s.held t ((s.held t).erase l), Function.update s.todo t ops⟩

theorem Threads.Ordered.step (h : s.Ordered rank)
    (hpaths : ∀ ops, paths ops → Obeys rank [] ops (· = [])) (hstep : s.Step paths t s') :
    s'.Ordered rank := by
  intro u
  have hu := h u
  cases hstep with
  | @start ops hidle hops =>
      rcases eq_or_ne u t with rfl | hut
      · rw [hidle] at hu
        change s.held u = [] at hu
        simp only [Function.update_self, hu]
        exact hpaths ops hops
      · simp only [Function.update_of_ne hut]
        exact hu
  | acquire htodo hfree | release htodo =>
      rcases eq_or_ne u t with rfl | hut
      · rw [htodo] at hu
        simp only [Function.update_self]
        exact hu.2
      · simp only [Function.update_of_ne hut]
        exact hu

/-- Threads that run calls which obey a lock order never request what they
hold, hold nothing between calls, release only what they hold, and never
wait for each other in a circle. -/
theorem Threads.deadlock_free (hpaths : ∀ ops, paths ops → Obeys rank [] ops (· = []))
    {ts : List T} (hrun : Run (Threads.Step paths) Threads.idle ts s) :
    (∀ t l, s.Requests t l → l ∉ s.held t) ∧ (∀ t, s.todo t = [] → s.held t = []) ∧
      (∀ t l ops, s.todo t = .release l :: ops → l ∈ s.held t) ∧
      ∀ t, ¬Relation.TransGen s.WaitsFor t t := by
  have hord : s.Ordered rank :=
    hrun.invariant (fun _ _ _ h hstep => h.step hpaths hstep) fun _ => rfl
  refine ⟨fun t l hreq hheld => Nat.lt_irrefl _ (hord.below hreq l hheld), fun t htodo => ?_,
    fun t l ops htodo => ?_, hord.no_cycle⟩
  · have ht := hord t
    rwa [htodo] at ht
  · have ht := hord t
    rw [htodo] at ht
    exact ht.1

end Ossim.Lib
