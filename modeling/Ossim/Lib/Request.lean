import Mathlib.Data.List.Basic

/-!
Computations that make requests.

A computation that asks and goes on with the answer is a tree with one branch
for each answer. Under a function that answers every request it has a result
and a list of the requests it made, in their order. A program that is written
down a second time in this form is tied to the first by its result, and then
its requests are the ones of the tree and nothing else.

Where requests are made in a state, a computation can be idle between them as
to a property of the state. Whatever has come about is then due to an answer.
-/

namespace Ossim.Lib

/-- A computation that asks for `A`s by requests of type `Q`. -/
inductive Requesting (Q A α : Type*)
  | done (a : α)
  | ask (q : Q) (next : A → Requesting Q A α)

namespace Requesting

variable {Q A α β : Type*} (answer : Q → A)

def bind (f : α → Requesting Q A β) : Requesting Q A α → Requesting Q A β
  | .done a => f a
  | .ask q next => .ask q fun a => bind f (next a)

def map (f : α → β) : Requesting Q A α → Requesting Q A β := bind fun a => .done (f a)

/-- The result under the given answers. -/
def result : Requesting Q A α → α
  | .done a => a
  | .ask q next => result (next (answer q))

/-- The requests made under the given answers. -/
def requests : Requesting Q A α → List Q
  | .done _ => []
  | .ask q next => q :: requests (next (answer q))

variable (m : Requesting Q A α)

@[simp] theorem result_bind (f : α → Requesting Q A β) :
    (m.bind f).result answer = (f (m.result answer)).result answer := by
  induction m with
  | done a => rfl
  | ask q next ih => exact ih (answer q)

@[simp] theorem requests_bind (f : α → Requesting Q A β) : (m.bind f).requests answer =
    m.requests answer ++ (f (m.result answer)).requests answer := by
  induction m with
  | done a => rfl
  | ask q next ih => exact congrArg (q :: ·) (ih (answer q))

@[simp] theorem result_map (f : α → β) : (m.map f).result answer = f (m.result answer) :=
  result_bind answer m _

@[simp] theorem requests_map (f : α → β) : (m.map f).requests answer = m.requests answer := by
  rw [map, requests_bind]
  exact List.append_nil _

/-! ### States

A request is made in a state, and its answer brings another. -/

section States

variable {σ : Type*} (before : Q → σ) (after : A → σ) (P : σ → Prop) {final : α → Option σ}
  {final' : β → Option σ} {s : σ}

/-- From the state `s` on, `P` does not come about between the requests. What
an answer does to it is left open. -/
def Idle (final : α → Option σ) : σ → Requesting Q A α → Prop
  | s, .done a => ∀ t, final a = some t → P t → P s
  | s, .ask q next =>
    (P (before q) → P s) ∧ Idle final (after (answer q)) (next (answer q))

variable {answer before after P} {m : Requesting Q A α}

theorem Idle.of_imp {t : σ} (hst : P t → P s) (h : m.Idle answer before after P final t) :
    m.Idle answer before after P final s := by
  cases m with
  | done a => exact fun u hu hP => hst (h u hu hP)
  | ask q next => exact ⟨fun hP => hst (h.1 hP), h.2⟩

/-- A computation goes on where the first part has left the state. -/
theorem Idle.bind {f : α → Requesting Q A β} (h : m.Idle answer before after P final s)
    (hf : ∀ a, ∃ t, final a = some t ∧ (f a).Idle answer before after P final' t) :
    (m.bind f).Idle answer before after P final' s := by
  induction m generalizing s with
  | done a =>
      obtain ⟨t, ht, hidle⟩ := hf a
      exact hidle.of_imp (h t ht)
  | ask q next ih => exact ⟨h.1, ih (answer q) h.2⟩

theorem Idle.map {f : α → β} (h : m.Idle answer before after P final s)
    (hf : ∀ a u, final' (f a) = some u → P u → ∃ t, final a = some t ∧ P t) :
    (m.map f).Idle answer before after P final' s := by
  induction m generalizing s with
  | done a =>
      intro u hu hP
      obtain ⟨t, ht, hPt⟩ := hf a u hu hP
      exact h t ht hPt
  | ask q next ih => exact ⟨h.1, ih (answer q) h.2⟩

/-- Then some answer has brought it about, if it holds at the end and did not
at the start. -/
theorem Idle.exists_request {t : σ} (h : m.Idle answer before after P final s)
    (ht : final (m.result answer) = some t) (hs : ¬P s) (hP : P t) :
    ∃ q ∈ m.requests answer, ¬P (before q) ∧ P (after (answer q)) := by
  induction m generalizing s with
  | done a => exact absurd (h t ht hP) hs
  | ask q next ih =>
      by_cases hafter : P (after (answer q))
      · exact ⟨q, List.mem_cons_self, fun hbefore => hs (h.1 hbefore), hafter⟩
      · obtain ⟨q', hmem, hq'⟩ := ih (answer q) h.2 ht hafter
        exact ⟨q', List.mem_cons_of_mem _ hmem, hq'⟩

end States

end Requesting

end Ossim.Lib
