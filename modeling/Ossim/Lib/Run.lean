import Mathlib.Data.List.Basic

/-!
Runs of a labelled transition relation.

A run is a list of labels together with the states it goes through, read
off an arbitrary relation `R s a t` ("label `a` leads from `s` to `t`").
Side conditions on single steps are part of the relation, so the same
rules serve for a restricted set of labels, for a bound that every
reached state has to respect, and for the plain executable step.
-/

namespace Ossim.Lib

variable {σ α : Type*}

/-- `Run R s as t`: taking the labels `as` in order leads from `s` to `t`. -/
inductive Run (R : σ → α → σ → Prop) : σ → List α → σ → Prop
  | nil (s : σ) : Run R s [] s
  | cons {s t u : σ} {a : α} {as : List α} (h : R s a t) (rest : Run R t as u) :
      Run R s (a :: as) u

namespace Run

variable {R R' : σ → α → σ → Prop} {s t u : σ} {a : α} {as bs : List α}

/-- What every step preserves, every run preserves. -/
theorem invariant {I : σ → Prop} (hstep : ∀ s a t, I s → R s a t → I t)
    (h : Run R s as t) (hs : I s) : I t := by
  induction h with
  | nil s => exact hs
  | cons hR _ ih => exact ih (hstep _ _ _ hs hR)

/-- The same for what depends on the labels taken so far. -/
theorem history {I : List α → σ → Prop} (hstep : ∀ as s a t, I as s → R s a t → I (as ++ [a]) t)
    (h : Run R s as t) (hs : I [] s) : I as t := by
  suffices hgo : ∀ bs, I bs s → I (bs ++ as) t from hgo [] hs
  clear hs
  induction h with
  | nil s => exact fun bs hI => by rwa [List.append_nil]
  | cons hR _ ih =>
      intro bs hI
      rw [List.append_cons]
      exact ih _ (hstep _ _ _ _ hI hR)

theorem mono (hR : ∀ s a t, R s a t → R' s a t) (h : Run R s as t) : Run R' s as t := by
  induction h with
  | nil s => exact .nil s
  | cons hstep _ ih => exact .cons (hR _ _ _ hstep) ih

theorem append (h₁ : Run R s as t) (h₂ : Run R t bs u) : Run R s (as ++ bs) u := by
  induction h₁ with
  | nil s => exact h₂
  | cons hstep _ ih => exact .cons hstep (ih h₂)

/-- A run of `as ++ bs` passes through a state between the two parts. -/
theorem split (h : Run R s (as ++ bs) u) : ∃ t, Run R s as t ∧ Run R t bs u := by
  induction as generalizing s with
  | nil => exact ⟨s, .nil s, h⟩
  | cons a as ih =>
      cases h with
      | cons hstep hrest =>
          obtain ⟨t, has, hbs⟩ := ih hrest
          exact ⟨t, .cons hstep has, hbs⟩

theorem snoc (h₁ : Run R s as t) (h₂ : R t a u) : Run R s (as ++ [a]) u :=
  h₁.append (.cons h₂ (.nil u))

/-- Two runs side by side: what pairs of steps under related labels
preserve, runs under related labels preserve. -/
theorem lockstep {Q : σ → σ → Prop} {L : α → α → Prop}
    (hstep : ∀ s t a b s' t', Q s t → L a b → R s a s' → R t b t' → Q s' t') {s' t' : σ}
    (hL : List.Forall₂ L as bs) (h : Run R s as s') (h' : Run R t bs t') (hQ : Q s t) :
    Q s' t' := by
  induction h generalizing t bs with
  | nil s =>
      cases hL
      cases h'
      exact hQ
  | cons hR _ ih =>
      cases hL with
      | cons hab hL =>
          cases h' with
          | cons hR' rest' => exact ih hL rest' (hstep _ _ _ _ _ _ hQ hab hR hR')

end Run

/-! ### Executable runs -/

/-- The state an executable step function reaches, if every step succeeds. -/
def exec (step : σ → α → Option σ) : σ → List α → Option σ
  | s, [] => some s
  | s, a :: as => (step s a).bind fun t => exec step t as

/-- The transition relation of an executable step function. -/
def Step (step : σ → α → Option σ) (s : σ) (a : α) (t : σ) : Prop := step s a = some t

theorem run_of_exec {step : σ → α → Option σ} {s t : σ} {as : List α}
    (h : exec step s as = some t) : Run (Step step) s as t := by
  induction as generalizing s with
  | nil =>
      simp only [exec, Option.some.injEq] at h
      exact h ▸ .nil s
  | cons a as ih =>
      simp only [exec, Option.bind_eq_some_iff] at h
      obtain ⟨u, hu, hrest⟩ := h
      exact .cons hu (ih hrest)

/-- Every step of an execution satisfies `P` in the state it starts in. -/
def Along (step : σ → α → Option σ) (P : σ → α → Prop) : σ → List α → Prop
  | _, [] => True
  | s, a :: as => P s a ∧ ∀ t, step s a = some t → Along step P t as

theorem along_congr {step : σ → α → Option σ} {P Q : σ → α → Prop} (h : ∀ s a, P s a ↔ Q s a)
    {s : σ} {as : List α} : Along step P s as ↔ Along step Q s as := by
  induction as generalizing s with
  | nil => exact Iff.rfl
  | cons a as ih => exact and_congr (h s a) (forall₂_congr fun _ _ => ih)

theorem Along.of_run {step : σ → α → Option σ} {P : σ → α → Prop} {s t : σ} {a : α}
    {as bs : List α} (h : Along step P s (as ++ a :: bs)) (hrun : Run (Step step) s as t) :
    P t a := by
  induction hrun with
  | nil s => exact h.1
  | cons hstep _ ih => exact ih (h.2 _ hstep)

/-- A step function that gives up where a side condition fails. -/
def guarded (step : σ → α → Option σ) (ok : σ → α → σ → Bool) (s : σ) (a : α) : Option σ :=
  (step s a).filter (ok s a)

theorem run_of_exec_guarded {step : σ → α → Option σ} {ok : σ → α → σ → Bool}
    {R : σ → α → σ → Prop} (hR : ∀ s a t, step s a = some t → ok s a t = true → R s a t) {s t : σ}
    {as : List α} (h : exec (guarded step ok) s as = some t) : Run R s as t := by
  refine (run_of_exec h).mono fun s a t hstep => ?_
  obtain ⟨hstep, hok⟩ := Option.filter_eq_some_iff.mp hstep
  exact hR s a t hstep hok

theorem exec_of_guarded {step : σ → α → Option σ} {ok : σ → α → σ → Bool} {s t : σ}
    {as : List α} (h : exec (guarded step ok) s as = some t) : exec step s as = some t := by
  induction as generalizing s with
  | nil => exact h
  | cons a as ih =>
      rw [exec, Option.bind_eq_some_iff] at h ⊢
      obtain ⟨u, hu, hrest⟩ := h
      exact ⟨u, (Option.filter_eq_some_iff.mp hu).1, ih hrest⟩

/-- Guards that let a run through do not change where it ends. -/
theorem exec_guarded_congr {step : σ → α → Option σ} {ok ok' : σ → α → σ → Bool}
    {s t : σ} {as : List α} (h : exec (guarded step ok) s as = some t)
    (hsome : (exec (guarded step ok') s as).isSome = true) :
    exec (guarded step ok') s as = some t := by
  obtain ⟨u, hu⟩ := Option.isSome_iff_exists.mp hsome
  rw [hu, ← exec_of_guarded hu, exec_of_guarded h]

/-! ### Answers -/

section

variable {τ β : Type*} {call : σ → α → Option (β × σ)} {call' : τ → α → Option (β × τ)}

/-- The answers to a list of calls and the state they lead to, if every call
is possible. -/
def replies (call : σ → α → Option (β × σ)) : σ → List α → Option (List β × σ)
  | s, [] => some ([], s)
  | s, a :: as => (call s a).bind fun r => (replies call r.2 as).map fun q => (r.1 :: q.1, q.2)

/-- What gives the same answer to every call gives the same answers to every
list of calls. -/
theorem replies_rel {Q : σ → τ → Prop}
    (hcall : ∀ s t a, Q s t →
      Option.Rel (fun x y => x.1 = y.1 ∧ Q x.2 y.2) (call s a) (call' t a))
    {s : σ} {t : τ} (hQ : Q s t) (as : List α) :
    Option.Rel (fun x y => x.1 = y.1 ∧ Q x.2 y.2) (replies call s as) (replies call' t as) := by
  induction as generalizing s t with
  | nil => exact .some ⟨rfl, hQ⟩
  | cons a as ih =>
      rw [replies, replies]
      have hfirst := hcall s t a hQ
      generalize call s a = x, call' t a = y at hfirst
      cases hfirst with
      | none => exact .none
      | @some x y hxy =>
          rw [Option.bind_some, Option.bind_some]
          have hrest := ih hxy.2
          generalize replies call x.2 as = xs, replies call' y.2 as = ys at hrest
          cases hrest with
          | none => exact .none
          | some hxs => exact .some ⟨congrArg₂ List.cons hxy.1 hxs.1, hxs.2⟩

end

end Ossim.Lib
