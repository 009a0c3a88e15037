import Mathlib.Logic.Function.Basic

/-!
Copying cells one at a time.

A memory is a function from places to values. The copy takes the cells in
order, and each round sees what the rounds before it have written. If no
cell is both read and written, and none is written twice, then this is the
copy of the whole range at once.

`copyLoop` is the program that does this through two operations that can
fail, and that may do more to the state than the memory shows. It stops at
the first failure, and what was copied before stays.
-/

namespace Ossim.Lib

variable {L V : Type*} [DecidableEq L] {src dst : Nat → L} {m : L → V} {n idx : Nat}

/-- The memory after `n` rounds, from round `idx` on. -/
def copied (src dst : Nat → L) : (n idx : Nat) → (L → V) → L → V
  | 0, _, m => m
  | n + 1, idx, m => copied src dst n (idx + 1) (Function.update m (dst idx) (m (src idx)))

/-- The cells outside the destination keep their values. -/
theorem copied_of_ne {l : L} (hl : ∀ i, idx ≤ i → i < idx + n → l ≠ dst i) :
    copied src dst n idx m l = m l := by
  induction n generalizing idx m with
  | zero => rfl
  | succ n ih =>
      rw [copied, ih fun i hle hlt => hl i (by omega) (by omega)]
      exact Function.update_of_ne (hl idx (by omega) (by omega)) _ _

/-- The cells of the destination have the values of the source. -/
theorem copied_dst (hsep : ∀ i j, src i ≠ dst j)
    (hinj : ∀ i j, i < j → j < idx + n → dst i ≠ dst j) {i : Nat} (hle : idx ≤ i)
    (hlt : i < idx + n) : copied src dst n idx m (dst i) = m (src i) := by
  induction n generalizing idx m with
  | zero => omega
  | succ n ih =>
      rw [copied]
      rcases Nat.eq_or_lt_of_le hle with rfl | hlt'
      · rw [copied_of_ne fun j hj hj' => hinj idx j (by omega) (by omega), Function.update_self]
      · rw [ih (fun a b hab hb => hinj a b hab (by omega)) (by omega) (by omega)]
        exact Function.update_of_ne (hsep i idx) _ _

/-- Nothing changes exactly if every cell had the value already. -/
theorem copied_eq_self_iff (hsep : ∀ i j, src i ≠ dst j)
    (hinj : ∀ i j, i < j → j < idx + n → dst i ≠ dst j) :
    copied src dst n idx m = m ↔ ∀ i, idx ≤ i → i < idx + n → m (dst i) = m (src i) := by
  constructor
  · intro hsame i hle hlt
    have hdst := copied_dst (m := m) hsep hinj hle hlt
    rwa [hsame] at hdst
  · intro hsame
    funext l
    by_cases hl : ∃ i, idx ≤ i ∧ i < idx + n ∧ l = dst i
    · obtain ⟨i, hle, hlt, rfl⟩ := hl
      rw [copied_dst hsep hinj hle hlt, hsame i hle hlt]
    · exact copied_of_ne fun i hle hlt heq => hl ⟨i, hle, hlt, heq⟩

/-! ### The loop -/

section Loop

variable {σ : Type*} (get : σ → Nat → Option V × σ) (put : σ → Nat → V → Bool × σ)

/-- Copy `left` cells, from round `idx` on; tells whether all were copied. -/
def copyLoop : (left idx : Nat) → σ → Bool × σ
  | 0, _, s => (true, s)
  | left + 1, idx, s =>
    match get s idx with
    | (none, s) => (false, s)
    | (some v, s) =>
      match put s idx v with
      | (false, s) => (false, s)
      | (true, s) => copyLoop left (idx + 1) s

/-- What the two operations do to the memory, as long as `I` holds. `Ok s i`
says that round `i` would go through in state `s`. -/
structure LoopSpec (view : σ → L → Option V) (src dst : Nat → L) (I : σ → Prop)
    (Ok : σ → Nat → Prop) : Prop where
  got : ∀ {s i r t}, I s → get s i = (r, t) →
    I t ∧ view t = view s ∧ ∀ v, r = some v → view s (src i) = some v
  placed : ∀ {s i v r t}, I s → put s i v = (r, t) →
    I t ∧ view t = if r then Function.update (view s) (dst i) (some v) else view s
  round : ∀ {s i v t u}, I s → get s i = (some v, t) → put t i v = (true, u) →
    Ok s i ∧ ∀ j, Ok u j → Ok s j

/-- A round that could go through at the start still can when its turn
comes, and a round fails only if it cannot go through. -/
structure LoopLasts (I : σ → Prop) (Ok : σ → Nat → Prop) : Prop where
  got : ∀ {s i t}, I s → get s i = (none, t) → ¬Ok s i
  placed : ∀ {s i v t u}, I s → get s i = (some v, t) → put t i v = (false, u) → ¬Ok s i
  round : ∀ {s i v t u}, I s → get s i = (some v, t) → put t i v = (true, u) →
    ∀ j, Ok s j → Ok u j

/-- The outcome of the loop: `n` cells are copied, one after the other, and
those are cells that could be copied at the start. -/
structure LoopEnd (view : σ → L → Option V) (src dst : Nat → L) (I : σ → Prop)
    (Ok : σ → Nat → Prop) (left idx : Nat) (s t : σ) (done : Bool) (n : Nat) : Prop where
  inv : I t
  le : n ≤ left
  all : done = true → n = left
  view : view t = copied src dst n idx (view s)
  ok : ∀ i, idx ≤ i → i < idx + n → Ok s i
  stop : done = false → n < left ∧ (LoopLasts get put I Ok → ¬Ok s (idx + n))

variable {get put} {view : σ → L → Option V} {I : σ → Prop} {Ok : σ → Nat → Prop} {s t : σ}
  {left : Nat} {done : Bool}

theorem LoopSpec.copyLoop (h : LoopSpec get put view src dst I Ok) (hs : I s)
    (hloop : copyLoop get put left idx s = (done, t)) :
    ∃ n, LoopEnd get put view src dst I Ok left idx s t done n := by
  induction left generalizing idx s with
  | zero =>
      cases hloop
      exact ⟨0, hs, Nat.le_refl 0, fun _ => rfl, rfl, fun i hle hlt => by omega, nofun⟩
  | succ left ih =>
      have hstop {u : σ} (hu : I u) (hview : view u = view s)
          (hfail : LoopLasts get put I Ok → ¬Ok s idx) (heq : (false, u) = (done, t)) :
          ∃ n, LoopEnd get put view src dst I Ok (left + 1) idx s t done n := by
        cases heq
        exact ⟨0, hu, Nat.zero_le _, nofun, hview, fun i hle hlt => by omega,
          fun _ => ⟨Nat.succ_pos left, hfail⟩⟩
      rw [Lib.copyLoop] at hloop
      cases hget : get s idx with
      | mk r u =>
          obtain ⟨hu, hsame, hread⟩ := h.got hs hget
          rw [hget] at hloop
          cases r with
          | none => exact hstop hu hsame (fun hlast => hlast.got hs hget) hloop
          | some v =>
              dsimp only at hloop
              cases hput : put u idx v with
              | mk r w =>
                  obtain ⟨hw, hwrite⟩ := h.placed hu hput
                  rw [hput] at hloop
                  cases r with
                  | false =>
                      exact hstop hw (hwrite.trans hsame) (fun hlast => hlast.placed hs hget hput)
                        hloop
                  | true =>
                      obtain ⟨hok, hback⟩ := h.round hs hget hput
                      obtain ⟨n, hend⟩ := ih hw hloop
                      refine ⟨n + 1, hend.inv, by have := hend.le; omega,
                        fun hd => by rw [hend.all hd], ?_, ?_, ?_⟩
                      · rw [hend.view, hwrite, if_pos rfl, hsame, copied, hread v rfl]
                      · intro i hi hlt
                        rcases Nat.eq_or_lt_of_le hi with rfl | hi
                        · exact hok
                        · exact hback i (hend.ok i (by omega) (by omega))
                      · intro hd
                        obtain ⟨hlt, hfail⟩ := hend.stop hd
                        refine ⟨by omega, fun hlast hok' => hfail hlast ?_⟩
                        rw [show idx + 1 + n = idx + (n + 1) by omega]
                        exact hlast.round hs hget hput _ hok'

end Loop

end Ossim.Lib
