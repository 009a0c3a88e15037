import Mathlib.Algebra.BigOperators.Fin
import Mathlib.Algebra.BigOperators.Group.Finset.Piecewise
import Mathlib.Data.List.FinRange

/-!
Radix trees whose tables appear on demand.

A tree of height `n` is a null pointer or a table of width `w`, of cells at
height zero and of trees above. A path names a cell; the tables on the way
to it may be missing, and then the cell counts as blank. The tree changes in
two ways only: `touch` creates the missing tables of a path, as long as an
allocator supplies them, and `set` writes the cell of a path whose tables
exist.

A property of cells that blank cells do not have is counted over the whole
tree in the order a depth-first walk meets the cells. `touch` leaves such a
count alone and `set` changes it by the two cell values involved; this is
all an ownership argument needs to know about the shape of the tree.
-/

namespace Ossim.Lib

inductive Radix (w : Nat) (β : Type) : Nat → Type
  | null {n : Nat} : Radix w β n
  | leaf (cells : Fin w → β) : Radix w β 0
  | node {n : Nat} (tables : Fin w → Radix w β n) : Radix w β (n + 1)

/-- One index per level. -/
inductive RadixPath (w : Nat) : Nat → Type
  | last (i : Fin w) : RadixPath w 0
  | step {n : Nat} (i : Fin w) (p : RadixPath w n) : RadixPath w (n + 1)
  deriving DecidableEq

namespace Radix

variable {w : Nat} {β σ : Type} {n : Nat}

/-- All tables on the way to the cell exist. -/
def has : {n : Nat} → Radix w β n → RadixPath w n → Bool
  | _, .null, _ => false
  | _, .leaf _, _ => true
  | _, .node ts, .step i p => (ts i).has p

/-- The cell at a path, `z` if a table is missing. -/
def lookup (z : β) : {n : Nat} → Radix w β n → RadixPath w n → β
  | _, .null, _ => z
  | _, .leaf cs, .last i => cs i
  | _, .node ts, .step i p => (ts i).lookup z p

/-- Write the cell at a path. -/
def set : {n : Nat} → Radix w β n → RadixPath w n → β → Radix w β n
  | _, .null, _, _ => .null
  | _, .leaf cs, .last i, v => .leaf (Function.update cs i v)
  | _, .node ts, .step i p, v => .node (Function.update ts i ((ts i).set p v))

/-- Create the missing tables on the way to a path. Each one is asked of
the allocator; what was created before a refusal stays. -/
def touch (alloc : σ → Bool × σ) (z : β) :
    {n : Nat} → RadixPath w n → Radix w β n → σ → Bool × Radix w β n × σ
  | _, .last _, .leaf cs, h => (true, .leaf cs, h)
  | _, .last _, .null, h =>
    match alloc h with
    | (true, h) => (true, .leaf fun _ => z, h)
    | (false, h) => (false, .null, h)
  | _, .step i p, .node ts, h =>
    let r := touch alloc z p (ts i) h
    (r.1, .node (Function.update ts i r.2.1), r.2.2)
  | _, .step i p, .null, h =>
    match alloc h with
    | (true, h) =>
      let r := touch alloc z p .null h
      (r.1, .node (Function.update (fun _ => .null) i r.2.1), r.2.2)
    | (false, h) => (false, .null, h)

/-- Write the cell at a path after creating its tables. -/
def write (alloc : σ → Bool × σ) (z : β) (p : RadixPath w n) (v : β) (t : Radix w β n) (h : σ) :
    Bool × Radix w β n × σ :=
  match touch alloc z p t h with
  | (true, t, h) => (true, t.set p v, h)
  | (false, t, h) => (false, t, h)

/-- All cells of the existing tables, in depth-first order. -/
def entries : {n : Nat} → Radix w β n → List β
  | _, .null => []
  | _, .leaf cs => (List.finRange w).map cs
  | _, .node ts => (List.finRange w).flatMap fun i => (ts i).entries

variable {z : β} {t : Radix w β n} {p : RadixPath w n}

/-! ### Reading and writing -/

theorem lookup_of_not_has (h : t.has p = false) : t.lookup z p = z := by
  induction t with
  | null => rfl
  | leaf cs => cases h
  | node ts ih =>
      cases p with
      | step i p => exact ih i h

theorem lookup_set (h : t.has p) (v : β) (q : RadixPath w n) :
    (t.set p v).lookup z q = if q = p then v else t.lookup z q := by
  induction t with
  | null => cases h
  | leaf cs =>
      cases p with
      | last i =>
          cases q with
          | last j => simp [set, lookup, Function.update_apply]
  | node ts ih =>
      cases p with
      | step i p =>
          cases q with
          | step j q =>
              simp only [set, lookup]
              rcases eq_or_ne j i with rfl | hji
              · rw [Function.update_self, ih j h]
                simp
              · rw [Function.update_of_ne hji]
                simp [hji]

theorem set_of_not_has (h : t.has p = false) (v : β) : t.set p v = t := by
  induction t with
  | null => rfl
  | leaf cs => cases h
  | node ts ih =>
      cases p with
      | step i p => rw [set, ih i h, Function.update_eq_self]

@[simp] theorem has_set (v : β) (q : RadixPath w n) : (t.set p v).has q = t.has q := by
  induction t with
  | null => rfl
  | leaf cs =>
      cases p with
      | last i => rfl
  | node ts ih =>
      cases p with
      | step i p =>
          cases q with
          | step j q =>
              simp only [set, has]
              rcases eq_or_ne j i with rfl | hji
              · rw [Function.update_self, ih]
              · rw [Function.update_of_ne hji]

theorem mem_entries_of_has (h : t.has p) : t.lookup z p ∈ t.entries := by
  induction t with
  | null => cases h
  | leaf cs =>
      cases p with
      | last i => exact List.mem_map_of_mem (List.mem_finRange i)
  | node ts ih =>
      cases p with
      | step i p => exact List.mem_flatMap.mpr ⟨i, List.mem_finRange i, ih i h⟩

theorem exists_lookup_of_mem_entries {v : β} (h : v ∈ t.entries) :
    ∃ p, t.has p ∧ t.lookup z p = v := by
  induction t with
  | null => cases h
  | leaf cs =>
      obtain ⟨i, -, hi⟩ := List.mem_map.mp h
      exact ⟨.last i, rfl, hi⟩
  | node ts ih =>
      obtain ⟨i, -, hi⟩ := List.mem_flatMap.mp h
      obtain ⟨p, hp, hv⟩ := ih i hi
      exact ⟨.step i p, hp, hv⟩

/-! ### Creating tables -/

section

variable {alloc : σ → Bool × σ} {h : σ} {v : β}

/-- Creating tables changes no cell. -/
@[simp] theorem lookup_touch (q : RadixPath w n) :
    (touch alloc z p t h).2.1.lookup z q = t.lookup z q := by
  induction p generalizing h with
  | last i =>
      cases t with
      | leaf cs => rfl
      | null =>
          simp only [touch]
          split
          · cases q with
            | last j => rfl
          · rfl
  | step i p ih =>
      cases q with
      | step j q =>
          cases t with
          | node ts =>
              simp only [touch, lookup]
              rcases eq_or_ne j i with rfl | hji
              · rw [Function.update_self, ih]
              · rw [Function.update_of_ne hji]
          | null =>
              simp only [touch]
              split
              · simp only [lookup]
                rcases eq_or_ne j i with rfl | hji
                · rw [Function.update_self, ih]
                  rfl
                · rw [Function.update_of_ne hji]
                  rfl
              · rfl

/-- If the allocator supplied every table, the cell can be written. -/
theorem has_touch (hok : (touch alloc z p t h).1 = true) : (touch alloc z p t h).2.1.has p := by
  induction p generalizing h with
  | last i =>
      cases t with
      | leaf cs => rfl
      | null =>
          simp only [touch] at hok ⊢
          split at hok
          · rfl
          · cases hok
  | step i p ih =>
      cases t with
      | node ts =>
          simp only [touch, has, Function.update_self] at hok ⊢
          exact ih hok
      | null =>
          simp only [touch] at hok ⊢
          split at hok
          · simp only [has, Function.update_self]
            exact ih hok
          · cases hok

/-- Tables never go away. -/
theorem has_touch_of_has {q : RadixPath w n} (hq : t.has q) : (touch alloc z p t h).2.1.has q := by
  induction p generalizing h with
  | last i =>
      cases t with
      | leaf cs => rfl
      | null => cases hq
  | step i p ih =>
      cases t with
      | null => cases hq
      | node ts =>
          cases q with
          | step j q =>
              simp only [touch, has] at hq ⊢
              rcases eq_or_ne j i with rfl | hji
              · rw [Function.update_self]
                exact ih hq
              · rwa [Function.update_of_ne hji]

/-- Nothing is asked of the allocator when the tables are there. -/
theorem touch_of_has (hp : t.has p) : touch alloc z p t h = (true, t, h) := by
  induction p with
  | last i =>
      cases t with
      | leaf cs => rfl
      | null => cases hp
  | step i p ih =>
      cases t with
      | null => cases hp
      | node ts =>
          simp only [touch, ih hp]
          rw [Function.update_eq_self]

/-- An allocator that never refuses. -/
theorem touch_of_always (halloc : alloc h = (true, h)) :
    (touch alloc z p t h).1 = true ∧ (touch alloc z p t h).2.2 = h := by
  induction p with
  | last i =>
      cases t with
      | leaf cs => exact ⟨rfl, rfl⟩
      | null => simp [touch, halloc]
  | step i p ih =>
      cases t with
      | node ts => exact ih
      | null => simpa [touch, halloc] using ih

theorem write_of_touch (alloc : σ → Bool × σ) (z : β) (p : RadixPath w n) (v : β) (t : Radix w β n)
    (h : σ) :
    ((touch alloc z p t h).1 = true ∧ write alloc z p v t h =
      (true, (touch alloc z p t h).2.1.set p v, (touch alloc z p t h).2.2)) ∨
    ((touch alloc z p t h).1 = false ∧ write alloc z p v t h = touch alloc z p t h) := by
  rw [write]
  rcases touch alloc z p t h with ⟨_ | _, t', h'⟩
  · exact .inr ⟨rfl, rfl⟩
  · exact .inl ⟨rfl, rfl⟩

theorem lookup_write (hok : (write alloc z p v t h).1 = true) (q : RadixPath w n) :
    (write alloc z p v t h).2.1.lookup z q = if q = p then v else t.lookup z q := by
  obtain ⟨htouch, hwrite⟩ | ⟨htouch, hwrite⟩ := write_of_touch alloc z p v t h
  · rw [hwrite, lookup_set (has_touch htouch), lookup_touch]
  · rw [hwrite, htouch] at hok
    cases hok

theorem lookup_write_of_fail (hfail : (write alloc z p v t h).1 = false) (q : RadixPath w n) :
    (write alloc z p v t h).2.1.lookup z q = t.lookup z q := by
  obtain ⟨htouch, hwrite⟩ | ⟨htouch, hwrite⟩ := write_of_touch alloc z p v t h
  · rw [hwrite] at hfail
    cases hfail
  · rw [hwrite, lookup_touch]

theorem has_write (hok : (write alloc z p v t h).1 = true) :
    (write alloc z p v t h).2.1.has p := by
  obtain ⟨htouch, hwrite⟩ | ⟨htouch, hwrite⟩ := write_of_touch alloc z p v t h
  · rw [hwrite, has_set]
    exact has_touch htouch
  · rw [hwrite, htouch] at hok
    cases hok

theorem write_of_has (hp : t.has p) (v : β) : write alloc z p v t h = (true, t.set p v, h) := by
  rw [write, touch_of_has hp]

theorem write_of_always (halloc : alloc h = (true, h)) (v : β) :
    (write alloc z p v t h).1 = true ∧ (write alloc z p v t h).2.2 = h := by
  obtain ⟨htouch, hhost⟩ := touch_of_always (z := z) (p := p) (t := t) halloc
  obtain ⟨-, hwrite⟩ | ⟨hfail, -⟩ := write_of_touch alloc z p v t h
  · rw [hwrite]
    exact ⟨rfl, hhost⟩
  · rw [hfail] at htouch
    cases htouch

/-! ### Shapes

Whether the tables of a path can be had depends on the tables that exist
and on the allocator, never on the cells. -/

/-- The tree without its cells. -/
def shape : {n : Nat} → Radix w β n → Radix w Unit n
  | _, .null => .null
  | _, .leaf _ => .leaf fun _ => ()
  | _, .node ts => .node fun i => (ts i).shape

theorem shape_update (ts : Fin w → Radix w β n) (i : Fin w) (t' : Radix w β n) :
    (fun j => (Function.update ts i t' j).shape) =
      Function.update (fun j => (ts j).shape) i t'.shape := by
  funext j
  rcases eq_or_ne j i with rfl | hji
  · rw [Function.update_self, Function.update_self]
  · rw [Function.update_of_ne hji, Function.update_of_ne hji]

@[simp] theorem shape_set : (t.set p v).shape = t.shape := by
  induction t with
  | null => rfl
  | leaf cs =>
      cases p with
      | last i => rfl
  | node ts ih =>
      cases p with
      | step i p =>
          rw [set, shape, shape_update, ih, Function.update_eq_self]
          rfl

theorem touch_shape (alloc : σ → Bool × σ) (z : β) (p : RadixPath w n) (t : Radix w β n) (h : σ) :
    touch alloc () p t.shape h =
      ((touch alloc z p t h).1, (touch alloc z p t h).2.1.shape, (touch alloc z p t h).2.2) := by
  induction p generalizing h with
  | last i =>
      cases t with
      | leaf cs => rfl
      | null =>
          simp only [touch, shape]
          split <;> rfl
  | step i p ih =>
      cases t with
      | node ts => simp only [touch, shape, ih, shape_update]
      | null =>
          have hnull (h : σ) := ih .null h
          simp only [shape] at hnull
          simp only [touch, shape, hnull]
          split
          · simp only [shape, shape_update]
          · rfl

/-- Trees of one shape get their tables alike. -/
theorem touch_of_shape (alloc : σ → Bool × σ) (z : β) (p : RadixPath w n) (h : σ)
    {t' : Radix w β n} (heq : t'.shape = t.shape) :
    (touch alloc z p t' h).1 = (touch alloc z p t h).1 ∧
      (touch alloc z p t' h).2.1.shape = (touch alloc z p t h).2.1.shape ∧
      (touch alloc z p t' h).2.2 = (touch alloc z p t h).2.2 := by
  have htouch := touch_shape alloc z p t h
  have htouch' := touch_shape alloc z p t' h
  rw [heq, htouch] at htouch'
  simp only [Prod.mk.injEq] at htouch'
  exact ⟨htouch'.1.symm, htouch'.2.1.symm, htouch'.2.2.symm⟩

theorem write_shape (alloc : σ → Bool × σ) (z : β) (p : RadixPath w n) (v : β) (t : Radix w β n)
    (h : σ) :
    (write alloc z p v t h).1 = (touch alloc z p t h).1 ∧
      (write alloc z p v t h).2.1.shape = (touch alloc z p t h).2.1.shape ∧
      (write alloc z p v t h).2.2 = (touch alloc z p t h).2.2 := by
  obtain ⟨htouch, hwrite⟩ | ⟨-, hwrite⟩ := write_of_touch alloc z p v t h
  · rw [hwrite, htouch]
    exact ⟨rfl, shape_set, rfl⟩
  · rw [hwrite]
    exact ⟨rfl, rfl, rfl⟩

end

/-! ### Counting cells -/

section

variable {q : β → Bool}

theorem countP_leaf (cs : Fin w → β) :
    (leaf cs).entries.countP q = ∑ i, if q (cs i) then 1 else 0 := by
  rw [entries, List.countP_map, Fin.sum_univ_def]
  induction List.finRange w with
  | nil => rfl
  | cons i l ih =>
      rw [List.countP_cons, ih, List.map_cons, List.sum_cons, Nat.add_comm]
      rfl

theorem countP_node (ts : Fin w → Radix w β n) :
    (node ts).entries.countP q = ∑ i, (ts i).entries.countP q := by
  rw [entries, List.countP_flatMap, Fin.sum_univ_def]
  rfl

/-- A sum over the slots of a table of which one slot changes. -/
theorem sum_update {γ : Type} (f : Fin w → γ) (i : Fin w) (x : γ) (g : γ → Nat) :
    ∑ j, g (Function.update f i x j) + g (f i) = ∑ j, g (f j) + g x := by
  have hnew := Finset.add_sum_erase Finset.univ (fun j => g (Function.update f i x j))
    (Finset.mem_univ i)
  have hold := Finset.add_sum_erase Finset.univ (fun j => g (f j)) (Finset.mem_univ i)
  have hrest : ∑ j ∈ Finset.univ.erase i, g (Function.update f i x j) =
      ∑ j ∈ Finset.univ.erase i, g (f j) :=
    Finset.sum_congr rfl fun j hj => by rw [Function.update_of_ne (Finset.ne_of_mem_erase hj)]
  simp only [Function.update_self] at hnew
  omega

/-- Writing a cell trades its old value for the new one in every count. -/
theorem countP_set (h : t.has p) (v : β) :
    (t.set p v).entries.countP q + (if q (t.lookup z p) then 1 else 0) =
      t.entries.countP q + (if q v then 1 else 0) := by
  induction t with
  | null => cases h
  | leaf cs =>
      cases p with
      | last i =>
          rw [set, countP_leaf, countP_leaf, lookup]
          exact sum_update cs i v fun b => if q b then 1 else 0
  | node ts ih =>
      cases p with
      | step i p =>
          rw [set, countP_node, countP_node, lookup]
          have hsum := sum_update ts i ((ts i).set p v) fun u => u.entries.countP q
          have hrec := ih i h
          omega

/-- Creating tables counts for nothing, as long as blank cells do. -/
theorem countP_touch {alloc : σ → Bool × σ} {h : σ} (hz : q z = false) :
    (touch alloc z p t h).2.1.entries.countP q = t.entries.countP q := by
  induction p generalizing h with
  | last i =>
      cases t with
      | leaf cs => rfl
      | null =>
          simp only [touch]
          split
          · simp [hz, entries]
          · rfl
  | step i p ih =>
      cases t with
      | node ts =>
          simp only [touch]
          have hsum := sum_update ts i (touch alloc z p (ts i) h).2.1 fun u => u.entries.countP q
          simp only [ih] at hsum
          rw [countP_node, countP_node]
          omega
      | null =>
          simp only [touch]
          split
          · rename_i h' _
            have hsum := sum_update (fun _ => (null : Radix w β _)) i
              (touch alloc z p null h').2.1 fun u => u.entries.countP q
            simp only [ih, entries, List.countP_nil, Finset.sum_const_zero] at hsum
            rw [countP_node, entries, List.countP_nil]
            omega
          · rfl

theorem countP_write {alloc : σ → Bool × σ} {h : σ} {v : β} (hz : q z = false)
    (hok : (write alloc z p v t h).1 = true) :
    (write alloc z p v t h).2.1.entries.countP q + (if q (t.lookup z p) then 1 else 0) =
      t.entries.countP q + (if q v then 1 else 0) := by
  obtain ⟨htouch, hwrite⟩ | ⟨htouch, hwrite⟩ := write_of_touch alloc z p v t h
  · have hset := countP_set (q := q) (z := z) (has_touch htouch) v
    rw [lookup_touch, countP_touch hz] at hset
    rw [hwrite]
    exact hset
  · rw [hwrite, htouch] at hok
    cases hok

theorem countP_write_of_fail {alloc : σ → Bool × σ} {h : σ} {v : β} (hz : q z = false)
    (hfail : (write alloc z p v t h).1 = false) :
    (write alloc z p v t h).2.1.entries.countP q = t.entries.countP q := by
  obtain ⟨htouch, hwrite⟩ | ⟨htouch, hwrite⟩ := write_of_touch alloc z p v t h
  · rw [hwrite] at hfail
    cases hfail
  · rw [hwrite, countP_touch hz]

theorem one_le_countP (hp : q (t.lookup z p)) (hz : q z = false) : 1 ≤ t.entries.countP q := by
  cases h : t.has p with
  | false =>
      rw [lookup_of_not_has h, hz] at hp
      cases hp
  | true => exact List.countP_pos_iff.mpr ⟨_, mem_entries_of_has h, hp⟩

/-- Where a count is at most one, the counted cell has only one path. -/
theorem path_unique {p' : RadixPath w n} (hone : t.entries.countP q ≤ 1) (hz : q z = false)
    (hp : q (t.lookup z p)) (hp' : q (t.lookup z p')) : p' = p := by
  by_contra hne
  have hhas : t.has p := by
    by_contra h
    rw [lookup_of_not_has (by simpa using h), hz] at hp
    cases hp
  have hset := countP_set (q := q) (z := z) hhas z
  have hleft : 1 ≤ (t.set p z).entries.countP q := by
    refine one_le_countP (z := z) (p := p') ?_ hz
    rwa [lookup_set hhas, if_neg hne]
  rw [if_pos hp, hz] at hset
  simp only [Bool.false_eq_true, if_false] at hset
  omega

end

end Radix

end Ossim.Lib
