import Ossim.Lib.Radix

/-!
Radix trees in a heap.

A heap gives the allocated addresses a table of words. A word of a table is
the address of another table or null, and on the last level it is a cell. A
root holds a tree if the tables that can be reached from it are those of the
tree; their addresses are the footprint. To touch what is not allocated, and
to free it, is undefined.

A heap that holds a tree without sharing lets the pointer programs do what
the operations on the tree do: they never run into what is undefined, and
nothing outside the footprint changes. The allocator chooses addresses freely
among those that are not in use, so a freed one may come again.
-/

namespace Ossim.Lib

structure TableHeap (w : Nat) where
  tables : Nat → Option (Fin w → Nat)
  bound : Nat
  free_above : ∀ a, bound ≤ a → tables a = none

/-- Which address an allocation gets, if it is granted. -/
structure Calloc (w : Nat) where
  pick : TableHeap w → Nat
  ne_zero : ∀ h, pick h ≠ 0
  fresh : ∀ h : TableHeap w, h.tables (pick h) = none

/-- An address above all others. -/
def Calloc.next (w : Nat) : Calloc w where
  pick h := max h.bound 1
  ne_zero h := by omega
  fresh h := h.free_above _ (le_max_left ..)

namespace TableHeap

variable {w : Nat}

def empty : TableHeap w := ⟨fun _ => none, 0, fun _ _ => rfl⟩

/-- An allocated table and its words. -/
def put (h : TableHeap w) (a : Nat) (t : Fin w → Nat) : TableHeap w where
  tables := Function.update h.tables a (some t)
  bound := max h.bound (a + 1)
  free_above b hb := by
    have hne : b ≠ a := by omega
    rw [Function.update_of_ne hne]
    exact h.free_above b (by omega)

def remove (h : TableHeap w) (a : Nat) : TableHeap w where
  tables := Function.update h.tables a none
  bound := h.bound
  free_above b hb := by
    rcases eq_or_ne b a with rfl | hne
    · rw [Function.update_self]
    · rw [Function.update_of_ne hne]
      exact h.free_above b hb

def load (h : TableHeap w) (a : Nat) (i : Fin w) : Option Nat := (h.tables a).map fun t => t i

def store (h : TableHeap w) (a : Nat) (i : Fin w) (v : Nat) : Option (TableHeap w) :=
  (h.tables a).map fun t => h.put a (Function.update t i v)

def free (h : TableHeap w) (a : Nat) : Option (TableHeap w) :=
  (h.tables a).map fun _ => h.remove a

@[simp] theorem put_self (h : TableHeap w) (a : Nat) (t : Fin w → Nat) :
    (h.put a t).tables a = some t := Function.update_self ..

@[simp] theorem put_of_ne (h : TableHeap w) {a b : Nat} (t : Fin w → Nat) (hne : b ≠ a) :
    (h.put a t).tables b = h.tables b := Function.update_of_ne hne ..

@[simp] theorem remove_tables (h : TableHeap w) (a b : Nat) :
    (h.remove a).tables b = if b = a then none else h.tables b := Function.update_apply ..

end TableHeap

open TableHeap

section Programs

variable {w : Nat} {σ S : Type} (c : Calloc w) (alloc : σ → Bool × σ)

/-- A zeroed table, or null. -/
def calloc (h : TableHeap w) (o : σ) : Nat × TableHeap w × σ :=
  match alloc o with
  | (true, o) => (c.pick h, h.put (c.pick h) fun _ => 0, o)
  | (false, o) => (0, h, o)

/-- From a table down to the cell of a path. Missing tables are created or end
the descent. -/
def descend (create : Bool) : {n : Nat} → RadixPath w n → (a : Nat) → TableHeap w → σ →
    Option (Option (Nat × Fin w) × TableHeap w × σ)
  | _, .last i, a, h, o => some (some (a, i), h, o)
  | _, .step i p, a, h, o =>
    (h.load a i).bind fun b =>
      if b ≠ 0 then descend create p b h o
      else if create then
        let r := calloc c alloc h o
        if r.1 = 0 then some (none, r.2)
        else (r.2.1.store a i r.1).bind fun h => descend create p r.1 h r.2.2
      else some (none, h, o)

/-- The same from a root, which may be missing itself: the cell, and the root
after it. -/
def walk (create : Bool) {n : Nat} (p : RadixPath w n) (root : Nat) (h : TableHeap w) (o : σ) :
    Option (Option (Nat × Fin w) × Nat × TableHeap w × σ) :=
  if root ≠ 0 then (descend c alloc create p root h o).map fun r => (r.1, root, r.2)
  else if create then
    let r := calloc c alloc h o
    if r.1 = 0 then some (none, 0, r.2)
    else (descend c alloc create p r.1 r.2.1 r.2.2).map fun q => (q.1, r.1, q.2)
  else some (none, 0, h, o)

/-- The tables below a table, then the table itself. -/
def freeTables : (n a : Nat) → TableHeap w → Option (TableHeap w)
  | 0, a, h => if a = 0 then some h else h.free a
  | n + 1, a, h =>
    if a = 0 then some h
    else ((List.finRange w).foldlM (fun (h : TableHeap w) i => (h.load a i).bind fun b =>
      if b ≠ 0 then freeTables n b h else some h) h).bind fun h => h.free a

/-- A walk over all cells that are not zero. -/
def collect (f : S → Nat → S) (h : TableHeap w) : (n a : Nat) → S → Option S
  | 0, a, s =>
    if a = 0 then some s
    else (List.finRange w).foldlM (fun s i => (h.load a i).map fun v =>
      if v = 0 then s else f s v) s
  | n + 1, a, s =>
    if a = 0 then some s
    else (List.finRange w).foldlM (fun s i => (h.load a i).bind fun b =>
      if b = 0 then some s else collect f h n b s) s

end Programs

/-- The address holds the tree, with tables at these addresses. -/
inductive Holds {w : Nat} (h : TableHeap w) : {n : Nat} → Radix w Nat n → Nat → List Nat → Prop
  | null {n : Nat} : Holds h (n := n) .null 0 []
  | leaf {a : Nat} {cells : Fin w → Nat} (hne : a ≠ 0) (ha : h.tables a = some cells) :
      Holds h (.leaf cells) a [a]
  | node {n a : Nat} {words : Fin w → Nat} {ts : Fin w → Radix w Nat n} {foot : Fin w → List Nat}
      (hne : a ≠ 0) (ha : h.tables a = some words) (hts : ∀ i, Holds h (ts i) (words i) (foot i)) :
      Holds h (.node ts) a (a :: (List.finRange w).flatMap foot)

section Holds

variable {w n : Nat} {h h' : TableHeap w} {t : Radix w Nat n} {a : Nat} {foot foot' : List Nat}
  {p : RadixPath w n}

theorem mem_flatMap_finRange {foot : Fin w → List Nat} {b : Nat} :
    b ∈ (List.finRange w).flatMap foot ↔ ∃ i, b ∈ foot i := by
  simp

/-- A footprint without sharing. -/
theorem nodup_node {foot : Fin w → List Nat} :
    (a :: (List.finRange w).flatMap foot).Nodup ↔ (∀ i, a ∉ foot i) ∧ (∀ i, (foot i).Nodup) ∧
      ∀ i j, i ≠ j → List.Disjoint (foot i) (foot j) := by
  rw [List.nodup_cons, mem_flatMap_finRange, not_exists, List.nodup_flatMap]
  refine and_congr_right fun _ => and_congr ?_ ?_
  · exact ⟨fun hi i => hi i (List.mem_finRange i), fun hi i _ => hi i⟩
  · constructor
    · intro hpair i j hij
      have hsymm : Std.Symm (Function.onFun List.Disjoint foot) := ⟨fun _ _ hd => hd.symm⟩
      exact hpair.forall (List.mem_finRange i) (List.mem_finRange j) hij
    · intro hdisj
      exact (List.nodup_finRange w).imp fun hij => hdisj _ _ hij

namespace Holds

/-- The tables of a tree are allocated. -/
theorem allocated (hh : Holds h t a foot) : ∀ b ∈ foot, h.tables b ≠ none := by
  induction hh with
  | null =>
      intro b hb
      cases hb
  | leaf _ ha =>
      intro b hb
      rw [List.mem_singleton.mp hb, ha]
      exact Option.some_ne_none _
  | node _ ha _ ih =>
      intro b hb
      rcases List.mem_cons.mp hb with rfl | hb
      · rw [ha]
        exact Option.some_ne_none _
      · obtain ⟨i, hi⟩ := mem_flatMap_finRange.mp hb
        exact ih i b hi

/-- A tree depends on its tables only. -/
theorem frame (hh : Holds h t a foot) (hsame : ∀ b ∈ foot, h'.tables b = h.tables b) :
    Holds h' t a foot := by
  induction hh with
  | null => exact .null
  | leaf hne ha => exact .leaf hne ((hsame _ List.mem_cons_self).trans ha)
  | node hne ha _ ih =>
      refine .node hne ((hsame _ List.mem_cons_self).trans ha) fun i => ih i fun b hb => ?_
      exact hsame b (List.mem_cons_of_mem _ (mem_flatMap_finRange.mpr ⟨i, hb⟩))

theorem of_zero (hh : Holds h t 0 foot) : t = .null ∧ foot = [] := by
  cases hh with
  | null => exact ⟨rfl, rfl⟩
  | leaf hne => exact absurd rfl hne
  | node hne => exact absurd rfl hne

end Holds

/-! ### Cells -/

/-- The cell of a path, if its tables exist. -/
def seek (h : TableHeap w) : {n : Nat} → RadixPath w n → Nat → Option (Nat × Fin w)
  | _, .last i, a => if a = 0 then none else some (a, i)
  | _, .step i p, a => if a = 0 then none else (h.load a i).bind (seek h p)

theorem seek_isSome (hh : Holds h t a foot) : (seek h p a).isSome = t.has p := by
  induction hh with
  | null => cases p <;> rfl
  | leaf hne ha =>
      cases p with
      | last i => simp [seek, hne, Radix.has]
  | node hne ha hts ih =>
      cases p with
      | step i p =>
          rw [seek, if_neg hne, load, ha, Radix.has, ← ih i]
          rfl

theorem load_seek (hh : Holds h t a foot) {x : Nat × Fin w} (hx : seek h p a = some x) :
    h.load x.1 x.2 = some (t.lookup 0 p) := by
  induction hh with
  | null => cases p <;> simp [seek] at hx
  | leaf hne ha =>
      cases p with
      | last i =>
          rw [seek, if_neg hne] at hx
          cases hx
          rw [load, ha]
          rfl
  | node hne ha hts ih =>
      cases p with
      | step i p =>
          rw [seek, if_neg hne, load, ha] at hx
          exact ih i hx

/-! ### Changes of one tree -/

/-- A change that stays within a footprint, which grows by unused addresses
only. -/
structure Grows (h h' : TableHeap w) (foot foot' : List Nat) : Prop where
  nodup : foot'.Nodup
  subset : ∀ b ∈ foot, b ∈ foot'
  fresh : ∀ b ∈ foot', b ∈ foot ∨ h.tables b = none
  frame : ∀ b, b ∉ foot' → h'.tables b = h.tables b

theorem Grows.refl (hnodup : foot.Nodup) : Grows h h foot foot :=
  ⟨hnodup, fun _ hb => hb, fun _ hb => .inl hb, fun _ _ => rfl⟩

theorem Grows.not_mem (hgrows : Grows h h' foot foot') (ha : h.tables a ≠ none) (hnot : a ∉ foot) :
    a ∉ foot' := fun hmem => (hgrows.fresh a hmem).elim hnot ha

/-- Another tree does not see the change. -/
theorem Grows.holds_other {m b : Nat} {u : Radix w Nat m} {other : List Nat}
    (hgrows : Grows h h' foot foot') (hu : Holds h u b other) (hdisj : List.Disjoint foot other) :
    Holds h' u b other ∧ List.Disjoint foot' other := by
  have hdisj' : List.Disjoint foot' other := by
    intro x hx hother
    rcases hgrows.fresh x hx with hfoot | hnone
    · exact hdisj hfoot hother
    · exact hu.allocated x hother hnone
  exact ⟨hu.frame fun x hx => hgrows.frame x fun hfoot => hdisj' hfoot hx, hdisj'⟩

/-- One of the trees below a table changes, and the word that points to it. -/
theorem Grows.node {words : Fin w → Nat} {ts : Fin w → Radix w Nat n} {foot : Fin w → List Nat}
    (hne : a ≠ 0) (ha : h.tables a = some words) (hts : ∀ i, Holds h (ts i) (words i) (foot i))
    (hnodup : (a :: (List.finRange w).flatMap foot).Nodup) (i : Fin w) {b : Nat}
    {t' : Radix w Nat n} (ha' : h'.tables a = some (Function.update words i b))
    (ht' : Holds h' t' b foot')
    (hfresh : ∀ x ∈ foot', x ∈ foot i ∨ h.tables x = none) (hsub : ∀ x ∈ foot i, x ∈ foot')
    (hnodup' : foot'.Nodup) (hframe : ∀ x, x ≠ a → x ∉ foot' → h'.tables x = h.tables x) :
    Holds h' (.node (Function.update ts i t')) a
        (a :: (List.finRange w).flatMap (Function.update foot i foot')) ∧
      Grows h h' (a :: (List.finRange w).flatMap foot)
        (a :: (List.finRange w).flatMap (Function.update foot i foot')) := by
  obtain ⟨hroot, hone, hdisj⟩ := nodup_node.mp hnodup
  have hnotin : a ∉ foot' := by
    intro hmem
    rcases hfresh a hmem with hfoot | hnone
    · exact hroot i hfoot
    · rw [ha] at hnone
      cases hnone
  have hapart (j : Fin w) (hj : j ≠ i) : List.Disjoint foot' (foot j) := by
    intro x hx hfoot
    rcases hfresh x hx with hi | hnone
    · exact hdisj i j hj.symm hi hfoot
    · exact (hts j).allocated x hfoot hnone
  have hfoot (j : Fin w) : Function.update foot i foot' j = if j = i then foot' else foot j :=
    Function.update_apply ..
  refine ⟨.node hne ha' fun j => ?_, ?_⟩
  · rcases eq_or_ne j i with rfl | hj
    · rw [Function.update_self, Function.update_self, Function.update_self]
      exact ht'
    · rw [Function.update_of_ne hj, Function.update_of_ne hj, Function.update_of_ne hj]
      refine (hts j).frame fun x hx => hframe x ?_ fun hmem => hapart j hj hmem hx
      rintro rfl
      exact hroot j hx
  · refine ⟨nodup_node.mpr ⟨fun j => ?_, fun j => ?_, fun j k hjk => ?_⟩, fun x hx => ?_,
      fun x hx => ?_, fun x hx => ?_⟩
    · rw [hfoot]
      split
      · exact hnotin
      · exact hroot j
    · rw [hfoot]
      split
      · exact hnodup'
      · exact hone j
    · rw [hfoot, hfoot]
      split
      · rename_i hji
        rw [if_neg fun hki => hjk (hji.trans hki.symm)]
        exact hapart k fun hki => hjk (hji.trans hki.symm)
      · rename_i hji
        split
        · exact (hapart j hji).symm
        · exact hdisj j k hjk
    · rcases List.mem_cons.mp hx with rfl | hx
      · exact List.mem_cons_self
      · obtain ⟨j, hj⟩ := mem_flatMap_finRange.mp hx
        refine List.mem_cons_of_mem _ (mem_flatMap_finRange.mpr ⟨j, ?_⟩)
        rw [hfoot]
        split
        · rename_i hji
          exact hsub x (hji ▸ hj)
        · exact hj
    · rcases List.mem_cons.mp hx with rfl | hx
      · exact .inl List.mem_cons_self
      · obtain ⟨j, hj⟩ := mem_flatMap_finRange.mp hx
        rw [hfoot] at hj
        split at hj
        · exact (hfresh x hj).imp_left fun hi =>
            List.mem_cons_of_mem _ (mem_flatMap_finRange.mpr ⟨i, hi⟩)
        · exact .inl (List.mem_cons_of_mem _ (mem_flatMap_finRange.mpr ⟨j, hj⟩))
    · obtain ⟨hxa, hxs⟩ := not_or.mp (mt List.mem_cons.mpr hx)
      refine hframe x hxa fun hmem => hxs (mem_flatMap_finRange.mpr ⟨i, ?_⟩)
      rw [Function.update_self]
      exact hmem

/-- A store to the cell of a path writes the cell of the tree. -/
theorem store_seek (hh : Holds h t a foot) (hnodup : foot.Nodup) {x : Nat × Fin w}
    (hx : seek h p a = some x) (v : Nat) :
    ∃ h', h.store x.1 x.2 v = some h' ∧ Holds h' (t.set p v) a foot ∧ Grows h h' foot foot := by
  induction hh with
  | null => cases p <;> simp [seek] at hx
  | @leaf a cells hne ha =>
      cases p with
      | last i =>
          rw [seek, if_neg hne] at hx
          cases hx
          refine ⟨h.put a (Function.update cells i v), ?_, .leaf hne (put_self ..), hnodup,
            fun _ hb => hb, fun _ hb => .inl hb, fun b hb => put_of_ne _ _ ?_⟩
          · rw [store, ha]
            rfl
          · rintro rfl
            exact hb List.mem_cons_self
  | @node n a words ts foot hne ha hts ih =>
      cases p with
      | step i p =>
          obtain ⟨hroot, hone, -⟩ := nodup_node.mp hnodup
          rw [seek, if_neg hne, load, ha] at hx
          obtain ⟨h', hstore, hholds, hgrows⟩ := ih i (hone i) hx
          have ha' : h'.tables a = some (Function.update words i (words i)) := by
            rw [Function.update_eq_self, hgrows.frame a (hroot i), ha]
          have hnode := Grows.node hne ha hts hnodup i ha' hholds hgrows.fresh hgrows.subset
            (hone i) fun x _ hxf => hgrows.frame x hxf
          rw [Function.update_eq_self] at hnode
          exact ⟨h', hstore, hnode⟩

/-! ### Creating tables -/

/-- A table of null pointers or of blank cells. -/
def blank : {n : Nat} → Radix w Nat n
  | 0 => .leaf fun _ => 0
  | _ + 1 => .node fun _ => .null

theorem holds_blank (hne : a ≠ 0) (ha : h.tables a = some fun _ => 0) :
    Holds h (blank : Radix w Nat n) a [a] := by
  cases n with
  | zero => exact .leaf hne ha
  | succ n =>
      have hnode : Holds h (.node fun _ => .null : Radix w Nat (n + 1)) a
          (a :: (List.finRange w).flatMap fun _ => []) := .node hne ha fun _ => .null
      rw [List.flatMap_eq_nil_iff.mpr fun _ _ => rfl] at hnode
      exact hnode

/-- To touch a missing table is to allocate it, and then to touch it. -/
theorem touch_null {σ : Type} (alloc : σ → Bool × σ) (p : RadixPath w n) (o : σ) :
    Radix.touch alloc 0 p .null o =
      if (alloc o).1 then Radix.touch alloc 0 p blank (alloc o).2
      else (false, .null, (alloc o).2) := by
  cases p with
  | last i =>
      rw [Radix.touch]
      split <;> rename_i heq <;> rw [heq] <;> rfl
  | step i p =>
      rw [Radix.touch]
      split <;> rename_i heq <;> rw [heq] <;> rfl

section Allocation

variable {σ : Type} (c : Calloc w) (alloc : σ → Bool × σ)

theorem calloc_true {o : σ} (hgrant : (alloc o).1 = true) :
    calloc c alloc h o = (c.pick h, h.put (c.pick h) fun _ => 0, (alloc o).2) := by
  rw [calloc]
  split <;> rename_i heq <;> rw [heq] at hgrant ⊢
  cases hgrant

theorem calloc_false {o : σ} (hgrant : (alloc o).1 = false) :
    calloc c alloc h o = (0, h, (alloc o).2) := by
  rw [calloc]
  split <;> rename_i heq <;> rw [heq] at hgrant ⊢
  cases hgrant

/-- The descent that creates tables touches the path. It ends at the cell, if
it gets every table it asks for. -/
theorem descend_spec (hh : Holds h t a foot) (hne : a ≠ 0) (hnodup : foot.Nodup) (o : σ) :
    ∃ h' foot', descend c alloc true p a h o =
        some (if (Radix.touch alloc 0 p t o).1 then seek h' p a else none, h',
          (Radix.touch alloc 0 p t o).2.2) ∧
      Holds h' (Radix.touch alloc 0 p t o).2.1 a foot' ∧ Grows h h' foot foot' := by
  induction p generalizing a h foot o with
  | last i =>
      cases hh with
      | null => exact absurd rfl hne
      | leaf _ ha =>
          refine ⟨h, [a], ?_, .leaf hne ha, .refl hnodup⟩
          simp [descend, Radix.touch, seek, hne]
  | @step n i p ih =>
      cases hh with
      | null => exact absurd rfl hne
      | @node _ _ words ts foot _ ha hts =>
          obtain ⟨hroot, hone, -⟩ := nodup_node.mp hnodup
          have hload : h.load a i = some (words i) := by
            rw [load, ha]
            rfl
          have hdone {h' : TableHeap w} {words' : Fin w → Nat} (ha' : h'.tables a = some words') :
              seek h' (.step i p) a = seek h' p (words' i) := by
            rw [seek, if_neg hne, load, ha']
            rfl
          rcases eq_or_ne (words i) 0 with hzero | hsome
          · -- the table below is missing
            have hnull := hts i
            rw [hzero] at hnull
            obtain ⟨hti, hfi⟩ := hnull.of_zero
            have htouch : Radix.touch alloc 0 (.step i p) (.node ts) o =
                ((Radix.touch alloc 0 p .null o).1,
                  .node (Function.update ts i (Radix.touch alloc 0 p .null o).2.1),
                  (Radix.touch alloc 0 p .null o).2.2) := by
              rw [← hti]
              rfl
            rw [descend, hload, Option.bind_some, if_neg (not_not.mpr hzero), if_pos rfl, htouch,
              touch_null]
            cases hgrant : (alloc o).1 with
            | false =>
                have hsame : Function.update ts i .null = ts := by
                  rw [← hti, Function.update_eq_self]
                rw [if_neg Bool.false_ne_true, hsame, calloc_false c alloc hgrant]
                exact ⟨h, _, rfl, .node hne ha hts, .refl hnodup⟩
            | true =>
                let b := c.pick h
                have hb : h.tables b = none := c.fresh h
                have hba : b ≠ a := by
                  intro heq
                  rw [heq, ha] at hb
                  cases hb
                let h₂ := (h.put b fun _ => 0).put a (Function.update words i b)
                have hstore : (h.put b fun _ => 0).store a i b = some h₂ := by
                  rw [store, put_of_ne _ _ hba.symm, ha]
                  rfl
                have hb₂ : h₂.tables b = some fun _ => 0 := by
                  rw [put_of_ne _ _ hba, put_self]
                obtain ⟨h', foot', hdescend, hholds, hgrows⟩ := ih (holds_blank (c.ne_zero h) hb₂)
                  (c.ne_zero h) (List.nodup_singleton b) (alloc o).2
                have ha' : h'.tables a = some (Function.update words i b) := by
                  rw [hgrows.frame a (hgrows.not_mem (by simp [h₂]) (by simpa using hba.symm))]
                  exact put_self ..
                have hfresh : ∀ x ∈ foot', x ∈ foot i ∨ h.tables x = none := by
                  intro x hx
                  rcases hgrows.fresh x hx with hxb | hnone
                  · rw [List.mem_singleton.mp hxb]
                    exact .inr hb
                  · right
                    have hxa : x ≠ a := by
                      rintro rfl
                      simp [h₂] at hnone
                    have hxb : x ≠ b := by
                      rintro rfl
                      rw [hb₂] at hnone
                      cases hnone
                    rw [put_of_ne _ _ hxa, put_of_ne _ _ hxb] at hnone
                    exact hnone
                have hframe : ∀ x, x ≠ a → x ∉ foot' → h'.tables x = h.tables x := by
                  intro x hxa hx
                  have hxb : x ≠ b := by
                    rintro rfl
                    exact hx (hgrows.subset _ List.mem_cons_self)
                  rw [hgrows.frame x hx, put_of_ne _ _ hxa, put_of_ne _ _ hxb]
                have hnode := Grows.node hne ha hts hnodup i ha' hholds hfresh (by simp [hfi])
                  hgrows.nodup hframe
                refine ⟨h', _, ?_, hnode⟩
                rw [if_pos rfl, calloc_true c alloc hgrant, if_neg (c.ne_zero h), hstore,
                  Option.bind_some, hdescend, hdone ha', Function.update_self]
          · obtain ⟨h', foot', hdescend, hholds, hgrows⟩ := ih (hts i) hsome (hone i) o
            have hnot : a ∉ foot' := hgrows.not_mem (by simp [ha]) (hroot i)
            have ha' : h'.tables a = some (Function.update words i (words i)) := by
              rw [Function.update_eq_self, hgrows.frame a hnot, ha]
            have hnode := Grows.node hne ha hts hnodup i ha' hholds hgrows.fresh hgrows.subset
              hgrows.nodup fun x _ hx => hgrows.frame x hx
            refine ⟨h', _, ?_, hnode⟩
            rw [descend, hload, Option.bind_some, if_pos hsome, hdescend, hdone ha',
              Function.update_self]
            rfl

/-- A walk that creates tables touches the path from its root. A root that
exists stays. -/
theorem walk_spec (hh : Holds h t a foot) (hnodup : foot.Nodup) (o : σ) :
    ∃ a' h' foot', walk c alloc true p a h o =
        some (if (Radix.touch alloc 0 p t o).1 then seek h' p a' else none, a', h',
          (Radix.touch alloc 0 p t o).2.2) ∧
      Holds h' (Radix.touch alloc 0 p t o).2.1 a' foot' ∧ Grows h h' foot foot' ∧
      (a ≠ 0 → a' = a) := by
  rcases eq_or_ne a 0 with rfl | hne
  · obtain ⟨rfl, rfl⟩ := hh.of_zero
    rw [walk, if_neg (not_not.mpr rfl), if_pos rfl, touch_null]
    cases hgrant : (alloc o).1 with
    | false =>
        rw [if_neg Bool.false_ne_true, calloc_false c alloc hgrant]
        exact ⟨0, h, [], rfl, .null, .refl hnodup, fun _ => rfl⟩
    | true =>
        obtain ⟨h', foot', hdescend, hholds, hgrows⟩ := descend_spec (p := p) c alloc
          (holds_blank (c.ne_zero h) (put_self h (c.pick h) fun _ => 0)) (c.ne_zero h)
          (List.nodup_singleton _) (alloc o).2
        refine ⟨c.pick h, h', foot', ?_, hholds,
          ⟨hgrows.nodup, by simp, fun b hb => .inr ?_, fun b hb => ?_⟩, fun hne => absurd rfl hne⟩
        · rw [if_pos rfl, calloc_true c alloc hgrant, if_neg (c.ne_zero h), hdescend]
          rfl
        · rcases hgrows.fresh b hb with hroot | hnone
          · rw [List.mem_singleton.mp hroot]
            exact c.fresh h
          · have hbp : b ≠ c.pick h := by
              rintro rfl
              rw [put_self] at hnone
              cases hnone
            rwa [put_of_ne _ _ hbp] at hnone
        · have hbp : b ≠ c.pick h := by
            rintro rfl
            exact hb (hgrows.subset _ List.mem_cons_self)
          rw [hgrows.frame b hb, put_of_ne _ _ hbp]
  · obtain ⟨h', foot', hdescend, hholds, hgrows⟩ := descend_spec (p := p) c alloc hh hne hnodup o
    refine ⟨a, h', foot', ?_, hholds, hgrows, fun _ => rfl⟩
    rw [walk, if_pos hne, hdescend]
    rfl

/-- A walk that creates nothing finds the cell or not. -/
theorem walk_false (hh : Holds h t a foot) (o : σ) :
    walk c alloc false p a h o = some (seek h p a, a, h, o) := by
  have hdescend (hne : a ≠ 0) : descend c alloc false p a h o = some (seek h p a, h, o) := by
    induction hh with
    | null => exact absurd rfl hne
    | leaf _ ha =>
        cases p with
        | last i => simp [descend, seek, hne]
    | @node n a words ts foot _ ha hts ih =>
        cases p with
        | step i p =>
            have hload : h.load a i = some (words i) := by
              rw [load, ha]
              rfl
            rw [descend, seek, if_neg hne, hload, Option.bind_some, Option.bind_some]
            rcases eq_or_ne (words i) 0 with hzero | hsome
            · rw [if_neg (not_not.mpr hzero), if_neg Bool.false_ne_true, hzero]
              cases p <;> rfl
            · rw [if_pos hsome, ih i hsome]
  rcases eq_or_ne a 0 with rfl | hne
  · cases p <;> rfl
  · rw [walk, if_pos hne, hdescend hne]
    rfl

end Allocation

/-! ### Freeing and visiting -/

/-- To free the tables of a tree frees every table of the footprint, and no
other. -/
theorem freeTables_spec (hh : Holds h t a foot) (hnodup : foot.Nodup) :
    ∃ h', freeTables n a h = some h' ∧
      ∀ b, h'.tables b = if b ∈ foot then none else h.tables b := by
  -- the heap at the time of the call agrees with the one that holds the tree
  suffices hall : ∀ g : TableHeap w, (∀ b ∈ foot, g.tables b = h.tables b) →
      ∃ h', freeTables n a g = some h' ∧
        ∀ b, h'.tables b = if b ∈ foot then none else g.tables b from
    hall h fun _ _ => rfl
  induction hh with
  | @null n =>
      intro g _
      refine ⟨g, ?_, by simp⟩
      cases n <;> rw [freeTables, if_pos rfl]
  | @leaf a cells hne ha =>
      intro g hg
      refine ⟨g.remove a, ?_, by simp⟩
      rw [freeTables, if_neg hne, free, hg a List.mem_cons_self, ha]
      rfl
  | @node n a words ts foot hne ha hts ih =>
      intro g hg
      obtain ⟨hroot, hone, hdisj⟩ := nodup_node.mp hnodup
      have hloop (is : List (Fin w)) (his : is.Nodup) : ∀ g : TableHeap w, g.tables a = some words →
          (∀ i ∈ is, ∀ b ∈ foot i, g.tables b = h.tables b) →
          ∃ g', is.foldlM (fun (h : TableHeap w) i => (h.load a i).bind fun b =>
              if b ≠ 0 then freeTables n b h else some h) g = some g' ∧
            ∀ b, g'.tables b = if ∃ i ∈ is, b ∈ foot i then none else g.tables b := by
        induction is with
        | nil =>
            intro g _ _
            exact ⟨g, rfl, by simp⟩
        | cons i is ihs =>
            intro g hga hgs
            obtain ⟨hi, his⟩ := List.nodup_cons.mp his
            have hfirst : ∃ g₁, ((g.load a i).bind fun b =>
                if b ≠ 0 then freeTables n b g else some g) = some g₁ ∧
                ∀ b, g₁.tables b = if b ∈ foot i then none else g.tables b := by
              rw [load, hga]
              rcases eq_or_ne (words i) 0 with hzero | hsome
              · have hnull := hts i
                rw [hzero] at hnull
                exact ⟨g, by simp [hzero], by simp [hnull.of_zero.2]⟩
              · obtain ⟨g₁, hfree, htables⟩ := ih i (hone i) g (hgs i List.mem_cons_self)
                exact ⟨g₁, by simp [hsome, hfree], htables⟩
            obtain ⟨g₁, hstep, htables₁⟩ := hfirst
            obtain ⟨g', hrest, htables'⟩ := ihs his g₁ (by rw [htables₁, if_neg (hroot i), hga])
              fun j hj b hb => by
                have hji : j ≠ i := fun heq => hi (heq ▸ hj)
                rw [htables₁, if_neg fun hbi => hdisj j i hji hb hbi]
                exact hgs j (List.mem_cons_of_mem i hj) b hb
            refine ⟨g', ?_, fun b => ?_⟩
            · simp only [List.foldlM_cons, Option.bind_eq_bind, hstep, Option.bind_some]
              exact hrest
            · rw [htables', htables₁]
              by_cases hbi : b ∈ foot i <;> simp [hbi]
      obtain ⟨g', hfold, htables⟩ := hloop (List.finRange w) (List.nodup_finRange w) g
        ((hg a List.mem_cons_self).trans ha) fun i _ b hb =>
          hg b (List.mem_cons_of_mem _ (mem_flatMap_finRange.mpr ⟨i, hb⟩))
      have hga : g'.tables a = some words := by
        rw [htables, if_neg, hg a List.mem_cons_self, ha]
        rintro ⟨i, -, hi⟩
        exact hroot i hi
      refine ⟨g'.remove a, ?_, fun b => ?_⟩
      · rw [freeTables, if_neg hne, hfold, Option.bind_some, free, hga]
        rfl
      · rw [remove_tables, htables]
        by_cases hba : b = a <;> simp [hba]

/-- A walk over the cells folds those that are not zero, in depth-first
order. -/
theorem collect_spec {S : Type} (f : S → Nat → S) (hh : Holds h t a foot) (s : S) :
    collect f h n a s = some ((t.entries.filter (· ≠ 0)).foldl f s) := by
  induction hh generalizing s with
  | @null n => cases n <;> rw [collect, if_pos rfl] <;> rfl
  | @leaf a cells hne ha =>
      have hloop (is : List (Fin w)) (s : S) :
          is.foldlM (fun s i => (h.load a i).map fun v => if v = 0 then s else f s v) s =
            some (((is.map cells).filter (· ≠ 0)).foldl f s) := by
        induction is generalizing s with
        | nil => rfl
        | cons i is ih =>
            have hload : h.load a i = some (cells i) := by
              rw [load, ha]
              rfl
            simp only [List.foldlM_cons, hload, Option.map_some, Option.bind_eq_bind,
              Option.bind_some, ih, List.map_cons]
            rcases eq_or_ne (cells i) 0 with hzero | hsome
            · simp [hzero]
            · simp [hsome]
      rw [collect, if_neg hne, hloop]
      rfl
  | @node n a words ts foot hne ha hts ih =>
      have hloop (is : List (Fin w)) (s : S) :
          is.foldlM (fun s i => (h.load a i).bind fun b =>
              if b = 0 then some s else collect f h n b s) s =
            some (((is.flatMap fun i => (ts i).entries).filter (· ≠ 0)).foldl f s) := by
        induction is generalizing s with
        | nil => rfl
        | cons i is ihs =>
            have hload : h.load a i = some (words i) := by
              rw [load, ha]
              rfl
            have hone : (if words i = 0 then some s else collect f h n (words i) s) =
                some (((ts i).entries.filter (· ≠ 0)).foldl f s) := by
              rcases eq_or_ne (words i) 0 with hzero | hsome
              · have hnull := hts i
                rw [hzero] at hnull
                rw [if_pos hzero, hnull.of_zero.1]
                rfl
              · rw [if_neg hsome, ih i]
            simp only [List.foldlM_cons, hload, Option.bind_eq_bind, Option.bind_some, hone, ihs]
            rw [List.flatMap_cons, List.filter_append, List.foldl_append]
      rw [collect, if_neg hne, hloop]
      rfl

/-- The addresses of the tables that can be reached from a table. -/
def tablesFrom (h : TableHeap w) : (n a : Nat) → List Nat
  | 0, a => if a = 0 then [] else [a]
  | n + 1, a =>
    if a = 0 then []
    else
      match h.tables a with
      | none => [a]
      | some words => a :: (List.finRange w).flatMap fun i => tablesFrom h n (words i)

/-- The footprint is what can be reached. -/
theorem Holds.tablesFrom_eq (hh : Holds h t a foot) : tablesFrom h n a = foot := by
  induction hh with
  | @null n => cases n <;> rw [tablesFrom, if_pos rfl]
  | leaf hne _ => rw [tablesFrom, if_neg hne]
  | node hne ha _ ih =>
      rw [tablesFrom, if_neg hne, ha]
      simp only [ih]

end Holds

/-! ### Several trees -/

/-- A heap that holds the trees of the owners in `ids`, and nothing else. No
table belongs to two of them. -/
structure Forest {w n : Nat} {ι : Type} (h : TableHeap w) (ids : ι → Prop)
    (tree : ι → Radix w Nat n) (root : ι → Nat) (foot : ι → List Nat) : Prop where
  holds : ∀ i, ids i → Holds h (tree i) (root i) (foot i)
  nodup : ∀ i, ids i → (foot i).Nodup
  apart : ∀ i j, ids i → ids j → i ≠ j → List.Disjoint (foot i) (foot j)
  all : ∀ a, h.tables a ≠ none → ∃ i, ids i ∧ a ∈ foot i

namespace Forest

variable {w n : Nat} {ι : Type} {h h' : TableHeap w} {ids : ι → Prop}
  {tree : ι → Radix w Nat n} {root : ι → Nat} {foot : ι → List Nat} {i : ι}

/-- The tables of an owner are those that can be reached from the root, and
they are allocated. -/
theorem tables_iff (hf : Forest h ids tree root foot) (a : Nat) :
    h.tables a ≠ none ↔ ∃ i, ids i ∧ a ∈ tablesFrom h n (root i) := by
  constructor
  · intro ha
    obtain ⟨i, hi, hmem⟩ := hf.all a ha
    exact ⟨i, hi, by rwa [(hf.holds i hi).tablesFrom_eq]⟩
  · rintro ⟨i, hi, hmem⟩
    rw [(hf.holds i hi).tablesFrom_eq] at hmem
    exact (hf.holds i hi).allocated a hmem

theorem empty : Forest TableHeap.empty (fun _ => False) tree root foot where
  holds _ hi := hi.elim
  nodup _ hi := hi.elim
  apart _ _ hi := hi.elim
  all _ ha := absurd rfl ha

theorem congr {ids' : ι → Prop} (hf : Forest h ids tree root foot) (hids : ∀ i, ids i ↔ ids' i) :
    Forest h ids' tree root foot := by
  rwa [← funext fun i => propext (hids i)]

/-- An owner whose tables are freed. -/
theorem free (hf : Forest h ids tree root foot) (hi : ids i) :
    ∃ h', freeTables n (root i) h = some h' ∧
      Forest h' (fun j => j ≠ i ∧ ids j) tree root foot := by
  obtain ⟨h', hfree, htables⟩ := freeTables_spec (hf.holds i hi) (hf.nodup i hi)
  refine ⟨h', hfree, fun j hj => ?_, fun j hj => hf.nodup j hj.2,
    fun j k hj hk => hf.apart j k hj.2 hk.2, fun a ha => ?_⟩
  · refine (hf.holds j hj.2).frame fun b hb => ?_
    rw [htables, if_neg fun hbi => hf.apart j i hj.2 hi hj.1 hb hbi]
  · rw [htables] at ha
    split at ha
    · exact absurd rfl ha
    · rename_i hnot
      obtain ⟨j, hj, hfoot⟩ := hf.all a ha
      refine ⟨j, ⟨?_, hj⟩, hfoot⟩
      rintro rfl
      exact hnot hfoot

variable [DecidableEq ι]

/-- The change of one tree. -/
theorem grow (hf : Forest h ids tree root foot) (hi : ids i) {t' : Radix w Nat n} {a' : Nat}
    {foot' : List Nat} (hh' : Holds h' t' a' foot') (hgrows : Grows h h' (foot i) foot') :
    Forest h' ids (Function.update tree i t') (Function.update root i a')
      (Function.update foot i foot') := by
  have hother (j : ι) (hj : ids j) (hji : j ≠ i) :=
    hgrows.holds_other (hf.holds j hj) (hf.apart i j hi hj hji.symm)
  refine ⟨fun j hj => ?_, fun j hj => ?_, fun j k hj hk hjk => ?_, fun a ha => ?_⟩
  · rcases eq_or_ne j i with rfl | hji
    · simpa only [Function.update_self] using hh'
    · simpa only [Function.update_of_ne hji] using (hother j hj hji).1
  · rcases eq_or_ne j i with rfl | hji
    · simpa only [Function.update_self] using hgrows.nodup
    · simpa only [Function.update_of_ne hji] using hf.nodup j hj
  · rcases eq_or_ne j i with rfl | hji
    · rw [Function.update_self, Function.update_of_ne hjk.symm]
      exact (hother k hk hjk.symm).2
    · rw [Function.update_of_ne hji]
      rcases eq_or_ne k i with rfl | hki
      · rw [Function.update_self]
        exact (hother j hj hji).2.symm
      · rw [Function.update_of_ne hki]
        exact hf.apart j k hj hk hjk
  · by_cases hmem : a ∈ foot'
    · exact ⟨i, hi, by rwa [Function.update_self]⟩
    · rw [hgrows.frame a hmem] at ha
      obtain ⟨j, hj, hfoot⟩ := hf.all a ha
      have hji : j ≠ i := by
        rintro rfl
        exact hmem (hgrows.subset a hfoot)
      exact ⟨j, hj, by rwa [Function.update_of_ne hji]⟩

/-- A new owner with one table. -/
theorem add (hf : Forest h ids tree root foot) (hi : ¬ids i) {a : Nat} (hne : a ≠ 0)
    (ha : h.tables a = none) :
    Forest (h.put a fun _ => 0) (fun j => j = i ∨ ids j) (Function.update tree i blank)
      (Function.update root i a) (Function.update foot i [a]) := by
  have hnot (j : ι) (hj : ids j) : a ∉ foot j := fun hmem => (hf.holds j hj).allocated a hmem ha
  have hother (j : ι) (hj : j = i ∨ ids j) (hji : j ≠ i) : ids j := hj.resolve_left hji
  refine ⟨fun j hj => ?_, fun j hj => ?_, fun j k hj hk hjk => ?_, fun b hb => ?_⟩
  · rcases eq_or_ne j i with rfl | hji
    · simpa only [Function.update_self] using holds_blank hne (put_self h a _)
    · have hids := hother j hj hji
      simp only [Function.update_of_ne hji]
      refine (hf.holds j hids).frame fun b hb => put_of_ne _ _ ?_
      rintro rfl
      exact hnot j hids hb
  · rcases eq_or_ne j i with rfl | hji
    · simp only [Function.update_self, List.nodup_singleton]
    · simpa only [Function.update_of_ne hji] using hf.nodup j (hother j hj hji)
  · rcases eq_or_ne j i with rfl | hji
    · rw [Function.update_self, Function.update_of_ne hjk.symm]
      exact List.singleton_disjoint.mpr (hnot k (hother k hk hjk.symm))
    · rw [Function.update_of_ne hji]
      rcases eq_or_ne k i with rfl | hki
      · rw [Function.update_self]
        exact List.disjoint_singleton.mpr (hnot j (hother j hj hji))
      · rw [Function.update_of_ne hki]
        exact hf.apart j k (hother j hj hji) (hother k hk hki) hjk
  · rcases eq_or_ne b a with rfl | hba
    · exact ⟨i, .inl rfl, by rw [Function.update_self]; exact List.mem_cons_self⟩
    · rw [put_of_ne _ _ hba] at hb
      obtain ⟨j, hj, hfoot⟩ := hf.all b hb
      have hji : j ≠ i := by
        rintro rfl
        exact hi hj
      exact ⟨j, .inr hj, by rwa [Function.update_of_ne hji]⟩

end Forest

end Ossim.Lib
