import Mathlib.Data.Finset.Dedup
import Mathlib.Data.Fintype.EquivFin
import Mathlib.Data.List.Nodup
import Mathlib.Logic.Function.Basic

/-!
Singly linked lists in memory.

A node has a value and the address of the next node. Memory gives the node at
an address, and nothing where no node is allocated. `Chain h p l q` says that
the links from `p` on pass through the nodes `l`, given by their addresses and
values, and arrive at `q`. A chain that arrives nowhere is a list.
-/

namespace Ossim.Lib

/-- A node of a linked list. -/
structure Node (α : Type*) where
  val : α
  next : Option Nat

/-- The nodes that are allocated, by address. -/
abbrev Heap (α : Type*) := Nat → Option (Node α)

variable {α : Type*}

def Chain (h : Heap α) : Option Nat → List (Nat × α) → Option Nat → Prop
  | p, [], q => p = q
  | p, (a, v) :: l, q => p = some a ∧ ∃ next, h a = some ⟨v, next⟩ ∧ Chain h next l q

/-- The addresses of a chain. -/
def addrs (l : List (Nat × α)) : List Nat := l.map Prod.fst

/-- The values of a chain. -/
def vals (l : List (Nat × α)) : List α := l.map Prod.snd

@[simp] theorem addrs_nil : addrs ([] : List (Nat × α)) = [] := rfl

@[simp] theorem addrs_cons (x : Nat × α) (l : List (Nat × α)) :
    addrs (x :: l) = x.1 :: addrs l := rfl

@[simp] theorem vals_cons (x : Nat × α) (l : List (Nat × α)) : vals (x :: l) = x.2 :: vals l := rfl

@[simp] theorem addrs_append (l l' : List (Nat × α)) : addrs (l ++ l') = addrs l ++ addrs l' :=
  List.map_append ..

@[simp] theorem vals_append (l l' : List (Nat × α)) : vals (l ++ l') = vals l ++ vals l' :=
  List.map_append ..

namespace Chain

variable {h : Heap α} {p q : Option Nat} {l l' : List (Nat × α)} {a : Nat} {v : α}

theorem append : Chain h p (l ++ l') q ↔ ∃ m, Chain h p l m ∧ Chain h m l' q := by
  induction l generalizing p with
  | nil =>
      constructor
      · intro hl
        exact ⟨p, rfl, hl⟩
      · rintro ⟨m, rfl, hl⟩
        exact hl
  | cons x l ih =>
      obtain ⟨a, v⟩ := x
      constructor
      · rintro ⟨rfl, next, hnode, hrest⟩
        obtain ⟨m, hl, hl'⟩ := ih.mp hrest
        exact ⟨m, ⟨rfl, next, hnode, hl⟩, hl'⟩
      · rintro ⟨m, ⟨rfl, next, hnode, hl⟩, hl'⟩
        exact ⟨rfl, next, hnode, ih.mpr ⟨m, hl, hl'⟩⟩

/-- Where memory has not changed at its nodes, a chain is the same. -/
theorem congr {h' : Heap α} (hl : Chain h p l q) (heq : ∀ a ∈ addrs l, h' a = h a) :
    Chain h' p l q := by
  induction l generalizing p with
  | nil => exact hl
  | cons x l ih =>
      obtain ⟨a, v⟩ := x
      obtain ⟨rfl, next, hnode, hrest⟩ := hl
      refine ⟨rfl, next, ?_, ih hrest fun b hb => heq b (List.mem_cons_of_mem _ hb)⟩
      rw [heq a (List.mem_cons_self ..)]
      exact hnode

theorem allocated (hl : Chain h p l q) (ha : a ∈ addrs l) : h a ≠ none := by
  obtain ⟨⟨b, v⟩, hmem, rfl⟩ := List.mem_map.mp ha
  obtain ⟨l₁, l₂, rfl⟩ := List.append_of_mem hmem
  obtain ⟨m, -, -, next, hnode, -⟩ := append.mp hl
  rw [hnode]
  exact Option.some_ne_none _

/-- What happens at an address elsewhere does not show. -/
theorem update (hl : Chain h p l q) (ha : a ∉ addrs l) (x : Option (Node α)) :
    Chain (Function.update h a x) p l q := by
  apply hl.congr
  intro b hb
  apply Function.update_of_ne
  rintro rfl
  exact ha hb

/-- A pointer leads to one list. -/
theorem unique (hl : Chain h p l none) (hl' : Chain h p l' none) : l = l' := by
  induction l generalizing p l' with
  | nil =>
      obtain rfl : p = none := hl
      cases l' with
      | nil => rfl
      | cons y l' => exact absurd hl'.1 (Option.some_ne_none _).symm
  | cons x l ih =>
      obtain ⟨a, v⟩ := x
      obtain ⟨rfl, next, hnode, hrest⟩ := hl
      cases l' with
      | nil => exact absurd hl' (Option.some_ne_none _)
      | cons y l' =>
          obtain ⟨b, w⟩ := y
          obtain ⟨hb, next', hnode', hrest'⟩ := hl'
          obtain rfl := Option.some.inj hb
          rw [hnode, Option.some.injEq, Node.mk.injEq] at hnode'
          obtain ⟨rfl, rfl⟩ := hnode'
          rw [ih hrest hrest']

/-- A list does not come back to a node. -/
theorem nodup (hl : Chain h p l none) : (addrs l).Nodup := by
  induction l generalizing p with
  | nil => exact List.nodup_nil
  | cons x l ih =>
      obtain ⟨a, v⟩ := x
      obtain ⟨rfl, next, hnode, hrest⟩ := hl
      refine List.nodup_cons.mpr ⟨fun hmem => ?_, ih hrest⟩
      obtain ⟨⟨b, w⟩, hb, rfl⟩ := List.mem_map.mp hmem
      obtain ⟨l₁, l₂, rfl⟩ := List.append_of_mem hb
      -- the list from the node on would be a part of itself
      obtain ⟨m, -, hagain⟩ := append.mp hrest
      obtain rfl : m = some b := hagain.1
      have hwhole : Chain h (some b) ((b, v) :: (l₁ ++ (b, w) :: l₂)) none :=
        ⟨rfl, next, hnode, hrest⟩
      have hlen := congrArg List.length (unique hwhole hagain)
      simp only [List.length_cons, List.length_append] at hlen
      omega

end Chain

/-! ### Nodes that change hands -/

/-- Of the nodes at `old` those at `new` are left and the others are freed;
nothing else in memory has changed. -/
structure Relinked (h h' : Heap α) (old new : List Nat) : Prop where
  sub : new ⊆ old
  freed : ∀ a ∈ old, a ∉ new → h' a = none
  frame : ∀ a, a ∉ old → h' a = h a

namespace Relinked

variable {h h' h'' : Heap α} {old mid new : List Nat}

theorem refl (h : Heap α) (old : List Nat) : Relinked h h old old where
  sub := List.Subset.refl _
  freed _ hmem hnew := absurd hmem hnew
  frame _ _ := rfl

theorem trans (h₁ : Relinked h h' old mid) (h₂ : Relinked h' h'' mid new) :
    Relinked h h'' old new where
  sub := List.Subset.trans h₂.sub h₁.sub
  freed a ha hnew := by
    by_cases hmid : a ∈ mid
    · exact h₂.freed a hmid hnew
    · rw [h₂.frame a hmid]
      exact h₁.freed a ha hmid
  frame a ha := by
    rw [h₂.frame a fun hmid => ha (h₁.sub hmid), h₁.frame a ha]

theorem congr {old' : List Nat} (h₁ : Relinked h h' old new) (hold : ∀ a, a ∈ old' ↔ a ∈ old) :
    Relinked h h' old' new where
  sub a ha := (hold a).mpr (h₁.sub ha)
  freed a ha := h₁.freed a ((hold a).mp ha)
  frame a ha := h₁.frame a fun hmem => ha ((hold a).mpr hmem)

/-- More nodes that stay. -/
theorem append_left (h₁ : Relinked h h' old new) (kept : List Nat) :
    Relinked h h' (kept ++ old) (kept ++ new) where
  sub := List.append_subset.mpr
    ⟨List.subset_append_left .., List.Subset.trans h₁.sub (List.subset_append_right ..)⟩
  freed a ha hnew := by
    rw [List.mem_append, not_or] at hnew
    exact h₁.freed a ((List.mem_append.mp ha).resolve_left hnew.1) hnew.2
  frame a ha := h₁.frame a fun hold => ha (List.mem_append_right _ hold)

/-- Stores to nodes that stay. -/
theorem update {a : Nat} (ha : a ∈ old) (x : Option (Node α)) :
    Relinked h (Function.update h a x) old old where
  sub := List.Subset.refl _
  freed _ hmem hnew := absurd hmem hnew
  frame b hb := by
    apply Function.update_of_ne
    rintro rfl
    exact hb ha

theorem free {a : Nat} (hnew : ∀ b, b ∈ old ↔ b = a ∨ b ∈ new) :
    Relinked h (Function.update h a none) old new where
  sub b hb := (hnew b).mpr (.inr hb)
  freed b hb hb' := by
    obtain rfl := ((hnew b).mp hb).resolve_right hb'
    exact Function.update_self ..
  frame b hb := by
    apply Function.update_of_ne
    rintro rfl
    exact hb ((hnew b).mpr (.inl rfl))

end Relinked

/-! ### What is allocated -/

/-- The nodes that are allocated are those at `nodes`, and those at `lost`,
which are others. -/
structure InUse (h : Heap α) (nodes lost : List Nat) : Prop where
  apart : nodes.Disjoint lost
  mem_iff (a : Nat) : h a ≠ none ↔ a ∈ nodes ∨ a ∈ lost

namespace InUse

variable {h h' : Heap α} {nodes new lost : List Nat} {a : Nat}

/-- There is always room for one more. -/
theorem exists_free (hh : InUse h nodes lost) : ∃ a, h a = none := by
  obtain ⟨a, ha⟩ := Infinite.exists_notMem_finset (nodes ++ lost).toFinset
  rw [List.mem_toFinset, List.mem_append, ← hh.mem_iff, not_not] at ha
  exact ⟨a, ha⟩

theorem notMem_of_free (hh : InUse h nodes lost) (ha : h a = none) : a ∉ nodes ∧ a ∉ lost :=
  not_or.mp fun hmem => (hh.mem_iff a).mpr hmem ha

theorem malloc (hh : InUse h nodes lost) (ha : h a = none) (node : Node α) :
    InUse (Function.update h a (some node)) (a :: nodes) lost where
  apart := List.disjoint_cons_left.mpr ⟨(hh.notMem_of_free ha).2, hh.apart⟩
  mem_iff b := by
    by_cases hb : b = a
    · rw [hb, Function.update_self]
      exact ⟨fun _ => .inl (List.mem_cons_self ..), fun _ => Option.some_ne_none _⟩
    · rw [Function.update_of_ne hb, hh.mem_iff, List.mem_cons, or_iff_right hb]

/-- A node nothing leads to is lost. -/
theorem lose (hh : InUse h (a :: nodes) lost) (ha : a ∉ nodes) :
    InUse h nodes (a :: lost) where
  apart := List.disjoint_cons_right.mpr ⟨ha, (List.disjoint_cons_left.mp hh.apart).2⟩
  mem_iff b := by
    rw [hh.mem_iff, List.mem_cons, List.mem_cons, or_assoc]
    exact or_left_comm

theorem relinked (hh : InUse h nodes lost) (hrel : Relinked h h' nodes new)
    (hnew : ∀ a ∈ new, h' a ≠ none) : InUse h' new lost where
  apart := List.disjoint_of_subset_left hrel.sub hh.apart
  mem_iff b := by
    constructor
    · intro hb
      by_cases hmem : b ∈ nodes
      · exact .inl (by_contra fun hb' => hb (hrel.freed b hmem hb'))
      · rw [hrel.frame b hmem, hh.mem_iff] at hb
        exact .inr (hb.resolve_left hmem)
    · rintro (hb | hb)
      · exact hnew b hb
      · rw [hrel.frame b fun hmem => hh.apart hmem hb, hh.mem_iff]
        exact .inr hb

end InUse

end Ossim.Lib
