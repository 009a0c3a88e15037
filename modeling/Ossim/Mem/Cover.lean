import Ossim.Lib.Tally
import Ossim.Mem.Region

/-!
Which bytes the lists of regions cover.

`enlist_vm_rg_node` and `get_free_vmrg_area` cut and glue regions in place,
leave empty nodes behind and do not keep the list sorted. What they do keep
is the number of times each byte is covered, and from that alone follow
disjointness and everything else that is proved about regions.
-/

namespace Ossim.Mem

open Ossim.Lib

/-! ### Covering -/

def VmRg.covers (rg : VmRg) (x : Nat) : Bool := decide (rg.rgStart ≤ x) && decide (x < rg.rgEnd)

/-- How often a byte is covered by a list of regions. -/
def cover (l : List VmRg) (x : Nat) : Nat := l.countP (·.covers x)

@[simp] theorem VmRg.covers_iff {rg : VmRg} {x : Nat} :
    rg.covers x = true ↔ rg.rgStart ≤ x ∧ x < rg.rgEnd := by
  simp [covers]

@[simp] theorem cover_nil (x : Nat) : cover [] x = 0 := rfl

theorem cover_cons (rg : VmRg) (l : List VmRg) (x : Nat) :
    cover (rg :: l) x = cover l x + if rg.covers x then 1 else 0 :=
  List.countP_cons ..

theorem cover_append (l l' : List VmRg) (x : Nat) :
    cover (l ++ l') x = cover l x + cover l' x :=
  List.countP_append ..

theorem cover_pos {l : List VmRg} {x : Nat} : 0 < cover l x ↔ ∃ rg ∈ l, rg.covers x = true :=
  List.countP_pos_iff

/-- Every region of the list runs forward and ends at or below `bound`. -/
def Within (bound : Nat) (l : List VmRg) : Prop :=
  ∀ rg ∈ l, rg.rgStart ≤ rg.rgEnd ∧ rg.rgEnd ≤ bound

theorem Within.cons {bound : Nat} {rg : VmRg} {l : List VmRg}
    (hrg : rg.rgStart ≤ rg.rgEnd ∧ rg.rgEnd ≤ bound) (hl : Within bound l) :
    Within bound (rg :: l) := by
  intro rg' hmem
  rcases List.mem_cons.mp hmem with rfl | hmem
  · exact hrg
  · exact hl rg' hmem

theorem Within.head {bound : Nat} {rg : VmRg} {l : List VmRg} (h : Within bound (rg :: l)) :
    rg.rgStart ≤ rg.rgEnd ∧ rg.rgEnd ≤ bound := h rg (List.mem_cons_self ..)

theorem Within.tail {bound : Nat} {rg : VmRg} {l : List VmRg} (h : Within bound (rg :: l)) :
    Within bound l := fun rg' hmem => h rg' (List.mem_cons_of_mem rg hmem)

theorem Within.mono {bound bound' : Nat} {l : List VmRg} (h : Within bound l)
    (hle : bound ≤ bound') : Within bound' l :=
  fun rg hmem => ⟨(h rg hmem).1, (h rg hmem).2.trans hle⟩

/-- Two adjacent regions cover the same as the region they make. -/
theorem cover_glue {a b : VmRg} (ha : a.rgStart ≤ a.rgEnd) (hb : b.rgStart ≤ b.rgEnd)
    (heq : a.rgEnd = b.rgStart) (l : List VmRg) (x : Nat) :
    cover (⟨a.rgStart, b.rgEnd⟩ :: l) x = cover (a :: b :: l) x := by
  simp only [cover_cons, VmRg.covers_iff]
  split_ifs <;> omega

/-! ### Putting a region into the list -/

/-- What a list is after a region was added to it. -/
structure Added (bound : Nat) (rg : VmRg) (l l' : List VmRg) : Prop where
  cover : ∀ x, cover l' x = Mem.cover (rg :: l) x
  within : Within bound l'
  /-- some region of the new list contains the added one -/
  contains : ∃ r ∈ l', r.rgStart ≤ rg.rgStart ∧ rg.rgEnd ≤ r.rgEnd

theorem mergeNext_added {bound : Nat} {rg : VmRg} {l : List VmRg}
    (h : Within bound (rg :: l)) :
    Added bound rg l ((mergeNext rg l).1 :: (mergeNext rg l).2) ∧
      (mergeNext rg l).1.rgStart = rg.rgStart ∧ rg.rgEnd ≤ (mergeNext rg l).1.rgEnd := by
  cases l with
  | nil => exact ⟨⟨fun _ => rfl, h, rg, List.mem_cons_self .., Nat.le_refl _, Nat.le_refl _⟩,
      rfl, Nat.le_refl _⟩
  | cons curr rest =>
      have hrg := h.head
      have hcurr := h.tail.head
      rw [mergeNext]
      split
      · rename_i heq
        have hend : rg.rgEnd ≤ curr.rgEnd := heq ▸ hcurr.1
        refine ⟨⟨fun x => ?_, .cons ⟨hrg.1.trans hend, hcurr.2⟩ h.tail.tail,
          _, List.mem_cons_self .., Nat.le_refl _, hend⟩, rfl, hend⟩
        exact cover_glue hrg.1 hcurr.1 heq rest x
      · exact ⟨⟨fun _ => rfl, h, rg, List.mem_cons_self .., Nat.le_refl _, Nat.le_refl _⟩,
          rfl, Nat.le_refl _⟩

/-- Gluing the node before to what `mergeNext` made. -/
theorem mergePrev_added {bound : Nat} {prev rg : VmRg} {l : List VmRg}
    (h : Within bound (prev :: rg :: l)) :
    Added bound rg (prev :: l)
      (if prev.rgEnd = (mergeNext rg l).1.rgStart then
        ⟨prev.rgStart, (mergeNext rg l).1.rgEnd⟩ :: (mergeNext rg l).2
      else prev :: (mergeNext rg l).1 :: (mergeNext rg l).2) := by
  obtain ⟨hadded, hstart, hend⟩ := mergeNext_added h.tail
  have hprev := h.head
  have hmerged := hadded.within.head
  have hcover (x : Nat) : cover (prev :: (mergeNext rg l).1 :: (mergeNext rg l).2) x =
      cover (rg :: prev :: l) x := by
    have := hadded.cover x
    simp only [cover_cons] at this ⊢
    omega
  split
  · rename_i heq
    refine ⟨fun x => ?_, .cons ⟨?_, hmerged.2⟩ hadded.within.tail,
      _, List.mem_cons_self .., ?_, hend⟩
    · rw [← hcover]
      exact cover_glue hprev.1 hmerged.1 heq _ x
    · change prev.rgStart ≤ (mergeNext rg l).1.rgEnd
      omega
    · change prev.rgStart ≤ rg.rgStart
      omega
  · exact ⟨hcover, .cons hprev hadded.within, _, List.mem_cons_of_mem _ (List.mem_cons_self ..),
      hstart.le, hend⟩

theorem insertAfter_added {bound : Nat} {prev rg : VmRg} {l : List VmRg}
    (h : Within bound (prev :: rg :: l)) :
    Added bound rg (prev :: l) (insertAfter prev rg l) := by
  induction l generalizing prev with
  | nil => exact mergePrev_added (l := []) h
  | cons curr rest ih =>
      rw [insertAfter]
      split
      · obtain ⟨hcover, hwithin, r, hr, hle⟩ := ih (.cons h.tail.tail.head
          (.cons h.tail.head h.tail.tail.tail))
        refine ⟨fun x => ?_, .cons h.head hwithin, r, List.mem_cons_of_mem _ hr, hle⟩
        have := hcover x
        simp only [cover_cons] at this ⊢
        omega
      · exact mergePrev_added h

/-- `enlist_vm_rg_node` adds a region that is not empty. -/
theorem enlistVmRgNode_added {bound : Nat} {rg : VmRg} {l : List VmRg}
    (h : Within bound (rg :: l)) (hne : rg.rgStart < rg.rgEnd) :
    Added bound rg l (enlistVmRgNode l rg) := by
  rw [enlistVmRgNode.eq_def, if_neg (by omega)]
  cases l with
  | nil => exact ⟨fun _ => rfl, h, rg, List.mem_cons_self .., Nat.le_refl _, Nat.le_refl _⟩
  | cons curr rest =>
      dsimp only
      split
      · exact insertAfter_added (.cons h.tail.head (.cons h.head h.tail.tail))
      · exact (mergeNext_added h).1

/-- An empty region covers nothing and is not added. -/
theorem cover_enlistVmRgNode {bound : Nat} {rg : VmRg} {l : List VmRg}
    (h : Within bound (rg :: l)) (x : Nat) :
    cover (enlistVmRgNode l rg) x = cover (rg :: l) x := by
  rcases Nat.lt_or_ge rg.rgStart rg.rgEnd with hne | hempty
  · exact (enlistVmRgNode_added h hne).cover x
  · rw [enlistVmRgNode.eq_def, if_pos hempty, cover_cons,
      if_neg (by simp only [VmRg.covers_iff]; omega)]
    rfl

theorem within_enlistVmRgNode {bound : Nat} {rg : VmRg} {l : List VmRg}
    (h : Within bound (rg :: l)) : Within bound (enlistVmRgNode l rg) := by
  rcases Nat.lt_or_ge rg.rgStart rg.rgEnd with hne | hempty
  · exact (enlistVmRgNode_added h hne).within
  · rw [enlistVmRgNode.eq_def, if_pos hempty]
    exact h.tail

/-! ### Taking a region out -/

/-- `get_free_vmrg_area` takes as many bytes as it was asked for, and the
rest stays in the list. -/
theorem takeFree_spec {bound size : Nat} {l rest : List VmRg} {rg : VmRg} (h : Within bound l)
    (hbound : bound + size < 2 ^ 64) (htake : takeFree size l = some (rg, rest)) :
    rg.rgEnd = rg.rgStart + size ∧ rg.rgEnd ≤ bound ∧ Within bound rest ∧
      ∀ x, cover (rg :: rest) x = cover l x := by
  induction l generalizing rest with
  | nil => cases htake
  | cons r l ih =>
      have hr := h.head
      have hmod : (r.rgStart + size) % 2 ^ 64 = r.rgStart + size := Nat.mod_eq_of_lt (by omega)
      rw [takeFree, hmod] at htake
      split at htake
      · rename_i hfits
        simp only [Option.some.injEq, Prod.mk.injEq] at htake
        obtain ⟨rfl, hrest⟩ := htake
        refine ⟨rfl, by simp only; omega, ?_, fun x => ?_⟩
        · rw [← hrest]
          split
          · exact .cons ⟨by simp only; omega, hr.2⟩ h.tail
          · split
            · exact .cons ⟨Nat.le_refl _, hr.2⟩ fun rg hmem => by cases hmem
            · exact h.tail
        · have hsplit : cover (r :: l) x = _ :=
            cover_glue (a := ⟨r.rgStart, r.rgStart + size⟩) (b := ⟨r.rgStart + size, r.rgEnd⟩)
              (Nat.le_add_right _ _) hfits rfl l x
          rw [hsplit, cover_cons, cover_cons]
          congr 1
          rw [← hrest]
          split
          · rfl
          · rename_i hfull
            have hempty : (⟨r.rgStart + size, r.rgEnd⟩ : VmRg).covers x = false := by
              rw [Bool.eq_false_iff, ne_eq, VmRg.covers_iff]
              simp only
              omega
            split
            · rename_i hnil
              rw [hnil, cover_cons, cover_cons, hempty,
                if_neg (by simp only [VmRg.covers_iff]; omega)]
              rfl
            · rw [cover_cons, hempty]
              rfl
      · obtain ⟨⟨rg', rest'⟩, hrest', heq⟩ := Option.map_eq_some_iff.mp htake
        simp only [Prod.mk.injEq] at heq
        obtain ⟨rfl, rfl⟩ := heq
        obtain ⟨hsize, hend, hwithin, hcover⟩ := ih h.tail hrest'
        refine ⟨hsize, hend, .cons hr hwithin, fun x => ?_⟩
        have := hcover x
        simp only [cover_cons] at this ⊢
        omega

/-- A list with a large enough region is not searched in vain. -/
theorem takeFree_isSome {bound size : Nat} {l : List VmRg} (h : Within bound l)
    (hbound : bound + size < 2 ^ 64) (hfits : ∃ rg ∈ l, rg.rgStart + size ≤ rg.rgEnd) :
    (takeFree size l).isSome = true := by
  induction l with
  | nil =>
      obtain ⟨rg, hmem, -⟩ := hfits
      cases hmem
  | cons r l ih =>
      have hr := h.head
      rw [takeFree, Nat.mod_eq_of_lt (by omega)]
      split
      · rfl
      · rename_i hsmall
        rw [Option.isSome_map]
        refine ih h.tail ?_
        obtain ⟨rg, hmem, hle⟩ := hfits
        rcases List.mem_cons.mp hmem with rfl | hmem
        · exact absurd hle hsmall
        · exact ⟨rg, hmem, hle⟩

/-- The search for a size that is not negative as an `int`, in a list that
stays away from the end of the address space. -/
theorem getFreeVmrgArea_cases {s : Sys} {p : Pid} {bound size : Nat}
    (hfree : Within bound (s.mmap p).vmFreergList) (hbound : bound + 2 ^ 31 < 2 ^ 64)
    (hsize : 0 ≤ toInt size) :
    (takeFree (ofInt (toInt size)) (s.mmap p).vmFreergList = none ∧
      getFreeVmrgArea s p (toInt size) = (none, s)) ∨
    ∃ rg rest, takeFree (ofInt (toInt size)) (s.mmap p).vmFreergList = some (rg, rest) ∧
      getFreeVmrgArea s p (toInt size) =
        (some rg, s.setMmap p { s.mmap p with vmFreergList := rest }) := by
  have hint : ofInt (toInt size) < 2 ^ 31 := by
    simp only [toInt, ofInt] at hsize ⊢
    omega
  rw [getFreeVmrgArea]
  generalize ofInt (toInt size) = n at hint ⊢
  cases htake : takeFree n (s.mmap p).vmFreergList with
  | none => exact .inl ⟨rfl, rfl⟩
  | some r =>
      obtain ⟨rg, rest⟩ := r
      obtain ⟨hend, hle, -, -⟩ := takeFree_spec hfree (by omega) htake
      have hne : rg.rgStart ≠ errFail := by
        simp only [errFail]
        omega
      refine .inr ⟨rg, rest, rfl, ?_⟩
      simp only [if_neg hne]

/-! ### Disjointness -/

def VmRg.Disjoint (a b : VmRg) : Prop := a.rgEnd ≤ b.rgStart ∨ b.rgEnd ≤ a.rgStart

def VmRg.nonempty (rg : VmRg) : Bool := decide (rg.rgStart < rg.rgEnd)

/-- Where no byte is covered twice, the regions that are not empty are
pairwise disjoint. -/
theorem pairwise_disjoint {l : List VmRg} (h : ∀ x, cover l x ≤ 1) :
    (l.filter VmRg.nonempty).Pairwise VmRg.Disjoint := by
  induction l with
  | nil => exact .nil
  | cons rg l ih =>
      have hl : ∀ x, cover l x ≤ 1 := fun x => by
        have := h x
        rw [cover_cons] at this
        omega
      rw [List.filter_cons]
      split
      · rename_i hrg
        simp only [VmRg.nonempty, decide_eq_true_eq] at hrg
        refine .cons (fun rg' hmem => ?_) (ih hl)
        obtain ⟨hmem, hrg'⟩ := List.mem_filter.mp hmem
        simp only [VmRg.nonempty, decide_eq_true_eq] at hrg'
        -- otherwise the larger of the two starts is covered twice
        by_contra hover
        simp only [VmRg.Disjoint, not_or, Nat.not_le] at hover
        have htwice := h (max rg.rgStart rg'.rgStart)
        have hpos : 0 < cover l (max rg.rgStart rg'.rgStart) :=
          cover_pos.mpr ⟨rg', hmem, by simp only [VmRg.covers_iff]; omega⟩
        rw [cover_cons, if_pos (by simp only [VmRg.covers_iff]; omega)] at htwice
        omega
      · exact ih hl

end Ossim.Mem
