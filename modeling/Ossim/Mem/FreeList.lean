import Mathlib.Order.CompletePartialOrder
import Mathlib.Order.Interval.Set.Disjoint
import Ossim.Mem.Coalescing

/-!
The free list as a set of bytes.

A list of regions stands for the bytes it covers. `enlist_vm_rg_node` adds
the bytes of a region, and `get_free_vmrg_area` takes the bytes of a region
away. A list that is sorted and has a gap between any two of its regions is
the only such list for its bytes.
-/

namespace Ossim.Mem

/-! ### Bytes -/

/-- The bytes of a region. -/
def VmRg.bytes (rg : VmRg) : Set Nat := Set.Ico rg.rgStart rg.rgEnd

/-- The bytes that a list of regions covers. -/
def bytesOf (l : List VmRg) : Set Nat := {x | ∃ rg ∈ l, x ∈ rg.bytes}

theorem VmRg.mem_bytes {rg : VmRg} {x : Nat} : x ∈ rg.bytes ↔ rg.covers x = true :=
  VmRg.covers_iff.symm

theorem mem_bytesOf {l : List VmRg} {x : Nat} : x ∈ bytesOf l ↔ 0 < cover l x := by
  rw [cover_pos]
  exact exists_congr fun rg => and_congr_right fun _ => VmRg.mem_bytes

theorem bytesOf_cons (rg : VmRg) (l : List VmRg) : bytesOf (rg :: l) = rg.bytes ∪ bytesOf l := by
  ext x
  rw [Set.mem_union]
  exact List.exists_mem_cons_iff ..

theorem disjoint_bytesOf_iff {l : List VmRg} {X : Set Nat} :
    Disjoint (bytesOf l) X ↔ ∀ r ∈ l, Disjoint r.bytes X := by
  simp only [Set.disjoint_left]
  constructor
  · intro h r hr x hx
    exact h ⟨r, hr, hx⟩
  · rintro h x ⟨r, hr, hx⟩
    exact h r hr hx

theorem disjoint_bytes {a b : VmRg} (h : a.Disjoint b) : Disjoint a.bytes b.bytes := by
  rw [Set.disjoint_left]
  intro x hxa hxb
  rw [VmRg.mem_bytes, VmRg.covers_iff] at hxa hxb
  rw [VmRg.Disjoint] at h
  omega

/-- Regions that are not empty and have no byte in common lie one before the
other. -/
theorem disjoint_bytes_iff {a b : VmRg} (ha : a.rgStart < a.rgEnd) (hb : b.rgStart < b.rgEnd) :
    Disjoint a.bytes b.bytes ↔ a.Disjoint b := by
  constructor
  · intro h
    rw [Set.disjoint_left] at h
    -- otherwise the larger of the two starts is in both
    by_contra hover
    simp only [VmRg.Disjoint, not_or, Nat.not_le] at hover
    refine h (a := max a.rgStart b.rgStart) ?_ ?_
    all_goals
      rw [VmRg.mem_bytes, VmRg.covers_iff]
      omega
  · exact disjoint_bytes

/-! ### Insertion -/

/-- A sorted list of pairwise disjoint regions, none of them empty and no two
of them adjacent. -/
structure Canonical (l : List VmRg) : Prop where
  nonempty : ∀ rg ∈ l, rg.rgStart < rg.rgEnd
  sorted : l.Pairwise fun a b => a.rgStart ≤ b.rgStart
  disjoint : l.Pairwise fun a b => Disjoint a.bytes b.bytes
  apart : l.Pairwise fun a b => a.rgEnd ≠ b.rgStart ∧ b.rgEnd ≠ a.rgStart

namespace Canonical

variable {l : List VmRg} {rg : VmRg}

/-- Order, disjointness and gaps in one. -/
theorem iff_spaced : Canonical l ↔ (∀ rg ∈ l, rg.rgStart < rg.rgEnd) ∧ Spaced l := by
  constructor
  · intro h
    refine ⟨h.nonempty, ?_⟩
    have hall := (h.sorted.and h.disjoint).and h.apart
    refine hall.imp_of_mem fun ha hb hab hne => ?_
    obtain ⟨⟨hle, hdisj⟩, hne, -⟩ := hab
    have ha := h.nonempty _ ha
    have hb := h.nonempty _ hb
    rcases (disjoint_bytes_iff ha hb).mp hdisj with hlt | hlt
    · omega
    · omega
  · rintro ⟨hne, hspaced⟩
    have hlt : l.Pairwise fun a b =>
        a.rgStart < a.rgEnd ∧ a.rgEnd < b.rgStart ∧ b.rgStart < b.rgEnd :=
      hspaced.imp_of_mem fun ha hb hab =>
        ⟨hne _ ha, hab (nonempty_iff.mpr (hne _ hb)), hne _ hb⟩
    refine ⟨hne, hlt.imp fun h => ?_, hlt.imp fun h => ?_, hlt.imp fun h => ?_⟩
    · omega
    · rw [disjoint_bytes_iff h.1 h.2.2]
      exact .inl h.2.1.le
    · omega

theorem insertable (h : Canonical l) (hrg : rg.rgStart < rg.rgEnd)
    (hdisj : ∀ r ∈ l, Disjoint r.bytes rg.bytes) : Insertable l rg where
  nonempty := hrg
  forward r hr := (h.nonempty r hr).le
  disjoint r hr _ := (disjoint_bytes_iff (h.nonempty r hr) hrg).mp (hdisj r hr)

/-- Without empty nodes only the nodes on the two sides of the place can touch
the region. -/
theorem touchesNeighbours (h : Canonical l) (hins : Insertable l rg) : TouchesNeighbours l rg := by
  obtain ⟨hne, hspaced⟩ := iff_spaced.mp h
  have hsplit : Spaced (passed l rg ++ reached l rg) := by rwa [passed_append_reached]
  obtain ⟨hpre, hpost, -⟩ := List.pairwise_append.mp hsplit
  constructor
  · intro x hx _ heq
    rcases List.eq_nil_or_concat' (passed l rg) with hnil | ⟨pre, prev, hconcat⟩
    · rw [hnil] at hx
      cases hx
    · have hprev : prev ∈ passed l rg := hconcat ▸ List.mem_concat_self
      rw [hconcat, List.dropLast_concat] at hx
      rw [hconcat] at hpre
      have hgap := (List.pairwise_append.mp hpre).2.2 x hx prev (List.mem_singleton_self prev)
        (nonempty_iff.mpr (hne prev (List.takeWhile_subset _ hprev)))
      have hstart := start_lt_of_passed hprev
      omega
  · intro y hy _ heq
    cases hcurr : reached l rg with
    | nil =>
        rw [hcurr] at hy
        cases hy
    | cons curr post =>
        have hmem : curr ∈ reached l rg := hcurr ▸ List.mem_cons_self ..
        have hlt := hne curr (List.dropWhile_subset _ hmem)
        have hle := hins.start_ge_of_reached hspaced hmem (nonempty_iff.mpr hlt)
        rw [hcurr] at hy hpost
        have hymem : y ∈ reached l rg := hcurr ▸ List.mem_cons_of_mem curr hy
        have hgap := (List.pairwise_cons.mp hpost).1 y hy
          (nonempty_iff.mpr (hne y (List.dropWhile_subset _ hymem)))
        omega

/-- The bytes of the list start with those of its first region, and the byte
after it is not covered. -/
theorem head_bytes (h : Canonical (rg :: l)) :
    (∀ x ∈ bytesOf (rg :: l), rg.rgStart ≤ x) ∧ rg.rgEnd ∉ bytesOf (rg :: l) ∧
      bytesOf l = bytesOf (rg :: l) \ rg.bytes := by
  obtain ⟨hne, hspaced⟩ := iff_spaced.mp h
  obtain ⟨hrg, hl⟩ := List.forall_mem_cons.mp hne
  have hafter : ∀ x ∈ bytesOf l, rg.rgEnd < x := by
    rintro x ⟨y, hy, hx⟩
    have hgap := (List.pairwise_cons.mp hspaced).1 y hy (nonempty_iff.mpr (hl y hy))
    exact hgap.trans_le hx.1
  rw [bytesOf_cons]
  refine ⟨?_, ?_, ?_⟩
  · rintro x (hx | hx)
    · exact hx.1
    · have := hafter x hx
      omega
  · rintro (hx | hx)
    · exact lt_irrefl _ hx.2
    · exact lt_irrefl _ (hafter _ hx)
  · rw [Set.union_sdiff_left, eq_comm, sdiff_eq_left, Set.disjoint_left]
    intro x hx hx'
    exact lt_asymm (hafter x hx) hx'.2

theorem tail (h : Canonical (rg :: l)) : Canonical l where
  nonempty := (List.forall_mem_cons.mp h.nonempty).2
  sorted := h.sorted.tail
  disjoint := h.disjoint.tail
  apart := h.apart.tail

theorem mem_bytesOf_of_head (h : Canonical (rg :: l)) : rg.rgStart ∈ bytesOf (rg :: l) :=
  ⟨rg, List.mem_cons_self .., le_refl _, h.nonempty rg (List.mem_cons_self ..)⟩

/-- A set of bytes has one canonical list. -/
theorem eq_of_bytesOf_eq {l' : List VmRg} (h : Canonical l) (h' : Canonical l')
    (heq : bytesOf l = bytesOf l') : l = l' := by
  induction l generalizing l' with
  | nil =>
      cases l' with
      | nil => rfl
      | cons b l' =>
          obtain ⟨r, hr, -⟩ : b.rgStart ∈ bytesOf [] := heq ▸ h'.mem_bytesOf_of_head
          cases hr
  | cons a l ih =>
      cases l' with
      | nil =>
          obtain ⟨r, hr, -⟩ : a.rgStart ∈ bytesOf [] := heq ▸ h.mem_bytesOf_of_head
          cases hr
      | cons b l' =>
          obtain ⟨hfirst, hgap, htail⟩ := h.head_bytes
          obtain ⟨hfirst', hgap', htail'⟩ := h'.head_bytes
          have hstart : a.rgStart = b.rgStart :=
            le_antisymm (hfirst _ (heq ▸ h'.mem_bytesOf_of_head))
              (hfirst' _ (heq ▸ h.mem_bytesOf_of_head))
          have hlt := h.nonempty a (List.mem_cons_self ..)
          have hlt' := h'.nonempty b (List.mem_cons_self ..)
          -- the shorter of the two regions would end inside the other one
          have hend : a.rgEnd = b.rgEnd := by
            apply le_antisymm
            · by_contra hover
              rw [heq.symm] at hgap'
              exact hgap' ⟨a, List.mem_cons_self .., by omega, Nat.lt_of_not_le hover⟩
            · by_contra hover
              rw [heq] at hgap
              exact hgap ⟨b, List.mem_cons_self .., by omega, Nat.lt_of_not_le hover⟩
          obtain rfl : a = b := by
            obtain ⟨_, _⟩ := a
            obtain ⟨_, _⟩ := b
            exact congrArg₂ VmRg.mk hstart hend
          rw [ih h.tail h'.tail (by rw [htail, htail', heq])]

end Canonical

/-- No region of the new list is empty. -/
theorem nonempty_enlistVmRgNode {l : List VmRg} {rg : VmRg}
    (hl : ∀ r ∈ l, r.rgStart < r.rgEnd) (hrg : rg.rgStart < rg.rgEnd) :
    ∀ r ∈ enlistVmRgNode l rg, r.rgStart < r.rgEnd := by
  have hpassed : ∀ r ∈ passed l rg, r.rgStart < r.rgEnd :=
    fun r hr => hl r (List.takeWhile_subset _ hr)
  have hreached : ∀ r ∈ reached l rg, r.rgStart < r.rgEnd :=
    fun r hr => hl r (List.dropWhile_subset _ hr)
  have hstart := Insertable.start_mergeNext rg (reached l rg)
  have hend := Insertable.end_mergeNext rg fun r hr => (hreached r hr).le
  have hrest : ∀ r ∈ (mergeNext rg (reached l rg)).2, r.rgStart < r.rgEnd :=
    fun r hr => hreached r (Insertable.mem_mergeNext_snd hr)
  rw [enlistVmRgNode_eq hrg]
  generalize mergeNext rg (reached l rg) = m at hstart hend hrest
  have hmerged : m.1.rgStart < m.1.rgEnd := by omega
  rcases List.eq_nil_or_concat' (passed l rg) with hnil | ⟨pre, prev, hconcat⟩
  · rw [hnil]
    exact List.forall_mem_cons.mpr ⟨hmerged, hrest⟩
  · rw [hconcat, List.forall_mem_append, List.forall_mem_singleton] at hpassed
    obtain ⟨hpre, hprev⟩ := hpassed
    rw [hconcat, joinPrev_concat, List.forall_mem_append]
    refine ⟨hpre, ?_⟩
    split
    next heq =>
      refine List.forall_mem_cons.mpr ⟨?_, hrest⟩
      change prev.rgStart < m.1.rgEnd
      omega
    next => exact List.forall_mem_cons.mpr ⟨hprev, List.forall_mem_cons.mpr ⟨hmerged, hrest⟩⟩

theorem exists_within {l : List VmRg} (h : ∀ r ∈ l, r.rgStart ≤ r.rgEnd) :
    ∃ bound, Within bound l := by
  induction l with
  | nil => exact ⟨0, fun r hr => by cases hr⟩
  | cons rg l ih =>
      obtain ⟨hrg, hl⟩ := List.forall_mem_cons.mp h
      obtain ⟨bound, hbound⟩ := ih hl
      exact ⟨max rg.rgEnd bound,
        .cons ⟨hrg, le_max_left ..⟩ (hbound.mono (le_max_right ..))⟩

/-- `enlist_vm_rg_node` adds the bytes of the region. -/
theorem bytesOf_enlistVmRgNode {l : List VmRg} {rg : VmRg} (hl : ∀ r ∈ l, r.rgStart ≤ r.rgEnd)
    (hrg : rg.rgStart ≤ rg.rgEnd) : bytesOf (enlistVmRgNode l rg) = bytesOf l ∪ rg.bytes := by
  obtain ⟨bound, hbound⟩ := exists_within (List.forall_mem_cons.mpr ⟨hrg, hl⟩)
  rw [Set.union_comm, ← bytesOf_cons]
  ext x
  rw [mem_bytesOf, mem_bytesOf, cover_enlistVmRgNode hbound]

theorem Canonical.enlistVmRgNode {l : List VmRg} {rg : VmRg} (h : Canonical l)
    (hrg : rg.rgStart < rg.rgEnd) (hdisj : ∀ r ∈ l, Disjoint r.bytes rg.bytes) :
    Canonical (enlistVmRgNode l rg) := by
  obtain ⟨hne, hspaced⟩ := iff_spaced.mp h
  have hins := h.insertable hrg hdisj
  rw [iff_spaced]
  exact ⟨nonempty_enlistVmRgNode hne hrg,
    hins.spaced_enlistVmRgNode hspaced (h.touchesNeighbours hins)⟩

/-- Region insertion is a union that keeps the list sorted, disjoint and
without adjacent regions. -/
theorem enlistVmRgNode_canonical_union {l : List VmRg} {rg : VmRg} (hl : Canonical l)
    (hrg : rg.rgStart < rg.rgEnd) (hdisj : ∀ r ∈ l, Disjoint r.bytes rg.bytes) :
    Canonical (enlistVmRgNode l rg) ∧ bytesOf (enlistVmRgNode l rg) = bytesOf l ∪ rg.bytes :=
  ⟨hl.enlistVmRgNode hrg hdisj, bytesOf_enlistVmRgNode (fun r hr => (hl.nonempty r hr).le) hrg.le⟩

/-- The region between two others is merged with both. -/
theorem enlistVmRgNode_canonical_union_between :
    enlistVmRgNode [⟨0, 10⟩, ⟨20, 30⟩] ⟨10, 20⟩ = [⟨0, 30⟩] ∧ Canonical [⟨0, 30⟩] ∧
      bytesOf [⟨0, 30⟩] = bytesOf [⟨0, 10⟩, ⟨20, 30⟩] ∪ (⟨10, 20⟩ : VmRg).bytes := by
  have hl : Canonical [⟨0, 10⟩, ⟨20, 30⟩] := by
    rw [Canonical.iff_spaced]
    exact ⟨by decide, by unfold Spaced; decide⟩
  have hdisj : ∀ r ∈ ([⟨0, 10⟩, ⟨20, 30⟩] : List VmRg),
      Disjoint r.bytes (⟨10, 20⟩ : VmRg).bytes := by
    intro r hr
    rw [disjoint_bytes_iff (hl.nonempty r hr) (by decide)]
    unfold VmRg.Disjoint
    revert r
    decide
  exact ⟨by decide, enlistVmRgNode_canonical_union hl (by decide) hdisj⟩

/-- The order in which regions come back to the list does not matter. -/
theorem enlistVmRgNode_comm {l : List VmRg} {a b : VmRg} (hl : Canonical l)
    (ha : a.rgStart < a.rgEnd) (hb : b.rgStart < b.rgEnd) (hla : ∀ r ∈ l, Disjoint r.bytes a.bytes)
    (hlb : ∀ r ∈ l, Disjoint r.bytes b.bytes) (hab : Disjoint a.bytes b.bytes) :
    enlistVmRgNode (enlistVmRgNode l a) b = enlistVmRgNode (enlistVmRgNode l b) a := by
  have hforward : ∀ r ∈ l, r.rgStart ≤ r.rgEnd := fun r hr => (hl.nonempty r hr).le
  have hca := hl.enlistVmRgNode ha hla
  have hcb := hl.enlistVmRgNode hb hlb
  have hba := bytesOf_enlistVmRgNode hforward ha.le
  have hbb := bytesOf_enlistVmRgNode hforward hb.le
  have hafter : ∀ r ∈ enlistVmRgNode l a, Disjoint r.bytes b.bytes := by
    rw [← disjoint_bytesOf_iff, hba, Set.disjoint_union_left]
    exact ⟨disjoint_bytesOf_iff.mpr hlb, hab⟩
  have hafter' : ∀ r ∈ enlistVmRgNode l b, Disjoint r.bytes a.bytes := by
    rw [← disjoint_bytesOf_iff, hbb, Set.disjoint_union_left]
    exact ⟨disjoint_bytesOf_iff.mpr hla, hab.symm⟩
  apply (hca.enlistVmRgNode hb hafter).eq_of_bytesOf_eq (hcb.enlistVmRgNode ha hafter')
  rw [bytesOf_enlistVmRgNode (fun r hr => (hca.nonempty r hr).le) hb.le, hba,
    bytesOf_enlistVmRgNode (fun r hr => (hcb.nonempty r hr).le) ha.le, hbb, Set.union_right_comm]

/-! ### Extraction -/

/-- Where regions have no byte in common, no byte is covered twice. -/
theorem cover_le_one {l : List VmRg} (h : l.Pairwise fun a b => Disjoint a.bytes b.bytes)
    (x : Nat) : cover l x ≤ 1 := by
  induction l with
  | nil => exact Nat.zero_le 1
  | cons rg l ih =>
      obtain ⟨hrg, hl⟩ := List.pairwise_cons.mp h
      rw [cover_cons]
      split
      next hx =>
        have hnone : x ∉ bytesOf l := by
          rintro ⟨r, hr, hxr⟩
          exact Set.disjoint_left.mp (hrg r hr) (VmRg.mem_bytes.mpr hx) hxr
        rw [mem_bytesOf] at hnone
        omega
      next => exact ih hl

/-- The first region of the list that is large enough loses its first `size`
bytes, which are `rg`, and no other node changes. A node that is used up
stays only if it is the last one. -/
def FirstFit (size : Nat) (l : List VmRg) (rg : VmRg) (l' : List VmRg) : Prop :=
  ∃ pre node post, l = pre ++ node :: post ∧ (∀ r ∈ pre, r.rgEnd - r.rgStart < size) ∧
    size ≤ node.rgEnd - node.rgStart ∧ rg = ⟨node.rgStart, node.rgStart + size⟩ ∧
    (l' = pre ++ ⟨node.rgStart + size, node.rgEnd⟩ :: post ∨
      node.rgStart + size = node.rgEnd ∧ post ≠ [] ∧ l' = pre ++ post)

theorem takeFree_none_iff_of_within {bound size : Nat} {l : List VmRg} (h : Within bound l)
    (hbound : bound + size < 2 ^ 64) :
    takeFree size l = none ↔ ∀ rg ∈ l, rg.rgEnd - rg.rgStart < size := by
  rw [takeFree_eq_none_iff]
  refine forall₂_congr fun rg hrg => ?_
  have hle := h rg hrg
  rw [Nat.mod_eq_of_lt (by omega)]
  omega

theorem takeFree_firstFit_of_within {bound size : Nat} {l l' : List VmRg} {rg : VmRg}
    (h : Within bound l) (hbound : bound + size < 2 ^ 64)
    (htake : takeFree size l = some (rg, l')) : FirstFit size l rg l' := by
  obtain ⟨pre, node, post, rfl, hnone, hfits, rfl, rfl⟩ := takeFree_split htake
  have hnode := h node (List.mem_append_right _ (List.mem_cons_self ..))
  have hpre : Within bound pre := fun r hr => h r (List.mem_append_left _ hr)
  rw [Nat.mod_eq_of_lt (by omega)] at hfits ⊢
  refine ⟨pre, node, post, rfl, (takeFree_none_iff_of_within hpre hbound).mp hnone, by omega,
    rfl, ?_⟩
  rw [leftOver]
  split
  next => exact .inl rfl
  next hfull =>
    have hexact : node.rgStart + size = node.rgEnd := by omega
    split
    next hnil =>
      rw [hnil, hexact]
      exact .inl rfl
    next hpost => exact .inr ⟨hexact, hpost, rfl⟩

/-- The bytes of the region that is taken leave the list. -/
theorem bytesOf_takeFree {bound size : Nat} {l l' : List VmRg} {rg : VmRg} (h : Within bound l)
    (hbound : bound + size < 2 ^ 64) (hdisj : l.Pairwise fun a b => Disjoint a.bytes b.bytes)
    (htake : takeFree size l = some (rg, l')) : bytesOf l' = bytesOf l \ rg.bytes := by
  obtain ⟨-, -, -, hcover⟩ := takeFree_spec h hbound htake
  ext x
  have hone := cover_le_one hdisj x
  have hx := hcover x
  rw [cover_cons] at hx
  rw [Set.mem_sdiff, mem_bytesOf, mem_bytesOf, VmRg.mem_bytes]
  by_cases hrg : rg.covers x = true
  · rw [if_pos hrg] at hx
    exact ⟨fun hpos => by omega, fun hpos => absurd hrg hpos.2⟩
  · rw [if_neg hrg] at hx
    exact ⟨fun hpos => ⟨by omega, hrg⟩, fun hpos => by omega⟩

/-- What `get_free_vmrg_area` does to the free list of a process. -/
structure ExtractsFirstFit (s : Sys) (p : Pid) (size : Nat) : Prop where
  fails : (getFreeVmrgArea s p size).1 = none ↔
    ∀ rg ∈ (s.mmap p).vmFreergList, rg.rgEnd - rg.rgStart < size
  unchanged : (getFreeVmrgArea s p size).1 = none → (getFreeVmrgArea s p size).2 = s
  takes : ∀ rg t, getFreeVmrgArea s p size = (some rg, t) → ∃ l',
    t = s.setMmap p { s.mmap p with vmFreergList := l' } ∧
    FirstFit size (s.mmap p).vmFreergList rg l' ∧
    bytesOf l' = bytesOf (s.mmap p).vmFreergList \ rg.bytes

/-- First fit removes exactly the bytes it returns. -/
theorem getFreeVmrgArea_extracts_firstFit {s : Sys} {p : Pid} {size : Nat}
    (hfree : ∀ rg ∈ (s.mmap p).vmFreergList, rg.rgStart ≤ rg.rgEnd ∧ rg.rgEnd ≤ 2 ^ 56)
    (hdisj : (s.mmap p).vmFreergList.Pairwise fun a b => Disjoint a.bytes b.bytes)
    (hsize : size < 2 ^ 31) : ExtractsFirstFit s p size := by
  have hbound : 2 ^ 56 + size < 2 ^ 64 := by omega
  have hnone := takeFree_none_iff_of_within hfree hbound
  have hword : ofInt (toInt size) = size := by
    rw [toInt_eq_self hsize, ofInt_natCast (by omega)]
  have hint : 0 ≤ toInt size := by
    rw [toInt_eq_self hsize]
    omega
  have hcases := getFreeVmrgArea_cases hfree (by decide) hint
  rw [hword, toInt_eq_self hsize] at hcases
  obtain ⟨htake, hget⟩ | ⟨rg, l', htake, hget⟩ := hcases
  · exact
    { fails := by
        rw [hget, ← hnone, htake]
        exact iff_of_true rfl rfl
      unchanged := fun _ => by rw [hget]
      takes := fun rg t h => by
        rw [hget] at h
        cases h }
  · exact
    { fails := by
        rw [hget, ← hnone, htake]
        exact iff_of_false (Option.some_ne_none _) (Option.some_ne_none _)
      unchanged := fun h => by
        rw [hget] at h
        cases h
      takes := fun rg' t h => by
        rw [hget] at h
        cases h
        exact ⟨l', rfl, takeFree_firstFit_of_within hfree hbound htake,
          bytesOf_takeFree hfree hbound hdisj htake⟩ }

/-- A free list with an empty node in front, and a region in the middle that
is just large enough. -/
def exactFit : Sys :=
  (boot 0 0 fun _ => true).setMmap 1 ⟨0, 300, 300, [⟨50, 50⟩, ⟨100, 150⟩, ⟨200, 300⟩]⟩

theorem getFreeVmrgArea_extracts_firstFit_exactFit :
    ExtractsFirstFit exactFit 1 50 ∧ (getFreeVmrgArea exactFit 1 50).1 = some ⟨100, 150⟩ ∧
      ((getFreeVmrgArea exactFit 1 50).2.mmap 1).vmFreergList = [⟨50, 50⟩, ⟨200, 300⟩] := by
  refine ⟨getFreeVmrgArea_extracts_firstFit ?_ ?_ (by decide), by decide, by decide⟩
  · decide
  · have hall : ((exactFit.mmap 1).vmFreergList).Pairwise VmRg.Disjoint := by
      unfold VmRg.Disjoint
      decide
    exact hall.imp disjoint_bytes

end Ossim.Mem
