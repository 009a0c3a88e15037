import Mathlib.Data.List.TakeWhile
import Ossim.Mem.Regions

/-!
Order and gaps of the free list.

`enlist_vm_rg_node` merges a region with the nodes on both sides of its
place. `get_free_vmrg_area` leaves an empty node behind when it uses up the
last one, and an empty node on the one side of the place hides the region
behind it. Without that the nodes that are not empty are sorted, with a gap
between any two of them, and first fit finds every free range.
-/

namespace Ossim.Mem

open Ossim.Lib

/-! ### The walk of `enlist_vm_rg_node` -/

/-- The nodes that start before a region. -/
def passed (l : List VmRg) (rg : VmRg) : List VmRg :=
  l.takeWhile fun curr => decide (curr.rgStart < rg.rgStart)

/-- The nodes from the place of a region on. -/
def reached (l : List VmRg) (rg : VmRg) : List VmRg :=
  l.dropWhile fun curr => decide (curr.rgStart < rg.rgStart)

theorem passed_append_reached (l : List VmRg) (rg : VmRg) : passed l rg ++ reached l rg = l :=
  List.takeWhile_append_dropWhile

theorem start_lt_of_passed {l : List VmRg} {rg x : VmRg} (h : x ∈ passed l rg) :
    x.rgStart < rg.rgStart := by
  have hlt := List.mem_takeWhile_imp
    (p := fun curr : VmRg => decide (curr.rgStart < rg.rgStart)) (show x ∈ l.takeWhile _ from h)
  exact of_decide_eq_true hlt

theorem start_ge_of_reached {l post : List VmRg} {rg curr : VmRg}
    (h : reached l rg = curr :: post) : rg.rgStart ≤ curr.rgStart := by
  have := List.head?_dropWhile_not (fun curr => decide (curr.rgStart < rg.rgStart)) l
  rw [show l.dropWhile _ = _ from h] at this
  simpa using this

/-- The nodes before the place, the last of them merged with the first of
the others if they touch. -/
def joinPrev : List VmRg → VmRg × List VmRg → List VmRg
  | [], r => r.1 :: r.2
  | [prev], r =>
    if prev.rgEnd = r.1.rgStart then ⟨prev.rgStart, r.1.rgEnd⟩ :: r.2 else prev :: r.1 :: r.2
  | x :: y :: pre, r => x :: joinPrev (y :: pre) r

theorem joinPrev_concat (pre : List VmRg) (prev : VmRg) (r : VmRg × List VmRg) :
    joinPrev (pre ++ [prev]) r =
      pre ++ if prev.rgEnd = r.1.rgStart then ⟨prev.rgStart, r.1.rgEnd⟩ :: r.2
        else prev :: r.1 :: r.2 := by
  induction pre with
  | nil => rfl
  | cons x pre ih =>
      cases pre with
      | nil => rfl
      | cons y pre =>
          rw [List.cons_append, List.cons_append, joinPrev, ← List.cons_append, ih]
          rfl

theorem insertAfter_eq (prev rg : VmRg) (l : List VmRg) :
    insertAfter prev rg l = joinPrev (prev :: passed l rg) (mergeNext rg (reached l rg)) := by
  induction l generalizing prev with
  | nil => rfl
  | cons curr rest ih =>
      rw [insertAfter, passed, reached]
      by_cases hlt : curr.rgStart < rg.rgStart
      · rw [if_pos hlt, ih, List.takeWhile_cons_of_pos (by simpa using hlt),
          List.dropWhile_cons_of_pos (by simpa using hlt)]
        rfl
      · rw [if_neg hlt, List.takeWhile_cons_of_neg (by simpa using hlt),
          List.dropWhile_cons_of_neg (by simpa using hlt)]
        rfl

theorem enlistVmRgNode_eq {l : List VmRg} {rg : VmRg} (h : rg.rgStart < rg.rgEnd) :
    enlistVmRgNode l rg = joinPrev (passed l rg) (mergeNext rg (reached l rg)) := by
  rw [enlistVmRgNode.eq_def, if_neg (by omega)]
  cases l with
  | nil => rfl
  | cons curr rest =>
      dsimp only
      rw [passed, reached]
      by_cases hlt : curr.rgStart < rg.rgStart
      · rw [if_pos hlt, insertAfter_eq, List.takeWhile_cons_of_pos (by simpa using hlt),
          List.dropWhile_cons_of_pos (by simpa using hlt)]
        rfl
      · rw [if_neg hlt, List.takeWhile_cons_of_neg (by simpa using hlt),
          List.dropWhile_cons_of_neg (by simpa using hlt)]
        rfl

/-! ### Order and gaps -/

/-- A node that is not empty starts after the end of every node before it. -/
def Spaced (l : List VmRg) : Prop :=
  l.Pairwise fun x y => y.nonempty = true → x.rgEnd < y.rgStart

/-- The regions that touch `rg` are the nodes on the two sides of its place. -/
def TouchesNeighbours (l : List VmRg) (rg : VmRg) : Prop :=
  (∀ x ∈ (passed l rg).dropLast, x.nonempty = true → x.rgEnd ≠ rg.rgStart) ∧
    ∀ y ∈ (reached l rg).tail, y.nonempty = true → y.rgStart ≠ rg.rgEnd

instance (l : List VmRg) (rg : VmRg) : Decidable (TouchesNeighbours l rg) :=
  inferInstanceAs (Decidable (_ ∧ _))

theorem Spaced.nil : Spaced [] := List.Pairwise.nil

theorem nonempty_iff {rg : VmRg} : rg.nonempty = true ↔ rg.rgStart < rg.rgEnd := by
  simp [VmRg.nonempty]

/-- What `FREE` and a growth know of a region that they put into the list. -/
structure Insertable (l : List VmRg) (rg : VmRg) : Prop where
  nonempty : rg.rgStart < rg.rgEnd
  forward : ∀ x ∈ l, x.rgStart ≤ x.rgEnd
  disjoint : ∀ x ∈ l, x.nonempty = true → x.Disjoint rg

namespace Insertable

variable {l : List VmRg} {rg : VmRg}

/-- A node before the place ends before the region or touches it. -/
theorem end_le_of_passed (h : Insertable l rg) {x : VmRg} (hx : x ∈ passed l rg) :
    x.rgEnd ≤ rg.rgStart ∧ (x.rgEnd = rg.rgStart → x.nonempty = true) := by
  have hmem : x ∈ l := List.takeWhile_subset _ hx
  have hstart := start_lt_of_passed hx
  have hne := h.nonempty
  rw [nonempty_iff]
  refine ⟨?_, fun heq => by omega⟩
  by_cases hempty : x.nonempty = true
  · rcases h.disjoint x hmem hempty with hle | hle
    · exact hle
    · omega
  · rw [nonempty_iff] at hempty
    omega

/-- A region from the place on starts after the end of the new one or
touches it. -/
theorem start_ge_of_reached (h : Insertable l rg) (hspaced : Spaced l) {y : VmRg}
    (hy : y ∈ reached l rg) (hne : y.nonempty = true) : rg.rgEnd ≤ y.rgStart := by
  have hmem : y ∈ l := List.dropWhile_subset _ hy
  have hstart : rg.rgStart ≤ y.rgStart := by
    cases hpost : reached l rg with
    | nil =>
        rw [hpost] at hy
        cases hy
    | cons curr post =>
        have hcurr := Mem.start_ge_of_reached hpost
        have hsub : Spaced (curr :: post) := hpost ▸ hspaced.sublist (List.dropWhile_sublist _)
        rw [hpost] at hy
        rcases List.mem_cons.mp hy with rfl | hy
        · exact hcurr
        · have hle := h.forward curr (List.dropWhile_subset _ (hpost ▸ List.mem_cons_self ..))
          have := (List.pairwise_cons.mp hsub).1 y hy hne
          omega
  have hpos := h.nonempty
  rcases h.disjoint y hmem hne with hle | hle
  · rw [nonempty_iff] at hne
    omega
  · exact hle

/-- The region merged with the nodes after its place. -/
theorem spaced_mergeNext (h : Insertable l rg) (hspaced : Spaced l)
    (htouch : ∀ y ∈ (reached l rg).tail, y.nonempty = true → y.rgStart ≠ rg.rgEnd) :
    Spaced ((mergeNext rg (reached l rg)).1 :: (mergeNext rg (reached l rg)).2) := by
  have hsub : Spaced (reached l rg) := hspaced.sublist (List.dropWhile_sublist _)
  cases hpost : reached l rg with
  | nil => exact List.pairwise_singleton ..
  | cons curr post =>
      rw [hpost] at hsub htouch
      obtain ⟨hcurr, hrest⟩ := List.pairwise_cons.mp hsub
      rw [mergeNext]
      split
      next heq => exact List.pairwise_cons.mpr ⟨hcurr, hrest⟩
      next hne =>
        refine List.pairwise_cons.mpr ⟨fun y hy hy' => ?_, hsub⟩
        have hle := h.start_ge_of_reached hspaced (hpost ▸ hy) hy'
        change rg.rgEnd < y.rgStart
        rcases List.mem_cons.mp hy with rfl | hmem
        · omega
        · have := htouch y hmem hy'
          omega

theorem mem_mergeNext_snd {y : VmRg} {post : List VmRg} (h : y ∈ (mergeNext rg post).2) :
    y ∈ post := by
  cases post with
  | nil => exact h
  | cons curr rest =>
      rw [mergeNext] at h
      split at h
      · exact List.mem_cons_of_mem _ h
      · exact h

theorem start_mergeNext (rg : VmRg) (post : List VmRg) :
    (mergeNext rg post).1.rgStart = rg.rgStart := by
  cases post with
  | nil => rfl
  | cons curr rest =>
      rw [mergeNext]
      split <;> rfl

theorem end_mergeNext (rg : VmRg) {post : List VmRg} (h : ∀ y ∈ post, y.rgStart ≤ y.rgEnd) :
    rg.rgEnd ≤ (mergeNext rg post).1.rgEnd := by
  cases post with
  | nil => exact Nat.le_refl _
  | cons curr rest =>
      rw [mergeNext]
      split
      next heq =>
        rw [heq]
        exact h curr (List.mem_cons_self ..)
      next => exact Nat.le_refl _

/-- Putting in a region that touches only its neighbours keeps order and
gaps. -/
theorem spaced_enlistVmRgNode (h : Insertable l rg) (hspaced : Spaced l)
    (htouch : TouchesNeighbours l rg) : Spaced (enlistVmRgNode l rg) := by
  obtain ⟨hbefore, hafter⟩ := htouch
  have hnext := h.spaced_mergeNext hspaced hafter
  have hstart := start_mergeNext rg (reached l rg)
  have hlast : ∀ y ∈ (mergeNext rg (reached l rg)).2, y ∈ reached l rg :=
    fun y => mem_mergeNext_snd
  rw [enlistVmRgNode_eq h.nonempty]
  generalize mergeNext rg (reached l rg) = r at hnext hstart hlast ⊢
  obtain ⟨hr, hr'⟩ := List.pairwise_cons.mp hnext
  have hsplit : Spaced (passed l rg ++ reached l rg) := by rwa [passed_append_reached]
  obtain ⟨hpre, -, hcross⟩ := List.pairwise_append.mp hsplit
  rcases List.eq_nil_or_concat' (passed l rg) with hnil | ⟨pre, prev, hconcat⟩
  · rw [hnil]
    exact hnext
  · rw [hconcat, List.dropLast_concat] at hbefore
    have hprev : prev ∈ passed l rg := hconcat ▸ List.mem_concat_self
    rw [hconcat] at hpre
    obtain ⟨hpre, -, hto⟩ := List.pairwise_append.mp hpre
    have hthrough : ∀ x ∈ passed l rg, ∀ y ∈ r.2, y.nonempty = true → x.rgEnd < y.rgStart :=
      fun x hx y hy => hcross x hx y (hlast y hy)
    obtain ⟨hle, htouched⟩ := h.end_le_of_passed hprev
    rw [hconcat, joinPrev_concat]
    split
    next heq =>
      refine List.pairwise_append.mpr ⟨hpre, List.pairwise_cons.mpr ⟨hr, hr'⟩, fun x hx y hy => ?_⟩
      have hx' : x ∈ passed l rg := hconcat ▸ List.mem_append_left [prev] hx
      rcases List.mem_cons.mp hy with rfl | hy
      · intro _
        exact hto x hx prev (List.mem_singleton_self prev) (htouched (heq.trans hstart))
      · exact hthrough x hx' y hy
    next hne =>
      rw [hstart] at hne
      refine List.pairwise_append.mpr
        ⟨hpre, List.pairwise_cons.mpr ⟨?_, hnext⟩, fun x hx y hy => ?_⟩
      · intro y hy
        rcases List.mem_cons.mp hy with rfl | hy
        · intro _
          omega
        · exact hthrough prev hprev y hy
      · have hx' : x ∈ passed l rg := hconcat ▸ List.mem_append_left [prev] hx
        rcases List.mem_cons.mp hy with rfl | hy
        · exact hto x hx _ (List.mem_singleton_self _)
        · rcases List.mem_cons.mp hy with rfl | hy
          · intro _
            obtain ⟨hxle, hxtouched⟩ := h.end_le_of_passed hx'
            have hxne : x.rgEnd ≠ rg.rgStart := fun heq => hbefore x hx (hxtouched heq) heq
            omega
          · exact hthrough x hx' y hy

/-- A region that touches another one than its neighbours stays apart from
it. -/
theorem touches_enlistVmRgNode (h : Insertable l rg) (hspaced : Spaced l)
    (htouch : ¬TouchesNeighbours l rg) :
    ∃ a ∈ enlistVmRgNode l rg, ∃ b ∈ enlistVmRgNode l rg,
      a.nonempty = true ∧ b.nonempty = true ∧ a.rgEnd = b.rgStart := by
  have hne := h.nonempty
  have hsplit : Spaced (passed l rg ++ reached l rg) := by rwa [passed_append_reached]
  obtain ⟨hpre, hpost, -⟩ := List.pairwise_append.mp hsplit
  rw [enlistVmRgNode_eq h.nonempty]
  rcases Decidable.not_and_iff_not_or_not.mp htouch with hbefore | hafter
  · -- a node before the neighbour touches the region
    push Not at hbefore
    obtain ⟨x, hx, hx', htouch⟩ := hbefore
    have hstart := start_mergeNext rg (reached l rg)
    have hend : rg.rgEnd ≤ (mergeNext rg (reached l rg)).1.rgEnd :=
      end_mergeNext rg fun y hy => h.forward y (List.dropWhile_subset _ hy)
    rcases List.eq_nil_or_concat' (passed l rg) with hnil | ⟨pre, prev, hconcat⟩
    · rw [hnil] at hx
      cases hx
    · rw [hconcat, List.dropLast_concat] at hx
      have hprev := h.end_le_of_passed (hconcat ▸ List.mem_concat_self : prev ∈ passed l rg)
      rw [hconcat] at hpre
      have hto := (List.pairwise_append.mp hpre).2.2 x hx prev (List.mem_singleton_self prev)
      rw [hconcat, joinPrev_concat, if_neg]
      · exact ⟨x, List.mem_append_left _ hx, _, List.mem_append_right _
          (List.mem_cons_of_mem _ (List.mem_cons_self ..)), hx', nonempty_iff.mpr (by omega),
          htouch.trans hstart.symm⟩
      · intro heq
        have hprev' := hprev.2 (heq.trans hstart)
        have := hto hprev'
        rw [nonempty_iff] at hprev'
        omega
  · push Not at hafter
    obtain ⟨y, hy, hy', htouch⟩ := hafter
    cases hcurr : reached l rg with
    | nil =>
        rw [hcurr] at hy
        cases hy
    | cons curr post =>
        rw [hcurr] at hy hpost
        have hforward := h.forward curr (List.dropWhile_subset _ (hcurr ▸ List.mem_cons_self ..))
        have hlt := (List.pairwise_cons.mp hpost).1 y hy hy'
        rw [mergeNext, if_neg (by omega)]
        rcases List.eq_nil_or_concat' (passed l rg) with hnil | ⟨pre, prev, hconcat⟩
        · rw [hnil]
          exact ⟨rg, List.mem_cons_self .., y, List.mem_cons_of_mem _ (List.mem_cons_of_mem _ hy),
            nonempty_iff.mpr hne, hy', htouch.symm⟩
        · have hprev : prev.rgStart < rg.rgStart :=
            start_lt_of_passed (l := l) (hconcat ▸ List.mem_concat_self)
          rw [hconcat, joinPrev_concat]
          split
          · exact ⟨_, List.mem_append_right _ (List.mem_cons_self ..), y,
              List.mem_append_right _ (List.mem_cons_of_mem _ (List.mem_cons_of_mem _ hy)),
              nonempty_iff.mpr (by simp only; omega), hy', htouch.symm⟩
          · exact ⟨rg, List.mem_append_right _ (List.mem_cons_of_mem _ (List.mem_cons_self ..)), y,
              List.mem_append_right _ (List.mem_cons_of_mem _ (List.mem_cons_of_mem _
                (List.mem_cons_of_mem _ hy))), nonempty_iff.mpr hne, hy', htouch.symm⟩

end Insertable

/-! ### Taking a region out -/

theorem takeFree_eq_none_iff {size : Nat} {l : List VmRg} :
    takeFree size l = none ↔ ∀ rg ∈ l, rg.rgEnd < (rg.rgStart + size) % 2 ^ 64 := by
  induction l with
  | nil => simp [takeFree]
  | cons rg l ih =>
      rw [takeFree, List.forall_mem_cons, ← ih]
      by_cases hfits : (rg.rgStart + size) % 2 ^ 64 ≤ rg.rgEnd
      · rw [if_pos hfits]
        exact ⟨fun hnone => (by cases hnone), fun h => absurd h.1 (Nat.not_lt.mpr hfits)⟩
      · rw [if_neg hfits, Option.map_eq_none_iff]
        exact ⟨fun h => ⟨Nat.lt_of_not_le hfits, h⟩, fun h => h.2⟩

theorem takeFree_append {size : Nat} {l l' : List VmRg} (h : takeFree size l = none) :
    takeFree size (l ++ l') = (takeFree size l').map fun r => (r.1, l ++ r.2) := by
  induction l with
  | nil => simp
  | cons rg l ih =>
      rw [takeFree_eq_none_iff, List.forall_mem_cons, ← takeFree_eq_none_iff] at h
      rw [List.cons_append, takeFree, if_neg (Nat.not_le.mpr h.1), ih h.2, Option.map_map]
      rfl

/-- What is left of a node of the list, and what is after it. -/
def leftOver (rg : VmRg) (stop : Nat) (rest : List VmRg) : List VmRg :=
  if stop < rg.rgEnd then ⟨stop, rg.rgEnd⟩ :: rest
  else if rest = [] then [⟨rg.rgEnd, rg.rgEnd⟩]
  else rest

theorem takeFree_cons {size : Nat} {rg : VmRg} {rest : List VmRg}
    (hfits : rg.rgStart + size ≤ rg.rgEnd) (hend : rg.rgEnd < 2 ^ 64) :
    takeFree size (rg :: rest) =
      some (⟨rg.rgStart, rg.rgStart + size⟩, leftOver rg (rg.rgStart + size) rest) := by
  rw [takeFree, Nat.mod_eq_of_lt (by omega), if_pos hfits]
  rfl

/-- The nodes of the list that are left start where a node started, or later. -/
theorem mem_leftOver {rg y : VmRg} {stop : Nat} {rest : List VmRg}
    (hy : y ∈ leftOver rg stop rest) (hne : y.nonempty = true) :
    y = ⟨stop, rg.rgEnd⟩ ∧ stop < rg.rgEnd ∨ y ∈ rest := by
  rw [leftOver] at hy
  split at hy
  next hlt =>
    rcases List.mem_cons.mp hy with rfl | hy
    · exact .inl ⟨rfl, hlt⟩
    · exact .inr hy
  next =>
    split at hy
    · rw [List.mem_singleton.mp hy, nonempty_iff] at hne
      exact absurd hne (Nat.lt_irrefl _)
    · exact .inr hy

theorem spaced_leftOver {rg : VmRg} {stop : Nat} {rest : List VmRg} (h : Spaced (rg :: rest)) :
    Spaced (leftOver rg stop rest) := by
  obtain ⟨hrg, hrest⟩ := List.pairwise_cons.mp h
  rw [leftOver]
  split
  · exact List.pairwise_cons.mpr ⟨hrg, hrest⟩
  · split
    · exact List.pairwise_singleton ..
    · exact hrest

/-- The search stops at the first node that is large enough. -/
theorem takeFree_split {size : Nat} {l rest : List VmRg} {rg : VmRg}
    (h : takeFree size l = some (rg, rest)) :
    ∃ pre node post, l = pre ++ node :: post ∧ takeFree size pre = none ∧
      (node.rgStart + size) % 2 ^ 64 ≤ node.rgEnd ∧
      rg = ⟨node.rgStart, (node.rgStart + size) % 2 ^ 64⟩ ∧
      rest = pre ++ leftOver node ((node.rgStart + size) % 2 ^ 64) post := by
  induction l generalizing rest with
  | nil => cases h
  | cons r l ih =>
      rw [takeFree] at h
      split at h
      next hfits =>
        cases h
        exact ⟨[], r, l, rfl, rfl, hfits, rfl, rfl⟩
      next hsmall =>
        obtain ⟨⟨rg', rest'⟩, hrest', heq⟩ := Option.map_eq_some_iff.mp h
        cases heq
        obtain ⟨pre, node, post, rfl, hnone, hfits, rfl, rfl⟩ := ih hrest'
        refine ⟨r :: pre, node, post, rfl, ?_, hfits, rfl, rfl⟩
        rw [takeFree, if_neg hsmall, hnone]
        rfl

/-- What is left of a node, behind nodes that end before it. -/
theorem spaced_append_leftOver {pre post : List VmRg} {node : VmRg} {stop : Nat}
    (hpre : Spaced pre) (hpost : Spaced (node :: post))
    (hstop : ∀ x ∈ pre, stop < node.rgEnd → x.rgEnd < stop)
    (hcross : ∀ x ∈ pre, ∀ y ∈ post, y.nonempty = true → x.rgEnd < y.rgStart) :
    Spaced (pre ++ leftOver node stop post) := by
  refine List.pairwise_append.mpr ⟨hpre, spaced_leftOver hpost, fun x hx y hy hne => ?_⟩
  rcases mem_leftOver hy hne with ⟨rfl, hlt⟩ | hy
  · exact hstop x hx hlt
  · exact hcross x hx y hy hne

/-- Taking a region out keeps order and gaps. -/
theorem Spaced.take {bound size : Nat} {l rest : List VmRg} {rg : VmRg} (h : Spaced l)
    (hl : Within bound l) (hbound : bound + size < 2 ^ 64)
    (htake : takeFree size l = some (rg, rest)) : Spaced rest := by
  obtain ⟨pre, node, post, rfl, -, -, -, rfl⟩ := takeFree_split htake
  obtain ⟨hpre, hpost, hcross⟩ := List.pairwise_append.mp h
  have hnode := hl node (List.mem_append_right _ (List.mem_cons_self ..))
  rw [Nat.mod_eq_of_lt (by omega)]
  refine spaced_append_leftOver hpre hpost (fun x hx hlt => ?_)
    fun x hx y hy => hcross x hx y (List.mem_cons_of_mem _ hy)
  have := hcross x hx node (List.mem_cons_self ..) (nonempty_iff.mpr (by omega))
  omega

/-! ### A growth and the search after it -/

/-- The nodes that start at or above the break are empty. -/
theorem not_nonempty_of_reached {b stop : Nat} {l : List VmRg} (h : Spaced l) (hl : Within b l)
    {y : VmRg} (hy : y ∈ reached l ⟨b, stop⟩) : y.nonempty ≠ true := by
  intro hne
  have hend := (hl y (List.dropWhile_subset _ hy)).2
  cases hpost : reached l ⟨b, stop⟩ with
  | nil =>
      rw [hpost] at hy
      cases hy
  | cons curr post =>
      have hcurr : b ≤ curr.rgStart := start_ge_of_reached hpost
      have hforward := (hl curr (List.dropWhile_subset _ (hpost ▸ List.mem_cons_self ..))).1
      have hsub : Spaced (curr :: post) := hpost ▸ h.sublist (List.dropWhile_sublist _)
      rw [hpost] at hy
      rw [nonempty_iff] at hne
      rcases List.mem_cons.mp hy with rfl | hy
      · omega
      · have := (List.pairwise_cons.mp hsub).1 y hy (nonempty_iff.mpr hne)
        omega

/-- A growth appends a region at the break, to which the last free region is
joined if it can be. The search stops there. -/
theorem Spaced.grow_take {b inc size : Nat} {l rest : List VmRg} {rg : VmRg} (h : Spaced l)
    (hl : Within b l) (hsize : 0 < size) (hle : size ≤ inc) (hbound : b + inc < 2 ^ 64)
    (hnone : takeFree size l = none)
    (htake : takeFree size (enlistVmRgNode l ⟨b, b + inc⟩) = some (rg, rest)) : Spaced rest := by
  have hempty : ∀ y ∈ reached l ⟨b, b + inc⟩, y.nonempty ≠ true :=
    fun y hy => not_nonempty_of_reached h hl hy
  have hmerge : mergeNext ⟨b, b + inc⟩ (reached l ⟨b, b + inc⟩) =
      (⟨b, b + inc⟩, reached l ⟨b, b + inc⟩) := by
    cases hpost : reached l ⟨b, b + inc⟩ with
    | nil => rfl
    | cons curr post =>
        have hcurr := hl curr (List.dropWhile_subset _ (hpost ▸ List.mem_cons_self ..))
        rw [mergeNext, if_neg (by simp only; omega)]
  have hsplit : Spaced (passed l ⟨b, b + inc⟩ ++ reached l ⟨b, b + inc⟩) := by
    rwa [passed_append_reached]
  obtain ⟨hpre, hpost, -⟩ := List.pairwise_append.mp hsplit
  have hpassed : ∀ x ∈ passed l ⟨b, b + inc⟩, x ∈ l := fun x hx => List.takeWhile_subset _ hx
  -- the search stops at the node that holds the new pages
  have hfound : ∀ pre node, (∀ x ∈ pre, x ∈ l) → Spaced pre →
      enlistVmRgNode l ⟨b, b + inc⟩ = pre ++ node :: reached l ⟨b, b + inc⟩ →
      node.rgStart ≤ b → node.rgEnd = b + inc →
      (∀ x ∈ pre, x.rgEnd < node.rgStart + size) → Spaced rest := by
    intro pre node hmem hpre' heq hstart hend hbefore
    have hnone' : takeFree size pre = none :=
      takeFree_eq_none_iff.mpr fun x hx => takeFree_eq_none_iff.mp hnone x (hmem x hx)
    rw [heq, takeFree_append hnone', takeFree_cons (by omega) (by omega)] at htake
    cases htake
    refine spaced_append_leftOver hpre' ?_ (fun x hx _ => hbefore x hx)
      fun x _ y hy hne => absurd hne (hempty y hy)
    exact List.pairwise_cons.mpr ⟨fun y hy hne => absurd hne (hempty y hy), hpost⟩
  have hpos : VmRg.rgStart ⟨b, b + inc⟩ < VmRg.rgEnd ⟨b, b + inc⟩ := by
    simp only
    omega
  have heq := enlistVmRgNode_eq (l := l) hpos
  rw [hmerge] at heq
  rcases List.eq_nil_or_concat' (passed l ⟨b, b + inc⟩) with hnil | ⟨pre, prev, hconcat⟩
  · rw [hnil] at heq
    exact hfound [] _ (fun _ h => by cases h) .nil heq (Nat.le_refl _) rfl fun _ h => by cases h
  · rw [hconcat, joinPrev_concat] at heq
    split at heq
    next htouch =>
      have hmem : prev ∈ passed l ⟨b, b + inc⟩ := by
        rw [hconcat]
        exact List.mem_concat_self
      have hprev : prev.rgStart < b := start_lt_of_passed hmem
      rw [hconcat] at hpre hpassed
      obtain ⟨hpre, -, hto⟩ := List.pairwise_append.mp hpre
      refine hfound pre _ (fun x hx => hpassed x (List.mem_append_left _ hx)) hpre heq hprev.le rfl
        fun x hx => ?_
      have := hto x hx prev (List.mem_singleton_self prev)
        (nonempty_iff.mpr (by simp only at htouch; omega))
      simp only
      omega
    next =>
      have heq' : enlistVmRgNode l ⟨b, b + inc⟩ =
          (pre ++ [prev]) ++ ⟨b, b + inc⟩ :: reached l ⟨b, b + inc⟩ := by
        rw [heq, List.append_assoc]
        rfl
      rw [hconcat] at hpre hpassed
      refine hfound (pre ++ [prev]) _ hpassed hpre heq' (Nat.le_refl _) rfl fun x hx => ?_
      have := (hl x (hpassed x hx)).2
      simp only
      omega

/-! ### The free list of a process -/

/-- What holds of the free list of a process. The last part is about the
search that `ALLOC` makes first. -/
structure Coalesced (s : Sys) (p : Pid) : Prop where
  sorted : ((s.mmap p).vmFreergList.filter VmRg.nonempty).Pairwise
    fun a b => a.rgStart < b.rgStart
  apart : ∀ a ∈ (s.mmap p).vmFreergList, ∀ b ∈ (s.mmap p).vmFreergList, a.nonempty = true →
    b.nonempty = true → a.rgEnd ≠ b.rgStart
  fastPath : ∀ size, 0 < size → size < 2 ^ 31 → (getFreeVmrgArea s p (toInt size)).1 = none →
    ∀ x, ∃ y, x ≤ y ∧ y < x + size ∧ cover (s.mmap p).vmFreergList y = 0

/-- Two regions of a spaced list, in one order or the other. -/
theorem Spaced.trichotomy {l : List VmRg} (h : Spaced l) {a b : VmRg} (ha : a ∈ l) (hb : b ∈ l)
    (ha' : a.nonempty = true) (hb' : b.nonempty = true) :
    a = b ∨ a.rgEnd < b.rgStart ∨ b.rgEnd < a.rgStart := by
  induction l with
  | nil => cases ha
  | cons c l ih =>
      obtain ⟨hc, hl⟩ := List.pairwise_cons.mp h
      rcases List.mem_cons.mp ha with rfl | hal
      · rcases List.mem_cons.mp hb with rfl | hbl
        · exact .inl rfl
        · exact .inr (.inl (hc b hbl hb'))
      · rcases List.mem_cons.mp hb with rfl | hbl
        · exact .inr (.inr (hc a hal ha'))
        · exact ih hl hal hbl

/-- A free range lies in one region. -/
theorem Spaced.fits {l : List VmRg} (h : Spaced l) {x size : Nat} (hsize : 0 < size)
    (hcover : ∀ y, x ≤ y → y < x + size → 0 < cover l y) :
    ∃ rg ∈ l, rg.rgStart + size ≤ rg.rgEnd := by
  obtain ⟨rg, hrg, hx⟩ := cover_pos.mp (hcover x (Nat.le_refl _) (by omega))
  rw [VmRg.covers_iff] at hx
  refine ⟨rg, hrg, ?_⟩
  by_contra hsmall
  -- the byte after the region would be in another one
  obtain ⟨rg', hrg', hend⟩ := cover_pos.mp (hcover rg.rgEnd (by omega) (by omega))
  rw [VmRg.covers_iff] at hend
  have hcases := h.trichotomy hrg hrg' (nonempty_iff.mpr (by omega)) (nonempty_iff.mpr (by omega))
  rcases hcases with rfl | hlt | hlt <;> omega

theorem Spaced.coalesced {s : Sys} {p : Pid} (h : Spaced (s.mmap p).vmFreergList)
    (hinv : RegionInv s p) : Coalesced s p where
  sorted := by
    rw [List.pairwise_filter]
    refine List.Pairwise.imp (fun {a b} hab ha hb => ?_) h
    rw [nonempty_iff] at ha
    have := hab hb
    omega
  apart a ha b hb ha' hb' := by
    have hcases := h.trichotomy ha hb ha' hb'
    rw [nonempty_iff] at ha' hb'
    rcases hcases with rfl | hlt | hlt <;> omega
  fastPath size hpos hsize hnone x := by
    by_contra hall
    have hfits := h.fits hpos fun y hle hlt => Nat.pos_of_ne_zero fun hzero =>
      hall ⟨y, hle, hlt, hzero⟩
    have hlow := hinv.low
    have hsome := takeFree_isSome hinv.free (by omega) hfits
    obtain ⟨hnone', -⟩ | ⟨rg, rest, -, hget⟩ := hinv.search hsize
    · rw [hnone'] at hsome
      cases hsome
    · rw [hget] at hnone
      cases hnone

/-- An `ALLOC` whose growth obtains its frames: nothing happens, or a region
is taken out of the list, or out of the list of the area that has grown. -/
theorem RegionInv.alloc_taken {s t : Sys} {p : Pid} (h : RegionInv s p) {rgid size : Nat}
    {junk : VmRg} {ret : Int} (hsize : size < 2 ^ 31) (hok : Obtains s p size junk)
    (halloc : Mem.alloc s p rgid size junk = some (ret, t)) :
    (t.mmap p).vmFreergList = (s.mmap p).vmFreergList ∨
      ∃ rg, takeFree size (s.mmap p).vmFreergList = some (rg, (t.mmap p).vmFreergList) ∨
        takeFree size (s.mmap p).vmFreergList = none ∧ 0 < size ∧
          ∃ inc, size ≤ inc ∧ (s.mmap p).sbrk + inc ≤ 2 ^ 56 ∧
            takeFree size (enlistVmRgNode (s.mmap p).vmFreergList
              ⟨(s.mmap p).sbrk, (s.mmap p).sbrk + inc⟩) = some (rg, (t.mmap p).vmFreergList) := by
  have hgrow {u : Sys} (hgrows : Grows s p size junk u) : RegionInv u p := by
    obtain ⟨inc, hreq, hgrown⟩ := h.grows hsize hok hgrows
    exact h.grow hreq hgrown
  obtain ⟨hpos, hint⟩ := toInt_of_lt hsize
  obtain ⟨hret, ⟨host, rfl⟩ | hgrows⟩ | ⟨-, u, rg, rest, hu, hrgid, htake, rfl⟩ :=
    alloc_result (by decide) hpos (h.free.mono h.low)
      (fun u hgrows => (hgrow hgrows).free.mono (hgrow hgrows).low) halloc
  · exact .inl rfl
  · -- with a good id and a known caller the second search succeeds
    by_cases hargs : rgid < maxSymtblSz ∧ p ∈ s.runningList
    · obtain ⟨hsz, hnone, href, -⟩ := hgrows
      rw [Obtains, hnone] at hok
      have hsome := h.search_again hsz hsize (hok rfl)
      obtain ⟨rg, hrg⟩ := Option.isSome_iff_exists.mp hsome
      have hagain : getFreeVmrgArea (grown s p (allocInc size) junk) p (toInt size) =
          (some rg, (getFreeVmrgArea (grown s p (allocInc size) junk) p (toInt size)).2) :=
        pair_of_fst hrg
      rw [alloc_of_grown hargs.1 hsz.ne' hargs.2 hnone href hagain] at halloc
      cases halloc
      cases hret
    · have hs : t = s := by
        rw [Mem.alloc] at halloc
        split at halloc
        · cases halloc
          rfl
        · rename_i hbad
          rw [hgrows.none] at halloc
          dsimp only at halloc
          rw [if_pos fun hp => hargs ⟨by omega, hp⟩] at halloc
          cases halloc
          rfl
      exact .inl (by rw [hs])
  · rw [hint] at htake
    have hmmap : ((u.setMmap p { u.mmap p with vmFreergList := rest }).setSymrg p rgid rg).mmap p =
        { u.mmap p with vmFreergList := rest } := Sys.mmap_setMmap ..
    rw [hmmap]
    rcases hu with rfl | hgrows
    · exact .inr ⟨rg, .inl htake⟩
    · obtain ⟨hsz, hnone, -, rfl⟩ := hgrows
      rw [Obtains, hnone] at hok
      obtain ⟨hreq, hle⟩ := h.smallRequest hsz hsize
      have hgrown := grown_ok hreq (hok rfl)
      rw [hgrown.mmap] at htake
      refine .inr ⟨rg, .inr ⟨?_, hsz, _, hle, hgrown.low, htake⟩⟩
      obtain ⟨hnone', -⟩ | ⟨rg', rest', -, hget⟩ := h.search hsize
      · exact hnone'
      · rw [hget] at hnone
        cases hnone

/-! ### Runs -/

/-- The instruction of process `p` is a `FREE` of a region that touches a
free region which is not a neighbour of its place in the list. -/
def Hides (p : Pid) (s : Sys) : Op → Prop
  | .inst q ins _ => q = p ∧ ins.opcode = .free ∧
      ¬TouchesNeighbours (s.mmap p).vmFreergList (s.symrgtbl p (toUint32 ins.arg0.toNat))
  | _ => False

instance (p : Pid) (s : Sys) : (op : Op) → Decidable (Hides p s op)
  | .inst q _ _ => inferInstanceAs (Decidable (q = p ∧ _ ∧ _))
  | .load => inferInstanceAs (Decidable False)
  | .exit _ => inferInstanceAs (Decidable False)

def MergingStep (p : Pid) (s : Sys) (op : Op) (t : Sys) : Prop :=
  RegionStep p s op t ∧ ¬Hides p s op

/-- The same, as a function. -/
def mergingExec (p : Pid) : Sys → List Op → Option Sys :=
  exec (guarded step fun s op _ => decide (OnRegions p s op ∧ ¬Hides p s op))

theorem run_of_mergingExec {p : Pid} {s t : Sys} {ops : List Op}
    (h : mergingExec p s ops = some t) : Run (MergingStep p) s ops t :=
  run_of_exec_guarded (fun _ _ _ hstep hok =>
    ⟨⟨hstep, (of_decide_eq_true hok).1⟩, (of_decide_eq_true hok).2⟩) h

namespace RegionInv

variable {s t : Sys} {p : Pid}

theorem insertable (h : RegionInv s p) {rgid : Nat} (hrgid : rgid < maxSymtblSz)
    (hne : (s.symrgtbl p rgid).rgStart < (s.symrgtbl p rgid).rgEnd) :
    Insertable (s.mmap p).vmFreergList (s.symrgtbl p rgid) where
  nonempty := hne
  forward x hx := (h.free x hx).1
  disjoint x hx hx' := by
    have hdisj := h.sound.disjoint
    rw [List.filter_append] at hdisj
    have hcross := (List.pairwise_append.mp hdisj).2.2
    have hrg : s.symrgtbl p rgid ∈ (symRegions s p).filter VmRg.nonempty :=
      List.mem_filter.mpr ⟨mem_symRegions hrgid, nonempty_iff.mpr hne⟩
    exact (hcross _ hrg x (List.mem_filter.mpr ⟨hx, hx'⟩)).symm

theorem spaced_alloc (h : RegionInv s p) (hspaced : Spaced (s.mmap p).vmFreergList)
    {rgid size : Nat} {junk : VmRg} {ret : Int} (hsize : size < 2 ^ 31)
    (hok : Obtains s p size junk) (halloc : Mem.alloc s p rgid size junk = some (ret, t)) :
    Spaced (t.mmap p).vmFreergList := by
  have hlow := h.low
  obtain hsame | ⟨rg, htake | ⟨hnone, hpos, inc, hle, hend, htake⟩⟩ :=
    h.alloc_taken hsize hok halloc
  · rw [hsame]
    exact hspaced
  · exact hspaced.take h.free (by omega) htake
  · exact hspaced.grow_take h.free hpos hle (by omega) hnone htake

theorem spaced_free (h : RegionInv s p) (hspaced : Spaced (s.mmap p).vmFreergList) {rgid : Nat}
    (htouch : TouchesNeighbours (s.mmap p).vmFreergList (s.symrgtbl p rgid)) :
    Spaced ((Mem.free s p rgid).2.mmap p).vmFreergList := by
  rw [Mem.free]
  split
  · exact hspaced
  · rename_i hrgid
    dsimp only
    split
    · exact hspaced
    · split
      · exact hspaced
      · rw [Sys.mmap_setMmap]
        change Spaced (enlistVmRgNode (s.mmap p).vmFreergList (s.symrgtbl p rgid))
        by_cases hne : (s.symrgtbl p rgid).rgStart < (s.symrgtbl p rgid).rgEnd
        · exact (h.insertable (Nat.not_le.mp hrgid) hne).spaced_enlistVmRgNode hspaced htouch
        · rw [enlistVmRgNode.eq_def, if_pos (Nat.not_lt.mp hne)]
          exact hspaced

/-- The condition on a `FREE` is exact. -/
theorem free_coalesced_iff (h : RegionInv s p) (hspaced : Spaced (s.mmap p).vmFreergList)
    {rgid : Nat} (hne : (s.symrgtbl p rgid).nonempty = true) (hret : (Mem.free s p rgid).1 = 0) :
    Coalesced (Mem.free s p rgid).2 p ↔
      TouchesNeighbours (s.mmap p).vmFreergList (s.symrgtbl p rgid) := by
  refine ⟨fun hcoal => ?_, fun htouch => (h.spaced_free hspaced htouch).coalesced (h.free_region _)⟩
  have hapart := hcoal.apart
  rw [Mem.free] at hret hapart
  split at hret
  · cases hret
  · rename_i hrgid
    rw [if_neg hrgid] at hapart
    dsimp only at hret hapart
    split at hret
    · cases hret
    · rename_i hzero
      rw [if_neg hzero] at hapart
      cases hd : draw s.host with
      | mk ok host =>
          rw [hd] at hret hapart
          cases ok with
          | false => cases hret
          | true =>
              dsimp only at hapart
              rw [Sys.mmap_setMmap] at hapart
              by_contra htouch
              obtain ⟨a, ha, b, hb, ha', hb', heq⟩ := (h.insertable (Nat.not_le.mp hrgid)
                (nonempty_iff.mp hne)).touches_enlistVmRgNode hspaced htouch
              exact hapart a ha b hb ha' hb' heq

theorem spaced_run {ins : Inst} {junk : VmRg} {ret : Int} (h : RegionInv s p)
    (hspaced : Spaced (s.mmap p).vmFreergList) (hop : OnRegions p s (.inst p ins junk))
    (hhides : ¬Hides p s (.inst p ins junk)) (hrun : Mem.run s p ins junk = some (ret, t)) :
    Spaced (t.mmap p).vmFreergList := by
  obtain ⟨halloc, hsize, hok⟩ | hother := hop rfl
  · rw [Mem.run, halloc] at hrun
    exact h.spaced_alloc hspaced hsize hok hrun
  · simp only [List.mem_cons, List.not_mem_nil, or_false] at hother
    rcases hother with hop | hop | hop | hop
    · rw [Mem.run, hop] at hrun
      rw [← snd_eq_of_some hrun]
      exact h.spaced_free hspaced (not_not.mp fun htouch => hhides ⟨rfl, hop, htouch⟩)
    all_goals rw [Mem.run, hop] at hrun
    · rw [(Accesses.libread hrun).mmap]
      exact hspaced
    · rw [← snd_eq_of_some hrun, (Accesses.libwrite ..).mmap]
      exact hspaced
    · cases hrun
      exact hspaced

theorem spaced_step {op : Op} (hpids : Pids s) (h : p ∈ s.runningList → RegionInv s p)
    (hspaced : p ∈ s.runningList → Spaced (s.mmap p).vmFreergList) (hstep : MergingStep p s op t)
    (hp : p ∈ t.runningList) : Spaced (t.mmap p).vmFreergList := by
  obtain ⟨⟨hstep, hop⟩, hhides⟩ := hstep
  obtain ⟨hmmap, -⟩ | ⟨hp, hmmap, -, -⟩ | ⟨hp, ins, junk, ret, rfl, hrun⟩ :=
    step_of_process hpids hstep hp
  · rw [hmmap]
    exact .nil
  · rw [hmmap]
    exact hspaced hp
  · exact (h hp).spaced_run (hspaced hp) hop hhides hrun

end RegionInv

/-- The free list of a process is sorted and coalesced in every state of
every run in which no `FREE` of the process finds a free region that it
touches behind an empty node. -/
theorem free_list_coalesced {ramSz swpSz : Nat} {host : Nat → Bool} {ops : List Op} {s : Sys}
    {p : Pid} (hrun : Run (MergingStep p) (boot ramSz swpSz host) ops s)
    (hp : p ∈ s.runningList) : Coalesced s p := by
  have hinv := hrun.invariant
    (I := fun s => Pids s ∧ (p ∈ s.runningList → RegionInv s p) ∧
      (p ∈ s.runningList → Spaced (s.mmap p).vmFreergList))
    (fun s op t hs hstep => ⟨hs.1.step hstep.1.1, RegionInv.step hs.1 hs.2.1 hstep.1,
      RegionInv.spaced_step hs.1 hs.2.1 hs.2.2 hstep⟩)
    ⟨.boot ramSz swpSz host, (fun hp => by cases hp), fun hp => by cases hp⟩
  exact (hinv.2.2 hp).coalesced (hinv.2.1 hp)

/-- Process 1 frees two of three regions and then the one between them. -/
def freeBetween : List Op :=
  [.load, .inst 1 { opcode := .alloc, arg0 := 100, arg1 := 0 } ⟨0, 0⟩,
    .inst 1 { opcode := .alloc, arg0 := 200, arg1 := 1 } ⟨0, 0⟩,
    .inst 1 { opcode := .alloc, arg0 := 300, arg1 := 2 } ⟨0, 0⟩,
    .inst 1 { opcode := .free, arg0 := 0 } ⟨0, 0⟩,
    .inst 1 { opcode := .free, arg0 := 2 } ⟨0, 0⟩,
    .inst 1 { opcode := .free, arg0 := 1 } ⟨0, 0⟩]

theorem freeBetween_isSome :
    (mergingExec 1 (boot 4096 0 fun _ => true) freeBetween).isSome = true := by
  decide +kernel

theorem free_list_coalesced_freeBetween : ∃ s,
    Run (MergingStep 1) (boot 4096 0 fun _ => true) freeBetween s ∧ 1 ∈ s.runningList ∧
    (s.mmap 1).vmFreergList = [⟨0, 4096⟩] ∧ Coalesced s 1 := by
  have hrun := run_of_mergingExec (Option.some_get freeBetween_isSome).symm
  have hlive : 1 ∈ ((mergingExec 1 (boot 4096 0 fun _ => true) freeBetween).get
      freeBetween_isSome).runningList := by decide +kernel
  exact ⟨_, hrun, hlive, by decide +kernel, free_list_coalesced hrun hlive⟩

/-- Process 1 allocates three pages and frees the second and the third. The
first one has left an empty node at its end. -/
def freeAroundEmpty : List Op :=
  [.load, .inst 1 { opcode := .alloc, arg0 := 4096, arg1 := 0 } ⟨0, 0⟩,
    .inst 1 { opcode := .alloc, arg0 := 4096, arg1 := 1 } ⟨0, 0⟩,
    .inst 1 { opcode := .alloc, arg0 := 4096, arg1 := 2 } ⟨0, 0⟩,
    .inst 1 { opcode := .free, arg0 := 1 } ⟨0, 0⟩,
    .inst 1 { opcode := .free, arg0 := 2 } ⟨0, 0⟩]

theorem freeAroundEmpty_isSome :
    (regionExec 1 (boot 12288 0 fun _ => true) freeAroundEmpty).isSome = true := by
  decide +kernel

/-- The two free pages are not merged, and 8192 bytes are not found though
they are free. -/
theorem freeAroundEmpty_not_coalesced : ∃ s,
    Run (RegionStep 1) (boot 12288 0 fun _ => true) freeAroundEmpty s ∧ 1 ∈ s.runningList ∧
    (s.mmap 1).vmFreergList = [⟨4096, 8192⟩, ⟨4096, 4096⟩, ⟨8192, 12288⟩] ∧
    (getFreeVmrgArea s 1 8192).1 = none ∧ ¬Coalesced s 1 := by
  have hrun := run_of_regionExec (Option.some_get freeAroundEmpty_isSome).symm
  have hlist : (((regionExec 1 (boot 12288 0 fun _ => true) freeAroundEmpty).get
      freeAroundEmpty_isSome).mmap 1).vmFreergList =
        [⟨4096, 8192⟩, ⟨4096, 4096⟩, ⟨8192, 12288⟩] := by decide +kernel
  refine ⟨_, hrun, by decide +kernel, hlist, by decide +kernel, fun hcoal => ?_⟩
  have hapart := hcoal.apart
  rw [hlist] at hapart
  exact hapart ⟨4096, 8192⟩ (by decide) ⟨8192, 12288⟩ (by decide) (by decide) (by decide) rfl

end Ossim.Mem
