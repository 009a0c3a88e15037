import Mathlib.Order.Bounds.Defs
import Mathlib.Data.List.Nodup
import Ossim.Mem.KernelFrames

/-!
The search for consecutive frames finds the lowest run.

The sorted copy of the free list is read once, and `run` is the length of
the run of consecutive numbers that ends at the element read last. Two facts
carry the search: this run cannot be extended to the left, and no run of the
length asked for ends at or before the element read last.
-/

namespace Ossim.Mem

/-- `n` consecutive numbers of the list start at `first`. -/
def IsRun (free : List Nat) (n first : Nat) : Prop := ∀ k < n, first + k ∈ free

/-- The state of the search behind `prev`, with `rest` still to be read: the
run that ends at `prev` starts at `first`. -/
structure Searched (free : List Nat) (req prev run first idx : Nat) (rest : List Nat) : Prop where
  sorted : rest.Pairwise (· < ·)
  behind : ∀ x ∈ rest, prev < x
  mem : ∀ x ∈ free, x ≤ prev ∨ x ∈ rest
  ends : first + run = prev + 1
  pos : 1 ≤ run
  short : run < req
  le : run ≤ idx
  left : ∀ x ∈ free, x + 1 ≠ first
  past : ∀ f, IsRun free req f → prev + 1 < f + req

namespace Searched

variable {free rest : List Nat} {req prev run first idx fpn : Nat}

theorem no_run (h : Searched free req prev run first idx []) (f : Nat) : ¬IsRun free req f := by
  intro hrun
  have hpos := h.pos
  have hshort := h.short
  have hpast := h.past f hrun
  rcases h.mem (f + (req - 1)) (hrun (req - 1) (by omega)) with hle | hmem
  · omega
  · cases hmem

theorem le_prev (h : Searched free req prev run first idx (fpn :: rest)) {x : Nat} (hx : x ∈ free)
    (hlt : x < fpn) : x ≤ prev := by
  rcases h.mem x hx with hle | hmem
  · exact hle
  · rcases List.mem_cons.mp hmem with rfl | hmem
    · exact absurd hlt (Nat.lt_irrefl _)
    · exact absurd ((List.pairwise_cons.mp h.sorted).1 x hmem) (by omega)

/-- A run ends at the next element or behind it. -/
theorem end_ge (h : Searched free req prev run first idx (fpn :: rest)) {f : Nat}
    (hrun : IsRun free req f) : fpn < f + req := by
  have hpos := h.pos
  have hshort := h.short
  have hpast := h.past f hrun
  by_contra hnot
  have := h.le_prev (hrun (req - 1) (by omega)) (by omega)
  omega

/-- The next element is read, and the run that ends there is still too short. -/
theorem next (h : Searched free req prev run first idx (fpn :: rest)) {run' : Nat}
    (hrun' : run' = if fpn = prev + 1 then run + 1 else 1) (hmiss : run' ≠ req) :
    ∃ first', Searched free req fpn run' first' (idx + 1) rest := by
  obtain ⟨hhead, htail⟩ := List.pairwise_cons.mp h.sorted
  have hprev := h.behind fpn List.mem_cons_self
  have hends := h.ends
  have hpos := h.pos
  have hshort := h.short
  have hle := h.le
  obtain ⟨first', hends', hleft'⟩ : ∃ first', first' + run' = fpn + 1 ∧
      ∀ x ∈ free, x + 1 ≠ first' := by
    rw [hrun']
    split
    · exact ⟨first, by omega, h.left⟩
    · refine ⟨fpn, rfl, fun x hx heq => ?_⟩
      have := h.le_prev hx (by omega)
      omega
  have hbounds : 1 ≤ run' ∧ run' ≤ idx + 1 ∧ run' ≤ req := by
    rw [hrun']
    split <;> omega
  refine ⟨first', htail, hhead, fun x hx => ?_, hends', hbounds.1, by omega, hbounds.2.1, hleft',
    fun f hrun => ?_⟩
  · rcases h.mem x hx with hle | hmem
    · exact .inl (by omega)
    · rcases List.mem_cons.mp hmem with rfl | hmem
      · exact .inl (Nat.le_refl _)
      · exact .inr hmem
  · -- a run that ends at `fpn` would contain the number before `first'`
    have hend := h.end_ge hrun
    by_contra hnot
    exact hleft' _ (hrun (first' - 1 - f) (by omega)) (by omega)

/-- The search fails only without a run, and it ends where the lowest run
ends. -/
theorem findRun (h : Searched free req prev run first idx rest) :
    (findRun req prev run idx rest = none → ∀ f, ¬IsRun free req f) ∧
    ∀ start, findRun req prev run idx rest = some start →
      ∃ seen fpn post, rest = seen ++ fpn :: post ∧ start + req = idx + seen.length + 1 ∧
        ∀ f, IsRun free req f → fpn < f + req := by
  induction rest generalizing prev run first idx with
  | nil => exact ⟨fun _ => h.no_run, fun start hs => by cases hs⟩
  | cons fpn rest ih =>
      obtain ⟨run', hrun'⟩ : ∃ run', run' = if fpn = prev + 1 then run + 1 else 1 := ⟨_, rfl⟩
      rw [Mem.findRun, ← hrun']
      split
      · rename_i hhit
        have hle : run' ≤ idx + 1 := by
          have := h.le
          rw [hrun']
          split <;> omega
        refine ⟨fun hnone => (by cases hnone), fun start hs =>
          ⟨[], fpn, rest, rfl, ?_, fun f => h.end_ge⟩⟩
        have := Option.some.inj hs
        simp only [List.length_nil]
        omega
      · rename_i hmiss
        obtain ⟨first', hnext⟩ := h.next hrun' hmiss
        obtain ⟨hnone, hsome⟩ := ih hnext
        refine ⟨hnone, fun start hs => ?_⟩
        obtain ⟨seen, f, post, hrest, hstart, hall⟩ := hsome start hs
        refine ⟨fpn :: seen, f, post, by rw [hrest, List.cons_append], ?_, hall⟩
        rw [hstart, List.length_cons]
        omega

end Searched

/-- The sorted list is searched for the lowest run. -/
theorem selectStart_lowest {free list : List Nat} {req : Nat} (hreq : 1 ≤ req)
    (hsorted : list.Pairwise (· < ·)) (hmem : ∀ x, x ∈ list ↔ x ∈ free) :
    (selectStart req list = none → ∀ f, ¬IsRun free req f) ∧
    ∀ start first, selectStart req list = some start →
      (list.drop start).take req = List.range' first req → ∀ f, IsRun free req f → first ≤ f := by
  cases list with
  | nil =>
      refine ⟨fun _ f hrun => ?_, fun start first hs => by cases hs⟩
      cases (hmem (f + 0)).mpr (hrun 0 hreq)
  | cons fpn rest =>
      obtain ⟨hhead, htail⟩ := List.pairwise_cons.mp hsorted
      have hlow : ∀ x ∈ free, fpn ≤ x := by
        intro x hx
        rcases List.mem_cons.mp ((hmem x).mpr hx) with rfl | hx
        · exact Nat.le_refl _
        · exact Nat.le_of_lt (hhead x hx)
      rw [selectStart]
      split
      · rename_i hone
        refine ⟨fun hnone => (by cases hnone), fun start first hs hframes f hrun => ?_⟩
        cases hs
        rw [hone] at hframes
        cases hframes
        exact hlow f (hrun 0 hreq)
      · rename_i hone
        have hsearch : Searched free req fpn 1 fpn 1 rest :=
          { sorted := htail
            behind := hhead
            mem := fun x hx => by
              rcases List.mem_cons.mp ((hmem x).mpr hx) with rfl | hx
              · exact .inl (Nat.le_refl _)
              · exact .inr hx
            ends := rfl
            pos := Nat.le_refl _
            short := by omega
            le := Nat.le_refl _
            left := fun x hx heq => by
              have := hlow x hx
              omega
            past := fun f hrun => by
              have := hlow f (hrun 0 hreq)
              omega }
        obtain ⟨hnone, hsome⟩ := hsearch.findRun
        refine ⟨hnone, fun start first hs hframes f hrun => ?_⟩
        obtain ⟨seen, last, post, rfl, hstart, hall⟩ := hsome start hs
        -- the last element of the run found is `last`
        have hget : ((fpn :: (seen ++ last :: post)).drop start |>.take req)[req - 1]? =
            some last := by
          rw [List.getElem?_take_of_lt (by omega), List.getElem?_drop,
            show start + (req - 1) = seen.length + 1 by omega, List.getElem?_cons_succ,
            List.getElem?_append_right (Nat.le_refl _), Nat.sub_self, List.getElem?_cons_zero]
        rw [hframes, List.getElem?_range' (by omega)] at hget
        have hend := Option.some.inj hget
        have := hall f hrun
        omega

section Allocate

variable {s : Sys} {p : Pid} {req : Int}

/-- A list with a run has room for it. -/
theorem IsRun.length_le {free : List Nat} {n first : Nat} (h : IsRun free n first) :
    n ≤ free.length := by
  have hsub : List.range' first n ⊆ free := by
    intro f hf
    obtain ⟨hle, hlt⟩ := List.mem_range'_1.mp hf
    have := h (f - first) (by omega)
    rwa [Nat.add_sub_cancel' hle] at this
  simpa using (List.subperm_of_subset List.nodup_range' hsub).length_le

/-- The lowest run is moved to the used list, and without a run nothing
moves. -/
theorem kernelAllocateContiguousFrames_lowest (hnodup : (s.freeFpList .mram).Nodup)
    (hhost : (draw s.host).1 = true) (hreq : 1 ≤ req) :
    (∃ host, kernelAllocateContiguousFrames s p req = (none, { s with host := host })) ∧
      (∀ f, ¬IsRun (s.freeFpList .mram) req.toNat f) ∨
    ∃ first, IsLeast {f | IsRun (s.freeFpList .mram) req.toNat f} first ∧
      kernelAllocateContiguousFrames s p req = (some first,
        framesUsed { s with host := (draw s.host).2 } p (List.range' first req.toNat)) := by
  rw [kernelAllocateContiguousFrames, if_neg (by omega)]
  split
  · rename_i hlen
    refine .inl ⟨⟨s.host, rfl⟩, fun f hrun => ?_⟩
    have := hrun.length_le
    omega
  · split
    · rename_i h hd
      rw [hd] at hhost
      cases hhost
    · rename_i h hd
      have hmem (x : Nat) :
          x ∈ (s.freeFpList .mram).insertionSort (· ≤ ·) ↔ x ∈ s.freeFpList .mram :=
        List.mem_insertionSort _
      have hsorted : ((s.freeFpList .mram).insertionSort (· ≤ ·)).Pairwise (· < ·) := by
        have hle := List.pairwise_insertionSort (· ≤ ·) (s.freeFpList .mram)
        have hne := ((List.perm_insertionSort (· ≤ ·) (s.freeFpList .mram)).nodup_iff.mpr hnodup)
        exact (hle.and hne).imp fun h => Nat.lt_of_le_of_ne h.1 h.2
      obtain ⟨hnone, hsome⟩ :=
        selectStart_lowest (show 1 ≤ req.toNat by omega) hsorted hmem
      dsimp only
      split
      · rename_i hs
        exact .inl ⟨⟨h, rfl⟩, hnone hs⟩
      · rename_i start hs
        obtain ⟨first, hframes⟩ := selectStart_spec hs
        have hfree : ∀ f ∈ List.range' first req.toNat, f ∈ s.freeFpList .mram := by
          intro f hf
          rw [← hframes] at hf
          exact (hmem f).mp (List.mem_of_mem_drop (List.mem_of_mem_take hf))
        refine .inr ⟨first, ⟨fun k hk => hfree _ (List.mem_range'_1.mpr (by omega)), ?_⟩, ?_⟩
        · exact fun f hrun => hsome start first hs hframes f hrun
        · rw [hframes, foldl_useFrame (s := { s with host := h }) List.nodup_range' hfree, hd]
          obtain ⟨n, hn⟩ : ∃ n, req.toNat = n + 1 := ⟨req.toNat - 1, by omega⟩
          rw [hn]
          rfl

/-- On a free list without duplicates, in any order, the allocation succeeds
if and only if `req` consecutive frames are free. It takes the lowest run:
these frames leave the free list, whose other frames keep their order, and
are put into the used list with their owner. A failure changes neither
list. -/
theorem contiguous_allocation (hnodup : (s.freeFpList .mram).Nodup)
    (hhost : (draw s.host).1 = true) (hreq : 1 ≤ req) :
    ((kernelAllocateContiguousFrames s p req).1.isSome ↔
      ∃ first, IsRun (s.freeFpList .mram) req.toNat first) ∧
    (∀ first t, kernelAllocateContiguousFrames s p req = (some first, t) →
      IsLeast {f | IsRun (s.freeFpList .mram) req.toNat f} first ∧
      t.freeFpList .mram =
        (s.freeFpList .mram).filter (fun f => f < first ∨ first + req.toNat ≤ f) ∧
      t.usedFpList .mram =
        ((List.range' first req.toNat).map (UsedFrame.mk · p)).reverse ++ s.usedFpList .mram) ∧
    (∀ t, kernelAllocateContiguousFrames s p req = (none, t) →
      t.freeFpList .mram = s.freeFpList .mram ∧ t.usedFpList .mram = s.usedFpList .mram) := by
  obtain ⟨⟨host, heq⟩, hnone⟩ | ⟨least, hleast, heq⟩ :=
    kernelAllocateContiguousFrames_lowest (p := p) hnodup hhost hreq
  · rw [heq]
    refine ⟨⟨fun h => (by cases h), fun hrun => ?_⟩, fun first t h => ?_,
      fun t h => ?_⟩
    · obtain ⟨f, hf⟩ := hrun
      exact absurd hf (hnone f)
    · cases h
    · cases h
      exact ⟨rfl, rfl⟩
  · rw [heq]
    refine ⟨⟨fun _ => ⟨least, hleast.1⟩, fun _ => rfl⟩, fun first t h => ?_, fun t h => ?_⟩
    · cases h
      refine ⟨hleast, ?_, by simp [framesUsed]⟩
      simp only [framesUsed, Function.update_self]
      rw [hnodup.sdiff_eq_filter]
      refine List.filter_congr fun f _ => ?_
      simp only [List.mem_range'_1, decide_eq_decide]
      omega
    · cases h

theorem contiguous_allocation_unordered :
    ∃ t, kernelAllocateContiguousFrames
        { boot 0 0 (fun _ => true) with freeFpList := fun _ => [7, 3, 9, 5, 4, 8] } 0 2 =
      (some 3, t) ∧ t.freeFpList .mram = [7, 9, 5, 8] := by
  have hspec := contiguous_allocation (p := 0)
    (s := { boot 0 0 (fun _ => true) with freeFpList := fun _ => [7, 3, 9, 5, 4, 8] })
    (by decide) rfl (show (1 : Int) ≤ 2 by decide)
  exact ⟨_, rfl, (hspec.2.1 3 _ rfl).2.1⟩

end Allocate

end Ossim.Mem
