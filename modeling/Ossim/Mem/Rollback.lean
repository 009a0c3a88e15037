import Mathlib.Data.List.Perm.Subperm
import Ossim.Mem.Linear

/-!
Failed kernel allocations are undone.

An allocation takes frames, maps them and, for a pool, builds a slab; the
host may refuse memory at any of these points. What was done up to then is
undone by one release of the whole range. The release is exact because the
frames came from the free list: their entries were zero, no other node of
the used list carries their numbers, and no other page lies in the range.
-/

namespace Ossim.Mem

open Ossim.Lib

/-- The lists of the RAM are sound, and the kernel page table has entries for
used frames only, each at its own address. -/
structure KernelLists (s : Sys) : Prop where
  /-- the size of a device is an `int` -/
  maxsz : s.maxsz .mram < 2 ^ 31
  freeNodup : (s.freeFpList .mram).Nodup
  usedNodup : ((s.usedFpList .mram).map UsedFrame.fpn).Nodup
  disjoint : ∀ f ∈ s.freeFpList .mram, f ∉ (s.usedFpList .mram).map UsedFrame.fpn
  free : ∀ f ∈ s.freeFpList .mram, f < numfp (s.maxsz .mram)
  used : ∀ f ∈ (s.usedFpList .mram).map UsedFrame.fpn, f < numfp (s.maxsz .mram)
  mapped : ∀ f ∈ (s.usedFpList .mram).map UsedFrame.fpn, ∀ a < 2 ^ 64,
    a / pageSz = kmemVaddrBase / pageSz + f →
    pagePresent (kernelPte s a) = true ∧ pteFpn (kernelPte s a) = f
  only : ∀ a < 2 ^ 64, kernelPte s a ≠ 0 →
    ∃ f ∈ (s.usedFpList .mram).map UsedFrame.fpn, a / pageSz = kmemVaddrBase / pageSz + f

/-- The states of a run without system calls are of this kind. -/
theorem KernelExact.lists {ok : Prop} {ram swp : List Nat} {s : Sys} (hinv : Inv ok ram swp s)
    (h : KernelExact s) : KernelLists s := by
  have hsmall := (hinv.usable .mram).numfp_lt
  have hcount (f : Nat) : (s.freeFpList .mram).count f +
      ((s.usedFpList .mram).map UsedFrame.fpn).count f ≤ 1 := by
    have hle := hinv.owners_le .mram f
    simp only [Sys.owners] at hle
    omega
  refine ⟨(hinv.usable .mram).2, List.nodup_iff_count_le_one.mpr fun f => ?_, h.nodup,
    fun f hfree hused => ?_, fun f hf => ?_, fun f hf => ?_,
    fun f hf a ha hpage => ?_, fun a ha hne => ?_⟩
  · have := hcount f
    omega
  · have := hcount f
    have := List.count_pos_iff.mpr hfree
    have := List.count_pos_iff.mpr hused
    omega
  · have heq := hinv.owners .mram f
    have hpos := List.count_pos_iff.mpr hf
    by_contra hge
    rw [if_neg hge, Sys.owners] at heq
    omega
  · obtain ⟨fp, hfp, rfl⟩ := List.mem_map.mp hf
    exact hinv.lt_of_used hfp
  · obtain ⟨fp, hfp, rfl⟩ := List.mem_map.mp hf
    have hlt := hinv.lt_of_used hfp
    rw [h.mapped fp hfp a ha hpage]
    exact ⟨pagePresent_presentPte _, pteFpn_presentPte (by omega)⟩
  · obtain ⟨fp, hfp, -, hpage⟩ := hinv.kernel a ha (h.clean a ha hne)
    exact ⟨fp.fpn, List.mem_map_of_mem hfp, hpage⟩

/-- The frames and the kernel page table are as they were, up to the order of
the free list. -/
structure Restored (s t : Sys) : Prop where
  free : (t.freeFpList .mram).Perm (s.freeFpList .mram)
  used : t.usedFpList .mram = s.usedFpList .mram
  pte : ∀ a < 2 ^ 64, kernelPte t a = kernelPte s a
  change : KernelChange s t

namespace Restored

variable {s t : Sys}

theorem host (s : Sys) (host : Nat → Bool) : Restored s { s with host := host } :=
  ⟨.refl _, rfl, fun _ _ => rfl, ⟨_, _, _, _, rfl⟩⟩

theorem kcpooltbl (h : Restored s t) : t.kcpooltbl = s.kcpooltbl := by
  obtain ⟨_, _, _, _, heq⟩ := h.change
  rw [heq]

end Restored

/-! ### Putting a run back -/

/-- The pages of `n` frames from `first` on. -/
def RunPage (first n a : Nat) : Prop :=
  ∃ k < n, a / pageSz = kmemVaddrBase / pageSz + (first + k)

/-- The mapping loop changes entries of its own pages only. -/
theorem kernelPte_mapPages {first left page n : Nat} {s : Sys} (hsmall : first + n ≤ 2 ^ 19)
    (hle : page + left ≤ n) {a : Nat} (ha : a < 2 ^ 64) (hout : ¬RunPage first n a) :
    kernelPte (kernelMapPages (kernelVaddrFromFpn first) first left page s).2 a =
      kernelPte s a := by
  induction left generalizing page s with
  | zero => rfl
  | succ left ih =>
      have haddr : (kernelVaddrFromFpn first + page * pageSz) % 2 ^ 64 =
          kmemVaddrBase + (first + page) * pageSz := by
        simp only [kernelVaddrFromFpn, kmemVaddrBase, pageSz] at *
        omega
      have hlow : 2 ^ 64 - 2 ^ 56 ≤ kmemVaddrBase + (first + page) * pageSz := by
        simp only [kmemVaddrBase]
        omega
      have hhigh : kmemVaddrBase + (first + page) * pageSz < 2 ^ 64 := by
        simp only [kmemVaddrBase, pageSz] at *
        omega
      obtain ⟨krnlPgd, host, -, -, hpte⟩ := kernelMapPage_spec s (first + page) hlow hhigh
      have hsame : kernelPte
          (kernelMapPage s (kmemVaddrBase + (first + page) * pageSz) (first + page)).2 a =
          kernelPte s a := by
        rw [hpte a ha, if_neg]
        rintro ⟨-, hpage⟩
        refine hout ⟨page, by omega, ?_⟩
        rw [hpage]
        simp only [kmemVaddrBase, pageSz]
        omega
      rw [kernelMapPages, haddr]
      generalize kernelMapPage s (kmemVaddrBase + (first + page) * pageSz) (first + page) = r
        at hsame ⊢
      obtain ⟨_ | _, t⟩ := r
      · exact hsame
      · exact (ih (show page + 1 + left ≤ n by omega)).trans hsame

theorem free_foldl_clear (base : Nat) (pages : List Nat) (s : Sys) :
    (pages.foldl (fun s page => clearKernelPte s ((base + page * pageSz) % 2 ^ 64)) s).freeFpList =
      s.freeFpList := by
  induction pages generalizing s with
  | nil => rfl
  | cons page pages ih =>
      obtain ⟨k, hk⟩ := clearKernelPte_eq s ((base + page * pageSz) % 2 ^ 64)
      rw [List.foldl_cons, ih, hk]

/-- The nodes of a run that was put at the head of the used list go back. -/
theorem foldl_unuseFrame {s : Sys} {p : Pid} {first n : Nat} {free : List Nat}
    {used : List UsedFrame} (hfree : s.freeFpList .mram = free)
    (hused : s.usedFpList .mram = ((List.range' first n).map (UsedFrame.mk · p)).reverse ++ used) :
    ((List.range' first n).foldl unuseFrame s).freeFpList .mram =
        (List.range' first n).reverse ++ free ∧
      ((List.range' first n).foldl unuseFrame s).usedFpList .mram = used := by
  induction n generalizing first free s with
  | zero => exact ⟨hfree, hused⟩
  | succ n ih =>
      rw [List.range'_succ] at hused ⊢
      rw [List.map_cons, List.reverse_cons, List.append_assoc, List.singleton_append] at hused
      have hmem : first ∈ (s.usedFpList .mram).map UsedFrame.fpn := by
        rw [hused]
        simp
      -- no node before the one looked for has its number
      have herase : (s.usedFpList .mram).eraseP (fun fp => fp.fpn == first) =
          ((List.range' (first + 1) n).map (UsedFrame.mk · p)).reverse ++ used := by
        rw [hused, List.eraseP_append_right, List.eraseP_cons_of_pos (by simp)]
        intro fp hfp
        simp only [List.mem_reverse, List.mem_map, List.mem_range'_1] at hfp
        obtain ⟨f, ⟨hle, -⟩, rfl⟩ := hfp
        simp only [beq_iff_eq]
        omega
      rw [List.foldl_cons]
      have hstep : unuseFrame s first =
          { s with
            usedFpList := Function.update s.usedFpList .mram
              (((List.range' (first + 1) n).map (UsedFrame.mk · p)).reverse ++ used)
            freeFpList := Function.update s.freeFpList .mram (first :: s.freeFpList .mram) } := by
        rw [unuseFrame, if_pos hmem, herase]
      rw [hstep]
      have hrest := ih
        (s := { s with
            usedFpList := Function.update s.usedFpList .mram
              (((List.range' (first + 1) n).map (UsedFrame.mk · p)).reverse ++ used)
            freeFpList := Function.update s.freeFpList .mram (first :: s.freeFpList .mram) })
        (show _ = first :: free by simp [hfree])
        (show _ = ((List.range' (first + 1) n).map (UsedFrame.mk · p)).reverse ++ used by simp)
      refine ⟨?_, hrest.2⟩
      rw [hrest.1, List.reverse_cons, List.append_assoc, List.singleton_append]

/-- The frames of a run were taken and, maybe, mapped. -/
structure Taken (s : Sys) (p : Pid) (first n : Nat) (t : Sys) : Prop where
  run : ∀ k < n, first + k ∈ s.freeFpList .mram
  free : t.freeFpList .mram = (s.freeFpList .mram).diff (List.range' first n)
  used : t.usedFpList .mram =
    ((List.range' first n).map (UsedFrame.mk · p)).reverse ++ s.usedFpList .mram
  pte : ∀ a < 2 ^ 64, ¬RunPage first n a → kernelPte t a = kernelPte s a
  change : KernelChange s t

namespace Taken

variable {s t : Sys} {p : Pid} {first n : Nat}

theorem host (h : Taken s p first n t) (host : Nat → Bool) :
    Taken s p first n { t with host := host } :=
  { h with change := h.change.trans ⟨_, _, _, _, rfl⟩ }

theorem first_lt (h : Taken s p first n t) (hs : KernelLists s) (hn : 0 < n) :
    first + n ≤ 2 ^ 19 := by
  have hlast := hs.free _ (h.run (n - 1) (by omega))
  have hmax := hs.maxsz
  simp only [numfp, pageSz] at hlast
  omega

/-- Releasing the run restores the state before it was taken. -/
theorem release (h : Taken s p first n t) (hs : KernelLists s) (hn : 0 < n) {num : Int}
    (hnum : num.toNat = n) :
    Restored s (kernelReleaseContiguousRegion t (kernelVaddrFromFpn first) num) := by
  have hsmall := h.first_lt hs hn
  have hfpn : kernelFpnFromVaddr (kernelVaddrFromFpn first) = first := by
    simp only [kernelFpnFromVaddr, kernelVaddrFromFpn, kmemVaddrBase, pageSz]
    omega
  have hreleased (a : Nat) : Released (kernelVaddrFromFpn first) (List.range n) a ↔
      RunPage first n a := by
    simp only [Released, RunPage, List.mem_range]
    refine exists_congr fun k => and_congr_right fun hk => ?_
    simp only [kernelVaddrFromFpn, kmemVaddrBase, pageSz]
    omega
  have hfold : kernelReleaseContiguousRegion t (kernelVaddrFromFpn first) num =
      (List.range' first n).foldl unuseFrame ((List.range n).foldl (fun s page =>
        clearKernelPte s ((kernelVaddrFromFpn first + page * pageSz) % 2 ^ 64)) t) := by
    rw [kernelReleaseContiguousRegion, hfpn, hnum, List.range'_eq_map_range, List.foldl_map]
  obtain ⟨hfree, hused⟩ := foldl_unuseFrame (p := p) (n := n)
    (s := (List.range n).foldl (fun s page =>
        clearKernelPte s ((kernelVaddrFromFpn first + page * pageSz) % 2 ^ 64)) t)
    (show _ = (s.freeFpList .mram).diff (List.range' first n) by rw [free_foldl_clear, h.free])
    (show _ = ((List.range' first n).map (UsedFrame.mk · p)).reverse ++ s.usedFpList .mram by
      rw [used_foldl_clear, h.used])
  refine ⟨?_, by rw [hfold, hused], fun a ha => ?_, h.change.trans (kernelChange_release ..)⟩
  · rw [hfold, hfree]
    refine ((List.reverse_perm _).append_right _).trans ?_
    refine List.subperm_append_diff_self_of_count_le fun f hf => ?_
    rw [List.count_eq_one_of_mem List.nodup_range' hf]
    obtain ⟨hle, hlt⟩ := List.mem_range'_1.mp hf
    have hmem := h.run (f - first) (by omega)
    rw [Nat.add_sub_cancel' hle] at hmem
    exact List.count_pos_iff.mpr hmem
  · obtain ⟨hin, hout⟩ := kernelPte_foldl_clear (kernelVaddrFromFpn first) (List.range n) t ha
    rw [kernelReleaseContiguousRegion, hnum, kernelPte_foldl_unuse]
    rcases Classical.em (RunPage first n a) with hrun | hrun
    · -- the frames were free, so their entries were zero before
      rw [hin ((hreleased a).mpr hrun)]
      by_contra hne
      obtain ⟨f, hf, hpage⟩ := hs.only a ha (Ne.symm hne)
      obtain ⟨k, hk, hpage'⟩ := hrun
      have heq : first + k = f := by omega
      exact hs.disjoint _ (h.run k hk) (heq ▸ hf)
    · rw [hout (mt (hreleased a).mp hrun)]
      exact h.pte a ha hrun

end Taken

/-- An allocation has taken a run and mapped it, or has restored the state. -/
theorem KernelLists.alloc {s : Sys} (hs : KernelLists s) (p : Pid) (size : Nat) :
    (∃ t, kernelAllocContiguousRegion s p size = (none, t) ∧ Restored s t) ∨
    ∃ first t, 0 < (toInt (pageAlignSz size / pageSz)).toNat ∧
      kernelAllocContiguousRegion s p size =
        (some (kernelVaddrFromFpn first, pageAlignSz size), t) ∧
      Taken s p first (toInt (pageAlignSz size / pageSz)).toNat t := by
  rw [kernelAllocContiguousRegion]
  split
  · exact .inl ⟨s, rfl, .host s _⟩
  · dsimp only
    generalize toInt (pageAlignSz size / pageSz) = n
    obtain heq | heq | ⟨first, hpos, hfree, heq⟩ := kernelAllocateContiguousFrames_cases s p n
    · rw [heq]
      exact .inl ⟨s, rfl, .host s _⟩
    · rw [heq]
      exact .inl ⟨_, rfl, .host s _⟩
    · rw [heq]
      dsimp only
      have hrun (k : Nat) (hk : k < n.toNat) : first + k ∈ s.freeFpList .mram :=
        hfree _ (List.mem_range'_1.mpr ⟨Nat.le_add_right _ _, by omega⟩)
      have hframes : Taken s p first n.toNat
          (framesUsed { s with host := (draw s.host).2 } p (List.range' first n.toNat)) :=
        ⟨hrun, by simp [framesUsed], by simp [framesUsed], fun _ _ _ => rfl, ⟨_, _, _, _, rfl⟩⟩
      have hsmall := hframes.first_lt hs (by omega)
      have htaken : Taken s p first n.toNat
          (kernelMapPages (kernelVaddrFromFpn first) first n.toNat 0
          (framesUsed { s with host := (draw s.host).2 } p (List.range' first n.toNat))).2 := by
        obtain ⟨krnlPgd, host, hmap⟩ := kernelMapPages_eq (kernelVaddrFromFpn first) first n.toNat 0
          (framesUsed { s with host := (draw s.host).2 } p (List.range' first n.toNat))
        refine ⟨hrun, by rw [hmap]; exact hframes.free, by rw [hmap]; exact hframes.used,
          fun a ha hout => ?_, hframes.change.trans (kernelChange_mapPages ..)⟩
        exact (kernelPte_mapPages hsmall (by omega) ha hout).trans (hframes.pte a ha hout)
      generalize kernelMapPages (kernelVaddrFromFpn first) first n.toNat 0
        (framesUsed { s with host := (draw s.host).2 } p (List.range' first n.toNat)) = r
        at htaken ⊢
      obtain ⟨_ | _, t⟩ := r
      · exact .inl ⟨_, rfl, htaken.release hs (by omega) rfl⟩
      · exact .inr ⟨first, t, by omega, rfl, htaken⟩

/-! ### Failed calls -/

/-- The pool with the given id. A record of size zero stands for no pool, as a
place behind the end of the table does. -/
def poolOf (s : Sys) (p : Pid) (id : Nat) : Option KcachePool :=
  (s.kcpooltbl p)[id]?.filter fun pool => pool.size ≠ 0

/-- A record that is not in use is blank. -/
def BlankUnused (s : Sys) : Prop := ∀ p, ∀ pool ∈ s.kcpooltbl p, pool.size = 0 → pool = .zero

/-- Every id has the pool it had and, where unused records are blank, the very
record. -/
def SamePools (s t : Sys) : Prop :=
  (∀ p id, poolOf t p id = poolOf s p id) ∧
  (BlankUnused s → ∀ p id, (t.kcpooltbl p).getD id .zero = (s.kcpooltbl p).getD id .zero)

/-- A failed call leaves the frames, the kernel page table, the regions and
the pools as they were. -/
structure RolledBack (s t : Sys) : Prop where
  free : (t.freeFpList .mram).Perm (s.freeFpList .mram)
  used : t.usedFpList .mram = s.usedFpList .mram
  pte : ∀ a < 2 ^ 64, kernelPte t a = kernelPte s a
  symrgtbl : t.symrgtbl = s.symrgtbl
  pools : SamePools s t

theorem BlankUnused.getD {s : Sys} (h : BlankUnused s) (p : Pid) (id : Nat) :
    (s.kcpooltbl p).getD id .zero = (poolOf s p id).getD .zero := by
  rw [poolOf, List.getD_eq_getElem?_getD]
  cases hpool : (s.kcpooltbl p)[id]? with
  | none => rfl
  | some pool =>
      by_cases hsize : pool.size = 0
      · rw [h p pool (List.mem_of_getElem? hpool) hsize]
        rfl
      · rw [Option.filter_some_pos (by simpa using hsize)]

namespace SamePools

variable {s t : Sys} {p : Pid}

theorem of_blank (hpool : ∀ q id, poolOf t q id = poolOf s q id)
    (hblank : BlankUnused s → BlankUnused t) : SamePools s t :=
  ⟨hpool, fun hs q id => by rw [hs.getD, (hblank hs).getD, hpool]⟩

theorem of_eq (h : t.kcpooltbl = s.kcpooltbl) : SamePools s t :=
  .of_blank (fun _ _ => by rw [poolOf, h]; rfl) fun hs => by rwa [BlankUnused, h]

/-- Only the table of `p` is replaced. -/
theorem setPools {pools : List KcachePool}
    (hpool : ∀ id, pools[id]?.filter (fun pool => pool.size ≠ 0) = poolOf s p id)
    (hblank : BlankUnused s → ∀ pool ∈ pools, pool.size = 0 → pool = .zero)
    (ht : t.kcpooltbl = Function.update s.kcpooltbl p pools) : SamePools s t := by
  refine .of_blank (fun q id => ?_) fun hs q => ?_
  · rcases eq_or_ne q p with rfl | hqp
    · rw [poolOf, ht, Function.update_self, hpool]
    · rw [poolOf, ht, Function.update_of_ne hqp]
      rfl
  · rcases eq_or_ne q p with rfl | hqp
    · rw [ht, Function.update_self]
      exact hblank hs
    · rw [ht, Function.update_of_ne hqp]
      exact hs q

end SamePools

theorem Restored.rolledBack {s t : Sys} (h : Restored s t) : RolledBack s t := by
  obtain ⟨_, _, _, _, heq⟩ := h.change
  exact ⟨h.free, h.used, h.pte, by rw [heq], .of_eq (by rw [heq])⟩

theorem kmalloc_rollsBack {s t : Sys} (hs : KernelLists s) {p : Pid} {rgid size : Nat}
    (h : kmalloc s p rgid size = (none, t)) : RolledBack s t := by
  rw [kmalloc] at h
  split at h
  · cases h
    exact (Restored.host s _).rolledBack
  · obtain ⟨u, heq, hrest⟩ | ⟨first, u, -, heq, -⟩ := hs.alloc p size
    · rw [heq] at h
      cases h
      exact hrest.rolledBack
    · rw [heq] at h
      cases h

/-- The table with `k` more blank records. -/
def grownPools (s : Sys) (p : Pid) (k : Nat) : List KcachePool :=
  s.kcpooltbl p ++ List.replicate k KcachePool.zero

theorem growPools_eq (s : Sys) (p : Pid) (id : Nat) : ∃ host k,
    (growPools s p id).2 =
      { s with host := host, kcpooltbl := Function.update s.kcpooltbl p (grownPools s p k) } := by
  rw [growPools]
  split
  · refine ⟨s.host, 0, ?_⟩
    simp [grownPools]
  · split
    · rename_i host _
      refine ⟨host, 0, ?_⟩
      simp [grownPools]
    · rename_i host _
      exact ⟨host, _, rfl⟩

theorem poolOf_grownPools (s : Sys) (p : Pid) (k id : Nat) :
    (grownPools s p k)[id]?.filter (fun pool => pool.size ≠ 0) = poolOf s p id := by
  rw [grownPools, poolOf]
  rcases Nat.lt_or_ge id (s.kcpooltbl p).length with hlt | hge
  · rw [List.getElem?_append_left hlt]
  · rw [List.getElem?_append_right hge, List.getElem?_eq_none hge, List.getElem?_replicate]
    split <;> rfl

theorem blank_grownPools {s : Sys} (h : BlankUnused s) (p : Pid) (k : Nat) :
    ∀ pool ∈ grownPools s p k, pool.size = 0 → pool = .zero := by
  intro pool hpool hsize
  rcases List.mem_append.mp hpool with hmem | hmem
  · exact h p pool hmem hsize
  · exact List.eq_of_mem_replicate hmem

/-- A record without a pool may be blanked. -/
theorem poolOf_set {pools : List KcachePool} {pool : KcachePool} {id : Nat}
    (hpool : pools[id]? = some pool) (hsize : pool.size = 0) (i : Nat) :
    (pools.set id .zero)[i]?.filter (fun pool => pool.size ≠ 0) =
      pools[i]?.filter (fun pool => pool.size ≠ 0) := by
  rcases eq_or_ne id i with rfl | hne
  · rw [List.getElem?_set_self (List.getElem?_eq_some_iff.mp hpool).1, hpool,
      Option.filter_some_neg (by simp [KcachePool.zero]),
      Option.filter_some_neg (by simpa using hsize)]
  · rw [List.getElem?_set_ne hne]

/-- The table of pools was grown before, and was replaced after, all else was
restored. -/
theorem Restored.rolledBack_of {s t u : Sys} {p : Pid} {host : Nat → Bool}
    {grown pools : List KcachePool}
    (hu : Restored { s with host := host, kcpooltbl := Function.update s.kcpooltbl p grown } u)
    (ht : t = u.setPools p pools)
    (hpool : ∀ id, pools[id]?.filter (fun pool => pool.size ≠ 0) = poolOf s p id)
    (hblank : BlankUnused s → ∀ pool ∈ pools, pool.size = 0 → pool = .zero) : RolledBack s t := by
  subst ht
  obtain ⟨_, _, _, _, heq⟩ := hu.change
  have htbl : (u.setPools p pools).kcpooltbl = Function.update s.kcpooltbl p pools := by
    rw [heq]
    exact Function.update_idem ..
  exact ⟨hu.free, hu.used, hu.pte, by rw [heq]; rfl, .setPools hpool hblank htbl⟩

theorem poolCreate_rollsBack {s t : Sys} (hs : KernelLists s) {p : Pid} {size align id : Nat}
    (h : libkmemCachePoolCreate s p size align id = (-1, t)) : RolledBack s t := by
  have hsame : RolledBack s s := (Restored.host s s.host).rolledBack
  rw [libkmemCachePoolCreate] at h
  split at h
  · cases h
    exact hsame
  · dsimp only at h
    split at h
    · cases h
      exact hsame
    · obtain ⟨host, k, hgrow⟩ := growPools_eq s p id
      generalize growPools s p id = r at hgrow h
      obtain ⟨grown, s₁⟩ := r
      dsimp only at hgrow
      subst hgrow
      have hlists : KernelLists { s with
          host := host, kcpooltbl := Function.update s.kcpooltbl p (grownPools s p k) } :=
        ⟨hs.maxsz, hs.freeNodup, hs.usedNodup, hs.disjoint, hs.free, hs.used, hs.mapped, hs.only⟩
      -- the table may have grown, and all else is restored
      have hgrown (u : Sys) (hu : Restored { s with
          host := host, kcpooltbl := Function.update s.kcpooltbl p (grownPools s p k) } u) :
          RolledBack s u := by
        obtain ⟨_, _, _, _, heq⟩ := hu.change
        refine hu.rolledBack_of ?_ (poolOf_grownPools s p k)
          fun hb => blank_grownPools hb p k
        rw [heq, Sys.setPools, Function.update_idem]
      cases grown with
      | false =>
          cases h
          exact hgrown _ (.host _ _)
      | true =>
          dsimp only at h
          split at h
          · cases h
            exact hgrown _ (.host _ _)
          · rename_i pool hpool
            split at h
            · cases h
              exact hgrown _ (.host _ _)
            · rename_i hsize
              obtain ⟨u, heq, hu⟩ | ⟨first, u, hpos, heq, htaken⟩ := hlists.alloc p size
              · rw [heq] at h
                cases h
                exact hgrown _ hu
              · rw [heq] at h
                dsimp only at h
                split at h
                · rename_i host' _
                  cases h
                  have hback := (htaken.host host').release hlists hpos rfl
                  have htbl := (congrFun hback.kcpooltbl p).trans (Function.update_self ..)
                  rw [Function.update_self] at hpool
                  rw [htbl]
                  refine hback.rolledBack_of rfl (fun i => ?_) fun hb pool' hmem hzero => ?_
                  · rw [poolOf_set hpool (by simpa using hsize), poolOf_grownPools]
                  · rcases List.mem_or_eq_of_mem_set hmem with hmem | rfl
                    · exact blank_grownPools hb p k pool' hmem hzero
                    · rfl
                · cases h

/-- A failed `KMALLOC` or pool creation rolls back, whatever point it fails
at and whatever the host refuses. -/
theorem failed_allocation_rollsBack {s t : Sys} (hs : KernelLists s) (p : Pid)
    (rgid size align id : Nat) :
    (kmalloc s p rgid size = (none, t) → RolledBack s t) ∧
    (libkmemCachePoolCreate s p size align id = (-1, t) → RolledBack s t) :=
  ⟨kmalloc_rollsBack hs, poolCreate_rollsBack hs⟩

/-- Two frames are taken, and then the host refuses the first table. -/
theorem failed_allocation_rollsBack_noTable : ∃ t,
    kmalloc (boot 12288 0 fun n => n == 0) 1 0 8192 = (none, t) ∧
      RolledBack (boot 12288 0 fun n => n == 0) t := by
  have hfail : (kmalloc (boot 12288 0 fun n => n == 0) 1 0 8192).1 = none := by decide +kernel
  have hs := (KernelExact.boot 12288 0 fun n => n == 0).lists (Inv.boot ..)
  have heq : kmalloc (boot 12288 0 fun n => n == 0) 1 0 8192 =
      (none, (kmalloc (boot 12288 0 fun n => n == 0) 1 0 8192).2) := Prod.ext hfail rfl
  exact ⟨_, heq, (failed_allocation_rollsBack hs 1 0 8192 1 0).1 heq⟩

end Ossim.Mem
