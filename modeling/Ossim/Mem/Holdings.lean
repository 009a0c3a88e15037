import Ossim.Mem.Regions

/-!
Kernel memory a process holds, and what its exit may take.

The exit of a process releases the pages of its pools and of the kernel
regions in its symbol table, and looks the frames up by number. It spares
the other processes as long as every byte of these pages lies in a frame
that the exiting process owns. Three things can break this: an object of a
cache pool that reaches past the pages of its pool, since the region of an
object has the size of the whole pool; a negative size given to the search
for a free region, or a break in the upper half; and the uninitialised
region that a failed growth puts into the free list.
-/

namespace Ossim.Mem

open Ossim.Lib

/-! ### Owned bytes -/

/-- The byte of kernel memory is in a used frame of the process. -/
def Owned (s : Sys) (p : Pid) (x : Nat) : Prop :=
  ∃ fp ∈ s.usedFpList .mram, fp.owner = p ∧ x / pageSz = kmemVaddrBase / pageSz + fp.fpn

/-- No used frame of `p` is lost. -/
def KeepsOwned (p : Pid) (s t : Sys) : Prop :=
  ∀ fp ∈ s.usedFpList .mram, fp.owner = p → fp ∈ t.usedFpList .mram

theorem Owned.mono {s t : Sys} {p : Pid} {x : Nat} (h : Owned s p x) (hst : KeepsOwned p s t) :
    Owned t p x := by
  obtain ⟨fp, hfp, howner, hx⟩ := h
  exact ⟨fp, hst fp hfp howner, howner, hx⟩

/-- Kernel memory ends where the frames end. -/
def kmemTop : Nat := kmemVaddrBase + 2 ^ 31

/-! ### Allocation -/

theorem used_kernelMapPages (start first left page : Nat) (s : Sys) :
    (kernelMapPages start first left page s).2.usedFpList = s.usedFpList := by
  obtain ⟨_, _, h⟩ := kernelMapPages_eq start first left page s
  rw [h]

theorem used_foldl_clear (base : Nat) (pages : List Nat) (s : Sys) :
    (pages.foldl (fun s page => clearKernelPte s ((base + page * pageSz) % 2 ^ 64)) s).usedFpList =
      s.usedFpList := by
  induction pages generalizing s with
  | nil => rfl
  | cons page pages ih =>
      obtain ⟨k, hk⟩ := clearKernelPte_eq s ((base + page * pageSz) % 2 ^ 64)
      rw [List.foldl_cons, ih, hk]

/-- A frame outside the range released stays in the used list. -/
theorem mem_used_release {s : Sys} {base : Nat} {pgnum : Int} {fp : UsedFrame}
    (hfp : fp ∈ s.usedFpList .mram)
    (hout : ∀ page < pgnum.toNat, fp.fpn ≠ kernelFpnFromVaddr base + page) :
    fp ∈ (kernelReleaseContiguousRegion s base pgnum).usedFpList .mram := by
  have hgo (l : List Nat) (hl : ∀ page ∈ l, page < pgnum.toNat) (u : Sys)
      (hu : fp ∈ u.usedFpList .mram) :
      fp ∈ (l.foldl (fun s page => unuseFrame s (kernelFpnFromVaddr base + page)) u).usedFpList
        .mram := by
    induction l generalizing u with
    | nil => exact hu
    | cons page l ih =>
        refine ih (fun page' hmem => hl page' (List.mem_cons_of_mem _ hmem)) _ ?_
        exact (mem_used_unuseFrame (hout page (hl page (List.mem_cons_self ..)))).mpr hu
  refine hgo _ (fun page hmem => List.mem_range.mp hmem) _ ?_
  rw [used_foldl_clear]
  exact hfp

/-- The second loop of a release leaves the kernel page table alone. -/
theorem kernelPte_foldl_unuse (base : Nat) (pages : List Nat) (s : Sys) (a : Nat) :
    kernelPte (pages.foldl (fun s page => unuseFrame s (kernelFpnFromVaddr base + page)) s) a =
      kernelPte s a := by
  induction pages generalizing s with
  | nil => rfl
  | cons page pages ih => rw [List.foldl_cons, ih, kernelPte_unuseFrame]

/-- Outside the range released no entry of the kernel page table changes.
Addresses that wrap around end up in the lower half. -/
theorem kernelPte_release {s : Sys} {base : Nat} {pgnum : Int} {a f : Nat} (ha : a < 2 ^ 64)
    (hpage : a / pageSz = kmemVaddrBase / pageSz + f) (hbase : kmemVaddrBase ≤ base)
    (htop : base ≤ 2 ^ 64) (hnum : pgnum.toNat ≤ 2 ^ 35)
    (hout : ∀ page < pgnum.toNat, f ≠ kernelFpnFromVaddr base + page) :
    kernelPte (kernelReleaseContiguousRegion s base pgnum) a = kernelPte s a := by
  rw [kernelReleaseContiguousRegion, kernelPte_foldl_unuse]
  refine (kernelPte_foldl_clear base _ s ha).2 ?_
  rintro ⟨page, hmem, hsame⟩
  have hlt := List.mem_range.mp hmem
  refine hout page hlt ?_
  simp only [kernelFpnFromVaddr, kmemVaddrBase, pageSz] at *
  omega

/-- What a kernel allocation leaves. -/
structure Allocated (s : Sys) (p : Pid) (size : Nat) (r : Option (Nat × Nat) × Sys) : Prop where
  keeps : ∀ fp ∈ s.usedFpList .mram, fp ∈ r.2.usedFpList .mram
  region : ∀ base sz, r.1 = some (base, sz) → sz = pageAlignSz size ∧ kmemVaddrBase ≤ base ∧
    base + sz ≤ kmemTop ∧ ∀ x, base ≤ x → x < base + sz → Owned r.2 p x
  fresh : ∀ base sz, r.1 = some (base, sz) → ∀ fp ∈ s.usedFpList .mram,
    ∀ page < (toInt (pageAlignSz size / pageSz)).toNat, fp.fpn ≠ kernelFpnFromVaddr base + page

/-- A free frame is in range and not in the used list. -/
theorem Inv.of_free {ok : Prop} {s : Sys} {f : Nat} (h : Inv ok [] [] s)
    (hf : f ∈ s.freeFpList .mram) :
    f < 2 ^ 19 ∧ f ∉ (s.usedFpList .mram).map UsedFrame.fpn := by
  have hcount := h.owners .mram f
  have hpos := List.count_pos_iff.mpr hf
  have hsmall := (h.usable .mram).numfp_lt
  simp only [Sys.owners] at hcount
  split at hcount
  · exact ⟨by omega, by rw [← List.count_eq_zero]; omega⟩
  · omega

theorem allocated {ok : Prop} {s : Sys} (h : Inv ok [] [] s) (p : Pid) {size : Nat}
    (hsize : size < 2 ^ 32) : Allocated s p size (kernelAllocContiguousRegion s p size) := by
  have hsame (host : Nat → Bool) : Allocated s p size (none, { s with host := host }) :=
    ⟨fun _ hfp => hfp, fun _ _ hnone => (by cases hnone), fun _ _ hnone => (by cases hnone)⟩
  rw [kernelAllocContiguousRegion]
  split
  · exact hsame s.host
  · have hpages : (toInt (pageAlignSz size / pageSz)).toNat * pageSz = pageAlignSz size := by
      simp only [toInt, pageAlignSz, pageSz]
      omega
    dsimp only
    generalize hn : toInt (pageAlignSz size / pageSz) = n at hpages ⊢
    obtain heq | heq | ⟨first, hpos, hfree, heq⟩ := kernelAllocateContiguousFrames_cases s p n
    · rw [heq]
      exact hsame s.host
    · rw [heq]
      exact hsame _
    · rw [heq]
      dsimp only
      have hmem (k : Nat) (hk : k < n.toNat) : first + k ∈ s.freeFpList .mram :=
        hfree _ (List.mem_range'_1.mpr ⟨Nat.le_add_right _ _, by omega⟩)
      have hlast := (h.of_free (hmem (n.toNat - 1) (by omega))).1
      have hfirst : kernelVaddrFromFpn first = kmemVaddrBase + first * pageSz := by
        simp only [kernelVaddrFromFpn, kmemVaddrBase, pageSz]
        omega
      have hfpn : kernelFpnFromVaddr (kernelVaddrFromFpn first) = first := by
        rw [hfirst]
        simp only [kernelFpnFromVaddr, kmemVaddrBase, pageSz]
        omega
      have hused := used_kernelMapPages (kernelVaddrFromFpn first) first n.toNat 0
        (framesUsed { s with host := (draw s.host).2 } p (List.range' first n.toNat))
      generalize kernelMapPages (kernelVaddrFromFpn first) first n.toNat 0
        (framesUsed { s with host := (draw s.host).2 } p (List.range' first n.toNat)) = r at hused ⊢
      have hkeeps : ∀ fp ∈ s.usedFpList .mram, fp ∈ r.2.usedFpList .mram := by
        intro fp hfp
        rw [hused]
        simp only [framesUsed, Function.update_self]
        exact List.mem_append_right _ hfp
      have hfresh : ∀ fp ∈ s.usedFpList .mram, ∀ page < n.toNat,
          fp.fpn ≠ kernelFpnFromVaddr (kernelVaddrFromFpn first) + page := by
        intro fp hfp page hpage heq'
        rw [hfpn] at heq'
        exact (h.of_free (hmem page hpage)).2 (heq' ▸ List.mem_map_of_mem hfp)
      obtain ⟨_ | _, t⟩ := r
      · exact ⟨fun fp hfp => mem_used_release (hkeeps fp hfp) (hfresh fp hfp),
          fun _ _ hnone => (by cases hnone), fun _ _ hnone => (by cases hnone)⟩
      · refine ⟨hkeeps, fun base sz hsome => ?_, fun base sz hsome => ?_⟩
        all_goals cases hsome
        rotate_left
        · rw [hn]
          exact hfresh
        rw [hfirst]
        refine ⟨rfl, Nat.le_add_right _ _, ?_, fun x hle hlt => ?_⟩
        · have hbytes : pageAlignSz size = n.toNat * 4096 := hpages.symm
          change kmemVaddrBase + first * 4096 + pageAlignSz size ≤ kmemVaddrBase + 2 ^ 31
          omega
        · refine ⟨⟨x / pageSz - kmemVaddrBase / pageSz, p⟩, ?_, rfl, ?_⟩
          · rw [hused]
            simp only [framesUsed, Function.update_self]
            refine List.mem_append_left _ (List.mem_reverse.mpr (List.mem_map_of_mem ?_))
            refine List.mem_range'_1.mpr ?_
            rw [← hpages] at hlt
            simp only [kmemVaddrBase, pageSz] at hle hlt ⊢
            omega
          · simp only [kmemVaddrBase, pageSz] at hle hlt ⊢
            omega

/-- An allocation starts on a page. -/
theorem aligned_alloc {s t : Sys} {p : Pid} {size base sz : Nat}
    (h : kernelAllocContiguousRegion s p size = (some (base, sz), t)) : base % pageSz = 0 := by
  rw [kernelAllocContiguousRegion] at h
  split at h
  · cases h
  · dsimp only at h
    split at h
    · cases h
    · split at h
      · cases h
      · cases h
        simp only [kernelVaddrFromFpn, kmemVaddrBase, pageSz]
        omega

/-! ### What a process holds -/

/-- The regions of a process, named or free. -/
def regions (s : Sys) (p : Pid) : List VmRg := symRegions s p ++ (s.mmap p).vmFreergList

theorem within_append {bound : Nat} {l l' : List VmRg} :
    Within bound (l ++ l') ↔ Within bound l ∧ Within bound l' := by
  simp only [Within, List.mem_append]
  exact ⟨fun h => ⟨fun rg hrg => h rg (.inl hrg), fun rg hrg => h rg (.inr hrg)⟩,
    fun h rg hrg => hrg.elim (h.1 rg) (h.2 rg)⟩

/-- The regions after one of the free list was given a name. -/
theorem regions_take (s : Sys) (p : Pid) (rgid : Nat) (rg : VmRg) (rest : List VmRg) :
    regions ((s.setMmap p { s.mmap p with vmFreergList := rest }).setSymrg p rgid rg) p =
      symRegions (s.setSymrg p rgid rg) p ++ rest := by
  rw [regions]
  change _ ++ ((s.setMmap p { s.mmap p with vmFreergList := rest }).mmap p).vmFreergList = _
  rw [Sys.mmap_setMmap]
  rfl

/-- The regions after one was put into the free list. -/
theorem regions_give (s : Sys) (p : Pid) (rgid : Nat) :
    regions ((s.setSymrg p rgid ⟨0, 0⟩).setMmap p { s.mmap p with
      vmFreergList := enlistVmRgNode (s.mmap p).vmFreergList (s.symrgtbl p rgid) }) p =
      symRegions (s.setSymrg p rgid ⟨0, 0⟩) p ++
        enlistVmRgNode (s.mmap p).vmFreergList (s.symrgtbl p rgid) := by
  rw [regions, Sys.mmap_setMmap]
  rfl

theorem within_regions_take {bound : Nat} {s : Sys} {p : Pid} {rgid : Nat} {rg : VmRg}
    {rest : List VmRg} (h : Within bound (regions s p))
    (hrg : rg.rgStart ≤ rg.rgEnd ∧ rg.rgEnd ≤ bound) (hrest : Within bound rest) :
    Within bound (regions ((s.setMmap p { s.mmap p with vmFreergList := rest }).setSymrg p rgid rg)
      p) := by
  rw [regions_take]
  exact within_append.mpr ⟨within_setSymrg (within_append.mp h).1 hrg, hrest⟩

theorem within_regions_give {bound : Nat} {s : Sys} {p : Pid} {rgid : Nat}
    (h : Within bound (regions s p)) (hrgid : rgid < maxSymtblSz) :
    Within bound (regions ((s.setSymrg p rgid ⟨0, 0⟩).setMmap p { s.mmap p with
      vmFreergList := enlistVmRgNode (s.mmap p).vmFreergList (s.symrgtbl p rgid) }) p) := by
  obtain ⟨hsym, hfree⟩ := within_append.mp h
  rw [regions_give]
  exact within_append.mpr ⟨within_setSymrg (i := rgid) (v := ⟨0, 0⟩) hsym
    ⟨Nat.le_refl _, Nat.zero_le _⟩,
    within_enlistVmRgNode (.cons (hsym _ (mem_symRegions hrgid)) hfree)⟩

structure PoolHeld (s : Sys) (p : Pid) (pool : KcachePool) : Prop where
  base : kmemVaddrBase ≤ pool.storage
  alloc : pool.allocSize ≠ 0
  top : pool.storage + pool.allocSize ≤ kmemTop
  owned : ∀ x, pool.storage ≤ x → x < pool.storage + pool.allocSize → Owned s p x
  slots : ∀ slab ∈ pool.emptySlabs ++ pool.partialSlabs, ∀ slot ∈ slab.freeList,
    pool.storage ≤ slot

/-- Every byte of kernel memory in a region or pool of the process is in a
frame it owns. -/
structure Holdings (s : Sys) (p : Pid) : Prop where
  within : Within kmemTop (regions s p)
  owned : ∀ x, kmemVaddrBase ≤ x → 0 < cover (regions s p) x → Owned s p x
  pools : ∀ pool ∈ s.kcpooltbl p, pool.size = 0 ∨ PoolHeld s p pool

theorem PoolHeld.mono {s t : Sys} {p : Pid} {pool : KcachePool} (h : PoolHeld s p pool)
    (hst : KeepsOwned p s t) : PoolHeld t p pool :=
  { h with owned := fun x hle hlt => (h.owned x hle hlt).mono hst }

namespace Holdings

variable {s t : Sys} {p q : Pid}

/-- What the others do, and what leaves regions and pools alone. -/
theorem frame (h : Holdings s p) (hregions : regions t p = regions s p)
    (hpools : t.kcpooltbl p = s.kcpooltbl p) (hst : KeepsOwned p s t) : Holdings t p where
  within := hregions ▸ h.within
  owned x hx hcover := by
    rw [hregions] at hcover
    exact (h.owned x hx hcover).mono hst
  pools pool hpool := by
    rw [hpools] at hpool
    exact (h.pools pool hpool).imp_right fun hheld => hheld.mono hst

/-- New regions cover no byte of kernel memory that was not covered, or that
is not owned. -/
theorem setRegions (h : Holdings s p) (hwithin : Within kmemTop (regions t p))
    (hcover : ∀ x, kmemVaddrBase ≤ x → 0 < cover (regions t p) x →
      0 < cover (regions s p) x ∨ Owned t p x)
    (hpools : t.kcpooltbl p = s.kcpooltbl p) (hst : KeepsOwned p s t) : Holdings t p where
  within := hwithin
  owned x hx hcov := (hcover x hx hcov).elim (fun hold => (h.owned x hx hold).mono hst) id
  pools pool hpool := by
    rw [hpools] at hpool
    exact (h.pools pool hpool).imp_right fun hheld => hheld.mono hst

/-- A region moves from the free list into the symbol table. -/
theorem take (h : Holdings s p) {rgid : Nat} (hrgid : rgid < maxSymtblSz) {rg : VmRg}
    {rest : List VmRg} (hrg : rg.rgStart ≤ rg.rgEnd ∧ rg.rgEnd ≤ kmemTop)
    (hrest : Within kmemTop rest)
    (hcover : ∀ x, cover (rg :: rest) x = cover (s.mmap p).vmFreergList x) :
    Holdings ((s.setMmap p { s.mmap p with vmFreergList := rest }).setSymrg p rgid rg) p := by
  refine h.setRegions (within_regions_take h.within hrg hrest) (fun x _ hx => .inl ?_) rfl
    fun _ hfp _ => hfp
  · rw [regions_take, cover_append] at hx
    have hset := cover_setSymrg (s := s) (p := p) hrgid rg x
    have htake := hcover x
    rw [cover_cons] at htake
    rw [regions, cover_append]
    omega

/-- A region moves from the symbol table into the free list. -/
theorem give (h : Holdings s p) {rgid : Nat} (hrgid : rgid < maxSymtblSz) :
    Holdings ((s.setSymrg p rgid ⟨0, 0⟩).setMmap p { s.mmap p with
      vmFreergList := enlistVmRgNode (s.mmap p).vmFreergList (s.symrgtbl p rgid) }) p := by
  obtain ⟨hsym, hfree⟩ := within_append.mp h.within
  have hwithin : Within kmemTop (s.symrgtbl p rgid :: (s.mmap p).vmFreergList) :=
    .cons (hsym _ (mem_symRegions hrgid)) hfree
  refine h.setRegions (within_regions_give h.within hrgid) (fun x _ hx => .inl ?_) rfl
    fun _ hfp _ => hfp
  · have hset := cover_setSymrg (s := s) (p := p) hrgid ⟨0, 0⟩ x
    have hzero : (⟨0, 0⟩ : VmRg).covers x = false := by simp [VmRg.covers]
    rw [hzero] at hset
    simp only [Bool.false_eq_true, if_false] at hset
    rw [regions_give, cover_append, cover_enlistVmRgNode hwithin, cover_cons] at hx
    rw [regions, cover_append]
    omega

/-- A new region in kernel memory, all bytes of which are owned. -/
theorem setSymrg (h : Holdings s p) {rgid : Nat} (hrgid : rgid < maxSymtblSz) {rg : VmRg}
    (hrg : rg.rgStart ≤ rg.rgEnd ∧ rg.rgEnd ≤ kmemTop)
    (howned : ∀ x, rg.rgStart ≤ x → x < rg.rgEnd → Owned s p x) :
    Holdings (s.setSymrg p rgid rg) p := by
  obtain ⟨hsym, hfree⟩ := within_append.mp h.within
  refine h.setRegions (within_append.mpr ⟨within_setSymrg hsym hrg, hfree⟩)
    (fun x _ hx => ?_) rfl fun _ hfp _ => hfp
  have hset := cover_setSymrg (s := s) (p := p) hrgid rg x
  change 0 < cover (symRegions (s.setSymrg p rgid rg) p ++ (s.mmap p).vmFreergList) x at hx
  rw [cover_append] at hx
  rcases Classical.em (rg.covers x = true) with hcov | hcov
  · rw [VmRg.covers_iff] at hcov
    exact .inr (howned x hcov.1 hcov.2)
  · rw [if_neg hcov] at hset
    refine .inl ?_
    rw [regions, cover_append]
    omega

end Holdings

/-! ### ALLOC and FREE -/

theorem mapFrames_count_le (p : Pid) (pgn left pgit : Nat) (frames : List Nat) (s : Sys) :
    (mapFrames p pgn left pgit frames s).2.1 ≤ pgit + left := by
  induction left generalizing pgit frames s with
  | zero => exact Nat.le_refl _
  | succ left ih =>
      cases frames with
      | nil => exact Nat.le_add_right _ _
      | cons f next =>
          rw [mapFrames]
          split
          · exact Nat.le_add_right _ _
          · split
            · exact Nat.le_add_right _ _
            · have := ih (pgit + 1) next
              refine (this _).trans ?_
              omega

/-- The region that a growth puts into the free list ends at or below the
new break. -/
theorem grown_region {s : Sys} {p : Pid} {inc : Nat} {junk : VmRg} (href : ¬Refused s p inc)
    (hok : ¬GrowthFails s p inc junk) :
    ∃ e, (s.mmap p).sbrk ≤ e ∧ e ≤ newBreak s p inc ∧
      ((grown s p inc junk).mmap p).vmFreergList =
        enlistVmRgNode (s.mmap p).vmFreergList ⟨(s.mmap p).sbrk, e⟩ ∧
      (grown s p inc junk).symrgtbl = s.symrgtbl ∧
      (grown s p inc junk).kcpooltbl = s.kcpooltbl ∧
      (grown s p inc junk).usedFpList = s.usedFpList := by
  obtain ⟨hmeta, -, -⟩ := allocPagesRange_spec (breakMoved s p inc) p (incNumPage inc)
  simp only [GrowthFails, not_or, not_not] at hok
  obtain ⟨halloc, hmap⟩ := hok
  have hlt : (s.mmap p).sbrk < newBreak s p inc := Nat.not_le.mp fun hle => href (.inr hle)
  have hpages := toInt_toNat_le (pageAlignSz inc / pageSz)
  rw [← incNumPage] at hpages
  rw [grown, vmMapRam]
  generalize allocPagesRange (breakMoved s p inc) p (incNumPage inc) = r at hmeta halloc hmap ⊢
  obtain ⟨code, frames, s₁⟩ := r
  simp only at hmeta halloc hmap
  subst halloc
  have hmeta' := meta_vmapPageRange s₁ p (s.mmap p).sbrk (incNumPage inc) frames junk
  dsimp only
  rw [if_neg (by omega), if_neg (by decide), if_neg hmap]
  have hrg : ∃ k ≤ (incNumPage inc).toNat,
      (vmapPageRange s₁ p (s.mmap p).sbrk (incNumPage inc) frames junk).2.1 =
        ⟨(s.mmap p).sbrk, ((s.mmap p).sbrk + k * pageSz) % 2 ^ 64⟩ := by
    rw [vmapPageRange] at hmap ⊢
    dsimp only at hmap ⊢
    split at hmap
    · exact absurd rfl hmap
    · rename_i hvalid
      rw [if_neg hvalid]
      split at hmap
      · exact absurd rfl hmap
      · refine ⟨_, ?_, rfl⟩
        exact (mapFrames_count_le ..).trans (Nat.le_of_eq (Nat.zero_add _))
  obtain ⟨k, hk, hrg⟩ := hrg
  generalize vmapPageRange s₁ p (s.mmap p).sbrk (incNumPage inc) frames junk = r at hrg hmeta' ⊢
  obtain ⟨code, rg, s₂⟩ := r
  simp only at hrg hmeta'
  subst hrg
  have hall := hmeta'.trans hmeta
  have hmmap : s₂.mmap p = (breakMoved s p inc).mmap p := congrFun (congrArg Sys.Meta.mmap hall) p
  rw [breakMoved, Sys.mmap_setMmap] at hmmap
  have hbytes := Nat.mul_le_mul_right pageSz (hk.trans hpages)
  have hdiv := Nat.div_mul_le_self (pageAlignSz inc) pageSz
  have hsmall : (s.mmap p).sbrk + k * pageSz ≤ newBreak s p inc ∧ newBreak s p inc < 2 ^ 64 := by
    have halign : pageAlignSz inc < 2 ^ 64 := by
      simp only [pageAlignSz, pageSz]
      omega
    simp only [newBreak] at hlt ⊢
    omega
  refine ⟨(s.mmap p).sbrk + k * pageSz, Nat.le_add_right _ _, hsmall.1, ?_,
    congrArg Sys.Meta.symrgtbl hall, congrArg Sys.Meta.kcpooltbl hall,
    congrArg Sys.Meta.usedFpList hall⟩
  dsimp only
  rw [Sys.mmap_setMmap, hmmap, Nat.mod_eq_of_lt (by omega)]

/-- The used frames, the names and the pools stay as they are: what the
search of a free region and the growth of an area do. -/
structure SameRecords (s t : Sys) : Prop where
  used : t.usedFpList = s.usedFpList
  running : t.runningList = s.runningList
  symrgtbl : t.symrgtbl = s.symrgtbl
  kcpooltbl : t.kcpooltbl = s.kcpooltbl

theorem sameRecords_getFreeVmrgArea (s : Sys) (p : Pid) (size : Int) :
    SameRecords s (getFreeVmrgArea s p size).2 := by
  rw [getFreeVmrgArea]
  split
  · exact ⟨rfl, rfl, rfl, rfl⟩
  · dsimp only
    split <;> exact ⟨rfl, rfl, rfl, rfl⟩

theorem SameRecords.trans {s t u : Sys} (h : SameRecords s t) (h' : SameRecords t u) :
    SameRecords s u :=
  ⟨h'.used.trans h.used, h'.running.trans h.running, h'.symrgtbl.trans h.symrgtbl,
    h'.kcpooltbl.trans h.kcpooltbl⟩

theorem sameRecords_incVmaLimit {s t : Sys} {p : Pid} {vmaid : Int} {inc : Nat} {junk : VmRg}
    {ret : Int} (h : incVmaLimit s p vmaid inc junk = some (ret, t)) : SameRecords s t := by
  obtain ⟨-, rfl⟩ | ⟨-, -, rfl⟩ := incVmaLimit_cases h
  · exact ⟨rfl, rfl, rfl, rfl⟩
  · have hmeta := meta_vmMapRam (breakMoved s p inc) p (s.mmap p).sbrk (incNumPage inc) junk
    exact ⟨congrArg Sys.Meta.usedFpList hmeta, congrArg Sys.Meta.runningList hmeta,
      congrArg Sys.Meta.symrgtbl hmeta, congrArg Sys.Meta.kcpooltbl hmeta⟩

/-- An `ALLOC` changes one name at most, and none if it fails. -/
theorem alloc_records {s t : Sys} {p : Pid} {rgid size : Nat} {junk : VmRg} {ret : Int}
    (h : alloc s p rgid size junk = some (ret, t)) :
    SameRecords s t ∨ ∃ u rg, SameRecords s u ∧ rgid < maxSymtblSz ∧ ret = 0 ∧
      t = u.setSymrg p rgid rg := by
  rw [alloc] at h
  split at h
  · cases h
    exact .inl ⟨rfl, rfl, rfl, rfl⟩
  · rename_i hargs
    have hrgid : rgid < maxSymtblSz := Nat.not_le.mp (not_or.mp hargs).1
    have hfirst := sameRecords_getFreeVmrgArea s p (toInt size)
    generalize getFreeVmrgArea s p (toInt size) = r at h hfirst
    obtain ⟨_ | rg, s₁⟩ := r
    · dsimp only at h
      split at h
      · cases h
        exact .inl hfirst
      · split at h
        · cases h
        · rename_i sret s₂ hs₂
          have hgrown := hfirst.trans (sameRecords_incVmaLimit hs₂)
          have hsecond := hgrown.trans (sameRecords_getFreeVmrgArea s₂ p (toInt size))
          split at h
          · cases h
            exact .inl hgrown
          · generalize getFreeVmrgArea s₂ p (toInt size) = r at h hsecond
            obtain ⟨_ | rg, s₃⟩ := r
            · cases h
              exact .inl hsecond
            · cases h
              exact .inr ⟨s₃, rg, hsecond, hrgid, rfl, rfl⟩
    · cases h
      exact .inr ⟨s₁, rg, hfirst, hrgid, rfl, rfl⟩

theorem used_alloc {s t : Sys} {p : Pid} {rgid size : Nat} {junk : VmRg} {ret : Int}
    (h : alloc s p rgid size junk = some (ret, t)) : t.usedFpList = s.usedFpList := by
  obtain hsame | ⟨u, rg, hsame, -, -, rfl⟩ := alloc_records h
  · exact hsame.used
  · exact hsame.used

namespace Holdings

variable {s t : Sys} {p q : Pid}

/-- A growth into the lower half adds a region below kernel memory. -/
theorem grow (h : Holdings s p) {inc : Nat} {junk : VmRg} (href : ¬Refused s p inc)
    (hok : ¬GrowthFails s p inc junk) (hlow : newBreak s p inc ≤ 2 ^ 56) :
    Holdings (grown s p inc junk) p := by
  obtain ⟨e, hle, hend, hfree, hsym, hpools, hused⟩ := grown_region href hok
  obtain ⟨hwsym, hwfree⟩ := within_append.mp h.within
  have hbase : 2 ^ 56 ≤ kmemVaddrBase := by decide
  have htop : 2 ^ 56 ≤ kmemTop := by decide
  have hwithin : Within kmemTop (⟨(s.mmap p).sbrk, e⟩ :: (s.mmap p).vmFreergList) :=
    .cons ⟨hle, by dsimp only; omega⟩ hwfree
  have hregions : regions (grown s p inc junk) p =
      symRegions s p ++ enlistVmRgNode (s.mmap p).vmFreergList ⟨(s.mmap p).sbrk, e⟩ := by
    rw [regions, hfree, symRegions, hsym]
    rfl
  refine h.setRegions ?_ (fun x hx hcov => .inl ?_) (congrFun hpools p)
    fun fp hfp _ => by rw [hused]; exact hfp
  · rw [hregions]
    exact within_append.mpr ⟨hwsym, within_enlistVmRgNode hwithin⟩
  · have hout : (⟨(s.mmap p).sbrk, e⟩ : VmRg).covers x ≠ true := by
      rw [Ne, VmRg.covers_iff]
      dsimp only
      omega
    rw [hregions, cover_append, cover_enlistVmRgNode hwithin, cover_cons, if_neg hout] at hcov
    rw [regions, cover_append]
    omega

theorem alloc (h : Holdings s p) {rgid size : Nat} {junk : VmRg} {ret : Int}
    (hsize : 0 ≤ toInt size)
    (hok : getFreeVmrgArea s p (toInt size) = (none, s) →
      newBreak s p (allocInc size) ≤ 2 ^ 56 ∧
      (Refused s p (allocInc size) ∨ ¬GrowthFails s p (allocInc size) junk))
    (halloc : Mem.alloc s p rgid size junk = some (ret, t)) : Holdings t p := by
  have hgrow {u : Sys} (hgrows : Grows s p size junk u) : Holdings u p := by
    obtain ⟨-, hnone, href, rfl⟩ := hgrows
    obtain ⟨hlow, hok⟩ := hok hnone
    exact h.grow href (hok.resolve_left href) hlow
  have htop : kmemTop + 2 ^ 31 < 2 ^ 64 := by decide
  cases alloc_cases htop hsize (within_append.mp h.within).2
    (fun u hgrows => (within_append.mp (hgrow hgrows).within).2) halloc with
  | refused host => exact h.frame rfl rfl fun _ hfp _ => hfp
  | grown hgrows => exact hgrow hgrows
  | @taken u rg rest hu hrgid htake =>
      have hu : Holdings u p := hu.elim (fun heq => heq ▸ h) hgrow
      have hint : ofInt (toInt size) < 2 ^ 31 := by
        simp only [toInt, ofInt] at hsize ⊢
        omega
      obtain ⟨hend, hle, hwithin, hcover⟩ :=
        takeFree_spec (within_append.mp hu.within).2 (by omega) htake
      exact hu.take hrgid ⟨by omega, hle⟩ hwithin hcover

theorem free (h : Holdings s p) (rgid : Nat) : Holdings (Mem.free s p rgid).2 p := by
  rw [Mem.free]
  split
  · exact h
  · rename_i hrgid
    dsimp only
    split
    · exact h
    · split
      · exact h.frame rfl rfl fun _ hfp _ => hfp
      · rename_i host hd
        have hdraw : Holdings { s with host := host } p := h.frame rfl rfl fun _ hfp _ => hfp
        exact hdraw.give (Nat.not_le.mp hrgid)

end Holdings

/-! ### KMALLOC and cache pools -/

/-- What `takeSlot` keeps of a pool. -/
theorem takeSlot_spec {pool pool' : KcachePool} {slot : Nat}
    (h : takeSlot pool = some (slot, pool')) :
    pool'.size = pool.size ∧ pool'.storage = pool.storage ∧ pool'.allocSize = pool.allocSize ∧
      (∃ slab ∈ pool.emptySlabs ++ pool.partialSlabs, slot ∈ slab.freeList) ∧
      ∀ slab' ∈ pool'.emptySlabs ++ pool'.partialSlabs, ∀ x ∈ slab'.freeList,
        ∃ slab ∈ pool.emptySlabs ++ pool.partialSlabs, x ∈ slab.freeList := by
  obtain ⟨size, align, slotCount, storage, allocSize, emptySlabs, partialSlabs, fullSlabs⟩ := pool
  rw [takeSlot] at h
  dsimp only at h ⊢
  split at h
  · split at h
    · cases h
    · rename_i slab rest _ slot' slots hslots
      have hhead : slot' ∈ slab.freeList := by rw [hslots]; exact List.mem_cons_self ..
      have htail : ∀ x ∈ slots, x ∈ slab.freeList := by
        intro x hx
        rw [hslots]
        exact List.mem_cons_of_mem _ hx
      split at h
      · cases h
        refine ⟨rfl, rfl, rfl, ⟨slab, by simp, hhead⟩, fun slab' hslab x hx => ⟨slab', ?_, hx⟩⟩
        simp only [List.mem_append, List.mem_cons] at hslab ⊢
        exact hslab.imp_right .inr
      · cases h
        refine ⟨rfl, rfl, rfl, ⟨slab, by simp, hhead⟩, fun slab' hslab x hx => ?_⟩
        simp only [List.mem_append, List.mem_cons] at hslab
        obtain hslab | rfl | hslab := hslab
        · exact ⟨slab', by simp [hslab], hx⟩
        · exact ⟨slab, by simp, htail x hx⟩
        · exact ⟨slab', by simp [hslab], hx⟩
  · split at h
    · cases h
    · rename_i slab rest _ slot' slots hslots
      have hhead : slot' ∈ slab.freeList := by rw [hslots]; exact List.mem_cons_self ..
      have htail : ∀ x ∈ slots, x ∈ slab.freeList := by
        intro x hx
        rw [hslots]
        exact List.mem_cons_of_mem _ hx
      split at h
      · cases h
        refine ⟨rfl, rfl, rfl, ⟨slab, by simp, hhead⟩, fun slab' hslab x hx => ⟨slab', ?_, hx⟩⟩
        simp only [List.append_nil, List.mem_cons] at hslab ⊢
        exact .inr hslab
      · cases h
        refine ⟨rfl, rfl, rfl, ⟨slab, by simp, hhead⟩, fun slab' hslab x hx => ?_⟩
        simp only [List.mem_append, List.mem_singleton] at hslab
        obtain hslab | rfl := hslab
        · exact ⟨slab', by simp [hslab], hx⟩
        · exact ⟨slab, by simp, htail x hx⟩
  · cases h

theorem PoolHeld.takeSlot {s : Sys} {p : Pid} {pool pool' : KcachePool} {slot : Nat}
    (h : PoolHeld s p pool) (htake : Mem.takeSlot pool = some (slot, pool')) :
    PoolHeld s p pool' ∧ pool.storage ≤ slot := by
  obtain ⟨-, hstorage, halloc, ⟨slab, hslab, hslot⟩, hslots⟩ := takeSlot_spec htake
  refine ⟨⟨?_, ?_, ?_, ?_, fun slab' hslab' x hx => ?_⟩, h.slots slab hslab slot hslot⟩
  · rw [hstorage]
    exact h.base
  · rw [halloc]
    exact h.alloc
  · rw [hstorage, halloc]
    exact h.top
  · rw [hstorage, halloc]
    exact h.owned
  · obtain ⟨slab, hslab, hx⟩ := hslots slab' hslab' x hx
    rw [hstorage]
    exact h.slots slab hslab x hx

namespace Holdings

variable {s t : Sys} {p q : Pid}

theorem setPools (h : Holdings s p) {pools : List KcachePool}
    (hpools : ∀ pool ∈ pools, pool.size = 0 ∨ PoolHeld s p pool) :
    Holdings (s.setPools p pools) p where
  within := h.within
  owned := h.owned
  pools pool hpool := by
    rw [Sys.setPools] at hpool
    simp only [Function.update_self] at hpool
    exact (hpools pool hpool).imp_right fun hheld => hheld.mono fun _ hfp _ => hfp

/-- Replacing one pool. -/
theorem setPool (h : Holdings s p) {id : Nat} {pool : KcachePool}
    (hpool : pool.size = 0 ∨ PoolHeld s p pool) :
    Holdings (s.setPools p ((s.kcpooltbl p).set id pool)) p := by
  refine h.setPools fun pool' hmem => ?_
  rcases List.mem_or_eq_of_mem_set hmem with hmem | rfl
  · exact h.pools pool' hmem
  · exact hpool

theorem of_kernel (h : Holdings s p) (hst : KernelChange s t) (hkeeps : KeepsOwned p s t) :
    Holdings t p := by
  obtain ⟨_, _, _, _, rfl⟩ := hst
  exact h.frame rfl rfl hkeeps

theorem returnAddr {reg : Nat} {r : Option Nat × Sys} {ret : Int} (h : Holdings r.2 p)
    (hr : Mem.returnAddr p reg r = some (ret, t)) : Holdings t p := by
  obtain ⟨_ | addr, u⟩ := r
  · cases hr
    exact h
  · rw [Mem.returnAddr] at hr
    split at hr
    · cases hr
    · cases hr
      exact h.frame rfl rfl fun _ hfp _ => hfp

theorem kmalloc {ok : Prop} (hinv : Inv ok [] [] s) (h : Holdings s p) {rgid size : Nat}
    (hsize : size < 2 ^ 32) : Holdings (Mem.kmalloc s p rgid size).2 p := by
  have halloc := allocated hinv p hsize
  have hchange := kernelChange_alloc s p size
  rw [Mem.kmalloc]
  split
  · exact h
  · rename_i hargs
    generalize kernelAllocContiguousRegion s p size = r at halloc hchange ⊢
    have hkept : Holdings r.2 p := h.of_kernel hchange fun fp hfp _ => halloc.keeps fp hfp
    obtain ⟨_ | ⟨base, sz⟩, u⟩ := r
    · exact hkept
    · obtain ⟨rfl, hbase, htop, howned⟩ := halloc.region base sz rfl
      have hle : size ≤ pageAlignSz size := by
        simp only [pageAlignSz, pageSz]
        omega
      have hlast : kmemTop < 2 ^ 64 := by decide
      dsimp only
      rw [Nat.mod_eq_of_lt (by omega)]
      refine hkept.setSymrg (by omega) ⟨by dsimp only; omega, by dsimp only; omega⟩ ?_
      intro x hlo hhi
      dsimp only at hlo hhi
      exact howned x hlo (by omega)

theorem kmemCacheAlloc (h : Holdings s p) {rgid id : Nat}
    (hfits : ∀ slot ∈ (Mem.kmemCacheAlloc s p rgid id).1, ∀ pool ∈ (s.kcpooltbl p)[id]?,
      slot + pool.size ≤ pool.storage + pool.allocSize) :
    Holdings (Mem.kmemCacheAlloc s p rgid id).2 p := by
  rw [Mem.kmemCacheAlloc] at hfits ⊢
  split
  · exact h
  · rename_i hargs
    rw [if_neg hargs] at hfits
    cases hpool : (s.kcpooltbl p)[id]? with
    | none => exact h
    | some pool =>
        rw [hpool] at hfits
        dsimp only at hfits ⊢
        split
        · exact h
        · rename_i hfree
          rw [if_neg hfree] at hfits
          cases htake : takeSlot pool with
          | none => exact h
          | some r =>
              obtain ⟨slot, pool'⟩ := r
              rw [htake] at hfits
              dsimp only at hfits ⊢
              have hend := hfits slot rfl pool rfl
              have hheld := (h.pools pool (List.mem_of_getElem? hpool)).resolve_left (by omega)
              obtain ⟨hheld', hslot⟩ := hheld.takeSlot htake
              have hlast : kmemTop < 2 ^ 64 := by decide
              have htop := hheld.top
              rw [(takeSlot_spec htake).1, Nat.mod_eq_of_lt (by omega)]
              refine (h.setPool (.inr hheld')).setSymrg (by omega)
                ⟨by dsimp only; omega, by dsimp only; omega⟩ ?_
              intro x hlo hhi
              dsimp only at hlo hhi
              exact (hheld.owned x (by omega) (by omega)).mono fun _ hfp _ => hfp

theorem growPools (h : Holdings s p) (id : Nat) : Holdings (Mem.growPools s p id).2 p := by
  rw [Mem.growPools]
  split
  · exact h
  · split
    · exact h.frame rfl rfl fun _ hfp _ => hfp
    · rename_i host hd
      have hdraw : Holdings { s with host := host } p := h.frame rfl rfl fun _ hfp _ => hfp
      refine hdraw.setPools fun pool hmem => ?_
      rcases List.mem_append.mp hmem with hmem | hmem
      · exact hdraw.pools pool hmem
      · rw [List.eq_of_mem_replicate hmem]
        exact .inl rfl

end Holdings

theorem used_growPools (s : Sys) (p : Pid) (id : Nat) :
    (growPools s p id).2.usedFpList = s.usedFpList := by
  rw [growPools]
  split
  · rfl
  · split <;> rfl

/-- The pool that a creation puts into the table. -/
theorem poolHeld_create {s : Sys} {p : Pid} {size align base : Nat} (hsize : size < 2 ^ 32)
    (hpos : 0 < size) (hbase : kmemVaddrBase ≤ base) (htop : base + pageAlignSz size ≤ kmemTop)
    (howned : ∀ x, base ≤ x → x < base + pageAlignSz size → Owned s p x) :
    PoolHeld s p
      { size := size / align * align
        align := align
        slotCount := size / align * align / align
        storage := base
        allocSize := pageAlignSz size
        emptySlabs := [createCacheSlab base align (size / align * align / align)]
        partialSlabs := []
        fullSlabs := [] } where
  base := hbase
  alloc := by
    simp only [pageAlignSz, pageSz]
    omega
  top := htop
  owned := howned
  slots slab hslab slot hslot := by
    simp only [List.append_nil, List.mem_singleton] at hslab
    subst hslab
    obtain ⟨idx, hidx, rfl⟩ := List.mem_map.mp hslot
    have hfit : idx * align ≤ size := by
      refine (Nat.mul_le_mul_right align (Nat.le_of_lt (List.mem_range.mp hidx))).trans ?_
      exact (Nat.div_mul_le_self _ _).trans (Nat.div_mul_le_self _ _)
    have hlast : kmemTop + 2 ^ 32 < 2 ^ 64 := by decide
    dsimp only
    omega

/-- The creation of a pool, also when it gives its frames back. -/
theorem libkmemCachePoolCreate_keeps {ok : Prop} {s : Sys} (hinv : Inv ok [] [] s) (p : Pid)
    {size align id : Nat} (hsize : size < 2 ^ 32) :
    (∀ fp ∈ s.usedFpList .mram,
      fp ∈ (libkmemCachePoolCreate s p size align id).2.usedFpList .mram) ∧
      (Holdings s p → Holdings (libkmemCachePoolCreate s p size align id).2 p) := by
  rw [libkmemCachePoolCreate]
  split
  · exact ⟨fun _ hfp => hfp, fun h => h⟩
  · rename_i hargs
    dsimp only
    split
    · exact ⟨fun _ hfp => hfp, fun h => h⟩
    · have hinv₁ := hinv.growPools p id
      have hused₁ := congrFun (used_growPools s p id) .mram
      have hheld₁ : Holdings s p → Holdings (growPools s p id).2 p := fun h => h.growPools id
      rw [← hused₁]
      generalize growPools s p id = r at hinv₁ hheld₁ ⊢
      obtain ⟨_ | _, s₁⟩ := r
      · exact ⟨fun _ hfp => hfp, hheld₁⟩
      · dsimp only at hinv₁ hheld₁ ⊢
        split
        · exact ⟨fun _ hfp => hfp, hheld₁⟩
        · split
          · exact ⟨fun _ hfp => hfp, hheld₁⟩
          · have halloc := allocated hinv₁ p hsize
            have hchange := kernelChange_alloc s₁ p size
            generalize kernelAllocContiguousRegion s₁ p size = r at halloc hchange ⊢
            have hkept : Holdings s p → Holdings r.2 p := fun h =>
              (hheld₁ h).of_kernel hchange fun fp hfp _ => halloc.keeps fp hfp
            obtain ⟨_ | ⟨base, sz⟩, s₂⟩ := r
            · exact ⟨halloc.keeps, hkept⟩
            · obtain ⟨rfl, hbase, htop, howned⟩ := halloc.region base sz rfl
              dsimp only
              split
              · rename_i host hd
                have hkeeps : ∀ fp ∈ s₁.usedFpList .mram, fp ∈ (kernelReleaseContiguousRegion
                    { s₂ with host := host } base
                      (toInt (pageAlignSz size / pageSz))).usedFpList .mram := fun fp hfp =>
                  mem_used_release (halloc.keeps fp hfp) (halloc.fresh base _ rfl fp hfp)
                have hrel := kernelChange_release { s₂ with host := host } base
                  (toInt (pageAlignSz size / pageSz))
                have hall : KernelChange s₁ (kernelReleaseContiguousRegion
                    { s₂ with host := host } base (toInt (pageAlignSz size / pageSz))) :=
                  (hchange.trans ⟨_, _, _, _, rfl⟩).trans hrel
                exact ⟨hkeeps, fun h =>
                  ((hheld₁ h).of_kernel hall fun fp hfp _ => hkeeps fp hfp).setPool (.inl rfl)⟩
              · rename_i host hd
                refine ⟨halloc.keeps, fun h => ?_⟩
                have hdraw : Holdings { s₂ with host := host } p :=
                  (hkept h).frame rfl rfl fun _ hfp _ => hfp
                exact hdraw.setPool (.inr (poolHeld_create hsize (by omega) hbase htop howned))

end Ossim.Mem
