import Ossim.Mem.KernelTable

/-!
The kernel page table maps exactly the used frames, each at its own address.

The used list and the kernel page table are changed by separate loops: an
allocation first moves the frames and then maps them, and takes everything
back if a table is missing; a release first clears the entries and then
moves the frames. Between the two loops the table is right for all frames
but those of the range at hand, and the second loop settles these.
-/

namespace Ossim.Mem

open Ossim.Lib

/-! ### What a release takes from the used list -/

/-- The frame is one of those that the release of `pgnum` pages from `base`
on looks for. -/
def Names (base : Nat) (pgnum : Int) (f : Nat) : Prop :=
  ∃ page < pgnum.toNat, f = kernelFpnFromVaddr base + page

theorem used_unuseFrame {s : Sys} {f : Nat}
    (hnodup : ((s.usedFpList .mram).map UsedFrame.fpn).Nodup) :
    (((unuseFrame s f).usedFpList .mram).map UsedFrame.fpn).Nodup ∧
      ∀ fp, fp ∈ (unuseFrame s f).usedFpList .mram ↔
        fp ∈ s.usedFpList .mram ∧ fp.fpn ≠ f := by
  rw [unuseFrame]
  split
  · have herase : ((s.usedFpList .mram).eraseP fun fp => fp.fpn == f).map UsedFrame.fpn =
        ((s.usedFpList .mram).map UsedFrame.fpn).erase f := by
      rw [List.erase_eq_eraseP', List.eraseP_map]
      rfl
    simp only [Function.update_self]
    refine ⟨by rw [herase]; exact hnodup.erase f, fun fp => ⟨fun hmem => ?_, fun hand => ?_⟩⟩
    · refine ⟨List.mem_of_mem_eraseP hmem, ?_⟩
      rintro rfl
      have hfpn := List.mem_map_of_mem (f := UsedFrame.fpn) hmem
      rw [herase] at hfpn
      exact hnodup.not_mem_erase hfpn
    · exact (List.mem_eraseP_of_neg (by simpa using hand.2)).mpr hand.1
  · rename_i hnot
    refine ⟨hnodup, fun fp => ⟨fun hmem => ⟨hmem, ?_⟩, fun hand => hand.1⟩⟩
    rintro rfl
    exact hnot (List.mem_map_of_mem hmem)

/-- A release takes from the used list the frames that it names. -/
theorem used_release {s : Sys} (base : Nat) (pgnum : Int)
    (hnodup : ((s.usedFpList .mram).map UsedFrame.fpn).Nodup) :
    (((kernelReleaseContiguousRegion s base pgnum).usedFpList .mram).map UsedFrame.fpn).Nodup ∧
      ∀ fp, fp ∈ (kernelReleaseContiguousRegion s base pgnum).usedFpList .mram ↔
        fp ∈ s.usedFpList .mram ∧ ¬Names base pgnum fp.fpn := by
  have hgo (l : List Nat) (u : Sys) (hu : ((u.usedFpList .mram).map UsedFrame.fpn).Nodup) :
      (((l.foldl (fun s page => unuseFrame s (kernelFpnFromVaddr base + page)) u).usedFpList
        .mram).map UsedFrame.fpn).Nodup ∧
      ∀ fp, fp ∈ (l.foldl (fun s page => unuseFrame s (kernelFpnFromVaddr base + page))
          u).usedFpList .mram ↔
        fp ∈ u.usedFpList .mram ∧ ∀ page ∈ l, fp.fpn ≠ kernelFpnFromVaddr base + page := by
    induction l generalizing u with
    | nil => exact ⟨hu, fun fp => by simp⟩
    | cons page l ih =>
        obtain ⟨hone, hmem⟩ := used_unuseFrame (f := kernelFpnFromVaddr base + page) hu
        obtain ⟨hall, hmem'⟩ := ih _ hone
        refine ⟨hall, fun fp => ?_⟩
        rw [List.foldl_cons, hmem', hmem]
        simp only [List.forall_mem_cons, and_assoc]
  rw [kernelReleaseContiguousRegion]
  have hclear := used_foldl_clear base (List.range pgnum.toNat) s
  obtain ⟨hall, hmem⟩ := hgo (List.range pgnum.toNat) _ (by rw [hclear]; exact hnodup)
  refine ⟨hall, fun fp => ?_⟩
  rw [hmem, hclear, Names]
  simp only [List.mem_range, not_exists, not_and]

/-! ### The invariant -/

/-- The entry at the address of the frame maps the frame. -/
def MapsFrame (s : Sys) (f : Nat) : Prop :=
  ∀ a < 2 ^ 64, a / pageSz = kmemVaddrBase / pageSz + f → kernelPte s a = presentPte f

/-- Every used frame is mapped, and an entry without a page is zero. That
there is no other page in the table is part of `Inv`. -/
structure KernelExact (s : Sys) : Prop where
  nodup : ((s.usedFpList .mram).map UsedFrame.fpn).Nodup
  clean : ∀ a < 2 ^ 64, kernelPte s a ≠ 0 → pagePresent (kernelPte s a) = true
  mapped : ∀ fp ∈ s.usedFpList .mram, MapsFrame s fp.fpn

theorem toNat_toInt_lt (n : Nat) : (toInt n).toNat < 2 ^ 31 := by
  rw [toInt]
  split <;> omega

namespace KernelExact

variable {s t : Sys}

theorem frame (h : KernelExact s) (hused : t.usedFpList = s.usedFpList)
    (hpgd : t.krnlPgd = s.krnlPgd) : KernelExact t := by
  have hpte (a : Nat) : kernelPte t a = kernelPte s a := by rw [kernelPte, hpgd]; rfl
  refine ⟨by rw [hused]; exact h.nodup, fun a ha => ?_, fun fp hfp a ha hpage => ?_⟩
  · rw [hpte]
    exact h.clean a ha
  · rw [hused] at hfp
    rw [hpte]
    exact h.mapped fp hfp a ha hpage

/-- After a release the table is right, if it was right for the frames that
the release does not name. -/
theorem release_of {base : Nat} {pgnum : Int}
    (hnodup : ((s.usedFpList .mram).map UsedFrame.fpn).Nodup)
    (hclean : ∀ a < 2 ^ 64, kernelPte s a ≠ 0 → pagePresent (kernelPte s a) = true)
    (hmapped : ∀ fp ∈ s.usedFpList .mram, ¬Names base pgnum fp.fpn → MapsFrame s fp.fpn)
    (hbase : kmemVaddrBase ≤ base) (htop : base ≤ 2 ^ 64) (hnum : pgnum.toNat ≤ 2 ^ 35) :
    KernelExact (kernelReleaseContiguousRegion s base pgnum) := by
  obtain ⟨hnodup', hmem⟩ := used_release base pgnum hnodup
  refine ⟨hnodup', fun a ha hne => ?_, fun fp hfp a ha hpage => ?_⟩
  · obtain ⟨hin, hout⟩ := kernelPte_foldl_clear base (List.range pgnum.toNat) s ha
    rw [kernelReleaseContiguousRegion, kernelPte_foldl_unuse] at hne ⊢
    rcases Classical.em (Released base (List.range pgnum.toNat) a) with hrel | hrel
    · exact absurd (hin hrel) hne
    · rw [hout hrel] at hne ⊢
      exact hclean a ha hne
  · obtain ⟨hused, hnot⟩ := (hmem fp).mp hfp
    rw [kernelPte_release ha hpage hbase htop hnum
      fun page hlt heq => hnot ⟨page, hlt, heq⟩]
    exact hmapped fp hused hnot a ha hpage

theorem release (h : KernelExact s) {base : Nat} {n : Nat} (hbase : kmemVaddrBase ≤ base)
    (htop : base ≤ 2 ^ 64) : KernelExact (kernelReleaseContiguousRegion s base (toInt n)) :=
  release_of h.nodup h.clean (fun fp hfp _ => h.mapped fp hfp) hbase htop (by
    have := toNat_toInt_lt n
    omega)

end KernelExact

/-! ### Allocation -/

/-- The mapping loop keeps what is mapped, and maps all its pages if it is
not stopped. -/
theorem kernelMapPages_maps {first left page : Nat} {s : Sys}
    (hlt : first + page + left ≤ 2 ^ 19)
    (hclean : ∀ a < 2 ^ 64, kernelPte s a ≠ 0 → pagePresent (kernelPte s a) = true) :
    let r := kernelMapPages (kernelVaddrFromFpn first) first left page s
    (∀ a < 2 ^ 64, kernelPte r.2 a ≠ 0 → pagePresent (kernelPte r.2 a) = true) ∧
      (∀ f, MapsFrame s f → MapsFrame r.2 f) ∧
      (r.1 = true → ∀ k, page ≤ k → k < page + left → MapsFrame r.2 (first + k)) := by
  induction left generalizing page s with
  | zero => exact ⟨hclean, fun _ hf => hf, fun _ k hle hlt => by omega⟩
  | succ left ih =>
      have haddr : (kernelVaddrFromFpn first + page * pageSz) % 2 ^ 64 =
          kmemVaddrBase + (first + page) * pageSz := by
        simp only [kernelVaddrFromFpn, kmemVaddrBase, pageSz] at *
        omega
      have hlow : 2 ^ 64 - 2 ^ 56 ≤ kmemVaddrBase + (first + page) * pageSz := by
        simp only [kmemVaddrBase]
        omega
      have hhigh : kmemVaddrBase + (first + page) * pageSz < 2 ^ 64 := by
        simp only [kmemVaddrBase, pageSz] at *
        omega
      have hpage : (kmemVaddrBase + (first + page) * pageSz) / pageSz =
          kmemVaddrBase / pageSz + (first + page) := by
        simp only [kmemVaddrBase, pageSz]
        omega
      obtain ⟨krnlPgd, host, -, -, hpte⟩ := kernelMapPage_spec s (first + page) hlow hhigh
      rw [kernelMapPages, haddr]
      generalize kernelMapPage s (kmemVaddrBase + (first + page) * pageSz) (first + page) = r
        at hpte
      obtain ⟨ok, t⟩ := r
      dsimp only at hpte
      have hclean' : ∀ a < 2 ^ 64, kernelPte t a ≠ 0 → pagePresent (kernelPte t a) = true := by
        intro a ha hne
        rw [hpte a ha] at hne ⊢
        split
        · exact pagePresent_presentPte _
        · rename_i hmiss
          rw [if_neg hmiss] at hne
          exact hclean a ha hne
      have hkeeps (f : Nat) (hf : MapsFrame s f) : MapsFrame t f := by
        intro a ha hfa
        rw [hpte a ha]
        split
        · rename_i hhit
          rw [show first + page = f by omega]
        · exact hf a ha hfa
      cases ok with
      | false => exact ⟨hclean', hkeeps, fun hfalse => by cases hfalse⟩
      | true =>
          obtain ⟨hclean'', hkeeps', hmaps⟩ :=
            ih (show first + (page + 1) + left ≤ 2 ^ 19 by omega) hclean'
          refine ⟨hclean'', fun f hf => hkeeps' f (hkeeps f hf), fun hok k hle hlt' => ?_⟩
          rcases Nat.eq_or_lt_of_le hle with rfl | hgt
          · refine hkeeps' _ fun a ha hfa => ?_
            rw [hpte a ha, if_pos ⟨rfl, hfa.trans hpage.symm⟩]
          · exact hmaps hok k hgt (by omega)

/-- An allocation keeps the table exact, whether it succeeds, finds no frames
or is undone for want of a table. -/
theorem KernelExact.alloc {ok : Prop} {s : Sys} (hinv : Inv ok [] [] s) (h : KernelExact s)
    (p : Pid)
    (size : Nat) : KernelExact (kernelAllocContiguousRegion s p size).2 := by
  rw [kernelAllocContiguousRegion]
  split
  · exact h
  · dsimp only
    generalize hn : toInt (pageAlignSz size / pageSz) = n
    have hnum : n.toNat < 2 ^ 31 := hn ▸ toNat_toInt_lt _
    obtain heq | heq | ⟨first, hpos, hfree, heq⟩ := kernelAllocateContiguousFrames_cases s p n
    · rw [heq]
      exact h
    · rw [heq]
      exact h.frame rfl rfl
    · rw [heq]
      dsimp only
      have hmem (k : Nat) (hk : k < n.toNat) : first + k ∈ s.freeFpList .mram :=
        hfree _ (List.mem_range'_1.mpr ⟨Nat.le_add_right _ _, by omega⟩)
      have hlast := (hinv.of_free (hmem (n.toNat - 1) (by omega))).1
      have hframes := hinv.drawHost.framesUsed (p := p) List.nodup_range' hfree
      have hnodup := hframes.nodup_used
      -- the frames before keep their entries, and the new ones are in the range
      have hcases : ∀ fp ∈ (framesUsed { s with host := (draw s.host).2 } p
          (List.range' first n.toNat)).usedFpList .mram,
          (∃ k < n.toNat, fp.fpn = first + k) ∨ fp ∈ s.usedFpList .mram := by
        intro fp hfp
        simp only [framesUsed, Function.update_self, List.mem_append, List.mem_reverse,
          List.mem_map, List.mem_range'_1] at hfp
        rcases hfp with ⟨f, ⟨hle, hlt⟩, rfl⟩ | hfp
        · exact .inl ⟨f - first, by omega, by dsimp only; omega⟩
        · exact .inr hfp
      obtain ⟨hclean, hkeeps, hmaps⟩ := kernelMapPages_maps
        (s := framesUsed { s with host := (draw s.host).2 } p (List.range' first n.toNat))
        (show first + 0 + n.toNat ≤ 2 ^ 19 by omega) h.clean
      have hused := used_kernelMapPages (kernelVaddrFromFpn first) first n.toNat 0
        (framesUsed { s with host := (draw s.host).2 } p (List.range' first n.toNat))
      rw [← hused] at hcases hnodup
      generalize kernelMapPages (kernelVaddrFromFpn first) first n.toNat 0
        (framesUsed { s with host := (draw s.host).2 } p (List.range' first n.toNat)) = r
        at hclean hkeeps hmaps hcases hnodup ⊢
      obtain ⟨_ | _, t⟩ := r
      · have hfirst : kernelVaddrFromFpn first = kmemVaddrBase + first * pageSz := by
          simp only [kernelVaddrFromFpn, kmemVaddrBase, pageSz]
          omega
        have hfpn : kernelFpnFromVaddr (kmemVaddrBase + first * pageSz) = first := by
          simp only [kernelFpnFromVaddr, kmemVaddrBase, pageSz]
          omega
        dsimp only
        rw [hfirst]
        refine KernelExact.release_of hnodup hclean (fun fp hfp hnot => ?_) (Nat.le_add_right _ _)
          (by simp only [kmemVaddrBase, pageSz]; omega) (by omega)
        rcases hcases fp hfp with ⟨k, hk, hfp'⟩ | hold
        · exact absurd ⟨k, hk, by rw [hfpn]; exact hfp'⟩ hnot
        · exact hkeeps _ (h.mapped fp hold)
      · refine ⟨hnodup, hclean, fun fp hfp => ?_⟩
        rcases hcases fp hfp with ⟨k, hk, hfp'⟩ | hold
        · rw [hfp']
          exact hmaps rfl k (Nat.zero_le _) (by omega)
        · exact hkeeps _ (h.mapped fp hold)

/-! ### Instructions -/

namespace KernelExact

variable {ok : Prop} {s t : Sys} {p : Pid}

theorem growPools (h : KernelExact s) (p : Pid) (id : Nat) :
    KernelExact (Mem.growPools s p id).2 := by
  refine h.frame (used_growPools s p id) ?_
  rw [Mem.growPools]
  split
  · rfl
  · split <;> rfl

theorem kmalloc {rgid size : Nat} (hinv : Inv ok [] [] s) (h : KernelExact s)
    (hcase : KmallocCase s p rgid size t) : KernelExact t := by
  have halloc := h.alloc hinv p size
  cases hcase with
  | refused => exact h
  | failed heq =>
      rw [heq] at halloc
      exact halloc
  | taken _ _ _ heq =>
      rw [heq] at halloc
      exact halloc.frame rfl rfl

theorem poolCreate {size align id : Nat} (hinv : Inv ok [] [] s) (h : KernelExact s)
    (hsize : size < 2 ^ 32) (hcase : PoolCreateCase s p size align id t) : KernelExact t := by
  have hinv' := hinv.growPools p id
  have hgrown := h.growPools p id
  have halloc := hgrown.alloc hinv' p size
  have hregion := (allocated hinv' p hsize).region
  cases hcase with
  | refused => exact h
  | grown => exact hgrown
  | failed heq =>
      rw [heq] at halloc
      exact halloc
  | @undone u base sz pool host _ _ heq =>
      rw [heq] at halloc hregion
      obtain ⟨-, hbase, htop, -⟩ := hregion base sz rfl
      have hlast : kmemTop < 2 ^ 64 := by decide
      have hu : KernelExact { u with host := host } := halloc.frame rfl rfl
      exact (hu.release hbase (by omega)).frame rfl rfl
  | @created u base sz pool host _ _ _ _ _ heq =>
      rw [heq] at halloc
      exact halloc.frame rfl rfl

theorem cacheAlloc {rgid id : Nat} (h : KernelExact s) (hcase : CacheAllocCase s p rgid id t) :
    KernelExact t := by
  cases hcase with
  | refused => exact h
  | taken => exact h.frame rfl rfl

theorem run {ins : Inst} {junk : VmRg} {ret : Int} (hinv : Inv ok [] [] s)
    (hp : p ∈ s.runningList) (h : KernelExact s) (hsys : ins.opcode ≠ .syscall)
    (hrun : Mem.run s p ins junk = some (ret, t)) (hlow : (t.mmap p).sbrk ≤ 2 ^ 56) :
    KernelExact t := by
  cases run_cases hsys hrun with
  | refused => exact h
  | access hop hacc => exact h.frame hacc.usedFpList (hinv.krnlPgd_access hp hop hrun)
  | alloc hop halloc => exact h.frame (used_alloc halloc) (hinv.krnlPgd_alloc halloc hlow)
  | free hop => exact h.frame (used_free ..) (krnlPgd_free ..)
  | kmalloc regs hop hcase => exact (h.kmalloc hinv hcase).frame rfl rfl
  | poolCreate hop hcase => exact h.poolCreate hinv (toUint32_lt _) hcase
  | cacheAlloc regs hop hcase => exact (h.cacheAlloc hcase).frame rfl rfl

/-! ### Exit -/

/-- The sweep of `p` on its way. -/
structure Sweeps (p : Pid) (t : Sys) : Prop where
  exact : KernelExact t
  within : Within regionTop (symRegions t p)

namespace Sweeps

theorem setSymrg (h : Sweeps p t) (i : Nat) : Sweeps p (t.setSymrg p i ⟨0, 0⟩) :=
  ⟨h.exact.frame rfl rfl, within_setSymrg (i := i) (v := ⟨0, 0⟩) h.within
    ⟨Nat.le_refl _, Nat.zero_le _⟩⟩

theorem foldl {α : Type} {f : Sys → α → Sys} {l : List α}
    (hf : ∀ a ∈ l, ∀ t, Sweeps p t → Sweeps p (f t a)) (h : Sweeps p t) :
    Sweeps p (l.foldl f t) := by
  induction l generalizing t with
  | nil => exact h
  | cons a l ih =>
      exact ih (fun b hb => hf b (List.mem_cons_of_mem a hb)) (hf a (List.mem_cons_self ..) t h)

theorem release (h : Sweeps p t) {base n : Nat} (hbase : kmemVaddrBase ≤ base)
    (htop : base ≤ 2 ^ 64) : Sweeps p (kernelReleaseContiguousRegion t base (toInt n)) := by
  refine ⟨h.exact.release hbase htop, ?_⟩
  rw [symRegions, (kernelChange_release ..).symrgtbl]
  exact h.within

theorem releasePool (h : Sweeps p t) {pool : KcachePool} (hpool : pool.size = 0 ∨ PoolPlaced pool) :
    Sweeps p (Mem.releasePool p t pool) := by
  rw [Mem.releasePool]
  split
  · exact h
  · rename_i hused
    have hpool := hpool.resolve_left fun hzero => hused (.inl hzero)
    have htop := hpool.top
    have hlast : kmemTop < 2 ^ 64 := by decide
    dsimp only
    rw [if_neg hpool.alloc, if_neg hpool.alloc, clearSymrgRange]
    have hreleased := h.release (n := pool.allocSize / pageSz) hpool.base (by omega)
    split
    · exact hreleased
    · refine hreleased.foldl fun idx _ u hu => ?_
      rw [clearSymrg]
      split
      · exact hu.setSymrg idx
      · exact hu

theorem releaseSymrg (h : Sweeps p t) {idx : Nat} (hidx : idx < maxSymtblSz) :
    Sweeps p (Mem.releaseSymrg p t idx) := by
  rw [Mem.releaseSymrg]
  dsimp only
  split
  · exact h
  · rename_i hkernel
    simp only [isKernelVaddrRange, Bool.not_eq_true', Bool.not_eq_false, Bool.and_eq_true,
      decide_eq_true_eq] at hkernel
    split
    · exact h
    · have hend := h.within _ (mem_symRegions hidx)
      have hlast : regionTop < 2 ^ 64 := by decide
      exact (h.release hkernel.1 (by omega)).setSymrg idx

end Sweeps

theorem exitProc (h : KernelExact s) (hplaced : Placed s p) : KernelExact (Mem.exitProc s p) := by
  have hstart : Sweeps p { s with runningList := s.runningList.erase p } :=
    ⟨h.frame rfl rfl, (within_append.mp hplaced.within).1⟩
  have hpools : Sweeps p (releaseKernelCachePools
      { s with runningList := s.runningList.erase p } p) := by
    have hfold := hstart.foldl (l := s.kcpooltbl p) fun pool hpool u hu =>
      hu.releasePool (hplaced.pools pool hpool)
    exact ⟨hfold.exact.frame rfl rfl, hfold.within⟩
  have hswept : Sweeps p (swept s p) :=
    hpools.foldl fun idx hidx u hu => hu.releaseSymrg (List.mem_range.mp hidx)
  rw [exitProc_eq]
  dsimp only
  generalize swept s p = u at hswept ⊢
  have hmeta := meta_pcbMemphCollect u (u.pgd p)
  have hpgd := krnlPgd_pcbMemphCollect u (u.pgd p)
  generalize pcbMemphCollect u (u.pgd p) = t at hmeta hpgd ⊢
  exact hswept.exact.frame (congrArg Sys.Meta.usedFpList hmeta) hpgd

/-! ### Runs -/

theorem boot (ramSz swpSz : Nat) (host : Nat → Bool) : KernelExact (Mem.boot ramSz swpSz host) := by
  refine ⟨List.nodup_nil, fun a _ hne => absurd ?_ hne, fun fp hfp => (by cases hfp)⟩
  rw [kernelPte]
  split
  · rfl
  · rename_i path _
    cases path
    rfl

theorem step {op : Op} (hinv : PlacedInv ok s) (h : KernelExact s) (hstep : SuppliedStep s op t) :
    KernelExact t := by
  have hlow := (hinv.step hstep).low
  obtain ⟨hstep, hok⟩ := hstep
  obtain ⟨-, hload⟩ | ⟨p, -, hp, rfl⟩ | ⟨p, ins, junk, ret, rfl, hp, hrun⟩ := step_cases hstep
  · simp only [loadProc] at hload
    split at hload
    · cases hload
      exact h.frame rfl rfl
    · cases hload
  · exact h.exitProc (hinv.placed p hp)
  · refine h.run hinv.inv hp hok.1 hrun (hlow p ?_)
    rw [(Private.run hrun).runningList]
    exact hp

end KernelExact

/-- The frame is in the used list of the RAM. -/
def Sys.KernelOwned (s : Sys) (f : Nat) : Prop := f ∈ (s.usedFpList .mram).map UsedFrame.fpn

instance (s : Sys) (f : Nat) : Decidable (s.KernelOwned f) := inferInstanceAs (Decidable (_ ∈ _))

/-- The kernel mapping is linear, and it is exact. -/
structure KernelLinear (s : Sys) : Prop where
  owned : ∀ f < numfp (s.maxsz .mram), s.KernelOwned f →
    pagePresent (kernelPte s (kmemVaddrBase + f * pageSz)) = true ∧
      pteFpn (kernelPte s (kmemVaddrBase + f * pageSz)) = f
  free : ∀ f < numfp (s.maxsz .mram), ¬s.KernelOwned f →
    kernelPte s (kmemVaddrBase + f * pageSz) = 0
  /-- no page is mapped at any other address -/
  only : ∀ a < 2 ^ 64, pagePresent (kernelPte s a) = true →
    ∃ f < numfp (s.maxsz .mram), a / pageSz = (kmemVaddrBase + f * pageSz) / pageSz
  translate : ∀ x, kmemVaddrBase + x < 2 ^ 64 → kernelTranslateVaddr s (kmemVaddrBase + x) =
    if s.KernelOwned (x / pageSz) then some x else none

theorem KernelExact.linear {ok : Prop} {s : Sys} (hinv : Inv ok [] [] s) (h : KernelExact s) :
    KernelLinear s := by
  have hsmall := (hinv.usable .mram).numfp_lt
  have hpage (x : Nat) : (kmemVaddrBase + x) / pageSz = kmemVaddrBase / pageSz + x / pageSz := by
    simp only [kmemVaddrBase, pageSz]
    omega
  have hownedLt (f : Nat) (hf : s.KernelOwned f) : f < numfp (s.maxsz .mram) := by
    obtain ⟨fp, hfp, rfl⟩ := List.mem_map.mp hf
    exact hinv.lt_of_used hfp
  -- the entry of an address of kernel memory
  have hpte (x : Nat) (hx : kmemVaddrBase + x < 2 ^ 64) : kernelPte s (kmemVaddrBase + x) =
      if s.KernelOwned (x / pageSz) then presentPte (x / pageSz) else 0 := by
    split
    · rename_i howned
      obtain ⟨fp, hfp, heq⟩ := List.mem_map.mp howned
      rw [← heq]
      exact h.mapped fp hfp _ hx (by rw [hpage, heq])
    · rename_i hnot
      by_contra hne
      obtain ⟨fp, hfp, -, hfpn⟩ := hinv.kernel _ hx (h.clean _ hx hne)
      rw [hpage, Nat.add_left_cancel_iff] at hfpn
      exact hnot (List.mem_map.mpr ⟨fp, hfp, hfpn.symm⟩)
  have haddr (f : Nat) (hf : f < numfp (s.maxsz .mram)) : kmemVaddrBase + f * pageSz < 2 ^ 64 := by
    simp only [kmemVaddrBase, pageSz]
    omega
  have hdiv (f : Nat) : f * pageSz / pageSz = f := Nat.mul_div_cancel f (by decide)
  refine ⟨fun f hf howned => ?_, fun f hf hnot => ?_, fun a ha hpres => ?_, fun x hx => ?_⟩
  · rw [hpte _ (haddr f hf), hdiv, if_pos howned]
    exact ⟨pagePresent_presentPte f, pteFpn_presentPte (by omega)⟩
  · rw [hpte _ (haddr f hf), hdiv, if_neg hnot]
  · obtain ⟨fp, hfp, -, hfpn⟩ := hinv.kernel a ha hpres
    refine ⟨fp.fpn, hinv.lt_of_used hfp, ?_⟩
    rw [hfpn, hpage, hdiv]
  · rw [kernelTranslateVaddr, hpte x hx]
    split
    · rename_i howned
      have hlt := hownedLt _ howned
      have hmod : (kmemVaddrBase + x) % 2 ^ 12 = x % 2 ^ 12 := by
        simp only [kmemVaddrBase]
        omega
      rw [pagePresent_presentPte, pteFpn_presentPte (by omega), hmod]
      exact congrArg some (Nat.div_add_mod' x (2 ^ 12))
    · rfl

/-- In every run without system calls that is supplied with frames, the
kernel page table maps exactly the used frames. -/
theorem kernel_map_linear {ramSz swpSz : Nat} {host : Nat → Bool} {ops : List Op} {s : Sys}
    (hrun : Run SuppliedStep (boot ramSz swpSz host) ops s) : KernelLinear s := by
  have hinv := hrun.invariant
    (I := fun s => PlacedInv (host = fun _ => true) s ∧ KernelExact s)
    (fun s op t hs hstep => ⟨hs.1.step hstep, hs.2.step hs.1 hstep⟩)
    ⟨.boot ramSz swpSz host, .boot ramSz swpSz host⟩
  exact hinv.2.linear hinv.1.inv

/-- Two processes use kernel memory; the second frees its region, takes a
part of it back by an `ALLOC` and exits. -/
def freedPartExits : List Op :=
  [.load, .load, .inst 1 { opcode := .kmalloc, arg0 := 5000, arg1 := 0 } ⟨0, 0⟩,
    .inst 2 { opcode := .kmalloc, arg0 := 5000, arg1 := 0 } ⟨0, 0⟩,
    .inst 2 { opcode := .free, arg0 := 0 } ⟨0, 0⟩,
    .inst 2 { opcode := .alloc, arg0 := 100, arg1 := 1 } ⟨0, 0⟩, .exit 2]

theorem freedPartExits_isSome :
    (suppliedExec (boot 16384 0 fun _ => true) freedPartExits).isSome = true := by
  decide +kernel

theorem kernel_map_linear_freedPartExits : ∃ s,
    Run SuppliedStep (boot 16384 0 fun _ => true) freedPartExits s ∧
      (s.usedFpList .mram).map UsedFrame.fpn = [3, 1, 0] ∧ KernelLinear s := by
  have hrun := run_of_suppliedExec (Option.some_get freedPartExits_isSome).symm
  exact ⟨_, hrun, by decide +kernel, kernel_map_linear hrun⟩

end Ossim.Mem
