import Ossim.Mem.Holdings

/-!
Exit takes nothing from the processes that stay.

The sweep of `free_pcb_memph` finds the frames to release by their number.
It spares the others in every state of every run in which the kernel regions
of a process stay on its own pages.
-/

namespace Ossim.Mem

open Ossim.Lib

/-! ### Instructions -/

theorem used_returnAddr {s t : Sys} {p : Pid} {reg : Nat} {r : Option Nat × Sys} {ret : Int}
    (hr : returnAddr p reg r = some (ret, t))
    (h : ∀ fp ∈ s.usedFpList .mram, fp ∈ r.2.usedFpList .mram) :
    ∀ fp ∈ s.usedFpList .mram, fp ∈ t.usedFpList .mram := by
  obtain ⟨_ | addr, u⟩ := r
  · cases hr
    exact h
  · rw [returnAddr] at hr
    split at hr
    · cases hr
    · cases hr
      exact h

theorem used_kmalloc {ok : Prop} {s : Sys} (hinv : Inv ok [] [] s) (p : Pid) {rgid size : Nat}
    (hsize : size < 2 ^ 32) :
    ∀ fp ∈ s.usedFpList .mram, fp ∈ (kmalloc s p rgid size).2.usedFpList .mram := by
  have halloc := allocated hinv p hsize
  rw [kmalloc]
  split
  · exact fun _ hfp => hfp
  · generalize kernelAllocContiguousRegion s p size = r at halloc ⊢
    obtain ⟨_ | ⟨base, sz⟩, u⟩ := r <;> exact halloc.keeps

theorem used_kmemCacheAlloc (s : Sys) (p : Pid) (rgid id : Nat) :
    (kmemCacheAlloc s p rgid id).2.usedFpList = s.usedFpList := by
  rw [kmemCacheAlloc]
  split
  · rfl
  · split
    · rfl
    · dsimp only
      split
      · rfl
      · split <;> rfl

theorem used_free (s : Sys) (p : Pid) (rgid : Nat) :
    (free s p rgid).2.usedFpList = s.usedFpList := by
  rw [free]
  split
  · rfl
  · dsimp only
    split
    · rfl
    · split <;> rfl

/-- No instruction but a system call takes a frame out of the used list. -/
theorem used_run {ok : Prop} {s t : Sys} {p : Pid} {ins : Inst} {junk : VmRg} {ret : Int}
    (hinv : Inv ok [] [] s) (hop : ins.opcode ≠ .syscall)
    (h : run s p ins junk = some (ret, t)) :
    ∀ fp ∈ s.usedFpList .mram, fp ∈ t.usedFpList .mram := by
  have hsame {u : Sys} (hu : u.usedFpList = s.usedFpList) :
      ∀ fp ∈ s.usedFpList .mram, fp ∈ u.usedFpList .mram := by
    rw [hu]
    exact fun _ hfp => hfp
  rw [run] at h
  split at h
  · cases h
    exact hsame rfl
  · exact hsame (used_alloc h)
  · rw [libkmemMalloc] at h
    split at h
    · cases h
      exact hsame rfl
    · exact used_returnAddr h (used_kmalloc hinv p (toUint32_lt _))
  · rw [← snd_eq_of_some h]
    exact (libkmemCachePoolCreate_keeps hinv p (toUint32_lt _)).1
  · rw [libkmemCacheAlloc] at h
    split at h
    · cases h
      exact hsame rfl
    · exact used_returnAddr h (hsame (used_kmemCacheAlloc ..))
  · rw [← snd_eq_of_some h, libkmemCopyFromUser]
    split
    · exact hsame rfl
    · exact hsame (Accesses.copyFromUser ..).usedFpList
  · rw [← snd_eq_of_some h, libkmemCopyToUser]
    split
    · exact hsame rfl
    · exact hsame (Accesses.copyToUser ..).usedFpList
  · rw [← snd_eq_of_some h]
    exact hsame (used_free ..)
  · exact hsame (Accesses.libread h).usedFpList
  · rw [← snd_eq_of_some h]
    exact hsame (Accesses.libwrite ..).usedFpList
  · contradiction

/-- An instruction that leaves the kernel regions of its process on pages
of this process. An `ALLOC` asks for a size that is not negative as an
`int`, and its growth, if it needs one that is not refused, stays in the
lower half and obtains its frames; an object from a cache pool, taken to be
as long as the whole pool, ends within the pages of the pool; there is no
system call. -/
def Inst.Confined (s : Sys) (p : Pid) (ins : Inst) (junk : VmRg) : Prop :=
  ins.opcode ≠ .syscall ∧
  (ins.opcode = .alloc → toUint32 ins.arg1.toNat < maxSymtblSz → 0 ≤ toInt ins.arg0.toNat) ∧
  (∀ inc ∈ growthRequest s p ins, newBreak s p inc ≤ 2 ^ 56 ∧
    (Refused s p inc ∨ ¬GrowthFails s p inc junk)) ∧
  (ins.opcode = .kmemCacheAlloc →
    ∀ slot ∈ (kmemCacheAlloc s p (toUint32 ins.arg1.toNat) (toUint32 ins.arg0.toNat)).1,
      ∀ pool ∈ (s.kcpooltbl p)[toUint32 ins.arg0.toNat]?,
        slot + pool.size ≤ pool.storage + pool.allocSize)

instance (s : Sys) (p : Pid) (ins : Inst) (junk : VmRg) : Decidable (ins.Confined s p junk) :=
  inferInstanceAs (Decidable (_ ∧ (_ → _ → _) ∧ (∀ inc ∈ growthRequest s p ins, _) ∧ (_ → _)))

def Op.Confined (s : Sys) : Op → Prop
  | .inst p ins junk => ins.Confined s p junk
  | _ => True

instance (s : Sys) : (op : Op) → Decidable (op.Confined s)
  | .inst p ins junk => inferInstanceAs (Decidable (ins.Confined s p junk))
  | .load => inferInstanceAs (Decidable True)
  | .exit _ => inferInstanceAs (Decidable True)

/-- A confined instruction keeps what its process holds. -/
theorem Holdings.run {ok : Prop} {s t : Sys} {p : Pid} {ins : Inst} {junk : VmRg} {ret : Int}
    (hinv : Inv ok [] [] s) (h : Holdings s p) (hconf : ins.Confined s p junk)
    (hrun : Mem.run s p ins junk = some (ret, t)) : Holdings t p := by
  obtain ⟨hsys, hsize, hgrow, hfits⟩ := hconf
  have hacc {u : Sys} (hu : Accesses s u) : Holdings u p := by
    refine h.frame ?_ (congrFun hu.kcpooltbl p) fun fp hfp _ => ?_
    · rw [regions, regions, symRegions, symRegions, hu.mmap, hu.symrgtbl]
    · rw [hu.usedFpList]
      exact hfp
  rw [Mem.run] at hrun
  split at hrun
  · cases hrun
    exact h
  · rename_i hop
    rcases Nat.lt_or_ge (toUint32 ins.arg1.toNat) maxSymtblSz with hrgid | hrgid
    · rcases eq_or_ne ins.arg0.toNat 0 with hzero | hpos
      · rw [Mem.alloc, if_pos (.inr hzero)] at hrun
        cases hrun
        exact h
      · refine h.alloc (hsize hop hrgid) (fun hnone => hgrow _ ?_) hrun
        rw [growthRequest, hop, hnone]
        exact if_neg (by simp [hpos, hrgid])
    · rw [Mem.alloc, if_pos (.inl hrgid)] at hrun
      cases hrun
      exact h
  · rw [libkmemMalloc] at hrun
    split at hrun
    · cases hrun
      exact h
    · exact (h.kmalloc hinv (toUint32_lt _)).returnAddr hrun
  · rw [← snd_eq_of_some hrun]
    exact (libkmemCachePoolCreate_keeps hinv p (toUint32_lt _)).2 h
  · rename_i hop
    rw [libkmemCacheAlloc] at hrun
    split at hrun
    · cases hrun
      exact h
    · exact (h.kmemCacheAlloc (hfits hop)).returnAddr hrun
  · rw [← snd_eq_of_some hrun, libkmemCopyFromUser]
    split
    · exact h
    · exact hacc (.copyFromUser ..)
  · rw [← snd_eq_of_some hrun, libkmemCopyToUser]
    split
    · exact h
    · exact hacc (.copyToUser ..)
  · rw [← snd_eq_of_some hrun]
    exact h.free _
  · exact hacc (.libread hrun)
  · rw [← snd_eq_of_some hrun]
    exact hacc (.libwrite ..)
  · contradiction

/-! ### The sweep -/

/-- What the others keep while the memory of `p` is released: their used
frames, and the kernel entries that map them. -/
structure Spares (p : Pid) (s t : Sys) : Prop where
  used : ∀ fp ∈ s.usedFpList .mram, fp.owner ≠ p → fp ∈ t.usedFpList .mram
  pte : ∀ fp ∈ s.usedFpList .mram, fp.owner ≠ p → ∀ a < 2 ^ 64,
    a / pageSz = kmemVaddrBase / pageSz + fp.fpn → kernelPte t a = kernelPte s a

namespace Spares

variable {p : Pid} {s t u : Sys}

theorem refl (p : Pid) (s : Sys) : Spares p s s :=
  ⟨fun _ hfp _ => hfp, fun _ _ _ _ _ _ => rfl⟩

/-- Nothing happens to used frames and to the kernel page table. -/
theorem of_eq (h : Spares p s t) (hused : u.usedFpList = t.usedFpList)
    (hpgd : u.krnlPgd = t.krnlPgd) : Spares p s u where
  used fp hfp hne := by
    rw [hused]
    exact h.used fp hfp hne
  pte fp hfp hne a ha hpage := by
    rw [← h.pte fp hfp hne a ha hpage, kernelPte, kernelPte, hpgd]

/-- Releasing pages that `p` owned at the start. -/
theorem release (hinv : ∀ fp ∈ s.usedFpList .mram, ∀ fp' ∈ s.usedFpList .mram,
      fp.fpn = fp'.fpn → fp = fp') (h : Spares p s t) {base : Nat} {pgnum : Int}
    (hbase : kmemVaddrBase ≤ base) (htop : base + pgnum.toNat * pageSz ≤ 2 ^ 64)
    (howned : ∀ page < pgnum.toNat, Owned s p (base + page * pageSz)) :
    Spares p s (kernelReleaseContiguousRegion t base pgnum) := by
  have hout : ∀ fp ∈ s.usedFpList .mram, fp.owner ≠ p → ∀ page < pgnum.toNat,
      fp.fpn ≠ kernelFpnFromVaddr base + page := by
    intro fp hfp hne page hpage heq
    obtain ⟨fp', hfp', howner, hx⟩ := howned page hpage
    have hsame : fp.fpn = fp'.fpn := by
      simp only [kernelFpnFromVaddr, kmemVaddrBase, pageSz] at *
      omega
    rw [hinv fp hfp fp' hfp' hsame] at hne
    exact hne howner
  exact
  { used := fun fp hfp hne => mem_used_release (h.used fp hfp hne) (hout fp hfp hne)
    pte := fun fp hfp hne a ha hpage => by
      rw [kernelPte_release ha hpage hbase (by omega) (by
        simp only [kmemVaddrBase, pageSz] at *
        omega) (hout fp hfp hne)]
      exact h.pte fp hfp hne a ha hpage }

end Spares

/-- The sweep of `p` on its way: the regions it has not cleared are those it
started with. -/
structure Sweeping (p : Pid) (s t : Sys) : Prop where
  spares : Spares p s t
  sym : ∀ i, t.symrgtbl p i = s.symrgtbl p i ∨ t.symrgtbl p i = ⟨0, 0⟩

theorem KernelChange.symrgtbl {s t : Sys} (h : KernelChange s t) : t.symrgtbl = s.symrgtbl := by
  obtain ⟨_, _, _, _, rfl⟩ := h
  rfl

/-- No frame is twice in the used list. -/
theorem Inv.nodup_used {ok : Prop} {s : Sys} (h : Inv ok [] [] s) :
    ((s.usedFpList .mram).map UsedFrame.fpn).Nodup := by
  refine List.nodup_iff_count_le_one.mpr fun x => ?_
  have hcount := h.owners .mram x
  simp only [Sys.owners] at hcount
  split at hcount <;> omega

theorem Inv.used_inj {ok : Prop} {s : Sys} (h : Inv ok [] [] s) :
    ∀ fp ∈ s.usedFpList .mram, ∀ fp' ∈ s.usedFpList .mram, fp.fpn = fp'.fpn → fp = fp' :=
  fun _ hfp _ hfp' heq => List.inj_on_of_nodup_map h.nodup_used hfp hfp' heq

namespace Sweeping

variable {ok : Prop} {p : Pid} {s t : Sys}

theorem setSymrg (h : Sweeping p s t) (i : Nat) : Sweeping p s (t.setSymrg p i ⟨0, 0⟩) where
  spares := h.spares.of_eq rfl rfl
  sym j := by
    simp only [Sys.setSymrg, Function.update_self]
    rcases eq_or_ne j i with rfl | hne
    · exact .inr (Function.update_self ..)
    · rw [Function.update_of_ne hne]
      exact h.sym j

theorem foldl {α : Type} {f : Sys → α → Sys} {l : List α}
    (hf : ∀ a ∈ l, ∀ t, Sweeping p s t → Sweeping p s (f t a)) (h : Sweeping p s t) :
    Sweeping p s (l.foldl f t) := by
  induction l generalizing t with
  | nil => exact h
  | cons a l ih =>
      exact ih (fun b hb => hf b (List.mem_cons_of_mem a hb)) (hf a (List.mem_cons_self ..) t h)

theorem clearSymrgRange (h : Sweeping p s t) (start stop : Nat) :
    Sweeping p s (Mem.clearSymrgRange t p start stop) := by
  rw [Mem.clearSymrgRange]
  split
  · exact h
  · refine h.foldl fun idx _ u hu => ?_
    rw [clearSymrg]
    split
    · exact hu.setSymrg idx
    · exact hu

theorem release (h : Sweeping p s t) (hinv : Inv ok [] [] s) {base : Nat} {pgnum : Int}
    (hbase : kmemVaddrBase ≤ base) (htop : base + pgnum.toNat * pageSz ≤ 2 ^ 64)
    (howned : ∀ page < pgnum.toNat, Owned s p (base + page * pageSz)) :
    Sweeping p s (kernelReleaseContiguousRegion t base pgnum) where
  spares := h.spares.release hinv.used_inj hbase htop howned
  sym i := by
    rw [(kernelChange_release ..).symrgtbl]
    exact h.sym i

/-- A pool lies in frames of its process. -/
theorem releasePool (h : Sweeping p s t) (hinv : Inv ok [] [] s) (hheld : Holdings s p)
    {pool : KcachePool} (hpool : pool ∈ s.kcpooltbl p) :
    Sweeping p s (Mem.releasePool p t pool) := by
  rw [Mem.releasePool]
  split
  · exact h
  · rename_i hused
    have hpool := (hheld.pools pool hpool).resolve_left fun hzero => hused (.inl hzero)
    have htop := hpool.top
    have hlast : kmemTop < 2 ^ 64 := by decide
    dsimp only
    rw [if_neg hpool.alloc, if_neg hpool.alloc]
    have hpages : (toInt (pool.allocSize / pageSz)).toNat * pageSz ≤ pool.allocSize :=
      (Nat.mul_le_mul_right _ (toInt_toNat_le _)).trans (Nat.div_mul_le_self _ _)
    refine (h.release hinv hpool.base (by omega) fun page hpage => ?_).clearSymrgRange _ _
    have hlt := Nat.mul_lt_mul_of_pos_right hpage (show 0 < pageSz by decide)
    exact hpool.owned _ (Nat.le_add_right _ _) (by omega)

/-- A kernel region lies in frames of its process. -/
theorem releaseSymrg (h : Sweeping p s t) (hinv : Inv ok [] [] s) (hheld : Holdings s p)
    {idx : Nat} (hidx : idx < maxSymtblSz) : Sweeping p s (Mem.releaseSymrg p t idx) := by
  rw [Mem.releaseSymrg]
  dsimp only
  split
  · exact h
  · rename_i hkernel
    simp only [isKernelVaddrRange, Bool.not_eq_true', Bool.not_eq_false, Bool.and_eq_true,
      decide_eq_true_eq] at hkernel
    split
    · exact h
    · have hrg : t.symrgtbl p idx = s.symrgtbl p idx := by
        refine (h.sym idx).resolve_right fun hzero => ?_
        rw [hzero] at hkernel
        exact absurd hkernel.2 (Nat.lt_irrefl 0)
      rw [hrg] at hkernel ⊢
      obtain ⟨hbase, hlt⟩ := hkernel
      have hmem : s.symrgtbl p idx ∈ regions s p :=
        List.mem_append_left _ (mem_symRegions hidx)
      have htop := (hheld.within _ hmem).2
      generalize s.symrgtbl p idx = rg at hbase hlt hmem htop
      have hlast : kmemTop + 2 ^ 32 < 2 ^ 64 := by decide
      have hpages : (toInt (pageAlignSz (rg.rgEnd - rg.rgStart) / pageSz)).toNat * pageSz ≤
          pageAlignSz (rg.rgEnd - rg.rgStart) :=
        (Nat.mul_le_mul_right _ (toInt_toNat_le _)).trans (Nat.div_mul_le_self _ _)
      have halign : pageAlignSz (rg.rgEnd - rg.rgStart) < rg.rgEnd - rg.rgStart + pageSz := by
        simp only [pageAlignSz, pageSz]
        omega
      have hpage : pageSz = 4096 := rfl
      refine (h.release hinv hbase (by omega) fun page hlt' => ?_).setSymrg idx
      have hle := Nat.mul_le_mul_right pageSz (Nat.succ_le_of_lt hlt')
      have hx : rg.rgStart + page * pageSz < rg.rgEnd := by
        rw [Nat.succ_mul] at hle
        omega
      refine hheld.owned _ (by omega) (cover_pos.mpr ⟨rg, hmem, ?_⟩)
      rw [VmRg.covers_iff]
      omega

theorem swept (hinv : Inv ok [] [] s) (hheld : Holdings s p) : Sweeping p s (Mem.swept s p) := by
  have hstart : Sweeping p s { s with runningList := s.runningList.erase p } :=
    ⟨(Spares.refl p s).of_eq rfl rfl, fun _ => .inl rfl⟩
  have hpools : Sweeping p s (releaseKernelCachePools
      { s with runningList := s.runningList.erase p } p) := by
    have hfold := hstart.foldl (l := s.kcpooltbl p) fun pool hpool u hu =>
      hu.releasePool hinv hheld hpool
    exact ⟨hfold.spares.of_eq rfl rfl, hfold.sym⟩
  exact hpools.foldl fun idx hidx u hu => hu.releaseSymrg hinv hheld (List.mem_range.mp hidx)

end Sweeping

theorem krnlPgd_pcbMemphCollect (s : Sys) (table : PageTable) :
    (pcbMemphCollect s table).krnlPgd = s.krnlPgd := by
  rw [pcbMemphCollect]
  induction table.entries generalizing s with
  | nil => rfl
  | cons v l ih =>
      rw [List.foldl_cons, ih, collectPte]
      split
      · rw [memphyPutFreefp]
        split <;> rfl
      · split
        · rw [memphyPutFreefp]
          split <;> rfl
        · rfl

theorem exitProc_spares {ok : Prop} {s : Sys} {p : Pid} (hinv : Inv ok [] [] s)
    (hheld : Holdings s p) : Spares p s (exitProc s p) := by
  have hswept := (Sweeping.swept hinv hheld).spares
  have hmeta := meta_pcbMemphCollect (swept s p) ((swept s p).pgd p)
  have hpgd := krnlPgd_pcbMemphCollect (swept s p) ((swept s p).pgd p)
  rw [exitProc_eq]
  dsimp only
  generalize pcbMemphCollect (swept s p) ((swept s p).pgd p) = t at hmeta hpgd ⊢
  generalize swept s p = u at hswept hmeta hpgd
  exact hswept.of_eq (congrArg Sys.Meta.usedFpList hmeta) hpgd

/-! ### Runs -/

def HoldStep (s : Sys) (op : Op) (t : Sys) : Prop := step s op = some t ∧ op.Confined s

/-- The same, as a function. -/
def holdExec : Sys → List Op → Option Sys :=
  exec (guarded step fun s op _ => decide (op.Confined s))

theorem run_of_holdExec {s t : Sys} {ops : List Op} (h : holdExec s ops = some t) :
    Run HoldStep s ops t :=
  run_of_exec_guarded (fun _ _ _ hstep hok => ⟨hstep, of_decide_eq_true hok⟩) h

theorem HoldStep.growthStep {s t : Sys} {op : Op} (h : HoldStep s op t) : GrowthStep s op t := by
  refine ⟨h.1, ?_, ?_⟩
  · cases op with
    | inst p ins junk => exact fun hop => absurd hop h.2.1
    | load => trivial
    | exit p => trivial
  · cases op with
    | inst p ins junk => exact fun inc hinc => (h.2.2.2.1 inc hinc).1
    | load => trivial
    | exit p => trivial

namespace Holdings

variable {ok : Prop} {s t : Sys} {p q : Pid}

theorem of_empty (hmmap : t.mmap p = ⟨0, 0, 0, []⟩) (hsym : t.symrgtbl p = fun _ => ⟨0, 0⟩)
    (hpools : t.kcpooltbl p = []) : Holdings t p := by
  have hempty := RegionInv.of_empty hmmap hsym
  have hnone : (t.mmap p).sbrk = 0 := by rw [hmmap]
  have hwithin : Within 0 (regions t p) :=
    within_append.mpr ⟨hnone ▸ hempty.sym, hnone ▸ hempty.free⟩
  refine ⟨hwithin.mono (Nat.zero_le _), fun x _ hcov => ?_, fun pool hpool => ?_⟩
  · obtain ⟨rg, hmem, hx⟩ := cover_pos.mp hcov
    have := hwithin rg hmem
    rw [VmRg.covers_iff] at hx
    omega
  · rw [hpools] at hpool
    cases hpool

theorem of_private (h : Holdings s p) (hpriv : Private q s t) (hne : p ≠ q)
    (hkeeps : KeepsOwned p s t) : Holdings t p := by
  refine h.frame ?_ (hpriv.kcpooltbl p hne) hkeeps
  rw [regions, regions, symRegions, symRegions, hpriv.mmap p hne, hpriv.symrgtbl p hne]

/-- Every process keeps what it holds, whoever takes the step. -/
theorem step {op : Op} (hinv : Inv ok [] [] s) (h : ∀ p ∈ s.runningList, Holdings s p)
    (hstep : HoldStep s op t) : ∀ p ∈ t.runningList, Holdings t p := by
  intro p hp
  obtain ⟨hstep, hconf⟩ := hstep
  obtain ⟨-, hload⟩ | ⟨q, -, hq, rfl⟩ | ⟨q, ins, junk, ret, rfl, hq, hrun⟩ := step_cases hstep
  · simp only [loadProc] at hload
    split at hload
    · cases hload
      rcases eq_or_ne p s.availPid with rfl | hne
      · exact of_empty (Function.update_self ..) (Function.update_self ..)
          (Function.update_self ..)
      · refine (h p (by simpa [hne] using hp)).frame ?_ (Function.update_of_ne hne ..)
          fun _ hfp _ => hfp
        rw [regions, regions, symRegions, symRegions]
        simp only [Function.update_of_ne hne]
    · cases hload
  · have hpriv := exitProc_private s q
    have hspares := exitProc_spares hinv (h q hq)
    rw [hpriv.runningList] at hp
    obtain ⟨hne, hp⟩ := hinv.nodup.mem_erase_iff.mp hp
    have hleft : Holdings { s with runningList := s.runningList.erase q } p :=
      (h p hp).frame rfl rfl fun _ hfp _ => hfp
    exact hleft.of_private hpriv hne fun fp hfp howner =>
      hspares.used fp hfp (by rw [howner]; exact hne)
  · have hpriv := Private.run hrun
    rw [hpriv.runningList] at hp
    rcases eq_or_ne p q with rfl | hne
    · exact (h p hp).run hinv hconf hrun
    · exact (h p hp).of_private hpriv hne fun fp hfp _ => used_run hinv hconf.1 hrun fp hfp

end Holdings

theorem holdings_of_run {ramSz swpSz : Nat} {host : Nat → Bool} {ops : List Op} {s : Sys}
    (hrun : Run HoldStep (boot ramSz swpSz host) ops s) :
    Inv (host = fun _ => true) [] [] s ∧ ∀ p ∈ s.runningList, Holdings s p := by
  have hinv := hrun.invariant
    (I := fun s => (Inv (host = fun _ => true) [] [] s ∧ s.LowBreaks) ∧
      ∀ p ∈ s.runningList, Holdings s p)
    (fun s op t hs hstep => ⟨Inv.growthStep hs.1 hstep.growthStep, Holdings.step hs.1.1 hs.2 hstep⟩)
    ⟨⟨.boot ramSz swpSz host, fun p hp => by cases hp⟩, fun p hp => by cases hp⟩
  exact ⟨hinv.1.1, hinv.2⟩

/-- The exit of `p` leaves every other live process as it was. -/
structure ExitSpares (s : Sys) (p : Pid) : Prop where
  used : ∀ d, ∀ fp ∈ s.usedFpList d, fp.owner ∈ s.runningList → fp.owner ≠ p →
    fp ∈ (exitProc s p).usedFpList d
  kernelPte : ∀ fp ∈ s.usedFpList .mram, fp.owner ∈ s.runningList → fp.owner ≠ p →
    ∀ addr < 2 ^ 64, pagePresent (kernelPte s addr) = true →
      pteFpn (kernelPte s addr) = fp.fpn → kernelPte (exitProc s p) addr = kernelPte s addr
  pgd : ∀ q ∈ s.runningList, q ≠ p → (exitProc s p).pgd q = s.pgd q
  mmap : ∀ q ∈ s.runningList, q ≠ p → (exitProc s p).mmap q = s.mmap q
  symrgtbl : ∀ q ∈ s.runningList, q ≠ p → (exitProc s p).symrgtbl q = s.symrgtbl q
  kcpooltbl : ∀ q ∈ s.runningList, q ≠ p → (exitProc s p).kcpooltbl q = s.kcpooltbl q

theorem Holdings.exitSpares {ok : Prop} {s : Sys} {p : Pid} (hinv : Inv ok [] [] s)
    (hheld : Holdings s p) : ExitSpares s p := by
  have hspares := exitProc_spares hinv hheld
  have hpriv := exitProc_private s p
  refine ⟨fun d fp hfp _ hne => ?_, fun fp hfp _ hne addr haddr hpres hfpn => ?_,
    fun q _ _ => ?_, fun q _ hq => hpriv.mmap q hq, fun q _ hq => hpriv.symrgtbl q hq,
    fun q _ hq => hpriv.kcpooltbl q hq⟩
  · cases d with
    | mram => exact hspares.used fp hfp hne
    | mswp =>
        rw [hinv.swpUsed] at hfp
        cases hfp
  · obtain ⟨fp', hfp', hpte, hpage⟩ := hinv.kernel addr haddr hpres
    have hlt := hinv.lt_of_used hfp'
    have hsmall := (hinv.usable .mram).numfp_lt
    rw [hpte, pteFpn_presentPte (by omega)] at hfpn
    rw [hfpn] at hpage
    exact hspares.pte fp hfp hne addr haddr hpage
  · rw [exitProc_eq]
    dsimp only
    rw [pgd_pcbMemphCollect]
    exact congrFun (swept_change s p).pgd q

/-- In every run of confined instructions, every exit from every state that
is reached takes nothing from the processes that stay. -/
theorem exit_spares {ramSz swpSz : Nat} {host : Nat → Bool} {ops : List Op} {s : Sys} {p : Pid}
    (hrun : Run HoldStep (boot ramSz swpSz host) ops s) (hp : p ∈ s.runningList) :
    ExitSpares s p := by
  obtain ⟨hinv, hheld⟩ := holdings_of_run hrun
  exact (hheld p hp).exitSpares hinv

/-- Process 1 makes a pool of two pages with slots of one page, and process
2 gets the page behind it. -/
def poolThenPage : List Op :=
  [.load, .load,
    .inst 1 { opcode := .kmemCacheCreate, arg0 := 8192, arg1 := 4096, arg2 := 0 } ⟨0, 0⟩,
    .inst 2 { opcode := .kmalloc, arg0 := 100, arg1 := 0 } ⟨0, 0⟩,
    .inst 1 { opcode := .kmemCacheAlloc, arg0 := 0, arg1 := 0 } ⟨0, 0⟩]

theorem poolThenPage_isSome :
    (holdExec (boot 12288 0 fun _ => true) poolThenPage).isSome = true := by
  decide +kernel

/-- With one object taken from the pool, the exit is clean. -/
theorem exit_spares_poolThenPage : ∃ s,
    Run HoldStep (boot 12288 0 fun _ => true) poolThenPage s ∧ 1 ∈ s.runningList ∧
    ExitSpares s 1 := by
  have hrun := run_of_holdExec (Option.some_get poolThenPage_isSome).symm
  have hlive : 1 ∈ ((holdExec (boot 12288 0 fun _ => true) poolThenPage).get
      poolThenPage_isSome).runningList := by decide +kernel
  exact ⟨_, hrun, hlive, exit_spares hrun hlive⟩

/-- Process 1 takes the second object as well: its region is two pages long
and ends behind the pool, on the page of process 2. -/
def secondObject : Op := .inst 1 { opcode := .kmemCacheAlloc, arg0 := 0, arg1 := 1 } ⟨0, 0⟩

theorem secondObject_isSome :
    (exec step (boot 12288 0 fun _ => true) (poolThenPage ++ [secondObject])).isSome = true := by
  decide +kernel

theorem secondObject_not_spared : ∃ s,
    Run (Step step) (boot 12288 0 fun _ => true) (poolThenPage ++ [secondObject]) s ∧
    1 ∈ s.runningList ∧ 2 ∈ s.runningList ∧ ⟨2, 2⟩ ∈ s.usedFpList .mram ∧
    ⟨2, 2⟩ ∉ (exitProc s 1).usedFpList .mram ∧ ¬ExitSpares s 1 := by
  have hrun := run_of_exec (Option.some_get secondObject_isSome).symm
  have hstate : 1 ∈ ((exec step (boot 12288 0 fun _ => true) (poolThenPage ++ [secondObject])).get
      secondObject_isSome).runningList ∧
    2 ∈ ((exec step (boot 12288 0 fun _ => true) (poolThenPage ++ [secondObject])).get
      secondObject_isSome).runningList ∧
    ⟨2, 2⟩ ∈ ((exec step (boot 12288 0 fun _ => true) (poolThenPage ++ [secondObject])).get
      secondObject_isSome).usedFpList .mram ∧
    ⟨2, 2⟩ ∉ (exitProc ((exec step (boot 12288 0 fun _ => true)
      (poolThenPage ++ [secondObject])).get secondObject_isSome) 1).usedFpList .mram := by
    decide +kernel
  obtain ⟨h1, h2, hused, hgone⟩ := hstate
  exact ⟨_, hrun, h1, h2, hused, hgone, fun h => hgone (h.used .mram _ hused h2 (by decide))⟩

end Ossim.Mem
