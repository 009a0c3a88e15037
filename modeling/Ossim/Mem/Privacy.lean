import Ossim.Mem.KernelFrames

/-!
What an instruction of one process does to the others: nothing but evict
their pages.

No invariant is needed for this, so it holds of every instruction, the
system calls included.
-/

namespace Ossim.Mem

open Ossim.Lib

/-- What a process does leaves the regions, the area and the pools of the
others alone, and of their page tables all but evicted pages. -/
structure Private (p : Pid) (s t : Sys) : Prop where
  availPid : t.availPid = s.availPid
  maxsz : t.maxsz = s.maxsz
  runningList : t.runningList = s.runningList
  mmap : ∀ q ≠ p, t.mmap q = s.mmap q
  symrgtbl : ∀ q ≠ p, t.symrgtbl q = s.symrgtbl q
  kcpooltbl : ∀ q ≠ p, t.kcpooltbl q = s.kcpooltbl q
  pgd : ∀ q ≠ p, ∀ path, EvictsAt ((s.pgd q).lookup 0 path) ((t.pgd q).lookup 0 path)

namespace Private

variable {p : Pid} {s t u : Sys}

theorem of_meta {l : List Store} (h : t.meta = { s.meta with stores := l })
    (hpgd : ∀ q ≠ p, ∀ path, EvictsAt ((s.pgd q).lookup 0 path) ((t.pgd q).lookup 0 path)) :
    Private p s t where
  availPid := congrArg Sys.Meta.availPid h
  maxsz := congrArg Sys.Meta.maxsz h
  runningList := congrArg Sys.Meta.runningList h
  mmap q _ := congrFun (congrArg Sys.Meta.mmap h) q
  symrgtbl q _ := congrFun (congrArg Sys.Meta.symrgtbl h) q
  kcpooltbl q _ := congrFun (congrArg Sys.Meta.kcpooltbl h) q
  pgd := hpgd

theorem refl (p : Pid) (s : Sys) : Private p s s :=
  of_meta (l := s.stores) rfl fun _ _ _ => .inl rfl

theorem trans (h : Private p s t) (h' : Private p t u) : Private p s u where
  availPid := h'.availPid.trans h.availPid
  maxsz := h'.maxsz.trans h.maxsz
  runningList := h'.runningList.trans h.runningList
  mmap q hq := (h'.mmap q hq).trans (h.mmap q hq)
  symrgtbl q hq := (h'.symrgtbl q hq).trans (h.symrgtbl q hq)
  kcpooltbl q hq := (h'.kcpooltbl q hq).trans (h.kcpooltbl q hq)
  pgd q hq path := (h.pgd q hq path).trans (h'.pgd q hq path)

theorem of_kernel (h : KernelChange s t) : Private p s t := by
  obtain ⟨_, _, _, _, rfl⟩ := h
  exact ⟨rfl, rfl, rfl, fun _ _ => rfl, fun _ _ => rfl, fun _ _ => rfl, fun _ _ _ => .inl rfl⟩

theorem setHost (s : Sys) (p : Pid) (host : Nat → Bool) : Private p s { s with host := host } :=
  { refl p s with }

theorem setReg (s : Sys) (p : Pid) (r v : Nat) : Private p s (s.setReg p r v) :=
  { refl p s with }

theorem setMmap (s : Sys) (p : Pid) (vma : VmArea) : Private p s (s.setMmap p vma) :=
  { refl p s with mmap := fun _ hq => Function.update_of_ne hq _ _ }

theorem setSymrg (s : Sys) (p : Pid) (rgid : Nat) (rg : VmRg) :
    Private p s (s.setSymrg p rgid rg) :=
  { refl p s with symrgtbl := fun _ hq => Function.update_of_ne hq _ _ }

theorem setPools (s : Sys) (p : Pid) (pools : List KcachePool) :
    Private p s (s.setPools p pools) :=
  { refl p s with kcpooltbl := fun _ hq => Function.update_of_ne hq _ _ }

end Private

/-! ### Page tables -/

theorem pgd_pteSetEntry_of_ne {s : Sys} {p q : Pid} {g v : Nat} (hq : q ≠ p) :
    (pteSetEntry s p g v).2.pgd q = s.pgd q := by
  rw [pteSetEntry]
  split
  · rfl
  · dsimp only
    rw [Sys.setRoot]
    split
    · rfl
    · exact Function.update_of_ne hq _ _

theorem pgd_mapFrames_of_ne {p q : Pid} (hq : q ≠ p) (pgn left pgit : Nat) (frames : List Nat)
    (s : Sys) : (mapFrames p pgn left pgit frames s).2.2.pgd q = s.pgd q := by
  induction left generalizing pgit frames s with
  | zero => rfl
  | succ left ih =>
      cases frames with
      | nil => rfl
      | cons f next =>
          have hset := pgd_pteSetEntry_of_ne (s := s) (g := pgn + pgit) (v := presentPte f) hq
          rw [mapFrames]
          split
          · rename_i t ht
            rw [pteSetFpn] at ht
            rw [ht] at hset
            rw [pgd_releaseFrameList]
            exact hset
          · rename_i t ht
            rw [pteSetFpn] at ht
            rw [ht] at hset
            have hlist := congrFun (pgd_enlistPgnNode t p (pgn + pgit)) q
            split
            · rename_i u hu
              rw [hu] at hlist
              rw [pgd_releaseFrameList, pgd_memphyPutFreefp, pgd_pteSetEntry_of_ne hq]
              exact hlist.trans hset
            · rename_i u hu
              rw [hu] at hlist
              rw [ih]
              exact hlist.trans hset

theorem pgd_vmapPageRange_of_ne {p q : Pid} (hq : q ≠ p) (s : Sys) (addr : Nat) (n : Int)
    (frames : List Nat) (rg : VmRg) (path : RadixPath 512 4) :
    ((vmapPageRange s p addr n frames rg).2.2.pgd q).lookup 0 path =
      (s.pgd q).lookup 0 path := by
  obtain ⟨-, hwalk⟩ := walkPages_spec p (addr / 2 ^ 12) n.toNat 0 s
  rw [vmapPageRange]
  dsimp only
  split
  · rw [pgd_releaseFrameList]
  · split
    · rename_i t ht
      rw [ht] at hwalk
      rw [pgd_releaseFrameList]
      exact hwalk q path
    · rename_i t ht
      rw [ht] at hwalk
      rw [pgd_mapFrames_of_ne hq]
      exact hwalk q path

theorem pgd_memsetPages_of_ne {p q : Pid} (hq : q ≠ p) (pgn left pgit : Nat) (s : Sys) :
    (memsetPages p pgn left pgit s).2.pgd q = s.pgd q := by
  induction left generalizing pgit s with
  | zero => rfl
  | succ left ih =>
      have hset := pgd_pteSetEntry_of_ne (s := s) (g := pgn + pgit) (v := dummyPte) hq
      rw [memsetPages]
      split
      · rename_i t ht
        rw [ht] at hset
        exact hset
      · rename_i t ht
        rw [ht] at hset
        rw [ih]
        exact hset

theorem meta_memsetPages (p : Pid) (pgn left pgit : Nat) (s : Sys) :
    (memsetPages p pgn left pgit s).2.meta = s.meta := by
  induction left generalizing pgit s with
  | zero => rfl
  | succ left ih =>
      have hset := meta_pteSetEntry s p (pgn + pgit) dummyPte
      rw [memsetPages]
      split
      · rename_i t ht
        rw [ht] at hset
        exact hset
      · rename_i t ht
        rw [ht] at hset
        rw [ih]
        exact hset

theorem meta_vmapPgdMemset (s : Sys) (p : Pid) (addr : Nat) (n : Int) :
    (vmapPgdMemset s p addr n).2.meta = s.meta := by
  rw [vmapPgdMemset]
  split
  · rfl
  · exact meta_memsetPages ..

theorem pgd_pgGetpage_of_ne {p q : Pid} (hq : q ≠ p) (s : Sys) (g : Nat) (path : RadixPath 512 4) :
    EvictsAt ((s.pgd q).lookup 0 path) (((pgGetpage s p g).2.pgd q).lookup 0 path) := by
  have hevicts := evicts_swapOutVictimPage s p q path
  generalize hr : pgGetpage s p g = r
  cases pgGetpage_cases hr with
  | present => exact .inl rfl
  | absent => exact .inl rfl
  | noFrame t _ _ hout =>
      rw [hout] at hevicts
      exact hevicts
  | noCopy f t st _ _ hout =>
      rw [hout] at hevicts
      exact hevicts
  | back f t st u _ _ hout _ hu =>
      rw [hout] at hevicts
      rw [hu, broughtIn, pgd_enlistPgnNode, pteSetFpn, pgd_pteSetEntry_of_ne hq,
        pgd_memphyPutFreefp]
      exact hevicts

/-! ### Instructions -/

theorem snd_eq_of_some {x : Int × Sys} {ret : Int} {t : Sys} (h : some x = some (ret, t)) :
    x.2 = t := by
  cases h
  rfl

namespace Private

variable {p : Pid} {s t : Sys}

theorem pgGetval (s : Sys) (p : Pid) (addr : Nat) : Private p s (Mem.pgGetval s p addr).2 := by
  refine of_meta (l := s.stores) (meta_pgGetval s p addr) fun q hq path => ?_
  have hpage := pgd_pgGetpage_of_ne hq s (addr / 2 ^ 12) path
  rw [Mem.pgGetval]
  generalize pgGetpage s p (addr / 2 ^ 12) = r at hpage ⊢
  obtain ⟨_ | f, t⟩ := r <;> exact hpage

theorem pgSetval (s : Sys) (p : Pid) (addr : Nat) (v : Byte) (copied : Bool) :
    Private p s (Mem.pgSetval s p addr v copied).2 := by
  obtain ⟨stores, hmeta⟩ := meta_pgSetval s p addr v copied
  refine of_meta hmeta fun q hq path => ?_
  have hpage := pgd_pgGetpage_of_ne hq s (addr / 2 ^ 12) path
  rw [Mem.pgSetval]
  generalize pgGetpage s p (addr / 2 ^ 12) = r at hpage ⊢
  obtain ⟨_ | f, t⟩ := r
  · exact hpage
  · dsimp only
    split
    · exact hpage
    · rename_i u hu
      rw [memphyWrite_eq_some hu]
      exact hpage

theorem getFreeVmrgArea (s : Sys) (p : Pid) (size : Int) :
    Private p s (Mem.getFreeVmrgArea s p size).2 := by
  rw [Mem.getFreeVmrgArea]
  split
  · exact refl p s
  · dsimp only
    split <;> exact setMmap s p _

theorem vmMapRam (s : Sys) (p : Pid) (addr : Nat) (n : Int) (rg : VmRg) :
    Private p s (Mem.vmMapRam s p addr n rg).2.2 := by
  refine of_meta (l := s.stores) (meta_vmMapRam s p addr n rg) fun q hq path => ?_
  have halloc := (allocPagesRange_spec s p n).evicts q path
  rw [Mem.vmMapRam]
  generalize allocPagesRange s p n = r at halloc ⊢
  obtain ⟨code, frames, t⟩ := r
  have hvmap := pgd_vmapPageRange_of_ne hq t addr n frames rg path
  dsimp only
  generalize vmapPageRange t p addr n frames rg = r at hvmap ⊢
  split
  · exact halloc
  · split
    · exact halloc
    · split <;> exact hvmap ▸ halloc

theorem incVmaLimit {vmaid : Int} {incSz : Nat} {junk : VmRg} {ret : Int}
    (h : Mem.incVmaLimit s p vmaid incSz junk = some (ret, t)) : Private p s t := by
  obtain ⟨-, rfl⟩ | ⟨-, -, rfl⟩ := incVmaLimit_cases h
  · exact setHost s p _
  · exact (((setHost s p _).trans (setMmap _ p _)).trans (vmMapRam ..)).trans (setMmap _ p _)

theorem alloc {rgid size : Nat} {junk : VmRg} {ret : Int}
    (h : Mem.alloc s p rgid size junk = some (ret, t)) : Private p s t := by
  rw [Mem.alloc] at h
  split at h
  · cases h
    exact refl p s
  · have hget := getFreeVmrgArea s p (toInt size)
    split at h
    · rename_i rg s₁ hs₁
      rw [hs₁] at hget
      cases h
      exact hget.trans (setSymrg s₁ p rgid rg)
    · rename_i s₁ hs₁
      rw [hs₁] at hget
      split at h
      · cases h
        exact hget
      · split at h
        · cases h
        · rename_i sret s₂ hs₂
          have hgrow := hget.trans (incVmaLimit hs₂)
          split at h
          · cases h
            exact hgrow
          · have hagain := getFreeVmrgArea s₂ p (toInt size)
            split at h
            · rename_i s₃ hs₃
              rw [hs₃] at hagain
              cases h
              exact hgrow.trans hagain
            · rename_i rg s₃ hs₃
              rw [hs₃] at hagain
              cases h
              exact (hgrow.trans hagain).trans (setSymrg s₃ p rgid rg)

theorem free (s : Sys) (p : Pid) (rgid : Nat) : Private p s (Mem.free s p rgid).2 := by
  rw [Mem.free]
  split
  · exact refl p s
  · dsimp only
    split
    · exact refl p s
    · split
      · exact setHost s p _
      · exact ((setHost s p _).trans (setSymrg _ p rgid _)).trans (setMmap _ p _)

theorem read (s : Sys) (p : Pid) (rgid offset : Nat) :
    Private p s (Mem.read s p rgid offset).2 := by
  rw [Mem.read]
  split
  · exact refl p s
  · split
    · exact refl p s
    · exact pgGetval s p _

theorem write (s : Sys) (p : Pid) (rgid offset : Nat) (v : Byte) :
    Private p s (Mem.write s p rgid offset v).2 := by
  rw [Mem.write]
  split
  · exact refl p s
  · split
    · exact refl p s
    · exact pgSetval s p _ v false

theorem readUserMem (s : Sys) (p : Pid) (rgid offset : Nat) :
    Private p s (Mem.readUserMem s p rgid offset).2 := by
  rw [Mem.readUserMem]
  split
  · exact refl p s
  · split
    · exact refl p s
    · exact pgGetval s p _

theorem writeUserMem (s : Sys) (p : Pid) (rgid offset : Nat) (v : Byte) :
    Private p s (Mem.writeUserMem s p rgid offset v).2 := by
  rw [Mem.writeUserMem]
  split
  · exact refl p s
  · split
    · exact refl p s
    · exact pgSetval s p _ v true

theorem copyFromUser (p : Pid) (source destination offset left idx : Nat) (s : Sys) :
    Private p s (Mem.copyFromUser p source destination offset left idx s).2 := by
  induction left generalizing idx s with
  | zero => exact refl p s
  | succ left ih =>
      have hread := readUserMem s p source (toUint32 (offset + idx))
      rw [Mem.copyFromUser]
      generalize Mem.readUserMem s p source (toUint32 (offset + idx)) = r at hread ⊢
      obtain ⟨_ | b, t⟩ := r
      · exact hread
      · dsimp only
        split
        · exact hread
        · rename_i u hu
          obtain ⟨st, rfl⟩ := writeKernelMem_eq hu
          have hwrite : Private p t { t with storage := st } := { refl p t with }
          exact (hread.trans hwrite).trans (ih (idx + 1) _)

theorem copyToUser (p : Pid) (source destination offset left idx : Nat) (s : Sys) :
    Private p s (Mem.copyToUser p source destination offset left idx s).2 := by
  induction left generalizing idx s with
  | zero => exact refl p s
  | succ left ih =>
      rw [Mem.copyToUser]
      split
      · exact refl p s
      · rename_i b _
        have hwrite := writeUserMem s p destination (toUint32 (offset + idx)) b
        generalize Mem.writeUserMem s p destination (toUint32 (offset + idx)) b = r at hwrite ⊢
        obtain ⟨_ | _, t⟩ := r
        · exact hwrite
        · exact hwrite.trans (ih (idx + 1) t)

theorem returnAddr {reg : Nat} {r : Option Nat × Sys} {ret : Int} (h : Private p s r.2)
    (hr : Mem.returnAddr p reg r = some (ret, t)) : Private p s t := by
  obtain ⟨_ | addr, u⟩ := r
  · cases hr
    exact h
  · rw [Mem.returnAddr] at hr
    split at hr
    · cases hr
    · cases hr
      exact h.trans (setReg u p _ _)

theorem libkmemMalloc {size reg : Nat} {ret : Int}
    (h : Mem.libkmemMalloc s p size reg = some (ret, t)) : Private p s t := by
  have hmalloc : Private p s (kmalloc s p reg size).2 := by
    have halloc : Private p s _ := of_kernel (kernelChange_alloc s p size)
    rw [kmalloc]
    split
    · exact refl p s
    · split
      · rename_i u hu
        rw [hu] at halloc
        exact halloc
      · rename_i base _ u hu
        rw [hu] at halloc
        exact halloc.trans (setSymrg u p reg _)
  rw [Mem.libkmemMalloc] at h
  split at h
  · cases h
    exact refl p s
  · exact hmalloc.returnAddr h

theorem libkmemCacheAlloc {reg id : Nat} {ret : Int}
    (h : Mem.libkmemCacheAlloc s p reg id = some (ret, t)) : Private p s t := by
  have hcache : Private p s (kmemCacheAlloc s p reg id).2 := by
    rw [kmemCacheAlloc]
    split
    · exact refl p s
    · split
      · exact refl p s
      · dsimp only
        split
        · exact refl p s
        · split
          · exact refl p s
          · exact (setPools s p _).trans (setSymrg _ p reg _)
  rw [Mem.libkmemCacheAlloc] at h
  split at h
  · cases h
    exact refl p s
  · exact hcache.returnAddr h

theorem growPools (s : Sys) (p : Pid) (id : Nat) : Private p s (Mem.growPools s p id).2 := by
  rw [Mem.growPools]
  split
  · exact refl p s
  · split
    · exact setHost s p _
    · exact (setHost s p _).trans (setPools _ p _)

theorem libkmemCachePoolCreate (s : Sys) (p : Pid) (size align id : Nat) :
    Private p s (Mem.libkmemCachePoolCreate s p size align id).2 := by
  rw [Mem.libkmemCachePoolCreate]
  split
  · exact refl p s
  · dsimp only
    split
    · exact refl p s
    · have hgrow := growPools s p id
      split
      · rename_i s₁ hs₁
        rw [hs₁] at hgrow
        exact hgrow
      · rename_i s₁ hs₁
        rw [hs₁] at hgrow
        split
        · exact hgrow
        · split
          · exact hgrow
          · have halloc := hgrow.trans (of_kernel (kernelChange_alloc s₁ p size))
            split
            · rename_i s₂ hs₂
              rw [hs₂] at halloc
              exact halloc
            · rename_i base sz s₂ hs₂
              rw [hs₂] at halloc
              split
              · rename_i host hd
                exact ((halloc.trans (setHost s₂ p host)).trans
                  (of_kernel (kernelChange_release _ base _))).trans (setPools _ p _)
              · rename_i host hd
                exact (halloc.trans (setHost s₂ p host)).trans (setPools _ p _)

theorem sysMemmap {a1 a2 a3 a3' : Nat} {junk : VmRg} {ret : Int}
    (h : Mem.sysMemmap s p a1 a2 a3 junk = some (ret, a3', t)) : Private p s t := by
  rw [Mem.sysMemmap] at h
  split at h
  · cases h
    exact refl p s
  · split at h
    · have hset : Private p s (vmapPgdMemset s p (toUint32 a2) (toInt a3)).2 := by
        refine of_meta (l := s.stores) (meta_vmapPgdMemset ..) fun q hq path => .inl ?_
        rw [vmapPgdMemset]
        split
        · rfl
        · rw [pgd_memsetPages_of_ne hq]
      cases h
      exact hset
    · split at h
      · cases h
      · rename_i hgrow
        cases h
        exact incVmaLimit hgrow
    · obtain ⟨st, hst⟩ := swapCpPage_eq s .mram (toUint32 a2) .mswp (toUint32 a3)
      have hcopy : Private p s (swapCpPage s .mram (toUint32 a2) .mswp (toUint32 a3)).2 := by
        rw [hst]
        exact { refl p s with }
      split at h
      all_goals
        rename_i u hu
        rw [hu] at hcopy
        cases h
        exact hcopy
    · cases h
    · cases h
    · cases h
      exact refl p s

theorem libsyscall {idx a1 a2 a3 : Nat} {junk : VmRg} {ret : Int}
    (h : Mem.libsyscall s p idx a1 a2 a3 junk = some (ret, t)) : Private p s t := by
  rw [Mem.libsyscall] at h
  split at h
  · split at h
    · cases h
    · rename_i u hu
      have hmemmap := sysMemmap hu
      split at h
      · split at h
        · cases h
          exact hmemmap
        · cases h
          exact hmemmap.trans (setReg u p _ _)
      · cases h
        exact hmemmap
  · split at h
    all_goals
      cases h
      exact refl p s

/-- Whatever instruction a process executes. -/
theorem run {ins : Inst} {junk : VmRg} {ret : Int}
    (h : Mem.run s p ins junk = some (ret, t)) : Private p s t := by
  rw [Mem.run] at h
  split at h
  · cases h
    exact refl p s
  · exact alloc h
  · exact libkmemMalloc h
  · have hcreate := libkmemCachePoolCreate s p (toUint32 ins.arg0.toNat)
      (toUint32 ins.arg1.toNat) (toUint32 ins.arg2.toNat)
    rw [Option.some.inj h] at hcreate
    exact hcreate
  · exact libkmemCacheAlloc h
  · rw [← snd_eq_of_some h, libkmemCopyFromUser]
    split
    · exact refl p s
    · exact copyFromUser ..
  · rw [← snd_eq_of_some h, libkmemCopyToUser]
    split
    · exact refl p s
    · exact copyToUser ..
  · rw [← snd_eq_of_some h]
    exact free ..
  · have hread := read s p (toUint32 ins.arg0.toNat) ins.arg1.toNat
    rw [libread] at h
    generalize Mem.read s p (toUint32 ins.arg0.toNat) ins.arg1.toNat = r at hread h
    obtain ⟨_ | b, u⟩ := r
    · cases h
      exact hread
    · dsimp only at h
      split at h
      · cases h
      · cases h
        exact hread.trans (setReg u p _ _)
  · have hwrite := write s p (toUint32 ins.arg1.toNat) ins.arg2.toNat
      (BitVec.ofNat 8 ins.arg0.toNat)
    rw [← snd_eq_of_some h, libwrite]
    generalize Mem.write s p (toUint32 ins.arg1.toNat) ins.arg2.toNat
      (BitVec.ofNat 8 ins.arg0.toNat) = r at hwrite
    obtain ⟨_ | _, u⟩ := r <;> exact hwrite
  · exact libsyscall h

end Private

/-! ### Accesses -/

/-- An access changes nothing but registers and bytes, as far as regions,
areas, pools and used frames go. -/
def Accesses (s t : Sys) : Prop :=
  ∃ regs stores, t.meta = { s.meta with regs := regs, stores := stores }

namespace Accesses

variable {p : Pid} {s t u : Sys}

theorem of_meta (h : t.meta = s.meta) : Accesses s t := ⟨s.regs, s.stores, h⟩

theorem refl (s : Sys) : Accesses s s := of_meta rfl

theorem trans (h : Accesses s t) (h' : Accesses t u) : Accesses s u := by
  obtain ⟨regs, stores, ht⟩ := h
  obtain ⟨regs', stores', hu⟩ := h'
  exact ⟨regs', stores', by rw [hu, ht]⟩

theorem setReg (s : Sys) (p : Pid) (r v : Nat) : Accesses s (s.setReg p r v) := ⟨_, _, rfl⟩

theorem mmap (h : Accesses s t) : t.mmap = s.mmap := by
  obtain ⟨_, _, h⟩ := h
  exact congrArg Sys.Meta.mmap h

theorem symrgtbl (h : Accesses s t) : t.symrgtbl = s.symrgtbl := by
  obtain ⟨_, _, h⟩ := h
  exact congrArg Sys.Meta.symrgtbl h

theorem kcpooltbl (h : Accesses s t) : t.kcpooltbl = s.kcpooltbl := by
  obtain ⟨_, _, h⟩ := h
  exact congrArg Sys.Meta.kcpooltbl h

theorem usedFpList (h : Accesses s t) : t.usedFpList = s.usedFpList := by
  obtain ⟨_, _, h⟩ := h
  exact congrArg Sys.Meta.usedFpList h

theorem pgSetval (s : Sys) (p : Pid) (addr : Nat) (v : Byte) (copied : Bool) :
    Accesses s (Mem.pgSetval s p addr v copied).2 := by
  obtain ⟨stores, h⟩ := meta_pgSetval s p addr v copied
  exact ⟨s.regs, stores, h⟩

/-- A system call other than `SYSMEM_INC_OP`. -/
theorem sysMemmap {a1 a2 a3 a3' : Nat} {junk : VmRg} {ret : Int}
    (h : Mem.sysMemmap s p a1 a2 a3 junk = some (ret, a3', t))
    (hinc : MemOp.ofInt (toInt a1) ≠ some .inc) : Accesses s t := by
  rw [Mem.sysMemmap] at h
  split at h
  · cases h
    exact refl s
  · split at h
    · cases h
      exact of_meta (meta_vmapPgdMemset ..)
    · contradiction
    · have hcopy := of_meta (meta_swapCpPage s .mram .mswp (toUint32 a2) (toUint32 a3))
      split at h
      all_goals
        rename_i hu
        rw [hu] at hcopy
        cases h
        exact hcopy
    · cases h
    · cases h
    · cases h
      exact refl s

theorem libread {source offset destination : Nat} {ret : Int}
    (h : Mem.libread s p source offset destination = some (ret, t)) : Accesses s t := by
  have hread : Accesses s (Mem.read s p source offset).2 := by
    rw [Mem.read]
    split
    · exact refl s
    · split
      · exact refl s
      · exact of_meta (meta_pgGetval s p _)
  rw [Mem.libread] at h
  generalize Mem.read s p source offset = r at hread h
  obtain ⟨_ | b, u⟩ := r
  · cases h
    exact hread
  · dsimp only at h
    split at h
    · cases h
    · cases h
      exact hread.trans (setReg u p _ _)

theorem libwrite (s : Sys) (p : Pid) (b : Byte) (destination offset : Nat) :
    Accesses s (Mem.libwrite s p b destination offset).2 := by
  have hwrite : Accesses s (Mem.write s p destination offset b).2 := by
    rw [Mem.write]
    split
    · exact refl s
    · split
      · exact refl s
      · exact pgSetval s p _ b false
  rw [Mem.libwrite]
  generalize Mem.write s p destination offset b = r at hwrite
  obtain ⟨_ | _, u⟩ := r <;> exact hwrite

theorem copyFromUser (p : Pid) (source destination offset left idx : Nat) (s : Sys) :
    Accesses s (Mem.copyFromUser p source destination offset left idx s).2 := by
  induction left generalizing idx s with
  | zero => exact refl s
  | succ left ih =>
      have hread := of_meta (meta_readUserMem s p source (toUint32 (offset + idx)))
      rw [Mem.copyFromUser]
      generalize Mem.readUserMem s p source (toUint32 (offset + idx)) = r at hread ⊢
      obtain ⟨_ | b, t⟩ := r
      · exact hread
      · dsimp only
        split
        · exact hread
        · rename_i u hu
          obtain ⟨st, rfl⟩ := writeKernelMem_eq hu
          have hwrite : Accesses t { t with storage := st } := of_meta rfl
          exact (hread.trans hwrite).trans (ih (idx + 1) _)

theorem copyToUser (p : Pid) (source destination offset left idx : Nat) (s : Sys) :
    Accesses s (Mem.copyToUser p source destination offset left idx s).2 := by
  induction left generalizing idx s with
  | zero => exact refl s
  | succ left ih =>
      rw [Mem.copyToUser]
      split
      · exact refl s
      · rename_i b _
        obtain ⟨stores, hmeta⟩ := meta_writeUserMem s p destination (toUint32 (offset + idx)) b
        have hwrite : Accesses s
            (Mem.writeUserMem s p destination (toUint32 (offset + idx)) b).2 :=
          ⟨s.regs, stores, hmeta⟩
        generalize Mem.writeUserMem s p destination (toUint32 (offset + idx)) b = r at hwrite ⊢
        obtain ⟨_ | _, t⟩ := r
        · exact hwrite
        · exact hwrite.trans (ih (idx + 1) t)

end Accesses

end Ossim.Mem
