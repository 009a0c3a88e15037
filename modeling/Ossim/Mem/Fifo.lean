import Ossim.Mem.Accessible
import Ossim.Mem.Residency

/-!
Replacement is first in, first out.

In every state of a run with a host that never refuses, the page list of a
process holds exactly its pages in RAM, the one that came in last at the
front. An eviction that gets a swap frame takes the page that is in RAM for
the longest time: one of the caller if it has any, and else one of the
first other process of the running list that has any.
-/

namespace Ossim.Mem

open Ossim.Lib

/-! ### Growth -/

theorem fifo_walkPages (p : Pid) (pgn left pgit : Nat) (s : Sys) :
    (walkPages p pgn left pgit s).2.fifoPgn = s.fifoPgn := by
  induction left generalizing pgit s with
  | zero => rfl
  | succ left ih =>
      have hwalk : (walkPte s p (pgnAddr (pgn + pgit))).2.fifoPgn = s.fifoPgn := by
        rw [walkPte]
        split
        · rfl
        · dsimp only
          rw [Sys.setRoot]
          split <;> rfl
      rw [walkPages]
      generalize walkPte s p (pgnAddr (pgn + pgit)) = r at hwalk
      obtain ⟨_ | _, t⟩ := r
      · exact hwalk
      · exact (ih (pgit + 1) t).trans hwalk

namespace Tracked

variable {ok : Prop} {ram swp : List Nat} {log : Log} {s t : Sys} {p q : Pid} {g : Nat}

theorem vmapPageRange {addr : Nat} {n : Int} {frames : List Nat} (rg : VmRg)
    (h : Tracked log s) (hinv : Inv ok (frames ++ ram) swp s) (hok : ok) (hp : p ∈ s.runningList)
    (hnew : Inv.NewPages s p addr n.toNat) :
    Tracked (vmapPageRangeLog s p addr n frames ++ log)
      (Mem.vmapPageRange s p addr n frames rg).2.2 := by
  obtain ⟨halign, hend, hsbrk, hzero⟩ := hnew
  have hlt : addr / 2 ^ 12 + 0 + n.toNat ≤ userPgns := by
    simp only [pageSz, userPgns] at *
    omega
  obtain ⟨hmeta, hlookup⟩ := walkPages_spec p (addr / 2 ^ 12) n.toNat 0 s
  have hwalk := hinv.walkPages hp hlt
  have htracked := h.of_meta hmeta (fifo_walkPages ..) hlookup
  rw [Mem.vmapPageRange, vmapPageRangeLog]
  dsimp only
  split
  · exact h.releaseFrameList frames
  · generalize walkPages p (addr / 2 ^ 12) n.toNat 0 s = r at hmeta hlookup hwalk htracked
    obtain ⟨_ | _, t⟩ := r
    · exact htracked.releaseFrameList frames
    · have hrun : t.runningList = s.runningList := congrArg Sys.Meta.runningList hmeta
      have hp : p ∈ t.runningList := hrun ▸ hp
      refine htracked.mapFrames (hwalk.host hok).1 hp (hwalk.fresh p hp) hlt fun k hk hk' => ?_
      rw [Sys.pte, hlookup]
      refine hzero _ (by omega) ?_
      simp only [pageSz] at *
      omega

theorem vmMapRam {addr : Nat} {n : Int} {rg : VmRg} (h : Tracked log s)
    (hinv : Inv ok ram swp s) (hok : ok) (hp : p ∈ s.runningList)
    (hnew : Inv.NewPages s p addr n.toNat) :
    Tracked (vmMapRamLog s p addr n ++ log) (Mem.vmMapRam s p addr n rg).2.2 := by
  obtain ⟨hmeta, hevicts, -⟩ := allocPagesRange_spec s p n
  have halloc := hinv.allocPagesRange (n := n) hp
  have htracked : Tracked ((if n < 0 then [] else allocPagesLog p n.toNat s) ++ log)
      (Mem.allocPagesRange s p n).2.2 := by
    rw [Mem.allocPagesRange]
    split
    · exact h
    · exact h.allocPages (show Inv ok ([] ++ ram) swp s from hinv) hp
  rw [Mem.vmMapRam, vmMapRamLog]
  generalize Mem.allocPagesRange s p n = r at hmeta hevicts halloc htracked ⊢
  generalize (if n < 0 then [] else allocPagesLog p n.toNat s) = evictions at htracked ⊢
  obtain ⟨code, frames, t⟩ := r
  simp only at hmeta hevicts halloc htracked
  have hnew' : Inv.NewPages t p addr n.toNat := hnew.of_evicts hmeta hevicts
  have hp' : p ∈ t.runningList := by
    rw [show t.runningList = s.runningList from congrArg Sys.Meta.runningList hmeta]
    exact hp
  have hvmap := htracked.vmapPageRange rg halloc hok hp' hnew'
  dsimp only
  rw [if_neg (show ¬(code < 0 ∧ code ≠ errNoMem) by omega)]
  split
  · exact htracked
  · rw [List.append_assoc]
    split <;> exact hvmap

theorem setMmap (h : Tracked log s) (p : Pid) (vma : VmArea) : Tracked log (s.setMmap p vma) :=
  h.frame rfl rfl rfl fun _ _ _ _ => rfl

theorem setSymrg (h : Tracked log s) (p : Pid) (rgid : Nat) (rg : VmRg) :
    Tracked log (s.setSymrg p rgid rg) :=
  h.frame rfl rfl rfl fun _ _ _ _ => rfl

theorem setReg (h : Tracked log s) (p : Pid) (r v : Nat) : Tracked log (s.setReg p r v) :=
  h.frame rfl rfl rfl fun _ _ _ _ => rfl

theorem getFreeVmrgArea (h : Tracked log s) (p : Pid) (size : Int) :
    Tracked log (Mem.getFreeVmrgArea s p size).2 := by
  rw [Mem.getFreeVmrgArea]
  split
  · exact h
  · dsimp only
    split <;> exact h.setMmap p _

theorem incVmaLimit {inc : Nat} {junk : VmRg} {ret : Int} (h : Tracked log s)
    (hinv : Inv ok ram swp s) (hok : ok) (hp : p ∈ s.runningList)
    (hgrow : Mem.incVmaLimit s p 0 inc junk = some (ret, t))
    (hlow : (t.mmap p).sbrk ≤ 2 ^ 56) : Tracked (growthLog s p inc ++ log) t := by
  rw [growthLog]
  split
  · rename_i href
    rw [incVmaLimit_of_refused junk rfl href] at hgrow
    cases hgrow
    exact h.setHost _
  · rename_i href
    rw [incVmaLimit_of_not_refused junk rfl href] at hgrow
    cases hgrow
    rw [sbrk_grown] at hlow
    obtain ⟨hmoved, hpages⟩ := hinv.breakMoved hp href hlow
    have hstart : Tracked log (breakMoved s p inc) := (h.setHost _).setMmap p _
    exact (hstart.vmMapRam hmoved hok hp hpages).setMmap p _

theorem alloc {rgid size : Nat} {junk : VmRg} {ret : Int} (h : Tracked log s)
    (hinv : Inv ok ram swp s) (hok : ok) (halloc : Mem.alloc s p rgid size junk = some (ret, t))
    (hlow : (t.mmap p).sbrk ≤ 2 ^ 56) : Tracked (allocLog s p rgid size ++ log) t := by
  rw [Mem.alloc] at halloc
  rw [allocLog]
  split
  · rename_i hargs
    rw [if_pos hargs] at halloc
    cases halloc
    exact h
  · rename_i hargs
    rw [if_neg hargs] at halloc
    have hget := h.getFreeVmrgArea p (toInt size)
    have hinv₁ := hinv.getFreeVmrgArea p (toInt size)
    generalize Mem.getFreeVmrgArea s p (toInt size) = r at hget hinv₁ halloc
    obtain ⟨_ | rg, s₁⟩ := r
    · dsimp only at hget hinv₁ halloc ⊢
      split at halloc
      · rename_i hnot
        cases halloc
        rw [if_pos hnot]
        exact hget
      · rename_i hp₁
        rw [if_neg hp₁]
        split at halloc
        · cases halloc
        · rename_i sret s₂ hs₂
          have hgrow (hlow₂ : (s₂.mmap p).sbrk ≤ 2 ^ 56) :
              Tracked (growthLog s₁ p (allocInc size) ++ log) s₂ :=
            hget.incVmaLimit hinv₁ hok (not_not.mp hp₁) hs₂ hlow₂
          split at halloc
          · cases halloc
            exact hgrow hlow
          · have hsbrk := sbrk_getFreeVmrgArea s₂ p (toInt size) p
            split at halloc
            all_goals
              rename_i s₃ hs₃
              rw [hs₃] at hsbrk
              cases halloc
              have hagain := (hgrow (hsbrk ▸ hlow)).getFreeVmrgArea p (toInt size)
              rw [hs₃] at hagain
            · exact hagain
            · exact hagain.setSymrg p rgid _
    · cases halloc
      exact hget.setSymrg p rgid rg

end Tracked

/-! ### Accesses -/

theorem putFreefp_of_hostOk {s : Sys} (hhost : s.HostOk) (d : Dev) (x : Nat) :
    (memphyPutFreefp s d x).HostOk := by
  rw [memphyPutFreefp, hhost.draw]
  exact hhost

namespace Tracked

variable {ok : Prop} {ram swp : List Nat} {log : Log} {s t : Sys} {p q : Pid} {g : Nat}

theorem setStorage (h : Tracked log s) {st : Dev → Nat → Byte} {stores : List Store} :
    Tracked log { s with storage := st, stores := stores } :=
  h.frame rfl rfl rfl fun _ _ _ _ => rfl

theorem pgGetpage (h : Tracked log s) (hinv : Inv ok ram swp s) (hok : ok)
    (hp : p ∈ s.runningList) (hg : g < userPgns) :
    Tracked (pgGetpageLog s p g ++ log) (Mem.pgGetpage s p g).2 := by
  have hentry : pteGetEntry s p g = s.pte p g := pteGetEntry_user hg
  have hevict := h.evict hinv hp
  rw [pgGetpageLog]
  generalize hr : Mem.pgGetpage s p g = r
  cases pgGetpage_cases hr with
  | present hpres =>
      rw [hpres]
      exact h
  | absent hpres hswap =>
      rw [hpres, hswap]
      exact h
  | noFrame t hpres hswap hout =>
      rw [hout] at hevict
      rw [hpres, hswap, hout]
      exact hevict
  | noCopy f t st hpres hswap hout hcopy =>
      rw [hout] at hevict
      simp only [hpres, hswap, hout, hcopy]
      exact hevict.setStorage
  | back f t st u hpres hswap hout hcopy hu =>
      -- the page comes in: its entry is written and it is enlisted
      have hmeta := meta_swapOutVictimPage s p
      have hevicts := evicts_swapOutVictimPage s p
      have hinv' := hinv.swapOutVictimPage hp
      rw [hout] at hevict hmeta hevicts hinv'
      simp only [hpres, hswap, hout, hcopy]
      have hrun : t.runningList = s.runningList := congrArg Sys.Meta.runningList hmeta
      have hp' : p ∈ t.runningList := hrun ▸ hp
      generalize pteSwp (pteGetEntry s p g) = o at hu
      have hcopied : Tracked (evictLog s p ++ log)
          (memphyPutFreefp { t with storage := st } .mswp o) :=
        hevict.setStorage.putFreefp .mswp _
      have hhost := putFreefp_of_hostOk (s := { t with storage := st }) (hinv'.host hok).1 .mswp o
      have hmeta' := meta_memphyPutFreefp { t with storage := st } .mswp o
      have hpgd := pgd_memphyPutFreefp { t with storage := st } .mswp o
      rw [broughtIn] at hu
      generalize memphyPutFreefp { t with storage := st } .mswp o = v
        at hcopied hhost hmeta' hpgd hu
      obtain ⟨pgd, hset⟩ := pteSetEntry_of_hostOk hhost p hg (presentPte f)
      rw [← pteSetFpn] at hset
      rw [hset, enlistPgnNode_of_hostOk (s := { v with pgd := Function.update v.pgd p pgd }) hhost]
        at hu
      have hrun' : v.runningList = t.runningList := congrArg Sys.Meta.runningList hmeta'
      have havail' : v.availPid = t.availPid := congrArg Sys.Meta.availPid hmeta'
      rw [hu]
      refine hcopied.mapPage (hrun' ▸ hp') ?_ hg ?_ hset rfl
      · rw [havail']
        exact hinv'.fresh p hp'
      · rw [hentry] at hpres
        rw [Sys.pte, hpgd]
        change pagePresent ((t.pgd p).lookup 0 (pgnPath g)) = false
        rw [hevicts.eq_of_not_present hpres]
        exact hpres

theorem pgGetval {addr : Nat} (h : Tracked log s) (hinv : Inv ok ram swp s) (hok : ok)
    (hp : p ∈ s.runningList) (haddr : addr < 2 ^ 56) :
    Tracked (pgGetpageLog s p (addr / 2 ^ 12) ++ log) (Mem.pgGetval s p addr).2 := by
  have hpage := h.pgGetpage hinv hok hp (g := addr / 2 ^ 12) (by simp only [userPgns]; omega)
  rw [Mem.pgGetval]
  generalize Mem.pgGetpage s p (addr / 2 ^ 12) = r at hpage
  obtain ⟨_ | f, t⟩ := r <;> exact hpage

theorem pgSetval {addr : Nat} {v : Byte} {copied : Bool} (h : Tracked log s)
    (hinv : Inv ok ram swp s) (hok : ok) (hp : p ∈ s.runningList) (haddr : addr < 2 ^ 56) :
    Tracked (pgGetpageLog s p (addr / 2 ^ 12) ++ log) (Mem.pgSetval s p addr v copied).2 := by
  have hpage := h.pgGetpage hinv hok hp (g := addr / 2 ^ 12) (by simp only [userPgns]; omega)
  rw [Mem.pgSetval]
  generalize Mem.pgGetpage s p (addr / 2 ^ 12) = r at hpage
  obtain ⟨_ | f, t⟩ := r
  · exact hpage
  · dsimp only
    split
    · exact hpage
    · rename_i u hu
      rw [memphyWrite_eq_some hu]
      exact hpage.setStorage

end Tracked

/-- The log of an access that is checked against the region first. -/
theorem accessLog_eq_nil {s : Sys} {p : Pid} {rgid offset : Nat}
    (h : maxSymtblSz ≤ rgid ∨ (s.symrgtbl p rgid).rgEnd ≤ (s.symrgtbl p rgid).rgStart) :
    accessLog s p rgid offset = [] := by
  rw [accessLog]
  split
  · rfl
  · rename_i hrgid
    rw [userAccess_of_empty (h.resolve_left hrgid)]

namespace Tracked

variable {ok : Prop} {ram swp : List Nat} {log : Log} {s t : Sys} {p q : Pid} {g : Nat}

section

variable {rgid offset : Nat} {v : Byte} (h : Tracked log s) (hinv : Inv ok ram swp s) (hok : ok)
  (hp : p ∈ s.runningList)

include h hinv hok hp

theorem read : Tracked (accessLog s p rgid offset ++ log) (Mem.read s p rgid offset).2 := by
  rw [Mem.read]
  split
  · rename_i hargs
    rw [accessLog_eq_nil (hargs.imp_right fun heq => heq.ge)]
    exact h
  · rename_i hargs
    rw [accessLog, if_neg fun hle => hargs (.inl hle)]
    cases haddr : userAccess (s.symrgtbl p rgid) offset with
    | none => exact h
    | some addr => exact h.pgGetval hinv hok hp (userAccess_lt haddr)

theorem write : Tracked (accessLog s p rgid offset ++ log) (Mem.write s p rgid offset v).2 := by
  rw [Mem.write]
  split
  · rename_i hargs
    rw [accessLog_eq_nil (hargs.imp_right fun heq => heq.ge)]
    exact h
  · rename_i hargs
    rw [accessLog, if_neg fun hle => hargs (.inl hle)]
    cases haddr : userAccess (s.symrgtbl p rgid) offset with
    | none => exact h
    | some addr => exact h.pgSetval hinv hok hp (userAccess_lt haddr)

theorem readUserMem :
    Tracked (accessLog s p rgid offset ++ log) (Mem.readUserMem s p rgid offset).2 := by
  rw [Mem.readUserMem]
  split
  · rename_i hargs
    rw [accessLog_eq_nil hargs]
    exact h
  · rename_i hargs
    rw [accessLog, if_neg fun hle => hargs (.inl hle)]
    cases haddr : userAccess (s.symrgtbl p rgid) offset with
    | none => exact h
    | some addr => exact h.pgGetval hinv hok hp (userAccess_lt haddr)

theorem writeUserMem :
    Tracked (accessLog s p rgid offset ++ log) (Mem.writeUserMem s p rgid offset v).2 := by
  rw [Mem.writeUserMem]
  split
  · rename_i hargs
    rw [accessLog_eq_nil hargs]
    exact h
  · rename_i hargs
    rw [accessLog, if_neg fun hle => hargs (.inl hle)]
    cases haddr : userAccess (s.symrgtbl p rgid) offset with
    | none => exact h
    | some addr => exact h.pgSetval hinv hok hp (userAccess_lt haddr)

theorem copyFromUser {source destination offset left idx : Nat} :
    Tracked (copyFromUserLog p source destination offset left idx s ++ log)
      (Mem.copyFromUser p source destination offset left idx s).2 := by
  induction left generalizing idx s log with
  | zero => exact h
  | succ left ih =>
      have hread : Tracked (accessLog s p source (toUint32 (offset + idx)) ++ log)
          (Mem.readUserMem s p source (toUint32 (offset + idx))).2 := h.readUserMem hinv hok hp
      have hinv' : Inv ok ram swp (Mem.readUserMem s p source (toUint32 (offset + idx))).2 :=
        hinv.readUserMem hp
      have hmeta := meta_readUserMem s p source (toUint32 (offset + idx))
      rw [Mem.copyFromUser, copyFromUserLog]
      generalize Mem.readUserMem s p source (toUint32 (offset + idx)) = r at hread hinv' hmeta
      obtain ⟨_ | b, t⟩ := r
      · exact hread
      · dsimp only
        cases hwrite : writeKernelMem t p destination (toUint32 (offset + idx)) b with
        | none => exact hread
        | some u =>
            have hinv'' := hinv'.writeKernelMem hwrite
            obtain ⟨st, rfl⟩ := writeKernelMem_eq hwrite
            dsimp only
            rw [List.append_assoc]
            refine ih hread.setStorage hinv'' ?_
            change p ∈ t.runningList
            rw [show t.runningList = s.runningList from congrArg Sys.Meta.runningList hmeta]
            exact hp

theorem copyToUser {source destination offset left idx : Nat} :
    Tracked (copyToUserLog p source destination offset left idx s ++ log)
      (Mem.copyToUser p source destination offset left idx s).2 := by
  induction left generalizing idx s log with
  | zero => exact h
  | succ left ih =>
      rw [Mem.copyToUser, copyToUserLog]
      cases readKernelMem s p source (toUint32 (offset + idx)) with
      | none => exact h
      | some b =>
          have hwrite : Tracked (accessLog s p destination (toUint32 (offset + idx)) ++ log)
              (Mem.writeUserMem s p destination (toUint32 (offset + idx)) b).2 :=
            h.writeUserMem hinv hok hp
          have hinv' : Inv ok ram swp
              (Mem.writeUserMem s p destination (toUint32 (offset + idx)) b).2 :=
            hinv.writeUserMem hp
          obtain ⟨stores, hmeta⟩ := meta_writeUserMem s p destination (toUint32 (offset + idx)) b
          dsimp only
          generalize Mem.writeUserMem s p destination (toUint32 (offset + idx)) b = r
            at hwrite hinv' hmeta
          obtain ⟨_ | _, t⟩ := r
          · exact hwrite
          · dsimp only
            rw [List.append_assoc]
            refine ih hwrite hinv' ?_
            rw [show t.runningList = s.runningList from congrArg Sys.Meta.runningList hmeta]
            exact hp

end

end Tracked

/-! ### Instructions that leave the pages alone -/

/-- The page tables, the page lists and the processes are the same. -/
structure SamePages (s t : Sys) : Prop where
  runningList : t.runningList = s.runningList
  availPid : t.availPid = s.availPid
  fifoPgn : t.fifoPgn = s.fifoPgn
  pgd : t.pgd = s.pgd

namespace SamePages

variable {s t u : Sys} {p : Pid}

theorem refl (s : Sys) : SamePages s s := ⟨rfl, rfl, rfl, rfl⟩

theorem trans (h : SamePages s t) (h' : SamePages t u) : SamePages s u :=
  ⟨h'.runningList.trans h.runningList, h'.availPid.trans h.availPid,
    h'.fifoPgn.trans h.fifoPgn, h'.pgd.trans h.pgd⟩

theorem setHost (s : Sys) (host : Nat → Bool) : SamePages s { s with host := host } :=
  ⟨rfl, rfl, rfl, rfl⟩

theorem setPools (s : Sys) (p : Pid) (pools : List KcachePool) : SamePages s (s.setPools p pools) :=
  ⟨rfl, rfl, rfl, rfl⟩

theorem of_kernel (h : KernelChange s t) : SamePages s t := by
  obtain ⟨_, _, _, _, rfl⟩ := h
  exact ⟨rfl, rfl, rfl, rfl⟩

theorem returnAddr {reg : Nat} {r : Option Nat × Sys} {ret : Int} (h : SamePages s r.2)
    (hr : Mem.returnAddr p reg r = some (ret, t)) : SamePages s t := by
  obtain ⟨_ | addr, u⟩ := r
  · cases hr
    exact h
  · rw [Mem.returnAddr] at hr
    split at hr
    · cases hr
    · cases hr
      exact h.trans ⟨rfl, rfl, rfl, rfl⟩

theorem libkmemMalloc {size reg : Nat} {ret : Int}
    (h : Mem.libkmemMalloc s p size reg = some (ret, t)) : SamePages s t := by
  have hmalloc : SamePages s (kmalloc s p reg size).2 := by
    have halloc := of_kernel (kernelChange_alloc s p size)
    rw [kmalloc]
    split
    · exact refl s
    · generalize kernelAllocContiguousRegion s p size = r at halloc
      obtain ⟨_ | _, u⟩ := r
      · exact halloc
      · exact halloc.trans ⟨rfl, rfl, rfl, rfl⟩
  rw [Mem.libkmemMalloc] at h
  split at h
  · cases h
    exact refl s
  · exact hmalloc.returnAddr h

theorem libkmemCacheAlloc {reg id : Nat} {ret : Int}
    (h : Mem.libkmemCacheAlloc s p reg id = some (ret, t)) : SamePages s t := by
  have hcache : SamePages s (kmemCacheAlloc s p reg id).2 := by
    rw [kmemCacheAlloc]
    split
    · exact refl s
    · split
      · exact refl s
      · dsimp only
        split
        · exact refl s
        · split
          · exact refl s
          · exact ⟨rfl, rfl, rfl, rfl⟩
  rw [Mem.libkmemCacheAlloc] at h
  split at h
  · cases h
    exact refl s
  · exact hcache.returnAddr h

theorem growPools (s : Sys) (p : Pid) (id : Nat) : SamePages s (Mem.growPools s p id).2 := by
  rw [Mem.growPools]
  split
  · exact refl s
  · split <;> exact ⟨rfl, rfl, rfl, rfl⟩

theorem libkmemCachePoolCreate (s : Sys) (p : Pid) (size align id : Nat) :
    SamePages s (Mem.libkmemCachePoolCreate s p size align id).2 := by
  rw [Mem.libkmemCachePoolCreate]
  split
  · exact refl s
  · dsimp only
    split
    · exact refl s
    · have hgrow := growPools s p id
      generalize Mem.growPools s p id = r at hgrow
      obtain ⟨_ | _, s₁⟩ := r
      · exact hgrow
      · dsimp only
        split
        · exact hgrow
        · split
          · exact hgrow
          · have halloc := hgrow.trans (of_kernel (kernelChange_alloc s₁ p size))
            generalize kernelAllocContiguousRegion s₁ p size = r at halloc
            obtain ⟨_ | ⟨base, sz⟩, s₂⟩ := r
            · exact halloc
            · dsimp only
              split
              · rename_i host hd
                have hrelease := of_kernel (kernelChange_release { s₂ with host := host } base
                  (toInt (pageAlignSz size / pageSz)))
                exact ((halloc.trans (setHost s₂ host)).trans hrelease).trans (setPools ..)
              · rename_i host hd
                exact (halloc.trans (setHost s₂ host)).trans (setPools ..)

theorem free (s : Sys) (p : Pid) (rgid : Nat) : SamePages s (Mem.free s p rgid).2 := by
  rw [Mem.free]
  split
  · exact refl s
  · dsimp only
    split
    · exact refl s
    · split <;> exact ⟨rfl, rfl, rfl, rfl⟩

theorem foldl {α : Type} {f : Sys → α → Sys} (hf : ∀ s a, SamePages s (f s a)) (l : List α)
    (s : Sys) : SamePages s (l.foldl f s) := by
  induction l generalizing s with
  | nil => exact refl s
  | cons a l ih => exact (hf s a).trans (ih (f s a))

theorem setSymrg (s : Sys) (p : Pid) (rgid : Nat) (rg : VmRg) :
    SamePages s (s.setSymrg p rgid rg) :=
  ⟨rfl, rfl, rfl, rfl⟩

theorem clearSymrgRange (s : Sys) (p : Pid) (start stop : Nat) :
    SamePages s (Mem.clearSymrgRange s p start stop) := by
  rw [Mem.clearSymrgRange]
  split
  · exact refl s
  · refine foldl (fun s idx => ?_) _ s
    rw [clearSymrg]
    split
    · exact setSymrg ..
    · exact refl s

theorem releasePool (p : Pid) (s : Sys) (pool : KcachePool) :
    SamePages s (Mem.releasePool p s pool) := by
  rw [Mem.releasePool]
  split
  · exact refl s
  · dsimp only
    generalize (if pool.allocSize = 0 then pageAlignSz pool.size else pool.allocSize) = sz
    split
    · exact refl s
    · exact (of_kernel (kernelChange_release ..)).trans (clearSymrgRange ..)

theorem releaseSymrg (p : Pid) (s : Sys) (idx : Nat) : SamePages s (Mem.releaseSymrg p s idx) := by
  rw [Mem.releaseSymrg]
  dsimp only
  split
  · exact refl s
  · split
    · exact refl s
    · exact (of_kernel (kernelChange_release ..)).trans (setSymrg ..)

theorem swept (s : Sys) (p : Pid) :
    SamePages { s with runningList := s.runningList.erase p } (Mem.swept s p) :=
  ((foldl (releasePool p) _ _).trans (setPools ..)).trans (foldl (releaseSymrg p) _ _)

end SamePages

theorem fifo_pcbMemphCollect (s : Sys) (table : PageTable) :
    (pcbMemphCollect s table).fifoPgn = s.fifoPgn := by
  rw [pcbMemphCollect]
  induction table.entries generalizing s with
  | nil => rfl
  | cons v l ih =>
      rw [List.foldl_cons, ih, collectPte]
      split
      · exact fifo_memphyPutFreefp ..
      · split
        · exact fifo_memphyPutFreefp ..
        · rfl

theorem fifo_exitProc (s : Sys) (p : Pid) :
    (exitProc s p).fifoPgn = Function.update s.fifoPgn p [] := by
  rw [exitProc_eq]
  dsimp only
  rw [fifo_pcbMemphCollect, (SamePages.swept s p).fifoPgn]

theorem pgd_exitProc (s : Sys) (p : Pid) : (exitProc s p).pgd = s.pgd := by
  rw [exitProc_eq]
  dsimp only
  rw [pgd_pcbMemphCollect, (SamePages.swept s p).pgd]

theorem Tracked.samePages {log : Log} {s t : Sys} (h : Tracked log s) (hst : SamePages s t) :
    Tracked log t := by
  refine h.frame hst.runningList hst.availPid hst.fifoPgn fun p _ g _ => ?_
  rw [Sys.pte, hst.pgd]
  rfl

/-! ### Steps and runs -/

/-- The moves of one instruction. -/
def runLog (s : Sys) (p : Pid) (ins : Inst) : Log :=
  let a0 := ins.arg0.toNat
  let a1 := ins.arg1.toNat
  let a2 := ins.arg2.toNat
  let a3 := ins.arg3.toNat
  match ins.opcode with
  | .alloc => allocLog s p (toUint32 a1) a0
  | .copyFromUser =>
    if maxSymtblSz ≤ toUint32 a0 ∨ maxSymtblSz ≤ toUint32 a1 then []
    else copyFromUserLog p (toUint32 a0) (toUint32 a1) (toUint32 a2) (toUint32 a3) 0 s
  | .copyToUser =>
    if maxSymtblSz ≤ toUint32 a0 ∨ maxSymtblSz ≤ toUint32 a1 then []
    else copyToUserLog p (toUint32 a0) (toUint32 a1) (toUint32 a2) (toUint32 a3) 0 s
  | .read => accessLog s p (toUint32 a0) a1
  | .write => accessLog s p (toUint32 a1) a2
  | _ => []

/-- The moves of one step. At its exit a process loses all its pages. -/
def stepLog (s : Sys) : Op → Log
  | .load => []
  | .inst p ins _ => runLog s p ins
  | .exit p => Move.leaveAll p (s.fifoPgn p)

/-- The moves of a run. -/
def history (s : Sys) : List Op → Log
  | [] => []
  | op :: ops =>
    match step s op with
    | none => []
    | some t => history t ops ++ stepLog s op

/-- One step of a run without system calls that stays in the lower half. -/
def CallFreeStep (s : Sys) (op : Op) (t : Sys) : Prop :=
  step s op = some t ∧ op.NoSyscall ∧ t.LowBreaks

/-- The same, as a function. -/
def callFreeExec : Sys → List Op → Option Sys :=
  exec (guarded step fun _ op t => decide (op.NoSyscall ∧ t.LowBreaks))

theorem run_of_callFreeExec {s t : Sys} {ops : List Op} (h : callFreeExec s ops = some t) :
    Run CallFreeStep s ops t :=
  run_of_exec_guarded (fun _ _ _ hstep hok => ⟨hstep, of_decide_eq_true hok⟩) h

theorem CallFreeStep.lowStep {s t : Sys} {op : Op} (h : CallFreeStep s op t) : LowStep s op t :=
  ⟨h.1, h.2.1.tame, h.2.2⟩

namespace Tracked

variable {ok : Prop} {ram swp : List Nat} {log : Log} {s t : Sys} {p q : Pid} {g : Nat}

theorem run {ins : Inst} {junk : VmRg} {ret : Int} (h : Tracked log s) (hinv : Inv ok ram swp s)
    (hok : ok) (hp : p ∈ s.runningList) (hcall : ins.opcode ≠ .syscall)
    (hrun : Mem.run s p ins junk = some (ret, t)) (hlow : (t.mmap p).sbrk ≤ 2 ^ 56) :
    Tracked (runLog s p ins ++ log) t := by
  rw [Mem.run] at hrun
  rw [runLog]
  split at hrun
  all_goals
    rename_i hop
    rw [hop]
  · cases hrun
    exact h
  · exact h.alloc hinv hok hrun hlow
  · exact h.samePages (.libkmemMalloc hrun)
  · rw [← snd_eq_of_some hrun]
    exact h.samePages (.libkmemCachePoolCreate ..)
  · exact h.samePages (.libkmemCacheAlloc hrun)
  · rw [← snd_eq_of_some hrun, libkmemCopyFromUser]
    dsimp only
    split
    · exact h
    · exact h.copyFromUser hinv hok hp
  · rw [← snd_eq_of_some hrun, libkmemCopyToUser]
    dsimp only
    split
    · exact h
    · exact h.copyToUser hinv hok hp
  · rw [← snd_eq_of_some hrun]
    exact h.samePages (.free ..)
  · have hread : Tracked (accessLog s p (toUint32 ins.arg0.toNat) ins.arg1.toNat ++ log)
        (Mem.read s p (toUint32 ins.arg0.toNat) ins.arg1.toNat).2 := h.read hinv hok hp
    rw [libread] at hrun
    generalize Mem.read s p (toUint32 ins.arg0.toNat) ins.arg1.toNat = r at hread hrun
    obtain ⟨_ | b, u⟩ := r
    · cases hrun
      exact hread
    · dsimp only at hrun
      split at hrun
      · cases hrun
      · cases hrun
        exact hread.setReg p _ _
  · have hwrite : Tracked (accessLog s p (toUint32 ins.arg1.toNat) ins.arg2.toNat ++ log)
        (Mem.write s p (toUint32 ins.arg1.toNat) ins.arg2.toNat
          (BitVec.ofNat 8 ins.arg0.toNat)).2 := h.write hinv hok hp
    rw [← snd_eq_of_some hrun, libwrite]
    generalize Mem.write s p (toUint32 ins.arg1.toNat) ins.arg2.toNat
      (BitVec.ofNat 8 ins.arg0.toNat) = r at hwrite
    obtain ⟨_ | _, u⟩ := r <;> exact hwrite
  · contradiction

theorem loadProc (h : Tracked log s) (hinv : Inv ok ram swp s)
    (hload : Mem.loadProc s = some t) : Tracked log t := by
  simp only [Mem.loadProc] at hload
  split at hload
  · cases hload
    have hcases (q : Pid) (hq : q ∈ s.runningList ++ [s.availPid]) :
        q ≠ s.availPid ∧ q ∈ s.runningList ∨ q = s.availPid := by
      rcases List.mem_append.mp hq with hq | hq
      · exact .inl ⟨Nat.ne_of_lt (hinv.fresh q hq), hq⟩
      · exact .inr (List.mem_singleton.mp hq)
    exact
    { valid := h.valid
      known := fun k hk => Nat.lt_succ_of_lt (h.known k hk)
      fifo := fun q hq => by
        rcases hcases q hq with ⟨hne, hq⟩ | rfl
        · simp only [Function.update_of_ne hne]
          exact h.fifo q hq
        · -- the pid is new, so no page in the history is of this process
          simp only [Function.update_self]
          refine (List.eq_nil_iff_forall_not_mem.mpr fun g hg => ?_).symm
          exact Nat.lt_irrefl _ (h.known _ (Move.mem_ofClass.mp hg))
      present := fun q hq g hg => by
        rcases hcases q hq with ⟨hne, hq⟩ | rfl
        · simp only [Sys.pte, Function.update_of_ne hne]
          exact h.present q hq g hg
        · simp only [Sys.pte, Function.update_self]
          exact ⟨fun hpres => (by cases hpres), fun hmem => (by cases hmem)⟩ }
  · cases hload

/-- The pages of a process that exits go out, and those of the others stay. -/
theorem exitProc (h : Tracked log s) (hinv : Inv ok ram swp s) (p : Pid) :
    Tracked (Move.leaveAll p (s.fifoPgn p) ++ log) (Mem.exitProc s p) := by
  have hpriv := exitProc_private s p
  have hfifo := fifo_exitProc s p
  have hpgd := pgd_exitProc s p
  have hother (q : Pid) (hq : q ∈ (Mem.exitProc s p).runningList) : q ≠ p ∧ q ∈ s.runningList := by
    rw [hpriv.runningList] at hq
    exact hinv.nodup.mem_erase_iff.mp hq
  exact
  { valid := Move.valid_leaveAll h.valid _
    known := fun k hk => by
      rw [hpriv.availPid]
      exact h.known k (Move.inside_leaveAll_subset _ _ _ hk)
    fifo := fun q hq => by
      obtain ⟨hne, hq⟩ := hother q hq
      rw [hfifo, Function.update_of_ne hne, Move.ofClass_leaveAll hne]
      exact h.fifo q hq
    present := fun q hq g hg => by
      obtain ⟨hne, hq⟩ := hother q hq
      rw [hfifo, Function.update_of_ne hne, Sys.pte, hpgd]
      exact h.present q hq g hg }

theorem boot (ramSz swpSz : Nat) (host : Nat → Bool) : Tracked [] (Mem.boot ramSz swpSz host) where
  valid := trivial
  known _ hk := by cases hk
  fifo _ hp := by cases hp
  present _ hp := by cases hp

theorem step {op : Op} (h : Tracked log s) (hinv : Inv ok ram swp s) (hok : ok)
    (hstep : CallFreeStep s op t) : Tracked (stepLog s op ++ log) t := by
  obtain ⟨hstep, hcall, hlow⟩ := hstep
  obtain ⟨rfl, hload⟩ | ⟨p, rfl, -, rfl⟩ | ⟨p, ins, junk, ret, rfl, hp, hrun⟩ := step_cases hstep
  · exact h.loadProc hinv hload
  · exact h.exitProc hinv p
  · refine h.run hinv hok hp hcall hrun (hlow p ?_)
    rw [(Private.run hrun).runningList]
    exact hp

/-- The history of a run, added to what was known before. -/
theorem of_run {ops : List Op} (hrun : Run CallFreeStep s ops t) (h : Tracked log s)
    (hinv : Inv ok [] [] s) (hs : s.LowBreaks) (hok : ok) :
    Tracked (history s ops ++ log) t := by
  induction hrun generalizing log with
  | nil s => exact h
  | cons hstep rest ih =>
      have htracked := h.step hinv hok hstep
      rw [history, hstep.1]
      dsimp only
      rw [List.append_assoc]
      exact ih htracked (hinv.lowStep hstep.lowStep) hstep.2.2

end Tracked

/-! ### First in, first out -/

/-- The page of the process is in RAM. -/
def Resident (s : Sys) (p : Pid) (g : Nat) : Prop :=
  g < userPgns ∧ pagePresent (s.pte p g) = true

/-- No page of the process has come in before this one. -/
def LongestResident (log : Log) (s : Sys) (p : Pid) (g : Nat) : Prop :=
  Resident s p g ∧ ∀ g', Resident s p g' → Move.arrivedAt (p, g) log ≤ Move.arrivedAt (p, g') log

/-- The page list holds the pages in RAM, the newest first. -/
structure FifoOrdered (log : Log) (s : Sys) (p : Pid) : Prop where
  nodup : (s.fifoPgn p).Nodup
  resident : ∀ g, g ∈ s.fifoPgn p ↔ Resident s p g
  newestFirst : (s.fifoPgn p).Pairwise fun newer older =>
    Move.arrivedAt (p, older) log < Move.arrivedAt (p, newer) log

/-- The caller, if it has a page in RAM, and else the first process of the
running list that has one. -/
def VictimProc (s : Sys) (caller q : Pid) : Prop :=
  (∃ g, Resident s q g) ∧
    (q = caller ∨ (∀ g, ¬Resident s caller g) ∧
      ∃ before after, s.runningList = before ++ q :: after ∧
        ∀ q' ∈ before, ∀ g, ¬Resident s q' g)

/-- Page `g` of `q` is swapped out, and no other page of a live process
changes its place. -/
structure SwapsOut (s t : Sys) (q : Pid) (g : Nat) : Prop where
  swapped : pageSwapped (t.pte q g) = true
  others : ∀ q' ∈ s.runningList, ∀ g' < userPgns, ¬(q' = q ∧ g' = g) → t.pte q' g' = s.pte q' g'

/-- `swap_out_victim_page` evicts the page that is in RAM for the longest
time, and fails if there is none. -/
structure EvictsOldest (log : Log) (s : Sys) (caller : Pid) : Prop where
  takes : (∃ q ∈ s.runningList, ∃ g, Resident s q g) →
    ∃ q g f t, VictimProc s caller q ∧ LongestResident log s q g ∧ s.pte q g = presentPte f ∧
      swapOutVictimPage s caller = (some f, t) ∧ SwapsOut s t q g
  fails : (∀ q ∈ s.runningList, ∀ g, ¬Resident s q g) → (swapOutVictimPage s caller).1 = none

namespace Tracked

variable {ok : Prop} {ram swp : List Nat} {log : Log} {s t : Sys} {p q : Pid} {g : Nat}

theorem fifoOrdered (h : Tracked log s) (hinv : Inv ok ram swp s) (hp : p ∈ s.runningList) :
    FifoOrdered log s p where
  nodup := h.nodup hp
  resident g := by
    constructor
    · intro hg
      have hlt := hinv.fifo p hp g hg
      exact ⟨hlt, (h.present p hp g hlt).mpr hg⟩
    · rintro ⟨hlt, hpres⟩
      exact (h.present p hp g hlt).mp hpres
  newestFirst := by
    rw [h.fifo p hp]
    exact Move.pairwise_ofClass h.valid

end Tracked

namespace FifoOrdered

variable {log : Log} {s : Sys} {q : Pid} {g : Nat}

/-- The tail of the list is the page that came in first. -/
theorem longestResident (h : FifoOrdered log s q) (hlast : (s.fifoPgn q).getLast? = some g) :
    LongestResident log s q g := by
  refine ⟨(h.resident g).mp (List.mem_of_getLast? hlast), fun g' hres => ?_⟩
  have hmem := (h.resident g').mpr hres
  have hpair := h.newestFirst
  rw [← List.dropLast_append_getLast? g hlast] at hmem hpair
  rcases List.mem_append.mp hmem with hmem | hmem
  · exact Nat.le_of_lt ((List.pairwise_append.mp hpair).2.2 g' hmem g (List.mem_singleton_self g))
  · rw [List.mem_singleton.mp hmem]

theorem oldest_eq_none (h : FifoOrdered log s q) (hnone : oldest s q = none) :
    ∀ g, ¬Resident s q g := by
  intro g hres
  have hnil : s.fifoPgn q = [] := by simpa [oldest] using hnone
  have hmem := (h.resident g).mpr hres
  rw [hnil] at hmem
  cases hmem

end FifoOrdered

namespace Tracked

variable {ok : Prop} {ram swp : List Nat} {log : Log} {s t : Sys} {p q : Pid} {g : Nat}

theorem victimProc (h : Tracked log s) (hinv : Inv ok ram swp s) (hp : p ∈ s.runningList)
    (hvic : victimOf s p = some (q, g)) : VictimProc s p q := by
  obtain ⟨hq, hlast⟩ := victimOf_eq_some hp hvic
  refine ⟨⟨g, ((h.fifoOrdered hinv hq).longestResident hlast).1⟩, ?_⟩
  rcases Option.or_eq_some_iff.mp hvic with hown | ⟨hnone, hother⟩
  · exact .inl (oldest_eq_some hown).1
  · have hidle := (h.fifoOrdered hinv hp).oldest_eq_none hnone
    obtain ⟨before, q', after, heq, hfound, hbefore⟩ := List.findSome?_eq_some_iff.mp hother
    split at hfound
    · cases hfound
    · obtain ⟨rfl, -⟩ := oldest_eq_some hfound
      refine .inr ⟨hidle, before, after, heq, fun q' hq' => ?_⟩
      have hnone' := hbefore q' hq'
      split at hnone'
      · rename_i hcaller
        rw [hcaller]
        exact hidle
      · refine (h.fifoOrdered hinv ?_).oldest_eq_none hnone'
        rw [heq]
        exact List.mem_append_left _ hq'

theorem victimOf_eq_none (h : Tracked log s) (hinv : Inv ok ram swp s) (hp : p ∈ s.runningList)
    (hnone : victimOf s p = none) : ∀ q ∈ s.runningList, ∀ g, ¬Resident s q g := by
  obtain ⟨hown, hother⟩ := Option.or_eq_none_iff.mp hnone
  intro q hq
  refine (h.fifoOrdered hinv hq).oldest_eq_none ?_
  rcases eq_or_ne q p with rfl | hne
  · exact hown
  · have hnone' := List.findSome?_eq_none_iff.mp hother q hq
    rwa [if_neg hne] at hnone'

theorem evictsOldest (h : Tracked log s) (hinv : Inv ok ram swp s) (hp : p ∈ s.runningList)
    (hswp : s.freeFpList .mswp ≠ []) : EvictsOldest log s p := by
  obtain ⟨o, rest, hfree⟩ := List.exists_cons_of_ne_nil hswp
  obtain ⟨-, hnone, hsome⟩ := h.swapOut hinv hp
  cases hvic : victimOf s p with
  | none =>
      have hidle := h.victimOf_eq_none hinv hp hvic
      refine ⟨?_, fun _ => by rw [hnone o rest hfree hvic]⟩
      rintro ⟨q, hq, g, hres⟩
      exact absurd hres (hidle q hq g)
  | some vic =>
      obtain ⟨q, g⟩ := vic
      obtain ⟨hq, hlast⟩ := victimOf_eq_some hp hvic
      have hlong := (h.fifoOrdered hinv hq).longestResident hlast
      obtain ⟨f, -, hpte, heq⟩ := hsome o rest hfree q g hvic
      refine ⟨fun _ => ⟨q, g, f, _, h.victimProc hinv hp hvic, hlong, hpte, heq, ?_⟩,
        fun hidle => ?_⟩
      · have hhas : ((popped (s.setSwapFree rest) q).pgd q).has (pgnPath g) :=
          has_of_pte_ne_zero (s := s) (by rw [hpte]; simp [presentPte])
        refine ⟨?_, fun q' _ g' hg' hne => ?_⟩
        · rw [pte_evicted hhas hlong.1.1 f o q hlong.1.1, if_pos ⟨rfl, rfl⟩]
          simp
        · rw [pte_evicted hhas hlong.1.1 f o q' hg', if_neg hne]
          rfl
      · exact absurd hlong.1 (hidle q hq g)

end Tracked

/-- Page lists are in the order in which the pages came in, and an eviction
that gets a frame of the swap takes the page that came in first. -/
theorem replacement_fifo {ramSz swpSz : Nat} {ops : List Op} {s : Sys}
    (hrun : Run CallFreeStep (boot ramSz swpSz fun _ => true) ops s) :
    (∀ p ∈ s.runningList, FifoOrdered (history (boot ramSz swpSz fun _ => true) ops) s p) ∧
    ∀ caller ∈ s.runningList,
      (s.freeFpList .mswp ≠ [] →
        EvictsOldest (history (boot ramSz swpSz fun _ => true) ops) s caller) ∧
      (s.freeFpList .mswp = [] → swapOutVictimPage s caller = (none, s)) := by
  obtain ⟨hinv, -⟩ := inv_of_run (hrun.mono fun _ _ _ hstep => hstep.lowStep)
  have hboot : (boot ramSz swpSz fun _ => true).LowBreaks := by
    intro p hp
    cases hp
  have htracked := Tracked.of_run hrun (.boot ramSz swpSz _) (.boot ramSz swpSz _) hboot rfl
  rw [List.append_nil] at htracked
  exact ⟨fun p hp => htracked.fifoOrdered hinv hp, fun p hp =>
    ⟨htracked.evictsOldest hinv hp, (htracked.swapOut hinv hp).full⟩⟩

/-- Two pages in RAM and room for one in the swap. -/
def twoResident : List Op :=
  [.load, .inst 1 { opcode := .alloc, arg0 := 4096, arg1 := 0 } ⟨0, 0⟩, .load,
    .inst 1 { opcode := .alloc, arg0 := 4096, arg1 := 1 } ⟨0, 0⟩]

theorem twoResident_isSome :
    (callFreeExec (boot 8192 4096 fun _ => true) twoResident).isSome = true := by
  decide +kernel

theorem replacement_fifo_twoResident : ∃ s,
    Run CallFreeStep (boot 8192 4096 fun _ => true) twoResident s ∧
      s.fifoPgn 1 = [1, 0] ∧ s.freeFpList .mswp = [0] ∧
      FifoOrdered (history (boot 8192 4096 fun _ => true) twoResident) s 1 ∧
      EvictsOldest (history (boot 8192 4096 fun _ => true) twoResident) s 2 := by
  have hrun := run_of_callFreeExec (Option.some_get twoResident_isSome).symm
  have hfifo := replacement_fifo hrun
  refine ⟨_, hrun, by decide +kernel, by decide +kernel, ?_, ?_⟩
  · exact hfifo.1 1 (by decide +kernel)
  · exact (hfifo.2 2 (by decide +kernel)).1 (by decide +kernel)

/-- One page in RAM, and no swap at all. -/
def noSwap : List Op := [.load, .inst 1 { opcode := .alloc, arg0 := 4096, arg1 := 0 } ⟨0, 0⟩]

theorem noSwap_isSome : (callFreeExec (boot 4096 0 fun _ => true) noSwap).isSome = true := by
  decide +kernel

/-- An eviction that finds no victim is not one of the oldest page, if there
is a page in RAM. -/
theorem not_evictsOldest {log : Log} {s : Sys} {caller q : Pid} {g : Nat} (hq : q ∈ s.runningList)
    (hres : Resident s q g) (hnone : (swapOutVictimPage s caller).1 = none) :
    ¬EvictsOldest log s caller := by
  intro h
  obtain ⟨_, _, _, _, -, -, -, heq, -⟩ := h.takes ⟨q, hq, g, hres⟩
  rw [heq] at hnone
  cases hnone

/-- The caller has a page in RAM and nothing is evicted. -/
theorem noSwap_evicts_nothing : ∃ s, Run CallFreeStep (boot 4096 0 fun _ => true) noSwap s ∧
    1 ∈ s.runningList ∧ Resident s 1 0 ∧
      ¬EvictsOldest (history (boot 4096 0 fun _ => true) noSwap) s 1 := by
  have hres : Resident ((callFreeExec (boot 4096 0 fun _ => true) noSwap).get noSwap_isSome) 1 0 :=
    ⟨by decide, by decide +kernel⟩
  exact ⟨_, run_of_callFreeExec (Option.some_get noSwap_isSome).symm, by decide +kernel, hres,
    not_evictsOldest (q := 1) (g := 0) (by decide +kernel) hres (by decide +kernel)⟩

end Ossim.Mem
