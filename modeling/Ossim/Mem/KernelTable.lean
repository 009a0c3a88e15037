import Ossim.Mem.Eviction
import Ossim.Mem.Placement

/-!
User memory leaves the kernel page table alone.

`pte_set_entry` and `walk_pte` pick the page table by the address: with an
address of the upper half they would write into the kernel page table. As
long as the breaks are in the lower half, no page that is evicted, mapped or
brought back has such an address.
-/

namespace Ossim.Mem

open Ossim.Lib

/-! ### Single entries -/

theorem krnlPgd_memphyPutFreefp (s : Sys) (d : Dev) (x : Nat) :
    (memphyPutFreefp s d x).krnlPgd = s.krnlPgd := by
  obtain ⟨-, h⟩ | ⟨-, h⟩ := memphyPutFreefp_cases s d x <;> rw [h]

theorem krnlPgd_releaseFrameList (s : Sys) (frames : List Nat) :
    (releaseFrameList s frames).krnlPgd = s.krnlPgd := by
  induction frames generalizing s with
  | nil => rfl
  | cons f frames ih =>
      change (releaseFrameList (memphyPutFreefp s .mram f) frames).krnlPgd = _
      rw [ih, krnlPgd_memphyPutFreefp]

theorem krnlPgd_pteSetEntry {s : Sys} {p : Pid} {g : Nat} (hg : g < userPgns) (v : Nat) :
    (pteSetEntry s p g v).2.krnlPgd = s.krnlPgd := by
  rw [pteSetEntry_user hg]

theorem krnlPgd_enlistPgnNode (s : Sys) (p : Pid) (g : Nat) :
    (enlistPgnNode s p g).2.krnlPgd = s.krnlPgd := by
  rw [enlistPgnNode]
  split <;> rfl

/-! ### Growth -/

theorem krnlPgd_walkPages (p : Pid) {pgn left pgit : Nat} (s : Sys)
    (hlt : pgn + pgit + left ≤ userPgns) :
    (walkPages p pgn left pgit s).2.krnlPgd = s.krnlPgd := by
  induction left generalizing pgit s with
  | zero => rfl
  | succ left ih =>
      have haddr := (pgnAddr_user (show pgn + pgit < userPgns by omega)).2
      rw [walkPages, walkPte_user haddr]
      dsimp only
      split
      · rename_i t ht
        exact congrArg (Sys.krnlPgd ∘ Prod.snd) ht.symm
      · rename_i t ht
        rw [ih t (by omega)]
        exact congrArg (Sys.krnlPgd ∘ Prod.snd) ht.symm

theorem krnlPgd_mapFrames (p : Pid) {pgn left pgit : Nat} (frames : List Nat) (s : Sys)
    (hlt : pgn + pgit + left ≤ userPgns) :
    (mapFrames p pgn left pgit frames s).2.2.krnlPgd = s.krnlPgd := by
  induction left generalizing pgit frames s with
  | zero => rfl
  | succ left ih =>
      cases frames with
      | nil => rfl
      | cons f next =>
          have hg : pgn + pgit < userPgns := by omega
          have hset := krnlPgd_pteSetEntry (s := s) (p := p) hg (presentPte f)
          rw [← pteSetFpn] at hset
          rw [mapFrames]
          generalize pteSetFpn s p (pgn + pgit) f = r at hset
          obtain ⟨_ | _, t⟩ := r
          · exact (krnlPgd_releaseFrameList ..).trans hset
          · have henlist := (krnlPgd_enlistPgnNode t p (pgn + pgit)).trans hset
            dsimp only
            generalize enlistPgnNode t p (pgn + pgit) = r at henlist
            obtain ⟨_ | _, u⟩ := r
            · dsimp only
              rw [krnlPgd_releaseFrameList, krnlPgd_memphyPutFreefp, krnlPgd_pteSetEntry hg]
              exact henlist
            · exact (ih next u (by omega)).trans henlist

theorem krnlPgd_vmapPageRange {s : Sys} {p : Pid} {addr : Nat} {n : Int} (frames : List Nat)
    (rg : VmRg) (hlow : addr + n.toNat * pageSz ≤ 2 ^ 56) :
    (vmapPageRange s p addr n frames rg).2.2.krnlPgd = s.krnlPgd := by
  have hlt : addr / 2 ^ 12 + 0 + n.toNat ≤ userPgns := by
    simp only [pageSz, userPgns] at *
    omega
  have hwalk := krnlPgd_walkPages p s hlt
  rw [vmapPageRange]
  dsimp only
  split
  · exact krnlPgd_releaseFrameList ..
  · generalize walkPages p (addr / 2 ^ 12) n.toNat 0 s = r at hwalk
    obtain ⟨_ | _, t⟩ := r
    · exact (krnlPgd_releaseFrameList ..).trans hwalk
    · exact (krnlPgd_mapFrames p frames t hlt).trans hwalk

namespace Inv

variable {ok : Prop} {ram swp : List Nat} {s t : Sys} {p : Pid} {g : Nat}

/-- Victims are user pages. -/
theorem krnlPgd_swapOut (h : Inv ok ram swp s) (hp : p ∈ s.runningList) :
    (Mem.swapOutVictimPage s p).2.krnlPgd = s.krnlPgd := by
  cases hfree : s.freeFpList .mswp with
  | nil => rw [Mem.swapOutVictimPage, memphyGetFreefp, hfree]
  | cons o rest =>
      obtain ⟨fifo, ht, -, -⟩ := findGlobalVictim_spec (s.setSwapFree rest) p
      cases hvic : findGlobalVictim (s.setSwapFree rest) p with
      | mk vic t =>
          rw [hvic] at ht
          cases vic with
          | none =>
              rw [Mem.swapOutVictimPage, memphyGetFreefp, hfree]
              dsimp only
              rw [← Sys.setSwapFree, hvic]
              dsimp only at ht ⊢
              rw [krnlPgd_memphyPutFreefp, ht]
              rfl
          | some vic =>
              obtain ⟨q, g, v⟩ := vic
              rw [h.swapOut_found hp hfree hvic]
              dsimp only at ht
              rw [ht]
              rfl

theorem krnlPgd_getFrame (h : Inv ok ram swp s) (hp : p ∈ s.runningList) :
    (Mem.getFrame s p).2.krnlPgd = s.krnlPgd := by
  rw [Mem.getFrame]
  cases hget : memphyGetFreefp s .mram with
  | none => exact h.krnlPgd_swapOut hp
  | some r =>
      obtain ⟨f, t⟩ := r
      obtain ⟨rest, -, rfl⟩ := memphyGetFreefp_eq_some hget
      rfl

theorem krnlPgd_allocPages {n : Nat} {frames : List Nat} (h : Inv ok (frames ++ ram) swp s)
    (hp : p ∈ s.runningList) : (Mem.allocPages p n frames s).2.2.krnlPgd = s.krnlPgd := by
  induction n generalizing frames s with
  | zero => rfl
  | succ n ih =>
      have hframe := h.getFrame hp
      have hsame := h.krnlPgd_getFrame hp
      have hrun := congrArg Sys.Meta.runningList (getFrame_spec s p).1
      rw [Mem.allocPages]
      generalize Mem.getFrame s p = r at hframe hsame hrun
      obtain ⟨_ | f, t⟩ := r
      · exact (krnlPgd_releaseFrameList ..).trans hsame
      · have hdraw := hframe.drawHost
        dsimp only at hsame hrun ⊢
        generalize draw t.host = dr at hdraw
        obtain ⟨_ | _, host⟩ := dr
        · dsimp only
          rw [krnlPgd_releaseFrameList, krnlPgd_memphyPutFreefp]
          exact hsame
        · refine (ih ?_ ?_).trans hsame
          · refine hdraw.perm ?_
            rw [List.append_assoc, List.singleton_append]
            exact List.perm_middle.symm
          · change p ∈ t.runningList
            rw [show t.runningList = s.runningList from hrun]
            exact hp

theorem krnlPgd_vmMapRam {addr : Nat} {n : Int} (rg : VmRg) (h : Inv ok ram swp s)
    (hp : p ∈ s.runningList) (hlow : addr + n.toNat * pageSz ≤ 2 ^ 56) :
    (Mem.vmMapRam s p addr n rg).2.2.krnlPgd = s.krnlPgd := by
  have halloc : (Mem.allocPagesRange s p n).2.2.krnlPgd = s.krnlPgd := by
    rw [Mem.allocPagesRange]
    split
    · rfl
    · exact krnlPgd_allocPages (show Inv ok ([] ++ ram) swp s from h) hp
  rw [Mem.vmMapRam]
  generalize Mem.allocPagesRange s p n = r at halloc
  obtain ⟨code, frames, t⟩ := r
  have hvmap := (krnlPgd_vmapPageRange (s := t) (p := p) frames rg hlow).trans halloc
  dsimp only
  split
  · exact halloc
  · split
    · exact halloc
    · split <;> exact hvmap

theorem krnlPgd_incVmaLimit {vmaid : Int} {inc : Nat} {junk : VmRg} {ret : Int}
    (h : Inv ok ram swp s) (hp : p ∈ s.runningList)
    (hgrow : Mem.incVmaLimit s p vmaid inc junk = some (ret, t))
    (hlow : (t.mmap p).sbrk ≤ 2 ^ 56) : t.krnlPgd = s.krnlPgd := by
  obtain ⟨-, rfl⟩ | ⟨href, -, rfl⟩ := incVmaLimit_cases hgrow
  · rfl
  · rw [sbrk_grown] at hlow
    obtain ⟨hmoved, -, hend, hsbrk, -⟩ := h.breakMoved hp href hlow
    exact hmoved.krnlPgd_vmMapRam junk hp (hend.trans hsbrk)

theorem krnlPgd_alloc {rgid size : Nat} {junk : VmRg} {ret : Int} (h : Inv ok ram swp s)
    (halloc : Mem.alloc s p rgid size junk = some (ret, t))
    (hlow : (t.mmap p).sbrk ≤ 2 ^ 56) : t.krnlPgd = s.krnlPgd := by
  have hsearch (u : Sys) : (Mem.getFreeVmrgArea u p (toInt size)).2.krnlPgd = u.krnlPgd := by
    rw [Mem.getFreeVmrgArea]
    split
    · rfl
    · dsimp only
      split <;> rfl
  rw [Mem.alloc] at halloc
  split at halloc
  · cases halloc
    rfl
  · have hget := h.getFreeVmrgArea p (toInt size)
    have hfirst := hsearch s
    generalize Mem.getFreeVmrgArea s p (toInt size) = r at hget hfirst halloc
    obtain ⟨_ | rg, s₁⟩ := r
    · dsimp only at halloc
      split at halloc
      · cases halloc
        exact hfirst
      · rename_i hp₁
        split at halloc
        · cases halloc
        · rename_i sret s₂ hs₂
          have hgrow (hlow₂ : (s₂.mmap p).sbrk ≤ 2 ^ 56) : s₂.krnlPgd = s.krnlPgd :=
            (hget.krnlPgd_incVmaLimit (not_not.mp hp₁) hs₂ hlow₂).trans hfirst
          split at halloc
          · cases halloc
            exact hgrow hlow
          · have hsbrk := sbrk_getFreeVmrgArea s₂ p (toInt size) p
            have hagain := hsearch s₂
            split at halloc
            all_goals
              rename_i hs₃
              rw [hs₃] at hsbrk hagain
              cases halloc
              exact hagain.trans (hgrow (hsbrk ▸ hlow))
    · cases halloc
      exact hfirst

/-! ### Accesses -/

theorem krnlPgd_pgGetpage (h : Inv ok ram swp s) (hp : p ∈ s.runningList) (hg : g < userPgns) :
    (Mem.pgGetpage s p g).2.krnlPgd = s.krnlPgd := by
  have hkrnl := h.krnlPgd_swapOut hp
  generalize hr : Mem.pgGetpage s p g = r
  cases pgGetpage_cases hr with
  | present => rfl
  | absent => rfl
  | noFrame t _ _ hout =>
      rw [hout] at hkrnl
      exact hkrnl
  | noCopy f t st _ _ hout =>
      rw [hout] at hkrnl
      exact hkrnl
  | back f t st u _ _ hout _ hu =>
      rw [hout] at hkrnl
      rw [hu, broughtIn, krnlPgd_enlistPgnNode, pteSetFpn, krnlPgd_pteSetEntry hg,
        krnlPgd_memphyPutFreefp]
      exact hkrnl

theorem krnlPgd_pgGetval {addr : Nat} (h : Inv ok ram swp s) (hp : p ∈ s.runningList)
    (haddr : addr < 2 ^ 56) : (Mem.pgGetval s p addr).2.krnlPgd = s.krnlPgd := by
  have hpage := h.krnlPgd_pgGetpage hp (g := addr / 2 ^ 12) (by simp only [userPgns]; omega)
  rw [Mem.pgGetval]
  generalize Mem.pgGetpage s p (addr / 2 ^ 12) = r at hpage
  obtain ⟨_ | f, t⟩ := r <;> exact hpage

theorem krnlPgd_pgSetval {addr : Nat} (v : Byte) (c : Bool) (h : Inv ok ram swp s)
    (hp : p ∈ s.runningList) (haddr : addr < 2 ^ 56) :
    (Mem.pgSetval s p addr v c).2.krnlPgd = s.krnlPgd := by
  have hpage := h.krnlPgd_pgGetpage hp (g := addr / 2 ^ 12) (by simp only [userPgns]; omega)
  rw [Mem.pgSetval]
  generalize Mem.pgGetpage s p (addr / 2 ^ 12) = r at hpage
  obtain ⟨_ | f, t⟩ := r
  · exact hpage
  · dsimp only
    split
    · exact hpage
    · rename_i u hu
      rw [memphyWrite_eq_some hu]
      exact hpage

theorem krnlPgd_readUserMem (rgid offset : Nat) (h : Inv ok ram swp s) (hp : p ∈ s.runningList) :
    (Mem.readUserMem s p rgid offset).2.krnlPgd = s.krnlPgd := by
  rw [Mem.readUserMem]
  split
  · rfl
  · split
    · rfl
    · rename_i addr haddr
      exact h.krnlPgd_pgGetval hp (userAccess_lt haddr)

theorem krnlPgd_writeUserMem (rgid offset : Nat) (v : Byte) (h : Inv ok ram swp s)
    (hp : p ∈ s.runningList) : (Mem.writeUserMem s p rgid offset v).2.krnlPgd = s.krnlPgd := by
  rw [Mem.writeUserMem]
  split
  · rfl
  · split
    · rfl
    · rename_i addr haddr
      exact h.krnlPgd_pgSetval v true hp (userAccess_lt haddr)

theorem krnlPgd_copyFromUser {source destination offset left idx : Nat} (h : Inv ok ram swp s)
    (hp : p ∈ s.runningList) :
    (Mem.copyFromUser p source destination offset left idx s).2.krnlPgd = s.krnlPgd := by
  induction left generalizing idx s with
  | zero => rfl
  | succ left ih =>
      have hread : Inv ok ram swp (Mem.readUserMem s p source (toUint32 (offset + idx))).2 :=
        h.readUserMem hp
      have hsame := h.krnlPgd_readUserMem source (toUint32 (offset + idx)) hp
      have hmeta := meta_readUserMem s p source (toUint32 (offset + idx))
      rw [Mem.copyFromUser]
      generalize Mem.readUserMem s p source (toUint32 (offset + idx)) = r at hread hsame hmeta
      obtain ⟨_ | b, t⟩ := r
      · exact hsame
      · dsimp only
        cases hwrite : Mem.writeKernelMem t p destination (toUint32 (offset + idx)) b with
        | none => exact hsame
        | some u =>
            have hinv := hread.writeKernelMem hwrite
            obtain ⟨st, rfl⟩ := writeKernelMem_eq hwrite
            refine (ih hinv ?_).trans hsame
            change p ∈ t.runningList
            rw [show t.runningList = s.runningList from congrArg Sys.Meta.runningList hmeta]
            exact hp

theorem krnlPgd_copyToUser {source destination offset left idx : Nat} (h : Inv ok ram swp s)
    (hp : p ∈ s.runningList) :
    (Mem.copyToUser p source destination offset left idx s).2.krnlPgd = s.krnlPgd := by
  induction left generalizing idx s with
  | zero => rfl
  | succ left ih =>
      rw [Mem.copyToUser]
      cases readKernelMem s p source (toUint32 (offset + idx)) with
      | none => rfl
      | some b =>
          have hwrite : Inv ok ram swp
              (Mem.writeUserMem s p destination (toUint32 (offset + idx)) b).2 := h.writeUserMem hp
          have hsame := h.krnlPgd_writeUserMem destination (toUint32 (offset + idx)) b hp
          obtain ⟨stores, hmeta⟩ := meta_writeUserMem s p destination (toUint32 (offset + idx)) b
          dsimp only
          generalize Mem.writeUserMem s p destination (toUint32 (offset + idx)) b = r
            at hwrite hsame hmeta
          obtain ⟨_ | _, t⟩ := r
          · exact hsame
          · refine (ih hwrite ?_).trans hsame
            rw [show t.runningList = s.runningList from congrArg Sys.Meta.runningList hmeta]
            exact hp

/-- Accesses to user memory and copies between the two halves. -/
theorem krnlPgd_access {ins : Inst} {junk : VmRg} {ret : Int} (h : Inv ok ram swp s)
    (hp : p ∈ s.runningList) (hop : ins.opcode ∈ [.read, .write, .copyFromUser, .copyToUser])
    (hrun : Mem.run s p ins junk = some (ret, t)) : t.krnlPgd = s.krnlPgd := by
  simp only [List.mem_cons, List.not_mem_nil, or_false] at hop
  rcases hop with hop | hop | hop | hop
  all_goals rw [Mem.run, hop] at hrun
  · have hread : (Mem.read s p (toUint32 ins.arg0.toNat) ins.arg1.toNat).2.krnlPgd =
        s.krnlPgd := by
      rw [Mem.read]
      split
      · rfl
      · split
        · rfl
        · rename_i addr haddr
          exact h.krnlPgd_pgGetval hp (userAccess_lt haddr)
    dsimp only at hrun
    rw [Mem.libread] at hrun
    generalize Mem.read s p (toUint32 ins.arg0.toNat) ins.arg1.toNat = r at hread hrun
    obtain ⟨_ | b, u⟩ := r
    · cases hrun
      exact hread
    · dsimp only at hrun
      split at hrun
      · cases hrun
      · cases hrun
        exact hread
  · have hwrite : (Mem.write s p (toUint32 ins.arg1.toNat) ins.arg2.toNat
        (BitVec.ofNat 8 ins.arg0.toNat)).2.krnlPgd = s.krnlPgd := by
      rw [Mem.write]
      split
      · rfl
      · split
        · rfl
        · rename_i addr haddr
          exact h.krnlPgd_pgSetval _ _ hp (userAccess_lt haddr)
    rw [← snd_eq_of_some hrun, Mem.libwrite]
    generalize Mem.write s p (toUint32 ins.arg1.toNat) ins.arg2.toNat
      (BitVec.ofNat 8 ins.arg0.toNat) = r at hwrite
    obtain ⟨_ | _, u⟩ := r <;> exact hwrite
  · rw [← snd_eq_of_some hrun, libkmemCopyFromUser]
    split
    · rfl
    · exact h.krnlPgd_copyFromUser hp
  · rw [← snd_eq_of_some hrun, libkmemCopyToUser]
    split
    · rfl
    · exact h.krnlPgd_copyToUser hp

end Inv

theorem krnlPgd_free (s : Sys) (p : Pid) (rgid : Nat) : (free s p rgid).2.krnlPgd = s.krnlPgd := by
  rw [free]
  split
  · rfl
  · dsimp only
    split
    · rfl
    · split <;> rfl

end Ossim.Mem
