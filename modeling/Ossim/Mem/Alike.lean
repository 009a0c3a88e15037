import Ossim.Mem.Lifecycle

/-!
No decision of the memory manager looks at stored bytes.

Two states that differ only in the bytes of the devices, in registers and in
the values of recorded stores take the same path through every operation:
the same frames are taken, the same pages evicted, the same codes returned.
What a process stores can therefore reach another one only as contents of a
frame.
-/

namespace Ossim.Mem

open Ossim.Lib

/-- Two records of one store. The values may differ, unless they came with
an instruction of process `p`. -/
structure SameStore (p : Pid) (e e' : Store) : Prop where
  pid : e'.pid = e.pid
  addr : e'.addr = e.addr
  copied : e'.copied = e.copied
  value : e.pid = p → e.copied = false → e'.value = e.value

/-- The same state but for bytes, registers and the values of stores. -/
def Alike (p : Pid) (s t : Sys) : Prop :=
  ∃ storage regs stores, t = { s with storage := storage, regs := regs, stores := stores } ∧
    List.Forall₂ (SameStore p) s.stores stores

/-- The same result in states that are alike. -/
inductive AlikeR {α : Type} (p : Pid) : α × Sys → α × Sys → Prop
  | mk (a : α) {s t : Sys} (h : Alike p s t) : AlikeR p (a, s) (a, t)

/-- The same pair of results. -/
inductive AlikePair {α β : Type} (p : Pid) : α × β × Sys → α × β × Sys → Prop
  | mk (a : α) (b : β) {s t : Sys} (h : Alike p s t) : AlikePair p (a, b, s) (a, b, t)

/-- A byte, or none, in both states. -/
inductive AlikeByte (p : Pid) : Option Byte × Sys → Option Byte × Sys → Prop
  | none {s t : Sys} (h : Alike p s t) : AlikeByte p (none, s) (none, t)
  | some (b b' : Byte) {s t : Sys} (h : Alike p s t) : AlikeByte p (some b, s) (some b', t)

theorem AlikeR.snd {α : Type} {p : Pid} {r r' : α × Sys} (h : AlikeR p r r') :
    Alike p r.2 r'.2 := by
  cases h with
  | mk a h => exact h

namespace Alike

variable {p q : Pid} {s t : Sys}

theorem foldl {α : Type} {f : Sys → α → Sys}
    (hf : ∀ s t a, Alike p s t → Alike p (f s a) (f t a)) (l : List α) (h : Alike p s t) :
    Alike p (l.foldl f s) (l.foldl f t) := by
  induction l generalizing s t with
  | nil => exact h
  | cons a l ih => exact ih (hf s t a h)

/-! ### Fields -/

theorem host (h : Alike p s t) : t.host = s.host := by
  obtain ⟨_, _, _, rfl, -⟩ := h
  rfl

theorem root (h : Alike p s t) (q : Pid) (addr : Nat) : t.root q addr = s.root q addr := by
  obtain ⟨_, _, _, rfl, -⟩ := h
  rfl

theorem fifoPgn (h : Alike p s t) : t.fifoPgn = s.fifoPgn := by
  obtain ⟨_, _, _, rfl, -⟩ := h
  rfl

theorem runningList (h : Alike p s t) : t.runningList = s.runningList := by
  obtain ⟨_, _, _, rfl, -⟩ := h
  rfl

theorem mmap (h : Alike p s t) : t.mmap = s.mmap := by
  obtain ⟨_, _, _, rfl, -⟩ := h
  rfl

theorem symrgtbl (h : Alike p s t) : t.symrgtbl = s.symrgtbl := by
  obtain ⟨_, _, _, rfl, -⟩ := h
  rfl

theorem kcpooltbl (h : Alike p s t) : t.kcpooltbl = s.kcpooltbl := by
  obtain ⟨_, _, _, rfl, -⟩ := h
  rfl

theorem setHost (h : Alike p s t) (host : Nat → Bool) :
    Alike p { s with host := host } { t with host := host } := by
  obtain ⟨_, _, _, rfl, hst⟩ := h
  exact ⟨_, _, _, rfl, hst⟩

theorem setReg (h : Alike p s t) (q : Pid) (r v v' : Nat) :
    Alike p (s.setReg q r v) (t.setReg q r v') := by
  obtain ⟨_, _, _, rfl, hst⟩ := h
  exact ⟨_, _, _, rfl, hst⟩

theorem setMmap (h : Alike p s t) (q : Pid) (vma : VmArea) :
    Alike p (s.setMmap q vma) (t.setMmap q vma) := by
  obtain ⟨_, _, _, rfl, hst⟩ := h
  exact ⟨_, _, _, rfl, hst⟩

theorem setSymrg (h : Alike p s t) (q : Pid) (rgid : Nat) (rg : VmRg) :
    Alike p (s.setSymrg q rgid rg) (t.setSymrg q rgid rg) := by
  obtain ⟨_, _, _, rfl, hst⟩ := h
  exact ⟨_, _, _, rfl, hst⟩

theorem setPools (h : Alike p s t) (q : Pid) (pools : List KcachePool) :
    Alike p (s.setPools q pools) (t.setPools q pools) := by
  obtain ⟨_, _, _, rfl, hst⟩ := h
  exact ⟨_, _, _, rfl, hst⟩

/-! ### Devices and page tables -/

theorem memphyRead (h : Alike p s t) (d : Dev) (addr : Nat) :
    Option.Rel (fun _ _ => True) (Mem.memphyRead s d addr) (Mem.memphyRead t d addr) := by
  obtain ⟨_, _, _, rfl, -⟩ := h
  rw [Mem.memphyRead, Mem.memphyRead]
  dsimp only
  split
  · exact .none
  · split
    · exact .some trivial
    · exact .none

theorem memphyWrite (h : Alike p s t) (d : Dev) (addr : Nat) (v v' : Byte) :
    Option.Rel (Alike p) (Mem.memphyWrite s d addr v) (Mem.memphyWrite t d addr v') := by
  obtain ⟨_, _, _, rfl, hst⟩ := h
  rw [Mem.memphyWrite, Mem.memphyWrite]
  dsimp only
  split
  · exact .none
  · split
    · exact .some ⟨_, _, _, rfl, hst⟩
    · exact .none

theorem memphyGetFreefp (h : Alike p s t) (d : Dev) :
    Option.Rel (AlikeR p) (Mem.memphyGetFreefp s d) (Mem.memphyGetFreefp t d) := by
  obtain ⟨_, _, _, rfl, hst⟩ := h
  rw [Mem.memphyGetFreefp, Mem.memphyGetFreefp]
  dsimp only
  split
  · exact .none
  · exact .some ⟨_, _, _, _, rfl, hst⟩

theorem memphyPutFreefp (h : Alike p s t) (d : Dev) (f : Nat) :
    Alike p (Mem.memphyPutFreefp s d f) (Mem.memphyPutFreefp t d f) := by
  obtain ⟨_, _, _, rfl, hst⟩ := h
  rw [Mem.memphyPutFreefp, Mem.memphyPutFreefp]
  dsimp only
  split <;> exact ⟨_, _, _, rfl, hst⟩

theorem setRoot (h : Alike p s t) (q : Pid) (addr : Nat) (table : PageTable)
    (host : Nat → Bool) : Alike p (s.setRoot q addr table host) (t.setRoot q addr table host) := by
  obtain ⟨_, _, _, rfl, hst⟩ := h
  rw [Sys.setRoot, Sys.setRoot]
  split <;> exact ⟨_, _, _, rfl, hst⟩

theorem pteGetEntry (h : Alike p s t) (q : Pid) (g : Nat) :
    Mem.pteGetEntry t q g = Mem.pteGetEntry s q g := by
  rw [Mem.pteGetEntry, Mem.pteGetEntry, h.root]

theorem walkPte (h : Alike p s t) (q : Pid) (addr : Nat) :
    AlikeR p (Mem.walkPte s q addr) (Mem.walkPte t q addr) := by
  rw [Mem.walkPte, Mem.walkPte]
  split
  · exact ⟨_, h⟩
  · dsimp only
    rw [h.root, h.host]
    exact ⟨_, h.setRoot ..⟩

theorem pteSetEntry (h : Alike p s t) (q : Pid) (g v : Nat) :
    AlikeR p (Mem.pteSetEntry s q g v) (Mem.pteSetEntry t q g v) := by
  rw [Mem.pteSetEntry, Mem.pteSetEntry]
  split
  · exact ⟨_, h⟩
  · dsimp only
    rw [h.root, h.host]
    exact ⟨_, h.setRoot ..⟩

theorem enlistPgnNode (h : Alike p s t) (q : Pid) (g : Nat) :
    AlikeR p (Mem.enlistPgnNode s q g) (Mem.enlistPgnNode t q g) := by
  obtain ⟨_, _, _, rfl, hst⟩ := h
  rw [Mem.enlistPgnNode, Mem.enlistPgnNode]
  dsimp only
  split <;> exact ⟨_, _, _, _, rfl, hst⟩

theorem releaseFrameList (h : Alike p s t) (frames : List Nat) :
    Alike p (Mem.releaseFrameList s frames) (Mem.releaseFrameList t frames) :=
  foldl (fun _ _ f hst => hst.memphyPutFreefp .mram f) frames h

/-- Copying a page reads and writes the same addresses. -/
theorem swapCpCells (src : Dev) (f : Nat) (dst : Dev) (o left idx : Nat) (h : Alike p s t) :
    AlikeR p (Mem.swapCpCells src f dst o left idx s)
      (Mem.swapCpCells src f dst o left idx t) := by
  induction left generalizing idx s t with
  | zero => exact ⟨_, h⟩
  | succ left ih =>
      rw [Mem.swapCpCells, Mem.swapCpCells]
      have hread := h.memphyRead src ((f * pageSz + idx) % 2 ^ 64)
      generalize Mem.memphyRead s src _ = r at hread ⊢
      generalize Mem.memphyRead t src _ = r' at hread ⊢
      cases hread with
      | none => exact ⟨_, h⟩
      | @some v v' _ =>
          have hwrite := h.memphyWrite dst ((o * pageSz + idx) % 2 ^ 64) v v'
          dsimp only
          generalize Mem.memphyWrite s dst _ v = r at hwrite ⊢
          generalize Mem.memphyWrite t dst _ v' = r' at hwrite ⊢
          cases hwrite with
          | none => exact ⟨_, h⟩
          | some hst => exact ih (idx + 1) hst

theorem swapCpPage (h : Alike p s t) (src : Dev) (f : Nat) (dst : Dev) (o : Nat) :
    AlikeR p (Mem.swapCpPage s src f dst o) (Mem.swapCpPage t src f dst o) :=
  swapCpCells src f dst o pageSz 0 h

/-! ### Eviction -/

theorem findVictimPage (h : Alike p s t) (q : Pid) :
    Option.Rel (AlikeR p) (Mem.findVictimPage s q) (Mem.findVictimPage t q) := by
  obtain ⟨_, _, _, rfl, hst⟩ := h
  rw [Mem.findVictimPage, Mem.findVictimPage]
  dsimp only
  split
  · exact .none
  · exact .some ⟨_, _, _, _, rfl, hst⟩

theorem findPresentVictim (q : Pid) (n : Nat) (h : Alike p s t) :
    AlikeR p (Mem.findPresentVictim q n s) (Mem.findPresentVictim q n t) := by
  induction n generalizing s t with
  | zero => exact ⟨_, h⟩
  | succ n ih =>
      rw [Mem.findPresentVictim, Mem.findPresentVictim]
      have hvic := h.findVictimPage q
      generalize Mem.findVictimPage s q = r at hvic ⊢
      generalize Mem.findVictimPage t q = r' at hvic ⊢
      cases hvic with
      | none => exact ⟨_, h⟩
      | some hr =>
          obtain ⟨g, hst⟩ := hr
          dsimp only
          rw [hst.pteGetEntry]
          split
          · exact ⟨_, hst⟩
          · exact ih hst

theorem findPresentVictimInProc (h : Alike p s t) (q : Pid) :
    AlikeR p (Mem.findPresentVictimInProc s q) (Mem.findPresentVictimInProc t q) := by
  rw [Mem.findPresentVictimInProc, Mem.findPresentVictimInProc, h.fifoPgn]
  exact h.findPresentVictim q _

theorem findVictimAmong (caller : Pid) (qs : List Pid) (h : Alike p s t) :
    AlikeR p (Mem.findVictimAmong caller qs s) (Mem.findVictimAmong caller qs t) := by
  induction qs generalizing s t with
  | nil => exact ⟨_, h⟩
  | cons q qs ih =>
      rw [Mem.findVictimAmong, Mem.findVictimAmong]
      split
      · exact ih h
      · have hvic := h.findPresentVictimInProc q
        generalize Mem.findPresentVictimInProc s q = r at hvic ⊢
        generalize Mem.findPresentVictimInProc t q = r' at hvic ⊢
        obtain ⟨_ | vic, hst⟩ := hvic
        · exact ih hst
        · exact ⟨_, hst⟩

theorem findGlobalVictim (h : Alike p s t) (caller : Pid) :
    AlikeR p (Mem.findGlobalVictim s caller) (Mem.findGlobalVictim t caller) := by
  rw [Mem.findGlobalVictim, Mem.findGlobalVictim]
  have hvic := h.findPresentVictimInProc caller
  generalize Mem.findPresentVictimInProc s caller = r at hvic ⊢
  generalize Mem.findPresentVictimInProc t caller = r' at hvic ⊢
  obtain ⟨_ | vic, hst⟩ := hvic
  · dsimp only
    rw [hst.runningList]
    exact hst.findVictimAmong caller _
  · exact ⟨_, hst⟩

theorem swapOutVictimPage (h : Alike p s t) (caller : Pid) :
    AlikeR p (Mem.swapOutVictimPage s caller) (Mem.swapOutVictimPage t caller) := by
  rw [Mem.swapOutVictimPage, Mem.swapOutVictimPage]
  have hget := h.memphyGetFreefp .mswp
  generalize Mem.memphyGetFreefp s .mswp = r at hget ⊢
  generalize Mem.memphyGetFreefp t .mswp = r' at hget ⊢
  cases hget with
  | none => exact ⟨_, h⟩
  | some hr =>
      obtain ⟨o, hst⟩ := hr
      have hvic := hst.findGlobalVictim caller
      dsimp only
      generalize Mem.findGlobalVictim _ caller = r at hvic ⊢
      generalize Mem.findGlobalVictim _ caller = r' at hvic ⊢
      obtain ⟨_ | ⟨victim, g, v⟩, hst⟩ := hvic
      · exact ⟨_, hst.memphyPutFreefp ..⟩
      · have hcopy := hst.swapCpPage .mram (pteFpn v) .mswp o
        dsimp only
        generalize Mem.swapCpPage _ .mram (pteFpn v) .mswp o = r at hcopy ⊢
        generalize Mem.swapCpPage _ .mram (pteFpn v) .mswp o = r' at hcopy ⊢
        obtain ⟨_ | _, hst⟩ := hcopy
        · exact ⟨_, hst.memphyPutFreefp ..⟩
        · have hset := hst.pteSetEntry victim g (swappedPte activeMswpId o)
          dsimp only [pteSetSwap]
          generalize Mem.pteSetEntry _ victim g _ = r at hset ⊢
          generalize Mem.pteSetEntry _ victim g _ = r' at hset ⊢
          obtain ⟨_ | _, hst⟩ := hset
          · exact ⟨_, hst.memphyPutFreefp ..⟩
          · exact ⟨_, hst⟩

/-! ### Growth -/

theorem getFrame (h : Alike p s t) (caller : Pid) :
    AlikeR p (Mem.getFrame s caller) (Mem.getFrame t caller) := by
  rw [Mem.getFrame, Mem.getFrame]
  have hget := h.memphyGetFreefp .mram
  generalize Mem.memphyGetFreefp s .mram = r at hget ⊢
  generalize Mem.memphyGetFreefp t .mram = r' at hget ⊢
  cases hget with
  | none => exact h.swapOutVictimPage caller
  | some hr =>
      obtain ⟨f, hst⟩ := hr
      exact ⟨_, hst⟩

theorem allocPages (caller : Pid) (n : Nat) (frames : List Nat) (h : Alike p s t) :
    AlikePair p (Mem.allocPages caller n frames s) (Mem.allocPages caller n frames t) := by
  induction n generalizing frames s t with
  | zero => exact ⟨_, _, h⟩
  | succ n ih =>
      rw [Mem.allocPages, Mem.allocPages]
      have hframe := h.getFrame caller
      generalize Mem.getFrame s caller = r at hframe ⊢
      generalize Mem.getFrame t caller = r' at hframe ⊢
      obtain ⟨_ | f, hst⟩ := hframe
      · exact ⟨_, _, hst.releaseFrameList _⟩
      · dsimp only
        rw [hst.host]
        split
        · exact ⟨_, _, ((hst.setHost _).memphyPutFreefp ..).releaseFrameList _⟩
        · exact ih _ (hst.setHost _)

theorem allocPagesRange (h : Alike p s t) (caller : Pid) (n : Int) :
    AlikePair p (Mem.allocPagesRange s caller n) (Mem.allocPagesRange t caller n) := by
  rw [Mem.allocPagesRange, Mem.allocPagesRange]
  split
  · exact ⟨_, _, h⟩
  · exact h.allocPages caller _ _

theorem walkPages (q : Pid) (g left pgit : Nat) (h : Alike p s t) :
    AlikeR p (Mem.walkPages q g left pgit s) (Mem.walkPages q g left pgit t) := by
  induction left generalizing pgit s t with
  | zero => exact ⟨_, h⟩
  | succ left ih =>
      rw [Mem.walkPages, Mem.walkPages]
      have hwalk := h.walkPte q (pgnAddr (g + pgit))
      generalize Mem.walkPte s q _ = r at hwalk ⊢
      generalize Mem.walkPte t q _ = r' at hwalk ⊢
      obtain ⟨_ | _, hst⟩ := hwalk
      · exact ⟨_, hst⟩
      · exact ih _ hst

theorem mapFrames (q : Pid) (g left pgit : Nat) (frames : List Nat) (h : Alike p s t) :
    AlikePair p (Mem.mapFrames q g left pgit frames s) (Mem.mapFrames q g left pgit frames t) := by
  induction left generalizing pgit frames s t with
  | zero => exact ⟨_, _, h⟩
  | succ left ih =>
      cases frames with
      | nil => exact ⟨_, _, h⟩
      | cons f next =>
          rw [Mem.mapFrames, Mem.mapFrames]
          have hset := h.pteSetEntry q (g + pgit) (presentPte f)
          dsimp only [pteSetFpn]
          generalize Mem.pteSetEntry s q _ (presentPte f) = r at hset ⊢
          generalize Mem.pteSetEntry t q _ (presentPte f) = r' at hset ⊢
          obtain ⟨_ | _, hst⟩ := hset
          · exact ⟨_, _, hst.releaseFrameList _⟩
          · have hlist := hst.enlistPgnNode q (g + pgit)
            dsimp only
            generalize Mem.enlistPgnNode _ q _ = r at hlist ⊢
            generalize Mem.enlistPgnNode _ q _ = r' at hlist ⊢
            obtain ⟨_ | _, hst⟩ := hlist
            · exact ⟨_, _, ((hst.pteSetEntry ..).snd.memphyPutFreefp ..).releaseFrameList _⟩
            · exact ih _ _ hst

theorem vmapPageRange (h : Alike p s t) (q : Pid) (addr : Nat) (n : Int) (frames : List Nat)
    (rg : VmRg) :
    AlikePair p (Mem.vmapPageRange s q addr n frames rg)
      (Mem.vmapPageRange t q addr n frames rg) := by
  rw [Mem.vmapPageRange, Mem.vmapPageRange]
  dsimp only
  split
  · exact ⟨_, _, h.releaseFrameList _⟩
  · have hwalk := h.walkPages q (addr / 2 ^ 12) n.toNat 0
    generalize Mem.walkPages q _ _ 0 s = r at hwalk ⊢
    generalize Mem.walkPages q _ _ 0 t = r' at hwalk ⊢
    obtain ⟨_ | _, hst⟩ := hwalk
    · exact ⟨_, _, hst.releaseFrameList _⟩
    · have hmap := hst.mapFrames q (addr / 2 ^ 12) n.toNat 0 frames
      dsimp only
      generalize Mem.mapFrames q _ _ 0 frames _ = r at hmap ⊢
      generalize Mem.mapFrames q _ _ 0 frames _ = r' at hmap ⊢
      obtain ⟨code, count, hst⟩ := hmap
      exact ⟨_, _, hst⟩

theorem vmMapRam (h : Alike p s t) (q : Pid) (addr : Nat) (n : Int) (rg : VmRg) :
    AlikePair p (Mem.vmMapRam s q addr n rg) (Mem.vmMapRam t q addr n rg) := by
  rw [Mem.vmMapRam, Mem.vmMapRam]
  have halloc := h.allocPagesRange q n
  generalize Mem.allocPagesRange s q n = r at halloc ⊢
  generalize Mem.allocPagesRange t q n = r' at halloc ⊢
  obtain ⟨code, frames, hst⟩ := halloc
  dsimp only
  split
  · exact ⟨_, _, hst⟩
  · split
    · exact ⟨_, _, hst⟩
    · have hmap := hst.vmapPageRange q addr n frames rg
      generalize Mem.vmapPageRange _ q addr n frames rg = r at hmap ⊢
      generalize Mem.vmapPageRange _ q addr n frames rg = r' at hmap ⊢
      obtain ⟨ret, rg', hst⟩ := hmap
      dsimp only
      split <;> exact ⟨_, _, hst⟩

theorem getFreeVmrgArea (h : Alike p s t) (q : Pid) (size : Int) :
    AlikeR p (Mem.getFreeVmrgArea s q size) (Mem.getFreeVmrgArea t q size) := by
  rw [Mem.getFreeVmrgArea, Mem.getFreeVmrgArea, h.mmap]
  split
  · exact ⟨_, h⟩
  · dsimp only
    split <;> exact ⟨_, h.setMmap ..⟩

theorem incVmaLimit (h : Alike p s t) (q : Pid) (vmaid : Int) (inc : Nat) (junk : VmRg) :
    Option.Rel (AlikeR p) (Mem.incVmaLimit s q vmaid inc junk)
      (Mem.incVmaLimit t q vmaid inc junk) := by
  rw [Mem.incVmaLimit, Mem.incVmaLimit, h.host]
  split
  · exact .some ⟨_, h.setHost _⟩
  · rename_i host hd
    have hdraw := h.setHost host
    dsimp -proj only
    generalize { s with host := host } = u at hdraw ⊢
    generalize { t with host := host } = v at hdraw ⊢
    rw [hdraw.mmap]
    split
    · exact .none
    · split
      · exact .some ⟨_, hdraw⟩
      · have hmoved := hdraw.setMmap q { u.mmap q with
          vmEnd := ((u.mmap q).sbrk + pageAlignSz inc) % 2 ^ 64
          sbrk := ((u.mmap q).sbrk + pageAlignSz inc) % 2 ^ 64 }
        have hmap := hmoved.vmMapRam q (u.mmap q).sbrk (toInt (pageAlignSz inc / pageSz)) junk
        generalize Mem.vmMapRam _ q _ _ junk = r at hmap ⊢
        generalize Mem.vmMapRam _ q _ _ junk = r' at hmap ⊢
        obtain ⟨ret, rg, hst⟩ := hmap
        dsimp only
        rw [hst.mmap]
        split
        · exact .some ⟨_, hst.setMmap ..⟩
        · exact .some ⟨_, hst.setMmap ..⟩

theorem alloc (h : Alike p s t) (q : Pid) (rgid size : Nat) (junk : VmRg) :
    Option.Rel (AlikeR p) (Mem.alloc s q rgid size junk) (Mem.alloc t q rgid size junk) := by
  rw [Mem.alloc, Mem.alloc]
  split
  · exact .some ⟨_, h⟩
  · have hget := h.getFreeVmrgArea q (toInt size)
    generalize Mem.getFreeVmrgArea s q _ = r at hget ⊢
    generalize Mem.getFreeVmrgArea t q _ = r' at hget ⊢
    obtain ⟨_ | rg, hst⟩ := hget
    · dsimp only
      rw [hst.runningList]
      split
      · exact .some ⟨_, hst⟩
      · have hgrow := hst.incVmaLimit q 0 (allocInc size) junk
        generalize Mem.incVmaLimit _ q 0 _ junk = r at hgrow ⊢
        generalize Mem.incVmaLimit _ q 0 _ junk = r' at hgrow ⊢
        cases hgrow with
        | none => exact .none
        | some hr =>
            obtain ⟨ret, hst⟩ := hr
            dsimp only
            split
            · exact .some ⟨_, hst⟩
            · have hagain := hst.getFreeVmrgArea q (toInt size)
              generalize Mem.getFreeVmrgArea _ q _ = r at hagain ⊢
              generalize Mem.getFreeVmrgArea _ q _ = r' at hagain ⊢
              obtain ⟨_ | rg, hst⟩ := hagain
              · exact .some ⟨_, hst⟩
              · exact .some ⟨_, hst.setSymrg ..⟩
    · exact .some ⟨_, hst.setSymrg ..⟩

theorem free (h : Alike p s t) (q : Pid) (rgid : Nat) :
    AlikeR p (Mem.free s q rgid) (Mem.free t q rgid) := by
  obtain ⟨_, _, _, rfl, hst⟩ := h
  rw [Mem.free, Mem.free]
  dsimp only
  split
  · exact ⟨_, _, _, _, rfl, hst⟩
  · split
    · exact ⟨_, _, _, _, rfl, hst⟩
    · split <;> exact ⟨_, _, _, _, rfl, hst⟩

/-! ### Access -/

theorem pgGetpage (h : Alike p s t) (q : Pid) (g : Nat) :
    AlikeR p (Mem.pgGetpage s q g) (Mem.pgGetpage t q g) := by
  rw [Mem.pgGetpage, Mem.pgGetpage, h.pteGetEntry]
  dsimp only
  split
  · exact ⟨_, h⟩
  · split
    · exact ⟨_, h⟩
    · have hout := h.swapOutVictimPage q
      generalize Mem.swapOutVictimPage s q = r at hout ⊢
      generalize Mem.swapOutVictimPage t q = r' at hout ⊢
      obtain ⟨_ | f, hst⟩ := hout
      · exact ⟨_, hst⟩
      · have hcopy := hst.swapCpPage .mswp (pteSwp (Mem.pteGetEntry s q g)) .mram f
        dsimp only
        generalize Mem.swapCpPage _ .mswp _ .mram f = r at hcopy ⊢
        generalize Mem.swapCpPage _ .mswp _ .mram f = r' at hcopy ⊢
        obtain ⟨_ | _, hst⟩ := hcopy
        · exact ⟨_, hst⟩
        · have hmapped := ((hst.memphyPutFreefp .mswp (pteSwp (Mem.pteGetEntry s q g))).pteSetEntry
            q g (presentPte f)).snd
          have hlisted := (hmapped.enlistPgnNode q g).snd
          dsimp only [pteSetFpn]
          rw [hlisted.pteGetEntry]
          exact ⟨_, hlisted⟩

theorem pgGetval (h : Alike p s t) (q : Pid) (addr : Nat) :
    AlikeByte p (Mem.pgGetval s q addr) (Mem.pgGetval t q addr) := by
  rw [Mem.pgGetval, Mem.pgGetval]
  have hpage := h.pgGetpage q (addr / 2 ^ 12)
  generalize Mem.pgGetpage s q _ = r at hpage ⊢
  generalize Mem.pgGetpage t q _ = r' at hpage ⊢
  obtain ⟨_ | f, hst⟩ := hpage
  · exact .none hst
  · have hread := hst.memphyRead .mram (f * pageSz + addr % 2 ^ 12)
    dsimp only
    generalize Mem.memphyRead _ .mram _ = r at hread ⊢
    generalize Mem.memphyRead _ .mram _ = r' at hread ⊢
    cases hread with
    | none => exact .none hst
    | some _ => exact .some _ _ hst

/-- A store of two values. They have to agree where process `p` itself
supplies them. -/
theorem pgSetval (h : Alike p s t) (q : Pid) (addr : Nat) (v v' : Byte) (copied : Bool)
    (hv : q = p → copied = false → v' = v) :
    AlikeR p (Mem.pgSetval s q addr v copied) (Mem.pgSetval t q addr v' copied) := by
  rw [Mem.pgSetval, Mem.pgSetval]
  have hpage := h.pgGetpage q (addr / 2 ^ 12)
  generalize Mem.pgGetpage s q _ = r at hpage ⊢
  generalize Mem.pgGetpage t q _ = r' at hpage ⊢
  obtain ⟨_ | f, hst⟩ := hpage
  · exact ⟨_, hst⟩
  · have hwrite := hst.memphyWrite .mram (f * pageSz + addr % 2 ^ 12) v v'
    dsimp only
    generalize Mem.memphyWrite _ .mram _ v = r at hwrite ⊢
    generalize Mem.memphyWrite _ .mram _ v' = r' at hwrite ⊢
    cases hwrite with
    | none => exact ⟨_, hst⟩
    | some hst =>
        obtain ⟨_, _, _, rfl, hst⟩ := hst
        exact ⟨_, _, _, _, rfl, .cons ⟨rfl, rfl, rfl, hv⟩ hst⟩

theorem read (h : Alike p s t) (q : Pid) (rgid offset : Nat) :
    AlikeByte p (Mem.read s q rgid offset) (Mem.read t q rgid offset) := by
  rw [Mem.read, Mem.read, h.symrgtbl]
  split
  · exact .none h
  · split
    · exact .none h
    · exact h.pgGetval q _

theorem readUserMem (h : Alike p s t) (q : Pid) (rgid offset : Nat) :
    AlikeByte p (Mem.readUserMem s q rgid offset) (Mem.readUserMem t q rgid offset) := by
  rw [Mem.readUserMem, Mem.readUserMem, h.symrgtbl]
  split
  · exact .none h
  · split
    · exact .none h
    · exact h.pgGetval q _

theorem write (h : Alike p s t) (q : Pid) (rgid offset : Nat) (v v' : Byte)
    (hv : q = p → v' = v) :
    AlikeR p (Mem.write s q rgid offset v) (Mem.write t q rgid offset v') := by
  rw [Mem.write, Mem.write, h.symrgtbl]
  split
  · exact ⟨_, h⟩
  · split
    · exact ⟨_, h⟩
    · exact h.pgSetval q _ v v' false fun hq _ => hv hq

theorem writeUserMem (h : Alike p s t) (q : Pid) (rgid offset : Nat) (v v' : Byte) :
    AlikeR p (Mem.writeUserMem s q rgid offset v) (Mem.writeUserMem t q rgid offset v') := by
  rw [Mem.writeUserMem, Mem.writeUserMem, h.symrgtbl]
  split
  · exact ⟨_, h⟩
  · split
    · exact ⟨_, h⟩
    · exact h.pgSetval q _ v v' true fun _ hfalse => by cases hfalse

theorem libread (h : Alike p s t) (q : Pid) (source offset destination : Nat) :
    Option.Rel (AlikeR p) (Mem.libread s q source offset destination)
      (Mem.libread t q source offset destination) := by
  rw [Mem.libread, Mem.libread]
  have hread := h.read q source offset
  generalize Mem.read s q source offset = r at hread ⊢
  generalize Mem.read t q source offset = r' at hread ⊢
  cases hread with
  | none hst => exact .some ⟨_, hst⟩
  | some b b' hst =>
      dsimp only
      split
      · exact .none
      · exact .some ⟨_, hst.setReg ..⟩

theorem libwrite (h : Alike p s t) (q : Pid) (v v' : Byte) (destination offset : Nat)
    (hv : q = p → v' = v) :
    AlikeR p (Mem.libwrite s q v destination offset) (Mem.libwrite t q v' destination offset) := by
  rw [Mem.libwrite, Mem.libwrite]
  have hwrite := h.write q destination offset v v' hv
  generalize Mem.write s q destination offset v = r at hwrite ⊢
  generalize Mem.write t q destination offset v' = r' at hwrite ⊢
  obtain ⟨_ | _, hst⟩ := hwrite <;> exact ⟨_, hst⟩

/-! ### Kernel memory -/

theorem useFrame (h : Alike p s t) (q : Pid) (f : Nat) :
    Alike p (Mem.useFrame q s f) (Mem.useFrame q t f) := by
  obtain ⟨_, _, _, rfl, hst⟩ := h
  rw [Mem.useFrame, Mem.useFrame]
  dsimp only
  split <;> exact ⟨_, _, _, rfl, hst⟩

theorem kernelAllocateContiguousFrames (h : Alike p s t) (q : Pid) (req : Int) :
    AlikeR p (Mem.kernelAllocateContiguousFrames s q req)
      (Mem.kernelAllocateContiguousFrames t q req) := by
  obtain ⟨_, _, _, rfl, hst⟩ := h
  rw [Mem.kernelAllocateContiguousFrames, Mem.kernelAllocateContiguousFrames]
  dsimp only
  split
  · exact ⟨_, _, _, _, rfl, hst⟩
  · split
    · exact ⟨_, _, _, _, rfl, hst⟩
    · split
      · exact ⟨_, _, _, _, rfl, hst⟩
      · split
        · exact ⟨_, _, _, _, rfl, hst⟩
        · exact ⟨_, foldl (fun _ _ f hst => hst.useFrame q f) _ ⟨_, _, _, rfl, hst⟩⟩

theorem kernelMapPage (h : Alike p s t) (addr f : Nat) :
    AlikeR p (Mem.kernelMapPage s addr f) (Mem.kernelMapPage t addr f) := by
  obtain ⟨_, _, _, rfl, hst⟩ := h
  rw [Mem.kernelMapPage, Mem.kernelMapPage]
  split <;> exact ⟨_, _, _, _, rfl, hst⟩

theorem clearKernelPte (h : Alike p s t) (addr : Nat) :
    Alike p (Mem.clearKernelPte s addr) (Mem.clearKernelPte t addr) := by
  obtain ⟨_, _, _, rfl, hst⟩ := h
  rw [Mem.clearKernelPte, Mem.clearKernelPte]
  split <;> exact ⟨_, _, _, rfl, hst⟩

theorem unuseFrame (h : Alike p s t) (f : Nat) :
    Alike p (Mem.unuseFrame s f) (Mem.unuseFrame t f) := by
  obtain ⟨_, _, _, rfl, hst⟩ := h
  rw [Mem.unuseFrame, Mem.unuseFrame]
  dsimp only
  split <;> exact ⟨_, _, _, rfl, hst⟩

theorem release (h : Alike p s t) (base : Nat) (n : Int) :
    Alike p (kernelReleaseContiguousRegion s base n) (kernelReleaseContiguousRegion t base n) := by
  rw [kernelReleaseContiguousRegion, kernelReleaseContiguousRegion]
  exact foldl (fun _ _ page hst => hst.unuseFrame (kernelFpnFromVaddr base + page)) _
    (foldl (fun _ _ page hst => hst.clearKernelPte ((base + page * pageSz) % 2 ^ 64)) _ h)

theorem kernelMapPages (start first left page : Nat) (h : Alike p s t) :
    AlikeR p (Mem.kernelMapPages start first left page s)
      (Mem.kernelMapPages start first left page t) := by
  induction left generalizing page s t with
  | zero => exact ⟨_, h⟩
  | succ left ih =>
      rw [Mem.kernelMapPages, Mem.kernelMapPages]
      have hmap := h.kernelMapPage ((start + page * pageSz) % 2 ^ 64) (first + page)
      generalize Mem.kernelMapPage s _ _ = r at hmap ⊢
      generalize Mem.kernelMapPage t _ _ = r' at hmap ⊢
      obtain ⟨_ | _, hst⟩ := hmap
      · exact ⟨_, hst⟩
      · exact ih _ hst

theorem kernelAllocContiguousRegion (h : Alike p s t) (q : Pid) (size : Nat) :
    AlikeR p (Mem.kernelAllocContiguousRegion s q size)
      (Mem.kernelAllocContiguousRegion t q size) := by
  rw [Mem.kernelAllocContiguousRegion, Mem.kernelAllocContiguousRegion]
  split
  · exact ⟨_, h⟩
  · have hframes := h.kernelAllocateContiguousFrames q (toInt (pageAlignSz size / pageSz))
    dsimp only
    generalize Mem.kernelAllocateContiguousFrames s q _ = r at hframes ⊢
    generalize Mem.kernelAllocateContiguousFrames t q _ = r' at hframes ⊢
    obtain ⟨_ | first, hst⟩ := hframes
    · exact ⟨_, hst⟩
    · have hmap := hst.kernelMapPages (kernelVaddrFromFpn first) first
        (toInt (pageAlignSz size / pageSz)).toNat 0
      dsimp only
      generalize Mem.kernelMapPages _ first _ 0 _ = r at hmap ⊢
      generalize Mem.kernelMapPages _ first _ 0 _ = r' at hmap ⊢
      obtain ⟨_ | _, hst⟩ := hmap
      · exact ⟨_, hst.release ..⟩
      · exact ⟨_, hst⟩

theorem kmalloc (h : Alike p s t) (q : Pid) (rgid size : Nat) :
    AlikeR p (Mem.kmalloc s q rgid size) (Mem.kmalloc t q rgid size) := by
  rw [Mem.kmalloc, Mem.kmalloc, h.symrgtbl]
  split
  · exact ⟨_, h⟩
  · have halloc := h.kernelAllocContiguousRegion q size
    generalize Mem.kernelAllocContiguousRegion s q size = r at halloc ⊢
    generalize Mem.kernelAllocContiguousRegion t q size = r' at halloc ⊢
    obtain ⟨_ | ⟨base, sz⟩, hst⟩ := halloc
    · exact ⟨_, hst⟩
    · exact ⟨_, hst.setSymrg ..⟩

theorem returnAddr {q : Pid} {reg : Nat} {r r' : Option Nat × Sys} (h : AlikeR p r r') :
    Option.Rel (AlikeR p) (Mem.returnAddr q reg r) (Mem.returnAddr q reg r') := by
  obtain ⟨_ | addr, hst⟩ := h
  · exact .some ⟨_, hst⟩
  · rw [Mem.returnAddr, Mem.returnAddr]
    split
    · exact .none
    · exact .some ⟨_, hst.setReg ..⟩

theorem growPools (h : Alike p s t) (q : Pid) (id : Nat) :
    AlikeR p (Mem.growPools s q id) (Mem.growPools t q id) := by
  obtain ⟨_, _, _, rfl, hst⟩ := h
  rw [Mem.growPools, Mem.growPools]
  dsimp only
  split
  · exact ⟨_, _, _, _, rfl, hst⟩
  · split <;> exact ⟨_, _, _, _, rfl, hst⟩

theorem libkmemCachePoolCreate (h : Alike p s t) (q : Pid) (size align id : Nat) :
    AlikeR p (Mem.libkmemCachePoolCreate s q size align id)
      (Mem.libkmemCachePoolCreate t q size align id) := by
  rw [Mem.libkmemCachePoolCreate, Mem.libkmemCachePoolCreate]
  split
  · exact ⟨_, h⟩
  · dsimp only
    split
    · exact ⟨_, h⟩
    · have hgrow := h.growPools q id
      generalize Mem.growPools s q id = r at hgrow ⊢
      generalize Mem.growPools t q id = r' at hgrow ⊢
      obtain ⟨_ | _, hst⟩ := hgrow
      · exact ⟨_, hst⟩
      · dsimp only
        rw [hst.kcpooltbl]
        split
        · exact ⟨_, hst⟩
        · split
          · exact ⟨_, hst⟩
          · have halloc := hst.kernelAllocContiguousRegion q size
            generalize Mem.kernelAllocContiguousRegion _ q size = r at halloc ⊢
            generalize Mem.kernelAllocContiguousRegion _ q size = r' at halloc ⊢
            obtain ⟨_ | ⟨base, sz⟩, hst⟩ := halloc
            · exact ⟨_, hst⟩
            · dsimp only
              rw [hst.host]
              split
              · rename_i host hd
                have hrel := (hst.setHost host).release base (toInt (pageAlignSz size / pageSz))
                rw [hrel.kcpooltbl]
                exact ⟨_, hrel.setPools ..⟩
              · obtain ⟨_, _, _, rfl, hst⟩ := hst
                exact ⟨_, _, _, _, rfl, hst⟩

theorem kmemCacheAlloc (h : Alike p s t) (q : Pid) (rgid id : Nat) :
    AlikeR p (Mem.kmemCacheAlloc s q rgid id) (Mem.kmemCacheAlloc t q rgid id) := by
  rw [Mem.kmemCacheAlloc, Mem.kmemCacheAlloc, h.kcpooltbl, h.symrgtbl]
  split
  · exact ⟨_, h⟩
  · split
    · exact ⟨_, h⟩
    · dsimp only
      split
      · exact ⟨_, h⟩
      · split
        · exact ⟨_, h⟩
        · exact ⟨_, (h.setPools ..).setSymrg ..⟩

theorem kernelTranslateVaddr (h : Alike p s t) (addr : Nat) :
    Mem.kernelTranslateVaddr t addr = Mem.kernelTranslateVaddr s addr := by
  obtain ⟨_, _, _, rfl, -⟩ := h
  rfl

theorem kernelAccess (h : Alike p s t) (q : Pid) (rgid offset : Nat) :
    Mem.kernelAccess t q rgid offset = Mem.kernelAccess s q rgid offset := by
  rw [Mem.kernelAccess, Mem.kernelAccess, h.symrgtbl]

theorem readKernelMem (h : Alike p s t) (q : Pid) (rgid offset : Nat) :
    Option.Rel (fun _ _ => True) (Mem.readKernelMem s q rgid offset)
      (Mem.readKernelMem t q rgid offset) := by
  rw [Mem.readKernelMem, Mem.readKernelMem, h.kernelAccess]
  simp only [h.kernelTranslateVaddr, Option.bind_eq_bind]
  cases Mem.kernelAccess s q rgid offset with
  | none => exact .none
  | some vaddr =>
      simp only [Option.bind_some]
      cases Mem.kernelTranslateVaddr s vaddr with
      | none => exact .none
      | some phys => exact h.memphyRead .mram phys

theorem writeKernelMem (h : Alike p s t) (q : Pid) (rgid offset : Nat) (v v' : Byte) :
    Option.Rel (Alike p) (Mem.writeKernelMem s q rgid offset v)
      (Mem.writeKernelMem t q rgid offset v') := by
  rw [Mem.writeKernelMem, Mem.writeKernelMem, h.kernelAccess]
  simp only [h.kernelTranslateVaddr, Option.bind_eq_bind]
  cases Mem.kernelAccess s q rgid offset with
  | none => exact .none
  | some vaddr =>
      simp only [Option.bind_some]
      cases Mem.kernelTranslateVaddr s vaddr with
      | none => exact .none
      | some phys => exact h.memphyWrite .mram phys v v'

theorem copyFromUser (q : Pid) (source destination offset left idx : Nat) (h : Alike p s t) :
    AlikeR p (Mem.copyFromUser q source destination offset left idx s)
      (Mem.copyFromUser q source destination offset left idx t) := by
  induction left generalizing idx s t with
  | zero => exact ⟨_, h⟩
  | succ left ih =>
      rw [Mem.copyFromUser, Mem.copyFromUser]
      have hread := h.readUserMem q source (toUint32 (offset + idx))
      generalize Mem.readUserMem s q source _ = r at hread ⊢
      generalize Mem.readUserMem t q source _ = r' at hread ⊢
      cases hread with
      | none hst => exact ⟨_, hst⟩
      | some b b' hst =>
          have hwrite := hst.writeKernelMem q destination (toUint32 (offset + idx)) b b'
          dsimp only
          generalize Mem.writeKernelMem _ q destination _ b = r at hwrite ⊢
          generalize Mem.writeKernelMem _ q destination _ b' = r' at hwrite ⊢
          cases hwrite with
          | none => exact ⟨_, hst⟩
          | some hst => exact ih _ hst

theorem copyToUser (q : Pid) (source destination offset left idx : Nat) (h : Alike p s t) :
    AlikeR p (Mem.copyToUser q source destination offset left idx s)
      (Mem.copyToUser q source destination offset left idx t) := by
  induction left generalizing idx s t with
  | zero => exact ⟨_, h⟩
  | succ left ih =>
      rw [Mem.copyToUser, Mem.copyToUser]
      have hread := h.readKernelMem q source (toUint32 (offset + idx))
      generalize Mem.readKernelMem s q source _ = r at hread ⊢
      generalize Mem.readKernelMem t q source _ = r' at hread ⊢
      cases hread with
      | none => exact ⟨_, h⟩
      | @some b b' _ =>
          have hwrite := h.writeUserMem q destination (toUint32 (offset + idx)) b b'
          dsimp only
          generalize Mem.writeUserMem s q destination _ b = r at hwrite ⊢
          generalize Mem.writeUserMem t q destination _ b' = r' at hwrite ⊢
          obtain ⟨_ | _, hst⟩ := hwrite
          · exact ⟨_, hst⟩
          · exact ih _ hst

/-! ### Exit and load -/

theorem clearSymrgRange (h : Alike p s t) (q : Pid) (start stop : Nat) :
    Alike p (Mem.clearSymrgRange s q start stop) (Mem.clearSymrgRange t q start stop) := by
  rw [Mem.clearSymrgRange, Mem.clearSymrgRange]
  split
  · exact h
  · refine foldl (fun u v idx huv => ?_) _ h
    rw [clearSymrg, clearSymrg, huv.symrgtbl]
    split
    · exact huv.setSymrg ..
    · exact huv

theorem releasePool (h : Alike p s t) (q : Pid) (pool : KcachePool) :
    Alike p (Mem.releasePool q s pool) (Mem.releasePool q t pool) := by
  rw [Mem.releasePool, Mem.releasePool]
  split
  · exact h
  · dsimp only
    generalize (if pool.allocSize = 0 then pageAlignSz pool.size else pool.allocSize) = sz
    split
    · exact h
    · exact (h.release ..).clearSymrgRange ..

theorem releaseKernelCachePools (h : Alike p s t) (q : Pid) :
    Alike p (Mem.releaseKernelCachePools s q) (Mem.releaseKernelCachePools t q) := by
  rw [Mem.releaseKernelCachePools, Mem.releaseKernelCachePools, h.kcpooltbl]
  exact (foldl (fun _ _ pool huv => huv.releasePool q pool) _ h).setPools ..

theorem releaseSymrg (h : Alike p s t) (q : Pid) (idx : Nat) :
    Alike p (Mem.releaseSymrg q s idx) (Mem.releaseSymrg q t idx) := by
  rw [Mem.releaseSymrg, Mem.releaseSymrg, h.symrgtbl]
  dsimp only
  split
  · exact h
  · split
    · exact h
    · exact (h.release ..).setSymrg ..

theorem releaseKernelSymrgAllocations (h : Alike p s t) (q : Pid) :
    Alike p (Mem.releaseKernelSymrgAllocations s q) (Mem.releaseKernelSymrgAllocations t q) := by
  rw [Mem.releaseKernelSymrgAllocations, Mem.releaseKernelSymrgAllocations]
  exact foldl (fun _ _ idx huv => huv.releaseSymrg q idx) _ h

theorem pcbMemphCollect (h : Alike p s t) (table : PageTable) :
    Alike p (Mem.pcbMemphCollect s table) (Mem.pcbMemphCollect t table) := by
  refine foldl (fun u v pte huv => ?_) _ h
  rw [collectPte, collectPte]
  split
  · exact huv.memphyPutFreefp ..
  · split
    · exact huv.memphyPutFreefp ..
    · exact huv

theorem exitProc (h : Alike p s t) (q : Pid) :
    Alike p (Mem.exitProc s q) (Mem.exitProc t q) := by
  have hleave : Alike p { s with runningList := s.runningList.erase q }
      { t with runningList := t.runningList.erase q } := by
    obtain ⟨_, _, _, rfl, hst⟩ := h
    exact ⟨_, _, _, rfl, hst⟩
  have hswept : Alike p (swept s q) (swept t q) :=
    (hleave.releaseKernelCachePools q).releaseKernelSymrgAllocations q
  have hpgd : (swept t q).pgd = (swept s q).pgd := by
    obtain ⟨_, _, _, heq, -⟩ := hswept
    rw [heq]
  have hcollect := hswept.pcbMemphCollect ((swept s q).pgd q)
  rw [exitProc_eq, exitProc_eq, hpgd]
  dsimp only
  generalize Mem.pcbMemphCollect (swept s q) _ = u at hcollect ⊢
  generalize Mem.pcbMemphCollect (swept t q) _ = v at hcollect ⊢
  obtain ⟨_, _, _, rfl, hst⟩ := hcollect
  exact ⟨_, _, _, rfl, hst⟩

theorem loadProc (h : Alike p s t) :
    Option.Rel (Alike p) (Mem.loadProc s) (Mem.loadProc t) := by
  obtain ⟨_, _, _, rfl, hst⟩ := h
  rw [Mem.loadProc, Mem.loadProc]
  dsimp only
  split
  · exact .some ⟨_, _, _, rfl, hst⟩
  · exact .none

/-! ### System calls and instructions -/

theorem memsetPages (q : Pid) (g left pgit : Nat) (h : Alike p s t) :
    AlikeR p (Mem.memsetPages q g left pgit s) (Mem.memsetPages q g left pgit t) := by
  induction left generalizing pgit s t with
  | zero => exact ⟨_, h⟩
  | succ left ih =>
      rw [Mem.memsetPages, Mem.memsetPages]
      have hset := h.pteSetEntry q (g + pgit) dummyPte
      generalize Mem.pteSetEntry s q _ dummyPte = r at hset ⊢
      generalize Mem.pteSetEntry t q _ dummyPte = r' at hset ⊢
      obtain ⟨_ | _, hst⟩ := hset
      · exact ⟨_, hst⟩
      · exact ih _ hst

theorem vmapPgdMemset (h : Alike p s t) (q : Pid) (addr : Nat) (n : Int) :
    AlikeR p (Mem.vmapPgdMemset s q addr n) (Mem.vmapPgdMemset t q addr n) := by
  rw [Mem.vmapPgdMemset, Mem.vmapPgdMemset]
  split
  · exact ⟨_, h⟩
  · exact h.memsetPages q _ _ _

/-- The third argument may differ in the write of another process. -/
theorem sysMemmap (h : Alike p s t) (q : Pid) (a1 a2 a3 a3' : Nat) (junk : VmRg)
    (ha : a3' = a3 ∨ q ≠ p ∧ MemOp.ofInt (toInt a1) = some .ioWrite) :
    Option.Rel (fun r r' => r'.1 = r.1 ∧ Alike p r.2.2 r'.2.2)
      (Mem.sysMemmap s q a1 a2 a3 junk) (Mem.sysMemmap t q a1 a2 a3' junk) := by
  have hsame (hop : MemOp.ofInt (toInt a1) ≠ some .ioWrite) : a3' = a3 :=
    ha.resolve_right fun hother => hop hother.2
  rw [Mem.sysMemmap, Mem.sysMemmap, h.runningList]
  split
  · exact .some ⟨rfl, h⟩
  · cases hop : MemOp.ofInt (toInt a1) with
    | none => exact .some ⟨rfl, h⟩
    | some op =>
        cases op with
        | map =>
            have hset := h.vmapPgdMemset q (toUint32 a2) (toInt a3)
            rw [hsame (by simp [hop])]
            dsimp only
            generalize Mem.vmapPgdMemset s q _ _ = r at hset ⊢
            generalize Mem.vmapPgdMemset t q _ _ = r' at hset ⊢
            obtain ⟨ret, hst⟩ := hset
            exact .some ⟨rfl, hst⟩
        | inc =>
            have hgrow := h.incVmaLimit q (toInt a2) (toUint32 a3) junk
            rw [hsame (by simp [hop])]
            dsimp only
            generalize Mem.incVmaLimit s q _ _ junk = r at hgrow ⊢
            generalize Mem.incVmaLimit t q _ _ junk = r' at hgrow ⊢
            cases hgrow with
            | none => exact .none
            | some hr =>
                obtain ⟨ret, hst⟩ := hr
                exact .some ⟨rfl, hst⟩
        | swp =>
            have hcopy := h.swapCpPage .mram (toUint32 a2) .mswp (toUint32 a3)
            rw [hsame (by simp [hop])]
            dsimp only
            generalize Mem.swapCpPage s .mram _ .mswp _ = r at hcopy ⊢
            generalize Mem.swapCpPage t .mram _ .mswp _ = r' at hcopy ⊢
            obtain ⟨_ | _, hst⟩ := hcopy <;> exact .some ⟨rfl, hst⟩
        | ioRead => exact .none
        | ioWrite => exact .none

theorem libsyscall (h : Alike p s t) (q : Pid) (idx a1 a2 a3 a3' : Nat) (junk : VmRg)
    (ha : a3' = a3 ∨ q ≠ p ∧ MemOp.ofInt (toInt a1) = some .ioWrite) :
    Option.Rel (AlikeR p) (Mem.libsyscall s q idx a1 a2 a3 junk)
      (Mem.libsyscall t q idx a1 a2 a3' junk) := by
  rw [Mem.libsyscall, Mem.libsyscall]
  split
  · have hcall := h.sysMemmap q a1 a2 a3 a3' junk ha
    generalize Mem.sysMemmap s q a1 a2 a3 junk = r at hcall ⊢
    generalize Mem.sysMemmap t q a1 a2 a3' junk = r' at hcall ⊢
    cases hcall with
    | none => exact .none
    | @some x y hr =>
        obtain ⟨ret, b, u⟩ := x
        obtain ⟨ret', b', v⟩ := y
        obtain ⟨rfl, hst⟩ := hr
        dsimp only at hst ⊢
        split
        · rename_i hread
          have hsame : a3' = a3 := by
            refine ha.resolve_right fun hother => ?_
            rw [hread.2] at hother
            exact absurd hother.2 (by decide)
          rw [hsame]
          split
          · exact .some ⟨_, hst⟩
          · exact .some ⟨_, hst.setReg ..⟩
        · exact .some ⟨_, hst⟩
  · split <;> exact .some ⟨_, h⟩

end Alike

/-- The same step, but for the bytes that a process other than `p` writes. -/
inductive SameBut (p : Pid) : Op → Op → Prop
  | same (op : Op) : SameBut p op op
  | write {q : Pid} (hq : q ≠ p) (v v' a1 a2 a3 : BitVec 64) (junk : VmRg) :
      SameBut p (.inst q ⟨.write, v, a1, a2, a3⟩ junk) (.inst q ⟨.write, v', a1, a2, a3⟩ junk)
  | ioWrite {q : Pid} (hq : q ≠ p) {a0 a1 : BitVec 64} (a2 v v' : BitVec 64) (junk : VmRg)
      (hcall : toUint32 a0.toNat = 17) (hop : MemOp.ofInt (toInt a1.toNat) = some .ioWrite) :
      SameBut p (.inst q ⟨.syscall, a0, a1, a2, v⟩ junk) (.inst q ⟨.syscall, a0, a1, a2, v'⟩ junk)

namespace Alike

variable {p q : Pid} {s t : Sys}

theorem run (h : Alike p s t) (q : Pid) (ins : Inst) (junk : VmRg) :
    Option.Rel (AlikeR p) (Mem.run s q ins junk) (Mem.run t q ins junk) := by
  rw [Mem.run, Mem.run]
  split
  · exact .some ⟨_, h⟩
  · exact h.alloc ..
  · rw [libkmemMalloc, libkmemMalloc]
    split
    · exact .some ⟨_, h⟩
    · exact returnAddr (h.kmalloc ..)
  · exact .some (h.libkmemCachePoolCreate ..)
  · rw [libkmemCacheAlloc, libkmemCacheAlloc]
    split
    · exact .some ⟨_, h⟩
    · exact returnAddr (h.kmemCacheAlloc ..)
  · rw [libkmemCopyFromUser, libkmemCopyFromUser]
    split
    · exact .some ⟨_, h⟩
    · exact .some (h.copyFromUser ..)
  · rw [libkmemCopyToUser, libkmemCopyToUser]
    split
    · exact .some ⟨_, h⟩
    · exact .some (h.copyToUser ..)
  · exact .some (h.free ..)
  · exact h.libread ..
  · exact .some (h.libwrite _ _ _ _ _ fun _ => rfl)
  · exact h.libsyscall _ _ _ _ _ _ _ (.inl rfl)

/-- States that are alike stay so under the same step. -/
theorem step {op op' : Op} (h : Alike p s t) (hop : SameBut p op op') :
    Option.Rel (Alike p) (Mem.step s op) (Mem.step t op') := by
  have hinst {q : Pid} {r r' : Option (Int × Sys)} (hr : Option.Rel (AlikeR p) r r') :
      Option.Rel (Alike p) (if q ∈ s.runningList then r.map Prod.snd else none)
        (if q ∈ t.runningList then r'.map Prod.snd else none) := by
    rw [h.runningList]
    split
    · cases hr with
      | none => exact .none
      | some hr => exact .some hr.snd
    · exact .none
  cases hop with
  | same op =>
      cases op with
      | load => exact h.loadProc
      | exit q =>
          rw [Mem.step, Mem.step, h.runningList]
          split
          · exact .some (h.exitProc q)
          · exact .none
      | inst q ins junk => exact hinst (h.run q ins junk)
  | write hq v v' a1 a2 a3 junk =>
      exact hinst (.some (h.libwrite _ _ _ _ _ fun heq => absurd heq hq))
  | ioWrite hq a2 v v' junk hcall hop =>
      exact hinst (h.libsyscall _ _ _ _ _ _ _ (.inr ⟨hq, hop⟩))

end Alike

end Ossim.Mem
