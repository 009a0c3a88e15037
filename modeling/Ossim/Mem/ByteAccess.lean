import Ossim.Mem.Bytes
import Ossim.Mem.Fifo

/-!
Single bytes of user and kernel regions.

A byte of a user region can be had if its page is in RAM, or if the page is
in the swap and something can be evicted for it. A page fault leaves that as
it was: the page that came in can be evicted next, and the swap frame it
left is free. Only a host that refuses a list node takes such a page or
frame away.
-/

namespace Ossim.Mem

open Ossim.Lib

/-! ### Pages that can be had -/

/-- A page could be evicted. -/
def Evictable (s : Sys) : Prop :=
  s.freeFpList .mswp ≠ [] ∧ ∃ q ∈ s.runningList, HasVictim s q

/-- `pg_getpage` would have the page. -/
def Available (s : Sys) (p : Pid) (g : Nat) : Prop :=
  pagePresent (s.pte p g) = true ∨ pageSwapped (s.pte p g) = true ∧ Evictable s

theorem pteByte_isSome (s : Sys) (pte off : Nat) :
    (s.pteByte pte off).isSome = true ↔ pagePresent pte = true ∨ pageSwapped pte = true := by
  rw [Sys.pteByte]
  split
  · simp_all
  · split <;> simp_all

/-- A page is somewhere after a fault if it was somewhere before. -/
theorem SameContents.somewhere {s t : Sys} {p : Pid} {g : Nat} (h : SameContents s t)
    (hp : p ∈ s.runningList) (hg : g < userPgns) :
    pagePresent (t.pte p g) = true ∨ pageSwapped (t.pte p g) = true ↔
      pagePresent (s.pte p g) = true ∨ pageSwapped (s.pte p g) = true := by
  rw [← pteByte_isSome t _ 0, ← pteByte_isSome s _ 0, h.bytes p hp g hg 0 (by decide)]

namespace Inv

variable {ok : Prop} {s t : Sys} {p : Pid} {g g' f : Nat}

theorem pgGetpage_isSome_iff (h : Inv ok [] [] s) (hp : p ∈ s.runningList) (hg : g < userPgns) :
    (Mem.pgGetpage s p g).1.isSome = true ↔ Available s p g := by
  have hwf : WfPte (s.pte p g) := h.wf p hp (pgnPath g)
  rw [Available, Evictable, ← h.swapOut_isSome hp]
  rcases Classical.em (Backed (s.pte p g)) with hbacked | hbacked
  · rw [h.pgGetpage_isSome hp hg hbacked]
    rw [Backed] at hbacked
    cases hpres : pagePresent (s.pte p g) with
    | true => simp
    | false =>
        rw [hpres] at hbacked
        simp [hbacked.symm]
  · obtain ⟨hpres, hswap⟩ := hwf.flags_of_not_backed hbacked
    rw [Mem.pgGetpage, pteGetEntry_user hg]
    change (if pagePresent (s.pte p g) = true then _ else
      if (!pageSwapped (s.pte p g)) = true then _ else _ : Option Nat × Sys).1.isSome = true ↔ _
    simp [hpres, hswap]

/-- A page that had to come back found something to evict. -/
theorem evictable_of_fault (h : Inv ok [] [] s) (hp : p ∈ s.runningList) (hg : g < userPgns)
    (hpage : Mem.pgGetpage s p g = (some f, t)) (hpres : pagePresent (s.pte p g) = false) :
    Evictable s := by
  have hsome := (h.pgGetpage_isSome_iff hp hg).mp (by rw [hpage]; rfl)
  rcases hsome with hpres' | hswap
  · rw [hpres] at hpres'
    cases hpres'
  · exact hswap.2

/-- A page that is in RAM is had without any change. -/
theorem pgGetpage_present (hg : g < userPgns) (hpres : pagePresent (s.pte p g) = true) :
    (Mem.pgGetpage s p g).2 = s := by
  rw [Mem.pgGetpage, pteGetEntry_user hg]
  change (if pagePresent (s.pte p g) = true then _ else _ : Option Nat × Sys).2 = s
  rw [if_pos hpres]

/-- What can be had after a fault could be had before. -/
theorem available_before (h : Inv ok [] [] s) (hp : p ∈ s.runningList) (hg : g < userPgns)
    (hpage : Mem.pgGetpage s p g = (some f, t)) (hg' : g' < userPgns)
    (havail : Available t p g') : Available s p g' := by
  cases hpres : pagePresent (s.pte p g) with
  | true =>
      have hsame := pgGetpage_present hg hpres
      rw [hpage] at hsame
      rwa [← hsame]
  | false =>
      have hpages := h.sameContents_pgGetpage hp hg
      rw [hpage] at hpages
      have hsome := (hpages.somewhere hp hg').mp (havail.imp_right And.left)
      exact hsome.imp_right fun hswap => ⟨hswap, h.evictable_of_fault hp hg hpage hpres⟩

/-- After a fault, the page that came in can be evicted into the frame it
came from. -/
theorem evictable_after (h : Inv ok [] [] s) (hok : ok) (hp : p ∈ s.runningList)
    (hg : g < userPgns) (hpage : Mem.pgGetpage s p g = (some f, t))
    (hpres : pagePresent (s.pte p g) = false) : Evictable t := by
  have hin := h.pgGetpage hp hg
  have hmeta := meta_pgGetpage s p g
  rw [hpage] at hin hmeta
  have hrun : t.runningList = s.runningList := congrArg Sys.Meta.runningList hmeta
  obtain ⟨hpte, hf⟩ := hin.mapped f rfl
  suffices hlists : t.freeFpList .mswp ≠ [] ∧ g ∈ t.fifoPgn p by
    refine ⟨hlists.1, p, hrun ▸ hp, g, hlists.2, ?_⟩
    rw [pteGetEntry_user hg]
    change pagePresent (t.pte p g) = true ∧ pageSwapped (t.pte p g) = false
    rw [hpte]
    simp
  have hentry : pteGetEntry s p g = s.pte p g := pteGetEntry_user hg
  cases pgGetpage_cases hpage with
  | present hpres' =>
      rw [hentry, hpres] at hpres'
      cases hpres'
  | back f' s₁ st u _ _ hout _ hu =>
      have hinv := h.swapOutVictimPage hp
      rw [hout] at hinv
      have hhost : s₁.HostOk := (hinv.host hok).1
      generalize pteSwp (pteGetEntry s p g) = o at hu
      have hput : memphyPutFreefp { s₁ with storage := st } .mswp o =
          { s₁ with
            storage := st
            freeFpList := Function.update s₁.freeFpList .mswp (o :: s₁.freeFpList .mswp) } := by
        rw [memphyPutFreefp, hhost.draw]
      obtain ⟨pgd, hset⟩ := pteSetEntry_of_hostOk (s := { s₁ with
        storage := st
        freeFpList := Function.update s₁.freeFpList .mswp (o :: s₁.freeFpList .mswp) })
        hhost p hg (presentPte f')
      rw [broughtIn, hput, pteSetFpn, hset, enlistPgnNode_of_hostOk (by exact hhost)] at hu
      rw [hu]
      simp

theorem available_after (h : Inv ok [] [] s) (hok : ok) (hp : p ∈ s.runningList)
    (hg : g < userPgns) (hpage : Mem.pgGetpage s p g = (some f, t)) (hg' : g' < userPgns)
    (havail : Available s p g') : Available t p g' := by
  cases hpres : pagePresent (s.pte p g) with
  | true =>
      have hsame := pgGetpage_present hg hpres
      rw [hpage] at hsame
      dsimp only at hsame
      rwa [hsame]
  | false =>
      have hpages := h.sameContents_pgGetpage hp hg
      rw [hpage] at hpages
      have hsome := (hpages.somewhere hp hg').mpr (havail.imp_right And.left)
      exact hsome.imp_right fun hswap => ⟨hswap, h.evictable_after hok hp hg hpage hpres⟩

end Inv

/-! ### Single bytes -/

/-- The address of a byte of a region. -/
def VmRg.addrAt (rg : VmRg) (offset : Nat) : Nat := (rg.rgStart + offset) % 2 ^ 64

theorem VmRg.addrAt_lt (rg : VmRg) (offset : Nat) : rg.addrAt offset < 2 ^ 64 :=
  Nat.mod_lt _ (by decide)

/-- The region lies in the lower half. -/
def VmRg.IsUser (rg : VmRg) : Prop := isUserVaddrRange rg.rgStart rg.rgEnd = true

/-- A byte of a user region that can be read and written: the checks of
`__read_user_mem` and `__write_user_mem` let it through, and its page can be
had. -/
structure UserByteOk (s : Sys) (p : Pid) (rgid offset : Nat) : Prop where
  id : rgid < maxSymtblSz
  nonempty : (s.symrgtbl p rgid).rgStart < (s.symrgtbl p rgid).rgEnd
  access : (userAccess (s.symrgtbl p rgid) offset).isSome = true
  page : Available s p ((s.symrgtbl p rgid).addrAt offset / 2 ^ 12)

/-- A byte that can be read and written through the kernel page table: the
checks of `kernel_region_valid` let it through, and its address is mapped. -/
structure KernelByteOk (s : Sys) (p : Pid) (rgid offset : Nat) : Prop where
  access : (kernelAccess s p rgid offset).isSome = true
  mapped : (kernelTranslateVaddr s ((s.symrgtbl p rgid).addrAt offset)).isSome = true

theorem userAccess_eq_some {rg : VmRg} {offset addr : Nat} (h : userAccess rg offset = some addr) :
    addr = rg.addrAt offset := by
  simp only [userAccess] at h
  split at h
  · cases h
  · split at h
    · cases h
    · exact (Option.some.inj h).symm

theorem kernelAccess_eq_some {s : Sys} {p : Pid} {rgid offset a : Nat}
    (h : kernelAccess s p rgid offset = some a) : a = (s.symrgtbl p rgid).addrAt offset := by
  simp only [kernelAccess] at h
  split at h
  · cases h
  · split at h
    · cases h
    · exact (Option.some.inj h).symm

theorem userAccess_isUser {rg : VmRg} {offset addr : Nat} (h : userAccess rg offset = some addr) :
    rg.IsUser := by
  simp only [userAccess] at h
  split at h
  · cases h
  · split at h
    · cases h
    · rename_i hok
      simp only [not_or, Bool.not_eq_true', Bool.not_eq_false] at hok
      exact hok.2.1

theorem kernelTranslateVaddr_congr {s t : Sys} (h : t.krnlPgd = s.krnlPgd) (a : Nat) :
    kernelTranslateVaddr t a = kernelTranslateVaddr s a := by
  rw [kernelTranslateVaddr, kernelTranslateVaddr, kernelPte, kernelPte, h]

namespace Inv

variable {ok : Prop} {s t : Sys} {p : Pid} {rgid offset : Nat} {b v : Byte}

theorem readUserMem_byteAt {r : Option Byte} (h : Inv ok [] [] s) (hp : p ∈ s.runningList)
    (hread : Mem.readUserMem s p rgid offset = (r, t)) :
    t.byteAt = s.byteAt ∧
      ∀ b, r = some b → s.byteAt (.user p ((s.symrgtbl p rgid).addrAt offset)) = some b := by
  rw [Mem.readUserMem] at hread
  split at hread
  · cases hread
    exact ⟨rfl, fun b hb => by cases hb⟩
  · split at hread
    · cases hread
      exact ⟨rfl, fun b hb => by cases hb⟩
    · rename_i addr haddr
      rw [← userAccess_eq_some haddr]
      exact h.byteAt_pgGetval hp (userAccess_lt haddr) hread

theorem writeUserMem_byteAt {r : Bool} (h : Inv ok [] [] s) (hp : p ∈ s.runningList)
    (hwrite : Mem.writeUserMem s p rgid offset v = (r, t)) :
    t.byteAt = if r then
      Function.update s.byteAt (.user p ((s.symrgtbl p rgid).addrAt offset)) (some v)
      else s.byteAt := by
  rw [Mem.writeUserMem] at hwrite
  split at hwrite
  · cases hwrite
    rfl
  · split at hwrite
    · cases hwrite
      rfl
    · rename_i addr haddr
      rw [← userAccess_eq_some haddr]
      exact h.byteAt_pgSetval hp (userAccess_lt haddr) hwrite

theorem readKernelMem_byteAt (hread : Mem.readKernelMem s p rgid offset = some b) :
    s.byteAt (.kernel ((s.symrgtbl p rgid).addrAt offset)) = some b := by
  simp only [Mem.readKernelMem, Option.bind_eq_bind, Option.bind_eq_some_iff] at hread
  obtain ⟨a, haccess, phys, hphys, hread⟩ := hread
  rw [← kernelAccess_eq_some haccess, Sys.byteAt, if_pos (kernelAccess_lt haccess), hphys,
    memphyRead_eq_some hread]
  rfl

theorem writeKernelMem_byteAt (h : Inv ok [] [] s)
    (hwrite : Mem.writeKernelMem s p rgid offset v = some t) :
    t.byteAt =
      Function.update s.byteAt (.kernel ((s.symrgtbl p rgid).addrAt offset)) (some v) := by
  simp only [Mem.writeKernelMem, Option.bind_eq_bind, Option.bind_eq_some_iff] at hwrite
  obtain ⟨a, haccess, phys, hphys, hwrite⟩ := hwrite
  rw [← kernelAccess_eq_some haccess, memphyWrite_eq_some hwrite]
  exact h.byteAt_pokeKernel v (kernelAccess_lt haccess) hphys

/-! ### When a byte is had -/

theorem userByteOk_iff (h : Inv ok [] [] s) (hp : p ∈ s.runningList) :
    UserByteOk s p rgid offset ↔
      ¬(maxSymtblSz ≤ rgid ∨ (s.symrgtbl p rgid).rgEnd ≤ (s.symrgtbl p rgid).rgStart) ∧
      ∃ addr, userAccess (s.symrgtbl p rgid) offset = some addr ∧
        (Mem.pgGetpage s p (addr / 2 ^ 12)).1.isSome = true := by
  have hpage (addr : Nat) (haddr : userAccess (s.symrgtbl p rgid) offset = some addr) :
      (Mem.pgGetpage s p (addr / 2 ^ 12)).1.isSome = true ↔
        Available s p ((s.symrgtbl p rgid).addrAt offset / 2 ^ 12) := by
    have hlt := userAccess_lt haddr
    rw [← userAccess_eq_some haddr]
    exact h.pgGetpage_isSome_iff hp (by simp only [userPgns]; omega)
  rw [not_or, Nat.not_le, Nat.not_le]
  constructor
  · rintro ⟨hid, hlt, haccess, havail⟩
    obtain ⟨addr, haddr⟩ := Option.isSome_iff_exists.mp haccess
    exact ⟨⟨hid, hlt⟩, addr, haddr, (hpage addr haddr).mpr havail⟩
  · rintro ⟨⟨hid, hlt⟩, addr, haddr, hsome⟩
    exact ⟨hid, hlt, by rw [haddr]; rfl, (hpage addr haddr).mp hsome⟩

theorem readUserMem_isSome (h : Inv ok [] [] s) (hp : p ∈ s.runningList) :
    (Mem.readUserMem s p rgid offset).1.isSome = true ↔ UserByteOk s p rgid offset := by
  rw [h.userByteOk_iff hp, Mem.readUserMem]
  split
  · simp_all
  · rename_i hargs
    split
    · simp_all
    · rename_i addr haddr
      have hlt := userAccess_lt haddr
      rw [h.pgGetval_isSome hp (by simp only [userPgns]; omega)]
      simp [hargs, haddr]

theorem writeUserMem_eq_true (h : Inv ok [] [] s) (hp : p ∈ s.runningList) :
    (Mem.writeUserMem s p rgid offset v).1 = true ↔ UserByteOk s p rgid offset := by
  rw [h.userByteOk_iff hp, Mem.writeUserMem]
  split
  · simp_all
  · rename_i hargs
    split
    · simp_all
    · rename_i addr haddr
      have hlt := userAccess_lt haddr
      rw [h.pgSetval_isSome hp (by simp only [userPgns]; omega)]
      simp [hargs, haddr]

/-- A mapped kernel address is in a frame of the RAM. -/
theorem kernel_inRange {a phys : Nat} (h : Inv ok [] [] s) (ha : a < 2 ^ 64)
    (hphys : kernelTranslateVaddr s a = some phys) : s.InRange .mram phys := by
  obtain ⟨fp, hfp, hfpn⟩ := List.mem_map.mp (h.of_translate ha hphys).2
  have hlt := (h.usable .mram).addr_lt (h.lt_of_used hfp) (Nat.mod_lt phys (by decide : 0 < pageSz))
  rw [hfpn, Nat.div_add_mod'] at hlt
  exact ⟨hlt.1, (h.usable .mram).random⟩

theorem kernelByteOk_iff (h : Inv ok [] [] s) :
    KernelByteOk s p rgid offset ↔ ∃ a phys, kernelAccess s p rgid offset = some a ∧
      kernelTranslateVaddr s a = some phys ∧ s.InRange .mram phys := by
  constructor
  · rintro ⟨haccess, hmapped⟩
    obtain ⟨a, ha⟩ := Option.isSome_iff_exists.mp haccess
    rw [← kernelAccess_eq_some ha] at hmapped
    obtain ⟨phys, hphys⟩ := Option.isSome_iff_exists.mp hmapped
    exact ⟨a, phys, ha, hphys, h.kernel_inRange (kernelAccess_lt ha) hphys⟩
  · rintro ⟨a, phys, ha, hphys, -⟩
    exact ⟨by rw [ha]; rfl, by rw [← kernelAccess_eq_some ha, hphys]; rfl⟩

theorem readKernelMem_isSome (h : Inv ok [] [] s) :
    (Mem.readKernelMem s p rgid offset).isSome = true ↔ KernelByteOk s p rgid offset := by
  rw [h.kernelByteOk_iff]
  constructor
  · intro hsome
    obtain ⟨b, hb⟩ := Option.isSome_iff_exists.mp hsome
    simp only [Mem.readKernelMem, Option.bind_eq_bind, Option.bind_eq_some_iff] at hb
    obtain ⟨a, ha, phys, hphys, -⟩ := hb
    exact ⟨a, phys, ha, hphys, h.kernel_inRange (kernelAccess_lt ha) hphys⟩
  · rintro ⟨a, phys, ha, hphys, hrange⟩
    simp [Mem.readKernelMem, ha, hphys, memphyRead_inRange hrange]

theorem writeKernelMem_isSome (h : Inv ok [] [] s) :
    (Mem.writeKernelMem s p rgid offset v).isSome = true ↔ KernelByteOk s p rgid offset := by
  rw [h.kernelByteOk_iff]
  constructor
  · intro hsome
    obtain ⟨u, hu⟩ := Option.isSome_iff_exists.mp hsome
    simp only [Mem.writeKernelMem, Option.bind_eq_bind, Option.bind_eq_some_iff] at hu
    obtain ⟨a, ha, phys, hphys, -⟩ := hu
    exact ⟨a, phys, ha, hphys, h.kernel_inRange (kernelAccess_lt ha) hphys⟩
  · rintro ⟨a, phys, ha, hphys, hrange⟩
    simp [Mem.writeKernelMem, ha, hphys, memphyWrite_inRange hrange]

end Inv

/-! ### What a round leaves -/

/-- A page of `p` is had, and then bytes are written. -/
structure Faults (p : Pid) (s t : Sys) : Prop where
  page : ∃ g < userPgns, ∃ f u st stores, pgGetpage s p g = (some f, u) ∧
    t = { u with storage := st, stores := stores }
  symrgtbl : t.symrgtbl = s.symrgtbl
  krnlPgd : t.krnlPgd = s.krnlPgd

theorem Faults.setStorage {p : Pid} {s t : Sys} (h : Faults p s t) (st : Dev → Nat → Byte) :
    Faults p s { t with storage := st } := by
  obtain ⟨⟨g, hg, f, u, st', stores, hpage, rfl⟩, hsym, hkrnl⟩ := h
  exact ⟨⟨g, hg, f, u, st, stores, hpage, rfl⟩, hsym, hkrnl⟩

namespace Inv

variable {ok : Prop} {s t : Sys} {p : Pid} {rgid offset : Nat} {b v : Byte}

theorem faults_of_page {addr f : Nat} {u : Sys} (h : Inv ok [] [] s) (hp : p ∈ s.runningList)
    (haddr : addr < 2 ^ 56) (hpage : Mem.pgGetpage s p (addr / 2 ^ 12) = (some f, u))
    (st : Dev → Nat → Byte) (stores : List Store) :
    Faults p s { u with storage := st, stores := stores } := by
  have hg : addr / 2 ^ 12 < userPgns := by simp only [userPgns]; omega
  have hmeta := meta_pgGetpage s p (addr / 2 ^ 12)
  have hkrnl := h.krnlPgd_pgGetpage hp hg
  rw [hpage] at hmeta hkrnl
  exact ⟨⟨_, hg, f, u, st, stores, hpage, rfl⟩, congrArg Sys.Meta.symrgtbl hmeta, hkrnl⟩

theorem faults_readUserMem (h : Inv ok [] [] s) (hp : p ∈ s.runningList)
    (hread : Mem.readUserMem s p rgid offset = (some b, t)) : Faults p s t := by
  rw [Mem.readUserMem] at hread
  split at hread
  · cases hread
  · split at hread
    · cases hread
    · rename_i addr haddr
      rw [Mem.pgGetval] at hread
      split at hread
      · cases hread
      · rename_i f u hpage
        obtain ⟨-, rfl⟩ := Prod.mk.inj hread
        exact h.faults_of_page hp (userAccess_lt haddr) hpage _ _

theorem faults_writeUserMem (h : Inv ok [] [] s) (hp : p ∈ s.runningList)
    (hwrite : Mem.writeUserMem s p rgid offset v = (true, t)) : Faults p s t := by
  rw [Mem.writeUserMem] at hwrite
  split at hwrite
  · cases hwrite
  · split at hwrite
    · cases hwrite
    · rename_i addr haddr
      rw [Mem.pgSetval] at hwrite
      split at hwrite
      · cases hwrite
      · rename_i f u hpage
        split at hwrite
        · cases hwrite
        · rename_i w hw
          cases hwrite
          rw [memphyWrite_eq_some hw]
          exact h.faults_of_page hp (userAccess_lt haddr) hpage _ _

theorem userByteOk_before (h : Inv ok [] [] s) (hp : p ∈ s.runningList) (hfault : Faults p s t)
    (hbyte : UserByteOk t p rgid offset) : UserByteOk s p rgid offset := by
  obtain ⟨⟨g, hg, f, u, st, stores, hpage, rfl⟩, hsym, -⟩ := hfault
  obtain ⟨hid, hlt, haccess, havail⟩ := hbyte
  rw [hsym] at hlt haccess havail
  obtain ⟨addr, haddr⟩ := Option.isSome_iff_exists.mp haccess
  have haddr' := userAccess_lt haddr
  rw [userAccess_eq_some haddr] at haddr'
  exact ⟨hid, hlt, haccess,
    h.available_before hp hg hpage (by simp only [userPgns]; omega) havail⟩

theorem userByteOk_after (h : Inv ok [] [] s) (hok : ok) (hp : p ∈ s.runningList)
    (hfault : Faults p s t) (hbyte : UserByteOk s p rgid offset) :
    UserByteOk t p rgid offset := by
  obtain ⟨⟨g, hg, f, u, st, stores, hpage, rfl⟩, hsym, -⟩ := hfault
  obtain ⟨hid, hlt, haccess, havail⟩ := hbyte
  obtain ⟨addr, haddr⟩ := Option.isSome_iff_exists.mp haccess
  have haddr' := userAccess_lt haddr
  rw [userAccess_eq_some haddr] at haddr'
  have hlater := h.available_after hok hp hg hpage (by simp only [userPgns]; omega) havail
  rw [← hsym] at hlt haccess hlater
  exact ⟨hid, hlt, haccess, hlater⟩

end Inv

theorem Faults.kernelByteOk {p : Pid} {s t : Sys} (h : Faults p s t) (rgid offset : Nat) :
    KernelByteOk t p rgid offset ↔ KernelByteOk s p rgid offset := by
  have haccess : kernelAccess t p rgid offset = kernelAccess s p rgid offset := by
    rw [kernelAccess, kernelAccess, h.symrgtbl]
  constructor
  · rintro ⟨hacc, hmapped⟩
    rw [haccess] at hacc
    rw [h.symrgtbl, kernelTranslateVaddr_congr h.krnlPgd] at hmapped
    exact ⟨hacc, hmapped⟩
  · rintro ⟨hacc, hmapped⟩
    rw [← haccess] at hacc
    rw [← h.symrgtbl, ← kernelTranslateVaddr_congr h.krnlPgd] at hmapped
    exact ⟨hacc, hmapped⟩

end Ossim.Mem
