import Ossim.Mem.Eviction
import Ossim.Mem.Regions

/-!
When allocated memory can be accessed.

A page that was swapped out comes back only through `pg_getpage`, which
evicts another page first, even if the RAM has free frames; `get_frame` of
`alloc_pages_range` would take one of these. So the access needs a free
frame of the swap and a page that can be evicted at that moment, and fails
at exact capacity.
-/

namespace Ossim.Mem

open Ossim.Lib

/-! ### Accesses that succeed -/

namespace Inv

variable {ok : Prop} {s t : Sys} {p : Pid} {g : Nat}

/-- A backed page is in RAM after `pg_getpage` unless it would have had to
come back and nothing could be evicted. -/
theorem pgGetpage_isSome (h : Inv ok [] [] s) (hp : p ∈ s.runningList) (hg : g < userPgns)
    (hbacked : Backed (s.pte p g)) :
    (Mem.pgGetpage s p g).1.isSome = true ↔
      pagePresent (s.pte p g) = true ∨ (Mem.swapOutVictimPage s p).1.isSome = true := by
  have hentry : pteGetEntry s p g = s.pte p g := pteGetEntry_user hg
  generalize hr : Mem.pgGetpage s p g = r
  cases pgGetpage_cases hr with
  | present hpres =>
      rw [hentry] at hpres
      exact ⟨fun _ => .inl hpres, fun _ => rfl⟩
  | absent hpres hswap =>
      rw [hentry] at hpres hswap
      rw [Backed, hpres, hswap] at hbacked
      exact absurd rfl hbacked
  | noFrame t hpres _ hout =>
      rw [hentry] at hpres
      rw [hpres, hout]
      simp
  | noCopy f t st hpres hswap hout hcopy =>
      -- both frames are in range, so the copy succeeds
      obtain ⟨o, -, hslot, -, -, -, hcp⟩ := h.copyBack hp hg hpres hswap hout
      rw [hslot, hcp] at hcopy
      cases hcopy
  | back f t st u _ _ hout =>
      rw [hout]
      exact ⟨fun _ => .inr rfl, fun _ => rfl⟩

/-- The frame that `pg_getpage` returns is in range. -/
theorem PageIn.lt {f : Nat} (hpage : PageIn ok [] [] s p g (some f, t))
    (hmeta : t.meta = s.meta) (hp : p ∈ s.runningList) :
    t.Usable .mram ∧ f < numfp (t.maxsz .mram) := by
  obtain ⟨hinv, -, hmapped⟩ := hpage
  obtain ⟨hpte, hf⟩ := hmapped f rfl
  have hp' : p ∈ t.runningList := by
    rw [show t.runningList = s.runningList from congrArg Sys.Meta.runningList hmeta]
    exact hp
  have hown : owns .mram f (t.pte p g) = true := by
    rw [hpte, owns_presentPte hf]
    simp
  exact ⟨hinv.usable .mram, (hinv.of_owns hp' hown).1⟩

theorem pgGetval_isSome (h : Inv ok [] [] s) (hp : p ∈ s.runningList) {addr : Nat}
    (hg : addr / 2 ^ 12 < userPgns) :
    (Mem.pgGetval s p addr).1.isSome = (Mem.pgGetpage s p (addr / 2 ^ 12)).1.isSome := by
  have hpage := h.pgGetpage hp hg
  have hmeta := meta_pgGetpage s p (addr / 2 ^ 12)
  have hoff : addr % 2 ^ 12 < pageSz := Nat.mod_lt _ (by decide)
  rw [Mem.pgGetval]
  generalize Mem.pgGetpage s p (addr / 2 ^ 12) = r at hpage hmeta ⊢
  obtain ⟨_ | f, t⟩ := r
  · rfl
  · obtain ⟨husable, hf⟩ := hpage.lt hmeta hp
    dsimp only
    rw [memphyRead_frame husable hf hoff]
    rfl

theorem pgSetval_isSome (h : Inv ok [] [] s) (hp : p ∈ s.runningList) {addr : Nat}
    (hg : addr / 2 ^ 12 < userPgns) (v : Byte) (copied : Bool) :
    (Mem.pgSetval s p addr v copied).1 = (Mem.pgGetpage s p (addr / 2 ^ 12)).1.isSome := by
  have hpage := h.pgGetpage hp hg
  have hmeta := meta_pgGetpage s p (addr / 2 ^ 12)
  have hoff : addr % 2 ^ 12 < pageSz := Nat.mod_lt _ (by decide)
  rw [Mem.pgSetval]
  generalize Mem.pgGetpage s p (addr / 2 ^ 12) = r at hpage hmeta ⊢
  obtain ⟨_ | f, t⟩ := r
  · rfl
  · obtain ⟨husable, hf⟩ := hpage.lt hmeta hp
    dsimp only
    rw [memphyWrite_frame husable hf hoff]
    rfl

end Inv

/-- An offset inside a user region passes the bounds checks. -/
theorem userAccess_inside {rg : VmRg} {offset : Nat} (hend : rg.rgEnd ≤ 2 ^ 56)
    (hoff : offset < rg.rgEnd - rg.rgStart) :
    userAccess rg offset = some (rg.rgStart + offset) := by
  have hlen : (rg.rgEnd + 2 ^ 64 - rg.rgStart) % 2 ^ 64 = rg.rgEnd - rg.rgStart := by omega
  have haddr : (rg.rgStart + offset) % 2 ^ 64 = rg.rgStart + offset := Nat.mod_eq_of_lt (by omega)
  have hnext : (rg.rgStart + offset + 1) % 2 ^ 64 = rg.rgStart + offset + 1 :=
    Nat.mod_eq_of_lt (by omega)
  have hregion : isUserVaddrRange rg.rgStart rg.rgEnd = true :=
    (isUserVaddrRange_iff (by omega)).mpr ⟨by omega, hend⟩
  have hbyte : isUserVaddrRange (rg.rgStart + offset) (rg.rgStart + offset + 1) = true :=
    (isUserVaddrRange_iff (by omega)).mpr ⟨by omega, by omega⟩
  rw [userAccess, hlen, if_neg (by omega)]
  dsimp only
  rw [haddr, hnext, hregion, hbyte, if_neg (by simp)]

/-! ### Runs -/

/-- The instructions of all processes are `ALLOC` of less than `2^31` bytes
whose growth, if it needs one, obtains its frames, `FREE`, `READ`, `WRITE`
and `CALC`. -/
def Op.User (s : Sys) : Op → Prop
  | .inst p ins junk => OnRegions p s (.inst p ins junk)
  | _ => True

instance (s : Sys) : (op : Op) → Decidable (op.User s)
  | .inst p ins junk => inferInstanceAs (Decidable (OnRegions p s (.inst p ins junk)))
  | .load => inferInstanceAs (Decidable True)
  | .exit _ => inferInstanceAs (Decidable True)

def UserStep (s : Sys) (op : Op) (t : Sys) : Prop := step s op = some t ∧ op.User s

/-- The same, as a function. -/
def userExec : Sys → List Op → Option Sys :=
  exec (guarded step fun s op _ => decide (op.User s))

theorem run_of_userExec {s t : Sys} {ops : List Op} (h : userExec s ops = some t) :
    Run UserStep s ops t :=
  run_of_exec_guarded (fun _ _ _ hstep hok => ⟨hstep, of_decide_eq_true hok⟩) h

theorem UserStep.regionStep {s t : Sys} {op : Op} (h : UserStep s op t) (p : Pid) :
    RegionStep p s op t := by
  refine ⟨h.1, ?_⟩
  cases op with
  | inst q ins junk =>
      intro hq
      subst hq
      exact h.2 rfl
  | load => trivial
  | exit q => trivial

theorem UserStep.tame {s t : Sys} {op : Op} (h : UserStep s op t) : op.Tame := by
  cases op with
  | inst p ins junk =>
      intro hsys
      rcases h.2 rfl with ⟨halloc, -⟩ | hother
      · rw [halloc] at hsys
        cases hsys
      · rw [hsys] at hother
        simp at hother
  | load => trivial
  | exit p => trivial

/-- What holds in every state of a run. -/
structure UserInv (ok : Prop) (s : Sys) : Prop where
  inv : Inv ok [] [] s
  regions : ∀ p ∈ s.runningList, RegionInv s p

theorem UserInv.step {ok : Prop} {s t : Sys} {op : Op} (h : UserInv ok s)
    (hstep : UserStep s op t) : UserInv ok t := by
  have hregions : ∀ p ∈ t.runningList, RegionInv t p := fun p =>
    RegionInv.step ⟨h.inv.nodup, h.inv.fresh⟩ (h.regions p) (hstep.regionStep p)
  refine ⟨h.inv.lowStep ⟨hstep.1, hstep.tame, ?_⟩, hregions⟩
  exact fun p hp => (hregions p hp).low

theorem userInv_of_run {ramSz swpSz : Nat} {host : Nat → Bool} {ops : List Op} {s : Sys}
    (hrun : Run UserStep (boot ramSz swpSz host) ops s) : UserInv (host = fun _ => true) s :=
  hrun.invariant (I := UserInv _) (fun _ _ _ hs hstep => hs.step hstep)
    ⟨.boot ramSz swpSz host, fun p hp => by cases hp⟩

/-- `READ` and `WRITE` at an offset of a region return 0. -/
def Accessible (s : Sys) (p : Pid) (rgid offset : Nat) : Prop :=
  (∀ dst < numRegs, ∃ t, libread s p rgid offset dst = some (0, t)) ∧
    ∀ b, (libwrite s p b rgid offset).1 = 0

theorem UserInv.accessible_iff_pgGetpage {ok : Prop} {s : Sys} {p : Pid} {rgid offset : Nat}
    (h : UserInv ok s) (hp : p ∈ s.runningList) (hrgid : rgid < maxSymtblSz)
    (hoff : offset < (s.symrgtbl p rgid).rgEnd - (s.symrgtbl p rgid).rgStart) :
    Accessible s p rgid offset ↔
      (pgGetpage s p (((s.symrgtbl p rgid).rgStart + offset) / 2 ^ 12)).1.isSome = true := by
  have hregion := h.regions p hp
  have hend := (hregion.sym _ (mem_symRegions hrgid)).2.trans hregion.low
  have hg : ((s.symrgtbl p rgid).rgStart + offset) / 2 ^ 12 < userPgns := by
    simp only [userPgns]
    omega
  have hargs : ¬(maxSymtblSz ≤ rgid ∨ (s.symrgtbl p rgid).rgStart = (s.symrgtbl p rgid).rgEnd) := by
    omega
  have hread : read s p rgid offset = pgGetval s p ((s.symrgtbl p rgid).rgStart + offset) := by
    rw [read, if_neg hargs, userAccess_inside hend hoff]
  have hwrite (b : Byte) : write s p rgid offset b =
      pgSetval s p ((s.symrgtbl p rgid).rgStart + offset) b false := by
    rw [write, if_neg hargs, userAccess_inside hend hoff]
  have hget := h.inv.pgGetval_isSome hp hg
  have hset (b : Byte) := h.inv.pgSetval_isSome hp hg b false
  constructor
  · intro hacc
    have hret := hacc.2 0
    rw [libwrite, hwrite] at hret
    rw [← hset 0]
    generalize pgSetval s p ((s.symrgtbl p rgid).rgStart + offset) 0 false = r at hret ⊢
    obtain ⟨_ | _, t⟩ := r
    · cases hret
    · rfl
  · intro hsome
    constructor
    · intro dst hdst
      rw [hsome] at hget
      rw [libread, hread]
      generalize pgGetval s p ((s.symrgtbl p rgid).rgStart + offset) = r at hget ⊢
      obtain ⟨_ | b, t⟩ := r
      · cases hget
      · exact ⟨_, if_neg (Nat.not_le.mpr hdst)⟩
    · intro b
      have hb := hset b
      rw [hsome] at hb
      rw [libwrite, hwrite]
      generalize pgSetval s p ((s.symrgtbl p rgid).rgStart + offset) b false = r at hb ⊢
      obtain ⟨_ | _, t⟩ := r
      · cases hb
      · rfl

theorem UserInv.accessible_iff_evictable {ok : Prop} {s : Sys} {p : Pid} {rgid offset : Nat}
    (h : UserInv ok s) (hp : p ∈ s.runningList) (hrgid : rgid < maxSymtblSz)
    (hoff : offset < (s.symrgtbl p rgid).rgEnd - (s.symrgtbl p rgid).rgStart) :
    Accessible s p rgid offset ↔
      pagePresent (pteGetEntry s p (((s.symrgtbl p rgid).rgStart + offset) / 2 ^ 12)) = true ∨
        s.freeFpList .mswp ≠ [] ∧ ∃ q ∈ s.runningList, HasVictim s q := by
  have hregion := h.regions p hp
  have hend := (hregion.sym _ (mem_symRegions hrgid)).2
  have hlow := hregion.low
  have hg : ((s.symrgtbl p rgid).rgStart + offset) / 2 ^ 12 < userPgns := by
    simp only [userPgns]
    omega
  have hbacked := hregion.backed (((s.symrgtbl p rgid).rgStart + offset) / 2 ^ 12) (by
    simp only [pageSz]
    omega)
  rw [h.accessible_iff_pgGetpage hp hrgid hoff, h.inv.pgGetpage_isSome hp hg hbacked,
    h.inv.swapOut_isSome hp, pteGetEntry_user hg]
  rfl

/-- An offset of a user region can be accessed exactly if its page is in RAM
or the swap has a free frame and some live process a page to evict. -/
theorem accessible_iff {ramSz swpSz : Nat} {host : Nat → Bool} {ops : List Op} {s : Sys} {p : Pid}
    {rgid offset : Nat} (hrun : Run UserStep (boot ramSz swpSz host) ops s)
    (hp : p ∈ s.runningList) (hrgid : rgid < maxSymtblSz)
    (hoff : offset < (s.symrgtbl p rgid).rgEnd - (s.symrgtbl p rgid).rgStart) :
    Accessible s p rgid offset ↔
      pagePresent (pteGetEntry s p (((s.symrgtbl p rgid).rgStart + offset) / 2 ^ 12)) = true ∨
        s.freeFpList .mswp ≠ [] ∧ ∃ q ∈ s.runningList, HasVictim s q :=
  (userInv_of_run hrun).accessible_iff_evictable hp hrgid hoff

/-- Process 1 fills the only frame of the RAM. -/
def fillRam : List Op := [.load, .inst 1 { opcode := .alloc, arg0 := 4096, arg1 := 0 } ⟨0, 0⟩]

theorem fillRam_isSome : (userExec (boot 4096 4096 fun _ => true) fillRam).isSome = true := by
  decide +kernel

/-- The state after `fillRam`. -/
def ramFull : Sys := (userExec (boot 4096 4096 fun _ => true) fillRam).get fillRam_isSome

theorem run_fillRam : Run UserStep (boot 4096 4096 fun _ => true) fillRam ramFull :=
  run_of_userExec (Option.some_get fillRam_isSome).symm

theorem accessible_iff_ramFull :
    Run UserStep (boot 4096 4096 fun _ => true) fillRam ramFull ∧ 1 ∈ ramFull.runningList ∧
    (ramFull.symrgtbl 1 0).rgEnd - (ramFull.symrgtbl 1 0).rgStart = 4096 ∧
    (Accessible ramFull 1 0 7 ↔
      pagePresent (pteGetEntry ramFull 1 (((ramFull.symrgtbl 1 0).rgStart + 7) / 2 ^ 12)) = true ∨
        ramFull.freeFpList .mswp ≠ [] ∧ ∃ q ∈ ramFull.runningList, HasVictim ramFull q) := by
  refine ⟨run_fillRam, ?_, ?_, accessible_iff run_fillRam ?_ ?_ ?_⟩
  all_goals decide +kernel

/-! ### Exact capacity -/

/-- The state in which a growth by one page gets the frame `f` of page `g`
of process `q`, which is now in frame `o` of the swap. -/
def pushOut (s : Sys) (p q : Pid) (g f o : Nat) (rest : List Nat) : Sys :=
  { evicted (findGlobalVictim ((breakMoved s p 4096).setSwapFree rest) p).2 q g f o with
    host := (draw (breakMoved s p 4096).host).2 }

/-- The state after that growth has mapped its page. -/
def pushedIn (s : Sys) (p q : Pid) (g f o : Nat) (rest : List Nat) : Sys :=
  let r := vmapPageRange (pushOut s p q g f o rest) p (s.mmap p).sbrk 1 [f] ⟨0, 0⟩
  r.2.2.setMmap p { r.2.2.mmap p with
    vmFreergList := enlistVmRgNode (r.2.2.mmap p).vmFreergList r.2.1 }

/-- An `ALLOC` of one page that evicts another one. The page that is copied
is not computed in the state it leads to. -/
theorem alloc_pushedIn {ok : Prop} {s : Sys} {p : Pid} (q : Pid) (g f o rgid : Nat)
    (rest : List Nat) (rg : VmRg) (hinv : Inv ok [] [] s) (hp : p ∈ s.runningList)
    (hrgid : rgid < maxSymtblSz)
    (hnone : takeFree 4096 (s.mmap p).vmFreergList = none) (href : ¬Refused s p 4096)
    (hlow : newBreak s p 4096 ≤ 2 ^ 56) (hram : s.freeFpList .mram = [])
    (hfree : s.freeFpList .mswp = o :: rest) (hhost : s.host 1 = true)
    (hvic : (findGlobalVictim ((breakMoved s p 4096).setSwapFree rest) p).1 =
      some (q, g, presentPte f)) (hf : f < 2 ^ 40)
    (hmap : (vmapPageRange (pushOut s p q g f o rest) p (s.mmap p).sbrk 1 [f] ⟨0, 0⟩).1 ≠ errFail)
    (hagain : (getFreeVmrgArea (pushedIn s p q g f o rest) p 4096).1 = some rg) :
    Obtains s p 4096 ⟨0, 0⟩ ∧ alloc s p rgid 4096 ⟨0, 0⟩ = some (0,
      (getFreeVmrgArea (pushedIn s p q g f o rest) p 4096).2.setSymrg p rgid rg) := by
  have hint : toInt 4096 = 4096 := by decide
  have hget : getFreeVmrgArea s p (toInt 4096) = (none, s) := by
    rw [hint, getFreeVmrgArea, show ofInt 4096 = 4096 by decide, hnone]
  have hvic' : findGlobalVictim ((breakMoved s p 4096).setSwapFree rest) p =
      (some (q, g, presentPte f),
        (findGlobalVictim ((breakMoved s p 4096).setSwapFree rest) p).2) := by
    rw [← hvic]
  have hframes : allocPagesRange (breakMoved s p 4096) p (incNumPage 4096) =
      (0, [f], pushOut s p q g f o rest) := by
    have hone := (hinv.breakMoved hp href hlow).1.allocPagesRange_one hp hram hfree hvic' hhost
    rw [pteFpn_presentPte hf] at hone
    exact hone
  obtain ⟨hok, hgrown⟩ := grown_of_frames hframes hmap
  refine ⟨?_, ?_⟩
  · rw [Obtains, hget]
    exact fun _ => hok
  · refine alloc_of_grown hrgid (by decide) hp hget href ?_
    rw [show allocInc 4096 = 4096 by decide, hgrown, hint, ← hagain]
    rfl

/-- The second page of process 1. -/
def allocSecond : Op := .inst 1 { opcode := .alloc, arg0 := 4096, arg1 := 1 } ⟨0, 0⟩

/-- The state after it. -/
def atCapacity : Sys :=
  (getFreeVmrgArea (pushedIn ramFull 1 1 0 0 0 []) 1 4096).2.setSymrg 1 1 ⟨4096, 8192⟩

theorem ramFull_allocSecond : UserStep ramFull allocSecond atCapacity := by
  have hp : 1 ∈ ramFull.runningList := by decide +kernel
  obtain ⟨hok, hret⟩ := alloc_pushedIn 1 0 0 0 1 [] ⟨4096, 8192⟩
    (userInv_of_run run_fillRam).inv hp (by decide) (by decide +kernel) (by decide +kernel)
    (by decide +kernel) (by decide +kernel) (by decide +kernel) (by decide +kernel)
    (by decide +kernel) (by decide) (by decide +kernel) (by decide +kernel)
  refine ⟨?_, fun _ => .inl ⟨rfl, by decide, hok⟩⟩
  rw [allocSecond, step, if_pos hp]
  change (alloc ramFull 1 1 4096 ⟨0, 0⟩).map Prod.snd = _
  rw [hret]
  rfl

/-- Both growths obtained their frame, and the first page cannot be read any
more: the swap has no free frame. -/
theorem atCapacity_not_accessible :
    Run UserStep (boot 4096 4096 fun _ => true) (fillRam ++ [allocSecond]) atCapacity ∧
    1 ∈ atCapacity.runningList ∧ atCapacity.symrgtbl 1 0 = ⟨0, 4096⟩ ∧
    ¬Accessible atCapacity 1 0 0 := by
  have hrun := run_fillRam.snoc ramFull_allocSecond
  have hp : 1 ∈ atCapacity.runningList := by decide +kernel
  have hrg : atCapacity.symrgtbl 1 0 = ⟨0, 4096⟩ := by decide +kernel
  refine ⟨hrun, hp, hrg, fun hacc => ?_⟩
  rw [(userInv_of_run hrun).accessible_iff_evictable hp (by decide) (by rw [hrg]; decide), hrg]
    at hacc
  rcases hacc with hpres | ⟨hfree, -⟩
  · have hswapped : pagePresent (pteGetEntry atCapacity 1 0) = false := by decide +kernel
    rw [show (0 + 0) / 2 ^ 12 = 0 by decide, hswapped] at hpres
    cases hpres
  · exact hfree (by decide +kernel)

end Ossim.Mem
