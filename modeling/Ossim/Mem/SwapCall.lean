import Ossim.Mem.Accessible
import Ossim.Mem.RawCalls

/-!
What the `SWP` call does to the pages of the processes.

The call copies any frame of the RAM over any frame of the swap, or the
first cells of it if a bound is hit on the way. A page that is present is
read from the RAM, which the call leaves alone. A page in the swap is read
after it was brought back, from a frame that an eviction has freed; the
eviction itself writes to the first free frame of the swap. So the call
shows exactly at the pages that are in the frame it overwrites. The results
hold of every state, reachable or not.
-/

namespace Ossim.Mem

open Ossim.Lib

/-! ### Tables stay -/

/-- The walk of the page finds all its tables. -/
def Tabled (s : Sys) (p : Pid) (g : Nat) : Prop :=
  ∃ path, getPdFromAddress (pgnAddr g) = some path ∧ (s.root p (pgnAddr g)).has path = true

theorem tabled_of_ne_zero {s : Sys} {p : Pid} {g : Nat} (h : pteGetEntry s p g ≠ 0) :
    Tabled s p g := by
  rw [pteGetEntry] at h
  split at h
  · exact absurd rfl h
  · rename_i path hpath
    refine ⟨path, hpath, ?_⟩
    by_contra hnot
    exact h (Radix.lookup_of_not_has (by simpa using hnot))

theorem Tabled.frame {s t : Sys} {p : Pid} {g : Nat} (h : Tabled s p g)
    (hroot : ∀ addr, t.root p addr = s.root p addr) : Tabled t p g := by
  obtain ⟨path, hpath, hhas⟩ := h
  exact ⟨path, hpath, by rw [hroot]; exact hhas⟩

theorem Tabled.pteSetEntry {s : Sys} {p : Pid} {g : Nat} (h : Tabled s p g) (q : Pid)
    (g' v : Nat) : Tabled (Mem.pteSetEntry s q g' v).2 p g := by
  obtain ⟨path, hpath, hhas⟩ := h
  refine ⟨path, hpath, ?_⟩
  rw [Mem.pteSetEntry]
  split
  · exact hhas
  · rename_i path' _
    dsimp only
    rw [root_setRoot]
    split
    · rename_i hsame
      have hroot : s.root q (pgnAddr g') = s.root p (pgnAddr g) := by
        rw [Sys.root, Sys.root, hsame.1]
        rcases hsame.2 with hk | rfl
        · rw [← hsame.1, hk]
          rfl
        · rfl
      rw [hroot]
      obtain ⟨-, hwrite⟩ | ⟨-, hwrite⟩ :=
        Radix.write_of_touch draw 0 path' v (s.root p (pgnAddr g)) s.host
      · rw [hwrite, Radix.has_set]
        exact Radix.has_touch_of_has hhas
      · rw [hwrite]
        exact Radix.has_touch_of_has hhas
    · exact hhas

/-- An entry whose tables exist is what it was set to. -/
theorem Tabled.pteGetEntry {s : Sys} {p : Pid} {g : Nat} (h : Tabled s p g) (v : Nat) :
    Mem.pteGetEntry (Mem.pteSetEntry s p g v).2 p g = v := by
  obtain ⟨path, hpath, hhas⟩ := h
  rw [Mem.pteGetEntry, Mem.pteSetEntry, hpath]
  dsimp only
  rw [root_setRoot, if_pos ⟨rfl, .inr rfl⟩, Radix.write_of_has hhas, Radix.lookup_set hhas,
    if_pos rfl]

theorem pteGetEntry_enlistPgnNode (s : Sys) (p q : Pid) (g g' : Nat) :
    pteGetEntry (enlistPgnNode s p g).2 q g' = pteGetEntry s q g' := by
  rw [enlistPgnNode]
  split <;> rfl

/-! ### Bringing a page back -/

/-- What a successful eviction leaves in the devices. -/
theorem swapOut_storage {s t : Sys} {p : Pid} {f : Nat}
    (h : swapOutVictimPage s p = (some f, t)) : ∃ o rest, s.freeFpList .mswp = o :: rest ∧
      f < 2 ^ 40 ∧ t.storage = Function.update s.storage .mswp
        (copyPage (s.storage .mram) f (s.storage .mswp) (o % 2 ^ 52)) ∧
      ∀ g, Tabled s p g → Tabled t p g := by
  generalize hr : (some f, t) = r at h
  cases swapOutVictimPage_cases h with
  | full => cases hr
  | noVictim => cases hr
  | noCopy => cases hr
  | noEntry => cases hr
  | evicted o rest fifo victim g v st u hfree _ _ hcopy hset =>
      cases hr
      have hf : pteFpn v < 2 ^ 40 := Nat.mod_lt _ (by decide)
      obtain ⟨hs₃, -⟩ := swapCpPage_true (by decide) hcopy
      rw [Nat.mod_eq_of_lt (a := pteFpn v) (by omega)] at hs₃
      have hstorage := storage_pteSetEntry (victimSought s rest fifo st) victim g
        (swappedPte activeMswpId o)
      have htabled (g' : Nat) (hg' : Tabled s p g') :=
        (hg'.frame (t := victimSought s rest fifo st) fun _ => rfl).pteSetEntry victim g
          (swappedPte activeMswpId o)
      rw [hset] at hstorage htabled
      exact ⟨o, rest, hfree, hf, hstorage.trans (congrArg Sys.storage hs₃), htabled⟩

/-- Bringing back a page: the frame it gets is the one that an eviction has
freed, and holds what the swap held after the eviction. -/
theorem pgGetpage_swapped {s t : Sys} {p : Pid} {g fpn : Nat}
    (hpres : pagePresent (pteGetEntry s p g) = false)
    (hswap : pageSwapped (pteGetEntry s p g) = true) (h : pgGetpage s p g = (some fpn, t)) :
    ∃ o rest, s.freeFpList .mswp = o :: rest ∧ (swapOutVictimPage s p).1 = some fpn ∧
      (∀ j < pageSz, s.InRange .mram (fpn * pageSz + j)) ∧
      (∀ j < pageSz, s.InRange .mswp (pteSwp (pteGetEntry s p g) * pageSz + j)) ∧
      t.storage .mram =
        copyPage (copyPage (s.storage .mram) fpn (s.storage .mswp) (o % 2 ^ 52))
          (pteSwp (pteGetEntry s p g)) (s.storage .mram) fpn := by
  have hne : pteGetEntry s p g ≠ 0 := by
    intro hzero
    rw [hzero] at hswap
    cases hswap
  have hslot : pteSwp (pteGetEntry s p g) < 2 ^ 40 := Nat.mod_lt _ (by decide)
  have hmeta := meta_swapOutVictimPage s p
  generalize hr : (some fpn, t) = r at h
  cases pgGetpage_cases h with
  | present hpres' =>
      rw [hpres] at hpres'
      cases hpres'
  | absent => cases hr
  | noFrame => cases hr
  | noCopy => cases hr
  | back f s₁ st u _ _ hout hcopy hu =>
      generalize pteSwp (pteGetEntry s p g) = slot at hcopy hu hslot ⊢
      rw [hout] at hmeta ⊢
      obtain ⟨o, rest, hfree, hf, hstorage, htabled⟩ := swapOut_storage hout
      have hmaxsz : s₁.maxsz = s.maxsz := congrArg Sys.Meta.maxsz hmeta
      have hrdmflg : s₁.rdmflg = s.rdmflg := congrArg Sys.Meta.rdmflg hmeta
      obtain ⟨hs₂, hrange⟩ := swapCpPage_true (by decide) hcopy
      rw [Nat.mod_eq_of_lt (by omega), Nat.mod_eq_of_lt (by omega)] at hs₂
      rw [Nat.mod_eq_of_lt (by omega), Nat.mod_eq_of_lt (by omega)] at hrange
      generalize ({ s₁ with storage := st } : Sys) = s₂ at hs₂ hu
      -- the entry can be set, so that it names the frame
      have htab : Tabled (memphyPutFreefp s₂ .mswp slot) p g := by
        refine (htabled g (tabled_of_ne_zero hne)).frame fun addr => ?_
        obtain ⟨-, heq⟩ | ⟨-, heq⟩ := memphyPutFreefp_cases s₂ .mswp slot
        all_goals
          rw [heq, hs₂]
          rfl
      have hfpn : pteFpn (pteGetEntry u p g) = f := by
        rw [hu, broughtIn, pteGetEntry_enlistPgnNode, pteSetFpn, htab.pteGetEntry (presentPte f),
          pteFpn_presentPte hf]
      rw [hfpn] at hr
      cases hr
      refine ⟨o, rest, hfree, rfl, fun j hj => ?_, fun j hj => ?_, ?_⟩
      · rw [Sys.InRange, ← hmaxsz, ← hrdmflg]
        exact (hrange j hj).2
      · rw [Sys.InRange, ← hmaxsz, ← hrdmflg]
        exact (hrange j hj).1
      · rw [hu, broughtIn, storage_enlistPgnNode, pteSetFpn, storage_pteSetEntry,
          storage_memphyPutFreefp, hs₂, Sys.setStorage, hstorage]
        rfl

/-- The byte of a page that is in the swap, and what reading it takes. -/
theorem pgGetval_swapped {s : Sys} {p : Pid} {addr slot : Nat} {b : Byte}
    (hpres : pagePresent (pteGetEntry s p (addr / 2 ^ 12)) = false)
    (hswap : pageSwapped (pteGetEntry s p (addr / 2 ^ 12)) = true)
    (hslot : pteSwp (pteGetEntry s p (addr / 2 ^ 12)) = slot)
    (h : (pgGetval s p addr).1 = some b) : ∃ f o rest, s.freeFpList .mswp = o :: rest ∧
      (swapOutVictimPage s p).1 = some f ∧ s.rdmflg .mram = true ∧
      s.InRange .mswp (slot * pageSz + addr % pageSz) ∧
      b = copyPage (s.storage .mram) f (s.storage .mswp) (o % 2 ^ 52)
        (slot * pageSz + addr % pageSz) := by
  have hoff : addr % pageSz < pageSz := Nat.mod_lt _ (by decide)
  rw [pgGetval] at h
  cases hpage : pgGetpage s p (addr / 2 ^ 12) with
  | mk r t =>
      rw [hpage] at h
      cases r with
      | none => cases h
      | some f =>
          obtain ⟨o, rest, hfree, hout, hinside, hrange, hram⟩ :=
            pgGetpage_swapped hpres hswap hpage
          rw [hslot] at hrange hram
          refine ⟨f, o, rest, hfree, hout, (hinside _ hoff).2, hrange _ hoff, ?_⟩
          dsimp only at h
          rw [memphyRead_eq_some h, hram]
          exact copyPage_self _ _ _ _ hoff

/-! ### The call -/

/-- Every byte of a mapped page of a live process is read as before. -/
def ReadsSame (s t : Sys) : Prop :=
  ∀ q ∈ s.runningList, ∀ addr < 2 ^ 64, Live (pteGetEntry s q (addr / 2 ^ 12)) →
    (pgGetval t q addr).1 = (pgGetval s q addr).1

/-- The caller is live, and some byte that a live process can bring back from
the frame of the swap that `a3` names differs from the byte that the frame
of the RAM that `a2` names has at the same offset. (The frame is not the one
that an eviction takes next.) -/
def SwpCorrupts (s : Sys) (p : Pid) (a2 a3 : Nat) : Prop :=
  p ∈ s.runningList ∧ ∃ q ∈ s.runningList, ∃ addr < 2 ^ 64,
    pagePresent (pteGetEntry s q (addr / 2 ^ 12)) = false ∧
    pageSwapped (pteGetEntry s q (addr / 2 ^ 12)) = true ∧
    pteSwp (pteGetEntry s q (addr / 2 ^ 12)) = toUint32 a3 ∧
    (pgGetval s q addr).1.isSome = true ∧
    (∀ o ∈ (s.freeFpList .mswp).head?, o % 2 ^ 52 ≠ toUint32 a3) ∧
    toUint32 a2 * pageSz + addr % pageSz < ofInt (s.maxsz .mram) ∧
    s.storage .mram (toUint32 a2 * pageSz + addr % pageSz) ≠
      s.storage .mswp (toUint32 a3 * pageSz + addr % pageSz)

/-- Two states that differ in the swap only read a page there alike, unless
its cell differs and the eviction does not write to it. -/
theorem pgGetval_swapped_ne {s t : Sys} {p q : Pid} {addr slot : Nat} (halike : Alike p s t)
    (hram : t.storage .mram = s.storage .mram) (hfree : t.freeFpList = s.freeFpList)
    (hpres : pagePresent (pteGetEntry s q (addr / 2 ^ 12)) = false)
    (hswap : pageSwapped (pteGetEntry s q (addr / 2 ^ 12)) = true)
    (hslot : pteSwp (pteGetEntry s q (addr / 2 ^ 12)) = slot) :
    (pgGetval t q addr).1 ≠ (pgGetval s q addr).1 ↔
      (pgGetval s q addr).1.isSome = true ∧
      (∀ o ∈ (s.freeFpList .mswp).head?, o % 2 ^ 52 ≠ slot) ∧
      t.storage .mswp (slot * pageSz + addr % pageSz) ≠
        s.storage .mswp (slot * pageSz + addr % pageSz) := by
  have hpte := halike.pteGetEntry q (addr / 2 ^ 12)
  have hdiv : (slot * pageSz + addr % pageSz) / pageSz = slot := by
    simp only [pageSz]
    omega
  have hboth := halike.pgGetval q addr
  have hout := halike.swapOutVictimPage q
  cases hs : (pgGetval s q addr).1 with
  | none =>
      have ht : (pgGetval t q addr).1 = none := by
        generalize pgGetval s q addr = r at hboth hs
        generalize pgGetval t q addr = r' at hboth
        cases hboth with
        | none => rfl
        | some b b' => cases hs
      rw [ht]
      exact ⟨fun hne => absurd rfl hne, fun hsome => by cases hsome.1⟩
  | some b =>
      obtain ⟨b', ht⟩ : ∃ b', (pgGetval t q addr).1 = some b' := by
        generalize pgGetval s q addr = r at hboth hs
        generalize pgGetval t q addr = r' at hboth
        cases hboth with
        | none => cases hs
        | some _ b' => exact ⟨b', rfl⟩
      obtain ⟨f, o, rest, hlist, hf, -, -, hbyte⟩ := pgGetval_swapped hpres hswap hslot hs
      have hslot' : pteSwp (pteGetEntry t q (addr / 2 ^ 12)) = slot := by
        rw [hpte]
        exact hslot
      obtain ⟨f', o', rest', hlist', hf', -, -, hbyte'⟩ :=
        pgGetval_swapped (by rw [hpte]; exact hpres) (by rw [hpte]; exact hswap) hslot' ht
      rw [hfree, hlist] at hlist'
      cases hlist'
      -- both evictions free the same frame
      obtain rfl : f' = f := by
        generalize swapOutVictimPage s q = r at hout hf
        generalize swapOutVictimPage t q = r' at hout hf'
        cases hout
        rw [hf] at hf'
        exact (Option.some.inj hf').symm
      rw [copyPage, hdiv] at hbyte hbyte'
      rw [hram] at hbyte'
      rw [ht, hlist]
      simp only [ne_eq, Option.some.injEq, Option.isSome_some, true_and, List.head?_cons,
        Option.mem_def, forall_eq']
      rcases eq_or_ne slot (o % 2 ^ 52) with heq | hne
      · rw [if_pos heq] at hbyte hbyte'
        exact ⟨fun hdiff => absurd (hbyte'.trans hbyte.symm) hdiff,
          fun hand => absurd heq.symm hand.1⟩
      · rw [if_neg hne] at hbyte hbyte'
        rw [hbyte, hbyte']
        exact ⟨fun hdiff => ⟨Ne.symm hne, hdiff⟩, fun hand => hand.2⟩

/-- A page that is present is read from the RAM. -/
theorem pgGetval_present {s : Sys} {q : Pid} {addr : Nat}
    (hpres : pagePresent (pteGetEntry s q (addr / 2 ^ 12)) = true) :
    (pgGetval s q addr).1 = memphyRead s .mram
      (pteFpn (pteGetEntry s q (addr / 2 ^ 12)) * pageSz + addr % 2 ^ 12) := by
  rw [pgGetval, pgGetpage]
  dsimp only
  rw [if_pos hpres]

theorem readsSame_iff {s : Sys} {p : Pid} (hp : p ∈ s.runningList) (a2 a3 : Nat) :
    ReadsSame s (swapCpPage s .mram (toUint32 a2) .mswp (toUint32 a3)).2 ↔
      ¬SwpCorrupts s p a2 a3 := by
  obtain ⟨n, -, heq, hrange⟩ := swapCpPage_part s (show Dev.mram ≠ Dev.mswp by decide)
    (toUint32 a2) (toUint32 a3)
  have hsmall (x : Nat) : toUint32 x % 2 ^ 52 = toUint32 x := by
    have := toUint32_lt x
    omega
  rw [hsmall, hsmall] at heq hrange
  rw [heq]
  generalize ht : s.setStorage .mswp (copyCells (s.storage .mram) (toUint32 a2)
    (s.storage .mswp) (toUint32 a3) n) = t
  have halike : Alike p s t := by
    rw [← ht]
    refine ⟨_, s.regs, s.stores, rfl, ?_⟩
    exact List.forall₂_same.mpr fun _ _ => ⟨rfl, rfl, rfl, fun _ _ => rfl⟩
  have hram : t.storage .mram = s.storage .mram := by rw [← ht]; rfl
  have hswp : t.storage .mswp = copyCells (s.storage .mram) (toUint32 a2) (s.storage .mswp)
      (toUint32 a3) n := by rw [← ht]; rfl
  have hfree : t.freeFpList = s.freeFpList := by rw [← ht]; rfl
  have hread (x : Nat) : memphyRead t .mram x = memphyRead s .mram x := by rw [← ht]; rfl
  have hoff (addr : Nat) : addr % pageSz < pageSz := Nat.mod_lt _ (by decide)
  -- the cell of an offset in a frame of the swap
  have hcell (slot addr : Nat) : t.storage .mswp (slot * pageSz + addr % pageSz) =
      if slot = toUint32 a3 ∧ addr % pageSz < n then
        s.storage .mram (toUint32 a2 * pageSz + addr % pageSz)
      else s.storage .mswp (slot * pageSz + addr % pageSz) := by
    have hdiv : (slot * pageSz + addr % pageSz) / pageSz = slot := by
      simp only [pageSz]
      omega
    have hmod : (slot * pageSz + addr % pageSz) % pageSz = addr % pageSz := by
      simp only [pageSz]
      omega
    rw [hswp, copyCells, hdiv, hmod]
  constructor
  · rintro hsame ⟨-, q, hq, addr, haddr, hpres, hswap, hslot, hsome, hhead, hlt, hdiff⟩
    obtain ⟨b, hb⟩ := Option.isSome_iff_exists.mp hsome
    obtain ⟨-, -, -, -, -, hrandom, hin, -⟩ := pgGetval_swapped hpres hswap hslot hb
    have hcopied : addr % pageSz < n := (hrange _ (hoff addr)).mpr ⟨⟨hlt, hrandom⟩, hin⟩
    refine (pgGetval_swapped_ne halike hram hfree hpres hswap hslot).mpr ⟨hsome, hhead, ?_⟩
      (hsame q hq addr haddr (.inr hswap))
    rw [hcell, if_pos ⟨rfl, hcopied⟩]
    exact hdiff
  · intro hnot q hq addr haddr hlive
    by_contra hne
    cases hpres : pagePresent (pteGetEntry s q (addr / 2 ^ 12)) with
    | true =>
        have hpte := halike.pteGetEntry q (addr / 2 ^ 12)
        rw [pgGetval_present hpres, pgGetval_present (by rw [hpte]; exact hpres), hread,
          hpte] at hne
        exact hne rfl
    | false =>
        have hswap : pageSwapped (pteGetEntry s q (addr / 2 ^ 12)) = true := by
          rcases hlive with hlive | hlive
          · rw [hpres] at hlive
            cases hlive
          · exact hlive
        obtain ⟨hsome, hhead, hdiff⟩ :=
          (pgGetval_swapped_ne halike hram hfree hpres hswap rfl).mp hne
        rw [hcell] at hdiff
        split at hdiff
        · rename_i hcopied
          refine hnot ⟨hp, q, hq, addr, haddr, hpres, hswap, hcopied.1, hsome, ?_, ?_, ?_⟩
          · rw [← hcopied.1]
            exact hhead
          · exact ((hrange _ (hoff addr)).mp hcopied.2).1.1
          · rw [← hcopied.1]
            exact hdiff
        · exact absurd rfl hdiff

/-- What the call does: nothing, or the copy. -/
theorem readsSame_of_sysMemmap {s t : Sys} {p : Pid} {a1 a2 a3 a3' : Nat} {junk : VmRg} {ret : Int}
    (hop : MemOp.ofInt (toInt a1) = some .swp)
    (hcall : sysMemmap s p a1 a2 a3 junk = some (ret, a3', t)) :
    ReadsSame s t ↔ ¬SwpCorrupts s p a2 a3 := by
  rw [sysMemmap, hop] at hcall
  split at hcall
  · rename_i hp
    cases hcall
    exact ⟨fun _ h => hp h.1, fun _ _ _ _ _ _ => rfl⟩
  · rename_i hp
    have hsame := readsSame_iff (not_not.mp hp) a2 a3
    dsimp only at hcall
    generalize swapCpPage s .mram _ .mswp _ = r at hsame hcall
    obtain ⟨_ | _, u⟩ := r
    all_goals
      cases hcall
      exact hsame

/-- `SWP` keeps what the processes read, unless it overwrites a page of
theirs with other bytes. -/
theorem swp_reads_same_iff {s t : Sys} {p : Pid} {a1 a2 a3 : BitVec 64} {junk : VmRg} {ret : Int}
    {a3' : Nat} (hop : MemOp.ofInt (toInt a1.toNat) = some .swp)
    (hcall : sysMemmap s p a1.toNat a2.toNat a3.toNat junk = some (ret, a3', t)) :
    ReadsSame s t ↔ ¬SwpCorrupts s p a2.toNat a3.toNat :=
  readsSame_of_sysMemmap hop hcall

/-! ### A page that is overwritten -/

/-- The call always returns. -/
theorem sysMemmap_swp (s : Sys) (p : Pid) (a1 a2 a3 : Nat) (junk : VmRg)
    (hop : MemOp.ofInt (toInt a1) = some .swp) :
    ∃ ret t, sysMemmap s p a1 a2 a3 junk = some (ret, a3, t) := by
  rw [sysMemmap, hop]
  split
  · exact ⟨_, _, rfl⟩
  · dsimp only
    split
    · exact ⟨_, _, rfl⟩
    · exact ⟨_, _, rfl⟩

/-- Process 1 fills the only frame of the RAM and stores 5 there. -/
def storeFive : List Op :=
  [.load, .inst 1 { opcode := .alloc, arg0 := 4096, arg1 := 0 } ⟨0, 0⟩,
    .inst 1 { opcode := .write, arg0 := 5, arg1 := 0, arg2 := 0 } ⟨0, 0⟩]

theorem storeFive_isSome : (userExec (boot 4096 8192 fun _ => true) storeFive).isSome = true := by
  decide +kernel

/-- The state after `storeFive`. -/
def withFive : Sys := (userExec (boot 4096 8192 fun _ => true) storeFive).get storeFive_isSome

/-- The state after a further page has pushed the first one into the swap. -/
def fiveSwapped : Sys :=
  (getFreeVmrgArea (pushedIn withFive 1 1 0 0 0 [1]) 1 4096).2.setSymrg 1 1 ⟨4096, 8192⟩

theorem run_storeFive : Run UserStep (boot 4096 8192 fun _ => true) storeFive withFive :=
  run_of_userExec (Option.some_get storeFive_isSome).symm

theorem withFive_allocSecond : UserStep withFive allocSecond fiveSwapped := by
  have hp : 1 ∈ withFive.runningList := by decide +kernel
  obtain ⟨hok, hret⟩ := alloc_pushedIn 1 0 0 0 1 [1] ⟨4096, 8192⟩
    (userInv_of_run run_storeFive).inv hp (by decide) (by decide +kernel) (by decide +kernel)
    (by decide +kernel) (by decide +kernel) (by decide +kernel) (by decide +kernel)
    (by decide +kernel) (by decide) (by decide +kernel) (by decide +kernel)
  refine ⟨?_, fun _ => .inl ⟨rfl, by decide, hok⟩⟩
  rw [allocSecond, step, if_pos hp]
  change (alloc withFive 1 1 4096 ⟨0, 0⟩).map Prod.snd = _
  rw [hret]
  rfl

/-- Process 1 stores 9 in its second page. -/
def storeNine : List Op :=
  [.inst 1 { opcode := .write, arg0 := 9, arg1 := 1, arg2 := 0 } ⟨0, 0⟩]

theorem storeNine_isSome : (userExec fiveSwapped storeNine).isSome = true := by
  decide +kernel

/-- The state after that: 5 is in the swap and 9 in the RAM. -/
def fiveAndNine : Sys := (userExec fiveSwapped storeNine).get storeNine_isSome

theorem run_fiveAndNine : Run UserStep (boot 4096 8192 fun _ => true)
    (storeFive ++ [allocSecond] ++ storeNine) fiveAndNine :=
  (run_storeFive.snoc withFive_allocSecond).append
    (run_of_userExec (Option.some_get storeNine_isSome).symm)

theorem swp_reads_same_iff_fiveAndNine : ∃ ret t,
    sysMemmap fiveAndNine 1 (3 : BitVec 64).toNat (0 : BitVec 64).toNat (1 : BitVec 64).toNat
      ⟨0, 0⟩ = some (ret, 1, t) ∧
    (ReadsSame fiveAndNine t ↔
      ¬SwpCorrupts fiveAndNine 1 (0 : BitVec 64).toNat (1 : BitVec 64).toNat) := by
  obtain ⟨ret, t, ht⟩ := sysMemmap_swp fiveAndNine 1 (3 : BitVec 64).toNat
    (0 : BitVec 64).toNat (1 : BitVec 64).toNat ⟨0, 0⟩ (by decide)
  exact ⟨ret, t, ht, swp_reads_same_iff (by decide) ht⟩

/-- The byte 5 of the first page can be read. -/
theorem fiveAndNine_readable : (pgGetval fiveAndNine 1 0).1.isSome = true := by
  have hinv := (userInv_of_run run_fiveAndNine).inv
  have hp : 1 ∈ fiveAndNine.runningList := by decide +kernel
  have hg : 0 / 2 ^ 12 < userPgns := by decide
  have hbacked : Backed (pteGetEntry fiveAndNine 1 (0 / 2 ^ 12)) := by
    rw [Backed]
    decide +kernel
  have hvictim : HasVictim fiveAndNine 1 := ⟨1, by decide +kernel, by decide +kernel⟩
  rw [hinv.pgGetval_isSome hp hg, hinv.pgGetpage_isSome hp hg hbacked, hinv.swapOut_isSome hp]
  exact .inr ⟨by decide +kernel, 1, hp, hvictim⟩

/-- Its cell in the swap is the one that frame 0 of the RAM would be copied
to, and the RAM holds 9 there. -/
theorem swpCorrupts_fiveAndNine : SwpCorrupts fiveAndNine 1 0 0 := by
  have hp : 1 ∈ fiveAndNine.runningList := by decide +kernel
  refine ⟨hp, 1, hp, 0, by decide, by decide +kernel, by decide +kernel, by decide +kernel,
    fiveAndNine_readable, by decide +kernel, by decide +kernel, by decide +kernel⟩

/-- `SWP` of frame 0 of the RAM to frame 0 of the swap. -/
theorem fiveAndNine_corrupted : ∃ ret t,
    Run UserStep (boot 4096 8192 fun _ => true) (storeFive ++ [allocSecond] ++ storeNine)
      fiveAndNine ∧
    sysMemmap fiveAndNine 1 (3 : BitVec 64).toNat (0 : BitVec 64).toNat (0 : BitVec 64).toNat
      ⟨0, 0⟩ = some (ret, 0, t) ∧ ¬ReadsSame fiveAndNine t := by
  obtain ⟨ret, t, ht⟩ := sysMemmap_swp fiveAndNine 1 (3 : BitVec 64).toNat
    (0 : BitVec 64).toNat (0 : BitVec 64).toNat ⟨0, 0⟩ (by decide)
  refine ⟨ret, t, run_fiveAndNine, ht, ?_⟩
  rw [readsSame_of_sysMemmap (by decide) ht, not_not]
  exact swpCorrupts_fiveAndNine

end Ossim.Mem
