import Ossim.Mem.SwapCall

/-!
When an eviction succeeds and which bytes are at hand, in any state.

`swap_out_victim_page` needs a free frame of the swap, a page to put there,
and both frames inside their devices. The page is decided by the page lists
and the entries of the state before. In the states that ordinary runs reach
the frames are always inside; after raw system calls an entry can name a
frame that the RAM does not have.
-/

namespace Ossim.Mem

open Ossim.Lib

/-! ### The victim -/

/-- The page is in RAM and can be evicted. -/
def inRam (s : Sys) (q : Pid) (g : Nat) : Bool :=
  pagePresent (pteGetEntry s q g) && !pageSwapped (pteGetEntry s q g)

/-- The page in RAM that was enlisted first of those in the page list. -/
def oldestInRam (s : Sys) (q : Pid) : Option Nat := (s.fifoPgn q).reverse.find? (inRam s q)

/-- The page that goes next: the oldest of the caller, or of the first other
process that has one. -/
def nextVictim (s : Sys) (caller : Pid) : Option (Pid × Nat) :=
  (caller :: s.runningList.filter (· ≠ caller)).findSome? fun q =>
    (oldestInRam s q).map fun g => (q, g)

/-- A search that leaves an empty page list behind changes nothing about the
oldest pages if it found none. -/
theorem oldestInRam_emptied {s : Sys} {p : Pid} (h : oldestInRam s p = none) (q : Pid) :
    oldestInRam { s with fifoPgn := Function.update s.fifoPgn p [] } q = oldestInRam s q := by
  by_cases hq : q = p
  · rw [hq, h, oldestInRam]
    dsimp only
    rw [Function.update_self]
    rfl
  · rw [oldestInRam]
    dsimp only
    rw [Function.update_of_ne hq]
    rfl

/-- A search through one page list finds its oldest page in RAM. If there is
none, the list is empty afterwards. -/
theorem findPresentVictimInProc_oldest (s : Sys) (p : Pid) : ∃ fifo,
    findPresentVictimInProc s p = ((oldestInRam s p).map fun g => (g, pteGetEntry s p g),
      { s with fifoPgn := Function.update s.fifoPgn p fifo }) ∧
    (oldestInRam s p = none → fifo = []) := by
  -- induction on the reversed list, whose head is the tail of the page list
  suffices hgo : ∀ (l : List Nat) (s : Sys), s.fifoPgn p = l.reverse → ∃ fifo,
      findPresentVictim p l.length s =
        ((l.find? (inRam s p)).map fun g => (g, pteGetEntry s p g),
          { s with fifoPgn := Function.update s.fifoPgn p fifo }) ∧
      (l.find? (inRam s p) = none → fifo = []) by
    obtain ⟨fifo, h⟩ := hgo (s.fifoPgn p).reverse s (List.reverse_reverse _).symm
    rw [List.length_reverse] at h
    exact ⟨fifo, h⟩
  intro l
  induction l with
  | nil =>
      intro s hs
      refine ⟨s.fifoPgn p, ?_, fun _ => hs⟩
      rw [Function.update_eq_self]
      rfl
  | cons g l ih =>
      intro s hs
      rw [List.reverse_cons] at hs
      have hlast : (s.fifoPgn p).getLast? = some g := by rw [hs, List.getLast?_concat]
      rw [List.length_cons, findPresentVictim, findVictimPage, hlast, hs, List.dropLast_concat]
      dsimp only
      change ∃ fifo, (if inRam s p g = true then _ else _) = _ ∧ _
      cases hin : inRam s p g with
      | true =>
          rw [if_pos rfl, List.find?_cons_of_pos hin]
          exact ⟨l.reverse, rfl, fun h => by cases h⟩
      | false =>
          rw [if_neg Bool.false_ne_true, List.find?_cons_of_neg (by rw [hin]; decide)]
          obtain ⟨fifo, h, hempty⟩ := ih { s with fifoPgn := Function.update s.fifoPgn p l.reverse }
            (Function.update_self ..)
          refine ⟨fifo, h.trans ?_, hempty⟩
          dsimp only
          rw [Function.update_idem]
          rfl

/-- The search through the other processes. -/
theorem findVictimAmong_oldest (caller : Pid) (l : List Pid) (s : Sys) : ∃ fifo,
    findVictimAmong caller l s =
      (((l.filter (· ≠ caller)).findSome? fun q => (oldestInRam s q).map fun g => (q, g)).map
          fun v => (v.1, v.2, pteGetEntry s v.1 v.2), { s with fifoPgn := fifo }) := by
  induction l generalizing s with
  | nil => exact ⟨s.fifoPgn, rfl⟩
  | cons q l ih =>
      rw [findVictimAmong]
      split
      · rename_i heq
        rw [List.filter_cons_of_neg (by simpa using heq)]
        exact ih s
      · rename_i hne
        rw [List.filter_cons_of_pos (by simpa using hne), List.findSome?_cons]
        obtain ⟨fifo, h, hempty⟩ := findPresentVictimInProc_oldest s q
        rw [h]
        cases hold : oldestInRam s q with
        | some g => exact ⟨_, rfl⟩
        | none =>
            rw [hempty hold]
            obtain ⟨fifo', h'⟩ := ih { s with fifoPgn := Function.update s.fifoPgn q [] }
            simp only [oldestInRam_emptied hold] at h'
            exact ⟨fifo', h'⟩

/-- The search for a victim finds the next one. -/
theorem findGlobalVictim_next (s : Sys) (caller : Pid) : ∃ fifo,
    findGlobalVictim s caller = ((nextVictim s caller).map
      fun v => (v.1, v.2, pteGetEntry s v.1 v.2), { s with fifoPgn := fifo }) := by
  rw [findGlobalVictim, nextVictim, List.findSome?_cons]
  obtain ⟨fifo, h, hempty⟩ := findPresentVictimInProc_oldest s caller
  rw [h]
  cases hold : oldestInRam s caller with
  | some g => exact ⟨_, rfl⟩
  | none =>
      rw [hempty hold]
      obtain ⟨fifo', h'⟩ := findVictimAmong_oldest caller s.runningList
        { s with fifoPgn := Function.update s.fifoPgn caller [] }
      simp only [oldestInRam_emptied hold] at h'
      exact ⟨fifo', h'⟩

theorem inRam_nextVictim {s : Sys} {caller q : Pid} {g : Nat}
    (h : nextVictim s caller = some (q, g)) : inRam s q g = true := by
  obtain ⟨q', -, hq'⟩ := List.exists_of_findSome?_eq_some h
  obtain ⟨g', hold, heq⟩ := Option.map_eq_some_iff.mp hq'
  cases heq
  exact List.find?_some hold

/-! ### The eviction -/

/-- The cells of the frame are inside the device. The addresses of a frame
are words. -/
def FrameInside (s : Sys) (d : Dev) (f : Nat) : Prop :=
  ∀ j < pageSz, s.InRange d (f % 2 ^ 52 * pageSz + j)

/-- There is a free frame of the swap, and a page in RAM that can be copied
to it. -/
def CanEvict (s : Sys) (caller : Pid) : Prop :=
  ∃ o rest q g, s.freeFpList .mswp = o :: rest ∧ FrameInside s .mswp o ∧
    nextVictim s caller = some (q, g) ∧ FrameInside s .mram (pteFpn (pteGetEntry s q g))

/-- The copy of a page succeeds exactly if both frames are inside. -/
theorem swapCpPage_fst {s : Sys} {src dst : Dev} (hne : src ≠ dst) (f o : Nat) :
    (swapCpPage s src f dst o).1 = true ↔ FrameInside s src f ∧ FrameInside s dst o := by
  obtain ⟨n, hn, heq, hin⟩ := swapCpPage_part s hne f o
  rw [heq, decide_eq_true_eq]
  constructor
  · rintro rfl
    exact ⟨fun j hj => ((hin j hj).mp hj).1, fun j hj => ((hin j hj).mp hj).2⟩
  · rintro ⟨hsrc, hdst⟩
    by_contra hlt
    exact absurd ((hin n (by omega)).mpr ⟨hsrc n (by omega), hdst n (by omega)⟩) (lt_irrefl n)

/-- An entry whose tables exist can be written. -/
theorem Tabled.pteSetEntry_fst {s : Sys} {p : Pid} {g : Nat} (h : Tabled s p g) (v : Nat) :
    (Mem.pteSetEntry s p g v).1 = true := by
  obtain ⟨path, hpath, hhas⟩ := h
  rw [Mem.pteSetEntry, hpath]
  dsimp only
  rw [Radix.write_of_has hhas]

/-- An eviction with a free frame and a victim succeeds if both frames are
inside, and frees the frame of the victim. -/
theorem swapOutVictimPage_victim {s : Sys} {caller q : Pid} {o g : Nat} {rest : List Nat}
    (hfree : s.freeFpList .mswp = o :: rest) (hvictim : nextVictim s caller = some (q, g)) :
    (swapOutVictimPage s caller).1.isSome = true ↔
      FrameInside s .mram (pteFpn (pteGetEntry s q g)) ∧ FrameInside s .mswp o := by
  have hget : memphyGetFreefp s .mswp = some (o, s.setSwapFree rest) := by
    rw [memphyGetFreefp, hfree]
    rfl
  obtain ⟨fifo, hfound⟩ := findGlobalVictim_next (s.setSwapFree rest) caller
  rw [show nextVictim (s.setSwapFree rest) caller = some (q, g) from hvictim] at hfound
  have hvic : findGlobalVictim (s.setSwapFree rest) caller =
    (some (q, g, pteGetEntry s q g), victimSought s rest fifo s.storage) := hfound
  have htabled : Tabled s q g := by
    refine tabled_of_ne_zero fun hzero => ?_
    have hpres := inRam_nextVictim hvictim
    rw [inRam, hzero] at hpres
    cases hpres
  have hcopy : (swapCpPage (victimSought s rest fifo s.storage) .mram
      (pteFpn (pteGetEntry s q g)) .mswp o).1 = true ↔
      FrameInside s .mram (pteFpn (pteGetEntry s q g)) ∧ FrameInside s .mswp o :=
    swapCpPage_fst (by decide) _ _
  rw [← hcopy, swapOutVictimPage, hget]
  dsimp only
  rw [hvic]
  dsimp only
  obtain ⟨st, hst⟩ := swapCpPage_eq (victimSought s rest fifo s.storage) .mram
    (pteFpn (pteGetEntry s q g)) .mswp o
  generalize swapCpPage (victimSought s rest fifo s.storage) .mram
    (pteFpn (pteGetEntry s q g)) .mswp o = r at hst
  obtain ⟨_ | _, t⟩ := r
  · exact ⟨fun h => (by cases h), fun h => (by cases h)⟩
  · obtain rfl : t = victimSought s rest fifo st := hst
    have hset := (htabled.frame (t := victimSought s rest fifo st) fun _ => rfl).pteSetEntry_fst
      (swappedPte activeMswpId o)
    refine ⟨fun _ => rfl, fun _ => ?_⟩
    dsimp only [pteSetSwap]
    generalize pteSetEntry (victimSought s rest fifo st) q g (swappedPte activeMswpId o) = w at hset
    obtain ⟨_ | _, u⟩ := w
    · cases hset
    · rfl

/-- An eviction succeeds exactly if the state before allows it. -/
theorem swapOutVictimPage_isSome (s : Sys) (caller : Pid) :
    (swapOutVictimPage s caller).1.isSome = true ↔ CanEvict s caller := by
  constructor
  · intro hsome
    cases hfree : s.freeFpList .mswp with
    | nil =>
        rw [swapOutVictimPage, memphyGetFreefp, hfree] at hsome
        cases hsome
    | cons o rest =>
        cases hvictim : nextVictim s caller with
        | none =>
            have hget : memphyGetFreefp s .mswp = some (o, s.setSwapFree rest) := by
              rw [memphyGetFreefp, hfree]
              rfl
            obtain ⟨fifo, hvic⟩ := findGlobalVictim_next (s.setSwapFree rest) caller
            rw [show nextVictim (s.setSwapFree rest) caller = none from hvictim] at hvic
            rw [swapOutVictimPage, hget] at hsome
            dsimp only at hsome
            rw [hvic] at hsome
            cases hsome
        | some v =>
            obtain ⟨hram, hswp⟩ := (swapOutVictimPage_victim hfree hvictim).mp hsome
            exact ⟨o, rest, v.1, v.2, hfree, hswp, hvictim, hram⟩
  · rintro ⟨o, rest, q, g, hfree, hswp, hvictim, hram⟩
    exact (swapOutVictimPage_victim hfree hvictim).mpr ⟨hram, hswp⟩

/-! ### Bytes that are at hand -/

/-- The page is in the swap. -/
def inSwap (s : Sys) (p : Pid) (g : Nat) : Bool :=
  !pagePresent (pteGetEntry s p g) && pageSwapped (pteGetEntry s p g)

/-- The address of a byte of a region, if it passes the checks. -/
def userAddr (s : Sys) (p : Pid) (rgid offset : Nat) : Option Nat :=
  if maxSymtblSz ≤ rgid then none else userAccess (s.symrgtbl p rgid) offset

/-- The byte is on a page in the swap. -/
def UserFault (s : Sys) (p : Pid) (rgid offset : Nat) : Prop :=
  ∃ addr, userAddr s p rgid offset = some addr ∧ inSwap s p (addr / 2 ^ 12) = true

/-- The byte is on a page in RAM. -/
def UserInRam (s : Sys) (p : Pid) (rgid offset : Nat) : Prop :=
  ∃ addr, userAddr s p rgid offset = some addr ∧
    pagePresent (pteGetEntry s p (addr / 2 ^ 12)) = true ∧
    s.InRange .mram (pteFpn (pteGetEntry s p (addr / 2 ^ 12)) * pageSz + addr % 2 ^ 12)

/-- The byte of a kernel object is mapped into the RAM. -/
def KernelInRam (s : Sys) (p : Pid) (rgid offset : Nat) : Prop :=
  ∃ vaddr phys, kernelAccess s p rgid offset = some vaddr ∧
    kernelTranslateVaddr s vaddr = some phys ∧ s.InRange .mram phys

theorem UserFault.not_inRam {s : Sys} {p : Pid} {rgid offset : Nat}
    (h : UserFault s p rgid offset) : ¬UserInRam s p rgid offset := by
  rintro ⟨addr, haddr, hpres, -⟩
  obtain ⟨addr', haddr', hswap⟩ := h
  rw [haddr, Option.some_inj] at haddr'
  rw [← haddr', inSwap, hpres] at hswap
  cases hswap

theorem readKernelMem_isSome (s : Sys) (p : Pid) (rgid offset : Nat) :
    (readKernelMem s p rgid offset).isSome = true ↔ KernelInRam s p rgid offset := by
  constructor
  · intro hsome
    obtain ⟨v, hv⟩ := Option.isSome_iff_exists.mp hsome
    obtain ⟨vaddr, haccess, hv⟩ := Option.bind_eq_some_iff.mp hv
    obtain ⟨phys, hphys, hv⟩ := Option.bind_eq_some_iff.mp hv
    refine ⟨vaddr, phys, haccess, hphys, ?_⟩
    by_contra hout
    rw [memphyRead_not_inRange hout] at hv
    cases hv
  · rintro ⟨vaddr, phys, haccess, hphys, hin⟩
    rw [readKernelMem, haccess, Option.bind_eq_bind, Option.bind_some, hphys]
    exact congrArg Option.isSome (memphyRead_inRange hin)

theorem writeKernelMem_isSome (s : Sys) (p : Pid) (rgid offset : Nat) (v : Byte) :
    (writeKernelMem s p rgid offset v).isSome = true ↔ KernelInRam s p rgid offset := by
  constructor
  · intro hsome
    obtain ⟨t, ht⟩ := Option.isSome_iff_exists.mp hsome
    obtain ⟨vaddr, haccess, ht⟩ := Option.bind_eq_some_iff.mp ht
    obtain ⟨phys, hphys, ht⟩ := Option.bind_eq_some_iff.mp ht
    refine ⟨vaddr, phys, haccess, hphys, ?_⟩
    by_contra hout
    rw [memphyWrite_not_inRange hout] at ht
    cases ht
  · rintro ⟨vaddr, phys, haccess, hphys, hin⟩
    rw [writeKernelMem, haccess, Option.bind_eq_bind, Option.bind_some, hphys]
    exact congrArg Option.isSome (memphyWrite_inRange hin v)

theorem userAddr_of_refused {s : Sys} {p : Pid} {rgid : Nat}
    (h : maxSymtblSz ≤ rgid ∨ (s.symrgtbl p rgid).rgEnd ≤ (s.symrgtbl p rgid).rgStart)
    (offset : Nat) : userAddr s p rgid offset = none := by
  rw [userAddr]
  split
  · rfl
  · rename_i hid
    exact userAccess_of_empty (h.resolve_left hid) offset

theorem userAddr_of_lt {s : Sys} {p : Pid} {rgid : Nat} (h : ¬maxSymtblSz ≤ rgid)
    (offset : Nat) : userAddr s p rgid offset = userAccess (s.symrgtbl p rgid) offset :=
  if_neg h

/-- A page that is not in the swap is in RAM, or there is no such page. -/
theorem pgGetpage_not_inSwap {s : Sys} {p : Pid} {g : Nat} (h : inSwap s p g = false) :
    pgGetpage s p g =
      (if pagePresent (pteGetEntry s p g) then some (pteFpn (pteGetEntry s p g)) else none, s) := by
  rw [inSwap] at h
  rw [pgGetpage]
  cases hpres : pagePresent (pteGetEntry s p g) with
  | true => simp
  | false =>
      rw [hpres] at h
      simp [show pageSwapped (pteGetEntry s p g) = false from h]

/-- A page comes back only if one can be evicted for it. -/
theorem canEvict_of_inSwap {s : Sys} {p : Pid} {g : Nat} (h : inSwap s p g = true)
    (hsome : (pgGetpage s p g).1.isSome = true) : CanEvict s p := by
  rw [← swapOutVictimPage_isSome]
  rw [inSwap, Bool.and_eq_true, Bool.not_eq_true'] at h
  generalize hr : pgGetpage s p g = r at hsome
  cases pgGetpage_cases hr with
  | present hpres =>
      rw [hpres] at h
      cases h.1
  | absent => cases hsome
  | noFrame => cases hsome
  | noCopy => cases hsome
  | back f t st u _ _ hout =>
      rw [hout]
      rfl

/-! ### Reads -/

/-- The byte is on a page in RAM, or on one that can be brought back. -/
def UserReadable (s : Sys) (p : Pid) (rgid offset : Nat) : Prop :=
  UserInRam s p rgid offset ∨ ∃ addr, userAddr s p rgid offset = some addr ∧
    inSwap s p (addr / 2 ^ 12) = true ∧ CanEvict s p ∧
    FrameInside s .mswp (pteSwp (pteGetEntry s p (addr / 2 ^ 12)))

/-- The frame that an eviction frees is inside the RAM. -/
theorem frameInside_of_swapOut {s t : Sys} {p : Pid} {f : Nat}
    (h : swapOutVictimPage s p = (some f, t)) : FrameInside s .mram f := by
  generalize hr : (some f, t) = r at h
  cases swapOutVictimPage_cases h with
  | full => cases hr
  | noVictim => cases hr
  | noCopy => cases hr
  | noEntry => cases hr
  | evicted o rest fifo q g v st u _ _ _ hcopy =>
      cases hr
      have hinside : (swapCpPage (victimSought s rest fifo s.storage) .mram (pteFpn v) .mswp o).1 =
          true ↔ FrameInside s .mram (pteFpn v) ∧ FrameInside s .mswp o :=
        swapCpPage_fst (by decide) (pteFpn v) o
      rw [hcopy] at hinside
      exact (hinside.mp rfl).1

/-- A page in the swap comes back exactly if another can be evicted and its
own frame is inside the swap. -/
theorem pgGetpage_inSwap {s : Sys} {p : Pid} {g : Nat} (h : inSwap s p g = true) :
    (pgGetpage s p g).1.isSome = true ↔
      CanEvict s p ∧ FrameInside s .mswp (pteSwp (pteGetEntry s p g)) := by
  have hcan := canEvict_of_inSwap h
  rw [inSwap, Bool.and_eq_true, Bool.not_eq_true'] at h
  obtain ⟨hpres, hswap⟩ := h
  have hslot : pteSwp (pteGetEntry s p g) % 2 ^ 52 = pteSwp (pteGetEntry s p g) :=
    Nat.mod_eq_of_lt ((Nat.mod_lt _ (by decide)).trans_le (by decide))
  constructor
  · intro hsome
    obtain ⟨f, hf⟩ := Option.isSome_iff_exists.mp hsome
    obtain ⟨-, -, -, -, -, hrange, -⟩ := pgGetpage_swapped hpres hswap (Prod.ext hf rfl)
    refine ⟨hcan hsome, fun j hj => ?_⟩
    rw [hslot]
    exact hrange j hj
  · rintro ⟨hevict, hinside⟩
    rw [← swapOutVictimPage_isSome] at hevict
    have hmeta := meta_swapOutVictimPage s p
    generalize hr : pgGetpage s p g = r
    cases pgGetpage_cases hr with
    | present hpres' => rfl
    | absent _ hswap' =>
        rw [hswap] at hswap'
        cases hswap'
    | noFrame t _ _ hout =>
        rw [hout] at hevict
        cases hevict
    | noCopy f t st _ _ hout hcopy =>
        -- both frames are inside, so the copy succeeds
        have hram := frameInside_of_swapOut hout
        rw [hout] at hmeta
        have hmaxsz : t.maxsz = s.maxsz := congrArg Sys.Meta.maxsz hmeta
        have hrdmflg : t.rdmflg = s.rdmflg := congrArg Sys.Meta.rdmflg hmeta
        have hcopied : (swapCpPage t .mswp (pteSwp (pteGetEntry s p g)) .mram f).1 = true := by
          rw [swapCpPage_fst (by decide)]
          simp only [FrameInside, Sys.InRange, hmaxsz, hrdmflg] at hram hinside ⊢
          exact ⟨hinside, hram⟩
        rw [hcopy] at hcopied
        cases hcopied
    | back => rfl

/-- A byte can be read exactly if it is at hand or can be brought back. -/
theorem pgGetval_isSome (s : Sys) (p : Pid) (addr : Nat) :
    (pgGetval s p addr).1.isSome = true ↔
      pagePresent (pteGetEntry s p (addr / 2 ^ 12)) = true ∧
        s.InRange .mram (pteFpn (pteGetEntry s p (addr / 2 ^ 12)) * pageSz + addr % 2 ^ 12) ∨
      inSwap s p (addr / 2 ^ 12) = true ∧ CanEvict s p ∧
        FrameInside s .mswp (pteSwp (pteGetEntry s p (addr / 2 ^ 12))) := by
  cases hswap : inSwap s p (addr / 2 ^ 12) with
  | false =>
      rw [pgGetval, pgGetpage_not_inSwap hswap, or_iff_left fun h => Bool.false_ne_true h.1]
      cases pagePresent (pteGetEntry s p (addr / 2 ^ 12)) with
      | false => exact ⟨fun h => (by cases h), fun h => absurd h.1 Bool.false_ne_true⟩
      | true =>
          rw [and_iff_right rfl]
          by_cases hin : s.InRange .mram
              (pteFpn (pteGetEntry s p (addr / 2 ^ 12)) * pageSz + addr % 2 ^ 12)
          · simp only [if_true, memphyRead_inRange hin]
            exact ⟨fun _ => hin, fun _ => rfl⟩
          · simp only [if_true, memphyRead_not_inRange hin]
            exact ⟨fun h => (by cases h), fun h => absurd h hin⟩
  | true =>
      have hpage := pgGetpage_inSwap hswap
      have hmeta := meta_pgGetpage s p (addr / 2 ^ 12)
      rw [inSwap, Bool.and_eq_true, Bool.not_eq_true'] at hswap
      rw [hswap.1, or_iff_right fun h => Bool.false_ne_true h.1, and_iff_right rfl, ← hpage,
        pgGetval]
      cases hget : pgGetpage s p (addr / 2 ^ 12) with
      | mk r t =>
          cases r with
          | none => exact Iff.rfl
          | some f =>
              -- the frame it is in now is inside the RAM
              obtain ⟨-, -, -, -, hinside, -⟩ := pgGetpage_swapped hswap.1 hswap.2 hget
              rw [hget] at hmeta
              have hin : t.InRange .mram (f * pageSz + addr % 2 ^ 12) := by
                rw [Sys.InRange, show t.maxsz = s.maxsz from congrArg Sys.Meta.maxsz hmeta,
                  show t.rdmflg = s.rdmflg from congrArg Sys.Meta.rdmflg hmeta]
                exact hinside _ (Nat.mod_lt _ (by decide))
              dsimp only
              rw [memphyRead_inRange hin]
              exact Iff.rfl

theorem read_isSome (s : Sys) (p : Pid) (rgid offset : Nat) :
    (read s p rgid offset).1.isSome = true ↔ UserReadable s p rgid offset := by
  have hread : read s p rgid offset =
      (userAddr s p rgid offset).elim (none, s) (pgGetval s p) := by
    rw [read]
    split
    · rename_i h
      rw [userAddr_of_refused (h.imp_right fun heq => heq.ge), Option.elim_none]
    · rename_i h
      rw [userAddr_of_lt fun hid => h (.inl hid)]
      cases userAccess (s.symrgtbl p rgid) offset <;> rfl
  rw [hread, UserReadable, UserInRam]
  cases haddr : userAddr s p rgid offset with
  | none =>
      simp only [Option.elim_none, Option.isSome_none, reduceCtorEq, false_and, exists_false,
        or_false]
  | some addr =>
      rw [Option.elim_some, pgGetval_isSome]
      simp only [Option.some_inj, exists_eq_left']

end Ossim.Mem
