import Ossim.Mem.SwapRequests

/-!
When a page is swapped out to obtain a frame.

A growth asks the free list first and evicts only if it is empty. A page
fault evicts without a look at the free list. Which instructions fault, and
whether there is something to evict, is decided by the regions, the entries
and the lists of the state before.
-/

namespace Ossim.Mem

open Ossim.Lib

/-! ### One request -/

/-- No page that is in RAM in `s` is out of it in `t`. -/
def KeepsResident (s t : Sys) : Prop :=
  ∀ q g, pagePresent (pteGetEntry s q g) = true → pagePresent (pteGetEntry t q g) = true

/-- If a frame is free when one is needed, no page goes out for it. -/
def FrameRequest.UnderPressure (r : FrameRequest) : Prop :=
  r.before.freeFpList .mram ≠ [] → KeepsResident r.before r.answer.2

theorem KeepsResident.of_entries {s t : Sys} (h : ∀ q g, pteGetEntry t q g = pteGetEntry s q g) :
    KeepsResident s t := fun q g hpres => by
  rw [h]
  exact hpres

/-- A growth takes a free frame if there is one. -/
theorem keepsResident_getFrame {s : Sys} (caller : Pid) (h : s.freeFpList .mram ≠ []) :
    KeepsResident s (getFrame s caller).2 := by
  obtain ⟨f, rest, hfree⟩ := List.exists_cons_of_ne_nil h
  have hget : getFrame s caller =
      (some f, { s with freeFpList := Function.update s.freeFpList .mram rest }) := by
    rw [getFrame, memphyGetFreefp, hfree]
  rw [hget]
  exact .of_entries fun _ _ => rfl

/-- `swap_out_victim_page` swaps a page out, or fails and leaves all entries
as they were. -/
theorem keepsResident_swapOut (s : Sys) (caller : Pid) :
    KeepsResident s (swapOutVictimPage s caller).2 ↔ ¬CanEvict s caller := by
  rw [← swapOutVictimPage_isSome, Bool.not_eq_true, Option.isSome_eq_false_iff,
    Option.isNone_iff_eq_none]
  generalize hr : swapOutVictimPage s caller = r
  cases swapOutVictimPage_cases hr with
  | full => exact ⟨fun _ => rfl, fun _ => .of_entries fun _ _ => rfl⟩
  | noVictim =>
      exact ⟨fun _ => rfl, fun _ => .of_entries fun _ _ => pteGetEntry_memphyPutFreefp ..⟩
  | noCopy =>
      exact ⟨fun _ => rfl, fun _ => .of_entries fun _ _ => pteGetEntry_memphyPutFreefp ..⟩
  | noEntry o rest fifo q g v st t _ _ _ _ hset =>
      refine ⟨fun _ => rfl, fun _ => .of_entries fun _ _ => ?_⟩
      rw [pteGetEntry_memphyPutFreefp, pteGetEntry_of_fail hset]
      rfl
  | evicted o rest fifo q g v st t _ _ hvic _ hset =>
      -- the victim was in RAM and is not any more
      refine ⟨fun hkeeps => ?_, fun hnone => by cases hnone⟩
      obtain ⟨-, -, hentry, hpres, -⟩ := hvic
      have htabled : Tabled (victimSought s rest fifo st) q g := by
        refine tabled_of_ne_zero ?_
        change pteGetEntry s q g ≠ 0
        rw [hentry]
        rintro rfl
        cases hpres
      have hout := htabled.pteGetEntry (swappedPte activeMswpId o)
      rw [hset] at hout
      have hin := hkeeps q g (by rw [hentry]; exact hpres)
      dsimp only at hin hout
      rw [hout, pagePresent_swappedPte] at hin
      cases hin

/-! ### Page faults and the free list of the RAM -/

theorem freeFpList_pteSetEntry (s : Sys) (p : Pid) (g v : Nat) :
    (pteSetEntry s p g v).2.freeFpList = s.freeFpList := by
  rw [pteSetEntry]
  split
  · rfl
  · dsimp only
    rw [Sys.setRoot]
    split <;> rfl

theorem freeFpList_memphyPutFreefp_mswp (s : Sys) (x : Nat) :
    (memphyPutFreefp s .mswp x).freeFpList .mram = s.freeFpList .mram := by
  obtain ⟨-, h⟩ | ⟨-, h⟩ := memphyPutFreefp_cases s .mswp x
  · rw [h]
    rfl
  · rw [h]

theorem freeFpList_swapOutVictimPage (s : Sys) (p : Pid) :
    (swapOutVictimPage s p).2.freeFpList .mram = s.freeFpList .mram := by
  generalize hr : swapOutVictimPage s p = r
  cases swapOutVictimPage_cases hr with
  | full => rfl
  | noVictim => exact freeFpList_memphyPutFreefp_mswp ..
  | noCopy => exact freeFpList_memphyPutFreefp_mswp ..
  | noEntry o rest fifo q g v st t _ _ _ _ hset =>
      have hlist := freeFpList_pteSetEntry (victimSought s rest fifo st) q g
        (swappedPte activeMswpId o)
      rw [hset] at hlist
      rw [freeFpList_memphyPutFreefp_mswp]
      exact congrFun hlist .mram
  | evicted o rest fifo q g v st t _ _ _ _ hset =>
      have hlist := freeFpList_pteSetEntry (victimSought s rest fifo st) q g
        (swappedPte activeMswpId o)
      rw [hset] at hlist
      exact congrFun hlist .mram

theorem freeFpList_pgGetpage (s : Sys) (p : Pid) (g : Nat) :
    (pgGetpage s p g).2.freeFpList .mram = s.freeFpList .mram := by
  have hfree := freeFpList_swapOutVictimPage s p
  generalize hr : pgGetpage s p g = r
  cases pgGetpage_cases hr with
  | present => rfl
  | absent => rfl
  | noFrame t _ _ hout =>
      rw [hout] at hfree
      exact hfree
  | noCopy f t st _ _ hout =>
      rw [hout] at hfree
      exact hfree
  | back f t st u _ _ hout _ hu =>
      rw [hout] at hfree
      have henlist : ∀ v : Sys, (enlistPgnNode v p g).2.freeFpList = v.freeFpList := by
        intro v
        rw [enlistPgnNode]
        split <;> rfl
      rw [hu, broughtIn, henlist, pteSetFpn, freeFpList_pteSetEntry,
        freeFpList_memphyPutFreefp_mswp]
      exact hfree

theorem freeFpList_readUserMem (s : Sys) (p : Pid) (rgid offset : Nat) :
    (readUserMem s p rgid offset).2.freeFpList .mram = s.freeFpList .mram := by
  rw [readUserMem]
  split
  · rfl
  · split
    · rfl
    · rename_i addr _
      have hpage := freeFpList_pgGetpage s p (addr / 2 ^ 12)
      rw [pgGetval]
      split
      all_goals
        rename_i heq
        rw [heq] at hpage
        exact hpage

theorem freeFpList_memphyWrite {s t : Sys} {d : Dev} {addr : Nat} {v : Byte}
    (h : memphyWrite s d addr v = some t) : t.freeFpList = s.freeFpList := by
  rw [memphyWrite_eq_some h]
  rfl

theorem freeFpList_writeUserMem (s : Sys) (p : Pid) (rgid offset : Nat) (v : Byte) :
    (writeUserMem s p rgid offset v).2.freeFpList .mram = s.freeFpList .mram := by
  rw [writeUserMem]
  split
  · rfl
  · split
    · rfl
    · rename_i addr _
      have hpage := freeFpList_pgGetpage s p (addr / 2 ^ 12)
      rw [pgSetval]
      split
      · rename_i heq
        rw [heq] at hpage
        exact hpage
      · rename_i heq
        rw [heq] at hpage
        split
        · exact hpage
        · rename_i hw
          change _ = _
          rw [← hpage]
          exact congrFun (freeFpList_memphyWrite hw) .mram

theorem freeFpList_writeKernelMem {s t : Sys} {p : Pid} {rgid offset : Nat} {v : Byte}
    (h : writeKernelMem s p rgid offset v = some t) : t.freeFpList = s.freeFpList := by
  obtain ⟨vaddr, -, h⟩ := Option.bind_eq_some_iff.mp h
  obtain ⟨phys, -, h⟩ := Option.bind_eq_some_iff.mp h
  exact freeFpList_memphyWrite h

/-! ### One access -/

/-- Only the contents of memory differ. -/
def SameButBytes (s t : Sys) : Prop :=
  ∃ storage stores, t = { s with storage := storage, stores := stores }

namespace SameButBytes

variable {s t : Sys} {p : Pid} {rgid offset : Nat} {v : Byte}

theorem poke {d : Dev} {addr : Nat} (h : memphyWrite s d addr v = some t) : SameButBytes s t := by
  rw [memphyWrite_eq_some h]
  exact ⟨_, s.stores, rfl⟩

theorem writeKernelMem (h : Mem.writeKernelMem s p rgid offset v = some t) :
    SameButBytes s t := by
  obtain ⟨vaddr, -, h⟩ := Option.bind_eq_some_iff.mp h
  obtain ⟨phys, -, h⟩ := Option.bind_eq_some_iff.mp h
  exact .poke h

theorem trans {u : Sys} (h : SameButBytes s t) (h' : SameButBytes t u) : SameButBytes s u := by
  obtain ⟨storage, stores, rfl⟩ := h
  obtain ⟨storage', stores', rfl⟩ := h'
  exact ⟨storage', stores', rfl⟩

theorem canEvict (h : SameButBytes s t) (p : Pid) : CanEvict t p ↔ CanEvict s p := by
  obtain ⟨storage, stores, rfl⟩ := h
  exact Iff.rfl

theorem userFault (h : SameButBytes s t) (p : Pid) (rgid offset : Nat) :
    UserFault t p rgid offset ↔ UserFault s p rgid offset := by
  obtain ⟨storage, stores, rfl⟩ := h
  exact Iff.rfl

theorem userInRam (h : SameButBytes s t) (p : Pid) (rgid offset : Nat) :
    UserInRam t p rgid offset ↔ UserInRam s p rgid offset := by
  obtain ⟨storage, stores, rfl⟩ := h
  exact Iff.rfl

theorem kernelInRam (h : SameButBytes s t) (p : Pid) (rgid offset : Nat) :
    KernelInRam t p rgid offset ↔ KernelInRam s p rgid offset := by
  obtain ⟨storage, stores, rfl⟩ := h
  exact Iff.rfl

end SameButBytes

/-- The requests of an access to a byte, whether it succeeds, and the state it
leaves. -/
inductive ByteAsked (s : Sys) (p : Pid) (rgid offset : Nat) : List FrameRequest → Bool → Sys → Prop
  | inRam (t : Sys) (h : UserInRam s p rgid offset) (hbytes : SameButBytes s t) :
      ByteAsked s p rgid offset [] true t
  | refused (t : Sys) (hfault : ¬UserFault s p rgid offset) (hram : ¬UserInRam s p rgid offset) :
      ByteAsked s p rgid offset [] false t
  | fault (ok : Bool) (t : Sys) (h : UserFault s p rgid offset) (hok : ok = true → CanEvict s p) :
      ByteAsked s p rgid offset [.fault s p] ok t

theorem Asking.requests_pgGetpage (s : Sys) (p : Pid) (g : Nat) :
    (Asking.pgGetpage s p g).requests FrameRequest.answer =
      if inSwap s p g then [.fault s p] else [] := by
  rw [Asking.pgGetpage, inSwap]
  dsimp only
  cases pagePresent (pteGetEntry s p g) with
  | true => rfl
  | false =>
      cases pageSwapped (pteGetEntry s p g) with
      | false => rfl
      | true =>
          change FrameRequest.fault s p :: _ = [FrameRequest.fault s p]
          generalize FrameRequest.answer (.fault s p) = r
          obtain ⟨_ | f, t⟩ := r
          · rfl
          · dsimp only
            split <;> rfl

/-- An access asks for a frame if its page is in the swap. -/
theorem requests_access {α : Type} {s : Sys} {p : Pid} {rgid offset : Nat} {refused : α}
    {go : Nat → Asking α} {m : Asking α}
    (hm : m = (userAddr s p rgid offset).elim (.done refused) go)
    (hgo : ∀ addr, (go addr).requests FrameRequest.answer =
      (Asking.pgGetpage s p (addr / 2 ^ 12)).requests FrameRequest.answer) :
    UserFault s p rgid offset ∧ m.requests FrameRequest.answer = [.fault s p] ∨
    ¬UserFault s p rgid offset ∧ m.requests FrameRequest.answer = [] := by
  cases haddr : userAddr s p rgid offset with
  | none =>
      rw [haddr] at hm
      rw [hm]
      refine .inr ⟨?_, rfl⟩
      rintro ⟨addr, hsome, -⟩
      rw [haddr] at hsome
      cases hsome
  | some addr =>
      rw [haddr] at hm
      rw [hm, Option.elim_some, hgo, Asking.requests_pgGetpage]
      cases hswap : inSwap s p (addr / 2 ^ 12) with
      | true => exact .inl ⟨⟨addr, haddr, hswap⟩, rfl⟩
      | false =>
          refine .inr ⟨?_, rfl⟩
          rintro ⟨addr', haddr', hswap'⟩
          rw [haddr, Option.some_inj] at haddr'
          rw [← haddr', hswap] at hswap'
          cases hswap'

theorem Asking.requests_pgGetval (s : Sys) (p : Pid) (addr : Nat) :
    (Asking.pgGetval s p addr).requests FrameRequest.answer =
      (Asking.pgGetpage s p (addr / 2 ^ 12)).requests FrameRequest.answer := by
  rw [Asking.pgGetval, Requesting.requests_map]

theorem Asking.requests_pgSetval (s : Sys) (p : Pid) (addr : Nat) (v : Byte) (copied : Bool) :
    (Asking.pgSetval s p addr v copied).requests FrameRequest.answer =
      (Asking.pgGetpage s p (addr / 2 ^ 12)).requests FrameRequest.answer := by
  rw [Asking.pgSetval, Requesting.requests_map]

theorem requests_read (s : Sys) (p : Pid) (rgid offset : Nat) :
    UserFault s p rgid offset ∧
      (Asking.read s p rgid offset).requests FrameRequest.answer = [.fault s p] ∨
    ¬UserFault s p rgid offset ∧
      (Asking.read s p rgid offset).requests FrameRequest.answer = [] :=
  requests_access (Asking.read_eq ..) (Asking.requests_pgGetval s p)

theorem requests_write (s : Sys) (p : Pid) (rgid offset : Nat) (v : Byte) :
    UserFault s p rgid offset ∧
      (Asking.write s p rgid offset v).requests FrameRequest.answer = [.fault s p] ∨
    ¬UserFault s p rgid offset ∧
      (Asking.write s p rgid offset v).requests FrameRequest.answer = [] :=
  requests_access (Asking.write_eq ..) fun addr => Asking.requests_pgSetval s p addr v false

/-- What an access does with the page it got. -/
theorem byteAsked_access {α : Type} {s : Sys} {p : Pid} {rgid offset : Nat} {refused : α}
    {go : Nat → Asking α} {m : Asking α} (ok : α → Bool) (state : α → Sys)
    (hm : m = (userAddr s p rgid offset).elim (.done refused) go)
    (hgo : ∀ addr, (go addr).requests FrameRequest.answer =
      (Asking.pgGetpage s p (addr / 2 ^ 12)).requests FrameRequest.answer)
    (hrefused : ok refused = false)
    (hsome : ∀ addr, ok ((go addr).result FrameRequest.answer) = true →
      (pgGetpage s p (addr / 2 ^ 12)).1.isSome = true)
    (hin : ∀ addr fpn, pgGetpage s p (addr / 2 ^ 12) = (some fpn, s) →
      (ok ((go addr).result FrameRequest.answer) = true ↔
        s.InRange .mram (fpn * pageSz + addr % 2 ^ 12)) ∧
      SameButBytes s (state ((go addr).result FrameRequest.answer))) :
    ByteAsked s p rgid offset (m.requests FrameRequest.answer)
      (ok (m.result FrameRequest.answer)) (state (m.result FrameRequest.answer)) := by
  have hfault := requests_access hm hgo
  cases haddr : userAddr s p rgid offset with
  | none =>
      have hno {P : Nat → Prop} : ¬∃ addr, userAddr s p rgid offset = some addr ∧ P addr := by
        rintro ⟨addr, hsome, -⟩
        rw [haddr] at hsome
        cases hsome
      rw [haddr] at hm
      rw [hm, Option.elim_none, Requesting.requests, Requesting.result, hrefused]
      exact .refused _ hno hno
  | some addr =>
      have hone {P : Nat → Prop} : (∃ addr', userAddr s p rgid offset = some addr' ∧ P addr') ↔
          P addr := by
        refine ⟨?_, fun h => ⟨addr, haddr, h⟩⟩
        rintro ⟨addr', haddr', h⟩
        rw [haddr, Option.some_inj] at haddr'
        exact haddr' ▸ h
      obtain rfl : m = go addr := by
        rw [haddr] at hm
        exact hm
      obtain ⟨hfault, hrequests⟩ | ⟨hfault, hrequests⟩ := hfault
      · rw [hrequests]
        exact .fault _ _ hfault fun hok => canEvict_of_inSwap (hone.mp hfault) (hsome addr hok)
      · rw [hrequests]
        have hswap : inSwap s p (addr / 2 ^ 12) = false := by
          rw [UserFault, hone, Bool.not_eq_true] at hfault
          exact hfault
        have hpage := pgGetpage_not_inSwap hswap
        cases hpres : pagePresent (pteGetEntry s p (addr / 2 ^ 12)) with
        | false =>
            rw [hpres] at hpage
            have hno : ok ((go addr).result FrameRequest.answer) = false := by
              by_contra hyes
              have hgot := hsome addr (Bool.not_eq_false _ ▸ hyes)
              rw [hpage] at hgot
              cases hgot
            rw [hno]
            refine .refused _ hfault ?_
            rw [UserInRam, hone, hpres]
            exact fun h => Bool.false_ne_true h.1
        | true =>
            rw [hpres] at hpage
            obtain ⟨hok, hbytes⟩ := hin addr _ hpage
            have hram : UserInRam s p rgid offset ↔
                ok ((go addr).result FrameRequest.answer) = true := by
              rw [UserInRam, hone, hok, hpres]
              exact and_iff_right rfl
            cases hres : ok ((go addr).result FrameRequest.answer) with
            | true => exact .inRam _ (hram.mpr hres) hbytes
            | false =>
                refine .refused _ hfault fun h => ?_
                rw [hram, hres] at h
                cases h

theorem byteAsked_readUserMem (s : Sys) (p : Pid) (rgid offset : Nat) :
    ByteAsked s p rgid offset
      ((Asking.readUserMem s p rgid offset).requests FrameRequest.answer)
      (readUserMem s p rgid offset).1.isSome (readUserMem s p rgid offset).2 := by
  rw [← Asking.result_readUserMem]
  refine byteAsked_access (fun r => r.1.isSome) Prod.snd (Asking.readUserMem_eq ..)
    (Asking.requests_pgGetval s p) rfl (fun addr hok => ?_) fun addr fpn hpage => ?_
  · rw [Asking.result_pgGetval, pgGetval] at hok
    generalize pgGetpage s p (addr / 2 ^ 12) = r at hok
    obtain ⟨_ | fpn, t⟩ := r
    · cases hok
    · rfl
  · rw [Asking.result_pgGetval, pgGetval, hpage]
    refine ⟨⟨fun hok => ?_, fun hin => ?_⟩, s.storage, s.stores, rfl⟩
    · by_contra hout
      dsimp only at hok
      rw [memphyRead_not_inRange hout] at hok
      cases hok
    · exact congrArg Option.isSome (memphyRead_inRange hin)

theorem byteAsked_writeUserMem (s : Sys) (p : Pid) (rgid offset : Nat) (v : Byte) :
    ByteAsked s p rgid offset
      ((Asking.writeUserMem s p rgid offset v).requests FrameRequest.answer)
      (writeUserMem s p rgid offset v).1 (writeUserMem s p rgid offset v).2 := by
  rw [← Asking.result_writeUserMem]
  refine byteAsked_access Prod.fst Prod.snd (Asking.writeUserMem_eq ..)
    (fun addr => Asking.requests_pgSetval s p addr v true) rfl (fun addr hok => ?_)
    fun addr fpn hpage => ?_
  · rw [Asking.result_pgSetval, pgSetval] at hok
    generalize pgGetpage s p (addr / 2 ^ 12) = r at hok
    obtain ⟨_ | fpn, t⟩ := r
    · cases hok
    · rfl
  · rw [Asking.result_pgSetval, pgSetval, hpage]
    dsimp only
    by_cases hin : s.InRange .mram (fpn * pageSz + addr % 2 ^ 12)
    · rw [memphyWrite_inRange hin]
      exact ⟨⟨fun _ => hin, fun _ => rfl⟩, _, _, rfl⟩
    · rw [memphyWrite_not_inRange hin]
      exact ⟨⟨fun hok => (by cases hok), fun h => absurd h hin⟩, s.storage, s.stores, rfl⟩

/-! ### Page faults of an instruction -/

/-- The requests of an operation that starts in `s`. They are page faults that
find the free list of `s`; the first of them finds its pages too, and none
follows it if it fails. -/
structure Faulting (s : Sys) (p : Pid) (reqs : List FrameRequest) : Prop where
  each : ∀ r ∈ reqs, ∃ t, r = .fault t p ∧ t.freeFpList .mram = s.freeFpList .mram
  first : reqs ≠ [] → ∃ t, .fault t p ∈ reqs ∧ (CanEvict t p ↔ CanEvict s p)
  stuck : ¬CanEvict s p → ∀ t, .fault t p ∈ reqs → ¬CanEvict t p

namespace Faulting

variable {s t : Sys} {p : Pid} {reqs : List FrameRequest}

theorem nil (s : Sys) (p : Pid) : Faulting s p [] where
  each _ := nofun
  first h := absurd rfl h
  stuck _ _ := nofun

theorem one (s : Sys) (p : Pid) : Faulting s p [.fault s p] where
  each := List.forall_mem_singleton.mpr ⟨s, rfl, rfl⟩
  first _ := ⟨s, List.mem_singleton_self _, Iff.rfl⟩
  stuck hnot t ht := by
    rw [List.mem_singleton, FrameRequest.fault.injEq] at ht
    rw [ht.1]
    exact hnot

/-- An operation that goes on in a state with the same lists and entries. -/
theorem same (h : Faulting t p reqs) (hbytes : SameButBytes s t) : Faulting s p reqs where
  each r hr := by
    obtain ⟨u, hu, hfree⟩ := h.each r hr
    obtain ⟨storage, stores, rfl⟩ := hbytes
    exact ⟨u, hu, hfree⟩
  first hne := by
    rw [← hbytes.canEvict p]
    exact h.first hne
  stuck hnot := h.stuck fun hcan => hnot ((hbytes.canEvict p).mp hcan)

/-- An operation that goes on after a page fault that succeeded. -/
theorem cons (h : Faulting t p reqs) (hfree : t.freeFpList .mram = s.freeFpList .mram)
    (hcan : CanEvict s p) : Faulting s p (.fault s p :: reqs) where
  each := List.forall_mem_cons.mpr ⟨⟨s, rfl, rfl⟩, fun r hr => by
    obtain ⟨u, hu, hu'⟩ := h.each r hr
    exact ⟨u, hu, hu'.trans hfree⟩⟩
  first _ := ⟨s, List.mem_cons_self .., Iff.rfl⟩
  stuck hnot := absurd hcan hnot

/-- Page faults evict whether or not a frame is free. -/
theorem underPressure_iff (h : Faulting s p reqs) : (∀ r ∈ reqs, r.UnderPressure) ↔
    s.freeFpList .mram = [] ∨ reqs = [] ∨ ¬CanEvict s p := by
  have hone (t : Sys) (ht : .fault t p ∈ reqs) : (FrameRequest.fault t p).UnderPressure ↔
      (s.freeFpList .mram ≠ [] → ¬CanEvict t p) := by
    obtain ⟨u, hu, hfree⟩ := h.each _ ht
    rw [FrameRequest.fault.injEq] at hu
    rw [← hu.1] at hfree
    rw [FrameRequest.UnderPressure, FrameRequest.before, FrameRequest.answer, hfree,
      keepsResident_swapOut]
  constructor
  · intro hall
    by_cases hfree : s.freeFpList .mram = []
    · exact .inl hfree
    · by_cases hreqs : reqs = []
      · exact .inr (.inl hreqs)
      · obtain ⟨t, ht, hcan⟩ := h.first hreqs
        refine .inr (.inr ?_)
        rw [← hcan]
        exact (hone t ht).mp (hall _ ht) hfree
  · rintro hor r hr
    obtain ⟨t, rfl, -⟩ := h.each r hr
    refine (hone t hr).mpr fun hne => ?_
    obtain hfree | hnil | hnot := hor
    · exact absurd hfree hne
    · rw [hnil] at hr
      cases hr
    · exact h.stuck hnot t hr

end Faulting

/-! ### Copies -/

/-- A loop over the bytes from `idx` on comes to one for which `fault` holds:
those before it are `ready`. -/
def Reaches (fault ready : Nat → Prop) (left idx : Nat) : Prop :=
  ∃ i < left, fault (idx + i) ∧ ∀ j < i, ready (idx + j)

theorem not_reaches_zero {fault ready : Nat → Prop} {idx : Nat} : ¬Reaches fault ready 0 idx := by
  rintro ⟨i, hi, -⟩
  exact absurd hi (Nat.not_lt_zero i)

theorem reaches_succ {fault ready : Nat → Prop} {left idx : Nat} :
    Reaches fault ready (left + 1) idx ↔
      fault idx ∨ ready idx ∧ Reaches fault ready left (idx + 1) := by
  constructor
  · rintro ⟨i, hi, hfault, hready⟩
    cases i with
    | zero => exact .inl hfault
    | succ i =>
        refine .inr ⟨hready 0 (Nat.zero_lt_succ i), i, by omega, ?_, fun j hj => ?_⟩
        · rwa [Nat.add_right_comm]
        · rw [Nat.add_right_comm]
          exact hready (j + 1) (by omega)
  · rintro (hfault | ⟨hready, i, hi, hfault, hbefore⟩)
    · exact ⟨0, Nat.zero_lt_succ left, hfault, fun j hj => absurd hj (Nat.not_lt_zero j)⟩
    · refine ⟨i + 1, by omega, ?_, fun j hj => ?_⟩
      · rwa [Nat.add_right_comm] at hfault
      · cases j with
        | zero => exact hready
        | succ j =>
            have hj' := hbefore j (by omega)
            rwa [Nat.add_right_comm] at hj'

/-- `libkmem_copy_from_user` comes to a byte of user memory in the swap. -/
def FromUserFaults (s : Sys) (p : Pid) (source destination offset : Nat) :
    (left idx : Nat) → Prop :=
  Reaches (fun i => UserFault s p source (toUint32 (offset + i)))
    fun i => UserInRam s p source (toUint32 (offset + i)) ∧
      KernelInRam s p destination (toUint32 (offset + i))

/-- `libkmem_copy_to_user` comes to one; it looks at the kernel's byte
first. -/
def ToUserFaults (s : Sys) (p : Pid) (source destination offset : Nat) : (left idx : Nat) → Prop :=
  Reaches (fun i => KernelInRam s p source (toUint32 (offset + i)) ∧
      UserFault s p destination (toUint32 (offset + i)))
    fun i => KernelInRam s p source (toUint32 (offset + i)) ∧
      UserInRam s p destination (toUint32 (offset + i))

theorem copyFromUser_asked (p : Pid) (source destination offset left idx : Nat) (s : Sys) :
    Faulting s p ((Asking.copyFromUser p source destination offset left idx s).requests
      FrameRequest.answer) ∧
    ((Asking.copyFromUser p source destination offset left idx s).requests
      FrameRequest.answer ≠ [] ↔ FromUserFaults s p source destination offset left idx) := by
  induction left generalizing idx s with
  | zero => exact ⟨.nil s p, fun h => absurd rfl h, fun h => absurd h not_reaches_zero⟩
  | succ left ih =>
      have hread := freeFpList_readUserMem s p source (toUint32 (offset + idx))
      have hbyte := byteAsked_readUserMem s p source (toUint32 (offset + idx))
      rw [FromUserFaults, reaches_succ, Asking.copyFromUser, Requesting.requests_bind,
        Asking.result_readUserMem]
      generalize (Asking.readUserMem s p source (toUint32 (offset + idx))).requests
        FrameRequest.answer = reqs at hbyte ⊢
      generalize readUserMem s p source (toUint32 (offset + idx)) = r at hread hbyte ⊢
      obtain ⟨data, t⟩ := r
      generalize hok : data.isSome = ok at hbyte
      cases hbyte with
      | inRam _ hram hbytes =>
          obtain ⟨v, rfl⟩ := Option.isSome_iff_exists.mp hok
          have hkernel := writeKernelMem_isSome t p destination (toUint32 (offset + idx)) v
          rw [hbytes.kernelInRam] at hkernel
          rw [List.nil_append, or_iff_right fun hfault => hfault.not_inRam hram]
          dsimp only
          cases hw : writeKernelMem t p destination (toUint32 (offset + idx)) v with
          | none =>
              rw [hw] at hkernel
              refine ⟨.nil s p, fun h => absurd rfl h, fun h => ?_⟩
              cases hkernel.mpr h.1.2
          | some u =>
              rw [hw] at hkernel
              have hsame := hbytes.trans (.writeKernelMem hw)
              obtain ⟨hfaulting, hiff⟩ := ih (idx + 1) u
              refine ⟨hfaulting.same hsame, hiff.trans ?_⟩
              rw [and_iff_right ⟨hram, hkernel.mp rfl⟩, FromUserFaults]
              simp only [hsame.userFault, hsame.userInRam, hsame.kernelInRam]
      | refused _ hfault hram =>
          obtain rfl := Option.not_isSome_iff_eq_none.mp (Bool.not_eq_true _ ▸ hok)
          exact ⟨.nil s p, fun h => absurd rfl h,
            fun h => (h.elim hfault fun h => hram h.1.1).elim⟩
      | fault _ _ hfault hcan =>
          refine ⟨?_, fun _ => .inl hfault, fun _ => List.cons_ne_nil _ _⟩
          cases data with
          | none => exact .one s p
          | some v =>
              dsimp only
              cases hw : writeKernelMem t p destination (toUint32 (offset + idx)) v with
              | none => exact .one s p
              | some u =>
                  refine (ih (idx + 1) u).1.cons ?_ (hcan hok.symm)
                  rw [freeFpList_writeKernelMem hw]
                  exact hread

theorem copyToUser_asked (p : Pid) (source destination offset left idx : Nat) (s : Sys) :
    Faulting s p ((Asking.copyToUser p source destination offset left idx s).requests
      FrameRequest.answer) ∧
    ((Asking.copyToUser p source destination offset left idx s).requests
      FrameRequest.answer ≠ [] ↔ ToUserFaults s p source destination offset left idx) := by
  induction left generalizing idx s with
  | zero => exact ⟨.nil s p, fun h => absurd rfl h, fun h => absurd h not_reaches_zero⟩
  | succ left ih =>
      have hkernel := readKernelMem_isSome s p source (toUint32 (offset + idx))
      rw [ToUserFaults, reaches_succ, Asking.copyToUser]
      cases hread : readKernelMem s p source (toUint32 (offset + idx)) with
      | none =>
          rw [hread] at hkernel
          refine ⟨.nil s p, fun h => absurd rfl h, fun h => ?_⟩
          cases hkernel.mpr (h.elim And.left fun h => h.1.1)
      | some v =>
          rw [hread] at hkernel
          have hwrite := freeFpList_writeUserMem s p destination (toUint32 (offset + idx)) v
          have hbyte := byteAsked_writeUserMem s p destination (toUint32 (offset + idx)) v
          rw [and_iff_right (hkernel.mp rfl)]
          dsimp only
          rw [Requesting.requests_bind, Asking.result_writeUserMem]
          generalize (Asking.writeUserMem s p destination (toUint32 (offset + idx)) v).requests
            FrameRequest.answer = reqs at hbyte ⊢
          generalize writeUserMem s p destination (toUint32 (offset + idx)) v = r at hwrite hbyte ⊢
          obtain ⟨ok, t⟩ := r
          cases hbyte with
          | inRam _ hram hbytes =>
              obtain ⟨hfaulting, hiff⟩ := ih (idx + 1) t
              rw [or_iff_right fun hfault => hfault.not_inRam hram]
              refine ⟨hfaulting.same hbytes, hiff.trans ?_⟩
              rw [and_iff_right ⟨hkernel.mp rfl, hram⟩, ToUserFaults]
              simp only [hbytes.userFault, hbytes.userInRam, hbytes.kernelInRam]
          | refused _ hfault hram =>
              exact ⟨.nil s p, fun h => absurd rfl h,
                fun h => (h.elim hfault fun h => hram h.1.2).elim⟩
          | fault _ _ hfault hcan =>
              refine ⟨?_, fun _ => .inl hfault, fun _ => List.cons_ne_nil _ _⟩
              cases ok with
              | false => exact .one s p
              | true => exact (ih (idx + 1) t).1.cons hwrite (hcan rfl)

/-! ### Growth -/

/-- A growth asks the free list first. -/
theorem underPressure_allocPages (p : Pid) (n : Nat) (frames : List Nat) (s : Sys) :
    ∀ r ∈ (Asking.allocPages p n frames s).requests FrameRequest.answer, r.UnderPressure := by
  induction n generalizing frames s with
  | zero => exact List.forall_mem_nil _
  | succ n ih =>
      rw [Asking.allocPages, Requesting.requests, List.forall_mem_cons]
      refine ⟨keepsResident_getFrame p, ?_⟩
      generalize FrameRequest.answer (.growth s p) = r
      obtain ⟨_ | fpn, t⟩ := r
      · exact List.forall_mem_nil _
      · dsimp only
        obtain ⟨_ | _, h⟩ := draw t.host
        · exact List.forall_mem_nil _
        · exact ih _ _

theorem underPressure_alloc (s : Sys) (p : Pid) (rgid size : Nat) (junk : VmRg) :
    ∀ r ∈ (Asking.alloc s p rgid size junk).requests FrameRequest.answer, r.UnderPressure := by
  rw [Asking.alloc]
  split
  · exact List.forall_mem_nil _
  · split
    · exact List.forall_mem_nil _
    · split
      · exact List.forall_mem_nil _
      · rw [Requesting.requests_map, Asking.incVmaLimit]
        split
        · exact List.forall_mem_nil _
        · dsimp only
          split
          · exact List.forall_mem_nil _
          · split
            · exact List.forall_mem_nil _
            · rw [Requesting.requests_map, Asking.vmMapRam, Requesting.requests_map,
                Asking.allocPagesRange]
              split
              · exact List.forall_mem_nil _
              · exact underPressure_allocPages _ _ _ _

/-! ### Runs -/

/-- The instruction comes to a byte of user memory that is in the swap. -/
def Inst.Faults (ins : Inst) (s : Sys) (p : Pid) : Prop :=
  let a0 := ins.arg0.toNat
  let a1 := ins.arg1.toNat
  let a2 := ins.arg2.toNat
  let a3 := ins.arg3.toNat
  match ins.opcode with
  | .read => UserFault s p (toUint32 a0) a1
  | .write => UserFault s p (toUint32 a1) a2
  | .copyFromUser => (toUint32 a0 < maxSymtblSz ∧ toUint32 a1 < maxSymtblSz) ∧
      FromUserFaults s p (toUint32 a0) (toUint32 a1) (toUint32 a2) (toUint32 a3) 0
  | .copyToUser => (toUint32 a0 < maxSymtblSz ∧ toUint32 a1 < maxSymtblSz) ∧
      ToUserFaults s p (toUint32 a0) (toUint32 a1) (toUint32 a2) (toUint32 a3) 0
  | _ => False

/-- The instruction has no page fault, or no frame is free, or no page can be
evicted. -/
def FaultsInNeed (s : Sys) (p : Pid) (ins : Inst) : Prop :=
  ¬ins.Faults s p ∨ s.freeFpList .mram = [] ∨ ¬CanEvict s p

/-- The requests of an instruction that is no `ALLOC`. -/
theorem frameRequests_asked {ins : Inst} (halloc : ins.opcode ≠ .alloc) (s : Sys) (p : Pid)
    (junk : VmRg) : Faulting s p (frameRequests s p ins junk) ∧
      (frameRequests s p ins junk ≠ [] ↔ ins.Faults s p) := by
  have hone {fault : Prop} {reqs : List FrameRequest}
      (h : fault ∧ reqs = [.fault s p] ∨ ¬fault ∧ reqs = []) :
      Faulting s p reqs ∧ (reqs ≠ [] ↔ fault) := by
    obtain ⟨hfault, rfl⟩ | ⟨hnot, rfl⟩ := h
    · exact ⟨.one s p, fun _ => hfault, fun _ => List.cons_ne_nil _ _⟩
    · exact ⟨.nil s p, fun h => absurd rfl h, fun h => absurd h hnot⟩
  have hcopy {m : Asking (Int × Sys)} {ids fault : Prop} [Decidable ids]
      (h : Faulting s p (m.requests FrameRequest.answer) ∧
        (m.requests FrameRequest.answer ≠ [] ↔ fault)) :
      Faulting s p ((if ids then .done (-1, s) else m).requests FrameRequest.answer) ∧
        ((if ids then .done (-1, s) else m).requests FrameRequest.answer ≠ [] ↔ ¬ids ∧ fault) := by
    split
    · rename_i hids
      exact ⟨.nil s p, fun h => absurd rfl h, fun h => absurd hids h.1⟩
    · rename_i hids
      exact ⟨h.1, h.2.trans (and_iff_right hids).symm⟩
  rw [frameRequests_eq, Asking.run, Inst.Faults]
  cases hop : ins.opcode with
  | alloc => exact absurd hop halloc
  | read =>
      dsimp only
      rw [Asking.libread, Requesting.requests_map]
      exact hone (requests_read ..)
  | write =>
      dsimp only
      rw [Requesting.requests_map, Asking.libwrite, Requesting.requests_map]
      exact hone (requests_write ..)
  | copyFromUser =>
      dsimp only
      rw [Requesting.requests_map, Asking.libkmemCopyFromUser, ← Nat.not_le, ← Nat.not_le,
        ← not_or]
      exact hcopy (copyFromUser_asked ..)
  | copyToUser =>
      dsimp only
      rw [Requesting.requests_map, Asking.libkmemCopyToUser, ← Nat.not_le, ← Nat.not_le,
        ← not_or]
      exact hcopy (copyToUser_asked ..)
  | _ => exact ⟨.nil s p, fun h => absurd rfl h, fun h => h.elim⟩

theorem underPressure_frameRequests (s : Sys) (p : Pid) (ins : Inst) (junk : VmRg) :
    (∀ r ∈ frameRequests s p ins junk, r.UnderPressure) ↔ FaultsInNeed s p ins := by
  by_cases halloc : ins.opcode = .alloc
  · refine ⟨fun _ => .inl ?_, fun _ => ?_⟩
    · rw [Inst.Faults, halloc]
      exact id
    · rw [frameRequests_eq, Asking.run, halloc]
      exact underPressure_alloc _ _ _ _ _
  · obtain ⟨hfaulting, hiff⟩ := frameRequests_asked halloc s p junk
    rw [hfaulting.underPressure_iff, FaultsInNeed, ← hiff, not_not]
    exact or_left_comm

/-- Whenever the instruction of a live process asks for a frame and one is
free, no page goes out for it. -/
def Op.EvictsUnderPressure (s : Sys) : Op → Prop
  | .inst p ins junk => p ∈ s.runningList → ∀ r ∈ frameRequests s p ins junk, r.UnderPressure
  | _ => True

def Op.FaultsInNeed (s : Sys) : Op → Prop
  | .inst p ins _ => p ∈ s.runningList → Mem.FaultsInNeed s p ins
  | _ => True

/-- In a run pages are evicted only under memory pressure exactly if each of
its page faults comes when the free list is empty or when no page can be
evicted. -/
theorem evicts_under_pressure_iff (ramSz swpSz : Nat) (host : Nat → Bool) (ops : List Op) :
    Along step Op.EvictsUnderPressure (boot ramSz swpSz host) ops ↔
      Along step Op.FaultsInNeed (boot ramSz swpSz host) ops := by
  refine along_congr fun s op => ?_
  cases op with
  | inst p ins junk => exact imp_congr_right fun _ => underPressure_frameRequests s p ins junk
  | load => exact Iff.rfl
  | exit p => exact Iff.rfl

/-! ### A fault with a frame to spare -/

/-- Two processes fill the RAM. -/
def fillTogether : List Op :=
  [.load, .load, .inst 1 { opcode := .alloc, arg0 := 4096, arg1 := 0 } ⟨0, 0⟩,
    .inst 2 { opcode := .alloc, arg0 := 4096, arg1 := 0 } ⟨0, 0⟩]

theorem fillTogether_isSome :
    (userExec (boot 8192 8192 fun _ => true) fillTogether).isSome = true := by
  decide +kernel

def filledTogether : Sys :=
  (userExec (boot 8192 8192 fun _ => true) fillTogether).get fillTogether_isSome

theorem run_fillTogether :
    Run UserStep (boot 8192 8192 fun _ => true) fillTogether filledTogether :=
  run_of_userExec (Option.some_get fillTogether_isSome).symm

/-- The state after process 1 has grown by a second page. -/
def grownTogether : Sys :=
  (getFreeVmrgArea (pushedIn filledTogether 1 1 0 0 0 [1]) 1 4096).2.setSymrg 1 1 ⟨4096, 8192⟩

theorem filledTogether_allocSecond : UserStep filledTogether allocSecond grownTogether := by
  have hp : 1 ∈ filledTogether.runningList := by decide +kernel
  obtain ⟨hok, hret⟩ := alloc_pushedIn 1 0 0 0 1 [1] ⟨4096, 8192⟩
    (userInv_of_run run_fillTogether).inv hp (by decide) (by decide +kernel) (by decide +kernel)
    (by decide +kernel) (by decide +kernel) (by decide +kernel) (by decide +kernel)
    (by decide +kernel) (by decide) (by decide +kernel) (by decide +kernel)
  refine ⟨?_, fun _ => .inl ⟨rfl, by decide, hok⟩⟩
  rw [allocSecond, step, if_pos hp]
  change (alloc filledTogether 1 1 4096 ⟨0, 0⟩).map Prod.snd = _
  rw [hret]
  rfl

/-- The state after process 2 has given its frame back. -/
def leftAlone : Sys := exitProc grownTogether 2

theorem run_leftAlone : Run UserStep (boot 8192 8192 fun _ => true)
    (fillTogether ++ [allocSecond] ++ [.exit 2]) leftAlone := by
  refine (run_fillTogether.snoc filledTogether_allocSecond).snoc ⟨?_, trivial⟩
  rw [step, if_pos (by decide +kernel), leftAlone]

/-- The first page of process 1, in the swap, is read again. -/
def readFirst : Inst := { opcode := .read, arg0 := 0, arg1 := 0, arg2 := 0 }

theorem leftAlone_state :
    1 ∈ leftAlone.runningList ∧ leftAlone.freeFpList .mram ≠ [] ∧
    leftAlone.freeFpList .mswp ≠ [] ∧ userAddr leftAlone 1 0 0 = some 0 ∧
    inSwap leftAlone 1 0 = true ∧ 1 ∈ leftAlone.fifoPgn 1 ∧ inRam leftAlone 1 1 = true := by
  decide +kernel

/-- A frame of the RAM is free, and reading the page evicts the second one. -/
theorem leftAlone_evicts : ¬Along step Op.EvictsUnderPressure (boot 8192 8192 fun _ => true)
    (fillTogether ++ [allocSecond] ++ [.exit 2] ++ [.inst 1 readFirst ⟨0, 0⟩]) := by
  intro h
  obtain ⟨hp, hram, hswp, haddr, hfault, hlisted, hvictim⟩ := leftAlone_state
  have hread := h.of_run (run_leftAlone.mono fun _ _ _ hstep => hstep.1) hp
  rw [underPressure_frameRequests] at hread
  have hevicts : CanEvict leftAlone 1 := by
    rw [inRam, Bool.and_eq_true, Bool.not_eq_true'] at hvictim
    rw [← swapOutVictimPage_isSome]
    exact ((userInv_of_run run_leftAlone).inv.swapOut_isSome hp).mpr
      ⟨hswp, 1, hp, 1, hlisted, hvictim⟩
  obtain hnot | hfree | hnone := hread
  · exact hnot ⟨0, haddr, hfault⟩
  · exact hram hfree
  · exact hnone hevicts

end Ossim.Mem
