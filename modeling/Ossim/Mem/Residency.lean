import Ossim.Lib.Arrival
import Ossim.Mem.Eviction

/-!
The history of the pages in RAM.

A page comes in when its entry is set to present, by a growth or by a page
fault, and goes out when it is swapped out, when its mapping is undone, or
when its process exits. The log of an operation lists these moves, the
newest first; it follows the control flow of the operation and is read off
the same calls.

With a host that never refuses, the page lists are exactly what the history
makes them: an operation that starts from such a state and adds its log to
the history ends in one.
-/

namespace Ossim.Mem

open Ossim.Lib

/-! ### Logs -/

/-- Moves of pages, named by process and page number. -/
abbrev Log := List (Move (Pid × Nat))

/-- `swap_out_victim_page`. A victim that is found is swapped out. -/
def evictLog (s : Sys) (caller : Pid) : Log :=
  match memphyGetFreefp s .mswp with
  | none => []
  | some (_, t) =>
    match findGlobalVictim t caller with
    | (none, _) => []
    | (some (q, g, _), _) => [.leave (q, g)]

def getFrameLog (s : Sys) (caller : Pid) : Log :=
  match memphyGetFreefp s .mram with
  | some _ => []
  | none => evictLog s caller

/-- The loop of `alloc_pages_range`. -/
def allocPagesLog (caller : Pid) : Nat → Sys → Log
  | 0, _ => []
  | n + 1, s =>
    match getFrame s caller with
    | (none, _) => getFrameLog s caller
    | (some _, t) =>
      match draw t.host with
      | (false, _) => getFrameLog s caller
      | (true, h) => allocPagesLog caller n { t with host := h } ++ getFrameLog s caller

/-- The second loop of `vmap_page_range`. -/
def mapFramesLog (p : Pid) (pgn : Nat) : (left pgit : Nat) → List Nat → Sys → Log
  | 0, _, _, _ => []
  | _ + 1, _, [], _ => []
  | left + 1, pgit, fpn :: next, s =>
    match pteSetFpn s p (pgn + pgit) fpn with
    | (false, _) => []
    | (true, s) =>
      match enlistPgnNode s p (pgn + pgit) with
      | (false, _) => [.leave (p, pgn + pgit), .arrive (p, pgn + pgit)]
      | (true, s) => mapFramesLog p pgn left (pgit + 1) next s ++ [.arrive (p, pgn + pgit)]

/-- `vmap_page_range` -/
def vmapPageRangeLog (s : Sys) (p : Pid) (addr : Nat) (pgnum : Int) (frames : List Nat) : Log :=
  if validatePageRange addr pgnum ≠ 0 then []
  else
    match walkPages p (addr / 2 ^ 12) pgnum.toNat 0 s with
    | (false, _) => []
    | (true, s) => mapFramesLog p (addr / 2 ^ 12) pgnum.toNat 0 frames s

/-- `vm_map_ram` -/
def vmMapRamLog (s : Sys) (p : Pid) (mapstart : Nat) (incpgnum : Int) : Log :=
  let evictions := if incpgnum < 0 then [] else allocPagesLog p incpgnum.toNat s
  match allocPagesRange s p incpgnum with
  | (retAlloc, frames, s) =>
    if retAlloc = errNoMem then evictions
    else vmapPageRangeLog s p mapstart incpgnum frames ++ evictions

/-- `inc_vma_limit` -/
def growthLog (s : Sys) (p : Pid) (incSz : Nat) : Log :=
  if Refused s p incSz then []
  else vmMapRamLog (breakMoved s p incSz) p (s.mmap p).sbrk (incNumPage incSz)

/-- `__alloc` -/
def allocLog (s : Sys) (p : Pid) (rgid size : Nat) : Log :=
  if maxSymtblSz ≤ rgid ∨ size = 0 then []
  else
    match getFreeVmrgArea s p (toInt size) with
    | (some _, _) => []
    | (none, s) => if p ∉ s.runningList then [] else growthLog s p (allocInc size)

/-- `pg_getpage` -/
def pgGetpageLog (s : Sys) (p : Pid) (pgn : Nat) : Log :=
  let pte := pteGetEntry s p pgn
  if pagePresent pte then []
  else if !pageSwapped pte then []
  else
    match swapOutVictimPage s p with
    | (none, _) => evictLog s p
    | (some tgtfpn, t) =>
      match swapCpPage t .mswp (pteSwp pte) .mram tgtfpn with
      | (false, _) => evictLog s p
      | (true, _) => .arrive (p, pgn) :: evictLog s p

/-- An access to user memory through a region. -/
def accessLog (s : Sys) (p : Pid) (rgid offset : Nat) : Log :=
  if maxSymtblSz ≤ rgid then []
  else
    match userAccess (s.symrgtbl p rgid) offset with
    | none => []
    | some addr => pgGetpageLog s p (addr / 2 ^ 12)

/-- The loop of `libkmem_copy_from_user`. -/
def copyFromUserLog (p : Pid) (source destination offset : Nat) : (left idx : Nat) → Sys → Log
  | 0, _, _ => []
  | left + 1, idx, s =>
    match readUserMem s p source (toUint32 (offset + idx)) with
    | (none, _) => accessLog s p source (toUint32 (offset + idx))
    | (some data, t) =>
      match writeKernelMem t p destination (toUint32 (offset + idx)) data with
      | none => accessLog s p source (toUint32 (offset + idx))
      | some u => copyFromUserLog p source destination offset left (idx + 1) u ++
          accessLog s p source (toUint32 (offset + idx))

/-- The loop of `libkmem_copy_to_user`. -/
def copyToUserLog (p : Pid) (source destination offset : Nat) : (left idx : Nat) → Sys → Log
  | 0, _, _ => []
  | left + 1, idx, s =>
    match readKernelMem s p source (toUint32 (offset + idx)) with
    | none => []
    | some data =>
      match writeUserMem s p destination (toUint32 (offset + idx)) data with
      | (false, _) => accessLog s p destination (toUint32 (offset + idx))
      | (true, t) => copyToUserLog p source destination offset left (idx + 1) t ++
          accessLog s p destination (toUint32 (offset + idx))

/-! ### The invariant -/

/-- The page lists are what the history makes them, and the pages in them
are the ones in RAM. -/
structure Tracked (log : Log) (s : Sys) : Prop where
  valid : Move.Valid log
  known : ∀ k ∈ Move.inside log, k.1 < s.availPid
  fifo : ∀ p ∈ s.runningList, s.fifoPgn p = Move.ofClass p (Move.inside log)
  present : ∀ p ∈ s.runningList, ∀ g < userPgns,
    pagePresent (s.pte p g) = true ↔ g ∈ s.fifoPgn p

/-- Taking out the last element of a list without duplicates. -/
theorem dropLast_eq_filter {l : List Nat} (h : l.Nodup) {g : Nat} (hlast : l.getLast? = some g) :
    l.dropLast = l.filter (· ≠ g) := by
  have hsplit := List.dropLast_append_getLast? g hlast
  rw [← hsplit] at h
  have hnot : g ∉ l.dropLast := fun hmem =>
    (List.nodup_append.mp h).2.2 g hmem g (List.mem_singleton_self g) rfl
  have hkeep : l.dropLast.filter (· ≠ g) = l.dropLast := by
    refine List.filter_eq_self.mpr fun a ha => ?_
    rw [decide_eq_true_eq]
    rintro rfl
    exact hnot ha
  conv_rhs => rw [← hsplit, List.filter_append, hkeep]
  simp

namespace Tracked

variable {log : Log} {s t : Sys} {p q : Pid} {g : Nat}

/-- Changes of anything else. -/
theorem frame (h : Tracked log s) (hrun : t.runningList = s.runningList)
    (havail : t.availPid = s.availPid) (hfifo : t.fifoPgn = s.fifoPgn)
    (hpte : ∀ p ∈ s.runningList, ∀ g < userPgns,
      pagePresent (t.pte p g) = pagePresent (s.pte p g)) : Tracked log t where
  valid := h.valid
  known k hk := by
    rw [havail]
    exact h.known k hk
  fifo p hp := by
    rw [hrun] at hp
    rw [hfifo]
    exact h.fifo p hp
  present p hp g hg := by
    rw [hrun] at hp
    rw [hfifo, hpte p hp g hg]
    exact h.present p hp g hg

theorem of_meta (h : Tracked log s) (hmeta : t.meta = s.meta) (hfifo : t.fifoPgn = s.fifoPgn)
    (hpgd : ∀ p path, (t.pgd p).lookup 0 path = (s.pgd p).lookup 0 path) : Tracked log t :=
  h.frame (congrArg Sys.Meta.runningList hmeta) (congrArg Sys.Meta.availPid hmeta) hfifo
    fun p _ g _ => by rw [Sys.pte, hpgd]; rfl

theorem nodup (h : Tracked log s) (hp : p ∈ s.runningList) : (s.fifoPgn p).Nodup := by
  rw [h.fifo p hp]
  exact Move.nodup_ofClass h.valid

/-- The oldest page of a process goes out. -/
theorem leave (h : Tracked log s) (hrun : t.runningList = s.runningList)
    (havail : t.availPid = s.availPid) (hq : q ∈ s.runningList)
    (hlast : (s.fifoPgn q).getLast? = some g)
    (hfifo : t.fifoPgn = Function.update s.fifoPgn q (s.fifoPgn q).dropLast)
    (hself : pagePresent (t.pte q g) = false)
    (hpte : ∀ p ∈ s.runningList, ∀ g' < userPgns, ¬(p = q ∧ g' = g) →
      pagePresent (t.pte p g') = pagePresent (s.pte p g')) :
    Tracked (.leave (q, g) :: log) t where
  valid := h.valid
  known k hk := by
    rw [havail]
    exact h.known k (List.mem_filter.mp hk).1
  fifo p hp := by
    rw [hrun] at hp
    rw [hfifo]
    rcases eq_or_ne p q with rfl | hne
    · rw [Function.update_self, Move.ofClass_leave_self, ← h.fifo p hp]
      exact dropLast_eq_filter (h.nodup hp) hlast
    · rw [Function.update_of_ne hne, Move.ofClass_leave_of_ne hne]
      exact h.fifo p hp
  present p hp g' hg' := by
    rw [hrun] at hp
    rw [hfifo]
    rcases eq_or_ne p q with rfl | hne
    · rw [Function.update_self, dropLast_eq_filter (h.nodup hp) hlast, List.mem_filter,
        decide_eq_true_eq]
      rcases eq_or_ne g' g with rfl | hgg
      · rw [hself]
        simp
      · rw [hpte p hp g' hg' fun heq => hgg heq.2, h.present p hp g' hg']
        exact ⟨fun hmem => ⟨hmem, hgg⟩, fun hand => hand.1⟩
    · rw [Function.update_of_ne hne, hpte p hp g' hg' fun heq => hne heq.1]
      exact h.present p hp g' hg'

/-- A page comes in. -/
theorem arrive (h : Tracked log s) (hrun : t.runningList = s.runningList)
    (havail : t.availPid = s.availPid) (hp : p ∈ s.runningList) (hlt : p < s.availPid)
    (hg : g < userPgns) (hout : pagePresent (s.pte p g) = false)
    (hfifo : t.fifoPgn = Function.update s.fifoPgn p (g :: s.fifoPgn p))
    (hself : pagePresent (t.pte p g) = true)
    (hpte : ∀ q ∈ s.runningList, ∀ g' < userPgns, ¬(q = p ∧ g' = g) →
      pagePresent (t.pte q g') = pagePresent (s.pte q g')) :
    Tracked (.arrive (p, g) :: log) t where
  valid := by
    refine ⟨fun hmem => ?_, h.valid⟩
    rw [← Move.mem_ofClass, ← h.fifo p hp, ← h.present p hp g hg, hout] at hmem
    cases hmem
  known k hk := by
    rw [havail]
    rcases List.mem_cons.mp hk with rfl | hk
    · exact hlt
    · exact h.known k hk
  fifo q hq := by
    rw [hrun] at hq
    rw [hfifo, Move.inside]
    rcases eq_or_ne q p with rfl | hne
    · rw [Function.update_self, Move.ofClass_cons_self, ← h.fifo q hq]
    · rw [Function.update_of_ne hne, Move.ofClass_cons_of_ne hne]
      exact h.fifo q hq
  present q hq g' hg' := by
    rw [hrun] at hq
    rw [hfifo]
    rcases eq_or_ne q p with rfl | hne
    · rw [Function.update_self, List.mem_cons]
      rcases eq_or_ne g' g with rfl | hgg
      · rw [hself]
        exact ⟨fun _ => .inl rfl, fun _ => rfl⟩
      · rw [hpte q hq g' hg' fun heq => hgg heq.2, h.present q hq g' hg']
        exact ⟨.inr, fun hor => hor.resolve_left hgg⟩
    · rw [Function.update_of_ne hne, hpte q hq g' hg' fun heq => hne heq.1]
      exact h.present q hq g' hg'

end Tracked

/-! ### The victim -/

/-- The page of a process at the tail of its list. -/
def oldest (s : Sys) (q : Pid) : Option (Pid × Nat) := (s.fifoPgn q).getLast?.map fun g => (q, g)

/-- The page that an eviction takes if all pages in the lists are in RAM. -/
def victimOf (s : Sys) (caller : Pid) : Option (Pid × Nat) :=
  (oldest s caller).or (s.runningList.findSome? fun q => if q = caller then none else oldest s q)

/-- The state after the page at the tail of the list was detached. -/
def popped (s : Sys) (q : Pid) : Sys :=
  { s with fifoPgn := Function.update s.fifoPgn q (s.fifoPgn q).dropLast }

/-- The pages in the list of the process can be evicted. -/
def AllPresent (s : Sys) (q : Pid) : Prop :=
  ∀ g ∈ s.fifoPgn q, pagePresent (pteGetEntry s q g) = true ∧
    pageSwapped (pteGetEntry s q g) = false

theorem oldest_eq_some {s : Sys} {q q' : Pid} {g : Nat} (h : oldest s q = some (q', g)) :
    q' = q ∧ (s.fifoPgn q).getLast? = some g := by
  obtain ⟨g', hlast, heq⟩ := Option.map_eq_some_iff.mp h
  cases heq
  exact ⟨rfl, hlast⟩

theorem findPresentVictimInProc_none {s : Sys} {q : Pid} (h : oldest s q = none) :
    findPresentVictimInProc s q = (none, s) := by
  have hnil : s.fifoPgn q = [] := by simpa [oldest] using h
  rw [findPresentVictimInProc, hnil]
  rfl

theorem findPresentVictimInProc_some {s : Sys} {q : Pid} {g : Nat} (hall : AllPresent s q)
    (hlast : (s.fifoPgn q).getLast? = some g) :
    findPresentVictimInProc s q = (some (g, pteGetEntry s q g), popped s q) := by
  have hg := hall g (List.mem_of_getLast? hlast)
  have hlen : (s.fifoPgn q).length = (s.fifoPgn q).length - 1 + 1 := by
    have := List.length_pos_of_mem (List.mem_of_getLast? hlast)
    omega
  rw [findPresentVictimInProc, hlen, findPresentVictim, findVictimPage, hlast]
  dsimp only
  rw [if_pos]
  · rfl
  · change (pagePresent (pteGetEntry s q g) && !pageSwapped (pteGetEntry s q g)) = true
    rw [hg.1, hg.2]
    rfl

/-- The search goes through the processes in the order of the list. -/
theorem findVictimAmong_eq {s : Sys} (caller : Pid) {l : List Pid}
    (hall : ∀ q ∈ l, AllPresent s q) :
    (l.findSome? (fun q => if q = caller then none else oldest s q) = none →
      findVictimAmong caller l s = (none, s)) ∧
    ∀ q g, l.findSome? (fun q => if q = caller then none else oldest s q) = some (q, g) →
      findVictimAmong caller l s = (some (q, g, pteGetEntry s q g), popped s q) := by
  induction l with
  | nil => exact ⟨fun _ => rfl, fun q g h => by cases h⟩
  | cons q l ih =>
      have ih := ih fun q' hq' => hall q' (List.mem_cons_of_mem q hq')
      rw [findVictimAmong]
      split
      · rename_i heq
        rw [List.findSome?_cons, if_pos heq]
        exact ih
      · rename_i hne
        rw [List.findSome?_cons, if_neg hne]
        cases hold : oldest s q with
        | none =>
            rw [findPresentVictimInProc_none hold]
            exact ih
        | some vic =>
            obtain ⟨q', g'⟩ := vic
            obtain ⟨rfl, hlast⟩ := oldest_eq_some hold
            rw [findPresentVictimInProc_some (hall q' (List.mem_cons_self ..)) hlast]
            refine ⟨fun h => (by cases h), fun q g h => ?_⟩
            cases h
            rfl

theorem findGlobalVictim_eq {s : Sys} {caller : Pid} (hcaller : caller ∈ s.runningList)
    (hall : ∀ q ∈ s.runningList, AllPresent s q) :
    (victimOf s caller = none → findGlobalVictim s caller = (none, s)) ∧
    ∀ q g, victimOf s caller = some (q, g) →
      findGlobalVictim s caller = (some (q, g, pteGetEntry s q g), popped s q) := by
  rw [victimOf, findGlobalVictim]
  cases hold : oldest s caller with
  | none =>
      rw [findPresentVictimInProc_none hold, Option.none_or]
      exact findVictimAmong_eq caller hall
  | some vic =>
      obtain ⟨q', g'⟩ := vic
      obtain ⟨rfl, hlast⟩ := oldest_eq_some hold
      rw [findPresentVictimInProc_some (hall q' hcaller) hlast, Option.some_or]
      refine ⟨fun h => (by cases h), fun q g h => ?_⟩
      cases h
      rfl

/-- The victim is the tail of the list of a live process. -/
theorem victimOf_eq_some {s : Sys} {caller q : Pid} {g : Nat} (hcaller : caller ∈ s.runningList)
    (h : victimOf s caller = some (q, g)) :
    q ∈ s.runningList ∧ (s.fifoPgn q).getLast? = some g := by
  rcases Option.or_eq_some_iff.mp h with hown | ⟨-, hother⟩
  · obtain ⟨rfl, hlast⟩ := oldest_eq_some hown
    exact ⟨hcaller, hlast⟩
  · obtain ⟨q', hq', heq⟩ := List.exists_of_findSome?_eq_some hother
    split at heq
    · cases heq
    · obtain ⟨rfl, hlast⟩ := oldest_eq_some heq
      exact ⟨hq', hlast⟩

/-! ### Paging -/

theorem fifo_memphyPutFreefp (s : Sys) (d : Dev) (x : Nat) :
    (memphyPutFreefp s d x).fifoPgn = s.fifoPgn := by
  obtain ⟨-, h⟩ | ⟨-, h⟩ := memphyPutFreefp_cases s d x <;> rw [h]

theorem fifo_releaseFrameList (s : Sys) (frames : List Nat) :
    (releaseFrameList s frames).fifoPgn = s.fifoPgn := by
  induction frames generalizing s with
  | nil => rfl
  | cons f frames ih =>
      change (releaseFrameList (memphyPutFreefp s .mram f) frames).fifoPgn = _
      rw [ih, fifo_memphyPutFreefp]

/-- The entries after an eviction. -/
theorem pte_evicted {s : Sys} {q : Pid} {g : Nat} (hhas : (s.pgd q).has (pgnPath g))
    (hg : g < userPgns) (f o : Nat) (q' : Pid) {g' : Nat} (hg' : g' < userPgns) :
    (evicted s q g f o).pte q' g' =
      if q' = q ∧ g' = g then swappedPte activeMswpId o else s.pte q' g' := by
  rw [Sys.pte, evicted]
  rcases eq_or_ne q' q with rfl | hne
  · simp only [Function.update_self, Radix.lookup_set hhas, true_and]
    exact if_congr ⟨pgnPath_inj hg' hg, fun heq => by rw [heq]⟩ rfl rfl
  · simp only [Function.update_of_ne hne]
    rw [if_neg fun heq => hne heq.1]
    rfl

namespace Tracked

variable {ok : Prop} {ram swp : List Nat} {log : Log} {s t : Sys} {p q : Pid} {g : Nat}

theorem allPresent (h : Tracked log s) (hinv : Inv ok ram swp s) (hq : q ∈ s.runningList) :
    AllPresent s q := by
  intro g hg
  have hlt := hinv.fifo q hq g hg
  have hpres : pagePresent (s.pte q g) = true := (h.present q hq g hlt).mpr hg
  have hwf : WfPte (s.pte q g) := hinv.wf q hq (pgnPath g)
  rw [pteGetEntry_user hlt]
  refine ⟨hpres, ?_⟩
  change pageSwapped (s.pte q g) = false
  rw [(hwf.eq_present hpres).1]
  simp

/-- What an eviction does. -/
structure SwapOut (s : Sys) (p : Pid) : Prop where
  full : s.freeFpList .mswp = [] → swapOutVictimPage s p = (none, s)
  none : ∀ o rest, s.freeFpList .mswp = o :: rest → victimOf s p = none →
    swapOutVictimPage s p = (Option.none, memphyPutFreefp (s.setSwapFree rest) .mswp o)
  some : ∀ o rest, s.freeFpList .mswp = o :: rest → ∀ q g, victimOf s p = some (q, g) →
    ∃ f < 2 ^ 40, s.pte q g = presentPte f ∧
      swapOutVictimPage s p = (Option.some f, evicted (popped (s.setSwapFree rest) q) q g f o)

theorem swapOut (h : Tracked log s) (hinv : Inv ok ram swp s) (hp : p ∈ s.runningList) :
    SwapOut s p where
  full hfull := by rw [swapOutVictimPage, memphyGetFreefp, hfull]
  none o rest hfree hnone := by
    have hvic := (findGlobalVictim_eq (s := s.setSwapFree rest) hp
      fun q hq => h.allPresent hinv hq).1 hnone
    rw [swapOutVictimPage, memphyGetFreefp, hfree]
    dsimp only
    rw [← Sys.setSwapFree, hvic]
  some o rest hfree q g hsome := by
    have hvic := (findGlobalVictim_eq (s := s.setSwapFree rest) hp
      fun q hq => h.allPresent hinv hq).2 q g hsome
    obtain ⟨-, hlt, -, hpte, heq, hf, -⟩ := hinv.of_victim hp hvic
    refine ⟨_, hf, hpte.trans heq, hinv.swapOut_found hp hfree hvic⟩

theorem evictLog_eq (h : Tracked log s) (hinv : Inv ok ram swp s) (hp : p ∈ s.runningList)
    {o : Nat} {rest : List Nat} (hfree : s.freeFpList .mswp = o :: rest) :
    evictLog s p = (victimOf s p).toList.map Move.leave := by
  have hvic := findGlobalVictim_eq (s := s.setSwapFree rest) hp fun q hq => h.allPresent hinv hq
  rw [evictLog, memphyGetFreefp, hfree]
  dsimp only
  rw [← Sys.setSwapFree]
  cases hsome : victimOf s p with
  | none =>
      rw [hvic.1 hsome]
      rfl
  | some vic =>
      obtain ⟨q, g⟩ := vic
      rw [hvic.2 q g hsome]
      rfl

/-- An eviction, successful or not. -/
theorem evict (h : Tracked log s) (hinv : Inv ok ram swp s) (hp : p ∈ s.runningList) :
    Tracked (evictLog s p ++ log) (swapOutVictimPage s p).2 := by
  obtain ⟨hfull, hnone, hsome⟩ := h.swapOut hinv hp
  cases hfree : s.freeFpList .mswp with
  | nil =>
      rw [hfull hfree, evictLog, memphyGetFreefp, hfree]
      exact h
  | cons o rest =>
      rw [h.evictLog_eq hinv hp hfree]
      cases hvic : victimOf s p with
      | none =>
          rw [hnone o rest hfree hvic]
          refine h.of_meta ?_ (fifo_memphyPutFreefp ..) fun q path => ?_
          · exact meta_memphyPutFreefp ..
          · rw [pgd_memphyPutFreefp]
            rfl
      | some vic =>
          obtain ⟨q, g⟩ := vic
          obtain ⟨f, -, hpte, heq⟩ := hsome o rest hfree q g hvic
          obtain ⟨hq, hlast⟩ := victimOf_eq_some hp hvic
          have hg := hinv.fifo q hq g (List.mem_of_getLast? hlast)
          have hhas : ((popped (s.setSwapFree rest) q).pgd q).has (pgnPath g) :=
            has_of_pte_ne_zero (s := s) (by rw [hpte]; simp [presentPte])
          rw [heq]
          refine h.leave rfl rfl hq hlast rfl ?_ fun p' _ g' hg' hne => ?_
          · rw [pte_evicted hhas hg f o q hg, if_pos ⟨rfl, rfl⟩]
            simp
          · rw [pte_evicted hhas hg f o p' hg', if_neg hne]
            rfl

theorem getFrame (h : Tracked log s) (hinv : Inv ok ram swp s) (hp : p ∈ s.runningList) :
    Tracked (getFrameLog s p ++ log) (Mem.getFrame s p).2 := by
  rw [getFrameLog, Mem.getFrame]
  cases hget : memphyGetFreefp s .mram with
  | none => exact h.evict hinv hp
  | some r =>
      obtain ⟨f, t⟩ := r
      obtain ⟨rest, -, rfl⟩ := memphyGetFreefp_eq_some hget
      exact h.of_meta rfl rfl fun _ _ => rfl

theorem releaseFrameList (h : Tracked log s) (frames : List Nat) :
    Tracked log (Mem.releaseFrameList s frames) := by
  refine h.of_meta (meta_releaseFrameList ..) (fifo_releaseFrameList ..) fun q path => ?_
  rw [pgd_releaseFrameList]

theorem putFreefp (h : Tracked log s) (d : Dev) (x : Nat) :
    Tracked log (memphyPutFreefp s d x) := by
  refine h.of_meta (meta_memphyPutFreefp ..) (fifo_memphyPutFreefp ..) fun q path => ?_
  rw [pgd_memphyPutFreefp]

theorem setHost (h : Tracked log s) (host : Nat → Bool) : Tracked log { s with host := host } :=
  h.of_meta rfl rfl fun _ _ => rfl

theorem allocPages {n : Nat} {frames : List Nat} (h : Tracked log s)
    (hinv : Inv ok (frames ++ ram) swp s) (hp : p ∈ s.runningList) :
    Tracked (allocPagesLog p n s ++ log) (Mem.allocPages p n frames s).2.2 := by
  induction n generalizing frames s log with
  | zero => exact h
  | succ n ih =>
      have hframe := hinv.getFrame hp
      have htracked := h.getFrame hinv hp
      have hrun := congrArg Sys.Meta.runningList (getFrame_spec s p).1
      rw [Mem.allocPages, allocPagesLog]
      generalize Mem.getFrame s p = r at hframe htracked hrun
      obtain ⟨_ | f, t⟩ := r
      · exact htracked.releaseFrameList frames
      · have hdraw := hframe.drawHost
        dsimp only at htracked hrun ⊢
        generalize hd : draw t.host = dr at hdraw
        obtain ⟨_ | _, host⟩ := dr
        · exact ((htracked.setHost host).putFreefp .mram f).releaseFrameList frames
        · dsimp only
          rw [List.append_assoc]
          refine ih (htracked.setHost host) ?_ ?_
          · refine hdraw.perm ?_
            rw [List.append_assoc, List.singleton_append]
            exact List.perm_middle.symm
          · change p ∈ t.runningList
            rw [show t.runningList = s.runningList from hrun]
            exact hp

end Tracked

/-- With a host that never refuses, an entry is always written. -/
theorem pteSetEntry_of_hostOk {s : Sys} (hhost : s.HostOk) (p : Pid) {g : Nat} (hg : g < userPgns)
    (v : Nat) :
    ∃ pgd, pteSetEntry s p g v = (true, { s with pgd := Function.update s.pgd p pgd }) := by
  obtain ⟨hok, hsame⟩ := Radix.write_of_always (p := pgnPath g) (z := 0) (t := s.pgd p) hhost.draw v
  rw [pteSetEntry_user hg]
  dsimp only
  rw [hok, hsame]
  exact ⟨_, rfl⟩

theorem enlistPgnNode_of_hostOk {s : Sys} (hhost : s.HostOk) (p : Pid) (g : Nat) :
    enlistPgnNode s p g =
      (true, { s with fifoPgn := Function.update s.fifoPgn p (g :: s.fifoPgn p) }) := by
  rw [enlistPgnNode, hhost.draw]

namespace Tracked

variable {ok : Prop} {ram swp : List Nat} {log : Log} {s t : Sys} {p q : Pid} {g : Nat}

/-- A page is mapped and enlisted. -/
theorem mapPage (h : Tracked log s) (hp : p ∈ s.runningList) (hlt : p < s.availPid)
    (hg : g < userPgns) (hout : pagePresent (s.pte p g) = false) {f : Nat}
    (hset : pteSetFpn s p g f = (true, t)) (hfifo : t.fifoPgn = s.fifoPgn) :
    Tracked (.arrive (p, g) :: log)
      { t with fifoPgn := Function.update t.fifoPgn p (g :: t.fifoPgn p) } := by
  have hmeta := meta_pteSetEntry s p g (presentPte f)
  have hlookup := lookup_pteSetEntry hg hset
  rw [← pteSetFpn, hset] at hmeta
  refine h.arrive (congrArg Sys.Meta.runningList hmeta) (congrArg Sys.Meta.availPid hmeta) hp hlt
    hg hout ?_ ?_ fun q _ g' hg' hne => ?_
  · rw [hfifo]
  · change pagePresent ((t.pgd p).lookup 0 (pgnPath g)) = true
    rw [hlookup, if_pos ⟨rfl, rfl⟩]
    exact pagePresent_presentPte f
  · change pagePresent ((t.pgd q).lookup 0 (pgnPath g')) = _
    rw [hlookup, if_neg fun heq => hne ⟨heq.1, pgnPath_inj hg' hg heq.2⟩]
    rfl

theorem mapFrames {pgn left pgit : Nat} {frames : List Nat} (h : Tracked log s)
    (hhost : s.HostOk) (hp : p ∈ s.runningList) (hav : p < s.availPid)
    (hlt : pgn + pgit + left ≤ userPgns)
    (hzero : ∀ k, pgit ≤ k → k < pgit + left → s.pte p (pgn + k) = 0) :
    Tracked (mapFramesLog p pgn left pgit frames s ++ log)
      (Mem.mapFrames p pgn left pgit frames s).2.2 := by
  induction left generalizing pgit frames s log with
  | zero => exact h
  | succ left ih =>
      cases frames with
      | nil => exact h
      | cons f next =>
          have hg : pgn + pgit < userPgns := by omega
          have hz := hzero pgit (Nat.le_refl _) (by omega)
          obtain ⟨pgd, hset⟩ := pteSetEntry_of_hostOk hhost p hg (presentPte f)
          have hpage := h.mapPage hp hav hg (by rw [hz]; rfl) hset rfl
          have hlookup := lookup_pteSetEntry hg hset
          rw [← pteSetFpn] at hset
          rw [Mem.mapFrames, mapFramesLog, hset]
          dsimp only
          rw [enlistPgnNode_of_hostOk (s := { s with pgd := Function.update s.pgd p pgd }) hhost]
          dsimp only
          rw [List.append_assoc]
          refine ih hpage hhost hp hav (by omega) fun k hk hk' => ?_
          have hne : pgnPath (pgn + k) ≠ pgnPath (pgn + pgit) := fun he => by
            have := pgnPath_inj (by omega) hg he
            omega
          change (Function.update s.pgd p pgd p).lookup 0 (pgnPath (pgn + k)) = 0
          rw [hlookup p, if_neg fun heq => hne heq.2]
          exact hzero k (by omega) (by omega)

end Tracked

end Ossim.Mem
