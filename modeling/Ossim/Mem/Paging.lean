import Ossim.Mem.Ledger

/-!
Paging keeps the invariant.

One lemma for each function between `MEMPHY_get_freefp` and `pg_setval`
says which frames the operation holds before and after. A function that
returns a frame leaves it held, one that takes frames expects them held,
and on every error path the frames held are the ones held at the start.
-/

namespace Ossim.Mem

open Ossim.Lib

/-! ### What paging never touches -/

/-- The part of the state that paging leaves alone. -/
structure Sys.Meta where
  maxsz : Dev → Int
  rdmflg : Dev → Bool
  usedFpList : Dev → List UsedFrame
  runningList : List Pid
  availPid : Pid
  regs : Pid → Nat → Nat
  mmap : Pid → VmArea
  symrgtbl : Pid → Nat → VmRg
  kcpooltbl : Pid → List KcachePool
  stores : List Store

def Sys.meta (s : Sys) : Sys.Meta where
  maxsz := s.maxsz
  rdmflg := s.rdmflg
  usedFpList := s.usedFpList
  runningList := s.runningList
  availPid := s.availPid
  regs := s.regs
  mmap := s.mmap
  symrgtbl := s.symrgtbl
  kcpooltbl := s.kcpooltbl
  stores := s.stores

@[simp] theorem meta_setRoot (s : Sys) (p : Pid) (addr : Nat) (t : PageTable) (h : Nat → Bool) :
    (s.setRoot p addr t h).meta = s.meta := by
  rw [Sys.setRoot]
  split <;> rfl

@[simp] theorem meta_memphyPutFreefp (s : Sys) (d : Dev) (x : Nat) :
    (memphyPutFreefp s d x).meta = s.meta := by
  obtain ⟨-, h⟩ | ⟨-, h⟩ := memphyPutFreefp_cases s d x <;> rw [h] <;> rfl

@[simp] theorem meta_walkPte (s : Sys) (p : Pid) (addr : Nat) :
    (walkPte s p addr).2.meta = s.meta := by
  rw [walkPte]
  split
  · rfl
  · exact meta_setRoot ..

@[simp] theorem meta_pteSetEntry (s : Sys) (p : Pid) (pgn v : Nat) :
    (pteSetEntry s p pgn v).2.meta = s.meta := by
  rw [pteSetEntry]
  split
  · rfl
  · exact meta_setRoot ..

@[simp] theorem meta_enlistPgnNode (s : Sys) (p : Pid) (pgn : Nat) :
    (enlistPgnNode s p pgn).2.meta = s.meta := by
  rw [enlistPgnNode]
  split <;> rfl

@[simp] theorem meta_swapCpPage (s : Sys) (src dst : Dev) (f o : Nat) :
    (swapCpPage s src f dst o).2.meta = s.meta := by
  obtain ⟨st, hst⟩ := swapCpPage_eq s src f dst o
  rw [hst]
  rfl

@[simp] theorem meta_releaseFrameList (s : Sys) (frames : List Nat) :
    (releaseFrameList s frames).meta = s.meta := by
  induction frames generalizing s with
  | nil => rfl
  | cons f frames ih =>
      change (releaseFrameList (memphyPutFreefp s .mram f) frames).meta = _
      rw [ih, meta_memphyPutFreefp]

/-! ### Victims -/

/-- A search for a victim in one process only shortens its page list, and
finds a present page of it. -/
theorem findPresentVictim_spec (p : Pid) (n : Nat) (s : Sys) :
    ∃ fifo, (findPresentVictim p n s).2 =
        { s with fifoPgn := Function.update s.fifoPgn p fifo } ∧
      (∀ g ∈ fifo, g ∈ s.fifoPgn p) ∧
      ∀ g v, (findPresentVictim p n s).1 = some (g, v) →
        g ∈ s.fifoPgn p ∧ v = pteGetEntry s p g ∧ pagePresent v = true ∧
          pageSwapped v = false := by
  induction n generalizing s with
  | zero =>
      refine ⟨s.fifoPgn p, ?_, fun g hg => hg, fun g v h => by cases h⟩
      rw [Function.update_eq_self]
      rfl
  | succ n ih =>
      rw [findPresentVictim]
      split
      · refine ⟨s.fifoPgn p, ?_, fun g hg => hg, fun g v h => by cases h⟩
        rw [Function.update_eq_self]
      · rename_i vicpgn t hvic
        obtain ⟨hlast, rfl⟩ : (s.fifoPgn p).getLast? = some vicpgn ∧
            { s with fifoPgn := Function.update s.fifoPgn p (s.fifoPgn p).dropLast } = t := by
          simp only [findVictimPage] at hvic
          split at hvic
          · cases hvic
          · rename_i hlast
            cases hvic
            exact ⟨hlast, rfl⟩
        have hmem : vicpgn ∈ s.fifoPgn p := List.mem_of_getLast? hlast
        have hdrop : ∀ g ∈ (s.fifoPgn p).dropLast, g ∈ s.fifoPgn p :=
          fun g hg => List.mem_of_mem_dropLast hg
        dsimp only
        split
        · rename_i hpres
          simp only [Bool.and_eq_true, Bool.not_eq_true'] at hpres
          refine ⟨(s.fifoPgn p).dropLast, rfl, hdrop, fun g v h => ?_⟩
          cases h
          exact ⟨hmem, rfl, hpres⟩
        · obtain ⟨fifo, ht, hsub, hfound⟩ := ih
            { s with fifoPgn := Function.update s.fifoPgn p (s.fifoPgn p).dropLast }
          simp only [Function.update_self, Function.update_idem] at ht hsub hfound
          refine ⟨fifo, ht, fun g hg => hdrop g (hsub g hg), fun g v h => ?_⟩
          obtain ⟨hg, hrest⟩ := hfound g v h
          exact ⟨hdrop g hg, hrest⟩

/-- What a search over several processes comes to. -/
def VictimSearch (s : Sys) (r : Option (Pid × Nat × Nat) × Sys) (among : Pid → Prop) : Prop :=
  ∃ fifo, r.2 = { s with fifoPgn := fifo } ∧ (∀ q, ∀ g ∈ fifo q, g ∈ s.fifoPgn q) ∧
    ∀ q g v, r.1 = some (q, g, v) → among q ∧ g ∈ s.fifoPgn q ∧ v = pteGetEntry s q g ∧
      pagePresent v = true ∧ pageSwapped v = false

/-- A search that found nothing in `p` can be continued elsewhere. -/
theorem VictimSearch.after {s t : Sys} {p : Pid} {r : Option (Pid × Nat × Nat) × Sys}
    {among : Pid → Prop} (ht : findPresentVictimInProc s p = (none, t))
    (h : VictimSearch t r among) : VictimSearch s r among := by
  obtain ⟨fifo', hfifo', hsub', -⟩ := findPresentVictim_spec p (s.fifoPgn p).length s
  obtain ⟨fifo, hr, hsub, hfound⟩ := h
  rw [← findPresentVictimInProc, ht] at hfifo'
  simp only at hfifo'
  subst hfifo'
  have hmem (q : Pid) (g : Nat) (hg : g ∈ Function.update s.fifoPgn p fifo' q) :
      g ∈ s.fifoPgn q := by
    rcases eq_or_ne q p with rfl | hq
    · rw [Function.update_self] at hg
      exact hsub' g hg
    · rwa [Function.update_of_ne hq] at hg
  refine ⟨fifo, hr, fun q g hg => hmem q g (hsub q g hg), fun q g v h => ?_⟩
  obtain ⟨hq, hg, hrest⟩ := hfound q g v h
  exact ⟨hq, hmem q g hg, hrest⟩

theorem VictimSearch.found {s t : Sys} {p : Pid} {vic : Nat × Nat} {among : Pid → Prop}
    (ht : findPresentVictimInProc s p = (some vic, t)) (hp : among p) :
    VictimSearch s (some (p, vic), t) among := by
  obtain ⟨fifo', hfifo', hsub', hfound⟩ := findPresentVictim_spec p (s.fifoPgn p).length s
  rw [← findPresentVictimInProc, ht] at hfifo' hfound
  refine ⟨Function.update s.fifoPgn p fifo', hfifo', fun q g hg => ?_, fun q g v h => ?_⟩
  · rcases eq_or_ne q p with rfl | hq
    · rw [Function.update_self] at hg
      exact hsub' g hg
    · rwa [Function.update_of_ne hq] at hg
  · cases h
    obtain ⟨hg, hrest⟩ := hfound g v rfl
    exact ⟨hp, hg, hrest⟩

theorem VictimSearch.none (s : Sys) (among : Pid → Prop) : VictimSearch s (none, s) among :=
  ⟨s.fifoPgn, rfl, fun _ _ hg => hg, fun _ _ _ h => by cases h⟩

theorem findVictimAmong_spec (caller : Pid) (l : List Pid) (s : Sys) :
    VictimSearch s (findVictimAmong caller l s) (· ∈ l) := by
  induction l generalizing s with
  | nil => exact .none s _
  | cons q l ih =>
      have hmono {s : Sys} {r} (h : VictimSearch s r (· ∈ l)) : VictimSearch s r (· ∈ q :: l) := by
        obtain ⟨fifo, hr, hsub, hfound⟩ := h
        refine ⟨fifo, hr, hsub, fun q' g v h => ?_⟩
        obtain ⟨hq', hrest⟩ := hfound q' g v h
        exact ⟨List.mem_cons_of_mem q hq', hrest⟩
      rw [findVictimAmong]
      split
      · exact hmono (ih s)
      · split
        · rename_i vic t ht
          exact .found ht (List.mem_cons_self ..)
        · rename_i t ht
          exact .after ht (hmono (ih t))

theorem findGlobalVictim_spec (s : Sys) (caller : Pid) :
    VictimSearch s (findGlobalVictim s caller) fun q => q = caller ∨ q ∈ s.runningList := by
  rw [findGlobalVictim]
  split
  · rename_i vic t ht
    exact .found ht (.inl rfl)
  · rename_i t ht
    obtain ⟨fifo, hfifo, -⟩ := findPresentVictim_spec caller (s.fifoPgn caller).length s
    rw [← findPresentVictimInProc, ht] at hfifo
    have hrun : t.runningList = s.runningList := by
      simp only at hfifo
      rw [hfifo]
    refine .after ht ?_
    obtain ⟨fifo, hr, hsub, hfound⟩ := findVictimAmong_spec caller t.runningList t
    refine ⟨fifo, hr, hsub, fun q g v h => ?_⟩
    obtain ⟨hq, hrest⟩ := hfound q g v h
    exact ⟨.inr (hrun ▸ hq), hrest⟩

@[simp] theorem meta_findGlobalVictim (s : Sys) (caller : Pid) :
    (findGlobalVictim s caller).2.meta = s.meta := by
  obtain ⟨fifo, hr, -⟩ := findGlobalVictim_spec s caller
  rw [hr]
  rfl

/-! ### The course of an eviction -/

/-- A swap frame has been taken, which leaves `rest`, the page lists have been
searched for a victim, and `st` is in the devices. -/
def victimSought (s : Sys) (rest : List Nat) (fifo : Pid → List Nat)
    (st : Dev → Nat → Byte) : Sys :=
  { s with
    freeFpList := Function.update s.freeFpList .mswp rest
    fifoPgn := fifo
    storage := st }

/-- A page that the search can come up with. -/
structure IsVictim (s : Sys) (caller q : Pid) (g v : Nat) : Prop where
  proc : q = caller ∨ q ∈ s.runningList
  listed : g ∈ s.fifoPgn q
  entry : pteGetEntry s q g = v
  present : pagePresent v = true
  notSwapped : pageSwapped v = false

/-- What `swap_out_victim_page` can do. -/
inductive SwapOut (s : Sys) (caller : Pid) : Option Nat × Sys → Prop
  | full (hfree : s.freeFpList .mswp = []) : SwapOut s caller (none, s)
  | noVictim (o : Nat) (rest : List Nat) (fifo : Pid → List Nat)
      (hfree : s.freeFpList .mswp = o :: rest) (hsub : ∀ q, ∀ g ∈ fifo q, g ∈ s.fifoPgn q) :
      SwapOut s caller (none, memphyPutFreefp (victimSought s rest fifo s.storage) .mswp o)
  | noCopy (o : Nat) (rest : List Nat) (fifo : Pid → List Nat) (q : Pid) (g v : Nat)
      (st : Dev → Nat → Byte) (hfree : s.freeFpList .mswp = o :: rest)
      (hsub : ∀ q, ∀ g ∈ fifo q, g ∈ s.fifoPgn q) (hvic : IsVictim s caller q g v)
      (hcopy : swapCpPage (victimSought s rest fifo s.storage) .mram (pteFpn v) .mswp o =
        (false, victimSought s rest fifo st)) :
      SwapOut s caller (none, memphyPutFreefp (victimSought s rest fifo st) .mswp o)
  | noEntry (o : Nat) (rest : List Nat) (fifo : Pid → List Nat) (q : Pid) (g v : Nat)
      (st : Dev → Nat → Byte) (t : Sys) (hfree : s.freeFpList .mswp = o :: rest)
      (hsub : ∀ q, ∀ g ∈ fifo q, g ∈ s.fifoPgn q) (hvic : IsVictim s caller q g v)
      (hcopy : swapCpPage (victimSought s rest fifo s.storage) .mram (pteFpn v) .mswp o =
        (true, victimSought s rest fifo st))
      (hset : pteSetEntry (victimSought s rest fifo st) q g
        (swappedPte activeMswpId o) = (false, t)) :
      SwapOut s caller (none, memphyPutFreefp t .mswp o)
  | evicted (o : Nat) (rest : List Nat) (fifo : Pid → List Nat) (q : Pid) (g v : Nat)
      (st : Dev → Nat → Byte) (t : Sys) (hfree : s.freeFpList .mswp = o :: rest)
      (hsub : ∀ q, ∀ g ∈ fifo q, g ∈ s.fifoPgn q) (hvic : IsVictim s caller q g v)
      (hcopy : swapCpPage (victimSought s rest fifo s.storage) .mram (pteFpn v) .mswp o =
        (true, victimSought s rest fifo st))
      (hset : pteSetEntry (victimSought s rest fifo st) q g
        (swappedPte activeMswpId o) = (true, t)) :
      SwapOut s caller (some (pteFpn v), t)

theorem swapOutVictimPage_cases {s : Sys} {caller : Pid} {r : Option Nat × Sys}
    (h : swapOutVictimPage s caller = r) : SwapOut s caller r := by
  rw [swapOutVictimPage, memphyGetFreefp] at h
  cases hfree : s.freeFpList .mswp with
  | nil =>
      rw [hfree] at h
      subst h
      exact .full hfree
  | cons o rest =>
      rw [hfree] at h
      dsimp only at h
      obtain ⟨fifo, hs₂, hsub, hfound⟩ := findGlobalVictim_spec
        { s with freeFpList := Function.update s.freeFpList .mswp rest } caller
      generalize findGlobalVictim
        { s with freeFpList := Function.update s.freeFpList .mswp rest } caller = found
          at h hs₂ hfound
      obtain ⟨vic, s₂⟩ := found
      obtain rfl : s₂ = victimSought s rest fifo s.storage := hs₂
      cases vic with
      | none =>
          subst h
          exact .noVictim o rest fifo hfree hsub
      | some vic =>
          obtain ⟨q, g, v⟩ := vic
          obtain ⟨hq, hg, hv, hpres, hswap⟩ := hfound q g v rfl
          have hvic : IsVictim s caller q g v := ⟨hq, hg, hv.symm, hpres, hswap⟩
          obtain ⟨st, hst⟩ :=
            swapCpPage_eq (victimSought s rest fifo s.storage) .mram (pteFpn v) .mswp o
          cases hcopy :
            swapCpPage (victimSought s rest fifo s.storage) .mram (pteFpn v) .mswp o with
          | mk done s₃ =>
              rw [hcopy] at hst
              obtain rfl : s₃ = victimSought s rest fifo st := hst
              dsimp only at h
              rw [hcopy] at h
              cases done with
              | false =>
                  subst h
                  exact .noCopy o rest fifo q g v st hfree hsub hvic hcopy
              | true =>
                  dsimp only [pteSetSwap] at h
                  cases hset : pteSetEntry (victimSought s rest fifo st) q g
                      (swappedPte activeMswpId o) with
                  | mk set t =>
                      rw [hset] at h
                      cases set with
                      | false =>
                          subst h
                          exact .noEntry o rest fifo q g v st t hfree hsub hvic hcopy hset
                      | true =>
                          subst h
                          exact .evicted o rest fifo q g v st t hfree hsub hvic hcopy hset

@[simp] theorem meta_swapOutVictimPage (s : Sys) (caller : Pid) :
    (swapOutVictimPage s caller).2.meta = s.meta := by
  generalize hr : swapOutVictimPage s caller = r
  cases swapOutVictimPage_cases hr with
  | full => rfl
  | noVictim => exact meta_memphyPutFreefp ..
  | noCopy => exact meta_memphyPutFreefp ..
  | noEntry o rest fifo q g v st t _ _ _ _ hset =>
      have hmeta := meta_pteSetEntry (victimSought s rest fifo st) q g
        (swappedPte activeMswpId o)
      rw [hset] at hmeta
      rw [meta_memphyPutFreefp]
      exact hmeta
  | evicted o rest fifo q g v st t _ _ _ _ hset =>
      have hmeta := meta_pteSetEntry (victimSought s rest fifo st) q g
        (swappedPte activeMswpId o)
      rw [hset] at hmeta
      exact hmeta

/-! ### What eviction does to page tables

This part needs no invariant, so it also holds of processes whose break has
left the lower half. -/

/-- An entry stays as it is, or a present page is evicted. -/
def EvictsAt (old new : Nat) : Prop :=
  new = old ∨ pagePresent old = true ∧ pageSwapped old = false ∧
    ∃ o, new = swappedPte activeMswpId o

theorem EvictsAt.trans {u v w : Nat} (h : EvictsAt u v) (h' : EvictsAt v w) : EvictsAt u w := by
  rcases h with rfl | ⟨hp, hs, o, rfl⟩
  · exact h'
  · rcases h' with rfl | ⟨hp', -⟩
    · exact .inr ⟨hp, hs, o, rfl⟩
    · rw [pagePresent_swappedPte] at hp'
      cases hp'

/-- Page tables change at most by evictions. -/
def Evicts (s t : Sys) : Prop :=
  ∀ q path, EvictsAt ((s.pgd q).lookup 0 path) ((t.pgd q).lookup 0 path)

namespace Evicts

variable {s t u : Sys}

theorem of_pgd_eq (h : t.pgd = s.pgd) : Evicts s t := fun q path => .inl (by rw [h])

theorem refl (s : Sys) : Evicts s s := of_pgd_eq rfl

theorem trans (h : Evicts s t) (h' : Evicts t u) : Evicts s u :=
  fun q path => (h q path).trans (h' q path)

/-- An entry without a present page stays as it is. -/
theorem eq_of_not_present (h : Evicts s t) {q : Pid} {path : RadixPath 512 4}
    (hp : pagePresent ((s.pgd q).lookup 0 path) = false) :
    (t.pgd q).lookup 0 path = (s.pgd q).lookup 0 path := by
  rcases h q path with heq | ⟨hp', -⟩
  · exact heq
  · rw [hp'] at hp
    cases hp

end Evicts

theorem pgd_memphyPutFreefp (s : Sys) (d : Dev) (x : Nat) :
    (memphyPutFreefp s d x).pgd = s.pgd := by
  obtain ⟨-, h⟩ | ⟨-, h⟩ := memphyPutFreefp_cases s d x <;> rw [h]

theorem pgd_releaseFrameList (s : Sys) (frames : List Nat) :
    (releaseFrameList s frames).pgd = s.pgd := by
  induction frames generalizing s with
  | nil => rfl
  | cons f frames ih =>
      change (releaseFrameList (memphyPutFreefp s .mram f) frames).pgd = _
      rw [ih, pgd_memphyPutFreefp]

theorem pgd_enlistPgnNode (s : Sys) (p : Pid) (g : Nat) : (enlistPgnNode s p g).2.pgd = s.pgd := by
  rw [enlistPgnNode]
  split <;> rfl

/-- Writing an entry changes at most the entry that `pte_get_entry` reads. -/
theorem pgd_pteSetEntry (s : Sys) (p : Pid) (pgn v : Nat) (q : Pid) (path : RadixPath 512 4) :
    ((pteSetEntry s p pgn v).2.pgd q).lookup 0 path = (s.pgd q).lookup 0 path ∨
    ((pteSetEntry s p pgn v).2.pgd q).lookup 0 path = v ∧
      (s.pgd q).lookup 0 path = pteGetEntry s p pgn := by
  rw [pteSetEntry, pteGetEntry]
  cases hpath : getPdFromAddress (pgnAddr pgn) with
  | none => exact .inl rfl
  | some path' =>
      dsimp only
      rw [Sys.setRoot, Sys.root]
      cases hk : isKernelAddress (pgnAddr pgn) with
      | true => exact .inl rfl
      | false =>
          simp only [Bool.false_eq_true, if_false]
          rcases eq_or_ne q p with rfl | hq
          · rw [Function.update_self]
            cases hw : (Radix.write draw 0 path' v (s.pgd q) s.host).1 with
            | false => exact .inl (Radix.lookup_write_of_fail hw path)
            | true =>
                rw [Radix.lookup_write hw]
                split
                · rename_i heq
                  exact .inr ⟨rfl, by rw [heq]⟩
                · exact .inl rfl
          · exact .inl (by rw [Function.update_of_ne hq])

/-- The entry that is written is the one of the victim. -/
theorem evicts_pteSetEntry {s t : Sys} {q : Pid} {g o : Nat}
    (hpres : pagePresent (pteGetEntry s q g) = true)
    (hswap : pageSwapped (pteGetEntry s q g) = false) {done : Bool}
    (hset : pteSetEntry s q g (swappedPte activeMswpId o) = (done, t)) : Evicts s t := by
  intro q' path
  have hpgd := pgd_pteSetEntry s q g (swappedPte activeMswpId o) q' path
  rw [hset] at hpgd
  rcases hpgd with heq | ⟨hnew, hold⟩
  · exact .inl heq
  · exact .inr ⟨hold ▸ hpres, hold ▸ hswap, o, hnew⟩

theorem evicts_swapOutVictimPage (s : Sys) (caller : Pid) :
    Evicts s (swapOutVictimPage s caller).2 := by
  generalize hr : swapOutVictimPage s caller = r
  cases swapOutVictimPage_cases hr with
  | full => exact .refl s
  | noVictim => exact .of_pgd_eq (pgd_memphyPutFreefp ..)
  | noCopy => exact .of_pgd_eq (pgd_memphyPutFreefp ..)
  | noEntry o rest fifo q g v st t _ _ hvic _ hset =>
      obtain ⟨-, -, rfl, hpres, hswap⟩ := hvic
      have hevicts : Evicts (victimSought s rest fifo st) t := evicts_pteSetEntry hpres hswap hset
      exact hevicts.trans (.of_pgd_eq (pgd_memphyPutFreefp ..))
  | evicted o rest fifo q g v st t _ _ hvic _ hset =>
      obtain ⟨-, -, rfl, hpres, hswap⟩ := hvic
      exact evicts_pteSetEntry (s := victimSought s rest fifo st) hpres hswap hset

/-! ### What eviction does to the RAM -/

theorem storage_memphyPutFreefp (s : Sys) (d : Dev) (x : Nat) :
    (memphyPutFreefp s d x).storage = s.storage := by
  obtain ⟨-, h⟩ | ⟨-, h⟩ := memphyPutFreefp_cases s d x <;> rw [h]

theorem storage_pteSetEntry (s : Sys) (p : Pid) (g v : Nat) :
    (pteSetEntry s p g v).2.storage = s.storage := by
  rw [pteSetEntry]
  split
  · rfl
  · dsimp only
    rw [Sys.setRoot]
    split <;> rfl

theorem storage_enlistPgnNode (s : Sys) (p : Pid) (g : Nat) :
    (enlistPgnNode s p g).2.storage = s.storage := by
  rw [enlistPgnNode]
  split <;> rfl

/-- An eviction only reads the RAM. -/
theorem mram_swapOutVictimPage (s : Sys) (p : Pid) :
    (swapOutVictimPage s p).2.storage .mram = s.storage .mram := by
  have hcp (rest : List Nat) (fifo : Pid → List Nat) {v o : Nat} {done : Bool}
      {st : Dev → Nat → Byte}
      (hcopy : swapCpPage (victimSought s rest fifo s.storage) .mram (pteFpn v) .mswp o =
        (done, victimSought s rest fifo st)) : st .mram = s.storage .mram := by
    have hram := storage_swapCpPage (victimSought s rest fifo s.storage) .mram (pteFpn v) o
      (show Dev.mram ≠ Dev.mswp by decide)
    rw [hcopy] at hram
    exact hram
  generalize hr : swapOutVictimPage s p = r
  cases swapOutVictimPage_cases hr with
  | full => rfl
  | noVictim => rw [storage_memphyPutFreefp, victimSought]
  | noCopy o rest fifo q g v st _ _ _ hcopy =>
      rw [storage_memphyPutFreefp]
      exact hcp rest fifo hcopy
  | noEntry o rest fifo q g v st t _ _ _ hcopy hset =>
      have hstorage := storage_pteSetEntry (victimSought s rest fifo st) q g
        (swappedPte activeMswpId o)
      rw [hset] at hstorage
      rw [storage_memphyPutFreefp]
      exact (congrFun hstorage .mram).trans (hcp rest fifo hcopy)
  | evicted o rest fifo q g v st t _ _ _ hcopy hset =>
      have hstorage := storage_pteSetEntry (victimSought s rest fifo st) q g
        (swappedPte activeMswpId o)
      rw [hset] at hstorage
      exact (congrFun hstorage .mram).trans (hcp rest fifo hcopy)

/-! ### Frames in and out of the free lists -/

namespace Inv

variable {ok : Prop} {ram swp : List Nat} {s t : Sys} {p q : Pid} {x g : Nat}

theorem getFreefp {d : Dev} {ram' swp' : List Nat} (h : Inv ok ram swp s)
    (hget : memphyGetFreefp s d = some (x, t))
    (hheld : ∀ d' y, (held ram' swp' d').count y =
      (held ram swp d').count y + if d' = d ∧ x = y then 1 else 0) : Inv ok ram' swp' t := by
  obtain ⟨rest, hfree, rfl⟩ := memphyGetFreefp_eq_some hget
  refine h.setLists (fun d' y => ?_) (fun _ hfp => hfp) rfl (fun hok => ⟨rfl, (h.host hok).2⟩)
  rw [hheld]
  rcases eq_or_ne d' d with rfl | hd
  · simp only [Function.update_self, hfree, List.count_cons, beq_iff_eq, true_and]
    omega
  · simp [hd]

theorem getFreefp_mram (h : Inv ok ram swp s) (hget : memphyGetFreefp s .mram = some (x, t)) :
    Inv ok (x :: ram) swp t := by
  refine h.getFreefp hget fun d y => ?_
  cases d <;> simp [held, List.count_cons]

theorem getFreefp_mswp (h : Inv ok ram swp s) (hget : memphyGetFreefp s .mswp = some (x, t)) :
    Inv ok ram (x :: swp) t := by
  refine h.getFreefp hget fun d y => ?_
  cases d <;> simp [held, List.count_cons]

theorem putFreefp {d : Dev} {ram' swp' : List Nat} (h : Inv ok ram' swp' s)
    (hheld : ∀ d' y, (held ram' swp' d').count y =
      (held ram swp d').count y + if d' = d ∧ x = y then 1 else 0) :
    Inv ok ram swp (memphyPutFreefp s d x) := by
  obtain ⟨hhost, hput⟩ | ⟨hhost, hput⟩ := memphyPutFreefp_cases s d x
  · rw [hput]
    refine h.setLists (fun d' y => ?_) (fun _ hfp => hfp) rfl (fun hok => ⟨?_, (h.host hok).2⟩)
    · rw [hheld]
      rcases eq_or_ne d' d with rfl | hd
      · simp only [Function.update_self, List.count_cons, beq_iff_eq, true_and]
        omega
      · simp [hd]
    · exact congrArg Prod.snd (h.draw_host hok)
  · rw [hput]
    refine h.setLists (fun d' y => ?_) (fun _ hfp => hfp) rfl (fun hok => ?_)
    · rw [hheld]
      rcases eq_or_ne d' d with rfl | hd
      · simp only [Function.update_self, List.count_cons, beq_iff_eq, true_and]
        omega
      · simp [hd]
    · have := congrArg Prod.fst (h.draw_host hok)
      simp [draw, hhost] at this

theorem putFreefp_mram (h : Inv ok (x :: ram) swp s) :
    Inv ok ram swp (memphyPutFreefp s .mram x) := by
  refine h.putFreefp fun d y => ?_
  cases d <;> simp [held, List.count_cons]

theorem putFreefp_mswp (h : Inv ok ram (x :: swp) s) :
    Inv ok ram swp (memphyPutFreefp s .mswp x) := by
  refine h.putFreefp fun d y => ?_
  cases d <;> simp [held, List.count_cons]

/-- Only the number of times a frame is held matters. -/
theorem perm (h : Inv ok ram swp s) {ram' : List Nat} (hperm : ram.Perm ram') :
    Inv ok ram' swp s :=
  { h with
    owners := fun d x => by
      rw [← h.owners d x]
      cases d with
      | mram => simp only [held, hperm.count_eq]
      | mswp => rfl }

theorem releaseFrameList {frames : List Nat} (h : Inv ok (frames ++ ram) swp s) :
    Inv ok ram swp (Mem.releaseFrameList s frames) := by
  induction frames generalizing s with
  | nil => exact h
  | cons f frames ih => exact ih (putFreefp_mram h)

/-- A node or a table asked of the host. -/
theorem drawHost (h : Inv ok ram swp s) : Inv ok ram swp { s with host := (draw s.host).2 } :=
  h.setHost fun hok => congrArg Prod.snd (h.draw_host hok)

/-! ### Eviction -/

/-- Writing an entry whose tables exist. -/
theorem pteSetEntry_true {v : Nat} (h : Inv ok ram swp s) {ram' swp' : List Nat}
    (hp : p ∈ s.runningList) (hg : g < userPgns) (hset : pteSetEntry s p g v = (true, t))
    (hwf : WfPte v) (habove : (s.mmap p).sbrk ≤ g * pageSz → v = 0)
    (hheld : ∀ d x, (held ram' swp' d).count x + (if owns d x v then 1 else 0) =
      (held ram swp d).count x + (if owns d x (s.pte p g) then 1 else 0))
    (hbyte : ∀ off < pageSz, ∀ e, lastStore s.stores p (g * pageSz + off) = some e →
      s.pteByte v off = some e.value) : Inv ok ram' swp' t := by
  rw [pteSetEntry_user hg] at hset
  simp only [Prod.mk.injEq] at hset
  obtain ⟨hok, rfl⟩ := hset
  exact h.setPte hp hg (Radix.lookup_write hok) (fun c hc => Radix.countP_write hc hok)
    (fun hk => (Radix.write_of_always (h.draw_host hk) v).2) hwf habove hheld hbyte

/-- Writing an entry fails only for want of a table. -/
theorem pteSetEntry_false {v : Nat} (h : Inv ok ram swp s) (hp : p ∈ s.runningList)
    (hg : g < userPgns) (hset : pteSetEntry s p g v = (false, t)) : Inv ok ram swp t := by
  rw [pteSetEntry_user hg] at hset
  simp only [Prod.mk.injEq] at hset
  obtain ⟨hfail, rfl⟩ := hset
  refine h.setPte (g := g) (v := s.pte p g) hp hg (fun path => ?_) (fun c hc => ?_)
    (fun hk => (Radix.write_of_always (h.draw_host hk) v).2) (h.wf p hp _) (h.above p hp g hg)
    (fun _ _ => rfl) (h.content p hp g hg)
  · rw [Radix.lookup_write_of_fail hfail]
    split
    · rename_i heq
      rw [heq]
      rfl
    · rfl
  · rw [Radix.countP_write_of_fail hc hfail]

/-- Copying into a held frame. -/
theorem copyPage (h : Inv ok ram swp s) (src : Dev) (f : Nat) {dst : Dev} {o : Nat}
    (ho : o ∈ held ram swp dst) :
    Inv ok ram swp (s.setStorage dst (Mem.copyPage (s.storage src) f (s.storage dst) o)) := by
  refine h.setFrame (x := o) (fun a ha => ?_) fun q hq g => h.not_owns_of_held ho hq
  simp only [Mem.copyPage, if_neg ha]

/-- A victim is swapped out: its frame, held from now on, for a held frame
of the swap that has its bytes. -/
theorem evict {f o : Nat} (h : Inv ok ram (o :: swp) s) (hp : p ∈ s.runningList)
    (hg : g < userPgns) (hf : f < 2 ^ 40) (hpte : s.pte p g = presentPte f)
    (hcopy : ∀ off < pageSz,
      s.storage .mswp (o * pageSz + off) = s.storage .mram (f * pageSz + off))
    (hset : pteSetSwap s p g activeMswpId o = (true, t)) : Inv ok (f :: ram) swp t := by
  have ho : o < 2 ^ 40 := by
    have hlt := h.lt_of_held (d := .mswp) (x := o) (List.mem_cons_self ..)
    have := (h.usable .mswp).numfp_lt
    omega
  refine h.pteSetEntry_true hp hg hset (.swapped ho) (fun hsbrk => ?_) (fun d x => ?_)
    (fun off hoff e he => ?_)
  · have hzero := h.above p hp g hg hsbrk
    rw [hpte] at hzero
    simp [presentPte] at hzero
  · rw [owns_swappedPte ho, hpte, owns_presentPte hf]
    cases d <;> simp [held, List.count_cons]
  · have hbyte := h.content p hp g hg off hoff e he
    rw [hpte, Sys.pteByte_presentPte _ hf] at hbyte
    rw [Sys.pteByte_swappedPte _ ho, hcopy off hoff, hbyte]

theorem victimSought {o : Nat} {rest : List Nat} {fifo : Pid → List Nat} (h : Inv ok ram swp s)
    (hfree : s.freeFpList .mswp = o :: rest) (hsub : ∀ q, ∀ g ∈ fifo q, g ∈ s.fifoPgn q) :
    Inv ok ram (o :: swp) (Mem.victimSought s rest fifo s.storage) := by
  have hget : memphyGetFreefp s .mswp =
      some (o, { s with freeFpList := Function.update s.freeFpList .mswp rest }) := by
    rw [memphyGetFreefp, hfree]
  have h₁ := h.getFreefp_mswp hget
  exact h₁.setFifo fun q hq g hg => h₁.fifo q hq g (hsub q g hg)

/-- The page of the victim can be copied into the swap frame. -/
theorem copyOut {o v : Nat} {rest : List Nat} {fifo : Pid → List Nat} (h : Inv ok ram swp s)
    (hp : p ∈ s.runningList) (hfree : s.freeFpList .mswp = o :: rest)
    (hsub : ∀ q, ∀ g ∈ fifo q, g ∈ s.fifoPgn q) (hvic : IsVictim s p q g v) :
    q ∈ s.runningList ∧ g < userPgns ∧ s.pte q g = presentPte (pteFpn v) ∧ pteFpn v < 2 ^ 40 ∧
      swapCpPage (Mem.victimSought s rest fifo s.storage) .mram (pteFpn v) .mswp o =
        (true, (Mem.victimSought s rest fifo s.storage).setStorage .mswp
          (Mem.copyPage (s.storage .mram) (pteFpn v) (s.storage .mswp) o)) ∧
      Inv ok ram (o :: swp) ((Mem.victimSought s rest fifo s.storage).setStorage .mswp
        (Mem.copyPage (s.storage .mram) (pteFpn v) (s.storage .mswp) o)) := by
  have hq : q ∈ s.runningList := hvic.proc.elim (fun heq => heq ▸ hp) id
  have hg := h.fifo q hq g hvic.listed
  have hpte : s.pte q g = v := by
    rw [← hvic.entry, pteGetEntry_user hg]
    rfl
  obtain ⟨heq, hf⟩ := (hpte ▸ h.wf q hq (pgnPath g) : WfPte v).eq_present hvic.present
  have hown : owns .mram (pteFpn v) (s.pte q g) = true := by
    rw [hpte]
    simp [owns, hvic.present]
  have h₂ := h.victimSought hfree hsub
  have hheld : o ∈ held ram (o :: swp) .mswp := List.mem_cons_self ..
  refine ⟨hq, hg, hpte.trans heq, hf, ?_, h₂.copyPage .mram (pteFpn v) hheld⟩
  exact swapCpPage_frames (by decide) (h₂.usable .mram) (h₂.usable .mswp) (h.of_owns hq hown).1
    (h₂.lt_of_held hheld)

theorem swapOutVictimPage (h : Inv ok ram swp s) (hp : p ∈ s.runningList) :
    match Mem.swapOutVictimPage s p with
    | (none, t) => Inv ok ram swp t
    | (some f, t) => Inv ok (f :: ram) swp t := by
  generalize hr : Mem.swapOutVictimPage s p = r
  cases swapOutVictimPage_cases hr with
  | full => exact h
  | noVictim o rest fifo hfree hsub => exact (h.victimSought hfree hsub).putFreefp_mswp
  | noCopy o rest fifo q g v st hfree hsub hvic hcopy =>
      obtain ⟨-, -, -, -, hcp, -⟩ := h.copyOut hp hfree hsub hvic
      rw [hcp] at hcopy
      cases hcopy
  | noEntry o rest fifo q g v st t hfree hsub hvic hcopy hset =>
      obtain ⟨hq, hg, -, -, hcp, hinv⟩ := h.copyOut hp hfree hsub hvic
      rw [hcp] at hcopy
      rw [← (Prod.mk.inj hcopy).2] at hset
      exact (hinv.pteSetEntry_false hq hg hset).putFreefp_mswp
  | evicted o rest fifo q g v st t hfree hsub hvic hcopy hset =>
      obtain ⟨hq, hg, hpte, hf, hcp, hinv⟩ := h.copyOut hp hfree hsub hvic
      rw [hcp] at hcopy
      rw [← (Prod.mk.inj hcopy).2] at hset
      exact hinv.evict hq hg hf hpte (fun off hoff => copyPage_self _ _ _ _ hoff) hset

end Inv

end Ossim.Mem
