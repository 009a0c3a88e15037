import Ossim.Mem.Fault

/-!
Which page an eviction takes, and when there is one.

A search for a victim goes through the page list of the caller, then
through those of the other processes in the order of the running list, and
in each list from the tail. It comes back empty only if no list has a
present page. The copy to the swap and the change of the entry cannot fail,
so an eviction fails only for want of a free swap frame or of a victim.
-/

namespace Ossim.Mem

open Ossim.Lib

/-! ### When there is a victim -/

/-- The page list of the process has a page that can be evicted. -/
def HasVictim (s : Sys) (q : Pid) : Prop :=
  ∃ g ∈ s.fifoPgn q, pagePresent (pteGetEntry s q g) = true ∧
    pageSwapped (pteGetEntry s q g) = false

theorem HasVictim.of_fifo {s : Sys} {q : Pid} {fifo : Pid → List Nat}
    (hsub : ∀ g ∈ fifo q, g ∈ s.fifoPgn q) (h : HasVictim { s with fifoPgn := fifo } q) :
    HasVictim s q := by
  obtain ⟨g, hg, hpte⟩ := h
  exact ⟨g, hsub g hg, hpte⟩

theorem findPresentVictim_isSome {p : Pid} {n : Nat} {s : Sys}
    (hn : (s.fifoPgn p).length ≤ n) :
    (findPresentVictim p n s).1.isSome = true ↔ HasVictim s p := by
  induction n generalizing s with
  | zero =>
      have hnil := List.length_eq_zero_iff.mp (Nat.le_zero.mp hn)
      refine ⟨fun h => (by cases h), ?_⟩
      rintro ⟨g, hg, -⟩
      rw [hnil] at hg
      cases hg
  | succ n ih =>
      rw [findPresentVictim, findVictimPage]
      cases hlast : (s.fifoPgn p).getLast? with
      | none =>
          refine ⟨fun h => (by cases h), ?_⟩
          rintro ⟨g, hg, -⟩
          rw [List.getLast?_eq_none_iff.mp hlast] at hg
          cases hg
      | some vicpgn =>
          dsimp only
          split
          · rename_i hpres
            simp only [Bool.and_eq_true, Bool.not_eq_true'] at hpres
            exact ⟨fun _ => ⟨vicpgn, List.mem_of_getLast? hlast, hpres⟩, fun _ => rfl⟩
          · rename_i hpres
            simp only [Bool.and_eq_true, Bool.not_eq_true'] at hpres
            rw [ih (by simp only [Function.update_self, List.length_dropLast]; omega)]
            constructor
            · refine HasVictim.of_fifo fun g hg => ?_
              rw [Function.update_self] at hg
              exact List.mem_of_mem_dropLast hg
            · -- the tail was no victim, so the victim is before it
              rintro ⟨g, hg, hpte⟩
              refine ⟨g, ?_, hpte⟩
              simp only [Function.update_self]
              rw [← List.dropLast_append_getLast? vicpgn hlast] at hg
              rcases List.mem_append.mp hg with hg | hg
              · exact hg
              · rw [List.mem_singleton.mp hg] at hpte
                exact absurd hpte hpres

/-- A search that found nothing in one process changes nothing about the
victims of all. -/
theorem hasVictim_after {s t : Sys} {p : Pid} (ht : findPresentVictimInProc s p = (none, t))
    (q : Pid) : HasVictim t q ↔ HasVictim s q := by
  have hnone : ¬HasVictim s p := by
    rw [← findPresentVictim_isSome (Nat.le_refl _), ← findPresentVictimInProc, ht]
    exact Bool.false_ne_true
  obtain ⟨fifo, hfifo, hsub, -⟩ := findPresentVictim_spec p (s.fifoPgn p).length s
  rw [← findPresentVictimInProc, ht] at hfifo
  simp only at hfifo
  subst hfifo
  rcases eq_or_ne q p with rfl | hq
  · refine ⟨HasVictim.of_fifo fun g hg => ?_, fun h => absurd h hnone⟩
    rw [Function.update_self] at hg
    exact hsub g hg
  · simp only [HasVictim, Function.update_of_ne hq]
    rfl

theorem findVictimAmong_isSome (caller : Pid) (l : List Pid) (s : Sys) :
    (findVictimAmong caller l s).1.isSome = true ↔ ∃ q ∈ l, q ≠ caller ∧ HasVictim s q := by
  induction l generalizing s with
  | nil =>
      refine ⟨fun h => (by cases h), ?_⟩
      rintro ⟨q, hq, -⟩
      cases hq
  | cons q l ih =>
      rw [findVictimAmong]
      split
      · rename_i heq
        rw [ih]
        constructor
        · rintro ⟨q', hq', hvic⟩
          exact ⟨q', List.mem_cons_of_mem q hq', hvic⟩
        · rintro ⟨q', hq', hne, hvic⟩
          refine ⟨q', (List.mem_cons.mp hq').resolve_left fun hqq => hne ?_, hne, hvic⟩
          rw [hqq, heq]
      · rename_i hne
        have hself := findPresentVictim_isSome (p := q) (Nat.le_refl (s.fifoPgn q).length)
        rw [← findPresentVictimInProc] at hself
        split
        · rename_i vic t ht
          rw [ht] at hself
          exact ⟨fun _ => ⟨q, List.mem_cons_self .., hne, hself.mp rfl⟩, fun _ => rfl⟩
        · rename_i t ht
          rw [ih]
          simp only [hasVictim_after ht]
          rw [ht] at hself
          constructor
          · rintro ⟨q', hq', hvic⟩
            exact ⟨q', List.mem_cons_of_mem q hq', hvic⟩
          · rintro ⟨q', hq', hne', hvic⟩
            refine ⟨q', (List.mem_cons.mp hq').resolve_left fun hqq => ?_, hne', hvic⟩
            rw [hqq] at hvic
            cases hself.mpr hvic

theorem findGlobalVictim_isSome {s : Sys} {caller : Pid} (hcaller : caller ∈ s.runningList) :
    (findGlobalVictim s caller).1.isSome = true ↔ ∃ q ∈ s.runningList, HasVictim s q := by
  have hself := findPresentVictim_isSome (p := caller) (Nat.le_refl (s.fifoPgn caller).length)
  rw [← findPresentVictimInProc] at hself
  rw [findGlobalVictim]
  split
  · rename_i vic t ht
    rw [ht] at hself
    exact ⟨fun _ => ⟨caller, hcaller, hself.mp rfl⟩, fun _ => rfl⟩
  · rename_i t ht
    obtain ⟨fifo, hfifo, -⟩ := findPresentVictim_spec caller (s.fifoPgn caller).length s
    rw [← findPresentVictimInProc, ht] at hfifo
    simp only at hfifo
    have hrun : t.runningList = s.runningList := by rw [hfifo]
    rw [findVictimAmong_isSome, hrun]
    simp only [hasVictim_after ht]
    rw [ht] at hself
    constructor
    · rintro ⟨q, hq, -, hvic⟩
      exact ⟨q, hq, hvic⟩
    · rintro ⟨q, hq, hvic⟩
      refine ⟨q, hq, fun hqc => ?_, hvic⟩
      rw [hqc] at hvic
      cases hself.mpr hvic

/-! ### The state after an eviction -/

/-- Page `g` of process `q` moves from frame `f` to frame `o` of the
swap. -/
def evicted (s : Sys) (q : Pid) (g f o : Nat) : Sys :=
  { s.setStorage .mswp (copyPage (s.storage .mram) f (s.storage .mswp) o) with
    pgd := Function.update s.pgd q ((s.pgd q).set (pgnPath g) (swappedPte activeMswpId o)) }

/-- The state in which `swap_out_victim_page` looks for a victim. -/
def Sys.setSwapFree (s : Sys) (rest : List Nat) : Sys :=
  { s with freeFpList := Function.update s.freeFpList .mswp rest }

/-- An entry whose tables exist can be written. -/
theorem pteSetEntry_of_has {s : Sys} {p : Pid} {g v : Nat} (hg : g < userPgns)
    (hhas : (s.pgd p).has (pgnPath g)) :
    pteSetEntry s p g v =
      (true, { s with pgd := Function.update s.pgd p ((s.pgd p).set (pgnPath g) v) }) := by
  rw [pteSetEntry_user hg]
  simp only [Radix.write_of_has hhas]

theorem has_of_pte_ne_zero {s : Sys} {p : Pid} {g : Nat} (h : s.pte p g ≠ 0) :
    (s.pgd p).has (pgnPath g) := by
  by_contra hnot
  exact h (Radix.lookup_of_not_has (by simpa using hnot))

theorem presentPte_ne_zero (f : Nat) : presentPte f ≠ 0 := by simp [presentPte]

/-- An eviction that finds a victim, with a swap frame to put it in. -/
theorem swapOutVictimPage_found {s t : Sys} {p q : Pid} {g o v : Nat} {rest : List Nat}
    (husable : ∀ d, s.Usable d) (hfree : s.freeFpList .mswp = o :: rest)
    (hvic : findGlobalVictim (s.setSwapFree rest) p = (some (q, g, v), t))
    (hf : pteFpn v < numfp (s.maxsz .mram)) (ho : o < numfp (s.maxsz .mswp)) (hg : g < userPgns)
    (hpte : s.pte q g ≠ 0) :
    swapOutVictimPage s p = (some (pteFpn v), evicted t q g (pteFpn v) o) := by
  obtain ⟨fifo, ht, -⟩ := findGlobalVictim_spec (s.setSwapFree rest) p
  rw [hvic] at ht
  dsimp only at ht
  subst ht
  have hget : memphyGetFreefp s .mswp = some (o, s.setSwapFree rest) := by
    rw [memphyGetFreefp, hfree]
    rfl
  have hcp := swapCpPage_frames (s := { s.setSwapFree rest with fifoPgn := fifo })
    (show Dev.mram ≠ Dev.mswp by decide) (husable .mram) (husable .mswp) hf ho
  rw [swapOutVictimPage, hget]
  dsimp only
  rw [hvic]
  dsimp only
  rw [hcp]
  dsimp only
  rw [pteSetSwap, pteSetEntry_of_has hg (by exact has_of_pte_ne_zero hpte)]
  rfl

namespace Inv

variable {ok : Prop} {ram swp : List Nat} {s t : Sys} {p q : Pid} {g : Nat}

/-- What is known of a victim. -/
theorem of_victim (h : Inv ok ram swp s) (hp : p ∈ s.runningList) {v : Nat} {rest : List Nat}
    (hvic : findGlobalVictim (s.setSwapFree rest) p = (some (q, g, v), t)) :
    q ∈ s.runningList ∧ g < userPgns ∧ g ∈ s.fifoPgn q ∧ s.pte q g = v ∧
      v = presentPte (pteFpn v) ∧ pteFpn v < 2 ^ 40 ∧
      ∃ fifo, t = { s.setSwapFree rest with fifoPgn := fifo } := by
  obtain ⟨fifo, ht, -, hfound⟩ := findGlobalVictim_spec (s.setSwapFree rest) p
  rw [hvic] at ht hfound
  obtain ⟨hq, hg, hv, hpres, -⟩ := hfound q g v rfl
  have hq : q ∈ s.runningList := hq.elim (fun heq => heq ▸ hp) id
  have hlt := h.fifo q hq g hg
  have hpte : s.pte q g = v := by
    rw [hv, pteGetEntry_user hlt]
    rfl
  obtain ⟨heq, hf⟩ := (hpte ▸ h.wf q hq (pgnPath g) : WfPte v).eq_present hpres
  exact ⟨hq, hlt, hg, hpte, heq, hf, fifo, ht⟩

/-- With a free swap frame and a victim, an eviction succeeds. -/
theorem swapOut_found (h : Inv ok ram swp s) (hp : p ∈ s.runningList) {o v : Nat}
    {rest : List Nat} (hfree : s.freeFpList .mswp = o :: rest)
    (hvic : findGlobalVictim (s.setSwapFree rest) p = (some (q, g, v), t)) :
    Mem.swapOutVictimPage s p = (some (pteFpn v), evicted t q g (pteFpn v) o) := by
  obtain ⟨hq, hlt, -, hpte, heq, hf, -⟩ := h.of_victim hp hvic
  have hget : memphyGetFreefp s .mswp = some (o, s.setSwapFree rest) := by
    rw [memphyGetFreefp, hfree]
    rfl
  have hown : owns .mram (pteFpn v) (s.pte q g) = true := by
    rw [hpte, heq, pteFpn_presentPte hf, owns_presentPte hf]
    simp
  refine swapOutVictimPage_found h.usable hfree hvic (h.of_owns hq hown).1
    ((h.getFreefp_mswp hget).lt_of_held (d := .mswp) (List.mem_cons_self ..)) hlt ?_
  rw [hpte, heq]
  exact presentPte_ne_zero _

theorem swapOut_isSome (h : Inv ok ram swp s) (hp : p ∈ s.runningList) :
    (Mem.swapOutVictimPage s p).1.isSome = true ↔
      s.freeFpList .mswp ≠ [] ∧ ∃ q ∈ s.runningList, HasVictim s q := by
  cases hfree : s.freeFpList .mswp with
  | nil =>
      rw [Mem.swapOutVictimPage, memphyGetFreefp, hfree]
      exact ⟨fun hsome => (by cases hsome), fun hand => absurd rfl hand.1⟩
  | cons o rest =>
      have hiff := findGlobalVictim_isSome (s := s.setSwapFree rest) hp
      change _ ↔ ∃ q ∈ s.runningList, HasVictim s q at hiff
      rw [← hiff]
      cases hvic : findGlobalVictim (s.setSwapFree rest) p with
      | mk vic t =>
          cases vic with
          | none =>
              have hnone : (Mem.swapOutVictimPage s p).1 = none := by
                have hget : memphyGetFreefp s .mswp = some (o, s.setSwapFree rest) := by
                  rw [memphyGetFreefp, hfree]
                  rfl
                rw [Mem.swapOutVictimPage, hget]
                dsimp only
                rw [hvic]
              rw [hnone]
              exact ⟨fun hsome => (by cases hsome), fun hand => (by cases hand.2)⟩
          | some vic =>
              obtain ⟨q, g, v⟩ := vic
              rw [h.swapOut_found hp hfree hvic]
              exact ⟨fun _ => ⟨List.cons_ne_nil _ _, rfl⟩, fun _ => rfl⟩

/-- One page for a growth when the RAM is full. -/
theorem allocPagesRange_one (h : Inv ok ram swp s) (hp : p ∈ s.runningList) {o v : Nat}
    {rest : List Nat} (hram : s.freeFpList .mram = []) (hfree : s.freeFpList .mswp = o :: rest)
    (hvic : findGlobalVictim (s.setSwapFree rest) p = (some (q, g, v), t))
    (hhost : s.host 0 = true) :
    Mem.allocPagesRange s p 1 =
      (0, [pteFpn v], { evicted t q g (pteFpn v) o with host := (draw s.host).2 }) := by
  obtain ⟨-, -, -, -, -, -, fifo, ht⟩ := h.of_victim hp hvic
  have hdraw : draw (evicted t q g (pteFpn v) o).host = (true, (draw s.host).2) := by
    rw [ht, draw, ← hhost]
    rfl
  rw [Mem.allocPagesRange, if_neg (by decide)]
  change Mem.allocPages p 1 [] s = _
  rw [Mem.allocPages, Mem.getFrame, memphyGetFreefp, hram]
  dsimp only
  rw [h.swapOut_found hp hfree hvic]
  dsimp only
  rw [hdraw]
  rfl

end Inv

/-- A growth whose frames can be had and mapped. -/
theorem grown_of_frames {s e : Sys} {p : Pid} {inc : Nat} {junk : VmRg} {frames : List Nat}
    (halloc : allocPagesRange (breakMoved s p inc) p (incNumPage inc) = (0, frames, e))
    (hmap : (vmapPageRange e p (s.mmap p).sbrk (incNumPage inc) frames junk).1 ≠ errFail) :
    ¬GrowthFails s p inc junk ∧ grown s p inc junk =
      let r := vmapPageRange e p (s.mmap p).sbrk (incNumPage inc) frames junk
      r.2.2.setMmap p { r.2.2.mmap p with
        vmFreergList := enlistVmRgNode (r.2.2.mmap p).vmFreergList r.2.1 } := by
  constructor
  · rw [GrowthFails, halloc]
    simpa using hmap
  · rw [grown, vmMapRam, halloc]
    dsimp only
    rw [if_neg (by omega), if_neg (by decide), if_neg hmap]

end Ossim.Mem
