import Ossim.Mem.Fifo

/-!
Pages in the page lists are mapped.

A page enters the list of its process after its entry was written, and an
entry of a listed page is only ever overwritten by another one that is not
zero. This needs no help from the host: where `enlist_pgn_node` fails, the
page that loses its entry again never was in the list.
-/

namespace Ossim.Mem

open Ossim.Lib

/-- Every page in the list of a live process has an entry. -/
def FifoMapped (s : Sys) : Prop := ∀ p ∈ s.runningList, ∀ g ∈ s.fifoPgn p, s.pte p g ≠ 0

/-- Entries stay, and pages that enter a list have one. -/
structure KeepsListed (s t : Sys) : Prop where
  entries : ∀ p path, (s.pgd p).lookup 0 path ≠ 0 → (t.pgd p).lookup 0 path ≠ 0
  lists : ∀ p, ∀ g ∈ t.fifoPgn p, g ∈ s.fifoPgn p ∨ t.pte p g ≠ 0

theorem swappedPte_ne_zero (o : Nat) : swappedPte activeMswpId o ≠ 0 := by simp [swappedPte]

theorem ne_zero_of_pageSwapped {v : Nat} (h : pageSwapped v = true) : v ≠ 0 := by
  rintro rfl
  cases h

theorem fifo_pteSetEntry (s : Sys) (p : Pid) (g v : Nat) :
    (pteSetEntry s p g v).2.fifoPgn = s.fifoPgn := by
  rw [pteSetEntry]
  split
  · rfl
  · dsimp only
    rw [Sys.setRoot]
    split <;> rfl

/-- A write that fails changes no entry. -/
theorem lookup_pteSetEntry_of_fail {s t : Sys} {p : Pid} {g v : Nat} (hg : g < userPgns)
    (hset : pteSetEntry s p g v = (false, t)) (q : Pid) (path : RadixPath 512 4) :
    (t.pgd q).lookup 0 path = (s.pgd q).lookup 0 path := by
  rw [pteSetEntry_user hg] at hset
  simp only [Prod.mk.injEq] at hset
  obtain ⟨hfail, rfl⟩ := hset
  rcases eq_or_ne q p with rfl | hq
  · simp only [Function.update_self, Radix.lookup_write_of_fail hfail]
  · simp only [Function.update_of_ne hq]

/-- An eviction searches the page lists and adds nothing to them. -/
theorem fifo_swapOutVictimPage (s : Sys) (p q : Pid) :
    ∀ g ∈ (swapOutVictimPage s p).2.fifoPgn q, g ∈ s.fifoPgn q := by
  intro g
  generalize hr : swapOutVictimPage s p = r
  cases swapOutVictimPage_cases hr with
  | full => exact id
  | noVictim o rest fifo _ hsub =>
      rw [fifo_memphyPutFreefp]
      exact hsub q g
  | noCopy o rest fifo q' g' v st _ hsub =>
      rw [fifo_memphyPutFreefp]
      exact hsub q g
  | noEntry o rest fifo q' g' v st t _ hsub _ _ hset =>
      have hfifo := fifo_pteSetEntry (victimSought s rest fifo st) q' g' (swappedPte activeMswpId o)
      rw [hset] at hfifo
      rw [fifo_memphyPutFreefp, hfifo]
      exact hsub q g
  | evicted o rest fifo q' g' v st t _ hsub _ _ hset =>
      have hfifo := fifo_pteSetEntry (victimSought s rest fifo st) q' g' (swappedPte activeMswpId o)
      rw [hset] at hfifo
      rw [hfifo]
      exact hsub q g

/-- A page fault adds the page to the list of its process, if to any. -/
theorem fifo_pgGetpage {s : Sys} {p q : Pid} {g g' : Nat}
    (hg' : g' ∈ (pgGetpage s p g).2.fifoPgn q) :
    g' ∈ s.fifoPgn q ∨ q = p ∧ g' = g ∧ pagePresent (pteGetEntry s p g) = false ∧
      pageSwapped (pteGetEntry s p g) = true := by
  have hsub := fifo_swapOutVictimPage s p q
  generalize hr : pgGetpage s p g = r at hg'
  cases pgGetpage_cases hr with
  | present => exact .inl hg'
  | absent => exact .inl hg'
  | noFrame t _ _ hout =>
      rw [hout] at hsub
      exact .inl (hsub g' hg')
  | noCopy f t st _ _ hout =>
      rw [hout] at hsub
      exact .inl (hsub g' hg')
  | back f t st u hpres hswap hout _ hu =>
      rw [hout] at hsub
      rw [hu, broughtIn] at hg'
      have hmem : g' ∈ t.fifoPgn q ∨ q = p ∧ g' = g := by
        rw [enlistPgnNode] at hg'
        split at hg'
        · dsimp only at hg'
          rw [pteSetFpn, fifo_pteSetEntry, fifo_memphyPutFreefp] at hg'
          rcases eq_or_ne q p with rfl | hne
          · rw [Function.update_self] at hg'
            exact (List.mem_cons.mp hg').elim (fun heq => .inr ⟨rfl, heq⟩) .inl
          · rw [Function.update_of_ne hne] at hg'
            exact .inl hg'
        · dsimp only at hg'
          rw [pteSetFpn, fifo_pteSetEntry, fifo_memphyPutFreefp] at hg'
          exact .inl hg'
      rcases hmem with hmem | ⟨rfl, rfl⟩
      · exact .inl (hsub g' hmem)
      · exact .inr ⟨rfl, rfl, hpres, hswap⟩

namespace KeepsListed

variable {s t u : Sys} {p q : Pid} {g : Nat}

theorem trans (h : KeepsListed s t) (h' : KeepsListed t u) : KeepsListed s u where
  entries p path hpte := h'.entries p path (h.entries p path hpte)
  lists p g hg := by
    rcases h'.lists p g hg with hmem | hpte
    · exact (h.lists p g hmem).imp_right (h'.entries p _)
    · exact .inr hpte

/-- Nothing is added to a list. -/
theorem of_evicts (h : Evicts s t) (hfifo : ∀ q, ∀ g ∈ t.fifoPgn q, g ∈ s.fifoPgn q) :
    KeepsListed s t where
  entries p path hpte := by
    rcases h p path with heq | ⟨-, -, o, heq⟩
    · rw [heq]
      exact hpte
    · rw [heq]
      exact swappedPte_ne_zero o
  lists p g hg := .inl (hfifo p g hg)

theorem of_eq (hpgd : t.pgd = s.pgd) (hfifo : t.fifoPgn = s.fifoPgn) : KeepsListed s t :=
  of_evicts (.of_pgd_eq hpgd) fun _ _ hg => hfifo ▸ hg

theorem refl (s : Sys) : KeepsListed s s := of_eq rfl rfl

theorem samePages (h : SamePages s t) : KeepsListed s t := of_eq h.pgd h.fifoPgn

theorem releaseFrameList (h : KeepsListed s t) (frames : List Nat) :
    KeepsListed s (Mem.releaseFrameList t frames) :=
  h.trans (of_eq (pgd_releaseFrameList ..) (fifo_releaseFrameList ..))

theorem swapOutVictimPage (s : Sys) (p : Pid) : KeepsListed s (Mem.swapOutVictimPage s p).2 :=
  of_evicts (evicts_swapOutVictimPage s p) (fifo_swapOutVictimPage s p)

/-- A page with an entry is listed. -/
theorem enlistPgnNode (h : s.pte p g ≠ 0) : KeepsListed s (Mem.enlistPgnNode s p g).2 where
  entries q path hpte := by
    rw [pgd_enlistPgnNode]
    exact hpte
  lists q g' hg' := by
    rw [Sys.pte, pgd_enlistPgnNode]
    rw [Mem.enlistPgnNode] at hg'
    split at hg'
    · rcases eq_or_ne q p with rfl | hne
      · simp only [Function.update_self] at hg'
        rcases List.mem_cons.mp hg' with rfl | hg'
        · exact .inr h
        · exact .inl hg'
      · simp only [Function.update_of_ne hne] at hg'
        exact .inl hg'
    · exact .inl hg'

/-! ### Growth -/

theorem allocPages (p : Pid) (n : Nat) (frames : List Nat) (s : Sys) :
    KeepsListed s (Mem.allocPages p n frames s).2.2 := by
  induction n generalizing frames s with
  | zero => exact refl s
  | succ n ih =>
      have hframe : KeepsListed s (getFrame s p).2 := by
        rw [getFrame]
        split
        · rename_i f t hget
          obtain ⟨rest, -, rfl⟩ := memphyGetFreefp_eq_some hget
          exact of_eq rfl rfl
        · exact swapOutVictimPage s p
      rw [Mem.allocPages]
      generalize getFrame s p = r at hframe
      obtain ⟨_ | f, t⟩ := r
      · exact hframe.releaseFrameList frames
      · dsimp only
        split
        · rename_i h hd
          have hput : KeepsListed t (memphyPutFreefp { t with host := h } .mram f) :=
            of_eq (pgd_memphyPutFreefp ..) (fifo_memphyPutFreefp ..)
          exact (hframe.trans hput).releaseFrameList frames
        · rename_i h hd
          have hdraw : KeepsListed t { t with host := h } := of_eq rfl rfl
          exact hframe.trans (hdraw.trans (ih (frames ++ [f]) { t with host := h }))

theorem mapFrames (p : Pid) {pgn left pgit : Nat} (frames : List Nat) {s : Sys}
    (hlt : pgn + pgit + left ≤ userPgns)
    (hzero : ∀ k, pgit ≤ k → k < pgit + left → s.pte p (pgn + k) = 0) :
    KeepsListed s (Mem.mapFrames p pgn left pgit frames s).2.2 := by
  induction left generalizing pgit frames s with
  | zero => exact refl s
  | succ left ih =>
      cases frames with
      | nil => exact refl s
      | cons f next =>
          have hg : pgn + pgit < userPgns := by omega
          have hz := hzero pgit (Nat.le_refl _) (by omega)
          have hfifo := fifo_pteSetEntry s p (pgn + pgit) (presentPte f)
          rw [Mem.mapFrames]
          split
          · rename_i t ht
            rw [← pteSetFpn, ht] at hfifo
            have hkeep : KeepsListed s t := of_evicts
              (fun q path => .inl (lookup_pteSetEntry_of_fail hg ht q path))
              fun _ _ hg => hfifo ▸ hg
            exact hkeep.releaseFrameList _
          · rename_i t ht
            rw [← pteSetFpn, ht] at hfifo
            have hlookup := lookup_pteSetEntry hg ht
            split
            · rename_i u hu
              -- the entry is cleared again, and was zero before
              obtain ⟨host, rfl⟩ : ∃ host, { t with host := host } = u := by
                rw [Mem.enlistPgnNode] at hu
                split at hu
                · cases hu
                · cases hu
                  exact ⟨_, rfl⟩
              have hagain := pteSetEntry_again hg ht host t.fifoPgn 0
              have hclear := lookup_pteSetEntry (s := { t with host := host }) (p := p) (v := 0) hg
                (Prod.ext hagain rfl)
              refine releaseFrameList (of_evicts (fun q path => .inl ?_) fun q g' hg' => ?_) next
              · rw [pgd_memphyPutFreefp, hclear]
                dsimp only
                rw [hlookup]
                split
                · rename_i heq
                  rw [heq.1, heq.2]
                  exact hz.symm
                · rfl
              · rw [fifo_memphyPutFreefp, fifo_pteSetEntry] at hg'
                exact hfifo ▸ hg'
            · rename_i u hu
              have hself : t.pte p (pgn + pgit) = presentPte f := by
                rw [Sys.pte, hlookup, if_pos ⟨rfl, rfl⟩]
              have hset : KeepsListed s t := by
                refine ⟨fun q path hpte => ?_, fun q g' hg' => .inl (hfifo ▸ hg')⟩
                rw [hlookup]
                split
                · exact presentPte_ne_zero f
                · exact hpte
              have hlist := enlistPgnNode (hself ▸ presentPte_ne_zero f)
              have hpgd := pgd_enlistPgnNode t p (pgn + pgit)
              rw [hu] at hlist hpgd
              refine hset.trans (hlist.trans (ih next (by omega) fun k hk hk' => ?_))
              have hne : pgnPath (pgn + k) ≠ pgnPath (pgn + pgit) := fun heq => by
                have := pgnPath_inj (by omega) hg heq
                omega
              rw [Sys.pte, hpgd, hlookup, if_neg fun heq => hne heq.2]
              exact hzero k (by omega) (by omega)

theorem vmapPageRange {addr : Nat} {n : Int} (frames : List Nat) (rg : VmRg)
    (hnew : Inv.NewPages s p addr n.toNat) :
    KeepsListed s (Mem.vmapPageRange s p addr n frames rg).2.2 := by
  obtain ⟨halign, hend, hsbrk, hzero⟩ := hnew
  have hlt : addr / 2 ^ 12 + 0 + n.toNat ≤ userPgns := by
    simp only [pageSz, userPgns] at *
    omega
  have hlookup := (walkPages_spec p (addr / 2 ^ 12) n.toNat 0 s).2
  have hfifo := fifo_walkPages p (addr / 2 ^ 12) n.toNat 0 s
  rw [Mem.vmapPageRange]
  dsimp only
  split
  · exact (refl s).releaseFrameList frames
  · generalize walkPages p (addr / 2 ^ 12) n.toNat 0 s = r at hlookup hfifo
    obtain ⟨found, t⟩ := r
    have hwalk : KeepsListed s t :=
      of_evicts (fun q path => .inl (hlookup q path)) fun _ _ hg => hfifo ▸ hg
    cases found with
    | false => exact hwalk.releaseFrameList frames
    | true =>
        refine hwalk.trans (mapFrames p frames hlt fun k hk hk' => ?_)
        rw [Sys.pte, hlookup]
        refine hzero _ (by omega) ?_
        simp only [pageSz] at *
        omega

theorem vmMapRam {addr : Nat} {n : Int} (rg : VmRg) (hnew : Inv.NewPages s p addr n.toNat) :
    KeepsListed s (Mem.vmMapRam s p addr n rg).2.2 := by
  obtain ⟨hmeta, hevicts, -⟩ := allocPagesRange_spec s p n
  have halloc : KeepsListed s (Mem.allocPagesRange s p n).2.2 := by
    rw [Mem.allocPagesRange]
    split
    · exact refl s
    · exact allocPages ..
  rw [Mem.vmMapRam]
  generalize Mem.allocPagesRange s p n = r at hmeta hevicts halloc ⊢
  obtain ⟨code, frames, t⟩ := r
  have hnew' : Inv.NewPages t p addr n.toNat := hnew.of_evicts hmeta hevicts
  have hvmap := halloc.trans (vmapPageRange frames rg hnew')
  dsimp only at halloc ⊢
  split
  · exact halloc
  · split
    · exact halloc
    · split <;> exact hvmap

theorem incVmaLimit {ok : Prop} {ram swp : List Nat} {vmaid : Int} {inc : Nat} {junk : VmRg}
    {ret : Int} (hinv : Inv ok ram swp s) (hp : p ∈ s.runningList)
    (hgrow : Mem.incVmaLimit s p vmaid inc junk = some (ret, t))
    (hlow : (t.mmap p).sbrk ≤ 2 ^ 56) : KeepsListed s t := by
  obtain ⟨-, rfl⟩ | ⟨href, -, rfl⟩ := incVmaLimit_cases hgrow
  · exact of_eq rfl rfl
  · rw [sbrk_grown] at hlow
    have hmoved : KeepsListed s (breakMoved s p inc) := of_eq rfl rfl
    have hmap := vmMapRam junk (hinv.breakMoved hp href hlow).2
    exact (hmoved.trans hmap).trans (of_eq rfl rfl)

theorem getFreeVmrgArea (s : Sys) (p : Pid) (size : Int) :
    KeepsListed s (Mem.getFreeVmrgArea s p size).2 := by
  rw [Mem.getFreeVmrgArea]
  split
  · exact refl s
  · dsimp only
    split <;> exact of_eq rfl rfl

theorem alloc {ok : Prop} {ram swp : List Nat} {rgid size : Nat} {junk : VmRg} {ret : Int}
    (hinv : Inv ok ram swp s) (halloc : Mem.alloc s p rgid size junk = some (ret, t))
    (hlow : (t.mmap p).sbrk ≤ 2 ^ 56) : KeepsListed s t := by
  rw [Mem.alloc] at halloc
  split at halloc
  · cases halloc
    exact refl s
  · have hget := getFreeVmrgArea s p (toInt size)
    have hinv₁ := hinv.getFreeVmrgArea p (toInt size)
    generalize Mem.getFreeVmrgArea s p (toInt size) = r at hget hinv₁ halloc
    obtain ⟨_ | rg, s₁⟩ := r
    · dsimp only at hget hinv₁ halloc
      split at halloc
      · cases halloc
        exact hget
      · rename_i hp₁
        split at halloc
        · cases halloc
        · rename_i sret s₂ hs₂
          have hgrow (hlow₂ : (s₂.mmap p).sbrk ≤ 2 ^ 56) : KeepsListed s s₂ :=
            hget.trans (incVmaLimit hinv₁ (not_not.mp hp₁) hs₂ hlow₂)
          split at halloc
          · cases halloc
            exact hgrow hlow
          · have hsbrk := sbrk_getFreeVmrgArea s₂ p (toInt size) p
            have hagain := getFreeVmrgArea s₂ p (toInt size)
            generalize Mem.getFreeVmrgArea s₂ p (toInt size) = r at hsbrk hagain halloc
            obtain ⟨_ | rg, s₃⟩ := r
            all_goals
              cases halloc
              have hlow₂ : (s₂.mmap p).sbrk ≤ 2 ^ 56 := by
                rw [← hsbrk]
                exact hlow
            · exact (hgrow hlow₂).trans hagain
            · exact ((hgrow hlow₂).trans hagain).trans (of_eq rfl rfl)
    · cases halloc
      exact hget.trans (of_eq rfl rfl)

/-! ### Accesses -/

theorem pgGetpage (hg : g < userPgns) : KeepsListed s (Mem.pgGetpage s p g).2 := by
  have hkeeps := swapOutVictimPage s p
  generalize hr : Mem.pgGetpage s p g = r
  cases pgGetpage_cases hr with
  | present => exact refl s
  | absent => exact refl s
  | noFrame t _ _ hout =>
      rw [hout] at hkeeps
      exact hkeeps
  | noCopy f t st _ _ hout =>
      rw [hout] at hkeeps
      exact hkeeps.trans (of_eq rfl rfl)
  | back f t st u _ hswap hout _ hu =>
      rw [hout] at hkeeps
      have hne : s.pte p g ≠ 0 := by
        rw [pteGetEntry_user hg] at hswap
        exact ne_zero_of_pageSwapped hswap
      have hput : KeepsListed s
          (memphyPutFreefp { t with storage := st } .mswp (pteSwp (pteGetEntry s p g))) :=
        hkeeps.trans (of_eq (pgd_memphyPutFreefp ..) (fifo_memphyPutFreefp ..))
      rw [hu, broughtIn]
      generalize memphyPutFreefp { t with storage := st } .mswp (pteSwp (pteGetEntry s p g)) = w
        at hput
      have hset : KeepsListed w (pteSetFpn w p g f).2 := by
        refine ⟨fun q path hpte => ?_, fun q g' hg' => .inl ?_⟩
        · rcases pgd_pteSetEntry w p g (presentPte f) q path with heq | ⟨heq, -⟩
          · rw [pteSetFpn, heq]
            exact hpte
          · rw [pteSetFpn, heq]
            exact presentPte_ne_zero f
        · rw [pteSetFpn, fifo_pteSetEntry] at hg'
          exact hg'
      have hback := hput.trans hset
      exact hback.trans (enlistPgnNode (hback.entries p _ hne))

theorem pgGetval {addr : Nat} (haddr : addr < 2 ^ 56) :
    KeepsListed s (Mem.pgGetval s p addr).2 := by
  have hpage := pgGetpage (s := s) (p := p) (g := addr / 2 ^ 12) (by simp only [userPgns]; omega)
  rw [Mem.pgGetval]
  generalize Mem.pgGetpage s p (addr / 2 ^ 12) = r at hpage
  obtain ⟨_ | f, t⟩ := r <;> exact hpage

theorem pgSetval {addr : Nat} {v : Byte} {copied : Bool} (haddr : addr < 2 ^ 56) :
    KeepsListed s (Mem.pgSetval s p addr v copied).2 := by
  have hpage := pgGetpage (s := s) (p := p) (g := addr / 2 ^ 12) (by simp only [userPgns]; omega)
  rw [Mem.pgSetval]
  generalize Mem.pgGetpage s p (addr / 2 ^ 12) = r at hpage
  obtain ⟨_ | f, t⟩ := r
  · exact hpage
  · dsimp only
    split
    · exact hpage
    · rename_i u hu
      rw [memphyWrite_eq_some hu]
      exact hpage.trans (of_eq rfl rfl)

theorem read (s : Sys) (p : Pid) (rgid offset : Nat) :
    KeepsListed s (Mem.read s p rgid offset).2 := by
  rw [Mem.read]
  split
  · exact refl s
  · split
    · exact refl s
    · rename_i haddr
      exact pgGetval (userAccess_lt haddr)

theorem write (s : Sys) (p : Pid) (rgid offset : Nat) (v : Byte) :
    KeepsListed s (Mem.write s p rgid offset v).2 := by
  rw [Mem.write]
  split
  · exact refl s
  · split
    · exact refl s
    · rename_i haddr
      exact pgSetval (userAccess_lt haddr)

theorem readUserMem (s : Sys) (p : Pid) (rgid offset : Nat) :
    KeepsListed s (Mem.readUserMem s p rgid offset).2 := by
  rw [Mem.readUserMem]
  split
  · exact refl s
  · split
    · exact refl s
    · rename_i haddr
      exact pgGetval (userAccess_lt haddr)

theorem writeUserMem (s : Sys) (p : Pid) (rgid offset : Nat) (v : Byte) :
    KeepsListed s (Mem.writeUserMem s p rgid offset v).2 := by
  rw [Mem.writeUserMem]
  split
  · exact refl s
  · split
    · exact refl s
    · rename_i haddr
      exact pgSetval (userAccess_lt haddr)

theorem copyFromUser (p : Pid) (source destination offset left idx : Nat) (s : Sys) :
    KeepsListed s (Mem.copyFromUser p source destination offset left idx s).2 := by
  induction left generalizing idx s with
  | zero => exact refl s
  | succ left ih =>
      have hread := readUserMem s p source (toUint32 (offset + idx))
      rw [Mem.copyFromUser]
      generalize Mem.readUserMem s p source (toUint32 (offset + idx)) = r at hread ⊢
      obtain ⟨_ | b, t⟩ := r
      · exact hread
      · dsimp only
        split
        · exact hread
        · rename_i u hu
          obtain ⟨st, rfl⟩ := writeKernelMem_eq hu
          have hwrite : KeepsListed t { t with storage := st } := of_eq rfl rfl
          exact (hread.trans hwrite).trans (ih (idx + 1) _)

theorem copyToUser (p : Pid) (source destination offset left idx : Nat) (s : Sys) :
    KeepsListed s (Mem.copyToUser p source destination offset left idx s).2 := by
  induction left generalizing idx s with
  | zero => exact refl s
  | succ left ih =>
      rw [Mem.copyToUser]
      split
      · exact refl s
      · rename_i b _
        have hwrite := writeUserMem s p destination (toUint32 (offset + idx)) b
        generalize Mem.writeUserMem s p destination (toUint32 (offset + idx)) b = r at hwrite ⊢
        obtain ⟨_ | _, t⟩ := r
        · exact hwrite
        · exact hwrite.trans (ih (idx + 1) t)

/-! ### Instructions -/

theorem sysMemmap {ok : Prop} {ram swp : List Nat} {a1 a2 a3 a3' : Nat} {junk : VmRg} {ret : Int}
    (hinv : Inv ok ram swp s)
    (hr : Mem.sysMemmap s p a1 a2 a3 junk = some (ret, a3', t))
    (hmap : MemOp.ofInt (toInt a1) ≠ some .map) (hlow : (t.mmap p).sbrk ≤ 2 ^ 56) :
    KeepsListed s t := by
  rw [Mem.sysMemmap] at hr
  split at hr
  · cases hr
    exact refl s
  · rename_i hp
    have hp : p ∈ s.runningList := not_not.mp hp
    split at hr
    · contradiction
    · split at hr
      · cases hr
      · rename_i hgrow
        cases hr
        exact incVmaLimit hinv hp hgrow hlow
    · obtain ⟨st, hst⟩ := swapCpPage_eq s .mram (toUint32 a2) .mswp (toUint32 a3)
      generalize swapCpPage s .mram (toUint32 a2) .mswp (toUint32 a3) = r at hst hr
      obtain ⟨_ | _, u⟩ := r
      all_goals
        cases hr
        dsimp only at hst
        subst hst
        exact of_eq rfl rfl
    · cases hr
    · cases hr
    · cases hr
      exact refl s

theorem libsyscall {ok : Prop} {ram swp : List Nat} {idx a1 a2 a3 : Nat} {junk : VmRg} {ret : Int}
    (hinv : Inv ok ram swp s)
    (hr : Mem.libsyscall s p idx a1 a2 a3 junk = some (ret, t))
    (hmap : idx = 17 → MemOp.ofInt (toInt a1) ≠ some .map) (hlow : (t.mmap p).sbrk ≤ 2 ^ 56) :
    KeepsListed s t := by
  rw [Mem.libsyscall] at hr
  split at hr
  · rename_i hidx
    split at hr
    · cases hr
    · rename_i hu
      split at hr
      · split at hr
        · cases hr
          exact sysMemmap hinv hu (hmap hidx) hlow
        · cases hr
          exact (sysMemmap hinv hu (hmap hidx) hlow).trans (of_eq rfl rfl)
      · cases hr
        exact sysMemmap hinv hu (hmap hidx) hlow
  · split at hr
    all_goals
      cases hr
      exact refl s

theorem run {ok : Prop} {ram swp : List Nat} {ins : Inst} {junk : VmRg} {ret : Int}
    (hinv : Inv ok ram swp s) (htame : ins.Tame)
    (hrun : Mem.run s p ins junk = some (ret, t)) (hlow : (t.mmap p).sbrk ≤ 2 ^ 56) :
    KeepsListed s t := by
  rw [Mem.run] at hrun
  split at hrun
  · cases hrun
    exact refl s
  · exact alloc hinv hrun hlow
  · exact samePages (.libkmemMalloc hrun)
  · rw [← snd_eq_of_some hrun]
    exact samePages (.libkmemCachePoolCreate ..)
  · exact samePages (.libkmemCacheAlloc hrun)
  · rw [← snd_eq_of_some hrun, libkmemCopyFromUser]
    split
    · exact refl s
    · exact copyFromUser ..
  · rw [← snd_eq_of_some hrun, libkmemCopyToUser]
    split
    · exact refl s
    · exact copyToUser ..
  · rw [← snd_eq_of_some hrun]
    exact samePages (.free ..)
  · have hread := read s p (toUint32 ins.arg0.toNat) ins.arg1.toNat
    rw [libread] at hrun
    generalize Mem.read s p (toUint32 ins.arg0.toNat) ins.arg1.toNat = r at hread hrun
    obtain ⟨_ | b, u⟩ := r
    · cases hrun
      exact hread
    · dsimp only at hrun
      split at hrun
      · cases hrun
      · cases hrun
        exact hread.trans (of_eq rfl rfl)
  · have hwrite := write s p (toUint32 ins.arg1.toNat) ins.arg2.toNat
      (BitVec.ofNat 8 ins.arg0.toNat)
    rw [← snd_eq_of_some hrun, libwrite]
    generalize Mem.write s p (toUint32 ins.arg1.toNat) ins.arg2.toNat
      (BitVec.ofNat 8 ins.arg0.toNat) = r at hwrite
    obtain ⟨_ | _, u⟩ := r <;> exact hwrite
  · rename_i hop
    exact libsyscall hinv hrun (fun hidx => (htame hop hidx).1) hlow

end KeepsListed

/-! ### Steps and runs -/

namespace FifoMapped

variable {ok : Prop} {ram swp : List Nat} {s t : Sys}

theorem keeps (h : FifoMapped s) (hkeep : KeepsListed s t) (hrun : t.runningList = s.runningList) :
    FifoMapped t := by
  intro p hp g hg
  rw [hrun] at hp
  rcases hkeep.lists p g hg with hmem | hpte
  · exact hkeep.entries p _ (h p hp g hmem)
  · exact hpte

theorem loadProc (h : FifoMapped s) (hinv : Inv ok ram swp s) (hload : Mem.loadProc s = some t) :
    FifoMapped t := by
  simp only [Mem.loadProc] at hload
  split at hload
  · cases hload
    intro q hq g hg
    rcases List.mem_append.mp hq with hq | hq
    · have hne : q ≠ s.availPid := Nat.ne_of_lt (hinv.fresh q hq)
      simp only [Function.update_of_ne hne] at hg
      simp only [Sys.pte, Function.update_of_ne hne]
      exact h q hq g hg
    · rw [List.mem_singleton] at hq
      subst hq
      simp only [Function.update_self] at hg
      cases hg
  · cases hload

theorem exitProc (h : FifoMapped s) (hinv : Inv ok ram swp s) (p : Pid) :
    FifoMapped (Mem.exitProc s p) := by
  intro q hq g hg
  rw [(exitProc_private s p).runningList] at hq
  obtain ⟨hne, hq⟩ := hinv.nodup.mem_erase_iff.mp hq
  rw [fifo_exitProc, Function.update_of_ne hne] at hg
  rw [Sys.pte, pgd_exitProc]
  exact h q hq g hg

theorem lowStep {op : Op} (h : FifoMapped s) (hinv : Inv ok ram swp s)
    (hstep : LowStep s op t) : FifoMapped t := by
  obtain ⟨hstep, htame, hlow⟩ := hstep
  obtain ⟨rfl, hload⟩ | ⟨p, rfl, -, rfl⟩ | ⟨p, ins, junk, ret, rfl, hp, hrun⟩ := step_cases hstep
  · exact h.loadProc hinv hload
  · exact h.exitProc hinv p
  · have hlist := (Private.run hrun).runningList
    refine h.keeps (.run hinv htame hrun (hlow p ?_)) hlist
    rw [hlist]
    exact hp

/-- In every state of a run. -/
theorem of_run {ramSz swpSz : Nat} {host : Nat → Bool} {ops : List Op}
    (hrun : Run LowStep (boot ramSz swpSz host) ops s) : FifoMapped s := by
  let ok : Prop := host = fun _ => true
  refine (hrun.invariant (I := fun s => FifoMapped s ∧ Inv ok [] [] s)
    (fun s op t hs hstep => ⟨hs.1.lowStep hs.2 hstep, hs.2.lowStep hstep⟩)
    ⟨?_, .boot ramSz swpSz host⟩).1
  intro p hp
  cases hp

end FifoMapped

end Ossim.Mem
