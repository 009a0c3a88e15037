import Ossim.Mem.Paging

/-!
Frames for new pages: `alloc_pages_range`, `vmap_page_range`, `vm_map_ram`.

For each of them three things are proved: it leaves the regions and areas
alone, existing page-table entries are at most evicted, and the invariant
is kept. The frames obtained are held until they are mapped or released.
-/

namespace Ossim.Mem

open Ossim.Lib

/-! ### Obtaining frames -/

theorem getFrame_spec (s : Sys) (p : Pid) :
    (getFrame s p).2.meta = s.meta ∧ Evicts s (getFrame s p).2 := by
  rw [getFrame]
  split
  · rename_i f t hget
    obtain ⟨rest, -, rfl⟩ := memphyGetFreefp_eq_some hget
    exact ⟨rfl, .refl s⟩
  · exact ⟨meta_swapOutVictimPage s p, evicts_swapOutVictimPage s p⟩

/-- What `alloc_pages_range` returns. -/
structure AllocSpec (s : Sys) (n : Nat) (frames : List Nat) (r : Nat × List Nat × Sys) :
    Prop where
  sameMeta : r.2.2.meta = s.meta
  evicts : Evicts s r.2.2
  result : r.1 = 0 ∧ r.2.1.length = frames.length + n ∨
    (r.1 = errNoMem ∨ r.1 = errFail) ∧ r.2.1 = []

theorem allocPages_spec (p : Pid) (n : Nat) (frames : List Nat) (s : Sys) :
    AllocSpec s n frames (allocPages p n frames s) := by
  induction n generalizing frames s with
  | zero => exact ⟨rfl, .refl s, .inl ⟨rfl, rfl⟩⟩
  | succ n ih =>
      obtain ⟨hmeta, hevicts⟩ := getFrame_spec s p
      rw [allocPages]
      split
      · rename_i t ht
        rw [ht] at hmeta hevicts
        refine ⟨?_, hevicts.trans (.of_pgd_eq (pgd_releaseFrameList ..)), .inr ⟨.inl rfl, rfl⟩⟩
        rw [meta_releaseFrameList]
        exact hmeta
      · rename_i f t ht
        rw [ht] at hmeta hevicts
        split
        · rename_i h _
          refine ⟨?_, hevicts.trans (.of_pgd_eq ?_), .inr ⟨.inr rfl, rfl⟩⟩
          · rw [meta_releaseFrameList, meta_memphyPutFreefp]
            exact hmeta
          · rw [pgd_releaseFrameList, pgd_memphyPutFreefp]
        · rename_i h _
          obtain ⟨hmeta', hevicts', hresult⟩ := ih (frames ++ [f]) { t with host := h }
          refine ⟨hmeta'.trans hmeta, (hevicts.trans (.of_pgd_eq rfl)).trans hevicts', ?_⟩
          refine hresult.imp_left fun hr => ⟨hr.1, hr.2.trans ?_⟩
          rw [List.length_append, List.length_singleton]
          omega

theorem allocPagesRange_spec (s : Sys) (p : Pid) (n : Int) :
    AllocSpec s n.toNat [] (allocPagesRange s p n) := by
  rw [allocPagesRange]
  split
  · exact ⟨rfl, .refl s, .inr ⟨.inr rfl, rfl⟩⟩
  · exact allocPages_spec p n.toNat [] s

/-! ### Writing entries -/

theorem lookup_walkPte (s : Sys) (p : Pid) (addr : Nat) (q : Pid) (path : RadixPath 512 4) :
    ((walkPte s p addr).2.pgd q).lookup 0 path = (s.pgd q).lookup 0 path := by
  rw [walkPte]
  split
  · rfl
  · dsimp only
    rw [Sys.setRoot, Sys.root]
    split
    · rfl
    · rcases eq_or_ne q p with rfl | hq
      · simp only [Function.update_self, Radix.lookup_touch]
      · simp only [Function.update_of_ne hq]

theorem walkPages_spec (p : Pid) (pgn left pgit : Nat) (s : Sys) :
    (walkPages p pgn left pgit s).2.meta = s.meta ∧
    ∀ q path, ((walkPages p pgn left pgit s).2.pgd q).lookup 0 path = (s.pgd q).lookup 0 path := by
  induction left generalizing pgit s with
  | zero => exact ⟨rfl, fun _ _ => rfl⟩
  | succ left ih =>
      have hmeta := meta_walkPte s p (pgnAddr (pgn + pgit))
      have hlookup := lookup_walkPte s p (pgnAddr (pgn + pgit))
      rw [walkPages]
      split
      · rename_i t ht
        rw [ht] at hmeta hlookup
        exact ⟨hmeta, hlookup⟩
      · rename_i t ht
        rw [ht] at hmeta hlookup
        obtain ⟨hmeta', hlookup'⟩ := ih (pgit + 1) t
        exact ⟨hmeta'.trans hmeta, fun q path => (hlookup' q path).trans (hlookup q path)⟩

theorem lookup_pteSetEntry {s t : Sys} {p : Pid} {g v : Nat} (hg : g < userPgns)
    (hset : pteSetEntry s p g v = (true, t)) (q : Pid) (path : RadixPath 512 4) :
    (t.pgd q).lookup 0 path =
      if q = p ∧ path = pgnPath g then v else (s.pgd q).lookup 0 path := by
  rw [pteSetEntry_user hg] at hset
  simp only [Prod.mk.injEq] at hset
  obtain ⟨hok, rfl⟩ := hset
  rcases eq_or_ne q p with rfl | hq
  · simp only [Function.update_self, Radix.lookup_write hok, true_and]
  · rw [if_neg fun h => hq h.1]
    simp only [Function.update_of_ne hq]

/-- An entry that was just written can be written again. -/
theorem pteSetEntry_again {s t : Sys} {p : Pid} {g v : Nat} (hg : g < userPgns)
    (hset : pteSetEntry s p g v = (true, t)) (h : Nat → Bool) (fifo : Pid → List Nat) (v' : Nat) :
    (pteSetEntry { t with host := h, fifoPgn := fifo } p g v').1 = true := by
  rw [pteSetEntry_user hg] at hset
  simp only [Prod.mk.injEq] at hset
  obtain ⟨hok, rfl⟩ := hset
  rw [pteSetEntry_user hg]
  simp only [Function.update_self]
  rw [Radix.write_of_has (Radix.has_write hok)]

@[simp] theorem meta_mapFrames (p : Pid) (pgn left pgit : Nat) (frames : List Nat) (s : Sys) :
    (mapFrames p pgn left pgit frames s).2.2.meta = s.meta := by
  induction left generalizing pgit frames s with
  | zero => rfl
  | succ left ih =>
      cases frames with
      | nil => rfl
      | cons f next =>
          have hmeta := meta_pteSetEntry s p (pgn + pgit) (presentPte f)
          rw [mapFrames]
          split
          · rename_i t ht
            rw [pteSetFpn] at ht
            rw [ht] at hmeta
            rw [meta_releaseFrameList]
            exact hmeta
          · rename_i t ht
            rw [pteSetFpn] at ht
            rw [ht] at hmeta
            have hmeta' := meta_enlistPgnNode t p (pgn + pgit)
            split
            · rename_i u hu
              rw [hu] at hmeta'
              rw [meta_releaseFrameList, meta_memphyPutFreefp, meta_pteSetEntry]
              exact hmeta'.trans hmeta
            · rename_i u hu
              rw [hu] at hmeta'
              rw [ih]
              exact hmeta'.trans hmeta

@[simp] theorem meta_vmapPageRange (s : Sys) (p : Pid) (addr : Nat) (n : Int) (frames : List Nat)
    (rg : VmRg) : (vmapPageRange s p addr n frames rg).2.2.meta = s.meta := by
  rw [vmapPageRange]
  have hwalk := (walkPages_spec p (addr / 2 ^ 12) n.toNat 0 s).1
  dsimp only
  split
  · rw [meta_releaseFrameList]
  · split
    · rename_i t ht
      rw [ht] at hwalk
      rw [meta_releaseFrameList]
      exact hwalk
    · rename_i t ht
      rw [ht] at hwalk
      rw [meta_mapFrames]
      exact hwalk

@[simp] theorem meta_vmMapRam (s : Sys) (p : Pid) (addr : Nat) (n : Int) (rg : VmRg) :
    (vmMapRam s p addr n rg).2.2.meta = s.meta := by
  have halloc := (allocPagesRange_spec s p n).sameMeta
  rw [vmMapRam]
  generalize allocPagesRange s p n = r at halloc ⊢
  obtain ⟨code, frames, t⟩ := r
  have hvmap := meta_vmapPageRange t p addr n frames rg
  dsimp only
  generalize vmapPageRange t p addr n frames rg = r at hvmap ⊢
  split
  · exact halloc
  · split
    · exact halloc
    · split <;> exact hvmap.trans halloc

/-! ### The invariant -/

namespace Inv

variable {ok : Prop} {ram swp : List Nat} {s t : Sys} {p : Pid}

theorem getFrame (h : Inv ok ram swp s) (hp : p ∈ s.runningList) :
    match Mem.getFrame s p with
    | (none, t) => Inv ok ram swp t
    | (some f, t) => Inv ok (f :: ram) swp t := by
  rw [Mem.getFrame]
  cases hget : memphyGetFreefp s .mram with
  | none => exact h.swapOutVictimPage hp
  | some r => exact h.getFreefp_mram hget

theorem allocPages {n : Nat} {frames : List Nat} (h : Inv ok (frames ++ ram) swp s)
    (hp : p ∈ s.runningList) :
    Inv ok ((Mem.allocPages p n frames s).2.1 ++ ram) swp (Mem.allocPages p n frames s).2.2 := by
  induction n generalizing frames s with
  | zero => exact h
  | succ n ih =>
      have hframe := h.getFrame hp
      have hrun := congrArg Sys.Meta.runningList (getFrame_spec s p).1
      rw [Mem.allocPages]
      generalize Mem.getFrame s p = r at hframe hrun
      obtain ⟨_ | f, t⟩ := r
      · exact hframe.releaseFrameList
      · have hdraw := hframe.drawHost
        generalize hd : draw t.host = dr at hdraw
        obtain ⟨_ | _, h⟩ := dr
        · simp only
          rw [hd]
          exact hdraw.putFreefp_mram.releaseFrameList
        · simp only
          rw [hd]
          refine ih ?_ ?_
          · refine hdraw.perm ?_
            rw [List.append_assoc, List.singleton_append]
            exact List.perm_middle.symm
          · change p ∈ t.runningList
            rw [show t.runningList = s.runningList from hrun]
            exact hp

theorem allocPagesRange {n : Int} (h : Inv ok ram swp s) (hp : p ∈ s.runningList) :
    Inv ok ((Mem.allocPagesRange s p n).2.1 ++ ram) swp (Mem.allocPagesRange s p n).2.2 := by
  rw [Mem.allocPagesRange]
  split
  · exact h
  · have hnone : Inv ok ([] ++ ram) swp s := h
    exact allocPages hnone hp

theorem walkPages {pgn left pgit : Nat} (h : Inv ok ram swp s) (hp : p ∈ s.runningList)
    (hlt : pgn + pgit + left ≤ userPgns) :
    Inv ok ram swp (Mem.walkPages p pgn left pgit s).2 := by
  induction left generalizing pgit s with
  | zero => exact h
  | succ left ih =>
      have haddr := pgnAddr_user (show pgn + pgit < userPgns by omega)
      have hwalk := h.touchPgd hp (addrPath (pgnAddr (pgn + pgit)))
      have heq := walkPte_user (s := s) (p := p) haddr.2
      rw [Mem.walkPages]
      split
      · rename_i t ht
        rw [ht] at heq
        simp only [Prod.mk.injEq] at heq
        rw [heq.2]
        exact hwalk
      · rename_i t ht
        rw [ht] at heq
        simp only [Prod.mk.injEq] at heq
        rw [← heq.2] at hwalk
        refine ih hwalk ?_ (by omega)
        rw [heq.2]
        exact hp

theorem enlistPgnNode {g : Nat} (h : Inv ok ram swp s) (hg : g < userPgns) :
    Inv ok ram swp (Mem.enlistPgnNode s p g).2 := by
  have hdraw := h.drawHost
  rw [Mem.enlistPgnNode]
  generalize draw s.host = dr at hdraw
  obtain ⟨_ | _, h'⟩ := dr
  · exact hdraw
  · refine hdraw.setFifo fun q hq g' hg' => ?_
    rcases eq_or_ne q p with rfl | hne
    · rw [Function.update_self] at hg'
      rcases List.mem_cons.mp hg' with rfl | hg'
      · exact hg
      · exact h.fifo q hq g' hg'
    · rw [Function.update_of_ne hne] at hg'
      exact h.fifo q hq g' hg'

theorem lt_two_pow_of_held {x : Nat} (h : Inv ok ram swp s) (hx : x ∈ ram) : x < 2 ^ 40 := by
  have hlt := h.lt_of_held (d := .mram) hx
  have := (h.usable .mram).numfp_lt
  omega

/-- A held frame is mapped at a page that has none. -/
theorem mapPage {f g : Nat} (h : Inv ok (f :: ram) swp s) (hp : p ∈ s.runningList)
    (hg : g < userPgns) (hsbrk : g * pageSz < (s.mmap p).sbrk) (hzero : s.pte p g = 0)
    (hset : pteSetFpn s p g f = (true, t)) : Inv ok ram swp t := by
  have hf := h.lt_two_pow_of_held (List.mem_cons_self ..)
  refine h.pteSetEntry_true hp hg hset (.present hf) (fun hle => by omega) (fun d x => ?_)
    (fun off hoff e he => ?_)
  · rw [hzero, owns_presentPte hf, owns_zero]
    cases d <;> simp [held, List.count_cons]
  · rw [h.lastStore_eq_none hp hg hzero hoff] at he
    cases he

/-- A page in which nothing was stored loses its frame. -/
theorem unmapPage {f g : Nat} (h : Inv ok ram swp s) (hp : p ∈ s.runningList) (hg : g < userPgns)
    (hf : f < 2 ^ 40) (hpte : s.pte p g = presentPte f)
    (hnone : ∀ off < pageSz, lastStore s.stores p (g * pageSz + off) = none)
    (hset : pteSetEntry s p g 0 = (true, t)) : Inv ok (f :: ram) swp t := by
  refine h.pteSetEntry_true hp hg hset .zero (fun _ => rfl) (fun d x => ?_)
    (fun off hoff e he => ?_)
  · rw [hpte, owns_presentPte hf, owns_zero]
    cases d <;> simp [held, List.count_cons]
  · rw [hnone off hoff] at he
    cases he

theorem mapFrames {pgn left pgit : Nat} {frames : List Nat} (h : Inv ok (frames ++ ram) swp s)
    (hp : p ∈ s.runningList) (hlt : pgn + pgit + left ≤ userPgns)
    (hsbrk : (pgn + pgit + left) * pageSz ≤ (s.mmap p).sbrk)
    (hzero : ∀ k, pgit ≤ k → k < pgit + left → s.pte p (pgn + k) = 0)
    (hlen : frames.length ≤ left) :
    Inv ok ram swp (Mem.mapFrames p pgn left pgit frames s).2.2 := by
  induction left generalizing pgit frames s with
  | zero =>
      rw [List.length_eq_zero_iff.mp (Nat.le_zero.mp hlen)] at h
      exact h
  | succ left ih =>
      cases frames with
      | nil => exact h
      | cons f next =>
          have hg : pgn + pgit < userPgns := by omega
          have hpage : (pgn + pgit) * pageSz < (s.mmap p).sbrk := by
            simp only [pageSz] at *
            omega
          have hz := hzero pgit (Nat.le_refl _) (by omega)
          rw [Mem.mapFrames]
          split
          · rename_i t ht
            exact (h.pteSetEntry_false hp hg ht).releaseFrameList
          · rename_i t ht
            have hmap : Inv ok (next ++ ram) swp t := mapPage h hp hg hpage hz ht
            have hf := h.lt_two_pow_of_held (List.mem_cons_self ..)
            have hpte : t.pte p (pgn + pgit) = presentPte f := by
              rw [Sys.pte, lookup_pteSetEntry hg ht, if_pos ⟨rfl, rfl⟩]
            have hmeta := meta_pteSetEntry s p (pgn + pgit) (presentPte f)
            rw [← pteSetFpn, ht] at hmeta
            have hrun : t.runningList = s.runningList := congrArg Sys.Meta.runningList hmeta
            have hlist := hmap.enlistPgnNode (p := p) hg
            split
            · rename_i u hu
              -- the page list could not grow: the entry is cleared again
              obtain ⟨h', rfl⟩ : ∃ h', { t with host := h' } = u := by
                rw [Mem.enlistPgnNode] at hu
                split at hu
                · cases hu
                · cases hu
                  exact ⟨_, rfl⟩
              rw [hu] at hlist
              have hagain := pteSetEntry_again hg ht h' t.fifoPgn 0
              refine Inv.releaseFrameList (Inv.putFreefp_mram (unmapPage hlist ?_ hg hf hpte
                (fun off hoff => ?_) (Prod.ext hagain rfl)))
              · change p ∈ t.runningList
                rw [hrun]
                exact hp
              · change lastStore t.stores _ _ = none
                rw [show t.stores = s.stores from congrArg Sys.Meta.stores hmeta]
                exact h.lastStore_eq_none hp hg hz hoff
            · rename_i u hu
              have hmeta' := meta_enlistPgnNode t p (pgn + pgit)
              have hpgd : u.pgd = t.pgd := by
                rw [Mem.enlistPgnNode] at hu
                split at hu
                · cases hu
                  rfl
                · cases hu
              rw [hu] at hlist hmeta'
              have hmeta'' := hmeta'.trans hmeta
              refine ih hlist ?_ (by omega) ?_ (fun k hk hk' => ?_) (by simpa using hlen)
              · rw [show u.runningList = s.runningList from congrArg Sys.Meta.runningList hmeta'']
                exact hp
              · rw [show u.mmap = s.mmap from congrArg Sys.Meta.mmap hmeta'',
                  show pgn + (pgit + 1) + left = pgn + pgit + (left + 1) by omega]
                exact hsbrk
              · have hne : pgnPath (pgn + k) ≠ pgnPath (pgn + pgit) := fun he => by
                  have := pgnPath_inj (by omega) hg he
                  omega
                rw [Sys.pte, hpgd, lookup_pteSetEntry hg ht, if_neg fun he => hne he.2]
                exact hzero k (by omega) (by omega)

/-- A range of pages without entries, below the break. -/
def NewPages (s : Sys) (p : Pid) (addr : Nat) (n : Nat) : Prop :=
  addr % pageSz = 0 ∧ addr + n * pageSz ≤ (s.mmap p).sbrk ∧ (s.mmap p).sbrk ≤ 2 ^ 56 ∧
    ∀ g < userPgns, addr ≤ g * pageSz → s.pte p g = 0

theorem NewPages.of_evicts {addr n : Nat} (h : NewPages s p addr n) (hmeta : t.meta = s.meta)
    (hevicts : Evicts s t) : NewPages t p addr n := by
  obtain ⟨halign, hend, hsbrk, hzero⟩ := h
  rw [NewPages, show t.mmap = s.mmap from congrArg Sys.Meta.mmap hmeta]
  refine ⟨halign, hend, hsbrk, fun g hg hle => ?_⟩
  have hz := hzero g hg hle
  rw [Sys.pte] at hz ⊢
  rw [hevicts.eq_of_not_present (by rw [hz]; rfl), hz]

theorem vmapPageRange {addr : Nat} {n : Int} {frames : List Nat} {v : VmRg}
    (h : Inv ok (frames ++ ram) swp s) (hp : p ∈ s.runningList)
    (hnew : NewPages s p addr n.toNat) (hlen : frames.length ≤ n.toNat) :
    Inv ok ram swp (Mem.vmapPageRange s p addr n frames v).2.2 := by
  obtain ⟨halign, hend, hsbrk, hzero⟩ := hnew
  have hlt : addr / 2 ^ 12 + 0 + n.toNat ≤ userPgns := by
    simp only [pageSz, userPgns] at *
    omega
  obtain ⟨hmeta, hlookup⟩ := walkPages_spec p (addr / 2 ^ 12) n.toNat 0 s
  have hwalk := h.walkPages hp hlt
  rw [Mem.vmapPageRange]
  dsimp only
  split
  · exact h.releaseFrameList
  · split
    · rename_i t ht
      rw [ht] at hwalk
      exact hwalk.releaseFrameList
    · rename_i t ht
      rw [ht] at hwalk hmeta hlookup
      have hrun : t.runningList = s.runningList := congrArg Sys.Meta.runningList hmeta
      have hmmap : t.mmap = s.mmap := congrArg Sys.Meta.mmap hmeta
      refine hwalk.mapFrames ?_ hlt ?_ (fun k hk hk' => ?_) hlen
      · rw [hrun]
        exact hp
      · rw [hmmap]
        simp only [pageSz] at *
        omega
      · rw [Sys.pte, hlookup]
        refine hzero _ (by omega) ?_
        simp only [pageSz] at *
        omega

theorem vmMapRam {addr : Nat} {n : Int} {rg : VmRg} (h : Inv ok ram swp s)
    (hp : p ∈ s.runningList) (hnew : NewPages s p addr n.toNat) :
    Inv ok ram swp (Mem.vmMapRam s p addr n rg).2.2 := by
  obtain ⟨hmeta, hevicts, hresult⟩ := allocPagesRange_spec s p n
  have halloc := h.allocPagesRange (n := n) hp
  rw [Mem.vmMapRam]
  generalize Mem.allocPagesRange s p n = r at hmeta hevicts hresult halloc ⊢
  obtain ⟨code, frames, t⟩ := r
  simp only at hmeta hevicts hresult halloc
  have hnew' : NewPages t p addr n.toNat := hnew.of_evicts hmeta hevicts
  have hp' : p ∈ t.runningList := by
    rw [show t.runningList = s.runningList from congrArg Sys.Meta.runningList hmeta]
    exact hp
  have hlen : frames.length ≤ n.toNat := by
    rcases hresult with ⟨-, hlen⟩ | ⟨-, hnil⟩
    · simp only [List.length_nil] at hlen
      omega
    · simp [hnil]
  have hvmap := halloc.vmapPageRange (v := rg) hp' hnew' hlen
  dsimp only
  split
  · omega
  · split
    · -- out of frames: nothing is held any more
      rename_i hcode
      rcases hresult with ⟨hzero, -⟩ | ⟨-, hnil⟩
      · rw [hzero] at hcode
        cases hcode
      · rw [hnil] at halloc
        exact halloc
    · split <;> exact hvmap

end Inv

end Ossim.Mem
