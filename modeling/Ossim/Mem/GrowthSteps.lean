import Ossim.Mem.Interleaved
import Ossim.Mem.Listed
import Ossim.Mem.Regions

/-!
A growth, step by step, while another CPU takes pages.

Between two steps of a growth, page faults of other processes may evict any
page that is in a page list. What the growth has in hand is in none: the
frames it holds belong to nobody, and a page gets into the list only after
its entry was written. So the invariant of the memory system holds after
every single step, with the frames in hand accounted for.
-/

namespace Ossim.Mem

open Ossim.Lib

/-! ### What an eviction takes -/

/-- The page that `swap_out_victim_page` takes. It asks for a swap frame
before it looks for a victim. -/
def victimPage (s : Sys) (caller : Pid) : Option (Pid × Nat) :=
  match s.freeFpList .mswp with
  | [] => none
  | _ :: rest => (findGlobalVictim (s.setSwapFree rest) caller).1.map fun v => (v.1, v.2.1)

namespace Inv

variable {ok : Prop} {ram swp : List Nat} {s : Sys} {p q : Pid} {g : Nat}

theorem mem_fifo_of_victimPage (h : Inv ok ram swp s) (hp : p ∈ s.runningList)
    (hvic : victimPage s p = some (q, g)) : g ∈ s.fifoPgn q := by
  rw [victimPage] at hvic
  split at hvic
  · cases hvic
  · rename_i o rest hfree
    obtain ⟨⟨q', g', v⟩, hfound, heq⟩ := Option.map_eq_some_iff.mp hvic
    cases heq
    exact (h.of_victim hp (Prod.ext hfound rfl)).2.2.1

/-- No entry but the victim's changes. -/
theorem pte_swapOut (h : Inv ok ram swp s) (hp : p ∈ s.runningList) (hg : g < userPgns)
    (hvic : victimPage s p ≠ some (q, g)) :
    (Mem.swapOutVictimPage s p).2.pte q g = s.pte q g := by
  cases hfree : s.freeFpList .mswp with
  | nil => rw [Mem.swapOutVictimPage, memphyGetFreefp, hfree]
  | cons o rest =>
      rw [victimPage, hfree] at hvic
      dsimp only at hvic
      cases hfound : findGlobalVictim (s.setSwapFree rest) p with
      | mk vic t =>
          cases vic with
          | none =>
              obtain ⟨fifo, ht, -⟩ := findGlobalVictim_spec (s.setSwapFree rest) p
              rw [hfound] at ht
              dsimp only at ht
              subst ht
              have hget : memphyGetFreefp s .mswp = some (o, s.setSwapFree rest) := by
                rw [memphyGetFreefp, hfree]
                rfl
              rw [Mem.swapOutVictimPage, hget]
              dsimp only
              rw [hfound]
              dsimp only
              rw [Sys.pte, pgd_memphyPutFreefp]
              rfl
          | some vic =>
              obtain ⟨q', g', v⟩ := vic
              rw [h.swapOut_found hp hfree hfound]
              obtain ⟨-, hg', -, hpte, heq, -, fifo, ht⟩ := h.of_victim hp hfound
              have hpgd : t.pgd = s.pgd := by
                rw [ht]
                rfl
              have hhas : (t.pgd q').has (pgnPath g') := by
                rw [hpgd]
                refine has_of_pte_ne_zero ?_
                rw [hpte, heq]
                exact presentPte_ne_zero _
              have hne : ¬(q = q' ∧ g = g') := by
                rintro ⟨rfl, rfl⟩
                rw [hfound] at hvic
                exact hvic rfl
              dsimp only
              rw [pte_evicted hhas hg' _ _ q hg, if_neg hne, Sys.pte, hpgd]
              rfl

/-- A page fault of one process writes no entry of another but the one it
evicts. -/
theorem pte_pgGetpage (h : Inv ok ram swp s) (hp : p ∈ s.runningList) {g' : Nat}
    (hg : g < userPgns) (hq : q ≠ p) (hvic : victimPage s p ≠ some (q, g)) :
    (Mem.pgGetpage s p g').2.pte q g = s.pte q g := by
  have hpte := h.pte_swapOut hp hg hvic
  generalize hr : Mem.pgGetpage s p g' = r
  cases pgGetpage_cases hr with
  | present => rfl
  | absent => rfl
  | noFrame t _ _ hout =>
      rw [hout] at hpte
      exact hpte
  | noCopy f t st _ _ hout =>
      rw [hout] at hpte
      exact hpte
  | back f t st u _ _ hout _ hu =>
      rw [hout] at hpte
      rw [hu, broughtIn, Sys.pte, pgd_enlistPgnNode, pteSetFpn, pgd_pteSetEntry_of_ne hq,
        pgd_memphyPutFreefp]
      exact hpte

end Inv

/-! ### What the growing process relies on -/

/-- Nothing that process `q` relies on has changed: its listed pages may be
evicted. -/
structure Undisturbed (q : Pid) (s t : Sys) : Prop where
  mmap : t.mmap q = s.mmap q
  fifo : ∀ g ∈ t.fifoPgn q, g ∈ s.fifoPgn q
  pte : ∀ g < userPgns, g ∉ s.fifoPgn q → t.pte q g = s.pte q g
  stores : ∀ addr, lastStore t.stores q addr = lastStore s.stores q addr

namespace Undisturbed

variable {ok : Prop} {ram swp : List Nat} {s t : Sys} {p q : Pid}

/-- Only evictions, and of listed pages only. -/
theorem of_meta (hmeta : t.meta = s.meta) (hfifo : ∀ g ∈ t.fifoPgn q, g ∈ s.fifoPgn q)
    (hpte : ∀ g < userPgns, g ∉ s.fifoPgn q → t.pte q g = s.pte q g) : Undisturbed q s t where
  mmap := congrFun (congrArg Sys.Meta.mmap hmeta) q
  fifo := hfifo
  pte := hpte
  stores addr := by rw [show t.stores = s.stores from congrArg Sys.Meta.stores hmeta]

theorem of_eq (hmeta : t.meta = s.meta) (hfifo : t.fifoPgn = s.fifoPgn) (hpgd : t.pgd = s.pgd) :
    Undisturbed q s t :=
  of_meta hmeta (fun _ hg => hfifo ▸ hg) fun g _ _ => by rw [Sys.pte, hpgd, Sys.pte]

theorem swapOut (h : Inv ok ram swp s) (hp : p ∈ s.runningList) :
    Undisturbed q s (swapOutVictimPage s p).2 :=
  of_meta (meta_swapOutVictimPage s p) (fifo_swapOutVictimPage s p q) fun _ hg hnot =>
    h.pte_swapOut hp hg fun hvic => hnot (h.mem_fifo_of_victimPage hp hvic)

/-- A page fault of another process. -/
theorem pgGetpage (h : Inv ok ram swp s) (hp : p ∈ s.runningList) (hq : q ≠ p) (g : Nat) :
    Undisturbed q s (Mem.pgGetpage s p g).2 := by
  refine of_meta (meta_pgGetpage s p g) (fun g' hg' => ?_) fun g' hg' hnot => ?_
  · exact (fifo_pgGetpage hg').resolve_right fun heq => hq heq.1
  · exact h.pte_pgGetpage hp hg' hq fun hvic => hnot (h.mem_fifo_of_victimPage hp hvic)

/-- A store of another process. -/
theorem store (s : Sys) (hq : q ≠ p) (a addr : Nat) (v : Byte) :
    Undisturbed q s { s.poke .mram a v with stores := ⟨p, addr, v, false⟩ :: s.stores } where
  mmap := rfl
  fifo _ hg := hg
  pte _ _ _ := rfl
  stores addr' := by
    have hmiss : (p == q && addr == addr') = false := by
      rw [beq_eq_false_iff_ne.mpr hq.symm, Bool.false_and]
    simp only [lastStore, List.find?_cons, hmiss]

end Undisturbed

/-! ### The growth, step by step -/

namespace AllocPc

/-- The frames that the call holds. -/
def held : AllocPc → List Nat
  | .getFreefp _ frames | .swapOut _ frames | .release frames _ | .vmap frames
  | .walk _ _ frames | .setFpn _ _ frames => frames
  | .newNode _ frames fpn => fpn :: frames
  | .enlist _ _ _ next | .clear _ _ next => next
  | _ => []

/-- The break has moved, and pages may still be mapped below it. -/
def mapping : AllocPc → Bool
  | .getFreefp _ _ | .swapOut _ _ | .newNode _ _ _ | .release _ .vmap | .vmap _
  | .walk _ _ _ | .setFpn _ _ _ | .enlist _ _ _ _ | .clear _ _ _ => true
  | _ => false

/-- The number of pages that have an entry, or had one. -/
def pagesDone : AllocPc → Nat
  | .setFpn _ pgit _ => pgit
  | .enlist _ pgit _ _ | .clear pgit _ _ => pgit + 1
  | _ => 0

/-- The page whose entry was written last, if it is not in the list yet. -/
def placing : AllocPc → Option (Nat × Nat)
  | .enlist _ pgit fpn _ | .clear pgit fpn _ => some (pgit, fpn)
  | _ => none

/-- There are `n` pages to map from page `pgn` on, and not more frames. -/
def Fits (pgn n : Nat) : AllocPc → Prop
  | .getFreefp left frames => frames.length + left ≤ n
  | .swapOut left frames | .newNode left frames _ => frames.length + left < n
  | .vmap frames => frames.length ≤ n
  | .walk left pgit frames => frames.length ≤ n ∧ pgit + left = n ∧ pgn + n ≤ userPgns
  | .setFpn left pgit frames => frames.length ≤ left ∧ pgit + left = n ∧ pgn + n ≤ userPgns
  | .enlist left pgit _ next => next.length ≤ left ∧ pgit + left + 1 = n ∧ pgn + n ≤ userPgns
  | .clear pgit _ _ => pgit < n ∧ pgn + n ≤ userPgns
  | _ => True

end AllocPc

/-- A page that got its entry a moment ago: nobody can take it, and nothing
was stored in it. -/
structure FreshPage (s : Sys) (p : Pid) (g f : Nat) : Prop where
  user : g < userPgns
  pte : s.pte p g = presentPte f
  lt : f < 2 ^ 40
  unlisted : g ∉ s.fifoPgn p
  unstored : ∀ off < pageSz, lastStore s.stores p (g * pageSz + off) = none

/-- The state of a growth whose break has moved. -/
structure Growing (c : AllocCall) (s : Sys) (g : Grower) : Prop where
  aligned : g.oldEnd % pageSz = 0
  low : g.oldEnd ≤ 2 ^ 56
  room : g.oldEnd + c.pages.toNat * pageSz ≤ (s.mmap c.pid).sbrk
  ahead : ∀ g' < userPgns, g.oldEnd / 2 ^ 12 + g.pc.pagesDone ≤ g' →
    s.pte c.pid g' = 0 ∧ g' ∉ s.fifoPgn c.pid
  fits : g.pc.Fits (g.oldEnd / 2 ^ 12) c.pages.toNat
  placed : ∀ pgit fpn, g.pc.placing = some (pgit, fpn) →
    FreshPage s c.pid (g.oldEnd / 2 ^ 12 + pgit) fpn

/-- The invariant of the CPU that allocates. -/
structure GrowerInv (ok : Prop) (c : AllocCall) (s : Sys) (g : Grower) : Prop where
  inv : Inv ok g.pc.held [] s
  live : c.pid ∈ s.runningList
  before : g.pc = .search ∨ g.pc = .syscall →
    (s.mmap c.pid).sbrk ≤ 2 ^ 56 ∧ ∀ g' ∈ s.fifoPgn c.pid, s.pte c.pid g' ≠ 0
  growing : g.pc.mapping = true → Growing c s g

namespace Growing

variable {ok : Prop} {c : AllocCall} {s t : Sys} {g : Grower} {pc : AllocPc}

/-- On to the next place in the code, with no page mapped in between. -/
theorem next (h : Growing c s g) (hst : Undisturbed c.pid s t)
    (hdone : pc.pagesDone = g.pc.pagesDone) (hfits : pc.Fits (g.oldEnd / 2 ^ 12) c.pages.toNat)
    (hplace : ∀ x, pc.placing = some x → g.pc.placing = some x) : Growing c t (g.goto pc) where
  aligned := h.aligned
  low := h.low
  room := by
    rw [hst.mmap]
    exact h.room
  ahead g' hg' hle := by
    obtain ⟨hzero, hnot⟩ := h.ahead g' hg' (hdone ▸ hle)
    exact ⟨(hst.pte g' hg' hnot).trans hzero, fun hmem => hnot (hst.fifo g' hmem)⟩
  fits := hfits
  placed pgit fpn hpc := by
    obtain ⟨huser, hpte, hlt, hunlisted, hunstored⟩ := h.placed pgit fpn (hplace _ hpc)
    exact
    { user := huser
      pte := (hst.pte _ huser hunlisted).trans hpte
      lt := hlt
      unlisted := fun hmem => hunlisted (hst.fifo _ hmem)
      unstored := fun off hoff => (hst.stores _).trans (hunstored off hoff) }

/-- The same place in the code, while the other CPU takes a step. -/
theorem undisturbed (h : Growing c s g) (hst : Undisturbed c.pid s t) : Growing c t g :=
  h.next hst rfl h.fits fun _ => id

/-- The range that `vmap_page_range` accepts is in the lower half. -/
theorem pages_lt (h : Growing c s g) (hvalid : validatePageRange g.oldEnd c.pages = 0) :
    g.oldEnd / 2 ^ 12 + c.pages.toNat ≤ userPgns := by
  have hlow := h.low
  have hsmall : c.pages < 2 ^ 31 := by
    simp only [AllocCall.pages, incNumPage, toInt]
    split <;> omega
  rcases le_or_gt c.pages 0 with hle | hpos
  · rw [Int.toNat_of_nonpos hle]
    simp only [userPgns]
    omega
  · have := (validatePageRange_low hlow hpos hsmall hvalid).2
    simp only [pageSz, userPgns] at *
    omega

end Growing

namespace GrowerInv

variable {ok : Prop} {c : AllocCall} {s t : Sys} {g : Grower} {pc : AllocPc}

/-- Past the system call only the frames held and the pages matter. -/
theorem after (hinv : Inv ok pc.held [] t) (hlive : c.pid ∈ t.runningList)
    (hpc : pc ≠ .search ∧ pc ≠ .syscall)
    (hgrowing : pc.mapping = true → Growing c t (g.goto pc)) : GrowerInv ok c t (g.goto pc) where
  inv := hinv
  live := hlive
  before hb := absurd hb (not_or.mpr hpc)
  growing := hgrowing

/-- A step in which nothing of the process itself changes. -/
theorem moves (h : GrowerInv ok c s g) (hg : g.pc.mapping = true) (hinv : Inv ok pc.held [] t)
    (hmeta : t.meta = s.meta) (hst : Undisturbed c.pid s t) (hpc : pc ≠ .search ∧ pc ≠ .syscall)
    (hdone : pc.pagesDone = g.pc.pagesDone) (hfits : pc.Fits (g.oldEnd / 2 ^ 12) c.pages.toNat)
    (hplace : pc.placing = none ∨ pc.placing = g.pc.placing) :
    GrowerInv ok c t (g.goto pc) := by
  refine after hinv ?_ hpc fun _ => (h.growing hg).next hst hdone hfits fun x hx => ?_
  · rw [show t.runningList = s.runningList from congrArg Sys.Meta.runningList hmeta]
    exact h.live
  · rcases hplace with hnone | hsame
    · rw [hnone] at hx
      cases hx
    · exact hsame ▸ hx

/-- The mapping is over, well or not. -/
theorem ends (h : GrowerInv ok c s g) (hinv : Inv ok pc.held [] t) (hmeta : t.meta = s.meta)
    (hpc : pc ≠ .search ∧ pc ≠ .syscall) (hmapping : pc.mapping = false) :
    GrowerInv ok c t (g.goto pc) := by
  refine after hinv ?_ hpc fun htrue => ?_
  · rw [show t.runningList = s.runningList from congrArg Sys.Meta.runningList hmeta]
    exact h.live
  · rw [hmapping] at htrue
    cases htrue

variable {left pgit fpn oldEnd : Nat} {frames next : List Nat} {g' : Grower}

theorem search (h : GrowerInv ok c s ⟨.search, oldEnd⟩)
    (hstep : allocStep c s ⟨.search, oldEnd⟩ = some (g', t)) : GrowerInv ok c t g' := by
  obtain ⟨hlow, hlisted⟩ := h.before (.inl rfl)
  simp only [allocStep] at hstep
  split at hstep
  · cases hstep
    exact h.ends h.inv rfl (by simp) rfl
  · have hinv := h.inv.getFreeVmrgArea c.pid (toInt c.size)
    obtain ⟨l, hl⟩ := getFreeVmrgArea_eq s c.pid (toInt c.size)
    generalize getFreeVmrgArea s c.pid (toInt c.size) = r at hinv hl hstep
    obtain ⟨_ | rg, u⟩ := r
    all_goals
      dsimp only at hl hinv
      subst hl
      cases hstep
    · exact
      { inv := hinv
        live := h.live
        before := fun _ => by
          rw [Sys.mmap_setMmap]
          exact ⟨hlow, hlisted⟩
        growing := fun hmap => by cases hmap }
    · exact after (hinv.setSymrg c.pid c.rgid rg) h.live (by simp) fun hmap => by cases hmap

theorem syscall (h : GrowerInv ok c s ⟨.syscall, oldEnd⟩)
    (hstep : allocStep c s ⟨.syscall, oldEnd⟩ = some (g', t)) : GrowerInv ok c t g' := by
  obtain ⟨hlow, hlisted⟩ := h.before (.inr rfl)
  rw [allocStep_syscall oldEnd h.live] at hstep
  split at hstep
  · cases hstep
    exact h.ends h.inv.drawHost rfl (by simp) rfl
  · rename_i href
    cases hstep
    obtain ⟨hinv, halign, hroom, hzero⟩ := h.inv.breakMoved_new h.live href
    -- a page past the old break has no entry, so it cannot be listed
    have hahead (g' : Nat) (hg' : g' < userPgns) (hle : (s.mmap c.pid).sbrk / 2 ^ 12 + 0 ≤ g') :
        (breakMoved s c.pid (allocInc c.size)).pte c.pid g' = 0 ∧ g' ∉ s.fifoPgn c.pid := by
      have hz := hzero g' hg' (by simp only [pageSz] at *; omega)
      exact ⟨hz, fun hmem => hlisted g' hmem hz⟩
    split
    · exact
      { inv := hinv
        live := h.live
        before := fun hb => absurd hb (by simp)
        growing := fun _ =>
          ⟨halign, hlow, hroom, hahead, Nat.zero_le _, fun _ _ hplace => by cases hplace⟩ }
    · exact
      { inv := hinv
        live := h.live
        before := fun hb => absurd hb (by simp)
        growing := fun _ =>
          ⟨halign, hlow, hroom, hahead, (Nat.zero_add _).le, fun _ _ hplace => by cases hplace⟩ }

theorem getFreefp (h : GrowerInv ok c s ⟨.getFreefp left frames, oldEnd⟩)
    (hstep : allocStep c s ⟨.getFreefp left frames, oldEnd⟩ = some (g', t)) :
    GrowerInv ok c t g' := by
  have hfits : frames.length + left ≤ c.pages.toNat := (h.growing rfl).fits
  cases left with
  | zero =>
      cases hstep
      exact h.moves rfl h.inv rfl (.of_eq rfl rfl rfl) (by simp) rfl hfits (.inl rfl)
  | succ left =>
      have hlt : frames.length + left < c.pages.toNat := by omega
      simp only [allocStep] at hstep
      cases hget : memphyGetFreefp s .mram with
      | none =>
          rw [hget] at hstep
          cases hstep
          exact h.moves rfl h.inv rfl (.of_eq rfl rfl rfl) (by simp) rfl hlt (.inl rfl)
      | some r =>
          obtain ⟨fpn, u⟩ := r
          rw [hget] at hstep
          cases hstep
          have hinv := h.inv.getFreefp_mram hget
          obtain ⟨rest, -, rfl⟩ := memphyGetFreefp_eq_some hget
          exact h.moves rfl hinv rfl (.of_eq rfl rfl rfl) (by simp) rfl hlt (.inl rfl)

theorem swapOut (h : GrowerInv ok c s ⟨.swapOut left frames, oldEnd⟩)
    (hstep : allocStep c s ⟨.swapOut left frames, oldEnd⟩ = some (g', t)) :
    GrowerInv ok c t g' := by
  have hfits : frames.length + left < c.pages.toNat := (h.growing rfl).fits
  have hinv := h.inv.swapOutVictimPage h.live
  have hmeta := meta_swapOutVictimPage s c.pid
  have hst : Undisturbed c.pid s _ := .swapOut h.inv h.live
  simp only [allocStep] at hstep
  generalize swapOutVictimPage s c.pid = r at hinv hmeta hst hstep
  obtain ⟨_ | fpn, u⟩ := r
  · cases hstep
    exact h.ends hinv hmeta (by simp) rfl
  · cases hstep
    exact h.moves rfl hinv hmeta hst (by simp) rfl hfits (.inl rfl)

theorem newNode (h : GrowerInv ok c s ⟨.newNode left frames fpn, oldEnd⟩)
    (hstep : allocStep c s ⟨.newNode left frames fpn, oldEnd⟩ = some (g', t)) :
    GrowerInv ok c t g' := by
  have hfits : frames.length + left < c.pages.toNat := (h.growing rfl).fits
  have hinv := h.inv.drawHost
  simp only [allocStep] at hstep
  generalize draw s.host = r at hinv hstep
  obtain ⟨_ | _, host⟩ := r
  · cases hstep
    exact h.moves rfl hinv rfl (.of_eq rfl rfl rfl) (by simp) rfl trivial (.inl rfl)
  · cases hstep
    refine h.moves rfl (hinv.perm ?_) rfl (.of_eq rfl rfl rfl) (by simp) rfl ?_ (.inl rfl)
    · exact (List.perm_append_singleton fpn frames).symm
    · simp only [AllocPc.Fits, List.length_append, List.length_singleton]
      omega

theorem release {back : ReleasedTo} (h : GrowerInv ok c s ⟨.release frames back, oldEnd⟩)
    (hstep : allocStep c s ⟨.release frames back, oldEnd⟩ = some (g', t)) :
    GrowerInv ok c t g' := by
  cases frames with
  | nil =>
      cases back with
      | vmap =>
          cases hstep
          exact h.moves rfl h.inv rfl (.of_eq rfl rfl rfl) (by simp) rfl (Nat.zero_le _) (.inl rfl)
      | enlistRg rg =>
          cases hstep
          exact h.ends h.inv rfl (by simp) rfl
  | cons fpn frames =>
      have hinv : Inv ok frames [] (memphyPutFreefp s .mram fpn) := h.inv.putFreefp_mram
      have hmeta := meta_memphyPutFreefp s .mram fpn
      cases back with
      | vmap =>
          cases hstep
          exact h.moves rfl hinv hmeta
            (.of_eq hmeta (fifo_memphyPutFreefp ..) (pgd_memphyPutFreefp ..)) (by simp) rfl trivial
            (.inl rfl)
      | enlistRg rg =>
          cases hstep
          exact h.ends hinv hmeta (by simp) rfl

theorem vmap (h : GrowerInv ok c s ⟨.vmap frames, oldEnd⟩)
    (hstep : allocStep c s ⟨.vmap frames, oldEnd⟩ = some (g', t)) : GrowerInv ok c t g' := by
  have hgrow := h.growing rfl
  have hfits : frames.length ≤ c.pages.toNat := hgrow.fits
  simp only [allocStep] at hstep
  split at hstep
  · cases hstep
    exact h.ends h.inv rfl (by simp) rfl
  · rename_i hvalid
    cases hstep
    have huser := hgrow.pages_lt (not_not.mp hvalid)
    exact h.moves rfl h.inv rfl (.of_eq rfl rfl rfl) (by simp) rfl
      ⟨hfits, Nat.zero_add _, huser⟩ (.inl rfl)

theorem walk (h : GrowerInv ok c s ⟨.walk left pgit frames, oldEnd⟩)
    (hstep : allocStep c s ⟨.walk left pgit frames, oldEnd⟩ = some (g', t)) :
    GrowerInv ok c t g' := by
  obtain ⟨hlen, hleft, huser⟩ : frames.length ≤ c.pages.toNat ∧ pgit + left = c.pages.toNat ∧
    oldEnd / 2 ^ 12 + c.pages.toNat ≤ userPgns := (h.growing rfl).fits
  cases left with
  | zero =>
      cases hstep
      exact h.moves rfl h.inv rfl (.of_eq rfl rfl rfl) (by simp) rfl
        ⟨hlen, Nat.zero_add _, huser⟩ (.inl rfl)
  | succ left =>
      have haddr := pgnAddr_user (show oldEnd / 2 ^ 12 + pgit < userPgns by omega)
      have hinv : Inv ok frames [] _ :=
        h.inv.touchPgd h.live (addrPath (pgnAddr (oldEnd / 2 ^ 12 + pgit)))
      have heq := walkPte_user (s := s) (p := c.pid) haddr.2
      have hmeta := meta_walkPte s c.pid (pgnAddr (oldEnd / 2 ^ 12 + pgit))
      have hlookup := lookup_walkPte s c.pid (pgnAddr (oldEnd / 2 ^ 12 + pgit))
      have hfifo : (walkPte s c.pid (pgnAddr (oldEnd / 2 ^ 12 + pgit))).2.fifoPgn = s.fifoPgn := by
        rw [heq]
      simp only [allocStep] at hstep
      generalize walkPte s c.pid (pgnAddr (oldEnd / 2 ^ 12 + pgit)) = r at *
      obtain ⟨found, u⟩ := r
      obtain ⟨-, rfl⟩ := Prod.mk.inj heq
      have hst : Undisturbed c.pid s _ :=
        .of_meta hmeta (fun _ hg => hfifo ▸ hg) fun _ _ _ => hlookup _ _
      cases found with
      | false =>
          cases hstep
          exact h.ends hinv hmeta (by simp) rfl
      | true =>
          cases hstep
          exact h.moves rfl hinv hmeta hst (by simp) rfl ⟨hlen, by omega, huser⟩ (.inl rfl)

/-- A page gets its entry. -/
theorem setFpn (h : GrowerInv ok c s ⟨.setFpn left pgit frames, oldEnd⟩)
    (hstep : allocStep c s ⟨.setFpn left pgit frames, oldEnd⟩ = some (g', t)) :
    GrowerInv ok c t g' := by
  have hgrow := h.growing rfl
  obtain ⟨hlen, hleft, huser⟩ : frames.length ≤ left ∧ pgit + left = c.pages.toNat ∧
    oldEnd / 2 ^ 12 + c.pages.toNat ≤ userPgns := hgrow.fits
  cases left with
  | zero =>
      obtain rfl := List.length_eq_zero_iff.mp (Nat.le_zero.mp hlen)
      cases hstep
      exact h.ends h.inv rfl (by simp) rfl
  | succ left =>
      cases frames with
      | nil =>
          cases hstep
          exact h.ends h.inv rfl (by simp) rfl
      | cons fpn next =>
          obtain ⟨hzero, hunlisted⟩ :=
            hgrow.ahead (oldEnd / 2 ^ 12 + pgit) (by omega) (Nat.le_refl _)
          have hg : oldEnd / 2 ^ 12 + pgit < userPgns := by omega
          have hmeta := meta_pteSetEntry s c.pid (oldEnd / 2 ^ 12 + pgit) (presentPte fpn)
          have hfifo := fifo_pteSetEntry s c.pid (oldEnd / 2 ^ 12 + pgit) (presentPte fpn)
          rw [← pteSetFpn] at hmeta hfifo
          simp only [allocStep] at hstep
          cases hset : pteSetFpn s c.pid (oldEnd / 2 ^ 12 + pgit) fpn with
          | mk written u =>
              rw [hset] at hmeta hfifo hstep
              cases written with
              | false =>
                  cases hstep
                  exact h.ends (h.inv.pteSetEntry_false h.live hg hset) hmeta (by simp) rfl
              | true =>
                  cases hstep
                  have hbelow : (oldEnd / 2 ^ 12 + pgit) * pageSz < (s.mmap c.pid).sbrk := by
                    have halign := hgrow.aligned
                    have hroom := hgrow.room
                    simp only [pageSz] at *
                    omega
                  have hinv : Inv ok next [] t :=
                    Inv.mapPage h.inv h.live hg hbelow hzero hset
                  have hlookup := lookup_pteSetEntry hg hset
                  refine after hinv ?_ (by simp) fun _ => ⟨hgrow.aligned, hgrow.low, ?_,
                    fun g' hg' hle => ?_, ⟨by simpa using hlen, by omega, huser⟩, fun i f heq => ?_⟩
                  · rw [show t.runningList = s.runningList from congrArg Sys.Meta.runningList hmeta]
                    exact h.live
                  · rw [show t.mmap = s.mmap from congrArg Sys.Meta.mmap hmeta]
                    exact hgrow.room
                  · have hle : oldEnd / 2 ^ 12 + (pgit + 1) ≤ g' := hle
                    obtain ⟨hz, hnot⟩ := hgrow.ahead g' hg' (by
                      change oldEnd / 2 ^ 12 + pgit ≤ g'
                      omega)
                    have hne : pgnPath g' ≠ pgnPath (oldEnd / 2 ^ 12 + pgit) := fun heq => by
                      have := pgnPath_inj hg' hg heq
                      omega
                    refine ⟨?_, hfifo ▸ hnot⟩
                    rw [Sys.pte, hlookup, if_neg fun heq => hne heq.2]
                    exact hz
                  · cases heq
                    exact
                    { user := hg
                      pte := by rw [Sys.pte, hlookup, if_pos ⟨rfl, rfl⟩]
                      lt := h.inv.lt_two_pow_of_held (List.mem_cons_self ..)
                      unlisted := hfifo ▸ hunlisted
                      unstored := fun off hoff => by
                        rw [show t.stores = s.stores from congrArg Sys.Meta.stores hmeta]
                        exact h.inv.lastStore_eq_none h.live hg hzero hoff }

/-- The page is listed, or is to lose its entry again. -/
theorem enlist (h : GrowerInv ok c s ⟨.enlist left pgit fpn next, oldEnd⟩)
    (hstep : allocStep c s ⟨.enlist left pgit fpn next, oldEnd⟩ = some (g', t)) :
    GrowerInv ok c t g' := by
  have hgrow := h.growing rfl
  obtain ⟨hlen, hleft, huser⟩ : next.length ≤ left ∧ pgit + left + 1 = c.pages.toNat ∧
    oldEnd / 2 ^ 12 + c.pages.toNat ≤ userPgns := hgrow.fits
  have hinv := h.inv.enlistPgnNode (p := c.pid) (show oldEnd / 2 ^ 12 + pgit < userPgns by omega)
  simp only [allocStep, Mem.enlistPgnNode] at hstep hinv
  generalize draw s.host = r at hinv hstep
  obtain ⟨_ | _, host⟩ := r
  · cases hstep
    exact h.moves rfl hinv rfl (.of_eq rfl rfl rfl) (by simp) rfl ⟨by omega, huser⟩ (.inr rfl)
  · cases hstep
    refine after hinv h.live (by simp) fun _ => ⟨hgrow.aligned, hgrow.low, hgrow.room,
      fun g' hg' hle => ?_, ⟨hlen, by omega, huser⟩, fun _ _ hplace => by cases hplace⟩
    have hle : oldEnd / 2 ^ 12 + (pgit + 1) ≤ g' := hle
    obtain ⟨hz, hnot⟩ := hgrow.ahead g' hg' hle
    refine ⟨hz, fun hmem => ?_⟩
    simp only [Function.update_self] at hmem
    rcases List.mem_cons.mp hmem with heq | hmem
    · omega
    · exact hnot hmem

/-- Nobody has taken the page in the meantime. -/
theorem clear (h : GrowerInv ok c s ⟨.clear pgit fpn next, oldEnd⟩)
    (hstep : allocStep c s ⟨.clear pgit fpn next, oldEnd⟩ = some (g', t)) :
    GrowerInv ok c t g' := by
  obtain ⟨huser, hpte, hlt, -, hunstored⟩ := (h.growing rfl).placed pgit fpn rfl
  have hhas : (s.pgd c.pid).has (pgnPath (oldEnd / 2 ^ 12 + pgit)) := has_of_pte_ne_zero (by
    rw [hpte]
    exact presentPte_ne_zero fpn)
  cases hstep
  refine h.ends ?_ (meta_pteSetEntry ..) (by simp) rfl
  exact h.inv.unmapPage h.live huser hlt hpte hunstored (by rw [pteSetEntry_of_has huser hhas])

theorem enlistRg {rg : VmRg} (h : GrowerInv ok c s ⟨.enlistRg rg, oldEnd⟩)
    (hstep : allocStep c s ⟨.enlistRg rg, oldEnd⟩ = some (g', t)) : GrowerInv ok c t g' := by
  cases hstep
  exact after (h.inv.setFreerg c.pid _) h.live (by simp) fun hmap => by cases hmap

theorem again {sret : Int} (h : GrowerInv ok c s ⟨.again sret, oldEnd⟩)
    (hstep : allocStep c s ⟨.again sret, oldEnd⟩ = some (g', t)) : GrowerInv ok c t g' := by
  simp only [allocStep] at hstep
  split at hstep
  · cases hstep
    exact h.ends h.inv rfl (by simp) rfl
  · have hinv := h.inv.getFreeVmrgArea c.pid (toInt c.size)
    obtain ⟨l, hl⟩ := getFreeVmrgArea_eq s c.pid (toInt c.size)
    generalize getFreeVmrgArea s c.pid (toInt c.size) = r at hinv hl hstep
    obtain ⟨_ | rg, u⟩ := r
    all_goals
      dsimp only at hl hinv
      subst hl
      cases hstep
    · exact after hinv h.live (by simp) fun hmap => by cases hmap
    · exact after (hinv.setSymrg c.pid c.rgid rg) h.live (by simp) fun hmap => by cases hmap

/-- Every step of the `ALLOC` keeps the invariant. -/
theorem step (h : GrowerInv ok c s g) (hstep : allocStep c s g = some (g', t)) :
    GrowerInv ok c t g' := by
  obtain ⟨pc, oldEnd⟩ := g
  cases pc with
  | search => exact h.search hstep
  | syscall => exact h.syscall hstep
  | getFreefp left frames => exact h.getFreefp hstep
  | swapOut left frames => exact h.swapOut hstep
  | newNode left frames fpn => exact h.newNode hstep
  | release frames back => exact h.release hstep
  | vmap frames => exact h.vmap hstep
  | walk left pgit frames => exact h.walk hstep
  | setFpn left pgit frames => exact h.setFpn hstep
  | enlist left pgit fpn next => exact h.enlist hstep
  | clear pgit fpn next => exact h.clear hstep
  | enlistRg rg => exact h.enlistRg hstep
  | again sret => exact h.again hstep
  | done ret => cases hstep

end GrowerInv

end Ossim.Mem
