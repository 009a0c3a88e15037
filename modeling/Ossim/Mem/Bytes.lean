import Ossim.Mem.KernelTable
import Ossim.Mem.Residency

/-!
The memory as programs see it.

A place is an address of a live process in the lower half, or an address of
the kernel; the byte at a place is looked up through the page tables, in RAM
or in the swap. Page faults move pages between frames, entries and devices,
and no place sees any of it. A store through a region changes one place.
-/

namespace Ossim.Mem

open Ossim.Lib

/-- A place of the memory. -/
inductive Place
  | user (q : Pid) (addr : Nat)
  | kernel (addr : Nat)
  deriving DecidableEq

/-- The byte at a place, if there is one. -/
def Sys.byteAt (s : Sys) : Place → Option Byte
  | .user q addr =>
    if q ∈ s.runningList ∧ addr < 2 ^ 56 then
      s.pteByte (s.pte q (addr / pageSz)) (addr % pageSz)
    else none
  | .kernel addr =>
    if addr < 2 ^ 64 then (kernelTranslateVaddr s addr).map (s.storage .mram) else none

theorem byteAt_setStores (s : Sys) (stores : List Store) :
    ({ s with stores := stores } : Sys).byteAt = s.byteAt := by
  funext l
  cases l <;> rfl

theorem pteByte_congr {s t : Sys} (h : t.storage = s.storage) (pte off : Nat) :
    t.pteByte pte off = s.pteByte pte off := by
  rw [Sys.pteByte, Sys.pteByte, h]

/-! ### Pages -/

/-- Every page of every live process has the same bytes. -/
structure SameContents (s t : Sys) : Prop where
  running : t.runningList = s.runningList
  bytes : ∀ q ∈ s.runningList, ∀ g < userPgns, ∀ off < pageSz,
    t.pteByte (t.pte q g) off = s.pteByte (s.pte q g) off

namespace SameContents

variable {s t u : Sys}

theorem refl (s : Sys) : SameContents s s := ⟨rfl, fun _ _ _ _ _ _ => rfl⟩

theorem trans (h : SameContents s t) (h' : SameContents t u) : SameContents s u where
  running := h'.running.trans h.running
  bytes := fun q hq g hg off hoff =>
    (h'.bytes q (h.running ▸ hq) g hg off hoff).trans (h.bytes q hq g hg off hoff)

/-- Lists and counters do not matter. -/
theorem of_eq (hrun : t.runningList = s.runningList) (hpgd : t.pgd = s.pgd)
    (hst : t.storage = s.storage) : SameContents s t where
  running := hrun
  bytes := fun q _ g _ off _ => by rw [Sys.pte, hpgd, pteByte_congr hst, Sys.pte]

/-- One entry is written, and leads to the same bytes. -/
theorem of_pte {p : Pid} {g v : Nat} (hrun : t.runningList = s.runningList)
    (hst : t.storage = s.storage)
    (hpte : ∀ q, ∀ g' < userPgns, t.pte q g' = if q = p ∧ g' = g then v else s.pte q g')
    (hv : ∀ off < pageSz, s.pteByte v off = s.pteByte (s.pte p g) off) : SameContents s t where
  running := hrun
  bytes := fun q _ g' hg' off hoff => by
    rw [hpte q g' hg', pteByte_congr hst]
    split
    · rename_i heq
      rw [heq.1, heq.2, hv off hoff]
    · rfl

/-- A frame is written that no page is in. -/
theorem setFrame {ok : Prop} {ram swp : List Nat} {d : Dev} {x : Nat} {st : Nat → Byte}
    (hinv : Inv ok ram swp s) (hst : ∀ a, a / pageSz ≠ x → st a = s.storage d a)
    (hx : ∀ q ∈ s.runningList, ∀ g, owns d x (s.pte q g) = false) :
    SameContents s (s.setStorage d st) where
  running := rfl
  bytes := fun q hq g _ _ hoff => (hinv.wf q hq (pgnPath g)).pteByte_setFrame hst (hx q hq g) hoff

end SameContents

namespace Inv

variable {ok : Prop} {ram swp : List Nat} {s t : Sys} {p q : Pid} {g : Nat}

/-- No page is in a free frame. -/
theorem not_owns_of_free {d : Dev} {x : Nat} (h : Inv ok ram swp s) (hx : x ∈ s.freeFpList d)
    (hq : q ∈ s.runningList) : owns d x (s.pte q g) = false := by
  by_contra hown
  exact (h.of_owns hq (by simpa using hown)).2.1 hx

/-- The victim finds in the swap what it had in RAM, and nobody else looks
into the swap frame that was free. -/
theorem sameContents_evicted (h : Inv ok ram swp s) {f o : Nat} (hg : g < userPgns)
    (hf : f < 2 ^ 40)
    (ho : o ∈ s.freeFpList .mswp) (hpte : s.pte q g = presentPte f) :
    SameContents s (evicted s q g f o) := by
  have hlt : o < 2 ^ 40 := by
    have hcount := h.owners .mswp o
    have hpos := List.count_pos_iff.mpr ho
    have hsmall := (h.usable .mswp).numfp_lt
    simp only [Sys.owners] at hcount
    by_contra hge
    rw [if_neg (by omega)] at hcount
    omega
  have hcopy : SameContents s (s.setStorage .mswp
      (Mem.copyPage (s.storage .mram) f (s.storage .mswp) o)) := by
    exact .setFrame (x := o) h (fun a ha => if_neg ha) fun q hq g => h.not_owns_of_free ho hq
  refine hcopy.trans (.of_pte (p := q) (g := g) (v := swappedPte activeMswpId o) rfl rfl
    (fun q' g' hg' => ?_) fun off hoff => ?_)
  · exact pte_evicted (has_of_pte_ne_zero (by rw [hpte]; simp [presentPte])) hg f o q' hg'
  · rw [Sys.pteByte_swappedPte _ hlt]
    change _ = (s.setStorage .mswp _).pteByte (s.pte q g) off
    rw [hpte, Sys.pteByte_presentPte _ hf]
    simp only [Sys.setStorage, Function.update_self]
    rw [copyPage_self _ _ _ _ hoff]
    rfl

theorem sameContents_swapOut (h : Inv ok ram swp s) (hp : p ∈ s.runningList) :
    SameContents s (Mem.swapOutVictimPage s p).2 := by
  cases hfree : s.freeFpList .mswp with
  | nil =>
      rw [Mem.swapOutVictimPage, memphyGetFreefp, hfree]
      exact .refl s
  | cons o rest =>
      cases hvic : findGlobalVictim (s.setSwapFree rest) p with
      | mk vic t =>
          cases vic with
          | none =>
              obtain ⟨fifo, ht, -⟩ := findGlobalVictim_spec (s.setSwapFree rest) p
              rw [hvic] at ht
              dsimp only at ht
              subst ht
              have hget : memphyGetFreefp s .mswp = some (o, s.setSwapFree rest) := by
                rw [memphyGetFreefp, hfree]
                rfl
              rw [Mem.swapOutVictimPage, hget]
              dsimp only
              rw [hvic]
              refine .of_eq ?_ (pgd_memphyPutFreefp ..) (storage_memphyPutFreefp ..)
              exact congrArg Sys.Meta.runningList (meta_memphyPutFreefp _ _ _)
          | some vic =>
              obtain ⟨q, g, v⟩ := vic
              rw [h.swapOut_found hp hfree hvic]
              obtain ⟨-, hg, -, hpte, heq, hf, fifo, rfl⟩ := h.of_victim hp hvic
              have hsame := h.sameContents_evicted (o := o) hg hf (by simp [hfree]) (hpte.trans heq)
              exact hsame.trans (.of_eq rfl rfl rfl)

theorem sameContents_pgGetpage (h : Inv ok ram swp s) (hp : p ∈ s.runningList) (hg : g < userPgns) :
    SameContents s (Mem.pgGetpage s p g).2 := by
  have hsame := h.sameContents_swapOut hp
  generalize hr : Mem.pgGetpage s p g = r
  cases pgGetpage_cases hr with
  | present => exact .refl s
  | absent => exact .refl s
  | noFrame t _ _ hout =>
      rw [hout] at hsame
      exact hsame
  | noCopy f t st hpres hswap hout hcopy =>
      obtain ⟨o, -, hslot, -, -, -, hcp⟩ := h.copyBack hp hg hpres hswap hout
      rw [hslot, hcp] at hcopy
      cases hcopy
  | back f t st u hpres hswap hout hcopy hu =>
      obtain ⟨o, ho, hslot, hpte, -, hinv, hcp⟩ := h.copyBack hp hg hpres hswap hout
      rw [hout] at hsame
      rw [hslot, hcp] at hcopy
      rw [hslot, ← (Prod.mk.inj hcopy).2, broughtIn] at hu
      have hf : f < 2 ^ 40 := hinv.lt_two_pow_of_held (List.mem_cons_self ..)
      have hcopied : SameContents t (t.setStorage .mram
          (Mem.copyPage (t.storage .mswp) o (t.storage .mram) f)) :=
        .setFrame (x := f) hinv (fun a ha => if_neg ha)
          fun q hq g => hinv.not_owns_of_held (d := .mram) (List.mem_cons_self ..) hq
      have hbyte (off : Nat) (hoff : off < pageSz) :
          (t.setStorage .mram (Mem.copyPage (t.storage .mswp) o (t.storage .mram) f)).pteByte
            (presentPte f) off =
          (t.setStorage .mram (Mem.copyPage (t.storage .mswp) o (t.storage .mram) f)).pteByte
            (swappedPte activeMswpId o) off := by
        rw [Sys.pteByte_presentPte _ hf, Sys.pteByte_swappedPte _ ho]
        simp only [Sys.setStorage, Function.update_self]
        rw [copyPage_self _ _ _ _ hoff]
        rfl
      have hpte₂ : (t.setStorage .mram
          (Mem.copyPage (t.storage .mswp) o (t.storage .mram) f)).pte p g =
            swappedPte activeMswpId o := hpte
      refine hsame.trans (hcopied.trans ?_)
      generalize t.setStorage .mram
        (Mem.copyPage (t.storage .mswp) o (t.storage .mram) f) = s₂ at hbyte hpte₂ hu ⊢
      have hhas : (s₂.pgd p).has (pgnPath g) := has_of_pte_ne_zero (by
        rw [hpte₂]
        simp [swappedPte])
      rw [pteSetFpn, pteSetEntry_memphyPutFreefp hg hhas] at hu
      have hset := pteSetEntry_of_has (v := presentPte f) hg hhas
      refine .of_pte (p := p) (g := g) (v := presentPte f) ?_ ?_ (fun q g' hg' => ?_)
        fun off hoff => ?_
      · rw [hu]
        exact congrArg Sys.Meta.runningList ((meta_enlistPgnNode ..).trans
          ((meta_memphyPutFreefp ..).trans (meta_pteSetEntry ..)))
      · rw [hu, storage_enlistPgnNode, storage_memphyPutFreefp, storage_pteSetEntry]
      · rw [hu, Sys.pte, pgd_enlistPgnNode, pgd_memphyPutFreefp, hset, lookup_pteSetEntry hg hset]
        exact if_congr (and_congr_right fun _ => ⟨pgnPath_inj hg' hg, congrArg pgnPath⟩) rfl rfl
      · rw [hpte₂, hbyte off hoff]

/-! ### Places -/

/-- Nothing a program can see has changed. -/
theorem byteAt_eq (h : Inv ok ram swp s) (hpages : SameContents s t) (hkrnl : t.krnlPgd = s.krnlPgd)
    (hused : KeepsUsed s t) : t.byteAt = s.byteAt := by
  funext l
  cases l with
  | user q addr =>
      simp only [Sys.byteAt, hpages.running]
      split
      · rename_i hq
        refine hpages.bytes q hq.1 _ ?_ _ (Nat.mod_lt _ (by decide))
        simp only [userPgns, pageSz]
        omega
      · rfl
  | kernel addr =>
      simp only [Sys.byteAt]
      split
      · rename_i haddr
        have htrans : kernelTranslateVaddr t addr = kernelTranslateVaddr s addr := by
          rw [kernelTranslateVaddr, kernelTranslateVaddr, kernelPte, kernelPte, hkrnl]
        rw [htrans]
        cases hphys : kernelTranslateVaddr s addr with
        | none => rfl
        | some phys =>
            exact congrArg some (hused phys (h.of_translate haddr hphys).2)
      · rfl

theorem byteAt_pgGetpage (h : Inv ok ram swp s) (hp : p ∈ s.runningList) (hg : g < userPgns) :
    (Mem.pgGetpage s p g).2.byteAt = s.byteAt :=
  h.byteAt_eq (h.sameContents_pgGetpage hp hg) (h.krnlPgd_pgGetpage hp hg) (h.pgGetpage hp hg).keeps

/-- The byte of an address whose page is present. -/
theorem byteAt_present {addr f : Nat} (hp : p ∈ s.runningList) (haddr : addr < 2 ^ 56)
    (hf : f < 2 ^ 40) (hpte : s.pte p (addr / 2 ^ 12) = presentPte f) :
    s.byteAt (.user p addr) = some (s.storage .mram (f * pageSz + addr % 2 ^ 12)) := by
  rw [Sys.byteAt, if_pos ⟨hp, haddr⟩, show pageSz = 2 ^ 12 from rfl, hpte,
    Sys.pteByte_presentPte _ hf]
  rfl

theorem byteAt_pgGetval {addr : Nat} {r : Option Byte} (h : Inv ok ram swp s)
    (hp : p ∈ s.runningList) (haddr : addr < 2 ^ 56) (hget : Mem.pgGetval s p addr = (r, t)) :
    t.byteAt = s.byteAt ∧ ∀ b, r = some b → s.byteAt (.user p addr) = some b := by
  have hg : addr / 2 ^ 12 < userPgns := by simp only [userPgns]; omega
  have hsame := h.byteAt_pgGetpage hp hg
  have hpage := h.pgGetpage hp hg
  have hmeta := meta_pgGetpage s p (addr / 2 ^ 12)
  rw [Mem.pgGetval] at hget
  generalize Mem.pgGetpage s p (addr / 2 ^ 12) = x at hsame hpage hmeta hget
  obtain ⟨_ | f, u⟩ := x
  · cases hget
    exact ⟨hsame, fun b hb => by cases hb⟩
  · cases hget
    refine ⟨hsame, fun b hb => ?_⟩
    obtain ⟨hpte, hf⟩ := hpage.mapped f rfl
    have hp' : p ∈ t.runningList := by
      rw [show t.runningList = s.runningList from congrArg Sys.Meta.runningList hmeta]
      exact hp
    rw [← hsame, byteAt_present hp' haddr hf hpte, memphyRead_eq_some hb]

/-- One byte of a page in RAM is one place. -/
theorem byteAt_poke {addr f : Nat} (v : Byte) (h : Inv ok ram swp s) (hp : p ∈ s.runningList)
    (haddr : addr < 2 ^ 56) (hf : f < 2 ^ 40) (hpte : s.pte p (addr / 2 ^ 12) = presentPte f) :
    (s.poke .mram (f * pageSz + addr % 2 ^ 12) v).byteAt =
      Function.update s.byteAt (.user p addr) (some v) := by
  have hg : addr / 2 ^ 12 < userPgns := by simp only [userPgns]; omega
  have hoff : addr % 2 ^ 12 < pageSz := Nat.mod_lt _ (by decide)
  funext l
  rcases eq_or_ne l (.user p addr) with rfl | hl
  · have hbyte := byteAt_present (s := s.poke .mram (f * pageSz + addr % 2 ^ 12) v) hp haddr hf hpte
    rw [Function.update_self, hbyte]
    simp only [Sys.poke, Sys.setStorage, Function.update_self]
  · rw [Function.update_of_ne hl]
    cases l with
    | user q addr' =>
        rw [Sys.byteAt, Sys.byteAt]
        refine ite_congr rfl (fun hq => ?_) fun _ => rfl
        refine h.pteByte_poke v hp hg hf hpte hoff hq.1 ?_ (Nat.mod_lt _ (by decide)) ?_
        · simp only [userPgns, pageSz]
          omega
        · rintro ⟨rfl, heq⟩
          refine hl (congrArg _ ?_)
          simp only [pageSz] at heq
          omega
    | kernel a =>
        rw [Sys.byteAt, Sys.byteAt]
        refine ite_congr rfl (fun ha => ?_) fun _ => rfl
        change (kernelTranslateVaddr s a).map _ = _
        cases hphys : kernelTranslateVaddr s a with
        | none => rfl
        | some phys =>
            -- kernel bytes are in used frames
            have hused := h.not_owns_of_used (g := addr / 2 ^ 12) hp (h.of_translate ha hphys).2
            have hne : phys ≠ f * pageSz + addr % 2 ^ 12 := by
              rintro rfl
              rw [hpte, owns_presentPte hf] at hused
              simp only [decide_true, Bool.true_and, beq_eq_false_iff_ne, pageSz] at hused
              omega
            simp only [Option.map_some, Sys.poke, Sys.setStorage, Function.update_self,
              Function.update_of_ne hne]

/-- One byte of a kernel page is one place. -/
theorem byteAt_pokeKernel {a phys : Nat} (v : Byte) (h : Inv ok ram swp s) (ha : a < 2 ^ 64)
    (hphys : kernelTranslateVaddr s a = some phys) :
    (s.poke .mram phys v).byteAt = Function.update s.byteAt (.kernel a) (some v) := by
  obtain ⟨hlin, hused⟩ := h.of_translate ha hphys
  funext l
  rcases eq_or_ne l (.kernel a) with rfl | hl
  · rw [Function.update_self, Sys.byteAt, if_pos ha]
    change (kernelTranslateVaddr s a).map _ = _
    rw [hphys]
    simp only [Option.map_some, Sys.poke, Sys.setStorage, Function.update_self]
  · rw [Function.update_of_ne hl]
    cases l with
    | user q addr =>
        rw [Sys.byteAt, Sys.byteAt]
        refine ite_congr rfl (fun hq => ?_) fun _ => rfl
        refine (h.wf q hq.1 _).pteByte_setFrame (fun b hb => Function.update_of_ne ?_ _ _)
          (h.not_owns_of_used hq.1 hused) (Nat.mod_lt _ (by decide))
        rintro rfl
        exact hb rfl
    | kernel b =>
        rw [Sys.byteAt, Sys.byteAt]
        refine ite_congr rfl (fun hb => ?_) fun _ => rfl
        change (kernelTranslateVaddr s b).map _ = _
        cases hphys' : kernelTranslateVaddr s b with
        | none => rfl
        | some phys' =>
            have hne : phys' ≠ phys := by
              rintro rfl
              refine hl (congrArg _ ?_)
              rw [(h.of_translate hb hphys').1, hlin]
            simp only [Option.map_some, Sys.poke, Sys.setStorage, Function.update_self,
              Function.update_of_ne hne]

/-- A store that succeeds changes the place it is for and no other. -/
theorem byteAt_pgSetval {addr : Nat} {v : Byte} {c r : Bool} (h : Inv ok ram swp s)
    (hp : p ∈ s.runningList) (haddr : addr < 2 ^ 56)
    (hset : Mem.pgSetval s p addr v c = (r, t)) :
    t.byteAt = if r then Function.update s.byteAt (.user p addr) (some v) else s.byteAt := by
  have hg : addr / 2 ^ 12 < userPgns := by simp only [userPgns]; omega
  have hoff : addr % 2 ^ 12 < pageSz := Nat.mod_lt _ (by decide)
  have hsame := h.byteAt_pgGetpage hp hg
  have hpage := h.pgGetpage hp hg
  have hmeta := meta_pgGetpage s p (addr / 2 ^ 12)
  rw [Mem.pgSetval] at hset
  generalize Mem.pgGetpage s p (addr / 2 ^ 12) = x at hsame hpage hmeta hset
  obtain ⟨_ | f, u⟩ := x
  · cases hset
    exact hsame
  · dsimp only at hset
    split at hset
    · cases hset
      exact hsame
    · rename_i w hw
      cases hset
      obtain ⟨hinv, -, hmapped⟩ := hpage
      obtain ⟨hpte, hf⟩ := hmapped f rfl
      have hp' : p ∈ u.runningList := by
        rw [show u.runningList = s.runningList from congrArg Sys.Meta.runningList hmeta]
        exact hp
      rw [byteAt_setStores, memphyWrite_eq_some hw, if_pos rfl, ← hsame]
      exact hinv.byteAt_poke v hp' haddr hf hpte

end Inv

end Ossim.Mem
