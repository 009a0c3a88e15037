import Ossim.Mem.Growth

/-!
Page faults and single bytes: `pg_getpage`, `pg_getval` and `pg_setval`.

A page that comes back from the swap takes the frame of a victim. The swap
frame it came from is put back before its entry is rewritten, so between
the two calls it has two owners; since the tables of the page exist, the
two calls can be read in the other order.
-/

namespace Ossim.Mem

open Ossim.Lib

/-! ### The course of a fault -/

/-- The end of a fault: the swap frame goes back, the entry names the frame
the page is in now, and the page is enlisted. -/
def broughtIn (s : Sys) (p : Pid) (g f o : Nat) : Sys :=
  (enlistPgnNode (pteSetFpn (memphyPutFreefp s .mswp o) p g f).2 p g).2

/-- What `pg_getpage` can do. -/
inductive PageFault (s : Sys) (p : Pid) (g : Nat) : Option Nat × Sys → Prop
  | present (hpres : pagePresent (pteGetEntry s p g) = true) :
      PageFault s p g (some (pteFpn (pteGetEntry s p g)), s)
  | absent (hpres : pagePresent (pteGetEntry s p g) = false)
      (hswap : pageSwapped (pteGetEntry s p g) = false) : PageFault s p g (none, s)
  | noFrame (t : Sys) (hpres : pagePresent (pteGetEntry s p g) = false)
      (hswap : pageSwapped (pteGetEntry s p g) = true)
      (hout : swapOutVictimPage s p = (none, t)) : PageFault s p g (none, t)
  | noCopy (f : Nat) (t : Sys) (st : Dev → Nat → Byte)
      (hpres : pagePresent (pteGetEntry s p g) = false)
      (hswap : pageSwapped (pteGetEntry s p g) = true)
      (hout : swapOutVictimPage s p = (some f, t))
      (hcopy : swapCpPage t .mswp (pteSwp (pteGetEntry s p g)) .mram f =
        (false, { t with storage := st })) : PageFault s p g (none, { t with storage := st })
  | back (f : Nat) (t : Sys) (st : Dev → Nat → Byte) (u : Sys)
      (hpres : pagePresent (pteGetEntry s p g) = false)
      (hswap : pageSwapped (pteGetEntry s p g) = true)
      (hout : swapOutVictimPage s p = (some f, t))
      (hcopy : swapCpPage t .mswp (pteSwp (pteGetEntry s p g)) .mram f =
        (true, { t with storage := st }))
      (hu : u = broughtIn { t with storage := st } p g f (pteSwp (pteGetEntry s p g))) :
      PageFault s p g (some (pteFpn (pteGetEntry u p g)), u)

theorem pgGetpage_cases {s : Sys} {p : Pid} {g : Nat} {r : Option Nat × Sys}
    (h : pgGetpage s p g = r) : PageFault s p g r := by
  rw [pgGetpage] at h
  dsimp only at h
  cases hpres : pagePresent (pteGetEntry s p g) with
  | true =>
      rw [if_pos hpres] at h
      subst h
      exact .present hpres
  | false =>
      rw [hpres, if_neg Bool.false_ne_true] at h
      cases hswap : pageSwapped (pteGetEntry s p g) with
      | false =>
          rw [hswap] at h
          subst h
          exact .absent hpres hswap
      | true =>
          rw [hswap] at h
          cases hout : swapOutVictimPage s p with
          | mk found t =>
              rw [hout] at h
              cases found with
              | none =>
                  subst h
                  exact .noFrame t hpres hswap hout
              | some f =>
                  obtain ⟨st, hst⟩ :=
                    swapCpPage_eq t .mswp (pteSwp (pteGetEntry s p g)) .mram f
                  cases hcopy : swapCpPage t .mswp (pteSwp (pteGetEntry s p g)) .mram f with
                  | mk done u =>
                      rw [hcopy] at hst
                      obtain rfl : u = { t with storage := st } := hst
                      dsimp only at h
                      rw [hcopy] at h
                      cases done with
                      | false =>
                          subst h
                          exact .noCopy f t st hpres hswap hout hcopy
                      | true =>
                          subst h
                          exact .back f t st _ hpres hswap hout hcopy rfl

/-! ### What a fault never touches -/

@[simp] theorem meta_broughtIn (s : Sys) (p : Pid) (g f o : Nat) :
    (broughtIn s p g f o).meta = s.meta := by
  rw [broughtIn, meta_enlistPgnNode, pteSetFpn, meta_pteSetEntry, meta_memphyPutFreefp]

@[simp] theorem meta_pgGetpage (s : Sys) (p : Pid) (g : Nat) :
    (pgGetpage s p g).2.meta = s.meta := by
  have hmeta := meta_swapOutVictimPage s p
  generalize hr : pgGetpage s p g = r
  cases pgGetpage_cases hr with
  | present => rfl
  | absent => rfl
  | noFrame t _ _ hout =>
      rw [hout] at hmeta
      exact hmeta
  | noCopy f t st _ _ hout =>
      rw [hout] at hmeta
      exact hmeta
  | back f t st u _ _ hout _ hu =>
      rw [hout] at hmeta
      rw [hu, meta_broughtIn]
      exact hmeta

@[simp] theorem meta_pgGetval (s : Sys) (p : Pid) (addr : Nat) :
    (pgGetval s p addr).2.meta = s.meta := by
  have hpage := meta_pgGetpage s p (addr / 2 ^ 12)
  rw [pgGetval]
  generalize pgGetpage s p (addr / 2 ^ 12) = r at hpage ⊢
  obtain ⟨_ | f, t⟩ := r <;> exact hpage

/-- A store adds to the record and touches nothing else of this part. -/
theorem meta_pgSetval (s : Sys) (p : Pid) (addr : Nat) (v : Byte) (copied : Bool) :
    ∃ stores, (pgSetval s p addr v copied).2.meta = { s.meta with stores := stores } := by
  have hpage := meta_pgGetpage s p (addr / 2 ^ 12)
  rw [pgSetval]
  generalize pgGetpage s p (addr / 2 ^ 12) = r at hpage ⊢
  obtain ⟨_ | f, t⟩ := r
  · exact ⟨s.stores, hpage⟩
  · dsimp only
    split
    · exact ⟨s.stores, hpage⟩
    · rename_i u hu
      rw [memphyWrite_eq_some hu, ← hpage]
      exact ⟨_, rfl⟩

/-- With its tables there, an entry may be written before or after a frame
is put back. -/
theorem pteSetEntry_memphyPutFreefp {s : Sys} {p : Pid} {g : Nat} (hg : g < userPgns)
    (hhas : (s.pgd p).has (pgnPath g)) (d : Dev) (x v : Nat) :
    pteSetEntry (memphyPutFreefp s d x) p g v =
      (true, memphyPutFreefp (pteSetEntry s p g v).2 d x) := by
  have hput := pgd_memphyPutFreefp s d x
  rw [pteSetEntry_user hg, pteSetEntry_user hg, hput]
  simp only [Radix.write_of_has hhas]
  refine Prod.ext rfl ?_
  obtain ⟨hhost, hput⟩ | ⟨hhost, hput⟩ := memphyPutFreefp_cases s d x
  all_goals
    rw [hput]
    simp only [memphyPutFreefp, draw, hhost]

/-! ### The invariant -/

namespace Inv

variable {ok : Prop} {ram swp : List Nat} {s t : Sys} {p : Pid} {g : Nat}

/-- A swapped page comes back into a held frame that has its bytes, and its
swap frame is held instead. -/
theorem swapIn {f o : Nat} (h : Inv ok (f :: ram) swp s) (hp : p ∈ s.runningList)
    (hg : g < userPgns) (ho : o < 2 ^ 40) (hpte : s.pte p g = swappedPte activeMswpId o)
    (hcopy : ∀ off < pageSz,
      s.storage .mram (f * pageSz + off) = s.storage .mswp (o * pageSz + off))
    (hset : pteSetFpn s p g f = (true, t)) : Inv ok ram (o :: swp) t := by
  have hf := h.lt_two_pow_of_held (List.mem_cons_self ..)
  refine h.pteSetEntry_true hp hg hset (.present hf) (fun hsbrk => ?_) (fun d x => ?_)
    (fun off hoff e he => ?_)
  · have hzero := h.above p hp g hg hsbrk
    rw [hpte] at hzero
    simp [swappedPte] at hzero
  · rw [owns_presentPte hf, hpte, owns_swappedPte ho]
    cases d <;> simp [held, List.count_cons]
  · have hbyte := h.content p hp g hg off hoff e he
    rw [hpte, Sys.pteByte_swappedPte _ ho] at hbyte
    rw [Sys.pteByte_presentPte _ hf, hcopy off hoff, hbyte]

/-- The bytes of the used frames are the same. -/
def KeepsUsed (s t : Sys) : Prop :=
  ∀ a, a / pageSz ∈ (s.usedFpList .mram).map UsedFrame.fpn → t.storage .mram a = s.storage .mram a

/-- What `pg_getpage` leaves: the page is present in the frame it returns. -/
structure PageIn (ok : Prop) (ram swp : List Nat) (s : Sys) (p : Pid) (g : Nat)
    (r : Option Nat × Sys) : Prop where
  inv : Inv ok ram swp r.2
  keeps : KeepsUsed s r.2
  mapped : ∀ f, r.1 = some f → r.2.pte p g = presentPte f ∧ f < 2 ^ 40

/-- After an eviction the page can be copied into the frame that is free. -/
theorem copyBack {f : Nat} {t : Sys} (h : Inv ok ram swp s) (hp : p ∈ s.runningList)
    (hg : g < userPgns) (hpres : pagePresent (pteGetEntry s p g) = false)
    (hswap : pageSwapped (pteGetEntry s p g) = true)
    (hout : Mem.swapOutVictimPage s p = (some f, t)) :
    ∃ o < 2 ^ 40, pteSwp (pteGetEntry s p g) = o ∧ t.pte p g = swappedPte activeMswpId o ∧
      p ∈ t.runningList ∧ Inv ok (f :: ram) swp t ∧
      swapCpPage t .mswp o .mram f =
        (true, t.setStorage .mram (Mem.copyPage (t.storage .mswp) o (t.storage .mram) f)) := by
  have hentry : pteGetEntry s p g = s.pte p g := pteGetEntry_user hg
  have hwf : WfPte (s.pte p g) := h.wf p hp (pgnPath g)
  have hmeta := meta_swapOutVictimPage s p
  have hevicts := evicts_swapOutVictimPage s p
  have hinv := h.swapOutVictimPage hp
  rw [hout] at hmeta hevicts hinv
  rw [hentry] at hpres hswap ⊢
  obtain ⟨heq, ho⟩ := hwf.eq_swapped hswap
  have hrun : t.runningList = s.runningList := congrArg Sys.Meta.runningList hmeta
  have hp' : p ∈ t.runningList := hrun ▸ hp
  have hpte : t.pte p g = swappedPte activeMswpId (pteSwp (s.pte p g)) :=
    (hevicts.eq_of_not_present hpres).trans heq
  have hown : owns .mswp (pteSwp (s.pte p g)) (t.pte p g) = true := by
    rw [hpte, owns_swappedPte ho]
    simp
  refine ⟨_, ho, rfl, hpte, hp', hinv, ?_⟩
  exact swapCpPage_frames (by decide) (hinv.usable .mswp) (hinv.usable .mram)
    (hinv.of_owns hp' hown).1 (hinv.lt_of_held (d := .mram) (List.mem_cons_self ..))

/-- Filling a frame that is held changes no used frame. -/
theorem keepsUsed_copyPage {f : Nat} (h : Inv ok (f :: ram) swp s) (o : Nat) :
    KeepsUsed s (s.setStorage .mram
      (Mem.copyPage (s.storage .mswp) o (s.storage .mram) f)) := by
  intro a ha
  have hne : a / pageSz ≠ f := by
    rintro rfl
    have hle := h.owners_le .mram (a / pageSz)
    have hused := List.count_pos_iff.mpr ha
    have hheld : 0 < (held (a / pageSz :: ram) swp .mram).count (a / pageSz) :=
      List.count_pos_iff.mpr (List.mem_cons_self ..)
    simp only [Sys.owners] at hle
    omega
  simp only [Sys.setStorage, Function.update_self, Mem.copyPage, if_neg hne]

theorem pgGetpage (h : Inv ok ram swp s) (hp : p ∈ s.runningList) (hg : g < userPgns) :
    PageIn ok ram swp s p g (Mem.pgGetpage s p g) := by
  have hentry : pteGetEntry s p g = s.pte p g := pteGetEntry_user hg
  generalize hr : Mem.pgGetpage s p g = r
  cases pgGetpage_cases hr with
  | present hpres =>
      rw [hentry] at hpres ⊢
      obtain ⟨heq, hf⟩ := (h.wf p hp (pgnPath g)).eq_present hpres
      refine ⟨h, fun _ _ => rfl, fun f hf' => ?_⟩
      cases hf'
      exact ⟨heq, hf⟩
  | absent => exact ⟨h, fun _ _ => rfl, fun f hf => by cases hf⟩
  | noFrame t _ _ hout =>
      have hinv := h.swapOutVictimPage hp
      have hmram := mram_swapOutVictimPage s p
      rw [hout] at hinv hmram
      exact ⟨hinv, fun a _ => congrFun hmram a, fun f hf => by cases hf⟩
  | noCopy f t st hpres hswap hout hcopy =>
      obtain ⟨o, -, hslot, -, -, -, hcp⟩ := h.copyBack hp hg hpres hswap hout
      rw [hslot, hcp] at hcopy
      cases hcopy
  | back f t st u hpres hswap hout hcopy hu =>
      obtain ⟨o, ho, hslot, hpte, hp₁, hinv, hcp⟩ := h.copyBack hp hg hpres hswap hout
      rw [hslot, hcp] at hcopy
      rw [hslot, ← (Prod.mk.inj hcopy).2, broughtIn] at hu
      have hfheld : f ∈ held (f :: ram) swp .mram := List.mem_cons_self ..
      have hkept : KeepsUsed s (t.setStorage .mram
          (Mem.copyPage (t.storage .mswp) o (t.storage .mram) f)) := by
        intro a ha
        have hmeta := meta_swapOutVictimPage s p
        have hmram := mram_swapOutVictimPage s p
        rw [hout] at hmeta hmram
        rw [← show t.usedFpList = s.usedFpList from congrArg Sys.Meta.usedFpList hmeta] at ha
        exact (hinv.keepsUsed_copyPage o a ha).trans (congrFun hmram a)
      have h₂ := hinv.copyPage .mswp o hfheld
      generalize hs₂ : t.setStorage .mram
        (Mem.copyPage (t.storage .mswp) o (t.storage .mram) f) = s₂ at h₂ hu hkept
      have hpte₂ : s₂.pte p g = swappedPte activeMswpId o := by
        rw [← hs₂]
        exact hpte
      have hp₂ : p ∈ s₂.runningList := by
        rw [← hs₂]
        exact hp₁
      have hcopied : ∀ off < pageSz,
          s₂.storage .mram (f * pageSz + off) = s₂.storage .mswp (o * pageSz + off) := by
        intro off hoff
        rw [← hs₂]
        exact copyPage_self _ _ _ _ hoff
      have hhas : (s₂.pgd p).has (pgnPath g) := by
        by_contra hnot
        have hzero : s₂.pte p g = 0 := Radix.lookup_of_not_has (by simpa using hnot)
        rw [hpte₂] at hzero
        simp [swappedPte] at hzero
      have hset : pteSetFpn s₂ p g f = (true, (pteSetFpn s₂ p g f).2) := by
        refine Prod.ext ?_ rfl
        rw [pteSetFpn, pteSetEntry_user hg, Radix.write_of_has hhas]
      have h₃ := (h₂.swapIn hp₂ hg ho hpte₂ hcopied hset).putFreefp_mswp
      have hf : f < 2 ^ 40 := h₂.lt_two_pow_of_held (List.mem_cons_self ..)
      -- the swap frame may as well be put back after the entry is written
      rw [pteSetFpn, pteSetEntry_memphyPutFreefp hg hhas, ← pteSetFpn] at hu
      have h₄ := h₃.enlistPgnNode (p := p) hg
      rw [← hu] at h₄
      have hpte₄ : u.pte p g = presentPte f := by
        rw [hu, Sys.pte, pgd_enlistPgnNode, pgd_memphyPutFreefp, lookup_pteSetEntry hg hset,
          if_pos ⟨rfl, rfl⟩]
      rw [pteGetEntry_user hg, ← Sys.pte, hpte₄, pteFpn_presentPte hf]
      refine ⟨h₄, fun a ha => ?_, fun f' hf' => ?_⟩
      · rw [hu, storage_enlistPgnNode, storage_memphyPutFreefp, pteSetFpn, storage_pteSetEntry]
        exact hkept a ha
      · cases hf'
        exact ⟨hpte₄, hf⟩

/-- The byte that was stored last is in the frame of its page. -/
theorem ram_of_lastStore {addr f : Nat} {e : Store} (h : Inv ok ram swp s) (hp : p ∈ s.runningList)
    (haddr : addr < 2 ^ 56) (hf : f < 2 ^ 40) (hpte : s.pte p (addr / 2 ^ 12) = presentPte f)
    (he : lastStore s.stores p addr = some e) :
    s.storage .mram (f * pageSz + addr % 2 ^ 12) = e.value := by
  have hsplit : addr / 2 ^ 12 * pageSz + addr % 2 ^ 12 = addr := Nat.div_add_mod' _ _
  rw [← hsplit] at he
  have hbyte := h.content p hp _ (by simp only [userPgns]; omega) _ (Nat.mod_lt _ (by decide)) e he
  rw [hpte, Sys.pteByte_presentPte _ hf] at hbyte
  exact Option.some.inj hbyte

/-- A byte read from a user page is the one its process stored there last. -/
theorem pgGetval {addr : Nat} (h : Inv ok ram swp s) (hp : p ∈ s.runningList)
    (haddr : addr < 2 ^ 56) :
    Inv ok ram swp (Mem.pgGetval s p addr).2 ∧
      ∀ b e, (Mem.pgGetval s p addr).1 = some b → lastStore s.stores p addr = some e →
        b = e.value := by
  have hg : addr / 2 ^ 12 < userPgns := by simp only [userPgns]; omega
  have hpage := h.pgGetpage hp hg
  have hmeta := meta_pgGetpage s p (addr / 2 ^ 12)
  rw [Mem.pgGetval]
  generalize Mem.pgGetpage s p (addr / 2 ^ 12) = r at hpage hmeta ⊢
  obtain ⟨_ | f, t⟩ := r
  · exact ⟨hpage.inv, fun b e hb => by cases hb⟩
  · obtain ⟨ht, -, hmapped⟩ := hpage
    obtain ⟨hpte, hf⟩ := hmapped f rfl
    have hp' : p ∈ t.runningList := by
      rw [show t.runningList = s.runningList from congrArg Sys.Meta.runningList hmeta]
      exact hp
    refine ⟨ht, fun b e hb he => ?_⟩
    rw [← show t.stores = s.stores from congrArg Sys.Meta.stores hmeta] at he
    rw [memphyRead_eq_some hb]
    exact ht.ram_of_lastStore hp' haddr hf hpte he

theorem pgSetval {addr : Nat} {v : Byte} {c : Bool} (h : Inv ok ram swp s)
    (hp : p ∈ s.runningList) (haddr : addr < 2 ^ 56) :
    Inv ok ram swp (Mem.pgSetval s p addr v c).2 := by
  have hg : addr / 2 ^ 12 < userPgns := by simp only [userPgns]; omega
  have hoff : addr % 2 ^ 12 < pageSz := Nat.mod_lt _ (by decide)
  have hsplit : addr / 2 ^ 12 * pageSz + addr % 2 ^ 12 = addr := Nat.div_add_mod' _ _
  have hpage := h.pgGetpage hp hg
  have hmeta := meta_pgGetpage s p (addr / 2 ^ 12)
  rw [Mem.pgSetval]
  generalize Mem.pgGetpage s p (addr / 2 ^ 12) = r at hpage hmeta ⊢
  obtain ⟨_ | f, t⟩ := r
  · exact hpage.inv
  · obtain ⟨ht, -, hmapped⟩ := hpage
    obtain ⟨hpte, hf⟩ := hmapped f rfl
    have hp' : p ∈ t.runningList := by
      rw [show t.runningList = s.runningList from congrArg Sys.Meta.runningList hmeta]
      exact hp
    dsimp only
    split
    · exact ht
    · rename_i u hu
      rw [memphyWrite_eq_some hu]
      have hstore := ht.storeByte (v := v) (c := c) hp' hg hf hpte hoff
      rw [hsplit] at hstore
      exact hstore

/-! ### Accesses through a region -/

theorem libread {source offset destination : Nat} {ret : Int} (h : Inv ok ram swp s)
    (hp : p ∈ s.runningList) (hread : Mem.libread s p source offset destination = some (ret, t)) :
    Inv ok ram swp t := by
  have hinv : Inv ok ram swp (Mem.read s p source offset).2 := by
    rw [Mem.read]
    split
    · exact h
    · split
      · exact h
      · rename_i addr haddr
        exact (h.pgGetval hp (userAccess_lt haddr)).1
  rw [Mem.libread] at hread
  generalize Mem.read s p source offset = r at hinv hread
  obtain ⟨_ | b, u⟩ := r
  · cases hread
    exact hinv
  · dsimp only at hread
    split at hread
    · cases hread
    · cases hread
      exact hinv.setReg p _ _

theorem libwrite {b : Byte} {destination offset : Nat} (h : Inv ok ram swp s)
    (hp : p ∈ s.runningList) : Inv ok ram swp (Mem.libwrite s p b destination offset).2 := by
  have hinv : Inv ok ram swp (Mem.write s p destination offset b).2 := by
    rw [Mem.write]
    split
    · exact h
    · split
      · exact h
      · rename_i addr haddr
        exact h.pgSetval hp (userAccess_lt haddr)
  rw [Mem.libwrite]
  generalize Mem.write s p destination offset b = r at hinv
  obtain ⟨_ | _, u⟩ := r <;> exact hinv

end Inv

end Ossim.Mem
