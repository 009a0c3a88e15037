import Ossim.Mem.Cover
import Ossim.Mem.Syscall

/-!
User regions: disjoint, inside the area, and backed by pages.

The invariant of one process counts how often each byte is covered by its
regions and its free list together. `ALLOC` and `FREE` move bytes between
the two, a growth adds the bytes between the old break and the new one, and
everything the other processes do only evicts pages.
-/

namespace Ossim.Mem

open Ossim.Lib

/-! ### Backed pages -/

/-- A page is in RAM or in the swap, not both. -/
def Backed (pte : Nat) : Prop := pagePresent pte ≠ pageSwapped pte

theorem backed_presentPte (f : Nat) : Backed (presentPte f) := by simp [Backed]

/-- An entry that stands for no page has neither flag. -/
theorem WfPte.flags_of_not_backed {v : Nat} (hwf : WfPte v) (h : ¬ Backed v) :
    pagePresent v = false ∧ pageSwapped v = false := by
  cases hwf with
  | zero => exact ⟨rfl, rfl⟩
  | present hf => simp [Backed] at h
  | swapped ho => simp [Backed] at h

theorem EvictsAt.backed {old new : Nat} (h : EvictsAt old new) (hold : Backed old) :
    Backed new := by
  rcases h with rfl | ⟨-, -, o, rfl⟩
  · exact hold
  · simp [Backed]

/-- Pages of `p` that are backed stay backed. -/
def KeepsBacked (p : Pid) (s t : Sys) : Prop :=
  ∀ g < userPgns, Backed (s.pte p g) → Backed (t.pte p g)

namespace KeepsBacked

variable {p : Pid} {s t u : Sys}

theorem of_pgd_eq (h : t.pgd p = s.pgd p) : KeepsBacked p s t := fun g _ hs => by
  rw [Sys.pte, h]
  exact hs

theorem refl (p : Pid) (s : Sys) : KeepsBacked p s s := of_pgd_eq rfl

theorem trans (h : KeepsBacked p s t) (h' : KeepsBacked p t u) : KeepsBacked p s u :=
  fun g hg hs => h' g hg (h g hg hs)

theorem of_evicts (h : Evicts s t) (p : Pid) : KeepsBacked p s t :=
  fun _ _ hs => (h p _).backed hs

theorem pteSetFpn (s : Sys) (p q : Pid) (g f : Nat) :
    KeepsBacked p s (Mem.pteSetFpn s q g f).2 := by
  intro g' _ hs
  rcases pgd_pteSetEntry s q g (presentPte f) p (pgnPath g') with heq | ⟨hnew, -⟩
  · rw [Sys.pte, Mem.pteSetFpn, heq]
    exact hs
  · rw [Sys.pte, Mem.pteSetFpn, hnew]
    exact backed_presentPte f

theorem pgGetpage (s : Sys) (p : Pid) (g : Nat) : KeepsBacked p s (Mem.pgGetpage s p g).2 := by
  have hevicts := of_evicts (evicts_swapOutVictimPage s p) p
  generalize hr : Mem.pgGetpage s p g = r
  cases pgGetpage_cases hr with
  | present => exact refl p s
  | absent => exact refl p s
  | noFrame t _ _ hout =>
      rw [hout] at hevicts
      exact hevicts
  | noCopy f t st _ _ hout =>
      rw [hout] at hevicts
      exact hevicts
  | back f t st u _ _ hout _ hu =>
      rw [hout] at hevicts
      have hput : KeepsBacked p s
          (memphyPutFreefp { t with storage := st } .mswp (pteSwp (pteGetEntry s p g))) := by
        refine hevicts.trans (of_pgd_eq ?_)
        rw [pgd_memphyPutFreefp]
      rw [hu, broughtIn]
      refine (hput.trans (pteSetFpn _ p p g f)).trans (of_pgd_eq ?_)
      rw [pgd_enlistPgnNode]

end KeepsBacked

/-! ### A growth that obtains its frames -/

/-- With a frame for each page, all pages are mapped. -/
theorem mapFrames_ok {p : Pid} {pgn left pgit : Nat} {frames : List Nat} {s : Sys}
    (hlen : frames.length = left) (hlt : pgn + pgit + left ≤ userPgns)
    (hcode : (mapFrames p pgn left pgit frames s).1 ≠ errFail) :
    (mapFrames p pgn left pgit frames s).2.1 = pgit + left ∧
      KeepsBacked p s (mapFrames p pgn left pgit frames s).2.2 ∧
      ∀ g, pgn + pgit ≤ g → g < pgn + pgit + left →
        Backed ((mapFrames p pgn left pgit frames s).2.2.pte p g) := by
  induction left generalizing pgit frames s with
  | zero => exact ⟨rfl, .refl p s, fun g hle hgt => by omega⟩
  | succ left ih =>
      cases frames with
      | nil => cases hlen
      | cons f next =>
          have hg : pgn + pgit < userPgns := by omega
          have hset := KeepsBacked.pteSetFpn s p p (pgn + pgit) f
          rw [mapFrames] at hcode ⊢
          split at hcode
          · exact absurd rfl hcode
          · rename_i t ht
            rw [ht] at hset
            have hpte : t.pte p (pgn + pgit) = presentPte f := by
              rw [Sys.pte, lookup_pteSetEntry hg ht, if_pos ⟨rfl, rfl⟩]
            have hlist := pgd_enlistPgnNode t p (pgn + pgit)
            split at hcode
            · exact absurd rfl hcode
            · rename_i u hu
              rw [hu] at hlist
              have hkeep : KeepsBacked p s u := hset.trans (.of_pgd_eq (congrFun hlist p))
              obtain ⟨hcount, hrest, hnew⟩ := ih (by simpa using hlen)
                (by omega) hcode
              refine ⟨by omega, hkeep.trans hrest, fun g hle hgt => ?_⟩
              rcases eq_or_ne g (pgn + pgit) with rfl | hne
              · refine hrest _ hg ?_
                rw [Sys.pte, hlist, ← Sys.pte, hpte]
                exact backed_presentPte f
              · exact hnew g (by omega) (by omega)

/-- A range of pages that passes the check ends in the lower half if it
starts there. -/
theorem validatePageRange_low {addr : Nat} {n : Int} (haddr : addr ≤ 2 ^ 56) (hn : 0 < n)
    (hsmall : n < 2 ^ 31) (h : validatePageRange addr n = 0) :
    addr % pageSz = 0 ∧ addr + n.toNat * pageSz ≤ 2 ^ 56 := by
  have hspan : ofInt (n - 1) * pageSz % 2 ^ 64 = (n.toNat - 1) * pageSz := by
    simp only [ofInt, pageSz]
    omega
  rw [validatePageRange] at h
  split at h
  · cases h
  · rename_i halign
    rw [if_neg (by omega), hspan] at h
    have hlast : (addr + (n.toNat - 1) * pageSz) % 2 ^ 64 = addr + (n.toNat - 1) * pageSz := by
      simp only [pageSz]
      omega
    dsimp only at h
    rw [hlast] at h
    split at h
    · cases h
    · split at h
      · cases h
      · rename_i hstart
        split at h
        · cases h
        · rename_i hend
          split at h
          · cases h
          · rename_i hhalf
            obtain ⟨path, hpath⟩ := Option.ne_none_iff_exists'.mp hstart
            obtain ⟨path', hpath'⟩ := Option.ne_none_iff_exists'.mp hend
            have hlt : addr + (n.toNat - 1) * pageSz < 2 ^ 64 := by
              simp only [pageSz]
              omega
            obtain ⟨-, ⟨hlow, hk⟩ | ⟨hhigh, -⟩⟩ := getPdFromAddress_cases (by omega) hpath
            · obtain ⟨-, ⟨hlow', -⟩ | ⟨-, hk'⟩⟩ := getPdFromAddress_cases hlt hpath'
              · simp only [pageSz] at *
                omega
              · rw [hk, hk'] at hhalf
                simp at hhalf
            · omega

/-- The request is for whole pages, at most `2^31` bytes of them. -/
structure SmallRequest (s : Sys) (p : Pid) (inc : Nat) : Prop where
  pos : 0 < inc
  le : inc ≤ 2 ^ 31
  pages : inc % pageSz = 0
  low : (s.mmap p).sbrk ≤ 2 ^ 56
  aligned : (s.mmap p).sbrk % pageSz = 0

namespace SmallRequest

variable {s : Sys} {p : Pid} {inc : Nat}

theorem pageAlignSz_eq (h : SmallRequest s p inc) : pageAlignSz inc = inc := by
  obtain ⟨hpos, hle, hpages, -, -⟩ := h
  simp only [pageAlignSz, pageSz] at *
  omega

theorem newBreak_eq (h : SmallRequest s p inc) : newBreak s p inc = (s.mmap p).sbrk + inc := by
  rw [newBreak, h.pageAlignSz_eq]
  have := h.le
  have := h.low
  omega

theorem incNumPage_eq (h : SmallRequest s p inc) : incNumPage inc = (inc / pageSz : Nat) := by
  have := h.le
  have hlt : inc / pageSz % 2 ^ 32 = inc / pageSz := by
    simp only [pageSz]
    omega
  rw [incNumPage, h.pageAlignSz_eq, toInt, hlt, if_pos]
  simp only [pageSz]
  omega

end SmallRequest

/-- What a growth that obtains its frames leaves. -/
structure GrownOk (s : Sys) (p : Pid) (inc : Nat) (t : Sys) : Prop where
  low : (s.mmap p).sbrk + inc ≤ 2 ^ 56
  mmap : t.mmap p = { s.mmap p with
    vmEnd := (s.mmap p).sbrk + inc
    sbrk := (s.mmap p).sbrk + inc
    vmFreergList := enlistVmRgNode (s.mmap p).vmFreergList
      ⟨(s.mmap p).sbrk, (s.mmap p).sbrk + inc⟩ }
  symrgtbl : t.symrgtbl = s.symrgtbl
  keeps : KeepsBacked p s t
  backed : ∀ g, (s.mmap p).sbrk ≤ g * pageSz → g * pageSz < (s.mmap p).sbrk + inc →
    Backed (t.pte p g)

theorem vmapPageRange_ok {s : Sys} {p : Pid} {addr : Nat} {n : Int} {frames : List Nat} {rg : VmRg}
    (haddr : addr ≤ 2 ^ 56) (hn : 0 < n) (hsmall : n < 2 ^ 31) (hlen : frames.length = n.toNat)
    (hcode : (vmapPageRange s p addr n frames rg).1 ≠ errFail) :
    addr + n.toNat * pageSz ≤ 2 ^ 56 ∧
      (vmapPageRange s p addr n frames rg).2.1 = ⟨addr, addr + n.toNat * pageSz⟩ ∧
      KeepsBacked p s (vmapPageRange s p addr n frames rg).2.2 ∧
      ∀ g, addr ≤ g * pageSz → g * pageSz < addr + n.toNat * pageSz →
        Backed ((vmapPageRange s p addr n frames rg).2.2.pte p g) := by
  obtain ⟨-, hwalk⟩ := walkPages_spec p (addr / 2 ^ 12) n.toNat 0 s
  rw [vmapPageRange] at hcode ⊢
  dsimp only at hcode ⊢
  split at hcode
  · exact absurd rfl hcode
  · rename_i hvalid
    obtain ⟨halign, hlow⟩ := validatePageRange_low haddr hn hsmall (not_not.mp hvalid)
    rw [if_neg hvalid]
    split at hcode
    · exact absurd rfl hcode
    · rename_i t ht
      rw [ht] at hwalk
      have hpages : addr / 2 ^ 12 + 0 + n.toNat ≤ userPgns := by
        simp only [pageSz, userPgns] at *
        omega
      obtain ⟨hcount, hkeeps, hnew⟩ := mapFrames_ok hlen hpages hcode
      have htables : KeepsBacked p s t := fun g _ hs => by
        rw [Sys.pte, hwalk]
        exact hs
      refine ⟨hlow, ?_, htables.trans hkeeps, fun g hle hgt => hnew g ?_ ?_⟩
      · rw [hcount, Nat.zero_add, Nat.mod_eq_of_lt (by omega)]
      all_goals
        simp only [pageSz] at *
        omega

theorem grown_ok {s : Sys} {p : Pid} {inc : Nat} {junk : VmRg} (h : SmallRequest s p inc)
    (hok : ¬GrowthFails s p inc junk) : GrownOk s p inc (grown s p inc junk) := by
  obtain ⟨hmeta, hevicts, hresult⟩ := allocPagesRange_spec (breakMoved s p inc) p (incNumPage inc)
  simp only [GrowthFails, not_or, not_not] at hok
  obtain ⟨halloc, hmap⟩ := hok
  rw [grown, vmMapRam]
  generalize allocPagesRange (breakMoved s p inc) p (incNumPage inc) = r
    at hmeta hevicts hresult halloc hmap ⊢
  obtain ⟨code, frames, s₁⟩ := r
  simp only at hmeta hevicts hresult halloc hmap
  subst halloc
  have hlen : frames.length = (incNumPage inc).toNat := by
    rcases hresult with ⟨-, hlen⟩ | ⟨hcode, -⟩
    · rw [hlen]
      simp
    · rcases hcode with hcode | hcode <;> exact absurd hcode (by decide)
  have hbytes : (incNumPage inc).toNat * pageSz = inc := by
    have := h.pages
    rw [h.incNumPage_eq]
    simp only [pageSz] at *
    omega
  have hcount := h.incNumPage_eq
  have hpos := h.pos
  have hle := h.le
  obtain ⟨hlow, hrg, hkeeps, hnew⟩ := vmapPageRange_ok (s := s₁) (p := p) h.low
    (by simp only [pageSz] at *; omega) (by simp only [pageSz] at *; omega) hlen hmap
  have hmeta' := meta_vmapPageRange s₁ p (s.mmap p).sbrk (incNumPage inc) frames junk
  rw [hbytes] at hlow hrg hnew
  dsimp only
  rw [if_neg (by omega), if_neg (by decide), if_neg hmap]
  generalize vmapPageRange s₁ p (s.mmap p).sbrk (incNumPage inc) frames junk = r
    at hmap hrg hkeeps hnew hmeta' ⊢
  obtain ⟨code, rg, s₂⟩ := r
  simp only at hmap hrg hkeeps hnew hmeta'
  subst hrg
  have hmmap : s₂.mmap p = (breakMoved s p inc).mmap p :=
    congrFun (congrArg Sys.Meta.mmap (hmeta'.trans hmeta)) p
  rw [breakMoved, Sys.mmap_setMmap, h.newBreak_eq] at hmmap
  refine ⟨hlow, ?_, ?_, ?_, hnew⟩
  · dsimp only
    rw [Sys.mmap_setMmap, hmmap]
  · exact (congrArg Sys.Meta.symrgtbl (hmeta'.trans hmeta))
  · exact (KeepsBacked.of_evicts hevicts p).trans hkeeps

/-! ### What an ALLOC can do -/

/-- An `ALLOC` that found no free region has made the area grow. -/
structure Grows (s : Sys) (p : Pid) (size : Nat) (junk : VmRg) (u : Sys) : Prop where
  pos : 0 < size
  none : getFreeVmrgArea s p (toInt size) = (none, s)
  accepted : ¬Refused s p (allocInc size)
  eq : u = grown s p (allocInc size) junk

/-- What an `ALLOC` leaves: the state as it was, an area that has grown, or a
region of the free list, as it was or has grown, in the symbol table. -/
inductive AllocCase (s : Sys) (p : Pid) (rgid size : Nat) (junk : VmRg) : Sys → Prop
  | refused (host : Nat → Bool) : AllocCase s p rgid size junk { s with host := host }
  | grown {u : Sys} (hgrows : Grows s p size junk u) : AllocCase s p rgid size junk u
  | taken {u : Sys} {rg : VmRg} {rest : List VmRg} (hu : u = s ∨ Grows s p size junk u)
      (hrgid : rgid < maxSymtblSz)
      (htake : takeFree (ofInt (toInt size)) (u.mmap p).vmFreergList = some (rg, rest)) :
      AllocCase s p rgid size junk
        ((u.setMmap p { u.mmap p with vmFreergList := rest }).setSymrg p rgid rg)

/-- What an `ALLOC` leaves, together with its return code. -/
theorem alloc_result {bound : Nat} {s t : Sys} {p : Pid} {rgid size : Nat} {junk : VmRg} {ret : Int}
    (hbound : bound + 2 ^ 31 < 2 ^ 64) (hsize : 0 ≤ toInt size)
    (hfree : Within bound (s.mmap p).vmFreergList)
    (hgrown : ∀ u, Grows s p size junk u → Within bound (u.mmap p).vmFreergList)
    (h : alloc s p rgid size junk = some (ret, t)) :
    ret = -1 ∧ ((∃ host, t = { s with host := host }) ∨ Grows s p size junk t) ∨
    ret = 0 ∧ ∃ u rg rest, (u = s ∨ Grows s p size junk u) ∧ rgid < maxSymtblSz ∧
      takeFree (ofInt (toInt size)) (u.mmap p).vmFreergList = some (rg, rest) ∧
      t = (u.setMmap p { u.mmap p with vmFreergList := rest }).setSymrg p rgid rg := by
  rw [alloc] at h
  split at h
  · cases h
    exact .inl ⟨rfl, .inl ⟨_, rfl⟩⟩
  · rename_i hargs
    rw [not_or, Nat.not_le] at hargs
    obtain ⟨-, hget⟩ | ⟨rg, rest, htake, hget⟩ := getFreeVmrgArea_cases hfree hbound hsize
    · rw [hget] at h
      dsimp only at h
      split at h
      · cases h
        exact .inl ⟨rfl, .inl ⟨_, rfl⟩⟩
      · split at h
        · cases h
        · rename_i sret u hu
          obtain ⟨rfl, rfl⟩ | ⟨href, rfl, rfl⟩ := incVmaLimit_cases hu
          · cases h
            exact .inl ⟨rfl, .inl ⟨_, rfl⟩⟩
          · have hgrows : Grows s p size junk (Mem.grown s p (allocInc size) junk) :=
              ⟨Nat.pos_of_ne_zero hargs.2, hget, href, rfl⟩
            rw [if_neg (by decide)] at h
            obtain ⟨-, hagain⟩ | ⟨rg, rest, htake, hagain⟩ :=
              getFreeVmrgArea_cases (hgrown _ hgrows) hbound hsize
            · rw [hagain] at h
              cases h
              exact .inl ⟨rfl, .inr hgrows⟩
            · rw [hagain] at h
              cases h
              exact .inr ⟨rfl, _, rg, rest, .inr hgrows, hargs.1, htake, rfl⟩
    · rw [hget] at h
      cases h
      exact .inr ⟨rfl, s, rg, rest, .inl rfl, hargs.1, htake, rfl⟩

theorem alloc_cases {bound : Nat} {s t : Sys} {p : Pid} {rgid size : Nat} {junk : VmRg} {ret : Int}
    (hbound : bound + 2 ^ 31 < 2 ^ 64) (hsize : 0 ≤ toInt size)
    (hfree : Within bound (s.mmap p).vmFreergList)
    (hgrown : ∀ u, Grows s p size junk u → Within bound (u.mmap p).vmFreergList)
    (h : alloc s p rgid size junk = some (ret, t)) : AllocCase s p rgid size junk t := by
  obtain ⟨-, ⟨host, rfl⟩ | hgrows⟩ | ⟨-, u, rg, rest, hu, hrgid, htake, rfl⟩ :=
    alloc_result hbound hsize hfree hgrown h
  · exact .refused host
  · exact .grown hgrows
  · exact .taken hu hrgid htake

/-- An `ALLOC` that grows the area and finds its region then. -/
theorem alloc_of_grown {s u : Sys} {p : Pid} {rgid size : Nat} {junk rg : VmRg}
    (hrgid : rgid < maxSymtblSz) (hsize : size ≠ 0) (hp : p ∈ s.runningList)
    (hget : getFreeVmrgArea s p (toInt size) = (none, s)) (href : ¬Refused s p (allocInc size))
    (hagain : getFreeVmrgArea (grown s p (allocInc size) junk) p (toInt size) = (some rg, u)) :
    alloc s p rgid size junk = some (0, u.setSymrg p rgid rg) := by
  rw [alloc, if_neg (by omega), hget]
  dsimp only
  rw [if_neg (not_not_intro hp), incVmaLimit_of_not_refused junk rfl href]
  dsimp only
  rw [if_neg (by decide), hagain]

/-! ### The invariant of one process -/

/-- The symbol table as a list. -/
def symRegions (s : Sys) (p : Pid) : List VmRg := (List.range maxSymtblSz).map (s.symrgtbl p)

structure RegionInv (s : Sys) (p : Pid) : Prop where
  vmStart : (s.mmap p).vmStart = 0
  vmEnd : (s.mmap p).vmEnd = (s.mmap p).sbrk
  aligned : (s.mmap p).sbrk % pageSz = 0
  low : (s.mmap p).sbrk ≤ 2 ^ 56
  sym : Within (s.mmap p).sbrk (symRegions s p)
  free : Within (s.mmap p).sbrk (s.mmap p).vmFreergList
  once : ∀ x, cover (symRegions s p) x + cover (s.mmap p).vmFreergList x ≤ 1
  backed : ∀ g, g * pageSz < (s.mmap p).sbrk → Backed (s.pte p g)

theorem cover_symRegions (s : Sys) (p : Pid) (x : Nat) :
    cover (symRegions s p) x =
      tally (List.range maxSymtblSz) fun i => if (s.symrgtbl p i).covers x then 1 else 0 := by
  rw [symRegions]
  induction List.range maxSymtblSz with
  | nil => rfl
  | cons i l ih =>
      rw [List.map_cons, cover_cons, ih]
      simp only [tally, List.map_cons, List.sum_cons, Nat.add_comm]

theorem mem_symRegions {s : Sys} {p : Pid} {i : Nat} (hi : i < maxSymtblSz) :
    s.symrgtbl p i ∈ symRegions s p := List.mem_map_of_mem (List.mem_range.mpr hi)

/-- Replacing a region. -/
theorem cover_setSymrg {s : Sys} {p : Pid} {i : Nat} (hi : i < maxSymtblSz) (rg : VmRg) (x : Nat) :
    cover (symRegions (s.setSymrg p i rg) p) x + (if (s.symrgtbl p i).covers x then 1 else 0) =
      cover (symRegions s p) x + if rg.covers x then 1 else 0 := by
  have hself : (s.setSymrg p i rg).symrgtbl p i = rg := by simp [Sys.setSymrg]
  rw [cover_symRegions, cover_symRegions]
  have hchange := tally_change (l := List.range maxSymtblSz)
    (f := fun j => if ((s.setSymrg p i rg).symrgtbl p j).covers x then 1 else 0)
    (g := fun j => if (s.symrgtbl p j).covers x then 1 else 0) List.nodup_range
    (List.mem_range.mpr hi) fun j _ hj => by simp [Sys.setSymrg, hj]
  rw [hself] at hchange
  exact hchange

theorem within_setSymrg {s : Sys} {p : Pid} {i bound : Nat} {v : VmRg}
    (h : Within bound (symRegions s p)) (hrg : v.rgStart ≤ v.rgEnd ∧ v.rgEnd ≤ bound) :
    Within bound (symRegions (s.setSymrg p i v) p) := by
  intro r hr
  obtain ⟨j, hj, rfl⟩ := List.mem_map.mp hr
  rcases eq_or_ne j i with rfl | hne
  · simpa [Sys.setSymrg] using hrg
  · have : (s.setSymrg p i v).symrgtbl p j = s.symrgtbl p j := by simp [Sys.setSymrg, hne]
    rw [this]
    exact h _ (mem_symRegions (List.mem_range.mp hj))

/-- The growth of an `ALLOC`, if it needs one, obtains its frames. -/
def Obtains (s : Sys) (p : Pid) (size : Nat) (junk : VmRg) : Prop :=
  (getFreeVmrgArea s p (toInt size)).1 = none →
    ¬GrowthFails (getFreeVmrgArea s p (toInt size)).2 p (allocInc size) junk

instance (s : Sys) (p : Pid) (size : Nat) (junk : VmRg) : Decidable (Obtains s p size junk) :=
  inferInstanceAs (Decidable (_ → _))

namespace RegionInv

variable {s t : Sys} {p q : Pid}

/-- A region moves from the free list into the symbol table; what was there
before is dropped. -/
theorem take (h : RegionInv s p) {rgid : Nat} (hrgid : rgid < maxSymtblSz) {rg : VmRg}
    {rest : List VmRg} (hrg : rg.rgStart ≤ rg.rgEnd ∧ rg.rgEnd ≤ (s.mmap p).sbrk)
    (hrest : Within (s.mmap p).sbrk rest)
    (hcover : ∀ x, cover (rg :: rest) x = cover (s.mmap p).vmFreergList x) :
    RegionInv ((s.setMmap p { s.mmap p with vmFreergList := rest }).setSymrg p rgid rg) p := by
  have hmmap : ((s.setMmap p { s.mmap p with vmFreergList := rest }).setSymrg p rgid rg).mmap p =
      { s.mmap p with vmFreergList := rest } := Sys.mmap_setMmap ..
  refine ⟨?_, ?_, ?_, ?_, ?_, ?_, fun x => ?_, fun g hg => ?_⟩
  · rw [hmmap]
    exact h.vmStart
  · rw [hmmap]
    exact h.vmEnd
  · rw [hmmap]
    exact h.aligned
  · rw [hmmap]
    exact h.low
  · rw [hmmap]
    exact within_setSymrg h.sym hrg
  · rw [hmmap]
    exact hrest
  · have hset := cover_setSymrg (s := s.setMmap p { s.mmap p with vmFreergList := rest })
      (p := p) hrgid rg x
    change _ + _ = cover (symRegions s p) x + _ at hset
    dsimp only at hset
    have honce := h.once x
    have htake := hcover x
    rw [cover_cons] at htake
    rw [hmmap]
    dsimp only
    omega
  · rw [hmmap] at hg
    exact h.backed g hg

/-- A region moves from the symbol table into the free list. -/
theorem give (h : RegionInv s p) {rgid : Nat} (hrgid : rgid < maxSymtblSz) :
    RegionInv ((s.setSymrg p rgid ⟨0, 0⟩).setMmap p { s.mmap p with
      vmFreergList := enlistVmRgNode (s.mmap p).vmFreergList (s.symrgtbl p rgid) }) p := by
  have hrg := h.sym _ (mem_symRegions hrgid)
  have hwithin : Within (s.mmap p).sbrk (s.symrgtbl p rgid :: (s.mmap p).vmFreergList) :=
    .cons hrg h.free
  refine ⟨?_, ?_, ?_, ?_, ?_, ?_, fun x => ?_, fun g hg => ?_⟩
  · rw [Sys.mmap_setMmap]
    exact h.vmStart
  · rw [Sys.mmap_setMmap]
    exact h.vmEnd
  · rw [Sys.mmap_setMmap]
    exact h.aligned
  · rw [Sys.mmap_setMmap]
    exact h.low
  · rw [Sys.mmap_setMmap]
    exact within_setSymrg (i := rgid) (v := ⟨0, 0⟩) h.sym ⟨Nat.le_refl _, Nat.zero_le _⟩
  · rw [Sys.mmap_setMmap]
    exact within_enlistVmRgNode hwithin
  · have hset := cover_setSymrg (s := s) (p := p) hrgid ⟨0, 0⟩ x
    have honce := h.once x
    rw [Sys.mmap_setMmap]
    dsimp only
    rw [cover_enlistVmRgNode hwithin, cover_cons]
    change cover (symRegions (s.setSymrg p rgid ⟨0, 0⟩) p) x + _ ≤ 1
    have hzero : (⟨0, 0⟩ : VmRg).covers x = false := by simp [VmRg.covers]
    rw [hzero] at hset
    simp only [Bool.false_eq_true, if_false] at hset
    omega
  · rw [Sys.mmap_setMmap] at hg
    exact h.backed g hg

/-- The bytes between the old break and the new one are covered by the new
free region only. -/
theorem grow (h : RegionInv s p) {inc : Nat} (hreq : SmallRequest s p inc)
    (ht : GrownOk s p inc t) : RegionInv t p := by
  have hlow := ht.low
  have hpos := hreq.pos
  have hwithin : Within ((s.mmap p).sbrk + inc)
      (⟨(s.mmap p).sbrk, (s.mmap p).sbrk + inc⟩ :: (s.mmap p).vmFreergList) :=
    .cons ⟨Nat.le_add_right _ _, Nat.le_refl _⟩ (h.free.mono (Nat.le_add_right _ _))
  have hsym : symRegions t p = symRegions s p := by rw [symRegions, ht.symrgtbl]; rfl
  have hbelow {l : List VmRg} (hl : Within (s.mmap p).sbrk l) {x : Nat}
      (hx : (s.mmap p).sbrk ≤ x) : cover l x = 0 := by
    by_contra hne
    obtain ⟨rg, hmem, hcov⟩ := cover_pos.mp (Nat.pos_of_ne_zero hne)
    have := hl rg hmem
    rw [VmRg.covers_iff] at hcov
    omega
  refine ⟨?_, ?_, ?_, ?_, ?_, ?_, fun x => ?_, fun g hg => ?_⟩
  · rw [ht.mmap]
    exact h.vmStart
  · rw [ht.mmap]
  · rw [ht.mmap]
    have := h.aligned
    have := hreq.pages
    simp only [pageSz] at *
    omega
  · rw [ht.mmap]
    exact hlow
  · rw [ht.mmap, hsym]
    exact h.sym.mono (Nat.le_add_right _ _)
  · rw [ht.mmap]
    exact within_enlistVmRgNode hwithin
  · have honce := h.once x
    rw [ht.mmap, hsym]
    dsimp only
    rw [cover_enlistVmRgNode hwithin, cover_cons]
    split
    · rename_i hcov
      rw [VmRg.covers_iff] at hcov
      rw [hbelow h.sym hcov.1, hbelow h.free hcov.1]
    · exact honce
  · rw [ht.mmap] at hg
    rcases Nat.lt_or_ge (g * pageSz) (s.mmap p).sbrk with hold | hnew
    · refine ht.keeps g ?_ (h.backed g hold)
      have := h.low
      simp only [pageSz, userPgns] at *
      omega
    · exact ht.backed g hnew hg

/-- What the others do, and an access of the process itself. -/
theorem frame (h : RegionInv s p) (hmmap : t.mmap p = s.mmap p)
    (hsym : t.symrgtbl p = s.symrgtbl p) (hpgd : KeepsBacked p s t) : RegionInv t p := by
  have hregions : symRegions t p = symRegions s p := by rw [symRegions, hsym]; rfl
  refine ⟨?_, ?_, ?_, ?_, ?_, ?_, ?_, fun g hg => ?_⟩
  · rw [hmmap]
    exact h.vmStart
  · rw [hmmap]
    exact h.vmEnd
  · rw [hmmap]
    exact h.aligned
  · rw [hmmap]
    exact h.low
  · rw [hmmap, hregions]
    exact h.sym
  · rw [hmmap]
    exact h.free
  · rw [hmmap, hregions]
    exact h.once
  · rw [hmmap] at hg
    refine hpgd g ?_ (h.backed g hg)
    have := h.low
    simp only [pageSz, userPgns] at *
    omega

/-- A size that an `int` holds. -/
theorem toInt_of_lt {size : Nat} (hsize : size < 2 ^ 31) :
    0 ≤ toInt size ∧ ofInt (toInt size) = size := by
  rw [toInt_eq_self hsize]
  exact ⟨Int.natCast_nonneg size, ofInt_natCast (by omega)⟩

/-- The search of a size that an `int` holds. -/
theorem search (h : RegionInv s p) {size : Nat} (hsize : size < 2 ^ 31) :
    takeFree size (s.mmap p).vmFreergList = none ∧
      getFreeVmrgArea s p (toInt size) = (none, s) ∨
    ∃ rg rest, takeFree size (s.mmap p).vmFreergList = some (rg, rest) ∧
      getFreeVmrgArea s p (toInt size) =
        (some rg, s.setMmap p { s.mmap p with vmFreergList := rest }) := by
  have hlow := h.low
  obtain ⟨hpos, hint⟩ := toInt_of_lt hsize
  have hcases := getFreeVmrgArea_cases h.free (by omega) hpos
  rw [hint] at hcases
  exact hcases

theorem smallRequest (h : RegionInv s p) {size : Nat} (hpos : 0 < size) (hsize : size < 2 ^ 31) :
    SmallRequest s p (allocInc size) ∧ size ≤ allocInc size := by
  have hle : size ≤ pageAlignSz size ∧ pageAlignSz size ≤ 2 ^ 31 := by
    simp only [pageAlignSz, pageSz]
    omega
  rw [allocInc_of_lt hsize]
  exact ⟨⟨by omega, hle.2, pageAlignSz_mod size, h.low, h.aligned⟩, hle.1⟩

/-- After a growth that obtained its frames the second search succeeds. -/
theorem search_again (h : RegionInv s p) {size : Nat} {junk : VmRg} (hpos : 0 < size)
    (hsize : size < 2 ^ 31) (hok : ¬GrowthFails s p (allocInc size) junk) :
    (getFreeVmrgArea (grown s p (allocInc size) junk) p (toInt size)).1.isSome = true := by
  obtain ⟨hreq, hle⟩ := h.smallRequest hpos hsize
  have hgrown := grown_ok hreq hok
  have hinv := h.grow hreq hgrown
  have hlow := hinv.low
  have hwithin : Within ((s.mmap p).sbrk + allocInc size)
      (⟨(s.mmap p).sbrk, (s.mmap p).sbrk + allocInc size⟩ :: (s.mmap p).vmFreergList) :=
    .cons ⟨Nat.le_add_right _ _, Nat.le_refl _⟩ (h.free.mono (Nat.le_add_right _ _))
  obtain ⟨-, -, r, hr, hstart, hend⟩ := enlistVmRgNode_added hwithin (by simp only; omega)
  have hfound : (takeFree size ((grown s p (allocInc size) junk).mmap p).vmFreergList).isSome =
      true := takeFree_isSome hinv.free (by omega)
    ⟨r, by rw [hgrown.mmap]; exact hr, by simp only at hstart hend; omega⟩
  obtain ⟨hnone, -⟩ | ⟨rg, rest, -, hget⟩ := hinv.search hsize
  · rw [hnone] at hfound
    cases hfound
  · rw [hget]
    rfl

/-- A growth of an `ALLOC` that obtained its frames. -/
theorem grows (h : RegionInv s p) {size : Nat} {junk : VmRg} (hsize : size < 2 ^ 31)
    (hok : Obtains s p size junk) (hgrows : Grows s p size junk t) :
    ∃ inc, SmallRequest s p inc ∧ GrownOk s p inc t := by
  obtain ⟨hpos, hnone, -, rfl⟩ := hgrows
  obtain ⟨hreq, -⟩ := h.smallRequest hpos hsize
  rw [Obtains, hnone] at hok
  exact ⟨_, hreq, grown_ok hreq (hok rfl)⟩

theorem alloc (h : RegionInv s p) {rgid size : Nat} {junk : VmRg} {ret : Int}
    (hsize : size < 2 ^ 31) (hok : Obtains s p size junk)
    (halloc : Mem.alloc s p rgid size junk = some (ret, t)) : RegionInv t p := by
  have hgrow {u : Sys} (hgrows : Grows s p size junk u) : RegionInv u p := by
    obtain ⟨inc, hreq, hgrown⟩ := h.grows hsize hok hgrows
    exact h.grow hreq hgrown
  obtain ⟨hpos, hint⟩ := toInt_of_lt hsize
  cases alloc_cases (by decide) hpos (h.free.mono h.low)
    (fun u hgrows => (hgrow hgrows).free.mono (hgrow hgrows).low) halloc with
  | refused host => exact { h with }
  | grown hgrows => exact hgrow hgrows
  | @taken u rg rest hu hrgid htake =>
      have hu : RegionInv u p := hu.elim (fun heq => heq ▸ h) hgrow
      have hlow := hu.low
      rw [hint] at htake
      obtain ⟨hend, hle, hwithin, hcover⟩ := takeFree_spec hu.free (by omega) htake
      exact hu.take hrgid ⟨by omega, hle⟩ hwithin hcover

theorem free_region (h : RegionInv s p) (rgid : Nat) : RegionInv (Mem.free s p rgid).2 p := by
  rw [Mem.free]
  split
  · exact h
  · rename_i hrgid
    dsimp only
    split
    · exact h
    · split
      · exact { h with }
      · rename_i host hd
        have hdraw : RegionInv { s with host := host } p := { h with }
        exact hdraw.give (Nat.not_le.mp hrgid)

theorem of_access (h : RegionInv s p) (hacc : Accesses s t) (hpgd : KeepsBacked p s t) :
    RegionInv t p :=
  h.frame (congrFun hacc.mmap p) (congrFun hacc.symrgtbl p) hpgd

end RegionInv

/-! ### Runs -/

/-- What a step is for a process that is live after it: the load of the
process, a step that leaves its area and its regions alone, or its own
instruction. -/
theorem step_of_process {s t : Sys} {p : Pid} {op : Op} (hpids : Pids s)
    (hstep : step s op = some t) (hp : p ∈ t.runningList) :
    t.mmap p = ⟨0, 0, 0, []⟩ ∧ t.symrgtbl p = (fun _ => ⟨0, 0⟩) ∨
      p ∈ s.runningList ∧ t.mmap p = s.mmap p ∧ t.symrgtbl p = s.symrgtbl p ∧
        KeepsBacked p s t ∨
      p ∈ s.runningList ∧ ∃ ins junk ret, op = .inst p ins junk ∧
        run s p ins junk = some (ret, t) := by
  obtain ⟨-, hload⟩ | ⟨q, -, -, rfl⟩ | ⟨q, ins, junk, ret, rfl, -, hrun⟩ := step_cases hstep
  · simp only [loadProc] at hload
    split at hload
    · cases hload
      rcases eq_or_ne p s.availPid with rfl | hne
      · exact .inl ⟨Function.update_self .., Function.update_self ..⟩
      · exact .inr (.inl ⟨by simpa [hne] using hp, Function.update_of_ne hne ..,
          Function.update_of_ne hne .., .of_pgd_eq (Function.update_of_ne hne ..)⟩)
    · cases hload
  · have hpriv := exitProc_private s q
    rw [hpriv.runningList] at hp
    obtain ⟨hne, hp⟩ := hpids.nodup.mem_erase_iff.mp hp
    exact .inr (.inl ⟨hp, hpriv.mmap p hne, hpriv.symrgtbl p hne,
      fun _ _ hs => (hpriv.pgd p hne _).backed hs⟩)
  · have hpriv := Private.run hrun
    rw [hpriv.runningList] at hp
    rcases eq_or_ne p q with rfl | hne
    · exact .inr (.inr ⟨hp, ins, junk, ret, rfl, hrun⟩)
    · exact .inr (.inl ⟨hp, hpriv.mmap p hne, hpriv.symrgtbl p hne,
        fun _ _ hs => (hpriv.pgd p hne _).backed hs⟩)

/-- The instructions of process `p` are `ALLOC` of at most `2^31 - 1` bytes
whose growth, if it needs one, obtains its frames, `FREE`, `READ`, `WRITE`
and `CALC`; nothing is asked of the others. -/
def OnRegions (p : Pid) (s : Sys) : Op → Prop
  | .inst q ins junk => q = p →
      ins.opcode = .alloc ∧ ins.arg0.toNat < 2 ^ 31 ∧ Obtains s p ins.arg0.toNat junk ∨
      ins.opcode ∈ [.free, .read, .write, .calc]
  | _ => True

instance (p : Pid) (s : Sys) : (op : Op) → Decidable (OnRegions p s op)
  | .inst q _ _ => inferInstanceAs (Decidable (q = p → _ ∧ _ ∧ Obtains _ _ _ _ ∨ _ ∈ [_, _, _, _]))
  | .load => inferInstanceAs (Decidable True)
  | .exit _ => inferInstanceAs (Decidable True)

def RegionStep (p : Pid) (s : Sys) (op : Op) (t : Sys) : Prop :=
  step s op = some t ∧ OnRegions p s op

/-- The same, as a function. -/
def regionExec (p : Pid) : Sys → List Op → Option Sys :=
  exec (guarded step fun s op _ => decide (OnRegions p s op))

theorem run_of_regionExec {p : Pid} {s t : Sys} {ops : List Op} (h : regionExec p s ops = some t) :
    Run (RegionStep p) s ops t :=
  run_of_exec_guarded (fun _ _ _ hstep hok => ⟨hstep, of_decide_eq_true hok⟩) h

theorem keepsBacked_libread {s t : Sys} {p : Pid} {source offset destination : Nat} {ret : Int}
    (h : libread s p source offset destination = some (ret, t)) : KeepsBacked p s t := by
  have hread : KeepsBacked p s (read s p source offset).2 := by
    rw [read]
    split
    · exact .refl p s
    · split
      · exact .refl p s
      · rename_i addr _
        have hpage := KeepsBacked.pgGetpage s p (addr / 2 ^ 12)
        rw [pgGetval]
        generalize pgGetpage s p (addr / 2 ^ 12) = r at hpage ⊢
        obtain ⟨_ | f, u⟩ := r <;> exact hpage
  rw [libread] at h
  generalize read s p source offset = r at hread h
  obtain ⟨_ | b, u⟩ := r
  · cases h
    exact hread
  · dsimp only at h
    split at h
    · cases h
    · cases h
      exact hread

theorem keepsBacked_libwrite (s : Sys) (p : Pid) (b : Byte) (destination offset : Nat) :
    KeepsBacked p s (libwrite s p b destination offset).2 := by
  have hwrite : KeepsBacked p s (write s p destination offset b).2 := by
    rw [write]
    split
    · exact .refl p s
    · split
      · exact .refl p s
      · rename_i addr _
        have hpage := KeepsBacked.pgGetpage s p (addr / 2 ^ 12)
        rw [pgSetval]
        generalize pgGetpage s p (addr / 2 ^ 12) = r at hpage ⊢
        obtain ⟨_ | f, u⟩ := r
        · exact hpage
        · dsimp only
          split
          · exact hpage
          · rename_i w hw
            rw [memphyWrite_eq_some hw]
            exact hpage
  rw [libwrite]
  generalize write s p destination offset b = r at hwrite
  obtain ⟨_ | _, u⟩ := r <;> exact hwrite

namespace RegionInv

variable {s t : Sys} {p : Pid}

/-- A process starts without regions. -/
theorem of_empty (hmmap : t.mmap p = ⟨0, 0, 0, []⟩) (hsym : t.symrgtbl p = fun _ => ⟨0, 0⟩) :
    RegionInv t p := by
  have hzero : ∀ rg ∈ symRegions t p, rg = ⟨0, 0⟩ := by
    intro rg hrg
    obtain ⟨i, -, rfl⟩ := List.mem_map.mp hrg
    rw [hsym]
  have hnone (x : Nat) : cover (symRegions t p) x = 0 := by
    by_contra hne
    obtain ⟨rg, hmem, hcov⟩ := cover_pos.mp (Nat.pos_of_ne_zero hne)
    rw [hzero rg hmem, VmRg.covers_iff] at hcov
    exact absurd hcov.2 (Nat.not_lt_zero _)
  exact
  { vmStart := by rw [hmmap]
    vmEnd := by rw [hmmap]
    aligned := by rw [hmmap]; rfl
    low := by rw [hmmap]; exact Nat.zero_le _
    sym := fun rg hrg => by rw [hzero rg hrg]; exact ⟨Nat.le_refl _, Nat.zero_le _⟩
    free := fun rg hrg => by rw [hmmap] at hrg; cases hrg
    once := fun x => by rw [hmmap, hnone]; exact Nat.zero_le _
    backed := fun g hg => by rw [hmmap] at hg; exact absurd hg (Nat.not_lt_zero _) }

theorem run {ins : Inst} {junk : VmRg} {ret : Int} (h : RegionInv s p)
    (hop : OnRegions p s (.inst p ins junk)) (hrun : Mem.run s p ins junk = some (ret, t)) :
    RegionInv t p := by
  obtain ⟨halloc, hsize, hok⟩ | hother := hop rfl
  · rw [Mem.run, halloc] at hrun
    exact h.alloc hsize hok hrun
  · simp only [List.mem_cons, List.not_mem_nil, or_false] at hother
    rcases hother with hop | hop | hop | hop
    all_goals rw [Mem.run, hop] at hrun
    · rw [← snd_eq_of_some hrun]
      exact h.free_region _
    · exact h.of_access (.libread hrun) (keepsBacked_libread hrun)
    · rw [← snd_eq_of_some hrun]
      exact h.of_access (.libwrite ..) (keepsBacked_libwrite s p _ _ _)
    · cases hrun
      exact h

theorem step {op : Op} (hpids : Pids s) (h : p ∈ s.runningList → RegionInv s p)
    (hstep : RegionStep p s op t) (hp : p ∈ t.runningList) : RegionInv t p := by
  obtain ⟨hstep, hop⟩ := hstep
  obtain ⟨hmmap, hsym⟩ | ⟨hp, hmmap, hsym, hkeeps⟩ | ⟨hp, ins, junk, ret, rfl, hrun⟩ :=
    step_of_process hpids hstep hp
  · exact of_empty hmmap hsym
  · exact (h hp).frame hmmap hsym hkeeps
  · exact (h hp).run hop hrun

end RegionInv

/-- What holds of the regions of a process. -/
structure RegionsSound (s : Sys) (p : Pid) : Prop where
  disjoint : ((symRegions s p ++ (s.mmap p).vmFreergList).filter VmRg.nonempty).Pairwise
    VmRg.Disjoint
  inside : ∀ rg ∈ symRegions s p ++ (s.mmap p).vmFreergList, rg.nonempty = true →
    (s.mmap p).vmStart ≤ rg.rgStart ∧ rg.rgEnd ≤ (s.mmap p).sbrk
  aligned : (s.mmap p).vmEnd = (s.mmap p).sbrk ∧ (s.mmap p).sbrk % pageSz = 0
  backed : ∀ pgn, pgn * pageSz < (s.mmap p).sbrk → Backed (pteGetEntry s p pgn)
  searchAgain : ∀ size junk s₁ s₂, 0 < size → size < 2 ^ 31 → Obtains s p size junk →
    getFreeVmrgArea s p (toInt size) = (none, s₁) →
    incVmaLimit s₁ p 0 (allocInc size) junk = some (0, s₂) →
    (getFreeVmrgArea s₂ p (toInt size)).1.isSome = true

theorem RegionInv.sound {s : Sys} {p : Pid} (h : RegionInv s p) : RegionsSound s p where
  disjoint := pairwise_disjoint fun x => by
    rw [cover_append]
    exact h.once x
  inside rg hrg _ := by
    rw [h.vmStart]
    refine ⟨Nat.zero_le _, ?_⟩
    rcases List.mem_append.mp hrg with hrg | hrg
    · exact (h.sym rg hrg).2
    · exact (h.free rg hrg).2
  aligned := ⟨h.vmEnd, h.aligned⟩
  backed pgn hpgn := by
    have hlow := h.low
    rw [pteGetEntry_user (by simp only [pageSz, userPgns] at *; omega)]
    exact h.backed pgn hpgn
  searchAgain size junk s₁ s₂ hpos hsize hok hget hgrow := by
    rw [Obtains, hget] at hok
    have hs₁ : s₁ = s := by
      obtain ⟨-, hnone⟩ | ⟨rg, rest, -, hsome⟩ := h.search hsize
      · rw [hnone] at hget
        exact (congrArg Prod.snd hget).symm
      · rw [hsome] at hget
        cases hget
    subst hs₁
    obtain ⟨hret, -⟩ | ⟨-, -, rfl⟩ := incVmaLimit_cases hgrow
    · cases hret
    · exact h.search_again hpos hsize (hok rfl)

/-- The regions of a process are sound in every state of every run in which
its growths obtain their frames, whatever the other processes do. -/
theorem regions_sound {ramSz swpSz : Nat} {host : Nat → Bool} {ops : List Op} {s : Sys} {p : Pid}
    (hrun : Run (RegionStep p) (boot ramSz swpSz host) ops s) (hp : p ∈ s.runningList) :
    RegionsSound s p := by
  have hinv := hrun.invariant (I := fun s => Pids s ∧ (p ∈ s.runningList → RegionInv s p))
    (fun s op t hs hstep => ⟨hs.1.step hstep.1, RegionInv.step hs.1 hs.2 hstep⟩)
    ⟨.boot ramSz swpSz host, fun hp => by cases hp⟩
  exact (hinv.2 hp).sound

/-- Process 1 allocates 100 bytes, then 5000, and frees the first region. -/
def allocAllocFree : List Op :=
  [.load, .inst 1 { opcode := .alloc, arg0 := 100, arg1 := 0 } ⟨0, 0⟩,
    .inst 1 { opcode := .alloc, arg0 := 5000, arg1 := 1 } ⟨0, 0⟩,
    .inst 1 { opcode := .free, arg0 := 0 } ⟨0, 0⟩]

theorem allocAllocFree_isSome :
    (regionExec 1 (boot 12288 0 fun _ => true) allocAllocFree).isSome = true := by
  decide +kernel

theorem regions_sound_allocAllocFree : ∃ s,
    Run (RegionStep 1) (boot 12288 0 fun _ => true) allocAllocFree s ∧
    1 ∈ s.runningList ∧ RegionsSound s 1 := by
  have hrun := run_of_regionExec (Option.some_get allocAllocFree_isSome).symm
  have hlive : 1 ∈ ((regionExec 1 (boot 12288 0 fun _ => true) allocAllocFree).get
      allocAllocFree_isSome).runningList := by decide +kernel
  exact ⟨_, hrun, hlive, regions_sound hrun hlive⟩

end Ossim.Mem
