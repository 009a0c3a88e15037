import Ossim.Mem.RawCalls

/-!
Dummy mappings of a range of pages.

`validate_page_range` looks at the first and the last address of a range
only. The addresses of one half are an interval, and a range of at most
`2^31` pages cannot come round to where it started, so the two ends decide
for all pages between them. The loop of `vmap_pgd_memset` then writes these
pages and no others.
-/

namespace Ossim.Mem

open Ossim.Lib

/-! ### The check -/

/-- The pages of a range are reached without wrap-around, are canonical and
lie in the same half. -/
structure PageRangeOk (addr : Nat) (pgnum : Int) : Prop where
  aligned : addr % pageSz = 0
  nonneg : 0 ≤ pgnum
  reached : ∀ i : Nat, i < pgnum → addr + i * pageSz < 2 ^ 64
  canonical : ∀ i : Nat, i < pgnum → (getPdFromAddress (addr + i * pageSz)).isSome = true
  sameHalf : ∀ i j : Nat, i < pgnum → j < pgnum →
    isKernelAddress (addr + i * pageSz) = isKernelAddress (addr + j * pageSz)

theorem isKernelAddress_kernel {addr : Nat} (h : 2 ^ 64 - 2 ^ 56 ≤ addr) (h' : addr < 2 ^ 64) :
    isKernelAddress addr = true := by
  simp only [isKernelAddress, bne_iff_ne]
  omega

/-- Between two canonical addresses of one half there are only canonical
addresses of this half. -/
theorem canonical_between {a b c : Nat} (hab : a ≤ b) (hbc : b ≤ c) (hlt : c < 2 ^ 64)
    (ha : (getPdFromAddress a).isSome = true) (hc : (getPdFromAddress c).isSome = true)
    (hhalf : isKernelAddress a = isKernelAddress c) :
    (getPdFromAddress b).isSome = true ∧ isKernelAddress b = isKernelAddress a := by
  obtain ⟨patha, ha⟩ := Option.isSome_iff_exists.mp ha
  obtain ⟨pathc, hc⟩ := Option.isSome_iff_exists.mp hc
  obtain ⟨-, ⟨-, hka⟩ | ⟨hle, hka⟩⟩ := getPdFromAddress_cases (by omega) ha
  · obtain ⟨-, ⟨hlow, -⟩ | ⟨-, hkc⟩⟩ := getPdFromAddress_cases hlt hc
    · have hb : b < 2 ^ 56 := by omega
      rw [getPdFromAddress_user hb, isKernelAddress_user hb, hka]
      exact ⟨rfl, rfl⟩
    · rw [hka, hkc] at hhalf
      cases hhalf
  · have hb : 2 ^ 64 - 2 ^ 56 ≤ b := by omega
    rw [getPdFromAddress_kernel hb (by omega), isKernelAddress_kernel hb (by omega), hka]
    exact ⟨rfl, rfl⟩

/-- The check of a range of at least one page, whose last page is `m` pages
after the first. -/
theorem validatePageRange_succ {addr m : Nat} (haddr : addr < 2 ^ 64) (hm : m + 1 < 2 ^ 31)
    (haligned : addr % pageSz = 0) :
    validatePageRange addr (m + 1) = 0 ↔
      addr + m * pageSz < 2 ^ 64 ∧ (getPdFromAddress addr).isSome = true ∧
        (getPdFromAddress (addr + m * pageSz)).isSome = true ∧
        isKernelAddress addr = isKernelAddress (addr + m * pageSz) := by
  have hspan : ofInt ((m : Int) + 1 - 1) * pageSz % 2 ^ 64 = m * pageSz := by
    rw [Int.add_sub_cancel, ofInt_natCast (by omega), Nat.mod_eq_of_lt]
    simp only [pageSz]
    omega
  have hargs : ¬(addr % 2 ^ 12 ≠ 0 ∨ (m : Int) + 1 < 0) := by
    rw [not_or, not_not]
    exact ⟨haligned, by omega⟩
  rw [validatePageRange, if_neg hargs, if_neg (by omega), hspan]
  dsimp only
  rcases Nat.lt_or_ge (addr + m * pageSz) (2 ^ 64) with hlt | hge
  · rw [Nat.mod_eq_of_lt hlt, if_neg (Nat.not_lt.mpr (Nat.le_add_right ..)),
      Option.isSome_iff_ne_none, Option.isSome_iff_ne_none]
    split
    next hnone => exact iff_of_false (by decide) fun h => h.2.1 hnone
    next hfirst =>
      split
      next hnone => exact iff_of_false (by decide) fun h => h.2.2.1 hnone
      next hlast =>
        split
        next hcross => exact iff_of_false (by decide) fun h => hcross h.2.2.2
        next hsame => exact iff_of_true rfl ⟨hlt, hfirst, hlast, not_not.mp hsame⟩
  · have hwrapped : (addr + m * pageSz) % 2 ^ 64 < addr := by
      simp only [pageSz] at hge ⊢
      omega
    rw [if_pos hwrapped]
    exact iff_of_false (by decide) fun h => absurd h.1 (Nat.not_lt.mpr hge)

/-- The two ends decide for the whole range. -/
theorem validatePageRange_eq_zero_iff {addr : Nat} {pgnum : Int} (haddr : addr < 2 ^ 64)
    (hpgnum : pgnum < 2 ^ 31) : validatePageRange addr pgnum = 0 ↔ PageRangeOk addr pgnum := by
  by_cases hargs : addr % 2 ^ 12 ≠ 0 ∨ pgnum < 0
  · rw [validatePageRange, if_pos hargs]
    refine iff_of_false (by decide) fun h => ?_
    rcases hargs with hoff | hneg
    · exact hoff h.aligned
    · exact absurd h.nonneg (Int.not_le.mpr hneg)
  · rw [not_or, not_not, Int.not_lt] at hargs
    obtain ⟨haligned, hnonneg⟩ := hargs
    obtain ⟨n, rfl⟩ := Int.eq_ofNat_of_zero_le hnonneg
    cases n with
    | zero =>
        refine iff_of_true ?_ ⟨haligned, hnonneg, ?_, ?_, ?_⟩
        · rw [validatePageRange, if_neg (by omega)]
          rfl
        all_goals
          intro i
          omega
    | succ m =>
        push_cast at hpgnum ⊢
        rw [validatePageRange_succ haddr (by omega) haligned]
        constructor
        · rintro ⟨hlast, hfirst, hcanon, hhalf⟩
          have hbetween (i : Nat) (hi : (i : Int) < m + 1) :=
            canonical_between (b := addr + i * pageSz) (Nat.le_add_right ..)
              (Nat.add_le_add_left (Nat.mul_le_mul_right _ (by omega)) _) hlast hfirst hcanon hhalf
          refine ⟨haligned, by omega, ?_, ?_, ?_⟩
          · intro i hi
            refine lt_of_le_of_lt (Nat.add_le_add_left (Nat.mul_le_mul_right _ ?_) _) hlast
            omega
          · intro i hi
            exact (hbetween i hi).1
          · intro i j hi hj
            rw [(hbetween i hi).2, (hbetween j hj).2]
        · intro h
          have hfirst := h.canonical 0 (by omega)
          have hhalf := h.sameHalf 0 m (by omega) (by omega)
          rw [Nat.zero_mul, Nat.add_zero] at hfirst hhalf
          exact ⟨h.reached m (by omega), hfirst, h.canonical m (by omega), hhalf⟩

/-- The page numbers of the range. -/
theorem PageRangeOk.canonicalPgn {addr i : Nat} {pgnum : Int} (h : PageRangeOk addr pgnum)
    (hi : i < pgnum) : canonicalPgn (addr / 2 ^ 12 + i) = true := by
  have haddr : pgnAddr (addr / 2 ^ 12 + i) = addr + i * pageSz := by
    have haligned := h.aligned
    have hlt := h.reached i hi
    simp only [pgnAddr, pageSz] at *
    omega
  rw [Mem.canonicalPgn, haddr]
  exact h.canonical i hi

/-! ### The loop -/

theorem walkPte_of_canonical {s : Sys} (hs : s.HostOk) (p : Pid) {addr : Nat}
    (haddr : (getPdFromAddress addr).isSome = true) :
    (walkPte s p addr).1 = true ∧ (walkPte s p addr).2.HostOk := by
  obtain ⟨path, hpath⟩ := Option.isSome_iff_exists.mp haddr
  obtain ⟨hok, hhost⟩ := Radix.touch_of_always (z := 0) (p := path) (t := s.root p addr) hs.draw
  rw [walkPte, hpath]
  refine ⟨hok, ?_⟩
  rw [Sys.HostOk, host_setRoot, hhost]
  exact hs

/-- With the tables supplied, the walks over canonical pages succeed. -/
theorem walkPages_of_canonical {s : Sys} (hs : s.HostOk) (p : Pid) {pgn left pgit : Nat}
    (hpages : ∀ i < left, canonicalPgn (pgn + (pgit + i)) = true) :
    (walkPages p pgn left pgit s).1 = true := by
  induction left generalizing pgit s with
  | zero => rfl
  | succ left ih =>
      obtain ⟨hok, hhost⟩ := walkPte_of_canonical hs p (hpages 0 (Nat.succ_pos left))
      rw [Nat.add_zero] at hok hhost
      rw [walkPages]
      generalize walkPte s p (pgnAddr (pgn + pgit)) = r at hok hhost ⊢
      obtain ⟨b, t⟩ := r
      obtain rfl : b = true := hok
      refine ih hhost fun i hi => ?_
      rw [Nat.add_assoc pgit, Nat.add_comm 1]
      exact hpages (i + 1) (Nat.succ_lt_succ hi)

theorem memsetPages_of_canonical {s : Sys} (hs : s.HostOk) (p : Pid) {pgn left pgit : Nat}
    (hpages : ∀ i < left, canonicalPgn (pgn + (pgit + i)) = true) :
    (memsetPages p pgn left pgit s).1 = 0 := by
  induction left generalizing pgit s with
  | zero => rfl
  | succ left ih =>
      obtain ⟨t, hset, ht⟩ := pteSetEntry_of_canonical hs p dummyPte (hpages 0 (Nat.succ_pos left))
      rw [Nat.add_zero] at hset
      rw [memsetPages, hset]
      refine ih ht fun i hi => ?_
      rw [Nat.add_assoc pgit, Nat.add_comm 1]
      exact hpages (i + 1) (Nat.succ_lt_succ hi)

/-! ### The mapping -/

/-- The page is one of the range. -/
def InRange (addr : Nat) (pgnum : Int) (pgn : Nat) : Prop :=
  ∃ i : Nat, i < pgnum ∧ pgn * pageSz = addr + i * pageSz

/-- Process `q` sees a page that process `p` maps: in the upper half all
processes do. -/
def SeesPage (p q : Pid) (pgn : Nat) : Prop := kernelPgn pgn = true ∨ q = p

/-- The pages of the range hold the dummy entry, which is neither present nor
swapped, and every other entry of every process is as before. -/
structure DummyMapped (s t : Sys) (p : Pid) (addr : Nat) (pgnum : Int) : Prop where
  inside : ∀ q, ∀ pgn < 2 ^ 52, InRange addr pgnum pgn → SeesPage p q pgn →
    pteGetEntry t q pgn = dummyPte
  outside : ∀ q, ∀ pgn < 2 ^ 52, ¬(InRange addr pgnum pgn ∧ SeesPage p q pgn) →
    pteGetEntry t q pgn = pteGetEntry s q pgn
  notPresent : pagePresent dummyPte = false
  notSwapped : pageSwapped dummyPte = false

theorem inRange_iff {addr pgn : Nat} {pgnum : Int} (haligned : addr % pageSz = 0) :
    InRange addr pgnum pgn ↔ addr / 2 ^ 12 ≤ pgn ∧ pgn < addr / 2 ^ 12 + pgnum.toNat := by
  simp only [InRange, pageSz] at *
  constructor
  · rintro ⟨i, hi, heq⟩
    omega
  · intro h
    exact ⟨pgn - addr / 2 ^ 12, by omega, by omega⟩

theorem dummyMapped_memsetPages {s : Sys} (hs : s.HostOk) (p : Pid) {addr : Nat} {pgnum : Int}
    (hlt : addr / 2 ^ 12 + pgnum.toNat ≤ 2 ^ 52) (h : PageRangeOk addr pgnum) :
    DummyMapped s (memsetPages p (addr / 2 ^ 12) pgnum.toNat 0 s).2 p addr pgnum := by
  have hentry := pteGetEntry_memsetPages p (addr / 2 ^ 12) pgnum.toNat 0 s (by omega)
  refine ⟨?_, ?_, by decide, by decide⟩
  · intro q pgn hpgn hin hsees
    obtain ⟨hle, hend⟩ := (inRange_iff h.aligned).mp hin
    rw [hentry q hpgn, if_pos]
    refine ⟨by omega, by omega, hsees, walkPages_of_canonical hs p fun i hi => ?_⟩
    rw [Nat.zero_add]
    exact h.canonicalPgn (by omega)
  · intro q pgn hpgn hout
    rw [hentry q hpgn, if_neg]
    rintro ⟨hle, hend, hsees, -⟩
    exact hout ⟨(inRange_iff h.aligned).mpr ⟨hle, hend⟩, hsees⟩

/-- What `vmap_pgd_memset` returns, and what it does to the tables. -/
structure MemsetExact (s : Sys) (p : Pid) (addr : Nat) (pgnum : Int) : Prop where
  returns : (vmapPgdMemset s p addr pgnum).1 = 0 ↔ PageRangeOk addr pgnum
  mapped : (vmapPgdMemset s p addr pgnum).1 = 0 →
    DummyMapped s (vmapPgdMemset s p addr pgnum).2 p addr pgnum
  failed : (vmapPgdMemset s p addr pgnum).1 ≠ 0 → vmapPgdMemset s p addr pgnum = (-1, s)

/-- A dummy mapping covers exactly its range, or nothing. -/
theorem vmapPgdMemset_exact {s : Sys} (hs : s.HostOk) (p : Pid) {addr : Nat} {pgnum : Int}
    (haddr : addr < 2 ^ 64) (hpgnum : pgnum < 2 ^ 31) : MemsetExact s p addr pgnum := by
  have hvalid := validatePageRange_eq_zero_iff haddr hpgnum
  by_cases hok : PageRangeOk addr pgnum
  · have heq : vmapPgdMemset s p addr pgnum = memsetPages p (addr / 2 ^ 12) pgnum.toNat 0 s := by
      rw [vmapPgdMemset, if_neg (not_not.mpr (hvalid.mpr hok))]
    have hzero : (memsetPages p (addr / 2 ^ 12) pgnum.toNat 0 s).1 = 0 := by
      refine memsetPages_of_canonical hs p fun i hi => ?_
      rw [Nat.zero_add]
      exact hok.canonicalPgn (by omega)
    have hlt := validatePageRange_lt haddr hpgnum (hvalid.mpr hok)
    refine ⟨?_, ?_, ?_⟩
    · rw [heq]
      exact iff_of_true hzero hok
    · intro _
      rw [heq]
      exact dummyMapped_memsetPages hs p hlt hok
    · intro hne
      rw [heq] at hne
      exact absurd hzero hne
  · have heq : vmapPgdMemset s p addr pgnum = (-1, s) := by
      rw [vmapPgdMemset, if_pos fun hzero => hok (hvalid.mp hzero)]
    refine ⟨?_, ?_, fun _ => heq⟩
    · rw [heq]
      exact iff_of_false (show (-1 : Int) ≠ 0 by decide) hok
    · intro hzero
      rw [heq] at hzero
      exact absurd hzero (show (-1 : Int) ≠ 0 by decide)

/-- Two pages at the end of the lower half are mapped, a third one behind them
would not be canonical. -/
theorem vmapPgdMemset_exact_lastPages :
    MemsetExact (boot 0 0 fun _ => true) 1 (2 ^ 56 - 8192) 2 ∧
      (vmapPgdMemset (boot 0 0 fun _ => true) 1 (2 ^ 56 - 8192) 2).1 = 0 ∧
      (vmapPgdMemset (boot 0 0 fun _ => true) 1 (2 ^ 56 - 8192) 3).1 = -1 := by
  have hhost : (boot 0 0 fun _ => true).HostOk := rfl
  exact ⟨vmapPgdMemset_exact hhost 1 (by decide) (by decide), by decide +kernel,
    by decide +kernel⟩

end Ossim.Mem
