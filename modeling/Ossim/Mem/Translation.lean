import Ossim.Mem.KernelFrames

/-!
Address translation: five levels of tables as one map.

`walk_pte` and `kernel_walk_pte` create tables as they need them and choose
their root by bit 56 of the address. Seen through `pte_get_entry`, what they
implement is a map from page numbers to entries, one for each process in the
lower half and a shared one in the upper half.

The header describes entries and addresses by masks. The first section reads
and writes fields through `GENMASK64`, and shows that the arithmetic that the
rest of the development uses for entries is the same.
-/

namespace Ossim.Mem

open Ossim.Lib

/-! ### Masks -/

/-- `GENMASK64` -/
def genmask64 (h l : Nat) : BitVec 64 :=
  (BitVec.allOnes 64 <<< l) &&& (BitVec.allOnes 64 >>> (64 - h - 1))

/-- The bits of a mask. -/
theorem getLsbD_genmask64 {h l : Nat} (hh : h < 64) (i : Nat) :
    (genmask64 h l).getLsbD i = (decide (l ≤ i) && decide (i ≤ h)) := by
  rw [genmask64, BitVec.getLsbD_and, BitVec.getLsbD_shiftLeft, BitVec.getLsbD_ushiftRight,
    BitVec.getLsbD_allOnes, BitVec.getLsbD_allOnes, Bool.eq_iff_iff]
  simp only [Bool.and_eq_true, Bool.not_eq_true', decide_eq_true_eq, decide_eq_false_iff_not]
  omega

/-- Reading a field through its mask. -/
theorem toNat_field (v : BitVec 64) {h l : Nat} (hh : h < 64) :
    ((v &&& genmask64 h l) >>> l).toNat = v.toNat / 2 ^ l % 2 ^ (h + 1 - l) := by
  apply Nat.eq_of_testBit_eq
  intro i
  have hbit : (decide (l ≤ l + i) && decide (l + i ≤ h)) = decide (i < h + 1 - l) := by
    rw [Bool.eq_iff_iff]
    simp only [Bool.and_eq_true, decide_eq_true_eq]
    omega
  rw [BitVec.testBit_toNat, BitVec.getLsbD_ushiftRight, BitVec.getLsbD_and, getLsbD_genmask64 hh,
    Nat.testBit_mod_two_pow, Nat.testBit_div_two_pow, BitVec.testBit_toNat, hbit, Bool.and_comm,
    Nat.add_comm i l]

/-- Writing a field through its mask, above the bits that are in use. -/
theorem toNat_setField {v : BitVec 64} (x : BitVec 64) {h l : Nat} (hh : h < 64)
    (hv : v.toNat < 2 ^ l) :
    ((v &&& ~~~genmask64 h l) ||| ((x <<< l) &&& genmask64 h l)).toNat =
      v.toNat + x.toNat % 2 ^ (h + 1 - l) * 2 ^ l := by
  apply Nat.eq_of_testBit_eq
  intro i
  rw [Nat.add_comm, Nat.mul_comm, Nat.testBit_two_pow_mul_add _ hv, BitVec.testBit_toNat,
    BitVec.getLsbD_or, BitVec.getLsbD_and, BitVec.getLsbD_and, BitVec.getLsbD_not,
    BitVec.getLsbD_shiftLeft, getLsbD_genmask64 hh]
  split
  · rename_i hi
    have hle : ¬l ≤ i := by omega
    rw [BitVec.testBit_toNat]
    rcases Nat.lt_or_ge i 64 with hi64 | hi64
    · simp only [hle, hi, hi64, decide_true, decide_false, Bool.false_and, Bool.and_false,
        Bool.not_false, Bool.and_true, Bool.or_false]
    · rw [BitVec.getLsbD_of_ge v i hi64]
      simp only [hle, decide_false, Bool.false_and, Bool.and_false, Bool.or_false]
  · rename_i hi
    have hzero : v.getLsbD i = false := by
      rw [← BitVec.testBit_toNat]
      exact Nat.testBit_lt_two_pow (hv.trans_le (Nat.pow_le_pow_right (by decide) (by omega)))
    have hle : l ≤ i := by omega
    rw [hzero, Nat.testBit_mod_two_pow, BitVec.testBit_toNat, Bool.eq_iff_iff]
    simp only [Bool.false_and, Bool.false_or, Bool.and_eq_true, Bool.not_eq_true',
      decide_eq_true_eq, decide_eq_false_iff_not]
    constructor
    · rintro ⟨⟨-, hx⟩, -, hih⟩
      exact ⟨by omega, hx⟩
    · rintro ⟨hih, hx⟩
      exact ⟨⟨⟨by omega, by omega⟩, hx⟩, hle, by omega⟩

/-- `BIT_ULL` -/
def bitUll (nr : Nat) : BitVec 64 := 1#64 <<< nr

/-- `SETBIT` -/
def setbit (v mask : BitVec 64) : BitVec 64 := v ||| mask

/-- `CLRBIT` -/
def clrbit (v mask : BitVec 64) : BitVec 64 := v &&& ~~~mask

/-- `PAGING64_PTE_SET_FPN`, `PAGING64_PTE_SET_SWP` and
`PAGING64_PTE_SET_SWPTYP`, for the bits of the field -/
def pteSetField (hibit lobit : Nat) (pte x : BitVec 64) : BitVec 64 :=
  (pte &&& ~~~genmask64 hibit lobit) ||| ((x <<< lobit) &&& genmask64 hibit lobit)

/-- The entry that `pte_set_fpn` and `kernel_map_page` build. -/
def fpnEntry (fpn : BitVec 64) : BitVec 64 :=
  pteSetField 51 12 (clrbit (setbit 0 (bitUll 0)) (bitUll 1)) fpn

/-- The entry that `pte_set_swap` builds. -/
def swapEntry (swptyp swpoff : BitVec 64) : BitVec 64 :=
  pteSetField 51 12 (pteSetField 7 3 (setbit (clrbit 0 (bitUll 0)) (bitUll 1)) swptyp) swpoff

theorem toNat_fpnEntry (fpn : BitVec 64) : (fpnEntry fpn).toNat = presentPte fpn.toNat := by
  rw [fpnEntry, pteSetField, toNat_setField fpn (by decide) (by decide)]
  rfl

theorem toNat_swapEntry (swptyp swpoff : BitVec 64) :
    (swapEntry swptyp swpoff).toNat = swappedPte swptyp.toNat swpoff.toNat := by
  have htyp : (pteSetField 7 3 (setbit (clrbit 0 (bitUll 0)) (bitUll 1)) swptyp).toNat =
      2 + swptyp.toNat % 2 ^ 5 * 2 ^ 3 := toNat_setField swptyp (by decide) (by decide)
  rw [swapEntry, pteSetField, toNat_setField swpoff (by decide) (by rw [htyp]; omega), htyp]
  rfl

/-- `PAGING64_PAGE_PRESENT` for bit 0 and `PAGING64_PAGE_SWAPPED` for bit 1 -/
def pteTest (pte : BitVec 64) (nr : Nat) : Bool := pte &&& bitUll nr != 0

/-- `PAGING64_PTE_FPN` and `PAGING64_PTE_SWP` -/
def pteField (pte : BitVec 64) : BitVec 64 := (pte &&& genmask64 51 12) >>> 12

theorem pteTest_eq {nr : Nat} (hnr : nr < 64) (pte : BitVec 64) :
    pteTest pte nr = (pte.toNat / 2 ^ nr % 2 == 1) := by
  have hbit : bitUll nr = BitVec.twoPow 64 nr := rfl
  have hne : BitVec.twoPow 64 nr ≠ 0 := by
    intro hzero
    have := congrArg (·.getLsbD nr) hzero
    simp [hnr] at this
  rw [pteTest, hbit, BitVec.and_twoPow, ← BitVec.testBit_toNat, Nat.testBit_eq_decide_div_mod_eq]
  rcases Nat.mod_two_eq_zero_or_one (pte.toNat / 2 ^ nr) with h | h
  · rw [h]
    rfl
  · rw [h]
    exact bne_iff_ne.mpr hne

theorem pagePresent_eq (pte : BitVec 64) : pagePresent pte.toNat = pteTest pte 0 := by
  rw [pteTest_eq (by decide), Nat.pow_zero, Nat.div_one]
  rfl

theorem pageSwapped_eq (pte : BitVec 64) : pageSwapped pte.toNat = pteTest pte 1 := by
  rw [pteTest_eq (by decide)]
  rfl

theorem pteFpn_eq (pte : BitVec 64) : pteFpn pte.toNat = (pteField pte).toNat := by
  rw [pteField, toNat_field pte (by decide)]
  rfl

/-! ### Two roots -/

/-- The page number belongs to a canonical address. -/
def canonicalPgn (pgn : Nat) : Bool := (getPdFromAddress (pgnAddr pgn)).isSome

/-- The page number is one of the upper half. -/
def kernelPgn (pgn : Nat) : Bool := isKernelAddress (pgnAddr pgn)

/-- Page numbers below `2^52` have a page each. -/
theorem pgn_of_path {g g' : Nat} {path : RadixPath 512 4} (hg : g < 2 ^ 52) (hg' : g' < 2 ^ 52)
    (hpath : getPdFromAddress (pgnAddr g) = some path)
    (hpath' : getPdFromAddress (pgnAddr g') = some path) : g = g' := by
  have heq : ∀ n < 2 ^ 52, pgnAddr n = n * 2 ^ 12 ∧ pgnAddr n < 2 ^ 64 := by
    intro n hn
    simp only [pgnAddr]
    omega
  have hpage := page_of_path (heq g hg).2 (heq g' hg').2 hpath hpath'
  rw [(heq g hg).1, (heq g' hg').1] at hpage
  simp only [pageSz] at hpage
  omega

theorem root_setRoot (s : Sys) (p q : Pid) (a b : Nat) (t : PageTable) (h : Nat → Bool) :
    (s.setRoot p a t h).root q b =
      if isKernelAddress a = isKernelAddress b ∧ (isKernelAddress a = true ∨ q = p) then t
      else s.root q b := by
  rw [Sys.setRoot, Sys.root, Sys.root]
  cases isKernelAddress a with
  | true => cases isKernelAddress b <;> simp
  | false =>
      cases isKernelAddress b with
      | true => simp
      | false =>
          rcases eq_or_ne q p with rfl | hq
          · simp
          · simp [hq]

/-- Two walks start from one root if both are in the upper half, or of one
process in the lower half. -/
theorem root_of_shared (s : Sys) {p q : Pid} {a b : Nat}
    (h : isKernelAddress a = isKernelAddress b ∧ (isKernelAddress a = true ∨ q = p)) :
    s.root p a = s.root q b := by
  rw [Sys.root, Sys.root, h.1]
  rcases h.2 with hk | rfl
  · rw [← h.1, hk]
    rfl
  · rfl

/-- A page that was set has its new entry for the process, and in the upper
half for all processes; no other page changes. -/
theorem pteGetEntry_pteSetEntry {s t : Sys} {p : Pid} {g v : Nat} (hg : g < 2 ^ 52)
    (hset : pteSetEntry s p g v = (true, t)) (q : Pid) {g' : Nat} (hg' : g' < 2 ^ 52) :
    pteGetEntry t q g' =
      if g' = g ∧ (kernelPgn g = true ∨ q = p) then v else pteGetEntry s q g' := by
  rw [pteSetEntry] at hset
  cases hpath : getPdFromAddress (pgnAddr g) with
  | none =>
      rw [hpath] at hset
      cases hset
  | some path =>
      rw [hpath] at hset
      simp only [Prod.mk.injEq] at hset
      obtain ⟨hok, rfl⟩ := hset
      rw [pteGetEntry, pteGetEntry]
      cases hpath' : getPdFromAddress (pgnAddr g') with
      | none =>
          rw [if_neg]
          rintro ⟨rfl, -⟩
          rw [hpath] at hpath'
          cases hpath'
      | some path' =>
          dsimp only
          rw [root_setRoot]
          split
          · rename_i hroot
            rw [Radix.lookup_write hok, root_of_shared s hroot]
            refine if_congr ⟨?_, ?_⟩ rfl rfl
            · rintro rfl
              exact ⟨pgn_of_path hg' hg hpath' hpath, hroot.2⟩
            · rintro ⟨rfl, -⟩
              rw [hpath] at hpath'
              exact (Option.some.inj hpath').symm
          · rename_i hroot
            rw [if_neg]
            rintro ⟨rfl, hwho⟩
            exact hroot ⟨rfl, hwho⟩

theorem pteSetEntry_of_not_canonical (s : Sys) (p : Pid) {g : Nat} (v : Nat)
    (hg : canonicalPgn g = false) : pteSetEntry s p g v = (false, s) := by
  rw [canonicalPgn, Option.isSome_eq_false_iff, Option.isNone_iff_eq_none] at hg
  rw [pteSetEntry, hg]

theorem host_setRoot (s : Sys) (p : Pid) (a : Nat) (t : PageTable) (h : Nat → Bool) :
    (s.setRoot p a t h).host = h := by
  rw [Sys.setRoot]
  split <;> rfl

/-- With the tables supplied, setting a canonical page succeeds. -/
theorem pteSetEntry_of_canonical {s : Sys} (hs : s.HostOk) (p : Pid) {g : Nat} (v : Nat)
    (hg : canonicalPgn g = true) : ∃ t, pteSetEntry s p g v = (true, t) ∧ t.HostOk := by
  obtain ⟨path, hpath⟩ := Option.isSome_iff_exists.mp hg
  rw [pteSetEntry, hpath]
  obtain ⟨hok, hhost⟩ := Radix.write_of_always (z := 0) (p := path)
    (t := s.root p (pgnAddr g)) hs.draw v
  refine ⟨_, Prod.ext hok rfl, ?_⟩
  rw [Sys.HostOk, host_setRoot, hhost]
  exact hs

/-! ### Sequences of calls -/

/-- A call that sets an entry. -/
inductive PteCall
  | setFpn (p : Pid) (pgn : Nat) (fpn : BitVec 64)
  | setSwap (p : Pid) (pgn : Nat) (swptyp swpoff : BitVec 64)
  | setEntry (p : Pid) (pgn : Nat) (pteVal : BitVec 64)
  | kernelMapPage (addr : Nat) (fpn : BitVec 64)

namespace PteCall

def apply (s : Sys) : PteCall → Bool × Sys
  | setFpn p pgn fpn => pteSetFpn s p pgn fpn.toNat
  | setSwap p pgn swptyp swpoff => pteSetSwap s p pgn swptyp.toNat swpoff.toNat
  | setEntry p pgn pteVal => pteSetEntry s p pgn pteVal.toNat
  | kernelMapPage addr fpn => Mem.kernelMapPage s addr fpn.toNat

def pgn : PteCall → Nat
  | setFpn _ pgn _ | setSwap _ pgn _ _ | setEntry _ pgn _ => pgn
  | kernelMapPage addr _ => addr / 2 ^ 12

/-- The process that makes the call; `kernel_map_page` is not told. -/
def caller : PteCall → Option Pid
  | setFpn p _ _ | setSwap p _ _ _ | setEntry p _ _ => some p
  | kernelMapPage _ _ => none

/-- The entry the call sets. -/
def value : PteCall → BitVec 64
  | setFpn _ _ fpn | kernelMapPage _ fpn => fpnEntry fpn
  | setSwap _ _ swptyp swpoff => swapEntry swptyp swpoff
  | setEntry _ _ pteVal => pteVal

/-- Page numbers are below `2^52`, and `kernel_map_page` is called on
addresses of the upper half. -/
def Ok : PteCall → Prop
  | kernelMapPage addr _ => addr < 2 ^ 64 ∧ isKernelAddress addr = true
  | c => c.pgn < 2 ^ 52

/-- What the call sets at a page, as process `p` sees it. -/
def sets (c : PteCall) (p : Pid) (pgn : Nat) : Option (BitVec 64) :=
  if c.pgn = pgn ∧ canonicalPgn pgn ∧ (kernelPgn pgn ∨ c.caller = some p) then some c.value
  else none

end PteCall

/-- The two walks meet in the upper half: what `kernel_map_page` does,
`pte_set_fpn` of any process would have done. -/
theorem kernelMapPage_eq_pteSetFpn (s : Sys) (p : Pid) {addr : Nat} (fpn : Nat)
    (hlt : addr < 2 ^ 64) (hk : isKernelAddress addr = true) :
    kernelMapPage s addr fpn = pteSetFpn s p (addr / 2 ^ 12) fpn ∧
      kernelPte s addr = pteGetEntry s p (addr / 2 ^ 12) := by
  have hpage : addr / pageSz = pgnAddr (addr / 2 ^ 12) / pageSz := by
    simp only [pageSz, pgnAddr]
    omega
  have hpath := getPdFromAddress_congr hpage
  have hk' : isKernelAddress (pgnAddr (addr / 2 ^ 12)) = true := by
    simp only [isKernelAddress, pgnAddr, bne_iff_ne] at hk ⊢
    omega
  rw [kernelMapPage, pteSetFpn, pteSetEntry, kernelPte, pteGetEntry, ← hpath]
  cases getPdFromAddress addr with
  | none => exact ⟨rfl, rfl⟩
  | some path =>
      dsimp only
      rw [Sys.root, Sys.setRoot, hk']
      exact ⟨rfl, rfl⟩

namespace PteCall

variable {c : PteCall} {s : Sys}

theorem pgn_lt (hc : c.Ok) : c.pgn < 2 ^ 52 := by
  cases c with
  | kernelMapPage addr fpn =>
      have := hc.1
      simp only [pgn]
      omega
  | setFpn _ _ _ | setSwap _ _ _ _ | setEntry _ _ _ => exact hc

/-- Every call is a `pte_set_entry`, for `kernel_map_page` of any process. -/
theorem apply_eq (hc : c.Ok) (s : Sys) (p : Pid) :
    c.apply s = pteSetEntry s (c.caller.getD p) c.pgn c.value.toNat := by
  cases c with
  | setFpn q pgn fpn => simp only [value, toNat_fpnEntry]; rfl
  | setSwap q pgn swptyp swpoff => simp only [value, toNat_swapEntry]; rfl
  | setEntry q pgn pteVal => rfl
  | kernelMapPage addr fpn =>
      simp only [value, toNat_fpnEntry]
      exact (kernelMapPage_eq_pteSetFpn s p fpn.toNat hc.1 hc.2).1

/-- A call of `kernel_map_page` is about the upper half. -/
theorem kernelPgn_of_caller (hc : c.Ok) (hcaller : c.caller = none) : kernelPgn c.pgn = true := by
  cases c with
  | kernelMapPage addr fpn =>
      have hk := hc.2
      have hlt := hc.1
      simp only [kernelPgn, pgn, isKernelAddress, pgnAddr, bne_iff_ne] at hk ⊢
      omega
  | setFpn _ _ _ | setSwap _ _ _ _ | setEntry _ _ _ => cases hcaller

/-- One call: what every process reads afterwards. -/
theorem pteGetEntry_apply (hc : c.Ok) (hs : s.HostOk) (p : Pid) {g : Nat} (hg : g < 2 ^ 52) :
    (c.apply s).2.HostOk ∧
      pteGetEntry (c.apply s).2 p g =
        ((c.sets p g).map BitVec.toNat).getD (pteGetEntry s p g) := by
  rw [apply_eq hc s p, sets]
  cases hcanon : canonicalPgn c.pgn with
  | false =>
      rw [pteSetEntry_of_not_canonical _ _ _ hcanon, if_neg]
      · exact ⟨hs, rfl⟩
      · rintro ⟨rfl, hg', -⟩
        rw [hcanon] at hg'
        cases hg'
  | true =>
      obtain ⟨t, hset, ht⟩ := pteSetEntry_of_canonical hs (c.caller.getD p) c.value.toNat hcanon
      rw [hset]
      refine ⟨ht, ?_⟩
      rw [pteGetEntry_pteSetEntry (pgn_lt hc) hset p hg]
      -- the two descriptions of who sees the page agree
      have hiff : (g = c.pgn ∧ (kernelPgn c.pgn = true ∨ p = c.caller.getD p)) ↔
          (c.pgn = g ∧ canonicalPgn g = true ∧ (kernelPgn g = true ∨ c.caller = some p)) := by
        constructor
        · rintro ⟨rfl, hwho⟩
          refine ⟨rfl, hcanon, ?_⟩
          cases hcaller : c.caller with
          | none => exact .inl (kernelPgn_of_caller hc hcaller)
          | some q =>
              rw [hcaller] at hwho
              exact hwho.imp_right fun h => by rw [h]; rfl
        · rintro ⟨rfl, -, hwho⟩
          exact ⟨rfl, hwho.imp_right fun h => by rw [h]; rfl⟩
      by_cases hpage : c.pgn = g ∧ canonicalPgn g = true ∧ (kernelPgn g = true ∨ c.caller = some p)
      · rw [if_pos hpage, if_pos (hiff.mpr hpage)]
        rfl
      · rw [if_neg hpage, if_neg fun h => hpage (hiff.mp h)]
        rfl

end PteCall

def applyCalls (s : Sys) (calls : List PteCall) : Sys := calls.foldl (fun s c => (c.apply s).2) s

/-- The last entry that a sequence of calls sets at a page of `p`, zero if
there is none. -/
def lastSet (calls : List PteCall) (p : Pid) (pgn : Nat) : BitVec 64 :=
  calls.foldl (fun v c => (c.sets p pgn).getD v) 0

/-- No entry is set, and the host supplies every table. -/
structure EmptyTables (s : Sys) : Prop where
  host : s.HostOk
  entry : ∀ p pgn, pteGetEntry s p pgn = 0

theorem pteGetEntry_applyCalls {calls : List PteCall} (hcalls : ∀ c ∈ calls, c.Ok) {s : Sys}
    (hs : s.HostOk) (p : Pid) {g : Nat} (hg : g < 2 ^ 52) (v : BitVec 64)
    (hv : pteGetEntry s p g = v.toNat) :
    (applyCalls s calls).HostOk ∧ pteGetEntry (applyCalls s calls) p g =
      (calls.foldl (fun v c => (c.sets p g).getD v) v).toNat := by
  induction calls generalizing s v with
  | nil => exact ⟨hs, hv⟩
  | cons c calls ih =>
      obtain ⟨hhost, hentry⟩ := PteCall.pteGetEntry_apply (hcalls c (List.mem_cons_self ..)) hs p hg
      refine ih (fun c' hc' => hcalls c' (List.mem_cons_of_mem c hc')) hhost _ ?_
      rw [hentry, hv]
      dsimp only
      cases c.sets p g <;> rfl

/-- What the tables are, seen from outside, after a sequence of calls. -/
structure TablesAreMap (calls : List PteCall) (t : Sys) : Prop where
  lookup : ∀ p, ∀ pgn < 2 ^ 52, pteGetEntry t p pgn = (lastSet calls p pgn).toNat
  sameSlot : ∀ p addr fpn, addr < 2 ^ 64 → isKernelAddress addr = true →
    kernelPte t addr = pteGetEntry t p (addr / 2 ^ 12) ∧
      kernelMapPage t addr fpn = pteSetFpn t p (addr / 2 ^ 12) fpn
  refused : ∀ c : PteCall, c.Ok → canonicalPgn c.pgn = false → c.apply t = (false, t)
  accepted : ∀ c : PteCall, c.Ok → canonicalPgn c.pgn = true → (c.apply t).1 = true

/-- The entry of a frame number, and that of a swap offset, can be told
apart and give the number back. -/
structure EntryDecodes (x : BitVec 64) : Prop where
  fpn : pteField (fpnEntry x) = x ∧ pteTest (fpnEntry x) 0 = true ∧ pteTest (fpnEntry x) 1 = false
  swap : ∀ swptyp, pteField (swapEntry swptyp x) = x ∧ pteTest (swapEntry swptyp x) 0 = false ∧
    pteTest (swapEntry swptyp x) 1 = true

theorem entryDecodes {x : BitVec 64} (hx : x.toNat < 2 ^ 40) : EntryDecodes x where
  fpn := by
    refine ⟨BitVec.eq_of_toNat_eq ?_, ?_, ?_⟩
    · rw [← pteFpn_eq, toNat_fpnEntry, pteFpn_presentPte hx]
    · rw [← pagePresent_eq, toNat_fpnEntry, pagePresent_presentPte]
    · rw [← pageSwapped_eq, toNat_fpnEntry, pageSwapped_presentPte]
  swap swptyp := by
    refine ⟨BitVec.eq_of_toNat_eq ?_, ?_, ?_⟩
    · rw [← pteFpn_eq, toNat_swapEntry]
      exact pteSwp_swappedPte hx
    · rw [← pagePresent_eq, toNat_swapEntry, pagePresent_swappedPte]
    · rw [← pageSwapped_eq, toNat_swapEntry, pageSwapped_swappedPte]

/-- The five levels implement a map, private in the lower half and shared in
the upper half. -/
theorem tables_implement_map {s : Sys} (hs : EmptyTables s) {calls : List PteCall}
    (hcalls : ∀ c ∈ calls, c.Ok) :
    TablesAreMap calls (applyCalls s calls) ∧
      ∀ x : BitVec 64, x.toNat < 2 ^ 40 → EntryDecodes x := by
  have hrun (p : Pid) {g : Nat} (hg : g < 2 ^ 52) :=
    pteGetEntry_applyCalls hcalls hs.host p hg 0 (hs.entry p g)
  refine ⟨⟨fun p g hg => (hrun p hg).2, fun p addr fpn hlt hk => ?_, fun c hc hcanon => ?_,
    fun c hc hcanon => ?_⟩, fun x hx => entryDecodes hx⟩
  · obtain ⟨hmap, hpte⟩ := kernelMapPage_eq_pteSetFpn (applyCalls s calls) p fpn hlt hk
    exact ⟨hpte, hmap⟩
  · rw [PteCall.apply_eq hc _ 0]
    exact pteSetEntry_of_not_canonical _ _ _ hcanon
  · rw [PteCall.apply_eq hc _ 0]
    obtain ⟨t, hset, -⟩ := pteSetEntry_of_canonical (hrun 0 (g := 0) (by decide)).1
      (c.caller.getD 0) c.value.toNat hcanon
    rw [hset]

theorem emptyTables_boot (ramSz swpSz : Nat) :
    EmptyTables (boot ramSz swpSz fun _ => true) where
  host := rfl
  entry p pgn := by
    rw [pteGetEntry]
    split
    · rfl
    · rename_i path _
      rw [Sys.root]
      split <;> cases path <;> rfl

/-- Two processes map the same page of the lower half, then `kernel_map_page`
and process 2 map the same page of the upper half. -/
def sharedAndPrivate : List PteCall :=
  [.setFpn 1 5 7, .setSwap 2 5 0 3, .kernelMapPage kmemVaddrBase 9,
    .setEntry 2 (kmemVaddrBase / 2 ^ 12) 0xdeadbee0]

theorem tables_implement_map_sharedAndPrivate :
    (∀ c ∈ sharedAndPrivate, c.Ok) ∧
    TablesAreMap sharedAndPrivate
      (applyCalls (boot 4096 4096 fun _ => true) sharedAndPrivate) ∧
    lastSet sharedAndPrivate 1 5 = fpnEntry 7 ∧
    lastSet sharedAndPrivate 1 (kmemVaddrBase / 2 ^ 12) = 0xdeadbee0 := by
  have hcalls : ∀ c ∈ sharedAndPrivate, c.Ok := by
    simp only [sharedAndPrivate, List.forall_mem_cons]
    refine ⟨?_, ?_, ⟨?_, ?_⟩, ?_, fun c hc => by cases hc⟩
    · show 5 < 2 ^ 52
      decide
    · show 5 < 2 ^ 52
      decide
    · decide
    · decide
    · show kmemVaddrBase / 2 ^ 12 < 2 ^ 52
      decide
  exact ⟨hcalls, (tables_implement_map (emptyTables_boot 4096 4096) hcalls).1, by decide, by decide⟩

end Ossim.Mem
