import Ossim.Mem.Alike
import Ossim.Mem.Translation

/-!
The two system calls that go past the memory manager.

`SYSMEM_MAP_OP` writes a dummy entry over every page of a range, and
`SYSMEM_SWP_OP` copies any frame of the RAM over any frame of the swap.
Neither asks whether a page or a frame is in use. The results here hold of
every state, reachable or not, and say exactly when a call does no harm.
-/

namespace Ossim.Mem

open Ossim.Lib

/-! ### Tables in the same places -/

/-- The two states have tables in the same places and the same host. -/
structure SameTables (s t : Sys) : Prop where
  host : t.host = s.host
  krnlPgd : t.krnlPgd.shape = s.krnlPgd.shape
  pgd : ∀ p, (t.pgd p).shape = (s.pgd p).shape

namespace SameTables

variable {s t : Sys}

theorem root (h : SameTables s t) (p : Pid) (addr : Nat) :
    (t.root p addr).shape = (s.root p addr).shape := by
  rw [Sys.root, Sys.root]
  split
  · exact h.krnlPgd
  · exact h.pgd p

theorem setRoot (h : SameTables s t) (p : Pid) (addr : Nat) {r r' : PageTable}
    (hr : r'.shape = r.shape) (host : Nat → Bool) :
    SameTables (s.setRoot p addr r host) (t.setRoot p addr r' host) := by
  rw [Sys.setRoot, Sys.setRoot]
  split
  · exact ⟨rfl, hr, h.pgd⟩
  · refine ⟨rfl, h.krnlPgd, fun q => ?_⟩
    rcases eq_or_ne q p with rfl | hq
    · simp only [Function.update_self]
      exact hr
    · simp only [Function.update_of_ne hq]
      exact h.pgd q

theorem walkPte (h : SameTables s t) (p : Pid) (addr : Nat) :
    (Mem.walkPte t p addr).1 = (Mem.walkPte s p addr).1 ∧
      SameTables (Mem.walkPte s p addr).2 (Mem.walkPte t p addr).2 := by
  rw [Mem.walkPte, Mem.walkPte]
  split
  · exact ⟨rfl, h⟩
  · rename_i path _
    dsimp only
    rw [h.host]
    obtain ⟨hok, hshape, hhost⟩ := Radix.touch_of_shape draw 0 path s.host (h.root p addr)
    rw [hhost]
    exact ⟨hok, h.setRoot p addr hshape _⟩

/-- Setting an entry succeeds where the walk does, and creates what the walk
creates. -/
theorem pteSetEntry (s : Sys) (p : Pid) (g v : Nat) :
    (Mem.pteSetEntry s p g v).1 = (Mem.walkPte s p (pgnAddr g)).1 ∧
      SameTables (Mem.walkPte s p (pgnAddr g)).2 (Mem.pteSetEntry s p g v).2 := by
  have hrefl : SameTables s s := ⟨rfl, rfl, fun _ => rfl⟩
  rw [Mem.walkPte, Mem.pteSetEntry]
  split
  · exact ⟨rfl, hrefl⟩
  · rename_i path _
    dsimp only
    obtain ⟨hok, hshape, hhost⟩ := Radix.write_shape draw 0 path v (s.root p (pgnAddr g)) s.host
    rw [hhost]
    exact ⟨hok, hrefl.setRoot p (pgnAddr g) hshape _⟩

theorem walkPages (p : Pid) (pgn left pgit : Nat) (h : SameTables s t) :
    (Mem.walkPages p pgn left pgit t).1 = (Mem.walkPages p pgn left pgit s).1 := by
  induction left generalizing pgit s t with
  | zero => rfl
  | succ left ih =>
      obtain ⟨hok, hst⟩ := h.walkPte p (pgnAddr (pgn + pgit))
      rw [Mem.walkPages, Mem.walkPages]
      generalize Mem.walkPte s p (pgnAddr (pgn + pgit)) = r at hok hst ⊢
      generalize Mem.walkPte t p (pgnAddr (pgn + pgit)) = r' at hok hst ⊢
      obtain ⟨b, s₁⟩ := r
      obtain ⟨b', t₁⟩ := r'
      obtain rfl : b' = b := hok
      cases b' with
      | false => rfl
      | true => exact ih (pgit + 1) hst

end SameTables

/-! ### MAP -/

/-- A call that fails leaves every entry as it was. -/
theorem pteGetEntry_of_fail {s t : Sys} {p : Pid} {g v : Nat}
    (hset : pteSetEntry s p g v = (false, t)) (q : Pid) (g' : Nat) :
    pteGetEntry t q g' = pteGetEntry s q g' := by
  rw [pteSetEntry] at hset
  cases hpath : getPdFromAddress (pgnAddr g) with
  | none =>
      rw [hpath] at hset
      cases hset
      rfl
  | some path =>
      rw [hpath] at hset
      simp only [Prod.mk.injEq] at hset
      obtain ⟨hfail, rfl⟩ := hset
      rw [pteGetEntry, pteGetEntry]
      split
      · rfl
      · rw [root_setRoot]
        split
        · rename_i hroot
          rw [Radix.lookup_write_of_fail hfail, root_of_shared s hroot]
        · rfl

/-- The loop of `vmap_pgd_memset` writes every page whose tables, and those
of the pages before it, can be had. -/
theorem pteGetEntry_memsetPages (p : Pid) (pgn left pgit : Nat) (s : Sys)
    (hlt : pgn + pgit + left ≤ 2 ^ 52) (q : Pid) {g : Nat} (hg : g < 2 ^ 52) :
    pteGetEntry (memsetPages p pgn left pgit s).2 q g =
      if pgn + pgit ≤ g ∧ g < pgn + pgit + left ∧ (kernelPgn g = true ∨ q = p) ∧
          (walkPages p pgn (g + 1 - (pgn + pgit)) pgit s).1 = true then dummyPte
      else pteGetEntry s q g := by
  induction left generalizing pgit s with
  | zero =>
      rw [if_neg fun h => by omega]
      rfl
  | succ left ih =>
      have hpage : pgn + pgit < 2 ^ 52 := by omega
      obtain ⟨hok, hsame⟩ := SameTables.pteSetEntry s p (pgn + pgit) dummyPte
      -- the walk over the range up to `g` starts with the page that is set
      have hwalk (hle : pgn + pgit ≤ g) : (walkPages p pgn (g + 1 - (pgn + pgit)) pgit s).1 =
          ((walkPte s p (pgnAddr (pgn + pgit))).1 &&
            (walkPages p pgn (g - (pgn + pgit)) (pgit + 1)
              (walkPte s p (pgnAddr (pgn + pgit))).2).1) := by
        rw [show g + 1 - (pgn + pgit) = g - (pgn + pgit) + 1 by omega, walkPages]
        generalize walkPte s p (pgnAddr (pgn + pgit)) = r
        obtain ⟨_ | _, s₁⟩ := r <;> rfl
      rw [memsetPages]
      generalize hset : pteSetEntry s p (pgn + pgit) dummyPte = r at hok hsame ⊢
      obtain ⟨b, t⟩ := r
      cases b with
      | false =>
          dsimp only
          rw [pteGetEntry_of_fail hset, if_neg]
          rintro ⟨hle, -, -, hall⟩
          rw [hwalk hle, ← hok] at hall
          cases hall
      | true =>
          dsimp only
          rw [ih (pgit + 1) t (by omega), pteGetEntry_pteSetEntry hpage hset q hg]
          have hrest := hsame.walkPages p pgn (g - (pgn + pgit)) (pgit + 1)
          rw [show g + 1 - (pgn + (pgit + 1)) = g - (pgn + pgit) by omega, hrest]
          rcases Nat.lt_trichotomy g (pgn + pgit) with hlt | rfl | hgt
          · rw [if_neg fun h => by omega, if_neg fun h => by omega, if_neg fun h => by omega]
          · rw [if_neg fun h => by omega]
            refine if_congr ⟨fun h => ⟨Nat.le_refl _, by omega, h.2, ?_⟩, fun h => ⟨rfl, h.2.2.1⟩⟩
              rfl rfl
            rw [hwalk (Nat.le_refl _), ← hok, Nat.sub_self]
            rfl
          · rw [if_neg (c := g = pgn + pgit ∧ _) fun h => by omega, hwalk (by omega), ← hok,
              Bool.true_and]
            refine if_congr
              ⟨fun h => ⟨by omega, by omega, h.2.2⟩, fun h => ⟨by omega, by omega, h.2.2⟩⟩
              rfl rfl

/-- A range that passes the check has no page past the last one. -/
theorem validatePageRange_lt {addr : Nat} {n : Int} (haddr : addr < 2 ^ 64) (hn : n < 2 ^ 31)
    (h : validatePageRange addr n = 0) : addr / 2 ^ 12 + n.toNat ≤ 2 ^ 52 := by
  rw [validatePageRange] at h
  split at h
  · cases h
  · split at h
    · omega
    · have hspan : ofInt (n - 1) * pageSz % 2 ^ 64 = (n.toNat - 1) * pageSz := by
        simp only [ofInt, pageSz]
        omega
      rw [hspan] at h
      dsimp only at h
      split at h
      · cases h
      · rename_i hlast
        simp only [pageSz] at hlast
        omega

/-- The entry stands for a frame of the RAM or of the swap. -/
def Live (pte : Nat) : Prop := pagePresent pte = true ∨ pageSwapped pte = true

/-- Every live entry, of any process and of the kernel, has kept its value. -/
def KeepsLive (s t : Sys) : Prop :=
  ∀ q, ∀ pgn < 2 ^ 52, Live (pteGetEntry s q pgn) → pteGetEntry t q pgn = pteGetEntry s q pgn

/-- The range of a `MAP` call passes the check and has a live page that the
loop reaches: the host supplies the tables of the range up to this page. -/
def MapHitsLive (s : Sys) (p : Pid) (addr : Nat) (pgnum : Int) : Prop :=
  p ∈ s.runningList ∧ validatePageRange addr pgnum = 0 ∧
    ∃ k < pgnum.toNat, Live (pteGetEntry s p (addr / 2 ^ 12 + k)) ∧
      (walkPages p (addr / 2 ^ 12) (k + 1) 0 s).1 = true

theorem not_live_dummyPte : ¬Live dummyPte := by
  rintro (h | h) <;> exact absurd h (by decide)

/-- All processes read the same entry of a page of the upper half. -/
theorem pteGetEntry_kernel (s : Sys) (p q : Pid) {g : Nat} (hg : kernelPgn g = true) :
    pteGetEntry s q g = pteGetEntry s p g := by
  rw [kernelPgn] at hg
  rw [pteGetEntry, pteGetEntry, Sys.root, Sys.root, hg]
  rfl

theorem keepsLive_vmapPgdMemset (s : Sys) (p : Pid) {addr : Nat} {n : Int} (haddr : addr < 2 ^ 64)
    (hn : n < 2 ^ 31) :
    KeepsLive s (vmapPgdMemset s p addr n).2 ↔
      ¬(validatePageRange addr n = 0 ∧ ∃ k < n.toNat, Live (pteGetEntry s p (addr / 2 ^ 12 + k)) ∧
        (walkPages p (addr / 2 ^ 12) (k + 1) 0 s).1 = true) := by
  rw [vmapPgdMemset]
  split
  · rename_i hrefused
    exact ⟨fun _ h => hrefused h.1, fun _ _ _ _ _ => rfl⟩
  · rename_i hvalid
    have hvalid : validatePageRange addr n = 0 := not_not.mp hvalid
    have hlt := validatePageRange_lt haddr hn hvalid
    have hentry := pteGetEntry_memsetPages p (addr / 2 ^ 12) n.toNat 0 s (by omega)
    constructor
    · rintro hkeeps ⟨-, k, hk, hlive, hwalk⟩
      have hpage := hkeeps p (addr / 2 ^ 12 + k) (by omega) hlive
      have hcount : addr / 2 ^ 12 + k + 1 - (addr / 2 ^ 12 + 0) = k + 1 := by omega
      rw [hentry p (by omega), hcount, if_pos ⟨by omega, by omega, .inr rfl, hwalk⟩] at hpage
      rw [← hpage] at hlive
      exact not_live_dummyPte hlive
    · intro hnone q g hg hlive
      rw [hentry q hg, if_neg]
      rintro ⟨hle, hlast, hwho, hwalk⟩
      refine hnone ⟨hvalid, g - addr / 2 ^ 12, by omega, ?_, ?_⟩
      · rw [show addr / 2 ^ 12 + (g - addr / 2 ^ 12) = g by omega]
        rcases hwho with hk | rfl
        · rw [← pteGetEntry_kernel s p q hk]
          exact hlive
        · exact hlive
      · rw [show g - addr / 2 ^ 12 + 1 = g + 1 - (addr / 2 ^ 12 + 0) by omega]
        exact hwalk

/-- `MAP` keeps the live entries unless its range has one. The range starts at
the lower half of the address that is passed. -/
theorem map_keeps_live_iff {s t : Sys} {p : Pid} {a1 a2 a3 : BitVec 64} {junk : VmRg} {ret : Int}
    {a3' : Nat} (hop : MemOp.ofInt (toInt a1.toNat) = some .map)
    (hcall : sysMemmap s p a1.toNat a2.toNat a3.toNat junk = some (ret, a3', t)) :
    KeepsLive s t ↔ ¬MapHitsLive s p (toUint32 a2.toNat) (toInt a3.toNat) := by
  have hn : toInt a3.toNat < 2 ^ 31 := by
    rw [toInt]
    split <;> omega
  rw [sysMemmap, hop] at hcall
  split at hcall
  · rename_i hp
    cases hcall
    exact ⟨fun _ h => hp h.1, fun _ _ _ _ _ => rfl⟩
  · rename_i hp
    have hp : p ∈ s.runningList := not_not.mp hp
    have haddr : toUint32 a2.toNat < 2 ^ 64 := by
      have := toUint32_lt a2.toNat
      omega
    have hmap := keepsLive_vmapPgdMemset s p haddr hn
    dsimp only at hcall
    generalize vmapPgdMemset s p (toUint32 a2.toNat) (toInt a3.toNat) = r at hmap hcall
    obtain ⟨code, u⟩ := r
    cases hcall
    rw [MapHitsLive, hmap]
    exact not_congr ⟨fun h => ⟨hp, h⟩, fun h => h.2⟩

/-- Process 1 allocates one page. -/
def onePage : List Op := [.load, .inst 1 { opcode := .alloc, arg0 := 4096, arg1 := 0 } ⟨0, 0⟩]

theorem onePage_isSome : (exec step (boot 8192 0 fun _ => true) onePage).isSome = true := by
  decide +kernel

/-- The state after `onePage`. -/
def withOnePage : Sys := (exec step (boot 8192 0 fun _ => true) onePage).get onePage_isSome

/-- A `MAP` call of process 1 on that state, with its result. -/
theorem withOnePage_map (addr : BitVec 64) (h : (sysMemmap withOnePage 1 (1 : BitVec 64).toNat
      addr.toNat (1 : BitVec 64).toNat ⟨0, 0⟩).map (fun r => (r.1, r.2.1)) = some (0, 1)) :
    ∃ t, sysMemmap withOnePage 1 (1 : BitVec 64).toNat addr.toNat (1 : BitVec 64).toNat ⟨0, 0⟩ =
      some (0, 1, t) := by
  obtain ⟨⟨ret, a3, t⟩, ht, heq⟩ := Option.map_eq_some_iff.mp h
  cases heq
  exact ⟨t, ht⟩

theorem map_keeps_live_iff_withOnePage : ∃ t,
    sysMemmap withOnePage 1 (1 : BitVec 64).toNat (4096 : BitVec 64).toNat (1 : BitVec 64).toNat
      ⟨0, 0⟩ = some (0, 1, t) ∧
    (KeepsLive withOnePage t ↔ ¬MapHitsLive withOnePage 1 (toUint32 (4096 : BitVec 64).toNat)
      (toInt (1 : BitVec 64).toNat)) := by
  obtain ⟨t, ht⟩ := withOnePage_map 4096 (by decide +kernel)
  exact ⟨t, ht, map_keeps_live_iff (by decide) ht⟩

/-- `MAP` of the page at address 0 overwrites its entry, and its frame is in
no table and in no list any more. -/
theorem withOnePage_map_destroys : ∃ t,
    Run (Step step) (boot 8192 0 fun _ => true) onePage withOnePage ∧
    sysMemmap withOnePage 1 (1 : BitVec 64).toNat (0 : BitVec 64).toNat (1 : BitVec 64).toNat
      ⟨0, 0⟩ = some (0, 1, t) ∧ ¬KeepsLive withOnePage t := by
  obtain ⟨t, ht⟩ := withOnePage_map 0 (by decide +kernel)
  refine ⟨t, run_of_exec (Option.some_get onePage_isSome).symm, ht, fun hkeeps => ?_⟩
  have hsame := hkeeps 1 0 (by decide) (.inl (by decide +kernel))
  have hold : pteGetEntry withOnePage 1 0 = presentPte 0 := by decide +kernel
  have hnew : (sysMemmap withOnePage 1 (1 : BitVec 64).toNat (0 : BitVec 64).toNat
      (1 : BitVec 64).toNat ⟨0, 0⟩).map (fun r => pteGetEntry r.2.2 1 0) = some dummyPte := by
    decide +kernel
  rw [ht, Option.map_some, hsame, hold] at hnew
  exact absurd hnew (by decide)

end Ossim.Mem
