import Ossim.Mem.Memphy

/-!
Page tables: the walks and entry accessors of `mm64.c`.

An address is canonical when bits 56 to 63 agree. Its five indices select
a cell of a page table: the process's own for the lower half, the shared
kernel table for the upper half. The pointers `mm->p4d` to `mm->pt`, which
the walk refreshes and nothing reads, are left out.
-/

namespace Ossim.Mem

open Ossim.Lib

/-- The five indices of an address. -/
def addrPath (addr : Nat) : RadixPath 512 4 :=
  let idx (lobit : Nat) : Fin 512 := ⟨addr / 2 ^ lobit % 512, Nat.mod_lt _ (by decide)⟩
  .step (idx 48) (.step (idx 39) (.step (idx 30) (.step (idx 21) (.last (idx 12)))))

/-- `get_pd_from_address`, refusing non-canonical addresses. -/
def getPdFromAddress (addr : Nat) : Option (RadixPath 512 4) :=
  let topBits := addr / 2 ^ 57
  let bit56 := addr / 2 ^ 56 % 2
  if bit56 = 0 then
    if topBits ≠ 0 then none else some (addrPath addr)
  else if topBits ≠ 0x7f then none
  else some (addrPath addr)

/-- `is_kernel_address` -/
def isKernelAddress (addr : Nat) : Bool := addr / 2 ^ 56 % 2 != 0

/-- The address `pgn << PAGING64_ADDR_PT_SHIFT`. -/
def pgnAddr (pgn : Nat) : Nat := pgn * 2 ^ 12 % 2 ^ 64

/-- The root a walk of process `p` starts from. -/
def Sys.root (s : Sys) (p : Pid) (addr : Nat) : PageTable :=
  if isKernelAddress addr then s.krnlPgd else s.pgd p

def Sys.setRoot (s : Sys) (p : Pid) (addr : Nat) (t : PageTable) (h : Nat → Bool) : Sys :=
  if isKernelAddress addr then { s with krnlPgd := t, host := h }
  else { s with pgd := Function.update s.pgd p t, host := h }

/-- `walk_pte` with `create`: success, after creating missing levels. -/
def walkPte (s : Sys) (p : Pid) (addr : Nat) : Bool × Sys :=
  match getPdFromAddress addr with
  | none => (false, s)
  | some path =>
    let r := Radix.touch draw 0 path (s.root p addr) s.host
    (r.1, s.setRoot p addr r.2.1 r.2.2)

/-- `pte_get_entry`: a walk that creates nothing; zero if it fails. -/
def pteGetEntry (s : Sys) (p : Pid) (pgn : Nat) : Nat :=
  match getPdFromAddress (pgnAddr pgn) with
  | none => 0
  | some path => (s.root p (pgnAddr pgn)).lookup 0 path

/-- `pte_set_entry` -/
def pteSetEntry (s : Sys) (p : Pid) (pgn pteVal : Nat) : Bool × Sys :=
  match getPdFromAddress (pgnAddr pgn) with
  | none => (false, s)
  | some path =>
    let r := Radix.write draw 0 path pteVal (s.root p (pgnAddr pgn)) s.host
    (r.1, s.setRoot p (pgnAddr pgn) r.2.1 r.2.2)

/-- `pte_set_swap` -/
def pteSetSwap (s : Sys) (p : Pid) (pgn swptyp swpoff : Nat) : Bool × Sys :=
  pteSetEntry s p pgn (swappedPte swptyp swpoff)

/-- `pte_set_fpn` -/
def pteSetFpn (s : Sys) (p : Pid) (pgn fpn : Nat) : Bool × Sys :=
  pteSetEntry s p pgn (presentPte fpn)

/-- `validate_page_range`, returning `0` or `-1` -/
def validatePageRange (addr : Nat) (pgnum : Int) : Int :=
  if addr % 2 ^ 12 ≠ 0 ∨ pgnum < 0 then -1
  else if pgnum = 0 then 0
  else
    let span := ofInt (pgnum - 1) * pageSz % 2 ^ 64
    let lastAddr := (addr + span) % 2 ^ 64
    if lastAddr < addr then -1
    else if getPdFromAddress addr = none then -1
    else if getPdFromAddress lastAddr = none then -1
    else if isKernelAddress addr ≠ isKernelAddress lastAddr then -1
    else 0

/-! ### Addresses and paths -/

theorem addrPath_inj {a b : Nat} (h : addrPath a = addrPath b) :
    a / 2 ^ 12 % 2 ^ 45 = b / 2 ^ 12 % 2 ^ 45 := by
  simp only [addrPath, RadixPath.step.injEq, RadixPath.last.injEq, Fin.mk.injEq] at h
  omega

theorem getPdFromAddress_user {addr : Nat} (h : addr < 2 ^ 56) :
    getPdFromAddress addr = some (addrPath addr) := by
  have h56 : addr / 2 ^ 56 % 2 = 0 := by omega
  have htop : addr / 2 ^ 57 = 0 := by omega
  simp only [getPdFromAddress, h56, htop, if_true, ne_eq, not_true_eq_false, if_false]

theorem isKernelAddress_user {addr : Nat} (h : addr < 2 ^ 56) : isKernelAddress addr = false := by
  simp only [isKernelAddress, bne_eq_false_iff_eq]
  omega

/-- The upper half starts at `2^64 - 2^56`. -/
theorem getPdFromAddress_kernel {addr : Nat} (h : 2 ^ 64 - 2 ^ 56 ≤ addr) (h' : addr < 2 ^ 64) :
    getPdFromAddress addr = some (addrPath addr) := by
  have h56 : addr / 2 ^ 56 % 2 = 1 := by omega
  have htop : addr / 2 ^ 57 = 0x7f := by omega
  simp only [getPdFromAddress, h56, htop, Nat.one_ne_zero, ne_eq, not_true_eq_false, if_false]

/-- A canonical address is in one of the two halves. -/
theorem getPdFromAddress_cases {addr : Nat} {path : RadixPath 512 4} (hlt : addr < 2 ^ 64)
    (h : getPdFromAddress addr = some path) :
    path = addrPath addr ∧
      (addr < 2 ^ 56 ∧ isKernelAddress addr = false ∨
        2 ^ 64 - 2 ^ 56 ≤ addr ∧ isKernelAddress addr = true) := by
  simp only [getPdFromAddress] at h
  simp only [isKernelAddress]
  split at h
  · rename_i h56
    split at h
    · cases h
    · cases h
      exact ⟨rfl, .inl ⟨by omega, by rw [h56]; rfl⟩⟩
  · rename_i h56
    split at h
    · cases h
    · cases h
      exact ⟨rfl, .inr ⟨by omega, bne_iff_ne.mpr h56⟩⟩

/-! ### Entries of user pages -/

/-- Page numbers of the lower half. -/
def userPgns : Nat := 2 ^ 44

theorem pgnAddr_user {pgn : Nat} (h : pgn < userPgns) :
    pgnAddr pgn = pgn * 2 ^ 12 ∧ pgnAddr pgn < 2 ^ 56 := by
  simp only [userPgns] at h
  simp only [pgnAddr]
  omega

/-- The path of a user page. -/
def pgnPath (pgn : Nat) : RadixPath 512 4 := addrPath (pgn * 2 ^ 12)

theorem pgnPath_inj {g g' : Nat} (hg : g < userPgns) (hg' : g' < userPgns)
    (h : pgnPath g = pgnPath g') : g = g' := by
  have := addrPath_inj h
  simp only [userPgns] at *
  omega

theorem Sys.root_user (s : Sys) (p : Pid) {addr : Nat} (h : addr < 2 ^ 56) :
    s.root p addr = s.pgd p := by
  rw [Sys.root, isKernelAddress_user h]
  rfl

theorem Sys.setRoot_user (s : Sys) (p : Pid) {addr : Nat} (h : addr < 2 ^ 56) (t : PageTable)
    (host : Nat → Bool) :
    s.setRoot p addr t host = { s with pgd := Function.update s.pgd p t, host := host } := by
  rw [Sys.setRoot, isKernelAddress_user h]
  rfl

theorem pteGetEntry_user {s : Sys} {p : Pid} {pgn : Nat} (h : pgn < userPgns) :
    pteGetEntry s p pgn = (s.pgd p).lookup 0 (pgnPath pgn) := by
  obtain ⟨haddr, hlt⟩ := pgnAddr_user h
  rw [pteGetEntry, getPdFromAddress_user hlt, s.root_user p hlt, haddr]
  rfl

theorem walkPte_user {s : Sys} {p : Pid} {addr : Nat} (h : addr < 2 ^ 56) :
    walkPte s p addr =
      let r := Radix.touch draw 0 (addrPath addr) (s.pgd p) s.host
      (r.1, { s with pgd := Function.update s.pgd p r.2.1, host := r.2.2 }) := by
  rw [walkPte, getPdFromAddress_user h, s.root_user p h]
  simp only [s.setRoot_user p h]

theorem pteSetEntry_user {s : Sys} {p : Pid} {pgn v : Nat} (h : pgn < userPgns) :
    pteSetEntry s p pgn v =
      let r := Radix.write draw 0 (pgnPath pgn) v (s.pgd p) s.host
      (r.1, { s with pgd := Function.update s.pgd p r.2.1, host := r.2.2 }) := by
  obtain ⟨haddr, hlt⟩ := pgnAddr_user h
  rw [pteSetEntry, getPdFromAddress_user hlt, s.root_user p hlt]
  simp only [s.setRoot_user p hlt]
  rw [haddr, pgnPath]

end Ossim.Mem
