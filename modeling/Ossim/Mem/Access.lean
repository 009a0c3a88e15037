import Ossim.Mem.Region

/-!
Access to user memory: `pg_getpage` to `libwrite` of `libmem.c`.

A page that is not in RAM is brought back into a frame that an eviction
frees; the swap frame it occupied is put back. Only addresses of the lower
half, inside a region of the process, reach this through an instruction.
-/

namespace Ossim.Mem

/-- `pg_getpage` -/
def pgGetpage (s : Sys) (p : Pid) (pgn : Nat) : Option Nat × Sys :=
  let pte := pteGetEntry s p pgn
  if pagePresent pte then (some (pteFpn pte), s)
  else if !pageSwapped pte then (none, s)
  else
    match swapOutVictimPage s p with
    | (none, s) => (none, s)
    | (some tgtfpn, s) =>
      match swapCpPage s .mswp (pteSwp pte) .mram tgtfpn with
      | (false, s) => (none, s)
      | (true, s) =>
        let s := memphyPutFreefp s .mswp (pteSwp pte)
        let s := (pteSetFpn s p pgn tgtfpn).2
        let s := (enlistPgnNode s p pgn).2
        (some (pteFpn (pteGetEntry s p pgn)), s)

/-- `pg_getval` -/
def pgGetval (s : Sys) (p : Pid) (addr : Nat) : Option Byte × Sys :=
  match pgGetpage s p (addr / 2 ^ 12) with
  | (none, s) => (none, s)
  | (some fpn, s) => (memphyRead s .mram (fpn * pageSz + addr % 2 ^ 12), s)

/-- `pg_setval`. A store that succeeds is recorded. -/
def pgSetval (s : Sys) (p : Pid) (addr : Nat) (value : Byte) (copied : Bool) : Bool × Sys :=
  match pgGetpage s p (addr / 2 ^ 12) with
  | (none, s) => (false, s)
  | (some fpn, s) =>
    match memphyWrite s .mram (fpn * pageSz + addr % 2 ^ 12) value with
    | none => (false, s)
    | some s => (true, { s with stores := ⟨p, addr, value, copied⟩ :: s.stores })

/-- `is_user_vaddr_range` -/
def isUserVaddrRange (start stop : Nat) : Bool :=
  !(stop ≤ start) && (getPdFromAddress start).isSome && (getPdFromAddress (stop - 1)).isSome &&
    !isKernelAddress start && !isKernelAddress (stop - 1)

/-- The bounds checks of all user accesses: the address of an offset. -/
def userAccess (rg : VmRg) (offset : Nat) : Option Nat :=
  if (rg.rgEnd + 2 ^ 64 - rg.rgStart) % 2 ^ 64 ≤ offset then none
  else
    let accessAddr := (rg.rgStart + offset) % 2 ^ 64
    if accessAddr < rg.rgStart ∨ !isUserVaddrRange rg.rgStart rg.rgEnd ∨
        !isUserVaddrRange accessAddr ((accessAddr + 1) % 2 ^ 64) then none
    else some accessAddr

/-- `__read` -/
def read (s : Sys) (p : Pid) (rgid offset : Nat) : Option Byte × Sys :=
  let rg := s.symrgtbl p rgid
  if maxSymtblSz ≤ rgid ∨ rg.rgStart = rg.rgEnd then (none, s)
  else
    match userAccess rg offset with
    | none => (none, s)
    | some addr => pgGetval s p addr

/-- `__write` -/
def write (s : Sys) (p : Pid) (rgid offset : Nat) (value : Byte) : Bool × Sys :=
  let rg := s.symrgtbl p rgid
  if maxSymtblSz ≤ rgid ∨ rg.rgStart = rg.rgEnd then (false, s)
  else
    match userAccess rg offset with
    | none => (false, s)
    | some addr => pgSetval s p addr value false

/-- `__read_user_mem` -/
def readUserMem (s : Sys) (p : Pid) (rgid offset : Nat) : Option Byte × Sys :=
  let rg := s.symrgtbl p rgid
  if maxSymtblSz ≤ rgid ∨ rg.rgEnd ≤ rg.rgStart then (none, s)
  else
    match userAccess rg offset with
    | none => (none, s)
    | some addr => pgGetval s p addr

/-- `__write_user_mem` -/
def writeUserMem (s : Sys) (p : Pid) (rgid offset : Nat) (value : Byte) : Bool × Sys :=
  let rg := s.symrgtbl p rgid
  if maxSymtblSz ≤ rgid ∨ rg.rgEnd ≤ rg.rgStart then (false, s)
  else
    match userAccess rg offset with
    | none => (false, s)
    | some addr => pgSetval s p addr value true

/-- The number of registers; an index past it writes outside the array. -/
def numRegs : Nat := 10

def Sys.setReg (s : Sys) (p : Pid) (r v : Nat) : Sys :=
  { s with regs := Function.update s.regs p (Function.update (s.regs p) r v) }

/-- `libread` -/
def libread (s : Sys) (p : Pid) (source offset destination : Nat) : Option (Int × Sys) :=
  match read s p source offset with
  | (none, s) => some (-1, s)
  | (some data, s) =>
    if numRegs ≤ destination then none else some (0, s.setReg p destination data.toReg)

/-- `libwrite` -/
def libwrite (s : Sys) (p : Pid) (data : Byte) (destination offset : Nat) : Int × Sys :=
  match write s p destination offset data with
  | (false, s) => (-1, s)
  | (true, s) => (0, s)

/-! ### What the bounds checks leave -/

theorem isUserVaddrRange_iff {start stop : Nat} (hstop : stop < 2 ^ 64) :
    isUserVaddrRange start stop = true ↔ start < stop ∧ stop ≤ 2 ^ 56 := by
  simp only [isUserVaddrRange, Bool.and_eq_true, Bool.not_eq_true', decide_eq_false_iff_not,
    Nat.not_le]
  constructor
  · rintro ⟨⟨⟨⟨hlt, -⟩, hsome⟩, -⟩, hlast⟩
    obtain ⟨path, hpath⟩ := Option.isSome_iff_exists.mp hsome
    obtain ⟨-, ⟨hlow, -⟩ | ⟨-, hk⟩⟩ := getPdFromAddress_cases (by omega) hpath
    · exact ⟨hlt, by omega⟩
    · rw [hk] at hlast
      cases hlast
  · rintro ⟨hlt, hle⟩
    have h1 : start < 2 ^ 56 := by omega
    have h2 : stop - 1 < 2 ^ 56 := by omega
    rw [getPdFromAddress_user h1, getPdFromAddress_user h2, isKernelAddress_user h1,
      isKernelAddress_user h2]
    exact ⟨⟨⟨⟨hlt, rfl⟩, rfl⟩, rfl⟩, rfl⟩

/-- Nothing is accessed through a region without bytes. -/
theorem userAccess_of_empty {rg : VmRg} (h : rg.rgEnd ≤ rg.rgStart) (offset : Nat) :
    userAccess rg offset = none := by
  have hrange : isUserVaddrRange rg.rgStart rg.rgEnd = false := by
    rw [isUserVaddrRange, decide_eq_true h]
    rfl
  rw [userAccess, hrange]
  split
  · rfl
  · exact if_pos (.inr (.inl rfl))

/-- Every address a user access reaches is in the lower half. -/
theorem userAccess_lt {rg : VmRg} {offset addr : Nat} (h : userAccess rg offset = some addr) :
    addr < 2 ^ 56 := by
  simp only [userAccess] at h
  split at h
  · cases h
  · split at h
    · cases h
    · rename_i hok
      cases h
      simp only [not_or, Bool.not_eq_true', Bool.not_eq_false] at hok
      have hrange := (isUserVaddrRange_iff (Nat.mod_lt _ (by decide))).mp hok.2.2
      omega

end Ossim.Mem
