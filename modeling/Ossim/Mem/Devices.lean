import Ossim.Mem.System

/-!
One memory device from `init_memphy` on.

The size of a device is configured as an unsigned 64-bit number and kept in
an `int`, which is widened again for the bounds check and divided by the page
size for the free list. A device is random access or sequential; the
sequential one has a cursor that is walked to an address before the access.
-/

namespace Ossim.Mem

open Ossim.Lib

/-! ### The device -/

/-- `memphy_struct` -/
@[ext]
structure MemphyStruct where
  storage : Nat → Byte
  maxsz : Int
  rdmflg : Bool
  cursor : Int
  freeFpList : List Nat

namespace MemphyStruct

/-- The loop of `MEMPHY_mv_csr`, with the number of steps left. -/
def csrLoop (maxsz : Int) : (left : Nat) → (cursor : Int) → Int
  | 0, cursor => cursor
  | left + 1, cursor => csrLoop maxsz left ((cursor + 1).tmod maxsz)

/-- `MEMPHY_mv_csr`. The steps are counted up to the offset and to the size. -/
def mvCsr (mp : MemphyStruct) (offset : Nat) : MemphyStruct :=
  { mp with cursor := csrLoop mp.maxsz (min offset mp.maxsz.toNat) 0 }

/-- `MEMPHY_seq_read` -/
def seqRead (mp : MemphyStruct) (addr : Nat) : Option Byte × MemphyStruct :=
  if !mp.rdmflg then (none, mp)
  else (some (mp.storage addr), mp.mvCsr addr)

/-- `MEMPHY_read` -/
def read (mp : MemphyStruct) (addr : Nat) : Option Byte × MemphyStruct :=
  if ofInt mp.maxsz ≤ addr then (none, mp)
  else if mp.rdmflg then (some (mp.storage addr), mp)
  else mp.seqRead addr

def poke (mp : MemphyStruct) (addr : Nat) (data : Byte) : MemphyStruct :=
  { mp with storage := Function.update mp.storage addr data }

/-- `MEMPHY_seq_write` -/
def seqWrite (mp : MemphyStruct) (addr : Nat) (value : Byte) : Bool × MemphyStruct :=
  if !mp.rdmflg then (false, mp)
  else (true, (mp.mvCsr addr).poke addr value)

/-- `MEMPHY_write` -/
def write (mp : MemphyStruct) (addr : Nat) (data : Byte) : Bool × MemphyStruct :=
  if ofInt mp.maxsz ≤ addr then (false, mp)
  else if mp.rdmflg then (true, mp.poke addr data)
  else mp.seqWrite addr data

/-- The loop of `MEMPHY_format`: the frames from `iter` on. -/
def formatLoop : (left iter : Nat) → List Nat
  | 0, _ => []
  | left + 1, iter => iter :: formatLoop left (iter + 1)

/-- `MEMPHY_format` -/
def format (mp : MemphyStruct) (pagesz : Int) : MemphyStruct :=
  let numfp := mp.maxsz.tdiv pagesz
  if numfp ≤ 0 then mp
  else { mp with freeFpList := 0 :: formatLoop (numfp.toNat - 1) 1 }

/-- `init_memphy`. The host has the memory. -/
def init (mp : MemphyStruct) (maxSize : Nat) (randomflg : Int) : MemphyStruct :=
  let mp := { mp with storage := fun _ => 0, maxsz := toInt maxSize, freeFpList := [] }
  let mp := mp.format pageSz
  let mp := { mp with rdmflg := decide (randomflg ≠ 0) }
  if !mp.rdmflg then { mp with cursor := 0 } else mp

end MemphyStruct

/-! ### Devices of the system -/

/-- Device `d` of the system, with its cursor. -/
def Sys.device (s : Sys) (d : Dev) (cursor : Int) : MemphyStruct :=
  ⟨s.storage d, s.maxsz d, s.rdmflg d, cursor, s.freeFpList d⟩

theorem memphyRead_device (s : Sys) (d : Dev) (cursor : Int) (addr : Nat) :
    ((s.device d cursor).read addr).1 = memphyRead s d addr := by
  rw [MemphyStruct.read, memphyRead, Sys.device]
  dsimp only
  split
  · rfl
  · split
    · rfl
    · rename_i hseq
      rw [MemphyStruct.seqRead, if_pos (by simpa using hseq)]

theorem memphyWrite_device (s : Sys) (d : Dev) (cursor : Int) (addr : Nat) (v : Byte) :
    (s.device d cursor).write addr v =
      match memphyWrite s d addr v with
      | none => (false, s.device d cursor)
      | some t => (true, t.device d cursor) := by
  rw [MemphyStruct.write, memphyWrite]
  change (if ofInt (s.maxsz d) ≤ addr then _ else if s.rdmflg d then _ else _) = _
  split
  · rfl
  · split
    · refine Prod.ext rfl ?_
      change MemphyStruct.poke _ addr v = Sys.device _ d cursor
      simp only [MemphyStruct.poke, Sys.device, Sys.poke, Sys.setStorage, Function.update_self]
    · rename_i hseq
      rw [MemphyStruct.seqWrite, if_pos]
      change (!s.rdmflg d) = true
      simpa using hseq

namespace MemphyStruct

theorem formatLoop_eq (left iter : Nat) : formatLoop left iter = List.range' iter left := by
  induction left generalizing iter with
  | zero => rfl
  | succ left ih => rw [formatLoop, ih, List.range'_succ]

/-- The frames of a formatted device. -/
theorem freeFpList_format (mp : MemphyStruct) (h : mp.freeFpList = []) :
    (mp.format pageSz).freeFpList = List.range (numfp mp.maxsz) := by
  have hdiv : (mp.maxsz.tdiv pageSz).toNat = numfp mp.maxsz := by
    have hsz : (pageSz : Int) = 4096 := rfl
    rcases Int.le_total 0 mp.maxsz with hpos | hneg
    · rw [numfp, Int.tdiv_eq_ediv_of_nonneg hpos, hsz, pageSz]
      omega
    · have hle : mp.maxsz.tdiv pageSz ≤ 0 := by
        rw [show mp.maxsz = -(-mp.maxsz) by omega, Int.neg_tdiv]
        have hquot := Int.tdiv_nonneg (show 0 ≤ -mp.maxsz by omega)
          (show 0 ≤ (pageSz : Int) by decide)
        omega
      rw [numfp, Int.toNat_of_nonpos hle, Int.toNat_of_nonpos hneg, Nat.zero_div]
  rw [format]
  split
  · rename_i hle
    rw [← hdiv, Int.toNat_of_nonpos hle, h]
    rfl
  · rename_i hpos
    have hcount : numfp mp.maxsz = numfp mp.maxsz - 1 + 1 := by omega
    rw [hdiv, formatLoop_eq, List.range_eq_range', hcount, List.range'_succ]
    rfl

variable (mp : MemphyStruct) (maxSize : Nat) (randomflg : Int)

@[simp] theorem storage_init : (mp.init maxSize randomflg).storage = fun _ => 0 := by
  rw [init, format]
  dsimp only
  split <;> split <;> rfl

@[simp] theorem cursor_init : (mp.init maxSize randomflg).cursor =
    if randomflg = 0 then 0 else mp.cursor := by
  rw [init, format]
  dsimp only
  by_cases hseq : randomflg = 0
  · rw [if_pos (by simpa using hseq), if_pos hseq]
  · rw [if_neg (by simpa using hseq), if_neg hseq]
    split <;> rfl

@[simp] theorem maxsz_init : (mp.init maxSize randomflg).maxsz = toInt maxSize := by
  rw [init, format]
  dsimp only
  split <;> split <;> rfl

@[simp] theorem rdmflg_init : (mp.init maxSize randomflg).rdmflg = decide (randomflg ≠ 0) := by
  rw [init]
  dsimp only
  split <;> rfl

@[simp] theorem freeFpList_init :
    (mp.init maxSize randomflg).freeFpList = List.range (numfp (toInt maxSize)) := by
  have hformat := freeFpList_format
    { mp with storage := fun _ => 0, maxsz := toInt maxSize, freeFpList := [] } rfl
  rw [init]
  dsimp only
  split
  · exact hformat
  · exact hformat

end MemphyStruct

/-- `main` makes both devices with `init_memphy`. -/
theorem device_boot (ramSz swpSz : Nat) (host : Nat → Bool) (mp : MemphyStruct) :
    (boot ramSz swpSz host).device .mram mp.cursor = mp.init ramSz 1 ∧
      (boot ramSz swpSz host).device .mswp mp.cursor = mp.init swpSz 1 := by
  constructor
  · ext1
    · exact (mp.storage_init ramSz 1).symm
    · exact (mp.maxsz_init ramSz 1).symm
    · exact (mp.rdmflg_init ramSz 1).symm
    · exact (mp.cursor_init ramSz 1).symm
    · exact (mp.freeFpList_init ramSz 1).symm
  · ext1
    · exact (mp.storage_init swpSz 1).symm
    · exact (mp.maxsz_init swpSz 1).symm
    · exact (mp.rdmflg_init swpSz 1).symm
    · exact (mp.cursor_init swpSz 1).symm
    · exact (mp.freeFpList_init swpSz 1).symm

/-! ### Capacity -/

/-- The device has frames and bytes for `maxSize` bytes and no more. -/
structure HasCapacity (mp : MemphyStruct) (maxSize : Nat) : Prop where
  frames : mp.freeFpList = List.range (maxSize / pageSz)
  reads : ∀ addr : BitVec 64, (mp.read addr.toNat).1.isSome = true ↔ addr.toNat < maxSize
  writes : ∀ (addr : BitVec 64) (data : Byte),
    (mp.write addr.toNat data).1 = true ↔ addr.toNat < maxSize

namespace MemphyStruct

/-- A sequential device refuses every address. -/
theorem read_isSome (mp : MemphyStruct) (addr : Nat) :
    (mp.read addr).1.isSome = true ↔ addr < ofInt mp.maxsz ∧ mp.rdmflg = true := by
  rw [read, seqRead]
  split
  · rename_i hle
    exact ⟨nofun, fun h => absurd hle (Nat.not_le.mpr h.1)⟩
  · rename_i hlt
    rw [Nat.not_le] at hlt
    split
    · rename_i hrdm
      exact ⟨fun _ => ⟨hlt, hrdm⟩, fun _ => rfl⟩
    · rename_i hseq
      rw [if_pos (by simpa using hseq)]
      exact ⟨nofun, fun h => absurd h.2 hseq⟩

theorem write_eq_true (mp : MemphyStruct) (addr : Nat) (data : Byte) :
    (mp.write addr data).1 = true ↔ addr < ofInt mp.maxsz ∧ mp.rdmflg = true := by
  rw [write, seqWrite]
  split
  · rename_i hle
    exact ⟨nofun, fun h => absurd hle (Nat.not_le.mpr h.1)⟩
  · rename_i hlt
    rw [Nat.not_le] at hlt
    split
    · rename_i hrdm
      exact ⟨fun _ => ⟨hlt, hrdm⟩, fun _ => rfl⟩
    · rename_i hseq
      rw [if_pos (by simpa using hseq)]
      exact ⟨nofun, fun h => absurd h.2 hseq⟩

end MemphyStruct

/-- What the three conversions of a size make of it. From `2^31` on the check
and the number of frames cannot both be right. -/
theorem lt_of_conversions {n : Nat} (hn : n < 2 ^ 64) (hframes : numfp (toInt n) = n / pageSz)
    (hbound : ∀ addr : BitVec 64, addr.toNat < ofInt (toInt n) ↔ addr.toNat < n) : n < 2 ^ 31 := by
  by_contra hge
  rw [toInt] at hframes hbound
  split at hframes
  · rename_i hlow
    -- the address that equals the size that is left
    have haddr := hbound (BitVec.ofNat 64 (n % 2 ^ 32))
    rw [if_pos hlow, BitVec.toNat_ofNat, ofInt] at haddr
    omega
  · -- the size is negative
    rw [numfp, pageSz] at hframes
    omega

/-- A device has the configured capacity exactly if the size fits in an `int`
and the device is random access or has no bytes. -/
theorem device_has_capacity_iff (mp : MemphyStruct) (maxSize : BitVec 64) (randomflg : Int) :
    HasCapacity (mp.init maxSize.toNat randomflg) maxSize.toNat ↔
      maxSize.toNat < 2 ^ 31 ∧ (randomflg ≠ 0 ∨ maxSize.toNat = 0) := by
  have hsize := maxSize.isLt
  generalize maxSize.toNat = n at hsize ⊢
  have hread (addr : Nat) : ((mp.init n randomflg).read addr).1.isSome = true ↔
      addr < ofInt (toInt n) ∧ randomflg ≠ 0 := by
    rw [MemphyStruct.read_isSome, MemphyStruct.maxsz_init, MemphyStruct.rdmflg_init,
      decide_eq_true_iff]
  have hwrite (addr : Nat) (v : Byte) : ((mp.init n randomflg).write addr v).1 = true ↔
      addr < ofInt (toInt n) ∧ randomflg ≠ 0 := by
    rw [MemphyStruct.write_eq_true, MemphyStruct.maxsz_init, MemphyStruct.rdmflg_init,
      decide_eq_true_iff]
  constructor
  · rintro ⟨hframes, hreads, -⟩
    by_cases hseq : randomflg = 0
    · have hnone : n = 0 := by
        have hzero := hreads 0
        rw [hread, hseq] at hzero
        by_contra hpos
        exact (hzero.mpr (Nat.pos_of_ne_zero hpos)).2 rfl
      exact ⟨by omega, .inr hnone⟩
    · refine ⟨lt_of_conversions hsize ?_ fun addr => ?_, .inl hseq⟩
      · rw [MemphyStruct.freeFpList_init] at hframes
        have hlen := congrArg List.length hframes
        rw [List.length_range, List.length_range] at hlen
        exact hlen
      · rw [← hreads addr, hread]
        exact (and_iff_left hseq).symm
  · rintro ⟨hlt, hflag⟩
    have hint : toInt n = n := toInt_eq_self hlt
    have hbound (addr : Nat) : addr < ofInt (toInt n) ∧ randomflg ≠ 0 ↔ addr < n := by
      rw [hint, ofInt_natCast hsize]
      omega
    refine ⟨?_, fun addr => (hread _).trans (hbound _), fun addr v => (hwrite _ v).trans (hbound _)⟩
    rw [MemphyStruct.freeFpList_init, hint, numfp, Int.toNat_natCast]

/-- A `memphy_struct` before `init_memphy`. -/
def blankMemphy : MemphyStruct := ⟨fun _ => 0, 0, false, 0, []⟩

/-- With the size of the RAM that `read_config` sets by default, `2^32`, there
is no frame at all. -/
theorem default_ram_no_capacity :
    (blankMemphy.init 0x100000000 1).freeFpList = [] ∧
    ¬HasCapacity (blankMemphy.init 0x100000000 1) 0x100000000 := by
  have hnone : (blankMemphy.init 0x100000000 1).freeFpList = [] := by
    rw [MemphyStruct.freeFpList_init]
    decide
  refine ⟨hnone, fun h => ?_⟩
  have hlen := congrArg List.length h.frames
  rw [hnone, List.length_range] at hlen
  revert hlen
  decide

/-! ### Sequential devices -/

/-- A call of `MEMPHY_read` or `MEMPHY_write`. -/
inductive DeviceCall
  | read (addr : BitVec 64)
  | write (addr : BitVec 64) (data : Byte)

def DeviceCall.addr : DeviceCall → BitVec 64
  | read addr => addr
  | write addr _ => addr

namespace MemphyStruct

/-- The return code of a call, the value it read, and the device after it. -/
def call (mp : MemphyStruct) : DeviceCall → (Int × Option Byte) × MemphyStruct
  | .read addr =>
    match mp.read addr.toNat with
    | (none, mp) => ((-1, none), mp)
    | (some value, mp) => ((0, some value), mp)
  | .write addr data =>
    match mp.write addr.toNat data with
    | (false, mp) => ((-1, none), mp)
    | (true, mp) => ((0, none), mp)

/-- The answers to a sequence of calls. -/
def answers : MemphyStruct → List DeviceCall → List (Int × Option Byte)
  | _, [] => []
  | mp, c :: cs => (mp.call c).1 :: answers (mp.call c).2 cs

/-- The call is for a byte of a random access device. -/
def Serves (mp : MemphyStruct) (c : DeviceCall) : Prop :=
  c.addr.toNat < ofInt mp.maxsz ∧ mp.rdmflg = true

/-- A call returns 0 exactly on a random access device that has the address. -/
theorem call_eq_zero (mp : MemphyStruct) (c : DeviceCall) :
    (mp.call c).1.1 = 0 ↔ mp.Serves c := by
  rw [Serves]
  cases c with
  | read addr =>
      rw [DeviceCall.addr, ← read_isSome, call]
      generalize mp.read addr.toNat = r
      obtain ⟨_ | v, t⟩ := r
      · exact ⟨nofun, nofun⟩
      · exact ⟨fun _ => rfl, fun _ => rfl⟩
  | write addr data =>
      rw [DeviceCall.addr, ← write_eq_true mp _ data, call]
      generalize mp.write addr.toNat data = r
      obtain ⟨_ | _, t⟩ := r
      · exact ⟨nofun, nofun⟩
      · exact ⟨fun _ => rfl, fun _ => rfl⟩

/-- A call that fails changes nothing. -/
theorem call_of_not_serves {mp : MemphyStruct} {c : DeviceCall} (h : ¬mp.Serves c) :
    mp.call c = ((-1, none), mp) := by
  have hseq (hlt : ¬ofInt mp.maxsz ≤ c.addr.toNat) : ¬mp.rdmflg = true :=
    fun hrdm => h ⟨Nat.not_le.mp hlt, hrdm⟩
  cases c with
  | read addr =>
      have hread : mp.read addr.toNat = (none, mp) := by
        rw [read, seqRead]
        split
        · rfl
        · rename_i hlt
          rw [if_neg (hseq hlt), if_pos (by simpa using hseq hlt)]
      rw [call, hread]
  | write addr data =>
      have hwrite : mp.write addr.toNat data = (false, mp) := by
        rw [write, seqWrite]
        split
        · rfl
        · rename_i hlt
          rw [if_neg (hseq hlt), if_pos (by simpa using hseq hlt)]
      rw [call, hwrite]

theorem answers_all_fail_iff (mp : MemphyStruct) (cs : List DeviceCall) :
    mp.answers cs = cs.map (fun _ => (-1, none)) ↔ ∀ c ∈ cs, ¬mp.Serves c := by
  induction cs with
  | nil => exact ⟨fun _ _ => nofun, fun _ => rfl⟩
  | cons c cs ih =>
      rw [answers, List.map_cons, List.cons.injEq, List.forall_mem_cons]
      constructor
      · rintro ⟨hcall, hrest⟩
        have hfails : ¬mp.Serves c := by
          intro hserves
          have hzero := (mp.call_eq_zero c).mpr hserves
          rw [hcall] at hzero
          cases hzero
        rw [call_of_not_serves hfails] at hrest
        exact ⟨hfails, ih.mp hrest⟩
      · rintro ⟨hfails, hrest⟩
        rw [call_of_not_serves hfails]
        exact ⟨rfl, ih.mpr hrest⟩

end MemphyStruct

/-- A sequential device answers like a random access device exactly if no call
of the sequence is for a byte that it has. -/
theorem sequential_answers_iff {maxSize : BitVec 64} (hsize : maxSize.toNat < 2 ^ 31)
    (mp mp' : MemphyStruct) (cs : List DeviceCall) :
    (mp.init maxSize.toNat 0).answers cs = (mp'.init maxSize.toNat 1).answers cs ↔
      ∀ c ∈ cs, maxSize.toNat ≤ c.addr.toNat := by
  have hseq : (mp.init maxSize.toNat 0).answers cs = cs.map fun _ => (-1, none) := by
    rw [MemphyStruct.answers_all_fail_iff]
    rintro c - ⟨-, hrdm⟩
    rw [MemphyStruct.rdmflg_init] at hrdm
    cases hrdm
  rw [hseq, eq_comm, MemphyStruct.answers_all_fail_iff]
  refine forall₂_congr fun c _ => ?_
  rw [MemphyStruct.Serves, MemphyStruct.maxsz_init, MemphyStruct.rdmflg_init, toInt_eq_self hsize,
    ofInt_natCast maxSize.isLt, and_iff_left (by decide), Nat.not_lt]

theorem sequential_answers_iff_outside :
    (blankMemphy.init (16 : BitVec 64).toNat 0).answers [.write 16 5, .read 17] =
      (blankMemphy.init (16 : BitVec 64).toNat 1).answers [.write 16 5, .read 17] :=
  (sequential_answers_iff (by decide) blankMemphy blankMemphy _).mpr (by decide)

/-- Writing and reading back one byte. -/
theorem sequential_refuses :
    (blankMemphy.init 16 0).answers [.write 3 5, .read 3] = [(-1, none), (-1, none)] ∧
    (blankMemphy.init 16 1).answers [.write 3 5, .read 3] = [(0, none), (0, some 5)] ∧
    (blankMemphy.init 16 0).answers [.write 3 5, .read 3] ≠
      (blankMemphy.init 16 1).answers [.write 3 5, .read 3] := by
  decide

end Ossim.Mem
