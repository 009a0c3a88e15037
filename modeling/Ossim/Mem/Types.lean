import Mathlib.Logic.Function.Basic
import Ossim.Lib.Radix

/-!
The data model of the memory system.

An `addr_t` is a natural number; where the code's 64-bit arithmetic can
wrap, the wrap is written out. An `int` is an integer, and the conversions
between the two are the functions `toInt` and `ofInt`. Pointers are gone:
a process is named by its pid, a physical memory by its role, and a list of
nodes is a list of what the nodes hold.

The state has two fields the code does not have. `stores` records each byte
that `pg_setval` stored, and `lostFp` the frame numbers that
`MEMPHY_put_freefp` dropped because the host had no memory for a list node.
No function reads them.
-/

namespace Ossim.Mem

open Ossim.Lib

abbrev Pid := Nat
abbrev Byte := BitVec 8

/-! ### Machine arithmetic -/

/-- Conversion of an unsigned word to `int`. -/
def toInt (n : Nat) : Int :=
  if n % 2 ^ 32 < 2 ^ 31 then (n % 2 ^ 32 : Nat) else (n % 2 ^ 32 : Nat) - 2 ^ 32

/-- Conversion of an `int` to `addr_t`. -/
def ofInt (i : Int) : Nat := (i % 2 ^ 64).toNat

/-- Conversion to `uint32_t`. -/
def toUint32 (n : Nat) : Nat := n % 2 ^ 32

theorem toInt_eq_self {n : Nat} (h : n < 2 ^ 31) : toInt n = n := by
  rw [toInt]
  split <;> omega

theorem toInt_toNat_le (n : Nat) : (toInt n).toNat ≤ n := by
  have := Nat.mod_le n (2 ^ 32)
  rw [toInt]
  split <;> omega

theorem ofInt_lt (i : Int) : ofInt i < 2 ^ 64 := by
  rw [ofInt]
  omega

theorem ofInt_natCast {n : Nat} (h : n < 2 ^ 64) : ofInt n = n := by
  rw [ofInt]
  omega

theorem toUint32_lt (n : Nat) : toUint32 n < 2 ^ 32 := Nat.mod_lt n (by decide)

theorem toUint32_of_lt {n : Nat} (h : n < 2 ^ 32) : toUint32 n = n := Nat.mod_eq_of_lt h

/-- `char` is signed: a byte read into a register is sign-extended. -/
def Byte.toReg (b : Byte) : Nat := ofInt b.toInt

/-- `PAGING64_PAGESZ` -/
def pageSz : Nat := 4096

/-- `PAGING64_PAGE_ALIGNSZ` -/
def pageAlignSz (sz : Nat) : Nat := (sz + 4095) % 2 ^ 64 / pageSz * pageSz

/-- `KMEM_VADDR_BASE` -/
def kmemVaddrBase : Nat := 0xffff800000000000

/-- `PAGING_MAX_SYMTBL_SZ` -/
def maxSymtblSz : Nat := 30

/-! ### Page-table entries

Bit 0 marks a present page, bit 1 a swapped one, bits 3 to 7 hold the swap
type and bits 12 to 51 the frame number or the swap offset. -/

def pagePresent (pte : Nat) : Bool := pte % 2 == 1
def pageSwapped (pte : Nat) : Bool := pte / 2 % 2 == 1
def pteFpn (pte : Nat) : Nat := pte / 2 ^ 12 % 2 ^ 40
def pteSwp (pte : Nat) : Nat := pte / 2 ^ 12 % 2 ^ 40

/-- The entry `pte_set_fpn` builds. -/
def presentPte (fpn : Nat) : Nat := 1 + fpn % 2 ^ 40 * 2 ^ 12

/-- The entry `pte_set_swap` builds. -/
def swappedPte (swptyp swpoff : Nat) : Nat :=
  2 + swptyp % 2 ^ 5 * 2 ^ 3 + swpoff % 2 ^ 40 * 2 ^ 12

/-- `PAGING64_DUMMY_PTE` -/
def dummyPte : Nat := 0xdeadbee0

/-- `krnl->active_mswp_id`, zero since the boot cleared the kernel struct. -/
def activeMswpId : Nat := 0

@[simp] theorem pagePresent_zero : pagePresent 0 = false := rfl
@[simp] theorem pageSwapped_zero : pageSwapped 0 = false := rfl

@[simp] theorem pagePresent_presentPte (f : Nat) : pagePresent (presentPte f) = true := by
  simp only [pagePresent, presentPte, beq_iff_eq]
  omega

@[simp] theorem pageSwapped_presentPte (f : Nat) : pageSwapped (presentPte f) = false := by
  simp only [pageSwapped, presentPte, beq_eq_false_iff_ne]
  omega

@[simp] theorem pagePresent_swappedPte (ty o : Nat) : pagePresent (swappedPte ty o) = false := by
  simp only [pagePresent, swappedPte, beq_eq_false_iff_ne]
  omega

@[simp] theorem pageSwapped_swappedPte (ty o : Nat) : pageSwapped (swappedPte ty o) = true := by
  simp only [pageSwapped, swappedPte, beq_iff_eq]
  omega

theorem pteFpn_presentPte {f : Nat} (h : f < 2 ^ 40) : pteFpn (presentPte f) = f := by
  simp only [pteFpn, presentPte]
  omega

theorem pteSwp_swappedPte {ty o : Nat} (h : o < 2 ^ 40) : pteSwp (swappedPte ty o) = o := by
  simp only [pteSwp, swappedPte]
  omega

/-! ### Regions, areas and pools -/

/-- `vm_rg_struct` -/
structure VmRg where
  rgStart : Nat
  rgEnd : Nat
  deriving DecidableEq

/-- `vm_area_struct` -/
structure VmArea where
  vmStart : Nat
  vmEnd : Nat
  sbrk : Nat
  vmFreergList : List VmRg
  deriving DecidableEq

/-- `kmem_cache_slab_struct`, with the addresses of its free slots -/
structure KmemCacheSlab where
  start : Nat
  slotSize : Nat
  slotCount : Nat
  freeCount : Nat
  freeList : List Nat
  deriving DecidableEq

/-- `kcache_pool_struct` -/
structure KcachePool where
  size : Nat
  align : Nat
  slotCount : Nat
  storage : Nat
  allocSize : Nat
  emptySlabs : List KmemCacheSlab
  partialSlabs : List KmemCacheSlab
  fullSlabs : List KmemCacheSlab
  deriving DecidableEq

/-- A pool table entry that was only zero-filled. -/
def KcachePool.zero : KcachePool := ⟨0, 0, 0, 0, 0, [], [], []⟩

/-- One page table of five levels with 512 entries each. -/
abbrev PageTable := Radix 512 Nat 4

/-! ### The state

The state is kept flat: what the code stores in a device, in a process
control block or in an `mm_struct` is a field here, indexed by the device
or the process. -/

/-- A node of a used frame list; the owner is the process of the `mm`. -/
structure UsedFrame where
  fpn : Nat
  owner : Pid
  deriving DecidableEq

/-- The two memories a process reaches: `krnl->mram` and
`krnl->active_mswp`. -/
inductive Dev
  | mram
  | mswp
  deriving DecidableEq

/-- A byte stored by `pg_setval`. `copied` tells a `COPY_TO_USER` from the
stores whose value comes with the instruction. -/
structure Store where
  pid : Pid
  addr : Nat
  value : Byte
  copied : Bool
  deriving DecidableEq

structure Sys where
  /-- the host's answers to the coming calls of `malloc` and `calloc` -/
  host : Nat → Bool
  -- `memphy_struct`
  storage : Dev → Nat → Byte
  maxsz : Dev → Int
  rdmflg : Dev → Bool
  freeFpList : Dev → List Nat
  usedFpList : Dev → List UsedFrame
  lostFp : Dev → List Nat
  -- shared by all processes
  krnlPgd : PageTable
  runningList : List Pid
  availPid : Pid
  -- `pcb_t` and its `mm_struct`; `init_mm` makes one area and nothing adds
  -- another, so `mmap` is that area
  regs : Pid → Nat → Nat
  pgd : Pid → PageTable
  mmap : Pid → VmArea
  symrgtbl : Pid → Nat → VmRg
  fifoPgn : Pid → List Nat
  kcpooltbl : Pid → List KcachePool
  stores : List Store

/-- Ask the host for memory. -/
def draw (h : Nat → Bool) : Bool × (Nat → Bool) := (h 0, fun n => h (n + 1))

/-- The host never refuses. -/
def Sys.HostOk (s : Sys) : Prop := s.host = fun _ => true

theorem Sys.HostOk.draw {s : Sys} (h : s.HostOk) : draw s.host = (true, s.host) := by
  rw [HostOk] at h
  rw [h]
  rfl

end Ossim.Mem
