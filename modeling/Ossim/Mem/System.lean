import Ossim.Lib.Run
import Ossim.Mem.Exit
import Ossim.Sched.Queue

/-!
The memory system as a state machine: boot, loading, instructions and exit.

A step is one instruction of one live process, the loading of a process, or
the exit of one; `none` means that the simulator has crashed. Instructions
carry the four 64-bit arguments of `inst_t`; the conversions to the
parameter types of the library functions happen in `run`, as in `cpu.c`.
Loading and booting are taken to get the memory they ask of the host.
-/

namespace Ossim.Mem

open Ossim.Lib

/-- `ins_opcode_t` -/
inductive Opcode
  | calc | alloc | free | read | write
  | kmalloc | kmemCacheCreate | kmemCacheAlloc | copyFromUser | copyToUser
  | syscall
  deriving DecidableEq

/-- `inst_t` -/
structure Inst where
  opcode : Opcode
  arg0 : BitVec 64 := 0
  arg1 : BitVec 64 := 0
  arg2 : BitVec 64 := 0
  arg3 : BitVec 64 := 0
  deriving DecidableEq

/-! ### System calls -/

/-- `SYSMEM_MAP_OP` to `SYSMEM_IO_WRITE` -/
inductive MemOp
  | map | inc | swp | ioRead | ioWrite
  deriving DecidableEq

def MemOp.ofInt : Int → Option MemOp
  | 1 => some .map
  | 2 => some .inc
  | 3 => some .swp
  | 4 => some .ioRead
  | 5 => some .ioWrite
  | _ => none

/-- `__sys_memmap`: return code and the value of `regs->a3` afterwards.
`sys_mem.c` includes `os-mm.h` before `MM64` is defined, so an `addr_t` has 32
bits there and the addresses and sizes it passes on are cut to them. A
`pcb_t` has another layout there as well: the I/O operations look for
`caller->krnl` where `regs[6]` lies, which is no pointer to a `krnl_t`, and
the simulator crashes when they follow it. -/
def sysMemmap (s : Sys) (p : Pid) (a1 a2 a3 : Nat) (junk : VmRg) : Option (Int × Nat × Sys) :=
  if p ∉ s.runningList then some (-1, a3, s)
  else
    match MemOp.ofInt (toInt a1) with
    | some .map =>
      match vmapPgdMemset s p (toUint32 a2) (toInt a3) with
      | (ret, s) => some (if ret ≠ 0 then -1 else 0, a3, s)
    | some .inc =>
      match incVmaLimit s p (toInt a2) (toUint32 a3) junk with
      | none => none
      | some (ret, s) => some (if ret < 0 then -1 else 0, a3, s)
    | some .swp =>
      match swapCpPage s .mram (toUint32 a2) .mswp (toUint32 a3) with
      | (true, s) => some (0, a3, s)
      | (false, s) => some (-1, a3, s)
    | some .ioRead => none
    | some .ioWrite => none
    | none => some (-1, a3, s)

/-- `libsyscall`. System calls 0, 101 and 440 leave the state alone. -/
def libsyscall (s : Sys) (p : Pid) (syscallIdx a1 a2 a3 : Nat) (junk : VmRg) :
    Option (Int × Sys) :=
  if syscallIdx = 17 then
    match sysMemmap s p a1 a2 a3 junk with
    | none => none
    | some (ret, a3', s) =>
      if ret = 0 ∧ a1 = 4 then
        if numRegs ≤ a3 then some (-1, s) else some (ret, s.setReg p a3 a3')
      else some (ret, s)
  else if syscallIdx = 0 ∨ syscallIdx = 101 ∨ syscallIdx = 440 then some (0, s)
  else some (-1, s)

/-! ### Instructions -/

/-- The `switch` of `run` in `cpu.c`. -/
def run (s : Sys) (p : Pid) (ins : Inst) (junk : VmRg) : Option (Int × Sys) :=
  let a0 := ins.arg0.toNat
  let a1 := ins.arg1.toNat
  let a2 := ins.arg2.toNat
  let a3 := ins.arg3.toNat
  match ins.opcode with
  | .calc => some (0, s)
  | .alloc => alloc s p (toUint32 a1) a0 junk
  | .kmalloc => libkmemMalloc s p (toUint32 a0) (toUint32 a1)
  | .kmemCacheCreate =>
    some (libkmemCachePoolCreate s p (toUint32 a0) (toUint32 a1) (toUint32 a2))
  | .kmemCacheAlloc => libkmemCacheAlloc s p (toUint32 a1) (toUint32 a0)
  | .copyFromUser =>
    some (libkmemCopyFromUser s p (toUint32 a0) (toUint32 a1) (toUint32 a2) (toUint32 a3))
  | .copyToUser =>
    some (libkmemCopyToUser s p (toUint32 a0) (toUint32 a1) (toUint32 a2) (toUint32 a3))
  | .free => some (free s p (toUint32 a0))
  | .read => libread s p (toUint32 a0) a1 (toUint32 a2)
  | .write => some (libwrite s p (BitVec.ofNat 8 a0) (toUint32 a1) a2)
  | .syscall => libsyscall s p (toUint32 a0) a1 a2 a3 junk

/-! ### The machine -/

/-- `init_memphy`, for both devices, and `init_kernel_page_table` -/
def boot (ramSz swpSz : Nat) (host : Nat → Bool) : Sys where
  host := host
  storage _ _ := 0
  maxsz
    | .mram => toInt ramSz
    | .mswp => toInt swpSz
  rdmflg _ := true
  freeFpList
    | .mram => List.range (numfp (toInt ramSz))
    | .mswp => List.range (numfp (toInt swpSz))
  usedFpList _ := []
  lostFp _ := []
  krnlPgd := .node fun _ => .null
  runningList := []
  availPid := 1
  regs _ _ := 0
  pgd _ := .null
  mmap _ := ⟨0, 0, 0, []⟩
  symrgtbl _ _ := ⟨0, 0⟩
  fifoPgn _ := []
  kcpooltbl _ := []
  stores := []

/-- `load`, `init_mm` and `add_proc`; a full running list ends the
simulation. -/
def loadProc (s : Sys) : Option Sys :=
  let pid := s.availPid
  if s.runningList.length < Sched.maxQueueSize then
    some { s with
      availPid := pid + 1
      runningList := s.runningList ++ [pid]
      pgd := Function.update s.pgd pid (.node fun _ => .null)
      mmap := Function.update s.mmap pid ⟨0, 0, 0, []⟩
      symrgtbl := Function.update s.symrgtbl pid fun _ => ⟨0, 0⟩
      fifoPgn := Function.update s.fifoPgn pid []
      kcpooltbl := Function.update s.kcpooltbl pid [] }
  else none

/-- One atomic step. `junk` is what the host left in the memory of the node
that `inc_vma_limit` allocates. -/
inductive Op
  | load
  | inst (p : Pid) (ins : Inst) (junk : VmRg)
  | exit (p : Pid)

def step (s : Sys) : Op → Option Sys
  | .load => loadProc s
  | .inst p ins junk => if p ∈ s.runningList then (run s p ins junk).map Prod.snd else none
  | .exit p => if p ∈ s.runningList then some (exitProc s p) else none

/-- What one step can be. -/
theorem step_cases {s t : Sys} {op : Op} (h : step s op = some t) :
    op = .load ∧ loadProc s = some t ∨
    (∃ p, op = .exit p ∧ p ∈ s.runningList ∧ t = exitProc s p) ∨
    ∃ p ins junk ret, op = .inst p ins junk ∧ p ∈ s.runningList ∧
      run s p ins junk = some (ret, t) := by
  cases op with
  | load => exact .inl ⟨rfl, h⟩
  | exit p =>
      rw [step] at h
      split at h
      · rename_i hp
        exact .inr (.inl ⟨p, rfl, hp, (Option.some.inj h).symm⟩)
      · cases h
  | inst p ins junk =>
      rw [step] at h
      split at h
      · rename_i hp
        obtain ⟨⟨ret, u⟩, hrun, rfl⟩ := Option.map_eq_some_iff.mp h
        exact .inr (.inr ⟨p, ins, junk, ret, rfl, hp, hrun⟩)
      · cases h

end Ossim.Mem
