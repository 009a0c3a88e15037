import Ossim.Mem.Placement
import Ossim.Mem.Victims

/-!
Stores into the register file.

A process has ten registers. `READ` does not check the register it is given,
and `KMALLOC` and `KMEM_CACHE_ALLOC` check it against the number of regions,
which is larger; only the system call compares with ten. A store past the
last register is a step without a next state here.
-/

namespace Ossim.Mem

open Ossim.Lib

/-! ### The property -/

/-- The instruction is `READ`, `KMALLOC`, `KMEM_CACHE_ALLOC` or system call 17
with `SYSMEM_IO_READ`, which `__sys_memmap` recognises by its lower half. -/
def Inst.LoadsReg (ins : Inst) : Prop :=
  ins.opcode ∈ [.read, .kmalloc, .kmemCacheAlloc] ∨
    ins.opcode = .syscall ∧ toUint32 ins.arg0.toNat = 17 ∧
      MemOp.ofInt (toInt ins.arg1.toNat) = some .ioRead

/-- The index into `regs` as the instruction passes it on. -/
def Inst.destReg (ins : Inst) : Nat :=
  match ins.opcode with
  | .read => toUint32 ins.arg2.toNat
  | .kmalloc => toUint32 ins.arg1.toNat
  | .kmemCacheAlloc => toUint32 ins.arg1.toNat
  | _ => ins.arg3.toNat

/-- A call returned after a store into register `reg` of the file, or with -1
and no store. -/
def InsideRegs (s : Sys) (p : Pid) (reg : Nat) (r : Option (Int × Sys)) : Prop :=
  ∃ ret t, r = some (ret, t) ∧
    (reg < numRegs ∧ ret = 0 ∧ (∃ v, t.regs = (s.setReg p reg v).regs) ∨
      ret = -1 ∧ t.regs = s.regs)

/-- The instruction stays inside the register file. A system call may also
crash in `__sys_memmap`, before `libsyscall` has anything to store. -/
def StoresInside (s : Sys) (p : Pid) (ins : Inst) (junk : VmRg) : Prop :=
  InsideRegs s p ins.destReg (run s p ins junk) ∨
    ins.opcode = .syscall ∧ run s p ins junk = none

/-- The state has a value for the register of the instruction: a byte that can
be read, consecutive frames and the tables for them, or a free slot of the
pool. -/
def Supplies (s : Sys) (p : Pid) (ins : Inst) : Prop :=
  let a0 := toUint32 ins.arg0.toNat
  let a1 := toUint32 ins.arg1.toNat
  match ins.opcode with
  | .read => UserReadable s p a0 ins.arg1.toNat
  | .kmalloc => a0 ≠ 0 ∧ a1 < maxSymtblSz ∧ s.symrgtbl p a1 = ⟨0, 0⟩ ∧
      (kernelAllocContiguousRegion s p a0).1.isSome = true
  | .kmemCacheAlloc => a0 < maxSymtblSz ∧ a1 < maxSymtblSz ∧ s.symrgtbl p a1 = ⟨0, 0⟩ ∧
      ∃ pool, (s.kcpooltbl p)[a0]? = some pool ∧ pool.size ≠ 0 ∧ (takeSlot pool).isSome = true
  | _ => False

/-! ### The calls -/

theorem regs_read (s : Sys) (p : Pid) (rgid offset : Nat) :
    (read s p rgid offset).2.regs = s.regs := by
  rw [read]
  split
  · rfl
  · split
    · rfl
    · exact congrArg Sys.Meta.regs (meta_pgGetval ..)

theorem regs_kmalloc (s : Sys) (p : Pid) (rgid size : Nat) :
    (kmalloc s p rgid size).2.regs = s.regs := by
  have hregs : (kernelAllocContiguousRegion s p size).2.regs = s.regs := by
    obtain ⟨_, _, _, _, h⟩ := kernelChange_alloc s p size
    rw [h]
  have hcase := kmalloc_cases s p rgid size
  generalize (kmalloc s p rgid size).2 = t at hcase ⊢
  cases hcase with
  | refused => rfl
  | failed halloc =>
      rw [halloc] at hregs
      exact hregs
  | taken _ _ _ halloc =>
      rw [halloc] at hregs
      exact hregs

theorem regs_kmemCacheAlloc (s : Sys) (p : Pid) (rgid id : Nat) :
    (kmemCacheAlloc s p rgid id).2.regs = s.regs := by
  have hcase := kmemCacheAlloc_cases s p rgid id
  generalize (kmemCacheAlloc s p rgid id).2 = t at hcase ⊢
  cases hcase with
  | refused => rfl
  | taken => rfl

/-- The store at the end of a call is inside the file unless there is a value
to store and the register is not one. -/
theorem returnAddr_insideRegs {s : Sys} {p : Pid} {reg : Nat} {r : Option Nat × Sys}
    (hregs : r.2.regs = s.regs) :
    InsideRegs s p reg (returnAddr p reg r) ↔ r.1 = none ∨ reg < numRegs := by
  obtain ⟨_ | v, t⟩ := r
  · exact ⟨fun _ => .inl rfl, fun _ => ⟨-1, t, rfl, .inr ⟨rfl, hregs⟩⟩⟩
  · rw [returnAddr]
    split
    · rename_i hle
      refine ⟨fun h => ?_, fun h => ?_⟩
      · obtain ⟨_, _, hnone, -⟩ := h
        cases hnone
      · obtain hnone | hlt := h
        · cases hnone
        · exact absurd hle (Nat.not_le.mpr hlt)
    · rename_i hlt
      rw [Nat.not_le] at hlt
      refine ⟨fun _ => .inr hlt, fun _ => ⟨0, _, rfl, .inl ⟨hlt, rfl, v, ?_⟩⟩⟩
      change Function.update t.regs p _ = Function.update s.regs p _
      rw [show t.regs = s.regs from hregs]

theorem kmalloc_isSome (s : Sys) (p : Pid) (rgid size : Nat) :
    (kmalloc s p rgid size).1.isSome = true ↔
      size ≠ 0 ∧ rgid < maxSymtblSz ∧ s.symrgtbl p rgid = ⟨0, 0⟩ ∧
        (kernelAllocContiguousRegion s p size).1.isSome = true := by
  rw [kmalloc]
  split
  · rename_i hargs
    refine ⟨fun h => (by cases h), ?_⟩
    rintro ⟨hpos, hid, hblank, -⟩
    rw [hblank] at hargs
    simp [hpos, Nat.not_le.mpr hid] at hargs
  · rename_i hargs
    simp only [not_or, not_not, Nat.not_le] at hargs
    obtain ⟨hpos, hid, hstart, hend⟩ := hargs
    rw [and_iff_right hpos, and_iff_right hid, and_iff_right (VmRg.eq_unused hstart hend)]
    generalize kernelAllocContiguousRegion s p size = r
    obtain ⟨_ | _, t⟩ := r
    · exact Iff.rfl
    · exact Iff.rfl

theorem kmemCacheAlloc_isSome (s : Sys) (p : Pid) (rgid id : Nat) :
    (kmemCacheAlloc s p rgid id).1.isSome = true ↔
      id < maxSymtblSz ∧ rgid < maxSymtblSz ∧ s.symrgtbl p rgid = ⟨0, 0⟩ ∧
        ∃ pool, (s.kcpooltbl p)[id]? = some pool ∧ pool.size ≠ 0 ∧
          (takeSlot pool).isSome = true := by
  rw [kmemCacheAlloc]
  split
  · rename_i hargs
    exact ⟨fun h => (by cases h), fun h => (hargs.elim h.1.not_ge h.2.1.not_ge).elim⟩
  · rename_i hargs
    simp only [not_or, Nat.not_le] at hargs
    rw [and_iff_right hargs.1, and_iff_right hargs.2]
    cases hpool : (s.kcpooltbl p)[id]? with
    | none =>
        refine ⟨fun h => (by cases h), ?_⟩
        rintro ⟨-, pool, hsome, -⟩
        cases hsome
    | some pool =>
        simp only [Option.some_inj, exists_eq_left']
        split
        · rename_i hused
          refine ⟨fun h => (by cases h), ?_⟩
          rintro ⟨hblank, hsize, -⟩
          rw [hblank] at hused
          simp [hsize] at hused
        · rename_i hfree
          simp only [not_or, not_not] at hfree
          rw [and_iff_right (VmRg.eq_unused hfree.2.1 hfree.2.2), and_iff_right hfree.1]
          cases takeSlot pool with
          | none => exact Iff.rfl
          | some r => exact Iff.rfl

theorem libread_eq_returnAddr (s : Sys) (p : Pid) (source offset destination : Nat) :
    libread s p source offset destination = returnAddr p destination
      ((read s p source offset).1.map Byte.toReg, (read s p source offset).2) := by
  rw [libread]
  generalize read s p source offset = r
  obtain ⟨_ | v, t⟩ := r
  · rfl
  · rfl

theorem libkmemMalloc_insideRegs (s : Sys) (p : Pid) (size reg : Nat) :
    InsideRegs s p reg (libkmemMalloc s p size reg) ↔
      (kmalloc s p reg size).1 = none ∨ reg < numRegs := by
  rw [libkmemMalloc]
  split
  · rename_i hargs
    refine ⟨fun _ => .inl ?_, fun _ => ⟨-1, s, rfl, .inr ⟨rfl, rfl⟩⟩⟩
    rw [kmalloc, if_pos]
    exact hargs.imp id .inl
  · exact returnAddr_insideRegs (regs_kmalloc ..)

theorem libkmemCacheAlloc_insideRegs (s : Sys) (p : Pid) (reg id : Nat) :
    InsideRegs s p reg (libkmemCacheAlloc s p reg id) ↔
      (kmemCacheAlloc s p reg id).1 = none ∨ reg < numRegs := by
  rw [libkmemCacheAlloc]
  split
  · rename_i hargs
    refine ⟨fun _ => .inl ?_, fun _ => ⟨-1, s, rfl, .inr ⟨rfl, rfl⟩⟩⟩
    rw [kmemCacheAlloc, if_pos hargs]
  · exact returnAddr_insideRegs (regs_kmemCacheAlloc ..)

/-- A `SYSMEM_IO_READ` crashes, or fails and stores nothing. -/
theorem libsyscall_storesInside {s : Sys} {p : Pid} {a1 : Nat} (a2 a3 : Nat) (junk : VmRg)
    (h : MemOp.ofInt (toInt a1) = some .ioRead) :
    InsideRegs s p a3 (libsyscall s p 17 a1 a2 a3 junk) ∨
      libsyscall s p 17 a1 a2 a3 junk = none := by
  rw [libsyscall, if_pos rfl]
  cases hmap : sysMemmap s p a1 a2 a3 junk with
  | none => exact .inr rfl
  | some r =>
      obtain ⟨ret, a3', t⟩ := r
      obtain ⟨-, rfl, rfl⟩ := sysMemmap_io (.inl h) hmap
      dsimp only
      rw [if_neg fun hand => by cases hand.1]
      exact .inl ⟨-1, t, rfl, .inr ⟨rfl, rfl⟩⟩

/-! ### The instructions -/

/-- An instruction stays inside the register file exactly if its register is
one, or the state has nothing to store there, or it is the system call. -/
theorem stores_inside_iff {s : Sys} {p : Pid} {ins : Inst} {junk : VmRg} (h : ins.LoadsReg) :
    StoresInside s p ins junk ↔
      ins.opcode = .syscall ∨ ¬Supplies s p ins ∨ ins.destReg < numRegs := by
  have hnone {α : Type} {o : Option α} {P : Prop} (h : o.isSome = true ↔ P) : o = none ↔ ¬P := by
    rw [← h, Bool.not_eq_true, Option.isSome_eq_false_iff, Option.isNone_iff_eq_none]
  obtain hop | ⟨hop, hidx, hread⟩ := h
  · have hsys : ins.opcode ≠ .syscall := by
      rintro heq
      rw [heq] at hop
      simp at hop
    rw [StoresInside, or_iff_left fun hcrash => hsys hcrash.1, or_iff_right hsys]
    simp only [List.mem_cons, List.not_mem_nil, or_false] at hop
    rw [run, Supplies, Inst.destReg]
    obtain hop | hop | hop := hop
    · rw [hop]
      dsimp only
      rw [libread_eq_returnAddr, returnAddr_insideRegs (regs_read ..), Option.map_eq_none_iff,
        hnone (read_isSome ..)]
    · rw [hop]
      dsimp only
      rw [libkmemMalloc_insideRegs, hnone (kmalloc_isSome ..)]
    · rw [hop]
      dsimp only
      rw [libkmemCacheAlloc_insideRegs, hnone (kmemCacheAlloc_isSome ..)]
  · refine ⟨fun _ => .inl hop, fun _ => ?_⟩
    rw [StoresInside, run, Inst.destReg, hop]
    dsimp only
    rw [hidx]
    obtain hin | hcrash := libsyscall_storesInside (s := s) (p := p) ins.arg2.toNat ins.arg3.toNat
      junk hread
    · exact .inl hin
    · exact .inr ⟨rfl, hcrash⟩

/-- Process 1 has one region. -/
def oneRegion : List Op := [.load, .inst 1 { opcode := .alloc, arg0 := 4096, arg1 := 0 } ⟨0, 0⟩]

theorem oneRegion_isSome : (exec step (boot 4096 4096 fun _ => true) oneRegion).isSome = true := by
  decide +kernel

/-- The state after `oneRegion`. -/
def withRegion : Sys := (exec step (boot 4096 4096 fun _ => true) oneRegion).get oneRegion_isSome

theorem stores_inside_iff_lastReg :
    StoresInside withRegion 1 { opcode := .read, arg0 := 0, arg1 := 0, arg2 := 9 } ⟨0, 0⟩ :=
  (stores_inside_iff (.inl (by decide))).mpr (.inr (.inr (by decide)))

/-- The first index past the file. -/
theorem read_past_regs :
    Run (Step step) (boot 4096 4096 fun _ => true) oneRegion withRegion ∧
    ¬StoresInside withRegion 1 { opcode := .read, arg0 := 0, arg1 := 0, arg2 := 10 } ⟨0, 0⟩ := by
  have hnone :
      (run withRegion 1 { opcode := .read, arg0 := 0, arg1 := 0, arg2 := 10 } ⟨0, 0⟩).isNone =
      true := by
    decide +kernel
  rw [Option.isNone_iff_eq_none] at hnone
  refine ⟨run_of_exec (Option.some_get oneRegion_isSome).symm, fun h => ?_⟩
  rw [StoresInside, hnone] at h
  obtain ⟨_, _, hsome, -⟩ | ⟨hsys, -⟩ := h
  · cases hsome
  · cases hsys

end Ossim.Mem
