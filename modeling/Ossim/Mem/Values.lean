import Ossim.Mem.Flat
import Ossim.Mem.Syscall

/-!
What a register holds after a byte has been through memory.

`WRITE` keeps the lower eight bits of its operand. `BYTE` is a `char`, which
has a sign on the target, so that both ways of reading a byte into a register
extend its sign: the register holds the lower eight bits of the operand only
if the highest of them is not set.
-/

namespace Ossim.Mem

open Ossim.Lib

/-! ### Bytes and registers -/

/-- Sign extension keeps a byte as it is exactly if its sign is not set. -/
theorem toReg_ofNat (v : Nat) : Byte.toReg (BitVec.ofNat 8 v) = v % 256 ↔ v % 256 < 128 := by
  have hnat : (BitVec.ofNat 8 v).toNat = v % 256 := BitVec.toNat_ofNat ..
  rw [Byte.toReg, ofInt, BitVec.toInt_eq_toNat_cond, hnat]
  split
  · omega
  · omega

/-! ### Stores to one address -/

/-- The stores of a process to an address, the latest one first. -/
def Sys.storesAt (s : Sys) (p : Pid) (addr : Nat) : List Store :=
  s.stores.filter fun e => e.pid == p && e.addr == addr

/-- A step of a run that stores nothing at an address of process `p`. -/
def SparingStep (p : Pid) (addr : Nat) (s : Sys) (op : Op) (t : Sys) : Prop :=
  LowStep s op t ∧ t.storesAt p addr = s.storesAt p addr

theorem flat_eq_storesAt (s : Sys) (p : Pid) (addr : Nat) :
    s.flat p addr = (s.storesAt p addr).head?.map Store.value := by
  rw [Sys.flat, lastStore, Sys.storesAt, List.head?_filter]

theorem flat_of_sparingRun {p : Pid} {addr : Nat} {s t : Sys} {ops : List Op}
    (h : Run (SparingStep p addr) s ops t) : t.flat p addr = s.flat p addr := by
  rw [flat_eq_storesAt, flat_eq_storesAt]
  rw [h.invariant (I := fun u => u.storesAt p addr = s.storesAt p addr)
    (fun _ _ _ hs hstep => hstep.2.trans hs) rfl]

/-! ### The instructions -/

/-- A `WRITE` of operand `v` to an address of process `p` succeeds. -/
def WritesValue (s : Sys) (p : Pid) (addr : Nat) (v : BitVec 64) (t : Sys) : Prop :=
  p ∈ s.runningList ∧ ∃ ins junk, ins.opcode = .write ∧ ins.arg0 = v ∧
    userAccess (s.symrgtbl p (toUint32 ins.arg1.toNat)) ins.arg2.toNat = some addr ∧
    run s p ins junk = some (0, t)

/-- A `READ` or `SYSMEM_IO_READ` of an address of process `p` into register
`r` succeeds. -/
inductive LoadsValue (s : Sys) (p : Pid) (addr r : Nat) (t : Sys) : Prop
  | read (ins : Inst) (junk : VmRg) (hop : ins.opcode = .read)
      (haddr : userAccess (s.symrgtbl p (toUint32 ins.arg0.toNat)) ins.arg1.toNat = some addr)
      (hreg : toUint32 ins.arg2.toNat = r) (hrun : run s p ins junk = some (0, t))
  | ioRead (ins : Inst) (junk : VmRg) (hop : ins.opcode = .syscall)
      (hidx : toUint32 ins.arg0.toNat = 17) (hmemop : ins.arg1 = 4) (haddr : ins.arg2.toNat = addr)
      (hreg : ins.arg3.toNat = r) (hrun : run s p ins junk = some (0, t))

theorem libwrite_eq_zero {s t : Sys} {p : Pid} {b : Byte} {rgid offset addr : Nat}
    (haddr : userAccess (s.symrgtbl p rgid) offset = some addr)
    (h : libwrite s p b rgid offset = (0, t)) : pgSetval s p addr b false = (true, t) := by
  rw [libwrite, write] at h
  split at h
  · cases h
  · rename_i u hset
    cases h
    split at hset
    · cases hset
    · rw [haddr] at hset
      exact hset

namespace WritesValue

variable {s t : Sys} {p : Pid} {addr : Nat} {v : BitVec 64}

theorem pgSetval (h : WritesValue s p addr v t) :
    Mem.pgSetval s p addr (BitVec.ofNat 8 v.toNat) false = (true, t) := by
  obtain ⟨-, ins, junk, hop, rfl, haddr, hrun⟩ := h
  rw [run, hop] at hrun
  exact libwrite_eq_zero haddr (Option.some.inj hrun)

theorem flat (h : WritesValue s p addr v t) :
    t.flat p addr = some (BitVec.ofNat 8 v.toNat) := by
  rw [flat_pgSetval h.pgSetval, if_pos ⟨rfl, rfl⟩]

/-- A successful `WRITE` is a step of a run. -/
theorem lowStep (h : WritesValue s p addr v t) (hlow : s.LowBreaks) : ∃ op, LowStep s op t := by
  obtain ⟨stores, hmeta⟩ := meta_pgSetval s p addr (BitVec.ofNat 8 v.toNat) false
  rw [h.pgSetval] at hmeta
  obtain ⟨hp, ins, junk, hop, -, -, hrun⟩ := h
  refine ⟨.inst p ins junk, ?_, ?_, ?_⟩
  · rw [step, if_pos hp, hrun]
    rfl
  · intro hsys
    rw [hop] at hsys
    cases hsys
  · intro q hq
    rw [show t.mmap = s.mmap from congrArg Sys.Meta.mmap hmeta]
    rw [show t.runningList = s.runningList from congrArg Sys.Meta.runningList hmeta] at hq
    exact hlow q hq

end WritesValue

theorem regs_setReg (s : Sys) (p : Pid) (r v : Nat) : (s.setReg p r v).regs p r = v := by
  rw [Sys.setReg]
  dsimp only
  rw [Function.update_self, Function.update_self]

/-- A load that succeeds is a `READ`, and extends the sign: `SYSMEM_IO_READ`
never comes back with a value. -/
theorem LoadsValue.pgGetval {s t : Sys} {p : Pid} {addr r : Nat} (h : LoadsValue s p addr r t) :
    ∃ b, (Mem.pgGetval s p addr).1 = some b ∧ t.regs p r = b.toReg := by
  cases h with
  | read ins junk hop haddr hreg hrun =>
      rw [run, hop] at hrun
      dsimp only at hrun
      rw [libread, Mem.read, haddr, hreg] at hrun
      split at hrun
      · cases hrun
      · rename_i b u hread
        split at hread
        · cases hread
        · split at hrun
          · cases hrun
          · cases hrun
            exact ⟨b, congrArg Prod.fst hread, regs_setReg u p r _⟩
  | ioRead ins junk hop hidx hmemop haddr hreg hrun =>
      rw [run, hop] at hrun
      dsimp only at hrun
      rw [hidx, hmemop, haddr, hreg, libsyscall, if_pos rfl] at hrun
      split at hrun
      · cases hrun
      · rename_i ret a3 u hmap
        split at hrun
        · rename_i hret
          rw [hret.1] at hmap
          cases (sysMemmap_io (.inl (by decide)) hmap).2.1
        · rename_i hret
          cases hrun
          exact absurd ⟨rfl, by decide⟩ hret

/-- The address is one of the lower half. -/
theorem WritesValue.addr_lt {s t : Sys} {p : Pid} {addr : Nat} {v : BitVec 64}
    (h : WritesValue s p addr v t) : addr < 2 ^ 56 := by
  obtain ⟨-, ins, junk, -, -, haddr, -⟩ := h
  exact userAccess_lt haddr

/-- A value that was written and not overwritten is in the register after a
read exactly if the sign of its byte is not set. -/
theorem register_holds_value_iff {ramSz swpSz : Nat} {host : Nat → Bool} {ops later : List Op}
    {s t u w : Sys} {p : Pid} {addr r : Nat} {v : BitVec 64}
    (hrun : Run LowStep (boot ramSz swpSz host) ops s) (hwrite : WritesValue s p addr v t)
    (hlater : Run (SparingStep p addr) t later u) (hp : p ∈ u.runningList)
    (hload : LoadsValue u p addr r w) :
    w.regs p r = v.toNat % 256 ↔ v.toNat % 256 < 128 := by
  obtain ⟨op, hstep⟩ := hwrite.lowStep (inv_of_run hrun).2
  have hinv := (inv_of_run ((hrun.snoc hstep).append (hlater.mono fun _ _ _ h => h.1))).1
  obtain ⟨b, hget, hreg⟩ := hload.pgGetval
  have hflat : u.flat p addr = some (BitVec.ofNat 8 v.toNat) := by
    rw [flat_of_sparingRun hlater, hwrite.flat]
  obtain ⟨e, he, hvalue⟩ := Option.map_eq_some_iff.mp hflat
  rw [hreg, (hinv.pgGetval hp hwrite.addr_lt).2 b e hget he, hvalue]
  exact toReg_ofNat v.toNat

/-! ### Two bytes -/

/-- Process 1 has a region of 100 bytes. -/
def smallHeap : List Op := [.load, .inst 1 { opcode := .alloc, arg0 := 100, arg1 := 0 } ⟨0, 0⟩]

theorem smallHeap_isSome : (lowExec (boot 8192 4096 fun _ => true) smallHeap).isSome = true := by
  decide +kernel

def withSmallHeap : Sys := (lowExec (boot 8192 4096 fun _ => true) smallHeap).get smallHeap_isSome

theorem run_smallHeap : Run LowStep (boot 8192 4096 fun _ => true) smallHeap withSmallHeap :=
  run_of_lowExec (Option.some_get smallHeap_isSome).symm

/-- The state after it has written `v` at address 20. -/
def withByte (v : BitVec 64) : Sys :=
  (libwrite withSmallHeap 1 (BitVec.ofNat 8 v.toNat) 0 20).2

theorem writesValue_twenty {s : Sys} {v : BitVec 64} (hp : 1 ∈ s.runningList)
    (haddr : userAccess (s.symrgtbl 1 0) 20 = some 20)
    (h : (libwrite s 1 (BitVec.ofNat 8 v.toNat) 0 20).1 = 0) :
    WritesValue s 1 20 v (libwrite s 1 (BitVec.ofNat 8 v.toNat) 0 20).2 :=
  ⟨hp, { opcode := .write, arg0 := v, arg1 := 0, arg2 := 20 }, ⟨0, 0⟩, rfl, rfl, haddr,
    congrArg some (pair_of_fst h)⟩

theorem writesValue_withByte {v : BitVec 64}
    (h : (libwrite withSmallHeap 1 (BitVec.ofNat 8 v.toNat) 0 20).1 = 0) :
    WritesValue withSmallHeap 1 20 v (withByte v) :=
  writesValue_twenty (by decide +kernel) (by decide +kernel) h

def readByte : Inst := { opcode := .read, arg0 := 0, arg1 := 20, arg2 := 3 }

theorem loadsValue_readByte {s w : Sys} (haddr : userAccess (s.symrgtbl 1 0) 20 = some 20)
    (h : run s 1 readByte ⟨0, 0⟩ = some (0, w)) : LoadsValue s 1 20 3 w :=
  .read readByte ⟨0, 0⟩ rfl haddr rfl h

theorem register_holds_value_iff_seven : ∃ w,
    WritesValue withSmallHeap 1 20 7 (withByte 7) ∧ LoadsValue (withByte 7) 1 20 3 w ∧
    w.regs 1 3 = 7 := by
  have hwrite := writesValue_withByte (v := 7) (by decide +kernel)
  have hret : (run (withByte 7) 1 readByte ⟨0, 0⟩).map Prod.fst = some 0 := by decide +kernel
  obtain ⟨⟨_, w⟩, hrun, rfl⟩ := Option.map_eq_some_iff.mp hret
  have hload := loadsValue_readByte (by decide +kernel) hrun
  refine ⟨w, hwrite, hload, ?_⟩
  exact (register_holds_value_iff run_smallHeap hwrite (.nil _) (by decide +kernel) hload).mpr
    (by decide)

/-- The byte 200 comes back as a negative number. -/
theorem byte_200_negative : ∃ w,
    Run LowStep (boot 8192 4096 fun _ => true) smallHeap withSmallHeap ∧
    WritesValue withSmallHeap 1 20 200 (withByte 200) ∧ LoadsValue (withByte 200) 1 20 3 w ∧
    w.regs 1 3 = 2 ^ 64 - 56 ∧ w.regs 1 3 ≠ 200 % 256 := by
  have hwrite := writesValue_withByte (v := 200) (by decide +kernel)
  have hret : (run (withByte 200) 1 readByte ⟨0, 0⟩).map (fun r => (r.1, r.2.regs 1 3)) =
      some (0, 2 ^ 64 - 56) := by
    decide +kernel
  obtain ⟨⟨ret, w⟩, hrun, hpair⟩ := Option.map_eq_some_iff.mp hret
  obtain ⟨rfl, hreg⟩ := Prod.mk.inj hpair
  refine ⟨w, run_smallHeap, hwrite, loadsValue_readByte (by decide +kernel) hrun, hreg, ?_⟩
  rw [show w.regs 1 3 = 2 ^ 64 - 56 from hreg]
  decide

end Ossim.Mem
