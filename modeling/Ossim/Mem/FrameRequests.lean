import Ossim.Lib.Request
import Ossim.Mem.System

/-!
The frames of user memory that an instruction asks for.

`alloc_pages_range` and `pg_getpage` are the two callers of the eviction. The
operations between them and `run` are written down once more, as computations
that ask for a frame where the code takes one. Each has the result of the
operation it repeats, so its requests are those of the operation.
-/

namespace Ossim.Mem

open Ossim.Lib

/-- A call that is to come up with a frame: for a page of a growth or for a
page that has to come back from the swap. -/
inductive FrameRequest
  | growth (before : Sys) (caller : Pid)
  | fault (before : Sys) (caller : Pid)

namespace FrameRequest

/-- The state in which the frame is needed. -/
def before : FrameRequest → Sys
  | growth s _ => s
  | fault s _ => s

/-- What the code does for it. -/
def answer : FrameRequest → Option Nat × Sys
  | growth s caller => getFrame s caller
  | fault s caller => swapOutVictimPage s caller

end FrameRequest

/-- A computation that asks for frames. -/
abbrev Asking := Requesting FrameRequest (Option Nat × Sys)

namespace Asking

/-! ### Growth -/

/-- The loop of `alloc_pages_range`. -/
def allocPages (caller : Pid) : Nat → List Nat → Sys → Asking (Nat × List Nat × Sys)
  | 0, frames, s => .done (0, frames, s)
  | n + 1, frames, s => .ask (.growth s caller) fun
    | (none, s) => .done (errNoMem, [], releaseFrameList s frames)
    | (some fpn, s) =>
      match draw s.host with
      | (false, h) =>
        .done (errFail, [],
          releaseFrameList (memphyPutFreefp { s with host := h } .mram fpn) frames)
      | (true, h) => allocPages caller n (frames ++ [fpn]) { s with host := h }

/-- `alloc_pages_range` -/
def allocPagesRange (s : Sys) (caller : Pid) (reqPgnum : Int) : Asking (Nat × List Nat × Sys) :=
  if reqPgnum < 0 then .done (errFail, [], s)
  else allocPages caller reqPgnum.toNat [] s

/-- `vm_map_ram` -/
def vmMapRam (s : Sys) (p : Pid) (mapstart : Nat) (incpgnum : Int) (retRg : VmRg) :
    Asking (Nat × VmRg × Sys) :=
  (allocPagesRange s p incpgnum).map fun
  | (retAlloc, frames, s) =>
    if retAlloc < 0 ∧ retAlloc ≠ errNoMem then (errFail, retRg, s)
    else if retAlloc = errNoMem then (errFail, retRg, s)
    else
      match vmapPageRange s p mapstart incpgnum frames retRg with
      | (ret, retRg, s) => if ret = errFail then (errFail, retRg, s) else (0, retRg, s)

/-- `inc_vma_limit` -/
def incVmaLimit (s : Sys) (p : Pid) (vmaid : Int) (incSz : Nat) (junk : VmRg) :
    Asking (Option (Int × Sys)) :=
  match draw s.host with
  | (false, h) => .done (some (-1, { s with host := h }))
  | (true, h) =>
    let s := { s with host := h }
    let incAmt := pageAlignSz incSz
    let incnumpage := toInt (incAmt / pageSz)
    if !vmaFound vmaid then .done none
    else
      let oldEnd := (s.mmap p).sbrk
      let newEnd := (oldEnd + incAmt) % 2 ^ 64
      if validateOverlapVmArea oldEnd newEnd < 0 then .done (some (-1, s))
      else
        let s := s.setMmap p { s.mmap p with vmEnd := newEnd, sbrk := newEnd }
        (vmMapRam s p oldEnd incnumpage junk).map fun
        | (ret, newrg, s) =>
          if ret < 0 then
            some (-1, s.setMmap p { s.mmap p with vmEnd := oldEnd, sbrk := oldEnd })
          else
            some (0, s.setMmap p { s.mmap p with
              vmFreergList := enlistVmRgNode (s.mmap p).vmFreergList newrg })

/-- `__alloc` -/
def alloc (s : Sys) (p : Pid) (rgid size : Nat) (junk : VmRg) : Asking (Option (Int × Sys)) :=
  if maxSymtblSz ≤ rgid ∨ size = 0 then .done (some (-1, s))
  else
    match getFreeVmrgArea s p (toInt size) with
    | (some rg, s) => .done (some (0, s.setSymrg p rgid rg))
    | (none, s) =>
      if p ∉ s.runningList then .done (some (-1, s))
      else
        (incVmaLimit s p 0 (allocInc size) junk).map fun
        | none => none
        | some (sret, s) =>
          if sret < 0 then some (-1, s)
          else
            match getFreeVmrgArea s p (toInt size) with
            | (none, s) => some (-1, s)
            | (some rg, s) => some (0, s.setSymrg p rgid rg)

/-! ### Accesses -/

/-- `pg_getpage` -/
def pgGetpage (s : Sys) (p : Pid) (pgn : Nat) : Asking (Option Nat × Sys) :=
  let pte := pteGetEntry s p pgn
  if pagePresent pte then .done (some (pteFpn pte), s)
  else if !pageSwapped pte then .done (none, s)
  else .ask (.fault s p) fun
    | (none, s) => .done (none, s)
    | (some tgtfpn, s) =>
      match swapCpPage s .mswp (pteSwp pte) .mram tgtfpn with
      | (false, s) => .done (none, s)
      | (true, s) =>
        let s := memphyPutFreefp s .mswp (pteSwp pte)
        let s := (pteSetFpn s p pgn tgtfpn).2
        let s := (enlistPgnNode s p pgn).2
        .done (some (pteFpn (pteGetEntry s p pgn)), s)

/-- `pg_getval` -/
def pgGetval (s : Sys) (p : Pid) (addr : Nat) : Asking (Option Byte × Sys) :=
  (pgGetpage s p (addr / 2 ^ 12)).map fun
  | (none, s) => (none, s)
  | (some fpn, s) => (memphyRead s .mram (fpn * pageSz + addr % 2 ^ 12), s)

/-- `pg_setval` -/
def pgSetval (s : Sys) (p : Pid) (addr : Nat) (value : Byte) (copied : Bool) :
    Asking (Bool × Sys) :=
  (pgGetpage s p (addr / 2 ^ 12)).map fun
  | (none, s) => (false, s)
  | (some fpn, s) =>
    match memphyWrite s .mram (fpn * pageSz + addr % 2 ^ 12) value with
    | none => (false, s)
    | some s => (true, { s with stores := ⟨p, addr, value, copied⟩ :: s.stores })

/-- `__read` -/
def read (s : Sys) (p : Pid) (rgid offset : Nat) : Asking (Option Byte × Sys) :=
  let rg := s.symrgtbl p rgid
  if maxSymtblSz ≤ rgid ∨ rg.rgStart = rg.rgEnd then .done (none, s)
  else
    match userAccess rg offset with
    | none => .done (none, s)
    | some addr => pgGetval s p addr

/-- `__write` -/
def write (s : Sys) (p : Pid) (rgid offset : Nat) (value : Byte) : Asking (Bool × Sys) :=
  let rg := s.symrgtbl p rgid
  if maxSymtblSz ≤ rgid ∨ rg.rgStart = rg.rgEnd then .done (false, s)
  else
    match userAccess rg offset with
    | none => .done (false, s)
    | some addr => pgSetval s p addr value false

/-- `__read_user_mem` -/
def readUserMem (s : Sys) (p : Pid) (rgid offset : Nat) : Asking (Option Byte × Sys) :=
  let rg := s.symrgtbl p rgid
  if maxSymtblSz ≤ rgid ∨ rg.rgEnd ≤ rg.rgStart then .done (none, s)
  else
    match userAccess rg offset with
    | none => .done (none, s)
    | some addr => pgGetval s p addr

/-- `__write_user_mem` -/
def writeUserMem (s : Sys) (p : Pid) (rgid offset : Nat) (value : Byte) : Asking (Bool × Sys) :=
  let rg := s.symrgtbl p rgid
  if maxSymtblSz ≤ rgid ∨ rg.rgEnd ≤ rg.rgStart then .done (false, s)
  else
    match userAccess rg offset with
    | none => .done (false, s)
    | some addr => pgSetval s p addr value true

/-- `libread` -/
def libread (s : Sys) (p : Pid) (source offset destination : Nat) : Asking (Option (Int × Sys)) :=
  (read s p source offset).map fun
  | (none, s) => some (-1, s)
  | (some data, s) =>
    if numRegs ≤ destination then none else some (0, s.setReg p destination data.toReg)

/-- `libwrite` -/
def libwrite (s : Sys) (p : Pid) (data : Byte) (destination offset : Nat) : Asking (Int × Sys) :=
  (write s p destination offset data).map fun
  | (false, s) => (-1, s)
  | (true, s) => (0, s)

/-- The loop of `libkmem_copy_from_user`. -/
def copyFromUser (p : Pid) (source destination offset : Nat) :
    (left idx : Nat) → Sys → Asking (Int × Sys)
  | 0, _, s => .done (0, s)
  | left + 1, idx, s => (readUserMem s p source (toUint32 (offset + idx))).bind fun
    | (none, s) => .done (-1, s)
    | (some data, s) =>
      match writeKernelMem s p destination (toUint32 (offset + idx)) data with
      | none => .done (-1, s)
      | some s => copyFromUser p source destination offset left (idx + 1) s

/-- `libkmem_copy_from_user` -/
def libkmemCopyFromUser (s : Sys) (p : Pid) (source destination offset size : Nat) :
    Asking (Int × Sys) :=
  if maxSymtblSz ≤ source ∨ maxSymtblSz ≤ destination then .done (-1, s)
  else copyFromUser p source destination offset size 0 s

/-- The loop of `libkmem_copy_to_user`. -/
def copyToUser (p : Pid) (source destination offset : Nat) :
    (left idx : Nat) → Sys → Asking (Int × Sys)
  | 0, _, s => .done (0, s)
  | left + 1, idx, s =>
    match readKernelMem s p source (toUint32 (offset + idx)) with
    | none => .done (-1, s)
    | some data => (writeUserMem s p destination (toUint32 (offset + idx)) data).bind fun
      | (false, s) => .done (-1, s)
      | (true, s) => copyToUser p source destination offset left (idx + 1) s

/-- `libkmem_copy_to_user` -/
def libkmemCopyToUser (s : Sys) (p : Pid) (source destination offset size : Nat) :
    Asking (Int × Sys) :=
  if maxSymtblSz ≤ source ∨ maxSymtblSz ≤ destination then .done (-1, s)
  else copyToUser p source destination offset size 0 s

/-- `run`. The instructions that access user memory or grow it are spelt
out; the others are taken as they are. -/
def run (s : Sys) (p : Pid) (ins : Inst) (junk : VmRg) : Asking (Option (Int × Sys)) :=
  let a0 := ins.arg0.toNat
  let a1 := ins.arg1.toNat
  let a2 := ins.arg2.toNat
  let a3 := ins.arg3.toNat
  match ins.opcode with
  | .alloc => alloc s p (toUint32 a1) a0 junk
  | .copyFromUser =>
    (libkmemCopyFromUser s p (toUint32 a0) (toUint32 a1) (toUint32 a2) (toUint32 a3)).map some
  | .copyToUser =>
    (libkmemCopyToUser s p (toUint32 a0) (toUint32 a1) (toUint32 a2) (toUint32 a3)).map some
  | .read => libread s p (toUint32 a0) a1 (toUint32 a2)
  | .write => (libwrite s p (BitVec.ofNat 8 a0) (toUint32 a1) a2).map some
  | _ => .done (Mem.run s p ins junk)

/-! ### They have the results of the operations -/

@[simp] theorem result_allocPages (caller : Pid) (n : Nat) (frames : List Nat) (s : Sys) :
    (allocPages caller n frames s).result FrameRequest.answer =
      Mem.allocPages caller n frames s := by
  induction n generalizing frames s with
  | zero => rfl
  | succ n ih =>
      rw [allocPages, Requesting.result, Mem.allocPages, FrameRequest.answer]
      obtain ⟨_ | fpn, t⟩ := getFrame s caller
      · rfl
      · dsimp only
        obtain ⟨_ | _, h⟩ := draw t.host
        · rfl
        · exact ih ..

@[simp] theorem result_allocPagesRange (s : Sys) (caller : Pid) (n : Int) :
    (allocPagesRange s caller n).result FrameRequest.answer = Mem.allocPagesRange s caller n := by
  rw [allocPagesRange, Mem.allocPagesRange]
  split
  · rfl
  · exact result_allocPages ..

@[simp] theorem result_vmMapRam (s : Sys) (p : Pid) (mapstart : Nat) (n : Int) (rg : VmRg) :
    (vmMapRam s p mapstart n rg).result FrameRequest.answer = Mem.vmMapRam s p mapstart n rg := by
  rw [vmMapRam, Requesting.result_map, result_allocPagesRange]
  rfl

@[simp] theorem result_incVmaLimit (s : Sys) (p : Pid) (vmaid : Int) (incSz : Nat) (junk : VmRg) :
    (incVmaLimit s p vmaid incSz junk).result FrameRequest.answer =
      Mem.incVmaLimit s p vmaid incSz junk := by
  rw [incVmaLimit, Mem.incVmaLimit]
  obtain ⟨_ | _, h⟩ := draw s.host
  · rfl
  · dsimp only
    split
    · rfl
    · split
      · rfl
      · rw [Requesting.result_map, result_vmMapRam]

@[simp] theorem result_alloc (s : Sys) (p : Pid) (rgid size : Nat) (junk : VmRg) :
    (alloc s p rgid size junk).result FrameRequest.answer = Mem.alloc s p rgid size junk := by
  rw [alloc, Mem.alloc]
  split
  · rfl
  · obtain ⟨_ | rg, t⟩ := getFreeVmrgArea s p (toInt size)
    · dsimp only
      split
      · rfl
      · rewrite [Requesting.result_map, result_incVmaLimit]
        rfl
    · rfl

@[simp] theorem result_pgGetpage (s : Sys) (p : Pid) (pgn : Nat) :
    (pgGetpage s p pgn).result FrameRequest.answer = Mem.pgGetpage s p pgn := by
  rw [pgGetpage, Mem.pgGetpage]
  dsimp only
  split
  · rfl
  · split
    · rfl
    · rw [Requesting.result, FrameRequest.answer]
      obtain ⟨_ | f, t⟩ := swapOutVictimPage s p
      · rfl
      · dsimp only
        obtain ⟨_ | _, u⟩ := swapCpPage t .mswp (pteSwp (pteGetEntry s p pgn)) .mram f
        · rfl
        · rfl

@[simp] theorem result_pgGetval (s : Sys) (p : Pid) (addr : Nat) :
    (pgGetval s p addr).result FrameRequest.answer = Mem.pgGetval s p addr := by
  rw [pgGetval, Requesting.result_map, result_pgGetpage]
  rfl

@[simp] theorem result_pgSetval (s : Sys) (p : Pid) (addr : Nat) (v : Byte) (copied : Bool) :
    (pgSetval s p addr v copied).result FrameRequest.answer = Mem.pgSetval s p addr v copied := by
  rw [pgSetval, Requesting.result_map, result_pgGetpage]
  rfl

@[simp] theorem result_read (s : Sys) (p : Pid) (rgid offset : Nat) :
    (read s p rgid offset).result FrameRequest.answer = Mem.read s p rgid offset := by
  rw [read, Mem.read]
  split
  · rfl
  · cases userAccess (s.symrgtbl p rgid) offset with
    | none => rfl
    | some addr => exact result_pgGetval ..

@[simp] theorem result_write (s : Sys) (p : Pid) (rgid offset : Nat) (v : Byte) :
    (write s p rgid offset v).result FrameRequest.answer = Mem.write s p rgid offset v := by
  rw [write, Mem.write]
  split
  · rfl
  · cases userAccess (s.symrgtbl p rgid) offset with
    | none => rfl
    | some addr => exact result_pgSetval ..

@[simp] theorem result_readUserMem (s : Sys) (p : Pid) (rgid offset : Nat) :
    (readUserMem s p rgid offset).result FrameRequest.answer = Mem.readUserMem s p rgid offset := by
  rw [readUserMem, Mem.readUserMem]
  split
  · rfl
  · cases userAccess (s.symrgtbl p rgid) offset with
    | none => rfl
    | some addr => exact result_pgGetval ..

@[simp] theorem result_writeUserMem (s : Sys) (p : Pid) (rgid offset : Nat) (v : Byte) :
    (writeUserMem s p rgid offset v).result FrameRequest.answer =
      Mem.writeUserMem s p rgid offset v := by
  rw [writeUserMem, Mem.writeUserMem]
  split
  · rfl
  · cases userAccess (s.symrgtbl p rgid) offset with
    | none => rfl
    | some addr => exact result_pgSetval ..

@[simp] theorem result_libread (s : Sys) (p : Pid) (source offset destination : Nat) :
    (libread s p source offset destination).result FrameRequest.answer =
      Mem.libread s p source offset destination := by
  rw [libread, Requesting.result_map, result_read]
  rfl

@[simp] theorem result_libwrite (s : Sys) (p : Pid) (v : Byte) (destination offset : Nat) :
    (libwrite s p v destination offset).result FrameRequest.answer =
      Mem.libwrite s p v destination offset := by
  rw [libwrite, Requesting.result_map, result_write]
  rfl

@[simp] theorem result_copyFromUser (p : Pid) (source destination offset left idx : Nat) (s : Sys) :
    (copyFromUser p source destination offset left idx s).result FrameRequest.answer =
      Mem.copyFromUser p source destination offset left idx s := by
  induction left generalizing idx s with
  | zero => rfl
  | succ left ih =>
      rw [copyFromUser, Requesting.result_bind, result_readUserMem, Mem.copyFromUser]
      obtain ⟨_ | data, t⟩ := Mem.readUserMem s p source (toUint32 (offset + idx))
      · rfl
      · dsimp only
        cases writeKernelMem t p destination (toUint32 (offset + idx)) data with
        | none => rfl
        | some u => exact ih ..

@[simp] theorem result_copyToUser (p : Pid) (source destination offset left idx : Nat) (s : Sys) :
    (copyToUser p source destination offset left idx s).result FrameRequest.answer =
      Mem.copyToUser p source destination offset left idx s := by
  induction left generalizing idx s with
  | zero => rfl
  | succ left ih =>
      rw [copyToUser, Mem.copyToUser]
      cases readKernelMem s p source (toUint32 (offset + idx)) with
      | none => rfl
      | some data =>
          dsimp only
          rw [Requesting.result_bind, result_writeUserMem]
          obtain ⟨_ | _, t⟩ := Mem.writeUserMem s p destination (toUint32 (offset + idx)) data
          · rfl
          · exact ih ..

theorem result_run (s : Sys) (p : Pid) (ins : Inst) (junk : VmRg) :
    (run s p ins junk).result FrameRequest.answer = Mem.run s p ins junk := by
  rw [run]
  split
  · rename_i hop
    rw [result_alloc, Mem.run, hop]
  · rename_i hop
    rw [Requesting.result_map, libkmemCopyFromUser, Mem.run, hop]
    dsimp only
    rw [Mem.libkmemCopyFromUser]
    split
    · rfl
    · rw [result_copyFromUser]
  · rename_i hop
    rw [Requesting.result_map, libkmemCopyToUser, Mem.run, hop]
    dsimp only
    rw [Mem.libkmemCopyToUser]
    split
    · rfl
    · rw [result_copyToUser]
  · rename_i hop
    rw [result_libread, Mem.run, hop]
  · rename_i hop
    rw [Requesting.result_map, result_libwrite, Mem.run, hop]
  · rfl

end Asking

end Ossim.Mem
