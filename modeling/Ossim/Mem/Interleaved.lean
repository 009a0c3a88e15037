import Ossim.Mem.Growth

/-!
A `WRITE` on one CPU beside an `ALLOC` on another.

`__write` and `__read` hold `mmvm_lock` from the look at the region to the
access of the byte. `__alloc` holds it for each of its two searches, but not
for the system call between them: "inc_vma_limit internally acquires its own
locks". What it acquires are the locks of single devices and, inside
`swap_out_victim_page`, that of the scheduler.

The two calls are cut where they touch what the other one can see, and each
piece is one step: a call of `pg_getpage`, of a `MEMPHY` function, of
`swap_out_victim_page`, `pte_set_fpn` or `enlist_pgn_node`, and so on. A
program counter carries the local variables of the pieces to come. One CPU
alone, taking step after step, does what the call as a whole does.
-/

namespace Ossim.Mem

open Ossim.Lib

/-! ### The CPU that writes -/

/-- The arguments of a `WRITE`; a `READ` of the same offset follows it. -/
structure WriteCall where
  pid : Pid
  rgid : Nat
  offset : Nat
  value : Byte

/-- The checks of `__write` and `__read` before they go to the page. -/
def WriteCall.address (w : WriteCall) (s : Sys) : Option Nat :=
  let rg := s.symrgtbl w.pid w.rgid
  if maxSymtblSz ≤ w.rgid ∨ rg.rgStart = rg.rgEnd then none else userAccess rg w.offset

/-- How far `__write` or `__read` has come. -/
inductive AccessPc
  | start
  | getpage (addr : Nat)
  | access (addr fpn : Nat)
  deriving DecidableEq

/-- The `WRITE`, the `READ` after a `WRITE` that returned 0 or not, and the
end, with the byte that the `READ` gave if it returned 0. -/
inductive Writer
  | write (pc : AccessPc)
  | read (wrote : Bool) (pc : AccessPc)
  | done (wrote : Bool) (data : Option Byte)
  deriving DecidableEq

/-- The lock is taken at the start of the call and released at its end. -/
def Writer.holdsMmvm : Writer → Bool
  | .write .start | .read _ .start | .done _ _ => false
  | .write _ | .read _ _ => true

def writerStep (w : WriteCall) (s : Sys) : Writer → Option (Writer × Sys)
  | .write .start =>
    match w.address s with
    | none => some (.read false .start, s)
    | some addr => some (.write (.getpage addr), s)
  | .write (.getpage addr) =>
    match pgGetpage s w.pid (addr / 2 ^ 12) with
    | (none, s) => some (.read false .start, s)
    | (some fpn, s) => some (.write (.access addr fpn), s)
  | .write (.access addr fpn) =>
    match memphyWrite s .mram (fpn * pageSz + addr % 2 ^ 12) w.value with
    | none => some (.read false .start, s)
    | some s => some (.read true .start, { s with
        stores := ⟨w.pid, addr, w.value, false⟩ :: s.stores })
  | .read wrote .start =>
    match w.address s with
    | none => some (.done wrote none, s)
    | some addr => some (.read wrote (.getpage addr), s)
  | .read wrote (.getpage addr) =>
    match pgGetpage s w.pid (addr / 2 ^ 12) with
    | (none, s) => some (.done wrote none, s)
    | (some fpn, s) => some (.read wrote (.access addr fpn), s)
  | .read wrote (.access addr fpn) =>
    some (.done wrote (memphyRead s .mram (fpn * pageSz + addr % 2 ^ 12)), s)
  | .done _ _ => none

/-! ### The CPU that allocates -/

/-- The arguments of an `ALLOC`, and what the host leaves in the region node
of `inc_vma_limit`. -/
structure AllocCall where
  pid : Pid
  rgid : Nat
  size : Nat
  junk : VmRg

/-- `incnumpage` of `inc_vma_limit` -/
def AllocCall.pages (c : AllocCall) : Int := incNumPage (allocInc c.size)

/-- Where `release_frame_list` returns to. -/
inductive ReleasedTo
  /-- to `vmap_page_range` with the empty list, after a failed
  `new_frame_node`: the test `ret_alloc < 0` never holds -/
  | vmap
  /-- to `inc_vma_limit` with the region as it is -/
  | enlistRg (rg : VmRg)
  deriving DecidableEq

/-- How far `__alloc` has come. `left` is what a loop has still to do. -/
inductive AllocPc
  | search
  | syscall
  -- `alloc_pages_range`, with the frames obtained
  | getFreefp (left : Nat) (frames : List Nat)
  | swapOut (left : Nat) (frames : List Nat)
  | newNode (left : Nat) (frames : List Nat) (fpn : Nat)
  | release (frames : List Nat) (back : ReleasedTo)
  -- `vmap_page_range`, with the frames not yet mapped
  | vmap (frames : List Nat)
  | walk (left pgit : Nat) (frames : List Nat)
  | setFpn (left pgit : Nat) (frames : List Nat)
  | enlist (left pgit fpn : Nat) (next : List Nat)
  | clear (pgit fpn : Nat) (next : List Nat)
  -- `inc_vma_limit` and `__alloc` again
  | enlistRg (rg : VmRg)
  | again (sret : Int)
  | done (ret : Int)
  deriving DecidableEq

/-- `oldEnd` is the `old_end` of `inc_vma_limit`, from the system call on. -/
structure Grower where
  pc : AllocPc
  oldEnd : Nat
  deriving DecidableEq

/-- The two searches are made with the lock. -/
def Grower.needsMmvm (g : Grower) : Bool :=
  match g.pc with
  | .search | .again _ => true
  | _ => false

/-- The region after `pgit` pages were mapped. -/
def Grower.mapped (g : Grower) (pgit : Nat) : VmRg :=
  ⟨g.oldEnd, (g.oldEnd + pgit * pageSz) % 2 ^ 64⟩

def Grower.goto (g : Grower) (pc : AllocPc) : Grower := { g with pc := pc }

def allocStep (c : AllocCall) (s : Sys) (g : Grower) : Option (Grower × Sys) :=
  let pgn := g.oldEnd / 2 ^ 12
  match g.pc with
  | .search =>
    if maxSymtblSz ≤ c.rgid ∨ c.size = 0 then some (g.goto (.done (-1)), s)
    else
      match getFreeVmrgArea s c.pid (toInt c.size) with
      | (some rg, s) => some (g.goto (.done 0), s.setSymrg c.pid c.rgid rg)
      | (none, s) => some (g.goto .syscall, s)
  | .syscall =>
    if c.pid ∉ s.runningList then some (g.goto (.again (-1)), s)
    else
      match draw s.host with
      | (false, h) => some (g.goto (.again (-1)), { s with host := h })
      | (true, h) =>
        let s := { s with host := h }
        let incAmt := pageAlignSz (allocInc c.size)
        let oldEnd := (s.mmap c.pid).sbrk
        let newEnd := (oldEnd + incAmt) % 2 ^ 64
        if validateOverlapVmArea oldEnd newEnd < 0 then some (g.goto (.again (-1)), s)
        else
          some (⟨if c.pages < 0 then .vmap [] else .getFreefp c.pages.toNat [], oldEnd⟩,
            s.setMmap c.pid { s.mmap c.pid with vmEnd := newEnd, sbrk := newEnd })
  | .getFreefp 0 frames => some (g.goto (.vmap frames), s)
  | .getFreefp (left + 1) frames =>
    match memphyGetFreefp s .mram with
    | some (fpn, s) => some (g.goto (.newNode left frames fpn), s)
    | none => some (g.goto (.swapOut left frames), s)
  | .swapOut left frames =>
    match swapOutVictimPage s c.pid with
    | (some fpn, s) => some (g.goto (.newNode left frames fpn), s)
    | (none, s) => some (g.goto (.release frames (.enlistRg c.junk)), s)
  | .newNode left frames fpn =>
    match draw s.host with
    | (true, h) => some (g.goto (.getFreefp left (frames ++ [fpn])), { s with host := h })
    | (false, h) => some (g.goto (.release (fpn :: frames) .vmap), { s with host := h })
  | .release [] .vmap => some (g.goto (.vmap []), s)
  | .release [] (.enlistRg rg) => some (g.goto (.enlistRg rg), s)
  | .release (fpn :: frames) back =>
    some (g.goto (.release frames back), memphyPutFreefp s .mram fpn)
  | .vmap frames =>
    if validatePageRange g.oldEnd c.pages ≠ 0 then
      some (g.goto (.release frames (.enlistRg c.junk)), s)
    else some (g.goto (.walk c.pages.toNat 0 frames), s)
  | .walk 0 _ frames => some (g.goto (.setFpn c.pages.toNat 0 frames), s)
  | .walk (left + 1) pgit frames =>
    match walkPte s c.pid (pgnAddr (pgn + pgit)) with
    | (false, s) => some (g.goto (.release frames (.enlistRg ⟨g.oldEnd, g.oldEnd⟩)), s)
    | (true, s) => some (g.goto (.walk left (pgit + 1) frames), s)
  | .setFpn 0 pgit _ => some (g.goto (.enlistRg (g.mapped pgit)), s)
  | .setFpn (_ + 1) pgit [] => some (g.goto (.enlistRg (g.mapped pgit)), s)
  | .setFpn (left + 1) pgit (fpn :: next) =>
    match pteSetFpn s c.pid (pgn + pgit) fpn with
    | (false, s) => some (g.goto (.release (fpn :: next) (.enlistRg (g.mapped pgit))), s)
    | (true, s) => some (g.goto (.enlist left pgit fpn next), s)
  | .enlist left pgit fpn next =>
    match enlistPgnNode s c.pid (pgn + pgit) with
    | (false, s) => some (g.goto (.clear pgit fpn next), s)
    | (true, s) => some (g.goto (.setFpn left (pgit + 1) next), s)
  | .clear pgit fpn next =>
    some (g.goto (.release (fpn :: next) (.enlistRg (g.mapped pgit))),
      (pteSetEntry s c.pid (pgn + pgit) 0).2)
  | .enlistRg rg =>
    some (g.goto (.again 0), s.setMmap c.pid { s.mmap c.pid with
      vmFreergList := enlistVmRgNode (s.mmap c.pid).vmFreergList rg })
  | .again sret =>
    if sret < 0 then some (g.goto (.done (-1)), s)
    else
      match getFreeVmrgArea s c.pid (toInt c.size) with
      | (none, s) => some (g.goto (.done (-1)), s)
      | (some rg, s) => some (g.goto (.done 0), s.setSymrg c.pid c.rgid rg)
  | .done _ => none

/-! ### Both -/

structure Race where
  sys : Sys
  writer : Writer
  grower : Grower

inductive Turn
  | writer
  | grower
  deriving DecidableEq

/-- One step of one of the two CPUs. The searches wait for the lock; the
writer never has to, because each search is over within its step. -/
def raceStep (w : WriteCall) (c : AllocCall) (r : Race) : Turn → Option Race
  | .writer => (writerStep w r.sys r.writer).map fun x => ⟨x.2, x.1, r.grower⟩
  | .grower =>
    if r.grower.needsMmvm && r.writer.holdsMmvm then none
    else (allocStep c r.sys r.grower).map fun x => ⟨x.2, r.writer, x.1⟩

/-- Both calls are about to start. -/
def raceStart (s : Sys) : Race := ⟨s, .write .start, ⟨.search, 0⟩⟩

/-! ### One CPU alone

What is left of a call is a function of the program counter and the state,
and no step of the call changes its value. -/

/-- The results of the `WRITE` and of the `READ`, from here on. -/
def writerRest (w : WriteCall) (s : Sys) : Writer → Bool × Option Byte × Sys
  | .write pc =>
    let r :=
      match pc with
      | .start => write s w.pid w.rgid w.offset w.value
      | .getpage addr => pgSetval s w.pid addr w.value false
      | .access addr fpn =>
        match memphyWrite s .mram (fpn * pageSz + addr % 2 ^ 12) w.value with
        | none => (false, s)
        | some s => (true, { s with stores := ⟨w.pid, addr, w.value, false⟩ :: s.stores })
    (r.1, read r.2 w.pid w.rgid w.offset)
  | .read wrote .start => (wrote, read s w.pid w.rgid w.offset)
  | .read wrote (.getpage addr) => (wrote, pgGetval s w.pid addr)
  | .read wrote (.access addr fpn) =>
    (wrote, memphyRead s .mram (fpn * pageSz + addr % 2 ^ 12), s)
  | .done wrote data => (wrote, data, s)

theorem write_eq (w : WriteCall) (s : Sys) : write s w.pid w.rgid w.offset w.value =
    match w.address s with
    | none => (false, s)
    | some addr => pgSetval s w.pid addr w.value false := by
  rw [write, WriteCall.address]
  split <;> rfl

theorem read_eq (w : WriteCall) (s : Sys) : read s w.pid w.rgid w.offset =
    match w.address s with
    | none => (none, s)
    | some addr => pgGetval s w.pid addr := by
  rw [read, WriteCall.address]
  split <;> rfl

theorem writerRest_step {w : WriteCall} {s t : Sys} {x y : Writer}
    (h : writerStep w s x = some (y, t)) : writerRest w t y = writerRest w s x := by
  cases x with
  | write pc =>
      cases pc with
      | start =>
          simp only [writerStep] at h
          rw [writerRest]
          rw [write_eq]
          cases haddr : w.address s with
          | none =>
              rw [haddr] at h
              cases h
              rfl
          | some addr =>
              rw [haddr] at h
              cases h
              rfl
      | getpage addr =>
          simp only [writerStep] at h
          rw [writerRest]
          rw [pgSetval]
          generalize pgGetpage s w.pid (addr / 2 ^ 12) = r at h
          obtain ⟨_ | fpn, u⟩ := r
          all_goals
            cases h
            rfl
      | access addr fpn =>
          simp only [writerStep] at h
          rw [writerRest]
          generalize memphyWrite s .mram (fpn * pageSz + addr % 2 ^ 12) w.value = r at h
          cases r
          all_goals
            cases h
            rfl
  | read wrote pc =>
      cases pc with
      | start =>
          simp only [writerStep] at h
          rw [writerRest, read_eq]
          cases haddr : w.address s with
          | none =>
              rw [haddr] at h
              cases h
              rfl
          | some addr =>
              rw [haddr] at h
              cases h
              rfl
      | getpage addr =>
          simp only [writerStep] at h
          rw [writerRest, pgGetval]
          generalize pgGetpage s w.pid (addr / 2 ^ 12) = r at h
          obtain ⟨_ | fpn, u⟩ := r
          all_goals
            cases h
            rfl
      | access addr fpn =>
          cases h
          rfl
  | done wrote data => cases h

section

variable (c : AllocCall)

/-- `__alloc` after the system call. -/
def againRest (sret : Int) (s : Sys) : Option (Int × Sys) :=
  if sret < 0 then some (-1, s)
  else
    match getFreeVmrgArea s c.pid (toInt c.size) with
    | (none, s) => some (-1, s)
    | (some rg, s) => some (0, s.setSymrg c.pid c.rgid rg)

/-- `inc_vma_limit` after `vm_map_ram`, whatever that returned. -/
def enlistRest (rg : VmRg) (s : Sys) : Option (Int × Sys) :=
  againRest c 0 (s.setMmap c.pid { s.mmap c.pid with
    vmFreergList := enlistVmRgNode (s.mmap c.pid).vmFreergList rg })

/-- `vm_map_ram` after `alloc_pages_range`. -/
def vmapRest (oldEnd : Nat) (frames : List Nat) (s : Sys) : Option (Int × Sys) :=
  let r := vmapPageRange s c.pid oldEnd c.pages frames c.junk
  enlistRest c r.2.1 r.2.2

def framesRest (oldEnd left : Nat) (frames : List Nat) (s : Sys) : Option (Int × Sys) :=
  match allocPages c.pid left frames s with
  | (code, frames, s) =>
    if code = errNoMem then enlistRest c c.junk s else vmapRest c oldEnd frames s

def nodeRest (oldEnd left : Nat) (frames : List Nat) (fpn : Nat) (s : Sys) : Option (Int × Sys) :=
  match draw s.host with
  | (true, h) => framesRest c oldEnd left (frames ++ [fpn]) { s with host := h }
  | (false, h) => vmapRest c oldEnd [] (releaseFrameList { s with host := h } (fpn :: frames))

def mapRest (g : Grower) (left pgit : Nat) (frames : List Nat) (s : Sys) : Option (Int × Sys) :=
  let r := mapFrames c.pid (g.oldEnd / 2 ^ 12) left pgit frames s
  enlistRest c (g.mapped r.2.1) r.2.2

/-- The result of the `ALLOC`, from here on. -/
def allocRest (s : Sys) (g : Grower) : Option (Int × Sys) :=
  let pgn := g.oldEnd / 2 ^ 12
  match g.pc with
  | .search => alloc s c.pid c.rgid c.size c.junk
  | .syscall =>
    if c.pid ∉ s.runningList then some (-1, s)
    else
      match incVmaLimit s c.pid 0 (allocInc c.size) c.junk with
      | none => none
      | some (sret, s) => againRest c sret s
  | .getFreefp left frames => framesRest c g.oldEnd left frames s
  | .swapOut left frames =>
    match swapOutVictimPage s c.pid with
    | (some fpn, s) => nodeRest c g.oldEnd left frames fpn s
    | (none, s) => enlistRest c c.junk (releaseFrameList s frames)
  | .newNode left frames fpn => nodeRest c g.oldEnd left frames fpn s
  | .release frames .vmap => vmapRest c g.oldEnd [] (releaseFrameList s frames)
  | .release frames (.enlistRg rg) => enlistRest c rg (releaseFrameList s frames)
  | .vmap frames => vmapRest c g.oldEnd frames s
  | .walk left pgit frames =>
    match walkPages c.pid pgn left pgit s with
    | (false, s) => enlistRest c ⟨g.oldEnd, g.oldEnd⟩ (releaseFrameList s frames)
    | (true, s) => mapRest c g c.pages.toNat 0 frames s
  | .setFpn left pgit frames => mapRest c g left pgit frames s
  | .enlist left pgit fpn next =>
    match enlistPgnNode s c.pid (pgn + pgit) with
    | (false, s) => enlistRest c (g.mapped pgit)
        (releaseFrameList (pteSetEntry s c.pid (pgn + pgit) 0).2 (fpn :: next))
    | (true, s) => mapRest c g left (pgit + 1) next s
  | .clear pgit fpn next => enlistRest c (g.mapped pgit)
      (releaseFrameList (pteSetEntry s c.pid (pgn + pgit) 0).2 (fpn :: next))
  | .enlistRg rg => enlistRest c rg s
  | .again sret => againRest c sret s
  | .done ret => some (ret, s)

end

section

variable {c : AllocCall} {s t : Sys} {g : Grower}

/-- A growth request up to its call of `vm_map_ram`. -/
theorem allocStep_syscall (oldEnd : Nat) (hp : c.pid ∈ s.runningList) :
    allocStep c s ⟨.syscall, oldEnd⟩ =
      if Refused s c.pid (allocInc c.size) then
        some (⟨.again (-1), oldEnd⟩, { s with host := (draw s.host).2 })
      else
        some (⟨if c.pages < 0 then .vmap [] else .getFreefp c.pages.toNat [], (s.mmap c.pid).sbrk⟩,
          breakMoved s c.pid (allocInc c.size)) := by
  simp only [allocStep]
  rw [if_neg (not_not_intro hp)]
  cases hhost : s.host 0 with
  | false =>
      rw [if_pos (show Refused s c.pid (allocInc c.size) from .inl hhost)]
      simp only [draw, hhost]
      rfl
  | true =>
      simp only [draw, hhost]
      by_cases hle : newBreak s c.pid (allocInc c.size) ≤ (s.mmap c.pid).sbrk
      · have hval : validateOverlapVmArea (s.mmap c.pid).sbrk
            (newBreak s c.pid (allocInc c.size)) = -1 := if_pos hle
        rw [newBreak] at hval
        rw [if_pos (show Refused s c.pid (allocInc c.size) from .inr hle), hval]
        rfl
      · have hval : validateOverlapVmArea (s.mmap c.pid).sbrk
            (newBreak s c.pid (allocInc c.size)) = 0 := if_neg hle
        have hgo : ¬Refused s c.pid (allocInc c.size) := by
          rintro (hfalse | hle')
          · rw [hhost] at hfalse
            cases hfalse
          · exact hle hle'
        rw [newBreak] at hval
        rw [if_neg hgo, hval]
        rfl

/-- `vm_map_ram` returns to `inc_vma_limit` with the region it made. -/
theorem vmapRest_of_code {oldEnd code : Nat} {frames : List Nat} {u : Sys}
    (hcode : code ≠ errNoMem) :
    (let r : Nat × VmRg × Sys := if code < 0 ∧ code ≠ errNoMem then (errFail, c.junk, u)
      else if code = errNoMem then (errFail, c.junk, u)
      else match vmapPageRange u c.pid oldEnd c.pages frames c.junk with
        | (ret, retRg, s) => if ret = errFail then (errFail, retRg, s) else (0, retRg, s)
     enlistRest c r.2.1 r.2.2) = vmapRest c oldEnd frames u := by
  rw [if_neg (by omega), if_neg hcode, vmapRest]
  generalize vmapPageRange u c.pid oldEnd c.pages frames c.junk = r
  obtain ⟨ret, rg, v⟩ := r
  dsimp only
  split <;> rfl

theorem vmMapRam_rest (oldEnd : Nat) :
    (let r := vmMapRam s c.pid oldEnd c.pages c.junk; enlistRest c r.2.1 r.2.2) =
      allocRest c s
        ⟨if c.pages < 0 then .vmap [] else .getFreefp c.pages.toNat [], oldEnd⟩ := by
  rw [vmMapRam, allocPagesRange]
  by_cases hneg : c.pages < 0
  · rw [if_pos hneg, if_pos hneg]
    exact vmapRest_of_code (by decide)
  · rw [if_neg hneg, if_neg hneg]
    dsimp only [allocRest]
    rw [framesRest]
    generalize allocPages c.pid c.pages.toNat [] s = r
    obtain ⟨code, frames, u⟩ := r
    by_cases hcode : code = errNoMem
    · dsimp only
      rw [if_neg (by omega), if_pos hcode, if_pos hcode]
    · exact (vmapRest_of_code hcode).trans (if_neg hcode).symm

theorem framesRest_succ (oldEnd left : Nat) (frames : List Nat) :
    framesRest c oldEnd (left + 1) frames s =
      match getFrame s c.pid with
      | (some fpn, t) => nodeRest c oldEnd left frames fpn t
      | (none, t) => enlistRest c c.junk (releaseFrameList t frames) := by
  rw [framesRest, allocPages]
  generalize getFrame s c.pid = r
  obtain ⟨_ | fpn, t⟩ := r
  · rfl
  · dsimp only
    rw [nodeRest]
    generalize draw t.host = r
    obtain ⟨_ | _, h⟩ := r
    · exact if_neg (show errFail ≠ errNoMem by decide)
    · rfl

theorem mapRest_succ (left pgit fpn : Nat) (next : List Nat) :
    mapRest c g (left + 1) pgit (fpn :: next) s =
      match pteSetFpn s c.pid (g.oldEnd / 2 ^ 12 + pgit) fpn with
      | (false, t) => enlistRest c (g.mapped pgit) (releaseFrameList t (fpn :: next))
      | (true, t) => allocRest c t (g.goto (.enlist left pgit fpn next)) := by
  rw [mapRest, mapFrames]
  generalize pteSetFpn s c.pid (g.oldEnd / 2 ^ 12 + pgit) fpn = r
  obtain ⟨_ | _, t⟩ := r
  · rfl
  · dsimp only [allocRest, Grower.goto]
    generalize enlistPgnNode t c.pid (g.oldEnd / 2 ^ 12 + pgit) = r
    obtain ⟨_ | _, u⟩ := r <;> rfl

theorem allocRest_search : allocRest c s (g.goto .search) =
    if maxSymtblSz ≤ c.rgid ∨ c.size = 0 then some (-1, s)
    else
      match getFreeVmrgArea s c.pid (toInt c.size) with
      | (some rg, s) => some (0, s.setSymrg c.pid c.rgid rg)
      | (none, s) => allocRest c s (g.goto .syscall) := by
  dsimp only [allocRest, Grower.goto]
  rw [alloc]
  refine ite_congr rfl (fun _ => rfl) fun _ => ?_
  generalize getFreeVmrgArea s c.pid (toInt c.size) = r
  obtain ⟨_ | rg, t⟩ := r
  · dsimp only
    refine ite_congr rfl (fun _ => rfl) fun _ => ?_
    generalize incVmaLimit t c.pid 0 (allocInc c.size) c.junk = r
    obtain _ | ⟨sret, v⟩ := r <;> rfl
  · rfl

theorem allocRest_syscall (oldEnd : Nat) (hp : c.pid ∈ s.runningList) :
    allocRest c s ⟨.syscall, oldEnd⟩ =
      if Refused s c.pid (allocInc c.size) then some (-1, { s with host := (draw s.host).2 })
      else
        allocRest c (breakMoved s c.pid (allocInc c.size))
          ⟨if c.pages < 0 then .vmap [] else .getFreefp c.pages.toNat [], (s.mmap c.pid).sbrk⟩ := by
  rw [← vmMapRam_rest]
  dsimp only [allocRest]
  rw [if_neg (not_not_intro hp)]
  by_cases href : Refused s c.pid (allocInc c.size)
  · rw [if_pos href, incVmaLimit_of_refused c.junk rfl href]
    rfl
  · rw [if_neg href, incVmaLimit_of_not_refused c.junk rfl href]
    rfl

/-! One lemma for each program counter with a choice. -/

variable {g' : Grower} {oldEnd : Nat}

theorem allocRest_search_step (h : allocStep c s ⟨.search, oldEnd⟩ = some (g', t)) :
    allocRest c t g' = allocRest c s ⟨.search, oldEnd⟩ := by
  rw [show (⟨.search, oldEnd⟩ : Grower) = Grower.goto ⟨.search, oldEnd⟩ .search from rfl,
    allocRest_search]
  simp only [allocStep] at h
  split at h
  · rename_i hargs
    cases h
    rw [if_pos hargs]
    rfl
  · rename_i hargs
    rw [if_neg hargs]
    generalize getFreeVmrgArea s c.pid (toInt c.size) = r at h
    obtain ⟨_ | rg, t⟩ := r
    all_goals
      cases h
      rfl

theorem allocRest_syscall_step (h : allocStep c s ⟨.syscall, oldEnd⟩ = some (g', t)) :
    allocRest c t g' = allocRest c s ⟨.syscall, oldEnd⟩ := by
  by_cases hp : c.pid ∈ s.runningList
  · rw [allocStep_syscall oldEnd hp] at h
    rw [allocRest_syscall oldEnd hp]
    split at h
    · rename_i href
      cases h
      rw [if_pos href]
      rfl
    · rename_i href
      cases h
      rw [if_neg href]
  · simp only [allocStep] at h
    rw [if_pos hp] at h
    cases h
    dsimp only [allocRest]
    rw [if_pos hp]
    rfl

theorem allocRest_getFreefp_step {left : Nat} {frames : List Nat}
    (h : allocStep c s ⟨.getFreefp left frames, oldEnd⟩ = some (g', t)) :
    allocRest c t g' = allocRest c s ⟨.getFreefp left frames, oldEnd⟩ := by
  cases left with
  | zero =>
      cases h
      rfl
  | succ left =>
      simp only [allocStep] at h
      dsimp only [allocRest]
      rw [framesRest_succ, getFrame]
      cases hget : memphyGetFreefp s .mram with
      | none =>
          rw [hget] at h
          cases h
          rfl
      | some r =>
          rw [hget] at h
          cases h
          rfl

theorem allocRest_swapOut_step {left : Nat} {frames : List Nat}
    (h : allocStep c s ⟨.swapOut left frames, oldEnd⟩ = some (g', t)) :
    allocRest c t g' = allocRest c s ⟨.swapOut left frames, oldEnd⟩ := by
  simp only [allocStep] at h
  dsimp only [allocRest]
  generalize swapOutVictimPage s c.pid = r at h
  obtain ⟨_ | fpn, t⟩ := r
  all_goals
    cases h
    rfl

theorem allocRest_newNode_step {left fpn : Nat} {frames : List Nat}
    (h : allocStep c s ⟨.newNode left frames fpn, oldEnd⟩ = some (g', t)) :
    allocRest c t g' = allocRest c s ⟨.newNode left frames fpn, oldEnd⟩ := by
  simp only [allocStep] at h
  dsimp only [allocRest]
  rw [nodeRest]
  generalize draw s.host = r at h
  obtain ⟨_ | _, host⟩ := r
  all_goals
    cases h
    rfl

theorem allocRest_release_step {frames : List Nat} {back : ReleasedTo}
    (h : allocStep c s ⟨.release frames back, oldEnd⟩ = some (g', t)) :
    allocRest c t g' = allocRest c s ⟨.release frames back, oldEnd⟩ := by
  cases frames with
  | nil =>
      cases back
      all_goals
        cases h
        rfl
  | cons fpn frames =>
      cases back
      all_goals
        cases h
        rfl

theorem allocRest_vmap_step {frames : List Nat}
    (h : allocStep c s ⟨.vmap frames, oldEnd⟩ = some (g', t)) :
    allocRest c t g' = allocRest c s ⟨.vmap frames, oldEnd⟩ := by
  simp only [allocStep] at h
  dsimp only [allocRest]
  rw [vmapRest, vmapPageRange]
  split at h
  · rename_i hvalid
    cases h
    rw [if_pos hvalid]
    rfl
  · rename_i hvalid
    cases h
    rw [if_neg hvalid]
    dsimp only [allocRest, Grower.goto]
    generalize walkPages c.pid (oldEnd / 2 ^ 12) c.pages.toNat 0 s = r
    obtain ⟨_ | _, t⟩ := r <;> rfl

theorem allocRest_walk_step {left pgit : Nat} {frames : List Nat}
    (h : allocStep c s ⟨.walk left pgit frames, oldEnd⟩ = some (g', t)) :
    allocRest c t g' = allocRest c s ⟨.walk left pgit frames, oldEnd⟩ := by
  cases left with
  | zero =>
      cases h
      rfl
  | succ left =>
      simp only [allocStep] at h
      dsimp only [allocRest]
      rw [walkPages]
      generalize walkPte s c.pid (pgnAddr (oldEnd / 2 ^ 12 + pgit)) = r at h
      obtain ⟨_ | _, t⟩ := r
      all_goals
        cases h
        rfl

theorem allocRest_setFpn_step {left pgit : Nat} {frames : List Nat}
    (h : allocStep c s ⟨.setFpn left pgit frames, oldEnd⟩ = some (g', t)) :
    allocRest c t g' = allocRest c s ⟨.setFpn left pgit frames, oldEnd⟩ := by
  cases left with
  | zero =>
      cases h
      rfl
  | succ left =>
      cases frames with
      | nil =>
          cases h
          rfl
      | cons fpn next =>
          simp only [allocStep] at h
          dsimp only [allocRest]
          rw [mapRest_succ]
          generalize pteSetFpn s c.pid (oldEnd / 2 ^ 12 + pgit) fpn = r at h
          obtain ⟨_ | _, t⟩ := r
          all_goals
            cases h
            rfl

theorem allocRest_enlist_step {left pgit fpn : Nat} {next : List Nat}
    (h : allocStep c s ⟨.enlist left pgit fpn next, oldEnd⟩ = some (g', t)) :
    allocRest c t g' = allocRest c s ⟨.enlist left pgit fpn next, oldEnd⟩ := by
  simp only [allocStep] at h
  dsimp only [allocRest]
  generalize enlistPgnNode s c.pid (oldEnd / 2 ^ 12 + pgit) = r at h
  obtain ⟨_ | _, t⟩ := r
  all_goals
    cases h
    rfl

theorem allocRest_again_step {sret : Int}
    (h : allocStep c s ⟨.again sret, oldEnd⟩ = some (g', t)) :
    allocRest c t g' = allocRest c s ⟨.again sret, oldEnd⟩ := by
  simp only [allocStep] at h
  dsimp only [allocRest]
  rw [againRest]
  split at h
  · rename_i hneg
    cases h
    rw [if_pos hneg]
    rfl
  · rename_i hneg
    rw [if_neg hneg]
    generalize getFreeVmrgArea s c.pid (toInt c.size) = r at h
    obtain ⟨_ | rg, t⟩ := r
    all_goals
      cases h
      rfl

/-- No step of the call changes what is left of it. -/
theorem allocRest_step (h : allocStep c s g = some (g', t)) :
    allocRest c t g' = allocRest c s g := by
  obtain ⟨pc, oldEnd⟩ := g
  cases pc with
  | search => exact allocRest_search_step h
  | syscall => exact allocRest_syscall_step h
  | getFreefp left frames => exact allocRest_getFreefp_step h
  | swapOut left frames => exact allocRest_swapOut_step h
  | newNode left frames fpn => exact allocRest_newNode_step h
  | release frames back => exact allocRest_release_step h
  | vmap frames => exact allocRest_vmap_step h
  | walk left pgit frames => exact allocRest_walk_step h
  | setFpn left pgit frames => exact allocRest_setFpn_step h
  | enlist left pgit fpn next => exact allocRest_enlist_step h
  | clear pgit fpn next =>
      cases h
      rfl
  | enlistRg rg =>
      cases h
      rfl
  | again sret => exact allocRest_again_step h
  | done ret => cases h

end

/-- A step of one CPU, the other one standing still. -/
def Alone (w : WriteCall) (c : AllocCall) (cpu : Turn) (r : Race) (turn : Turn)
    (r' : Race) : Prop :=
  turn = cpu ∧ raceStep w c r turn = some r'

section

variable {w : WriteCall} {c : AllocCall} {s : Sys} {turns : List Turn} {r : Race}

/-- Without an `ALLOC` beside them, `WRITE` and `READ` are those of
`libmem.c`. -/
theorem writer_alone (hrun : Run (Alone w c .writer) (raceStart s) turns r) {wrote : Bool}
    {data : Option Byte} (hdone : r.writer = .done wrote data) :
    ∃ t, write s w.pid w.rgid w.offset w.value = (wrote, t) ∧
      read t w.pid w.rgid w.offset = (data, r.sys) := by
  have hrest : writerRest w r.sys r.writer = writerRest w s (.write .start) := by
    refine hrun.invariant
      (I := fun r => writerRest w r.sys r.writer = writerRest w s (.write .start))
      (fun r turn r' hr hstep => ?_) rfl
    obtain ⟨rfl, hstep⟩ := hstep
    obtain ⟨⟨x, t⟩, hx, rfl⟩ := Option.map_eq_some_iff.mp hstep
    exact (writerRest_step hx).trans hr
  rw [hdone] at hrest
  simp only [writerRest, Prod.mk.injEq] at hrest
  refine ⟨(write s w.pid w.rgid w.offset w.value).2, ?_, ?_⟩
  · exact Prod.ext hrest.1.symm rfl
  · exact hrest.2.symm

/-- Without a `WRITE` beside it, `ALLOC` is that of `libmem.c`. -/
theorem grower_alone (hrun : Run (Alone w c .grower) (raceStart s) turns r) {ret : Int}
    (hdone : r.grower.pc = .done ret) :
    alloc s c.pid c.rgid c.size c.junk = some (ret, r.sys) := by
  have hrest : allocRest c r.sys r.grower = allocRest c s ⟨.search, 0⟩ := by
    refine hrun.invariant (I := fun r => allocRest c r.sys r.grower = allocRest c s ⟨.search, 0⟩)
      (fun r turn r' hr hstep => ?_) rfl
    obtain ⟨rfl, hstep⟩ := hstep
    rw [raceStep] at hstep
    split at hstep
    · cases hstep
    · obtain ⟨⟨g, t⟩, hg, rfl⟩ := Option.map_eq_some_iff.mp hstep
      exact (allocRest_step hg).trans hr
  refine hrest.symm.trans ?_
  rw [allocRest, hdone]

end

end Ossim.Mem
