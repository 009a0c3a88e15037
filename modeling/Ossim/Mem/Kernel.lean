import Mathlib.Data.List.Sort
import Ossim.Mem.Access

/-!
Kernel memory: `KMALLOC`, cache pools and the copies of `libmem.c`.

Kernel memory is made of runs of consecutive free frames. Frame `f` is
always mapped at `KMEM_VADDR_BASE + f * PAGE_SIZE`, in the kernel page table
that all processes share, and its node moves from the free list of the RAM
to the used list, where it carries its owner.

The code finds a node of the free list by its address; since no frame
number is twice in the list, the model finds it by its number.
-/

namespace Ossim.Mem

open Ossim.Lib

/-! ### Consecutive frames -/

/-- The search for a run of `req` consecutive numbers in a sorted array,
behind the element `prev` at index `idx - 1`: the index where it starts. -/
def findRun (req : Nat) : (prev run idx : Nat) → List Nat → Option Nat
  | _, _, _, [] => none
  | prev, run, idx, fpn :: rest =>
    let run := if fpn = prev + 1 then run + 1 else 1
    if run = req then some (idx + 1 - req) else findRun req fpn run (idx + 1) rest

/-- `select_start` for the sorted free list -/
def selectStart (req : Nat) : List Nat → Option Nat
  | [] => none
  | fpn :: rest => if req = 1 then some 0 else findRun req fpn 1 1 rest

/-- Move a node from the free list to the used list. -/
def useFrame (p : Pid) (s : Sys) (fpn : Nat) : Sys :=
  if fpn ∈ s.freeFpList .mram then
    { s with
      freeFpList := Function.update s.freeFpList .mram ((s.freeFpList .mram).erase fpn)
      usedFpList := Function.update s.usedFpList .mram (⟨fpn, p⟩ :: s.usedFpList .mram) }
  else s

/-- `kernel_allocate_contiguous_frames`: the first frame number -/
def kernelAllocateContiguousFrames (s : Sys) (p : Pid) (reqPgnum : Int) : Option Nat × Sys :=
  if reqPgnum ≤ 0 then (none, s)
  else if ((s.freeFpList .mram).length : Int) < reqPgnum then (none, s)
  else
    match draw s.host with
    | (false, h) => (none, { s with host := h })
    | (true, h) =>
      let s := { s with host := h }
      let list := (s.freeFpList .mram).insertionSort (· ≤ ·)
      match selectStart reqPgnum.toNat list with
      | none => (none, s)
      | some start =>
        let frames := (list.drop start).take reqPgnum.toNat
        (frames.head?, frames.foldl (useFrame p) s)

/-! ### The kernel page table -/

/-- `kernel_vaddr_from_fpn` -/
def kernelVaddrFromFpn (fpn : Nat) : Nat := (kmemVaddrBase + fpn * pageSz) % 2 ^ 64

/-- `kernel_fpn_from_vaddr` -/
def kernelFpnFromVaddr (addr : Nat) : Nat := (addr + 2 ^ 64 - kmemVaddrBase) % 2 ^ 64 / pageSz

/-- The entry that `kernel_walk_pte` reaches without creating tables, zero
if there is none. -/
def kernelPte (s : Sys) (addr : Nat) : Nat :=
  match getPdFromAddress addr with
  | none => 0
  | some path => s.krnlPgd.lookup 0 path

/-- `kernel_map_page` -/
def kernelMapPage (s : Sys) (addr fpn : Nat) : Bool × Sys :=
  match getPdFromAddress addr with
  | none => (false, s)
  | some path =>
    let r := Radix.write draw 0 path (presentPte fpn) s.krnlPgd s.host
    (r.1, { s with krnlPgd := r.2.1, host := r.2.2 })

/-- Clear the entry of an address, if its tables exist. -/
def clearKernelPte (s : Sys) (addr : Nat) : Sys :=
  match getPdFromAddress addr with
  | none => s
  | some path => { s with krnlPgd := s.krnlPgd.set path 0 }

/-- Move a node from the used list back to the free list. -/
def unuseFrame (s : Sys) (fpn : Nat) : Sys :=
  if fpn ∈ (s.usedFpList .mram).map UsedFrame.fpn then
    { s with
      usedFpList := Function.update s.usedFpList .mram
        ((s.usedFpList .mram).eraseP fun fp => fp.fpn == fpn)
      freeFpList := Function.update s.freeFpList .mram (fpn :: s.freeFpList .mram) }
  else s

/-- `kernel_release_contiguous_region` -/
def kernelReleaseContiguousRegion (s : Sys) (baseAddr : Nat) (pgnum : Int) : Sys :=
  let pages := List.range pgnum.toNat
  let s := pages.foldl (fun s page => clearKernelPte s ((baseAddr + page * pageSz) % 2 ^ 64)) s
  pages.foldl (fun s page => unuseFrame s (kernelFpnFromVaddr baseAddr + page)) s

/-- The mapping loop of `kernel_alloc_contiguous_region`. -/
def kernelMapPages (startAddr firstFpn : Nat) : (left page : Nat) → Sys → Bool × Sys
  | 0, _, s => (true, s)
  | left + 1, page, s =>
    match kernelMapPage s ((startAddr + page * pageSz) % 2 ^ 64) (firstFpn + page) with
    | (false, s) => (false, s)
    | (true, s) => kernelMapPages startAddr firstFpn left (page + 1) s

/-- `kernel_alloc_contiguous_region`: base address and size -/
def kernelAllocContiguousRegion (s : Sys) (p : Pid) (size : Nat) : Option (Nat × Nat) × Sys :=
  if size = 0 then (none, s)
  else
    let alignedSize := pageAlignSz size
    let reqPgnum := toInt (alignedSize / pageSz)
    match kernelAllocateContiguousFrames s p reqPgnum with
    | (none, s) => (none, s)
    | (some firstFpn, s) =>
      let startAddr := kernelVaddrFromFpn firstFpn
      match kernelMapPages startAddr firstFpn reqPgnum.toNat 0 s with
      | (false, s) => (none, kernelReleaseContiguousRegion s startAddr reqPgnum)
      | (true, s) => (some (startAddr, alignedSize), s)

/-! ### KMALLOC -/

/-- `__kmalloc`, refusing an id that is in use -/
def kmalloc (s : Sys) (p : Pid) (rgid size : Nat) : Option Nat × Sys :=
  let rg := s.symrgtbl p rgid
  if size = 0 ∨ maxSymtblSz ≤ rgid ∨ rg.rgStart ≠ 0 ∨ rg.rgEnd ≠ 0 then (none, s)
  else
    match kernelAllocContiguousRegion s p size with
    | (none, s) => (none, s)
    | (some (baseAddr, _), s) =>
      (some baseAddr, s.setSymrg p rgid ⟨baseAddr, (baseAddr + size) % 2 ^ 64⟩)

/-- Put an address into a register of the process. -/
def returnAddr (p : Pid) (reg : Nat) : Option Nat × Sys → Option (Int × Sys)
  | (none, s) => some (-1, s)
  | (some addr, s) => if numRegs ≤ reg then none else some (0, s.setReg p reg addr)

/-- `libkmem_malloc` -/
def libkmemMalloc (s : Sys) (p : Pid) (size reg : Nat) : Option (Int × Sys) :=
  if size = 0 ∨ maxSymtblSz ≤ reg then some (-1, s)
  else returnAddr p reg (kmalloc s p reg size)

/-! ### Cache pools -/

/-- Ask the host for `n` nodes in turn. -/
def drawMany : Nat → (Nat → Bool) → Bool × (Nat → Bool)
  | 0, h => (true, h)
  | n + 1, h =>
    match draw h with
    | (false, h) => (false, h)
    | (true, h) => drawMany n h

/-- `create_cache_slab` -/
def createCacheSlab (baseAddr slotSize slotCount : Nat) : KmemCacheSlab where
  start := baseAddr
  slotSize := slotSize
  slotCount := slotCount
  freeCount := slotCount
  freeList := (List.range slotCount).map fun idx => (baseAddr + idx * slotSize) % 2 ^ 64

def Sys.setPools (s : Sys) (p : Pid) (pools : List KcachePool) : Sys :=
  { s with kcpooltbl := Function.update s.kcpooltbl p pools }

/-- The pool table with room for `cachePoolId`, if the host supplies it. -/
def growPools (s : Sys) (p : Pid) (cachePoolId : Nat) : Bool × Sys :=
  if cachePoolId < (s.kcpooltbl p).length then (true, s)
  else
    match draw s.host with
    | (false, h) => (false, { s with host := h })
    | (true, h) =>
      let s := { s with host := h }
      (true, s.setPools p (s.kcpooltbl p ++
        List.replicate (cachePoolId + 1 - (s.kcpooltbl p).length) KcachePool.zero))

/-- `libkmem_cache_pool_create` -/
def libkmemCachePoolCreate (s : Sys) (p : Pid) (size align cachePoolId : Nat) : Int × Sys :=
  if maxSymtblSz ≤ cachePoolId ∨ size = 0 ∨ align = 0 then (-1, s)
  else
    let usableSize := size / align * align
    let slotCount := usableSize / align
    if usableSize = 0 ∨ slotCount = 0 then (-1, s)
    else
      match growPools s p cachePoolId with
      | (false, s) => (-1, s)
      | (true, s) =>
        match (s.kcpooltbl p)[cachePoolId]? with
        | none => (-1, s)
        | some pool =>
          if pool.size ≠ 0 then (-1, s)
          else
            match kernelAllocContiguousRegion s p size with
            | (none, s) => (-1, s)
            | (some (allocAddr, allocSize), s) =>
              match drawMany (slotCount + 1) s.host with
              | (false, h) =>
                let s := kernelReleaseContiguousRegion { s with host := h } allocAddr
                  (toInt (pageAlignSz size / pageSz))
                (-1, s.setPools p ((s.kcpooltbl p).set cachePoolId KcachePool.zero))
              | (true, h) =>
                let s := { s with host := h }
                (0, s.setPools p ((s.kcpooltbl p).set cachePoolId
                  { size := usableSize
                    align := align
                    slotCount := slotCount
                    storage := allocAddr
                    allocSize := allocSize
                    emptySlabs := [createCacheSlab allocAddr align slotCount]
                    partialSlabs := []
                    fullSlabs := [] }))

/-- Take a slot of the first partial slab, or else of the first empty one,
and move the slab to the list it now belongs to. -/
def takeSlot (pool : KcachePool) : Option (Nat × KcachePool) :=
  match pool.partialSlabs, pool.emptySlabs with
  | slab :: rest, _ =>
    match slab.freeList with
    | [] => none
    | slot :: slots =>
      let slab := { slab with freeList := slots, freeCount := slab.freeCount - 1 }
      if slab.freeCount = 0 then
        some (slot, { pool with partialSlabs := rest, fullSlabs := slab :: pool.fullSlabs })
      else some (slot, { pool with partialSlabs := slab :: rest })
  | [], slab :: rest =>
    match slab.freeList with
    | [] => none
    | slot :: slots =>
      let slab := { slab with freeList := slots, freeCount := slab.freeCount - 1 }
      if slab.freeCount = 0 then
        some (slot, { pool with emptySlabs := rest, fullSlabs := slab :: pool.fullSlabs })
      else some (slot, { pool with emptySlabs := rest, partialSlabs := [slab] })
  | [], [] => none

/-- `__kmem_cache_alloc`. The region of an object has the size of the whole
pool. -/
def kmemCacheAlloc (s : Sys) (p : Pid) (rgid cachePoolId : Nat) : Option Nat × Sys :=
  if maxSymtblSz ≤ cachePoolId ∨ maxSymtblSz ≤ rgid then (none, s)
  else
    match (s.kcpooltbl p)[cachePoolId]? with
    | none => (none, s)
    | some pool =>
      let rg := s.symrgtbl p rgid
      if pool.size = 0 ∨ rg.rgStart ≠ 0 ∨ rg.rgEnd ≠ 0 then (none, s)
      else
        match takeSlot pool with
        | none => (none, s)
        | some (slot, pool) =>
          let s := s.setPools p ((s.kcpooltbl p).set cachePoolId pool)
          (some slot, s.setSymrg p rgid ⟨slot, (slot + pool.size) % 2 ^ 64⟩)

/-- `libkmem_cache_alloc` -/
def libkmemCacheAlloc (s : Sys) (p : Pid) (reg cachePoolId : Nat) : Option (Int × Sys) :=
  if maxSymtblSz ≤ cachePoolId ∨ maxSymtblSz ≤ reg then some (-1, s)
  else returnAddr p reg (kmemCacheAlloc s p reg cachePoolId)

/-! ### Copies -/

/-- `kernel_translate_vaddr` -/
def kernelTranslateVaddr (s : Sys) (addr : Nat) : Option Nat :=
  let pte := kernelPte s addr
  if !pagePresent pte then none else some (pteFpn pte * pageSz + addr % 2 ^ 12)

/-- `kernel_region_valid` for one byte, and the address of that byte -/
def kernelAccess (s : Sys) (p : Pid) (rgid offset : Nat) : Option Nat :=
  let rg := s.symrgtbl p rgid
  if maxSymtblSz ≤ rgid ∨ rg.rgEnd ≤ rg.rgStart then none
  else if rg.rgEnd - rg.rgStart - 1 < offset then none
  else some ((rg.rgStart + offset) % 2 ^ 64)

/-- `__read_kernel_mem` -/
def readKernelMem (s : Sys) (p : Pid) (rgid offset : Nat) : Option Byte := do
  let vaddr ← kernelAccess s p rgid offset
  let phys ← kernelTranslateVaddr s vaddr
  memphyRead s .mram phys

/-- `__write_kernel_mem` -/
def writeKernelMem (s : Sys) (p : Pid) (rgid offset : Nat) (value : Byte) : Option Sys := do
  let vaddr ← kernelAccess s p rgid offset
  let phys ← kernelTranslateVaddr s vaddr
  memphyWrite s .mram phys value

/-- The loop of `libkmem_copy_from_user`; what was copied before an error
stays. -/
def copyFromUser (p : Pid) (source destination offset : Nat) : (left idx : Nat) → Sys → Int × Sys
  | 0, _, s => (0, s)
  | left + 1, idx, s =>
    match readUserMem s p source (toUint32 (offset + idx)) with
    | (none, s) => (-1, s)
    | (some data, s) =>
      match writeKernelMem s p destination (toUint32 (offset + idx)) data with
      | none => (-1, s)
      | some s => copyFromUser p source destination offset left (idx + 1) s

/-- `libkmem_copy_from_user` -/
def libkmemCopyFromUser (s : Sys) (p : Pid) (source destination offset size : Nat) : Int × Sys :=
  if maxSymtblSz ≤ source ∨ maxSymtblSz ≤ destination then (-1, s)
  else copyFromUser p source destination offset size 0 s

/-- The loop of `libkmem_copy_to_user`. -/
def copyToUser (p : Pid) (source destination offset : Nat) : (left idx : Nat) → Sys → Int × Sys
  | 0, _, s => (0, s)
  | left + 1, idx, s =>
    match readKernelMem s p source (toUint32 (offset + idx)) with
    | none => (-1, s)
    | some data =>
      match writeUserMem s p destination (toUint32 (offset + idx)) data with
      | (false, s) => (-1, s)
      | (true, s) => copyToUser p source destination offset left (idx + 1) s

/-- `libkmem_copy_to_user` -/
def libkmemCopyToUser (s : Sys) (p : Pid) (source destination offset size : Nat) : Int × Sys :=
  if maxSymtblSz ≤ source ∨ maxSymtblSz ≤ destination then (-1, s)
  else copyToUser p source destination offset size 0 s

end Ossim.Mem
