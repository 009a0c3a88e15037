import Ossim.Lib.Lock

/-!
The mutexes of the memory manager and the scheduler.

Every function below is the source function of that name with all but its
mutexes, its calls and its control flow taken away; a call that reaches no
mutex is left out. The order is `mmvm_lock` before `queue_lock` before the
lock of a device before the lock of the log, and a thread has at most one
device locked at a time: a page is copied byte by byte with one device
locked after the other.
-/

namespace Ossim.Locking

open Ossim.Lib Ossim.Lib.Code

inductive Lock
  /-- `mmvm_lock` of `libmem.c` -/
  | mmvm
  /-- `queue_lock` of `sched.c`, also behind `scheduler_lock` -/
  | queue
  /-- the lock of a memphy device -/
  | dev (d : Nat)
  /-- `log_lock` of `log.c` -/
  | log
  deriving DecidableEq

@[simp] def rank : Lock → Nat
  | .mmvm => 0
  | .queue => 1
  | .dev _ => 2
  | .log => 3

open Lock

variable {held : List Lock} {N R : List Lock → Prop}

/-- `os_log`, which is silent below the configured level -/
def osLog : Code Lock := call <| maybe ret >> acquire log >> release log

@[simp] theorem wp_osLog (h : Below rank 3 held) : wp rank osLog N R held ↔ N held := by
  simp [osLog, h]

/-! ### Devices -/

section Devices

variable (d d' : Nat)

/-- `MEMPHY_read` -/
def memphyRead : Code Lock := call <|
  maybe ret >>
  acquire (dev d) >>
  maybe (release (dev d) >> ret) >>
  -- "Sequential access device"
  maybe (release (dev d) >> ret) >>
  release (dev d)

/-- `MEMPHY_write` -/
def memphyWrite : Code Lock := call <|
  maybe ret >>
  acquire (dev d) >>
  maybe (release (dev d) >> ret) >>
  maybe (release (dev d) >> ret) >>
  release (dev d)

/-- `MEMPHY_get_freefp` -/
def memphyGetFreefp : Code Lock := call <|
  maybe ret >>
  acquire (dev d) >>
  maybe (release (dev d) >> ret) >>
  release (dev d)

/-- `MEMPHY_put_freefp` -/
def memphyPutFreefp : Code Lock := call <|
  maybe ret >>
  maybe ret >>
  acquire (dev d) >>
  release (dev d)

/-- `__swap_cp_page` -/
def swapCpPage : Code Lock := call <| loop <|
  memphyRead d >> maybe ret >>
  memphyWrite d' >> maybe ret

/-- `trace_dump_memphy` -/
def traceDumpMemphy : Code Lock := call <|
  maybe ret >> acquire (dev d) >> release (dev d)

/-- `trace_dump_state` -/
def traceDumpState : Code Lock := call <|
  maybe ret >> traceDumpMemphy d >> traceDumpMemphy d'

/-- `release_frame_list` -/
def releaseFrameList : Code Lock := call <| loop <| maybe (memphyPutFreefp d)

variable {d d'} (h : Below rank 2 held)
include h

@[simp] theorem wp_memphyRead : wp rank (memphyRead d) N R held ↔ N held := by
  simp [memphyRead, h]

@[simp] theorem wp_memphyWrite : wp rank (memphyWrite d) N R held ↔ N held := by
  simp [memphyWrite, h]

@[simp] theorem wp_memphyGetFreefp : wp rank (memphyGetFreefp d) N R held ↔ N held := by
  simp [memphyGetFreefp, h]

@[simp] theorem wp_memphyPutFreefp : wp rank (memphyPutFreefp d) N R held ↔ N held := by
  simp [memphyPutFreefp, h]

@[simp] theorem wp_swapCpPage : wp rank (swapCpPage d d') N R held ↔ N held := by
  simp [swapCpPage, h]

@[simp] theorem wp_traceDumpState : wp rank (traceDumpState d d') N R held ↔ N held := by
  simp [traceDumpState, traceDumpMemphy, h]

@[simp] theorem wp_releaseFrameList : wp rank (releaseFrameList d) N R held ↔ N held := by
  simp [releaseFrameList, h]

end Devices

/-! ### The scheduler -/

/-- `find_proc` -/
def findProc : Code Lock := call <|
  acquire queue >>
  loop (maybe (release queue >> ret)) >>
  release queue

/-- `get_mlq_proc`, behind `get_proc` -/
def getMlqProc : Code Lock := call <| acquire queue >> release queue

/-- `scheduler_enqueue_failed` -/
def schedulerEnqueueFailed : Code Lock := call exit

/-- `put_mlq_proc`, behind `put_proc` -/
def putMlqProc : Code Lock := call <|
  maybe ret >>
  maybe exit >>
  acquire queue >>
  maybe (release queue >> schedulerEnqueueFailed) >>
  release queue

/-- `add_mlq_proc`, behind `add_proc` -/
def addMlqProc : Code Lock := call <|
  maybe ret >>
  maybe exit >>
  acquire queue >>
  maybe (release queue >> schedulerEnqueueFailed) >>
  maybe (release queue >> schedulerEnqueueFailed) >>
  release queue

/-- `finish_proc` -/
def finishProc : Code Lock := call <| acquire queue >> release queue

@[simp] theorem wp_findProc (h : Below rank 1 held) : wp rank findProc N R held ↔ N held := by
  simp [findProc, h]

/-! ### Paging -/

section Paging

variable (mram mswp : Nat)

/-- `swap_out_victim_page` -/
def swapOutVictimPage : Code Lock := call <|
  maybe ret >>
  memphyGetFreefp mswp >> maybe ret >>
  acquire queue >>
  -- no victim
  maybe (release queue >> memphyPutFreefp mswp >> ret) >>
  swapCpPage mram mswp >> maybe (release queue >> memphyPutFreefp mswp >> ret) >>
  -- `pte_set_swap` failed
  maybe (release queue >> memphyPutFreefp mswp >> ret) >>
  release queue

/-- `pg_getpage` -/
def pgGetpage : Code Lock := call <|
  maybe (maybe ret >>
    swapOutVictimPage mram mswp >> maybe ret >>
    swapCpPage mswp mram >> maybe ret >>
    memphyPutFreefp mswp)

/-- `pg_getval` -/
def pgGetval : Code Lock := call <|
  pgGetpage mram mswp >> maybe ret >> memphyRead mram >> maybe ret

/-- `pg_setval` -/
def pgSetval : Code Lock := call <|
  pgGetpage mram mswp >> maybe ret >> memphyWrite mram >> maybe ret

/-- `alloc_pages_range` -/
def allocPagesRange : Code Lock := call <|
  maybe ret >>
  loop (
    -- the victim is asked for only when the free list is empty
    memphyGetFreefp mram >>
    maybe (swapOutVictimPage mram mswp >> maybe (releaseFrameList mram >> ret)) >>
    maybe (memphyPutFreefp mram >> releaseFrameList mram >> ret))

/-- `vmap_page_range` -/
def vmapPageRange : Code Lock := call <|
  maybe (releaseFrameList mram >> ret) >>
  loop (maybe (releaseFrameList mram >> ret)) >>
  loop (maybe (releaseFrameList mram >> ret) >>
    maybe (memphyPutFreefp mram >> releaseFrameList mram >> ret))

/-- `vm_map_ram` -/
def vmMapRam : Code Lock := call <|
  allocPagesRange mram mswp >> maybe ret >> maybe ret >> vmapPageRange mram >> maybe ret

/-- `inc_vma_limit` -/
def incVmaLimit : Code Lock := call <|
  maybe ret >> maybe ret >> maybe ret >> vmMapRam mram mswp >> maybe ret

/-- `__mm_swap_page` -/
def mmSwapPage : Code Lock := call <| maybe ret >> swapCpPage mram mswp

/-- `__sys_memmap` -/
def sysMemmap : Code Lock := call <|
  findProc >>
  maybe (osLog >> ret) >>
  osLog >>
  -- `SYSMEM_MAP_OP`
  alt (maybe ret) (
  -- `SYSMEM_INC_OP`
  alt (incVmaLimit mram mswp) (
  -- `SYSMEM_SWP_OP`
  alt (mmSwapPage mram mswp) (
  -- `SYSMEM_IO_READ`
  alt (maybe (osLog >> ret) >> maybe (osLog >> ret) >>
    pgGetval mram mswp >> maybe (osLog >> ret)) (
  -- `SYSMEM_IO_WRITE`
  alt (maybe (osLog >> ret) >> maybe (osLog >> ret) >>
    pgSetval mram mswp >> maybe (osLog >> ret))
  -- `default`
  (osLog >> ret))))) >>
  maybe (osLog >> ret)

/-- `_syscall` with the number of `sys_memmap` -/
def syscall : Code Lock := call <| osLog >> sysMemmap mram mswp >> osLog

variable {mram mswp} (h : Below rank 1 held)
include h

@[simp] theorem wp_swapOutVictimPage :
    wp rank (swapOutVictimPage mram mswp) N R held ↔ N held := by
  simp [swapOutVictimPage, h, h.mono]

@[simp] theorem wp_pgGetval : wp rank (pgGetval mram mswp) N R held ↔ N held := by
  simp [pgGetval, pgGetpage, h, h.mono]

@[simp] theorem wp_pgSetval : wp rank (pgSetval mram mswp) N R held ↔ N held := by
  simp [pgSetval, pgGetpage, h, h.mono]

@[simp] theorem wp_allocPagesRange : wp rank (allocPagesRange mram mswp) N R held ↔ N held := by
  simp [allocPagesRange, h, h.mono]

@[simp] theorem wp_vmapPageRange : wp rank (vmapPageRange mram) N R held ↔ N held := by
  simp [vmapPageRange, h.mono]

@[simp] theorem wp_incVmaLimit : wp rank (incVmaLimit mram mswp) N R held ↔ N held := by
  simp [incVmaLimit, vmMapRam, h]

@[simp] theorem wp_sysMemmap : wp rank (sysMemmap mram mswp) N R held ↔ N held := by
  simp [sysMemmap, mmSwapPage, h, h.mono]

@[simp] theorem wp_syscall : wp rank (syscall mram mswp) N R held ↔ N held := by
  simp [syscall, h, h.mono]

end Paging

/-! ### Kernel regions -/

section Kernel

variable (mram mswp : Nat)

/-- `kernel_allocate_contiguous_frames` -/
def kernelAllocateContiguousFrames : Code Lock := call <|
  maybe ret >>
  maybe ret >>
  acquire (dev mram) >>
  maybe (release (dev mram) >> ret) >>
  maybe (release (dev mram) >> ret) >>
  maybe (release (dev mram) >> ret) >>
  release (dev mram)

/-- `kernel_release_contiguous_region` -/
def kernelReleaseContiguousRegion : Code Lock := call <|
  maybe ret >> acquire (dev mram) >> release (dev mram)

/-- `kernel_alloc_contiguous_region` -/
def kernelAllocContiguousRegion : Code Lock := call <|
  maybe ret >>
  kernelAllocateContiguousFrames mram >> maybe ret >>
  loop (maybe (kernelReleaseContiguousRegion mram >> ret))

/-- `__read_kernel_mem` -/
def readKernelMem : Code Lock := call <| maybe ret >> maybe ret >> memphyRead mram

/-- `__write_kernel_mem` -/
def writeKernelMem : Code Lock := call <| maybe ret >> maybe ret >> memphyWrite mram

/-- `__read_user_mem` -/
def readUserMem : Code Lock := call <|
  maybe ret >> maybe ret >> maybe ret >> maybe ret >> pgGetval mram mswp

/-- `__write_user_mem` -/
def writeUserMem : Code Lock := call <|
  maybe ret >> maybe ret >> maybe ret >> maybe ret >> pgSetval mram mswp

/-- `release_kernel_cache_pools` -/
def releaseKernelCachePools : Code Lock := call <|
  maybe ret >> maybe ret >> loop (maybe (kernelReleaseContiguousRegion mram))

/-- `release_kernel_symrg_allocations` -/
def releaseKernelSymrgAllocations : Code Lock := call <|
  maybe ret >> loop (maybe (kernelReleaseContiguousRegion mram))

/-- `pcb_memph_collect_recursive`, with the levels below the table -/
def pcbMemphCollectRecursive : Nat → Code Lock
  | 0 => call <| maybe ret >> loop (alt (memphyPutFreefp mram) (maybe (memphyPutFreefp mswp)))
  | levels + 1 => call <| maybe ret >> loop (maybe (pcbMemphCollectRecursive levels))

variable {mram mswp}

section

variable (h : Below rank 2 held)
include h

@[simp] theorem wp_kernelReleaseContiguousRegion :
    wp rank (kernelReleaseContiguousRegion mram) N R held ↔ N held := by
  simp [kernelReleaseContiguousRegion, h]

@[simp] theorem wp_kernelAllocContiguousRegion :
    wp rank (kernelAllocContiguousRegion mram) N R held ↔ N held := by
  simp [kernelAllocContiguousRegion, kernelAllocateContiguousFrames, h]

@[simp] theorem wp_readKernelMem : wp rank (readKernelMem mram) N R held ↔ N held := by
  simp [readKernelMem, h]

@[simp] theorem wp_writeKernelMem : wp rank (writeKernelMem mram) N R held ↔ N held := by
  simp [writeKernelMem, h]

@[simp] theorem wp_pcbMemphCollectRecursive (levels : Nat) :
    wp rank (pcbMemphCollectRecursive mram mswp levels) N R held ↔ N held := by
  induction levels generalizing N R with
  | zero => simp [pcbMemphCollectRecursive, h]
  | succ levels ih => simp [pcbMemphCollectRecursive, ih]

end

@[simp] theorem wp_readUserMem (h : Below rank 1 held) :
    wp rank (readUserMem mram mswp) N R held ↔ N held := by
  simp [readUserMem, h]

@[simp] theorem wp_writeUserMem (h : Below rank 1 held) :
    wp rank (writeUserMem mram mswp) N R held ↔ N held := by
  simp [writeUserMem, h]

end Kernel

/-! ### The calls of a thread -/

section Calls

variable (mram mswp : Nat)

/-- `__alloc` -/
def alloc : Code Lock := call <|
  maybe ret >>
  acquire mmvm >>
  maybe (release mmvm >> ret) >>
  maybe (release mmvm >> ret) >>
  -- "Fast path: find a free region in the existing free list"
  maybe (release mmvm >> ret) >>
  -- "Unlock before the syscall"
  release mmvm >>
  syscall mram mswp >>
  acquire mmvm >>
  maybe (release mmvm >> ret) >>
  maybe (release mmvm >> ret) >>
  release mmvm

/-- `__free` -/
def free : Code Lock := call <|
  maybe ret >>
  acquire mmvm >>
  maybe (release mmvm >> ret) >>
  maybe (release mmvm >> ret) >>
  maybe (release mmvm >> ret) >>
  maybe (release mmvm >> ret) >>
  release mmvm

/-- `__read` -/
def read : Code Lock := call <|
  acquire mmvm >>
  maybe (release mmvm >> osLog >> ret) >>
  maybe (release mmvm >> osLog >> ret) >>
  maybe (release mmvm >> osLog >> ret) >>
  pgGetval mram mswp >>
  release mmvm

/-- `__write`, where the first check fails silently -/
def write : Code Lock := call <|
  acquire mmvm >>
  maybe (release mmvm >> ret) >>
  maybe (release mmvm >> osLog >> ret) >>
  maybe (release mmvm >> osLog >> ret) >>
  pgSetval mram mswp >>
  release mmvm

/-- `__kmalloc` -/
def kmalloc : Code Lock := call <|
  maybe ret >> maybe ret >> maybe ret >>
  acquire mmvm >>
  kernelAllocContiguousRegion mram >> maybe (release mmvm >> ret) >>
  release mmvm

/-- `libkmem_cache_pool_create` -/
def libkmemCachePoolCreate : Code Lock := call <|
  maybe ret >> maybe ret >> maybe ret >> maybe ret >>
  acquire mmvm >>
  -- the table is allocated, or grown, or large enough
  alt (maybe (release mmvm >> ret)) (maybe (maybe (release mmvm >> ret))) >>
  maybe (release mmvm >> ret) >>
  kernelAllocContiguousRegion mram >> maybe (release mmvm >> ret) >>
  maybe (kernelReleaseContiguousRegion mram >> release mmvm >> ret) >>
  release mmvm >>
  traceDumpState mram mswp

/-- `__kmem_cache_alloc` -/
def kmemCacheAlloc : Code Lock := call <|
  maybe ret >> maybe ret >>
  acquire mmvm >>
  maybe (release mmvm >> ret) >>
  maybe (release mmvm >> ret) >>
  maybe (release mmvm >> ret) >>
  maybe (release mmvm >> ret) >>
  release mmvm

/-- `libkmem_copy_from_user` -/
def libkmemCopyFromUser : Code Lock := call <|
  maybe ret >> maybe ret >> maybe ret >>
  acquire mmvm >>
  loop (readUserMem mram mswp >> maybe (release mmvm >> ret) >>
    writeKernelMem mram >> maybe (release mmvm >> ret)) >>
  release mmvm >>
  traceDumpState mram mswp

/-- `libkmem_copy_to_user` -/
def libkmemCopyToUser : Code Lock := call <|
  maybe ret >> maybe ret >> maybe ret >>
  acquire mmvm >>
  loop (readKernelMem mram >> maybe (release mmvm >> ret) >>
    writeUserMem mram mswp >> maybe (release mmvm >> ret)) >>
  release mmvm >>
  traceDumpState mram mswp

/-- `free_pcb_memph`; the page directory is four levels above the leaves -/
def freePcbMemph : Code Lock := call <|
  acquire mmvm >>
  releaseKernelCachePools mram >>
  releaseKernelSymrgAllocations mram >>
  maybe (pcbMemphCollectRecursive mram mswp 4) >>
  release mmvm

/-- The functions that a thread calls without holding a mutex. -/
def entryPoints : List (Code Lock) :=
  [alloc mram mswp, free, read mram mswp, write mram mswp, kmalloc mram,
    libkmemCachePoolCreate mram mswp, kmemCacheAlloc, libkmemCopyFromUser mram mswp,
    libkmemCopyToUser mram mswp, sysMemmap mram mswp, freePcbMemph mram mswp, addMlqProc,
    putMlqProc,
    getMlqProc, findProc, finishProc]

/-- Each of them respects the lock order and holds nothing where it is left. -/
theorem wp_entryPoints : ∀ f ∈ entryPoints mram mswp, wp rank f (· = []) (· = []) [] := by
  simp [entryPoints, alloc, free, read, write, kmalloc, libkmemCachePoolCreate, kmemCacheAlloc,
    libkmemCopyFromUser, libkmemCopyToUser, freePcbMemph, releaseKernelCachePools,
    releaseKernelSymrgAllocations, addMlqProc, putMlqProc, schedulerEnqueueFailed, getMlqProc,
    finishProc]

end Calls

/-- A path of one of the calls, on any two devices. -/
def CallPath (ops : List (LockOp Lock)) : Prop :=
  ∃ mram mswp, ∃ f ∈ entryPoints mram mswp, ∃ o, Path f ops o

/-- Any number of threads run the calls in any interleaving. No thread
requests a mutex it holds or releases one it does not hold, none holds a
mutex when a call has returned, and there is no cycle of threads that wait
for each other. -/
theorem locking_deadlock_free {T : Type*} [DecidableEq T] {ts : List T} {s : Threads T Lock}
    (hrun : Run (Threads.Step CallPath) Threads.idle ts s) :
    (∀ t l, s.Requests t l → l ∉ s.held t) ∧ (∀ t, s.todo t = [] → s.held t = []) ∧
      (∀ t l ops, s.todo t = .release l :: ops → l ∈ s.held t) ∧
      ∀ t, ¬Relation.TransGen s.WaitsFor t t := by
  refine Threads.deadlock_free (fun ops hops => (?_ : Obeys rank [] ops (· = []))) hrun
  obtain ⟨mram, mswp, f, hf, o, hpath⟩ := hops
  exact obeys_of_wp_nil hpath (wp_entryPoints mram mswp f hf)

/-- Thread 0 is in `finish_proc` with the queue locked, and thread 1 waits for
it. -/
theorem finishProc_waits : ∃ s : Threads Nat Lock,
    Run (Threads.Step CallPath) Threads.idle [0, 0, 1] s ∧ s.WaitsFor 1 0 := by
  have hpath : Path finishProc [.acquire .queue, .release .queue] .next :=
    .call (.seq (.acquire _) (.release _)) (by decide)
  have hcall : CallPath [.acquire .queue, .release .queue] :=
    ⟨0, 1, finishProc, by simp [entryPoints], .next, hpath⟩
  refine ⟨_, .cons (.start rfl hcall) (.cons (.acquire (l := .queue) rfl ?_)
    (.cons (.start rfl hcall) (.nil _))), .queue, ⟨_, rfl⟩, ?_⟩
  · exact fun u hu => nomatch hu
  · exact List.mem_cons_self

theorem locking_deadlock_free_finishProc : ∃ s : Threads Nat Lock,
    Run (Threads.Step CallPath) Threads.idle [0, 0, 1] s ∧ s.WaitsFor 1 0 ∧
      ¬Relation.TransGen s.WaitsFor 1 1 := by
  obtain ⟨s, hrun, hwaits⟩ := finishProc_waits
  exact ⟨s, hrun, hwaits, (locking_deadlock_free hrun).2.2.2 1⟩

end Ossim.Locking
