import Ossim.Mem.Kernel

/-!
Process exit: `free_pcb_memph` of `libmem.c`.

The sweep returns the frames of the cache pools, then those of the kernel
regions that are still in the symbol table, and last what the user page
table maps. The page ranges of the first two are derived from pool sizes
and region bounds, not from the owners of the frames.
-/

namespace Ossim.Mem

open Ossim.Lib

/-- `is_kernel_vaddr_range` -/
def isKernelVaddrRange (start stop : Nat) : Bool := kmemVaddrBase ≤ start && start < stop

/-- One round of `clear_symrg_range`. -/
def clearSymrg (p : Pid) (start stop : Nat) (s : Sys) (idx : Nat) : Sys :=
  let rg := s.symrgtbl p idx
  if start ≤ rg.rgStart ∧ rg.rgEnd ≤ stop then s.setSymrg p idx ⟨0, 0⟩ else s

/-- `clear_symrg_range` -/
def clearSymrgRange (s : Sys) (p : Pid) (start stop : Nat) : Sys :=
  if !isKernelVaddrRange start stop then s
  else (List.range maxSymtblSz).foldl (clearSymrg p start stop) s

/-- One round of `release_kernel_cache_pools`. -/
def releasePool (p : Pid) (s : Sys) (pool : KcachePool) : Sys :=
  if pool.size = 0 ∨ pool.storage = 0 then s
  else
    let releaseSize := if pool.allocSize = 0 then pageAlignSz pool.size else pool.allocSize
    if releaseSize = 0 then s
    else
      let storageEnd := (pool.storage + releaseSize) % 2 ^ 64
      let s := kernelReleaseContiguousRegion s pool.storage (toInt (releaseSize / pageSz))
      clearSymrgRange s p pool.storage storageEnd

/-- `release_kernel_cache_pools` -/
def releaseKernelCachePools (s : Sys) (p : Pid) : Sys :=
  ((s.kcpooltbl p).foldl (releasePool p) s).setPools p []

/-- One round of `release_kernel_symrg_allocations`. -/
def releaseSymrg (p : Pid) (s : Sys) (idx : Nat) : Sys :=
  let rg := s.symrgtbl p idx
  if !isKernelVaddrRange rg.rgStart rg.rgEnd then s
  else
    let pgnum := toInt (pageAlignSz (rg.rgEnd - rg.rgStart) / pageSz)
    if pgnum ≤ 0 then s
    else (kernelReleaseContiguousRegion s rg.rgStart pgnum).setSymrg p idx ⟨0, 0⟩

/-- `release_kernel_symrg_allocations` -/
def releaseKernelSymrgAllocations (s : Sys) (p : Pid) : Sys :=
  (List.range maxSymtblSz).foldl (releaseSymrg p) s

/-- The leaf case of `pcb_memph_collect_recursive`. -/
def collectPte (s : Sys) (pte : Nat) : Sys :=
  if pagePresent pte && !pageSwapped pte then memphyPutFreefp s .mram (pteFpn pte)
  else if pageSwapped pte then memphyPutFreefp s .mswp (pteSwp pte)
  else s

/-- `pcb_memph_collect_recursive` visits the leaves in depth-first order. -/
def pcbMemphCollect (s : Sys) (table : PageTable) : Sys := table.entries.foldl collectPte s

/-- `free_pcb_memph` -/
def freePcbMemph (s : Sys) (p : Pid) : Sys :=
  let s := releaseKernelCachePools s p
  let s := releaseKernelSymrgAllocations s p
  let s := pcbMemphCollect s (s.pgd p)
  { s with fifoPgn := Function.update s.fifoPgn p [] }

/-- `finish_proc` and `free_pcb_all` -/
def exitProc (s : Sys) (p : Pid) : Sys :=
  freePcbMemph { s with runningList := s.runningList.erase p } p

end Ossim.Mem
