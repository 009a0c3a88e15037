import Ossim.Mem.PageTable

/-!
Eviction, frame allocation and mapping: the middle of `mm64.c`.

When the free list of the RAM is empty a page is evicted: the oldest
present page of the caller, or else of the first other process that has
one. Victims are taken from the tail of the page list of a process, and
what is found there without a present entry is dropped on the way.

`alloc_pages_range`, `vmap_page_range` and `vm_map_ram` return an `addr_t`,
so their error codes are the words `-1` and `-3000`, and are kept as such.
-/

namespace Ossim.Mem

/-- `(addr_t)-1` -/
def errFail : Nat := 2 ^ 64 - 1

/-- `(addr_t)-3000` -/
def errNoMem : Nat := 2 ^ 64 - 3000

/-! ### Victims -/

/-- `find_victim_page`: detach the tail of the page list. -/
def findVictimPage (s : Sys) (p : Pid) : Option (Nat × Sys) :=
  match (s.fifoPgn p).getLast? with
  | none => none
  | some pgn =>
    some (pgn, { s with fifoPgn := Function.update s.fifoPgn p (s.fifoPgn p).dropLast })

/-- The loop of `find_present_victim_in_proc`; each round shortens the
page list. -/
def findPresentVictim (p : Pid) : Nat → Sys → Option (Nat × Nat) × Sys
  | 0, s => (none, s)
  | n + 1, s =>
    match findVictimPage s p with
    | none => (none, s)
    | some (vicpgn, s) =>
      let vicpte := pteGetEntry s p vicpgn
      if pagePresent vicpte && !pageSwapped vicpte then (some (vicpgn, vicpte), s)
      else findPresentVictim p n s

/-- `find_present_victim_in_proc` -/
def findPresentVictimInProc (s : Sys) (p : Pid) : Option (Nat × Nat) × Sys :=
  findPresentVictim p (s.fifoPgn p).length s

/-- The loop of `find_global_victim` over the running list. -/
def findVictimAmong (caller : Pid) : List Pid → Sys → Option (Pid × Nat × Nat) × Sys
  | [], s => (none, s)
  | q :: qs, s =>
    if q = caller then findVictimAmong caller qs s
    else
      match findPresentVictimInProc s q with
      | (some vic, s) => (some (q, vic), s)
      | (none, s) => findVictimAmong caller qs s

/-- `find_global_victim` -/
def findGlobalVictim (s : Sys) (caller : Pid) : Option (Pid × Nat × Nat) × Sys :=
  match findPresentVictimInProc s caller with
  | (some vic, s) => (some (caller, vic), s)
  | (none, s) => findVictimAmong caller s.runningList s

/-- `swap_out_victim_page`: the frame it frees -/
def swapOutVictimPage (s : Sys) (caller : Pid) : Option Nat × Sys :=
  match memphyGetFreefp s .mswp with
  | none => (none, s)
  | some (swpfpn, s) =>
    match findGlobalVictim s caller with
    | (none, s) => (none, memphyPutFreefp s .mswp swpfpn)
    | (some (victim, vicpgn, vicpte), s) =>
      match swapCpPage s .mram (pteFpn vicpte) .mswp swpfpn with
      | (false, s) => (none, memphyPutFreefp s .mswp swpfpn)
      | (true, s) =>
        match pteSetSwap s victim vicpgn activeMswpId swpfpn with
        | (false, s) => (none, memphyPutFreefp s .mswp swpfpn)
        | (true, s) => (some (pteFpn vicpte), s)

/-! ### Allocating frames -/

/-- `release_frame_list` -/
def releaseFrameList (s : Sys) (frames : List Nat) : Sys :=
  frames.foldl (fun s fpn => memphyPutFreefp s .mram fpn) s

/-- One frame for `alloc_pages_range`: free, or freed by an eviction. -/
def getFrame (s : Sys) (caller : Pid) : Option Nat × Sys :=
  match memphyGetFreefp s .mram with
  | some (fpn, s) => (some fpn, s)
  | none => swapOutVictimPage s caller

/-- The loop of `alloc_pages_range`, with the frames obtained so far. -/
def allocPages (caller : Pid) : Nat → List Nat → Sys → Nat × List Nat × Sys
  | 0, frames, s => (0, frames, s)
  | n + 1, frames, s =>
    match getFrame s caller with
    | (none, s) => (errNoMem, [], releaseFrameList s frames)
    | (some fpn, s) =>
      match draw s.host with
      | (false, h) =>
        (errFail, [], releaseFrameList (memphyPutFreefp { s with host := h } .mram fpn) frames)
      | (true, h) => allocPages caller n (frames ++ [fpn]) { s with host := h }

/-- `alloc_pages_range`: return code and frame list -/
def allocPagesRange (s : Sys) (caller : Pid) (reqPgnum : Int) : Nat × List Nat × Sys :=
  if reqPgnum < 0 then (errFail, [], s)
  else allocPages caller reqPgnum.toNat [] s

/-! ### Mapping -/

/-- `enlist_pgn_node` -/
def enlistPgnNode (s : Sys) (p : Pid) (pgn : Nat) : Bool × Sys :=
  match draw s.host with
  | (true, h) =>
    (true, { s with host := h, fifoPgn := Function.update s.fifoPgn p (pgn :: s.fifoPgn p) })
  | (false, h) => (false, { s with host := h })

/-- The first loop of `vmap_page_range`: create the tables of all pages. -/
def walkPages (p : Pid) (pgn : Nat) : (left pgit : Nat) → Sys → Bool × Sys
  | 0, _, s => (true, s)
  | left + 1, pgit, s =>
    match walkPte s p (pgnAddr (pgn + pgit)) with
    | (false, s) => (false, s)
    | (true, s) => walkPages p pgn left (pgit + 1) s

/-- The second loop of `vmap_page_range`: map the frames, as far as they
reach. Returns the code and the number of pages mapped. -/
def mapFrames (p : Pid) (pgn : Nat) : (left pgit : Nat) → List Nat → Sys → Nat × Nat × Sys
  | 0, pgit, _, s => (0, pgit, s)
  | _ + 1, pgit, [], s => (0, pgit, s)
  | left + 1, pgit, fpn :: next, s =>
    match pteSetFpn s p (pgn + pgit) fpn with
    | (false, s) => (errFail, pgit, releaseFrameList s (fpn :: next))
    | (true, s) =>
      match enlistPgnNode s p (pgn + pgit) with
      | (false, s) =>
        let s := (pteSetEntry s p (pgn + pgit) 0).2
        let s := memphyPutFreefp s .mram fpn
        (errFail, pgit, releaseFrameList s next)
      | (true, s) => mapFrames p pgn left (pgit + 1) next s

/-- `vmap_page_range`: return code and mapped region. A refused range
leaves `ret_rg` as it was. -/
def vmapPageRange (s : Sys) (p : Pid) (addr : Nat) (pgnum : Int) (frames : List Nat)
    (retRg : VmRg) : Nat × VmRg × Sys :=
  let pgn := addr / 2 ^ 12
  if validatePageRange addr pgnum ≠ 0 then (errFail, retRg, releaseFrameList s frames)
  else
    match walkPages p pgn pgnum.toNat 0 s with
    | (false, s) => (errFail, ⟨addr, addr⟩, releaseFrameList s frames)
    | (true, s) =>
      let r := mapFrames p pgn pgnum.toNat 0 frames s
      (r.1, ⟨addr, (addr + r.2.1 * pageSz) % 2 ^ 64⟩, r.2.2)

/-- `vm_map_ram`. The test `ret_alloc < 0` is false of every word. -/
def vmMapRam (s : Sys) (p : Pid) (mapstart : Nat) (incpgnum : Int) (retRg : VmRg) :
    Nat × VmRg × Sys :=
  match allocPagesRange s p incpgnum with
  | (retAlloc, frames, s) =>
    if retAlloc < 0 ∧ retAlloc ≠ errNoMem then (errFail, retRg, s)
    else if retAlloc = errNoMem then (errFail, retRg, s)
    else
      match vmapPageRange s p mapstart incpgnum frames retRg with
      | (ret, retRg, s) => if ret = errFail then (errFail, retRg, s) else (0, retRg, s)

/-- The loop of `vmap_pgd_memset`. -/
def memsetPages (p : Pid) (pgn : Nat) : (left pgit : Nat) → Sys → Int × Sys
  | 0, _, s => (0, s)
  | left + 1, pgit, s =>
    match pteSetEntry s p (pgn + pgit) dummyPte with
    | (false, s) => (-1, s)
    | (true, s) => memsetPages p pgn left (pgit + 1) s

/-- `vmap_pgd_memset` -/
def vmapPgdMemset (s : Sys) (p : Pid) (addr : Nat) (pgnum : Int) : Int × Sys :=
  if validatePageRange addr pgnum ≠ 0 then (-1, s)
  else memsetPages p (addr / 2 ^ 12) pgnum.toNat 0 s

end Ossim.Mem
