import Ossim.Mem.Swap

/-!
Areas and regions: `mm-vm.c` and the allocator of `libmem.c`.

`ALLOC` takes a region from the free list of the area, first fit; if none
fits, the area grows by whole pages and the list is searched again. `FREE`
puts the region back, merged with its neighbours.

Two things a reader of the code has to know are visible in the types.
`inc_vma_limit` hands a freshly allocated, uninitialised region node to
`vm_map_ram`, which fills it in only on success: its first contents are the
argument `junk`. And `get_vma_by_num` dereferences a null pointer for an
area number past the last one: a result `none` of the functions that call
it means that the simulator has crashed.
-/

namespace Ossim.Mem

/-! ### The free list -/

/-- The end of `enlist_vm_rg_node`: merge the node with the one after it. -/
def mergeNext (rg : VmRg) : List VmRg → VmRg × List VmRg
  | [] => (rg, [])
  | curr :: rest =>
    if rg.rgEnd = curr.rgStart then (⟨rg.rgStart, curr.rgEnd⟩, rest) else (rg, curr :: rest)

/-- The walk of `enlist_vm_rg_node`, after a node `prev` that starts before
the new one. -/
def insertAfter (prev rg : VmRg) : List VmRg → List VmRg
  | curr :: rest =>
    if curr.rgStart < rg.rgStart then prev :: insertAfter curr rg rest
    else
      let r := mergeNext rg (curr :: rest)
      if prev.rgEnd = r.1.rgStart then ⟨prev.rgStart, r.1.rgEnd⟩ :: r.2 else prev :: r.1 :: r.2
  | [] => if prev.rgEnd = rg.rgStart then [⟨prev.rgStart, rg.rgEnd⟩] else [prev, rg]

/-- `enlist_vm_rg_node`. An empty region is refused. -/
def enlistVmRgNode (rglist : List VmRg) (rg : VmRg) : List VmRg :=
  if rg.rgEnd ≤ rg.rgStart then rglist
  else
    match rglist with
    | [] => [rg]
    | curr :: rest =>
      if curr.rgStart < rg.rgStart then insertAfter curr rg rest
      else
        let r := mergeNext rg (curr :: rest)
        r.1 :: r.2

/-- The search of `get_free_vmrg_area`: the region taken and the list left.
A used up node becomes a copy of the next one, or an empty node at the end
of the list. -/
def takeFree (size : Nat) : List VmRg → Option (VmRg × List VmRg)
  | [] => none
  | rg :: rest =>
    let stop := (rg.rgStart + size) % 2 ^ 64
    if stop ≤ rg.rgEnd then
      some (⟨rg.rgStart, stop⟩,
        if stop < rg.rgEnd then ⟨stop, rg.rgEnd⟩ :: rest
        else if rest = [] then [⟨rg.rgEnd, rg.rgEnd⟩]
        else rest)
    else (takeFree size rest).map fun r => (r.1, rg :: r.2)

def Sys.setMmap (s : Sys) (p : Pid) (vma : VmArea) : Sys :=
  { s with mmap := Function.update s.mmap p vma }

@[simp] theorem Sys.mmap_setMmap (s : Sys) (p : Pid) (vma : VmArea) :
    (s.setMmap p vma).mmap p = vma := Function.update_self ..

theorem Sys.mmap_setMmap_of_ne (s : Sys) {p q : Pid} (h : q ≠ p) (vma : VmArea) :
    (s.setMmap p vma).mmap q = s.mmap q := Function.update_of_ne h ..

/-- `get_free_vmrg_area`. `size` is an `int`; a region that starts at the
word `-1` counts as not found. -/
def getFreeVmrgArea (s : Sys) (p : Pid) (size : Int) : Option VmRg × Sys :=
  match takeFree (ofInt size) (s.mmap p).vmFreergList with
  | none => (none, s)
  | some (rg, rest) =>
    let s := s.setMmap p { s.mmap p with vmFreergList := rest }
    if rg.rgStart = errFail then (none, s) else (some rg, s)

/-- A search of the free list changes the free list. -/
theorem getFreeVmrgArea_eq (s : Sys) (p : Pid) (size : Int) :
    ∃ l, (getFreeVmrgArea s p size).2 = s.setMmap p { s.mmap p with vmFreergList := l } := by
  rw [getFreeVmrgArea]
  split
  · refine ⟨(s.mmap p).vmFreergList, ?_⟩
    simp only [Sys.setMmap, Function.update_eq_self]
  · dsimp only
    split <;> exact ⟨_, rfl⟩

/-! ### Growth -/

/-- `get_vma_by_num` finds the only area for every number up to zero. -/
def vmaFound (vmaid : Int) : Bool := vmaid ≤ 0

/-- `validate_overlap_vm_area`. There is no other area to overlap with. -/
def validateOverlapVmArea (vmastart vmaend : Nat) : Int :=
  if vmaend ≤ vmastart then -1 else 0

/-- `inc_vma_limit` -/
def incVmaLimit (s : Sys) (p : Pid) (vmaid : Int) (incSz : Nat) (junk : VmRg) :
    Option (Int × Sys) :=
  match draw s.host with
  | (false, h) => some (-1, { s with host := h })
  | (true, h) =>
    let s := { s with host := h }
    let incAmt := pageAlignSz incSz
    let incnumpage := toInt (incAmt / pageSz)
    if !vmaFound vmaid then none
    else
      let oldEnd := (s.mmap p).sbrk
      let newEnd := (oldEnd + incAmt) % 2 ^ 64
      if validateOverlapVmArea oldEnd newEnd < 0 then some (-1, s)
      else
        let s := s.setMmap p { s.mmap p with vmEnd := newEnd, sbrk := newEnd }
        match vmMapRam s p oldEnd incnumpage junk with
        | (ret, newrg, s) =>
          if ret < 0 then
            some (-1, s.setMmap p { s.mmap p with vmEnd := oldEnd, sbrk := oldEnd })
          else
            some (0, s.setMmap p { s.mmap p with
              vmFreergList := enlistVmRgNode (s.mmap p).vmFreergList newrg })

/-! ### ALLOC and FREE -/

def Sys.setSymrg (s : Sys) (p : Pid) (rgid : Nat) (rg : VmRg) : Sys :=
  { s with symrgtbl := Function.update s.symrgtbl p (Function.update (s.symrgtbl p) rgid rg) }

/-- The increment `__alloc` asks for. It goes through `__sys_memmap`, whose
`addr_t` has 32 bits. -/
def allocInc (size : Nat) : Nat := toUint32 (pageAlignSz size)

theorem allocInc_of_lt {size : Nat} (h : size < 2 ^ 31) : allocInc size = pageAlignSz size := by
  refine toUint32_of_lt ?_
  simp only [pageAlignSz, pageSz]
  omega

/-- `__alloc` on area 0. Its `size` is an `addr_t` that the two searches
cut to an `int`; the region id came out of a `uint32_t`, so that an id which
is negative as an `int` is out of range here as well. -/
def alloc (s : Sys) (p : Pid) (rgid size : Nat) (junk : VmRg) : Option (Int × Sys) :=
  if maxSymtblSz ≤ rgid ∨ size = 0 then some (-1, s)
  else
    match getFreeVmrgArea s p (toInt size) with
    | (some rg, s) => some (0, s.setSymrg p rgid rg)
    | (none, s) =>
      -- the system call finds the caller by its pid
      if p ∉ s.runningList then some (-1, s)
      else
        match incVmaLimit s p 0 (allocInc size) junk with
        | none => none
        | some (sret, s) =>
          if sret < 0 then some (-1, s)
          else
            match getFreeVmrgArea s p (toInt size) with
            | (none, s) => some (-1, s)
            | (some rg, s) => some (0, s.setSymrg p rgid rg)

/-- `__free` on area 0 -/
def free (s : Sys) (p : Pid) (rgid : Nat) : Int × Sys :=
  if maxSymtblSz ≤ rgid then (-1, s)
  else
    let rg := s.symrgtbl p rgid
    if rg.rgStart = 0 ∧ rg.rgEnd = 0 then (-1, s)
    else
      match draw s.host with
      | (false, h) => (-1, { s with host := h })
      | (true, h) =>
        let s := { s with host := h }
        let s := s.setSymrg p rgid ⟨0, 0⟩
        (0, s.setMmap p { s.mmap p with
          vmFreergList := enlistVmRgNode (s.mmap p).vmFreergList rg })

end Ossim.Mem
