import Ossim.Lib.TableHeap
import Ossim.Mem.System

/-!
Page tables as the pointers they are.

For `mm64.c` and `libmem.c` a page table is the address of its first level.
The kernel table is `os.krnl_pgd`; when a process is loaded its `krnl_t` is
copied from `os`, and with it the pointer, so there are as many copies of it
as processes. The `mm` of a process has a table of its own, which is freed at
its exit.

The functions here work on a heap in which to follow a dangling pointer, to
write through it or to free it twice is undefined. They refine the functions
on trees, whatever addresses `calloc` gives and whenever it refuses: any
sequence of calls by any processes gives the same answers. No table is ever
shared, and every table that is not reached from the kernel table or from a
process that still exists has been freed.
-/

namespace Ossim.Mem

open Ossim.Lib

/-! ### The functions on pointers -/

/-- `live` tells whether the `krnl_t` and the `mm_struct` of a process
exist. -/
structure Pointers where
  host : Nat → Bool
  heap : TableHeap 512
  /-- `os.krnl_pgd` -/
  os : Nat
  live : Pid → Bool
  /-- `krnl->krnl_pgd`, one copy for each process -/
  krnlPgd : Pid → Nat
  /-- `krnl->mm->pgd` -/
  pgd : Pid → Nat

namespace Pointers

section

variable (c : Calloc 512)

/-- `alloc_page_table`, where it is taken to be granted -/
def allocPageTable (heap : TableHeap 512) : Nat × TableHeap 512 :=
  (c.pick heap, heap.put (c.pick heap) fun _ => 0)

/-- `init_kernel_page_table`: a root that exists stays. -/
def initKernelPageTable (root : Nat) (heap : TableHeap 512) : Nat × TableHeap 512 :=
  if root = 0 then allocPageTable c heap else (root, heap)

/-- The first lines of `ld_routine`. -/
def boot (host : Nat → Bool) : Pointers where
  host := host
  heap := (initKernelPageTable c 0 TableHeap.empty).2
  os := (initKernelPageTable c 0 TableHeap.empty).1
  live _ := false
  krnlPgd _ := 0
  pgd _ := 0

/-- The copy of `os` for a new process, and `init_mm`. -/
def initMm (m : Pointers) (p : Pid) : Pointers :=
  let (pgd, heap) := allocPageTable c m.heap
  let (krnlPgd, heap) := initKernelPageTable c m.os heap
  { m with
    heap := heap
    live := Function.update m.live p true
    krnlPgd := Function.update m.krnlPgd p krnlPgd
    pgd := Function.update m.pgd p pgd }

/-- The walk from one of the two roots: the address of the entry, or null. -/
def walkFrom (m : Pointers) (p : Pid) (kernel : Bool) (path : RadixPath 512 4) (create : Bool) :
    Option (Option (Nat × Fin 512) × Pointers) :=
  if kernel then
    (walk c draw create path (m.krnlPgd p) m.heap m.host).map fun r =>
      (r.1, { m with
        krnlPgd := Function.update m.krnlPgd p r.2.1, heap := r.2.2.1, host := r.2.2.2 })
  else
    (walk c draw create path (m.pgd p) m.heap m.host).map fun r =>
      (r.1, { m with pgd := Function.update m.pgd p r.2.1, heap := r.2.2.1, host := r.2.2.2 })

/-- `walk_pte` -/
def walkPte (m : Pointers) (p : Pid) (addr : Nat) (create : Bool) :
    Option (Option (Nat × Fin 512) × Pointers) :=
  match getPdFromAddress addr with
  | none => some (none, m)
  | some path => m.walkFrom c p (isKernelAddress addr) path create

/-- `kernel_walk_pte` starts from the kernel table whatever the address. -/
def kernelWalkPte (m : Pointers) (p : Pid) (addr : Nat) (create : Bool) :
    Option (Option (Nat × Fin 512) × Pointers) :=
  match getPdFromAddress addr with
  | none => some (none, m)
  | some path => m.walkFrom c p true path create

/-- The assignment to `*pte` after a walk. -/
def assign (v : Nat) (r : Option (Nat × Fin 512) × Pointers) : Option (Bool × Pointers) :=
  match r.1 with
  | none => some (false, r.2)
  | some pte => (r.2.heap.store pte.1 pte.2 v).map fun heap => (true, { r.2 with heap := heap })

theorem assign_some (v : Nat) (pte : Nat × Fin 512) (m : Pointers) :
    assign v (some pte, m) =
      (m.heap.store pte.1 pte.2 v).map fun heap => (true, { m with heap := heap }) := rfl

/-- The value of `*pte` after a walk, zero if there is no entry. -/
def fetch (r : Option (Nat × Fin 512) × Pointers) : Option (Nat × Pointers) :=
  match r.1 with
  | none => some (0, r.2)
  | some pte => (r.2.heap.load pte.1 pte.2).map fun v => (v, r.2)

/-- `pte_set_entry` -/
def pteSetEntry (m : Pointers) (p : Pid) (pgn pteVal : Nat) : Option (Bool × Pointers) :=
  (m.walkPte c p (pgnAddr pgn) true).bind (assign pteVal)

/-- `pte_set_fpn` -/
def pteSetFpn (m : Pointers) (p : Pid) (pgn fpn : Nat) : Option (Bool × Pointers) :=
  (m.walkPte c p (pgnAddr pgn) true).bind (assign (presentPte fpn))

/-- `pte_set_swap` -/
def pteSetSwap (m : Pointers) (p : Pid) (pgn swptyp swpoff : Nat) : Option (Bool × Pointers) :=
  (m.walkPte c p (pgnAddr pgn) true).bind (assign (swappedPte swptyp swpoff))

/-- `pte_get_entry` -/
def pteGetEntry (m : Pointers) (p : Pid) (pgn : Nat) : Option (Nat × Pointers) :=
  (m.walkPte c p (pgnAddr pgn) false).bind fetch

/-- `kernel_map_page` -/
def kernelMapPage (m : Pointers) (p : Pid) (addr fpn : Nat) : Option (Bool × Pointers) :=
  (m.kernelWalkPte c p addr true).bind (assign (presentPte fpn))

/-- One page in the first loop of `kernel_release_contiguous_region`. -/
def clearKernelPte (m : Pointers) (p : Pid) (addr : Nat) : Option (Bool × Pointers) :=
  (m.kernelWalkPte c p addr false).bind (assign 0)

/-- The entry `kernel_translate_vaddr` looks at. -/
def kernelPte (m : Pointers) (p : Pid) (addr : Nat) : Option (Nat × Pointers) :=
  (m.kernelWalkPte c p addr false).bind fetch

end

/-- The entries `pcb_memph_collect_recursive` meets. -/
def collectEntries (m : Pointers) (p : Pid) : Option (List Nat) :=
  collect (fun ptes pte => ptes ++ [pte]) m.heap 4 (m.pgd p) []

/-- The tables in `free_mm`, by `free_mm_tables_recursive`. -/
def freeMm (m : Pointers) (p : Pid) : Option Pointers :=
  (freeTables 4 (m.pgd p) m.heap).map fun heap =>
    { m with heap := heap, live := Function.update m.live p false }

/-- `free_kernel_page_table` -/
def freeKernelPageTable (m : Pointers) : Option Pointers :=
  (freeTables 4 m.os m.heap).map fun heap => { m with heap := heap, os := 0 }

end Pointers

/-! ### Calls -/

/-- What the rest of the program asks of page tables, and the `malloc` calls
in between. -/
inductive TableCall
  | load (p : Pid)
  | walk (p : Pid) (addr : Nat)
  | getEntry (p : Pid) (pgn : Nat)
  | setEntry (p : Pid) (pgn pteVal : Nat)
  | setFpn (p : Pid) (pgn fpn : Nat)
  | setSwap (p : Pid) (pgn swptyp swpoff : Nat)
  | mapPage (p : Pid) (addr fpn : Nat)
  | clearPage (p : Pid) (addr : Nat)
  | kernelEntry (p : Pid) (addr : Nat)
  | collect (p : Pid)
  | freeMm (p : Pid)
  | malloc

/-- What a call gives back. -/
inductive Answer
  | done (ok : Bool)
  | entry (pte : Nat)
  | entries (ptes : List Nat)
  deriving DecidableEq

namespace TableCall

/-- The process whose `krnl_t` and `mm` the call uses. -/
def caller : TableCall → Option Pid
  | walk p _ | getEntry p _ | setEntry p _ _ | setFpn p _ _ | setSwap p _ _ _ => some p
  | mapPage p _ _ | clearPage p _ | kernelEntry p _ | collect p | freeMm p => some p
  | load _ | malloc => none

end TableCall

/-- A call on pointers. Loading makes a process that does not exist yet. -/
def Pointers.perform (c : Calloc 512) (m : Pointers) : TableCall → Option (Answer × Pointers)
  | .load p => if m.live p then none else some (.done true, m.initMm c p)
  | .walk p addr => (m.walkPte c p addr true).map fun r => (.done r.1.isSome, r.2)
  | .getEntry p pgn => (m.pteGetEntry c p pgn).map fun r => (.entry r.1, r.2)
  | .setEntry p pgn pteVal => (m.pteSetEntry c p pgn pteVal).map fun r => (.done r.1, r.2)
  | .setFpn p pgn fpn => (m.pteSetFpn c p pgn fpn).map fun r => (.done r.1, r.2)
  | .setSwap p pgn typ off => (m.pteSetSwap c p pgn typ off).map fun r => (.done r.1, r.2)
  | .mapPage p addr fpn => (m.kernelMapPage c p addr fpn).map fun r => (.done r.1, r.2)
  | .clearPage p addr => (m.clearKernelPte c p addr).map fun r => (.done true, r.2)
  | .kernelEntry p addr => (m.kernelPte c p addr).map fun r => (.entry r.1, r.2)
  | .collect p => (m.collectEntries p).map fun ptes => (.entries ptes, m)
  | .freeMm p => (m.freeMm p).map fun m => (.done true, m)
  | .malloc => some (.done (draw m.host).1, { m with host := (draw m.host).2 })

/-- Only a process that exists makes a call. -/
def Pointers.call (c : Calloc 512) (m : Pointers) (call : TableCall) : Option (Answer × Pointers) :=
  if call.caller.all m.live then m.perform c call else none

/-- The trees, and the processes that have one. -/
structure Tables where
  sys : Sys
  live : Pid → Bool

/-- The same call on trees. -/
def Tables.perform (a : Tables) : TableCall → Option (Answer × Tables)
  | .load p =>
    if a.live p then none
    else some (.done true,
      { sys := { a.sys with pgd := Function.update a.sys.pgd p blank }
        live := Function.update a.live p true })
  | .walk p addr =>
    let r := Mem.walkPte a.sys p addr
    some (.done r.1, { a with sys := r.2 })
  | .getEntry p pgn => some (.entry (Mem.pteGetEntry a.sys p pgn), a)
  | .setEntry p pgn pteVal =>
    let r := Mem.pteSetEntry a.sys p pgn pteVal
    some (.done r.1, { a with sys := r.2 })
  | .setFpn p pgn fpn =>
    let r := Mem.pteSetFpn a.sys p pgn fpn
    some (.done r.1, { a with sys := r.2 })
  | .setSwap p pgn swptyp swpoff =>
    let r := Mem.pteSetSwap a.sys p pgn swptyp swpoff
    some (.done r.1, { a with sys := r.2 })
  | .mapPage _ addr fpn =>
    let r := Mem.kernelMapPage a.sys addr fpn
    some (.done r.1, { a with sys := r.2 })
  | .clearPage _ addr => some (.done true, { a with sys := Mem.clearKernelPte a.sys addr })
  | .kernelEntry _ addr => some (.entry (Mem.kernelPte a.sys addr), a)
  | .collect p => some (.entries ((a.sys.pgd p).entries.filter (· ≠ 0)), a)
  | .freeMm p => some (.done true, { a with live := Function.update a.live p false })
  | .malloc =>
    some (.done (draw a.sys.host).1, { a with sys := { a.sys with host := (draw a.sys.host).2 } })

def Tables.call (a : Tables) (call : TableCall) : Option (Answer × Tables) :=
  if call.caller.all a.live then a.perform call else none

/-! ### Representation -/

/-- The tables there are: the kernel's and one for each process. -/
def owners (live : Pid → Bool) : Option Pid → Prop
  | none => True
  | some p => live p = true

def Sys.tree (s : Sys) (i : Option Pid) : PageTable := i.elim s.krnlPgd s.pgd

def Sys.setTree (s : Sys) (t : PageTable) (host : Nat → Bool) : Option Pid → Sys
  | none => { s with krnlPgd := t, host := host }
  | some p => { s with pgd := Function.update s.pgd p t, host := host }

def Pointers.root (m : Pointers) (i : Option Pid) : Nat := i.elim m.os m.pgd

/-- Whose table a walk is in. -/
def walkOwner (p : Pid) (kernel : Bool) : Option Pid := if kernel then none else some p

/-- The pointers stand for the trees. Every process has the same kernel
table. -/
structure Represents (a : Tables) (m : Pointers) : Prop where
  host : m.host = a.sys.host
  live : m.live = a.live
  shared : ∀ p, m.live p = true → m.krnlPgd p = m.os
  os : m.os ≠ 0
  forest : ∃ foot, Forest m.heap (owners m.live) a.sys.tree m.root foot

theorem tree_setTree (s : Sys) (t : PageTable) (host : Nat → Bool) (i : Option Pid) :
    (s.setTree t host i).tree = Function.update s.tree i t := by
  funext j
  cases i with
  | none => cases j <;> rfl
  | some p =>
      cases j with
      | none => rfl
      | some q =>
          change Function.update s.pgd p t q = Function.update s.tree (some p) t (some q)
          rcases eq_or_ne q p with rfl | hqp
          · rw [Function.update_self, Function.update_self]
          · rw [Function.update_of_ne hqp, Function.update_of_ne (by simpa using hqp)]
            rfl

@[simp] theorem host_setTree (s : Sys) (t : PageTable) (host : Nat → Bool) (i : Option Pid) :
    (s.setTree t host i).host = host := by
  cases i <;> rfl

theorem setTree_setTree (s : Sys) (t u : PageTable) (host host' : Nat → Bool) (i : Option Pid) :
    (s.setTree t host i).setTree u host' i = s.setTree u host' i := by
  cases i with
  | none => rfl
  | some p => simp [Sys.setTree]

theorem setTree_self (s : Sys) (i : Option Pid) : s.setTree (s.tree i) s.host i = s := by
  cases i with
  | none => rfl
  | some p => simp [Sys.setTree, Sys.tree]

theorem root_setPgd (m : Pointers) (p : Pid) (a : Nat) :
    { m with pgd := Function.update m.pgd p a }.root = Function.update m.root (some p) a := by
  funext j
  cases j with
  | none => rfl
  | some q =>
      change Function.update m.pgd p a q = Function.update m.root (some p) a (some q)
      rcases eq_or_ne q p with rfl | hqp
      · rw [Function.update_self, Function.update_self]
      · rw [Function.update_of_ne hqp, Function.update_of_ne (by simpa using hqp)]
        rfl

theorem owners_walkOwner {live : Pid → Bool} {p : Pid} (hp : live p = true) (kernel : Bool) :
    owners live (walkOwner p kernel) := by
  cases kernel with
  | true => trivial
  | false => exact hp

namespace Represents

variable {c : Calloc 512} {a : Tables} {m : Pointers} {p : Pid}

/-- The walk that creates tables. -/
theorem walkFrom_create (hr : Represents a m) (hp : m.live p = true) (kernel : Bool)
    (path : RadixPath 512 4) :
    let r := Radix.touch draw 0 path (a.sys.tree (walkOwner p kernel)) a.sys.host
    ∃ m', m.walkFrom c p kernel path true =
        some (if r.1 then seek m'.heap path (m'.root (walkOwner p kernel)) else none, m') ∧
      Represents ⟨a.sys.setTree r.2.1 r.2.2 (walkOwner p kernel), a.live⟩ m' := by
  intro r
  obtain ⟨foot, hforest⟩ := hr.forest
  have hi := owners_walkOwner hp kernel
  obtain ⟨b, heap, foot', hwalk, hholds, hgrows, hroot⟩ := walk_spec (p := path) c draw
    (hforest.holds _ hi) (hforest.nodup _ hi) a.sys.host
  have hforest' := hforest.grow hi hholds hgrows
  rw [← tree_setTree _ _ r.2.2] at hforest'
  cases kernel with
  | true =>
      have hos : m.krnlPgd p = m.os := hr.shared p hp
      have hb : b = m.os := hroot hr.os
      have hsame : Function.update m.root none b = m.root := by
        rw [hb]
        exact Function.update_eq_self none m.root
      refine ⟨{ m with
          krnlPgd := Function.update m.krnlPgd p b, heap := heap, host := r.2.2 }, ?_, ?_⟩
      · rw [Pointers.walkFrom, if_pos rfl, hos, hr.host]
        refine (congrArg (Option.map _) hwalk).trans ?_
        rw [hb]
        rfl
      · refine ⟨(host_setTree ..).symm, hr.live, fun q hq => ?_, hr.os, _, hsame ▸ hforest'⟩
        change Function.update m.krnlPgd p b q = m.os
        rcases eq_or_ne q p with rfl | hqp
        · rw [Function.update_self, hb]
        · rw [Function.update_of_ne hqp]
          exact hr.shared q hq
  | false =>
      refine ⟨{ m with pgd := Function.update m.pgd p b, heap := heap, host := r.2.2 }, ?_, ?_⟩
      · rw [Pointers.walkFrom, if_neg Bool.false_ne_true, hr.host]
        refine (congrArg (Option.map _) hwalk).trans ?_
        simp only [Option.map_some, walkOwner, Bool.false_eq_true, if_false, Pointers.root,
          Option.elim_some, Function.update_self]
        rfl
      · exact ⟨(host_setTree ..).symm, hr.live, hr.shared, hr.os, _,
          root_setPgd m p b ▸ hforest'⟩

/-- The walk that creates nothing. -/
theorem walkFrom_find (hr : Represents a m) (hp : m.live p = true) (kernel : Bool)
    (path : RadixPath 512 4) :
    m.walkFrom c p kernel path false =
      some (seek m.heap path (m.root (walkOwner p kernel)), m) := by
  obtain ⟨foot, hforest⟩ := hr.forest
  have hwalk := walk_false (p := path) c draw
    (hforest.holds _ (owners_walkOwner hp kernel)) m.host
  cases kernel with
  | true =>
      rw [Pointers.walkFrom, if_pos rfl, hr.shared p hp]
      refine (congrArg (Option.map _) hwalk).trans ?_
      change some (_, { m with krnlPgd := Function.update m.krnlPgd p m.os }) = _
      rw [← hr.shared p hp, Function.update_eq_self, hr.shared p hp]
  | false =>
      rw [Pointers.walkFrom, if_neg Bool.false_ne_true]
      refine (congrArg (Option.map _) hwalk).trans ?_
      change some (_, { m with pgd := Function.update m.pgd p (m.pgd p) }) = _
      rw [Function.update_eq_self]

/-- An assignment to the entry that a walk has found. -/
theorem store (hr : Represents a m) {i : Option Pid} (hi : owners m.live i)
    {path : RadixPath 512 4} {x : Nat × Fin 512} (hx : seek m.heap path (m.root i) = some x)
    (v : Nat) :
    ∃ heap, m.heap.store x.1 x.2 v = some heap ∧
      Represents ⟨a.sys.setTree ((a.sys.tree i).set path v) a.sys.host i, a.live⟩
        { m with heap := heap } := by
  obtain ⟨foot, hforest⟩ := hr.forest
  obtain ⟨heap, hstore, hholds, hgrows⟩ :=
    store_seek (hforest.holds i hi) (hforest.nodup i hi) hx v
  have hforest' := hforest.grow hi hholds hgrows
  rw [← tree_setTree _ _ a.sys.host, Function.update_eq_self i m.root] at hforest'
  exact ⟨heap, hstore, hr.host.trans (host_setTree ..).symm, hr.live, hr.shared, hr.os, _, hforest'⟩

/-- Where every table was granted, the walk ends at the entry. -/
theorem walkFrom_create_isSome (hr : Represents a m) (hp : m.live p = true) {kernel : Bool}
    {path : RadixPath 512 4} {host : Nat → Bool} {t : PageTable} (hhas : t.has path = true)
    {s : Sys} (hs : a.sys = s.setTree t host (walkOwner p kernel)) :
    ∃ x, seek m.heap path (m.root (walkOwner p kernel)) = some x := by
  obtain ⟨foot, hforest⟩ := hr.forest
  have hsome := seek_isSome (p := path) (hforest.holds _ (owners_walkOwner hp kernel))
  rw [hs, tree_setTree, Function.update_self, hhas] at hsome
  exact Option.isSome_iff_exists.mp hsome

/-- Creating the tables of an entry and assigning it. -/
theorem assign_create (hr : Represents a m) (hp : m.live p = true) (kernel : Bool)
    (path : RadixPath 512 4) (v : Nat) :
    let r := Radix.write draw 0 path v (a.sys.tree (walkOwner p kernel)) a.sys.host
    ∃ m', (m.walkFrom c p kernel path true).bind (Pointers.assign v) = some (r.1, m') ∧
      Represents ⟨a.sys.setTree r.2.1 r.2.2 (walkOwner p kernel), a.live⟩ m' := by
  intro r
  obtain ⟨m', hwalk, hr'⟩ := hr.walkFrom_create (c := c) hp kernel path
  rw [hwalk, Option.bind_some]
  obtain ⟨htouch, hwrite⟩ | ⟨htouch, hwrite⟩ := Radix.write_of_touch draw 0 path v
    (a.sys.tree (walkOwner p kernel)) a.sys.host
  · have hlive' : m'.live p = true := by
      rw [hr'.live, ← hr.live]
      exact hp
    obtain ⟨x, hx⟩ := hr'.walkFrom_create_isSome hlive' (Radix.has_touch htouch) rfl
    obtain ⟨heap, hstore, hr''⟩ := hr'.store (owners_walkOwner hlive' kernel) hx v
    rw [tree_setTree, Function.update_self, setTree_setTree, host_setTree] at hr''
    refine ⟨{ m' with heap := heap }, ?_, ?_⟩
    · rw [htouch, if_pos rfl, hx, Pointers.assign_some, hstore, show r = _ from hwrite]
      rfl
    · rw [show r = _ from hwrite]
      exact hr''
  · refine ⟨m', ?_, ?_⟩
    · rw [htouch, if_neg Bool.false_ne_true, show r = _ from hwrite, htouch]
      rfl
    · rw [show r = _ from hwrite]
      exact hr'

/-- Assigning an entry whose tables may be missing. -/
theorem assign_find (hr : Represents a m) (hp : m.live p = true) (kernel : Bool)
    (path : RadixPath 512 4) (v : Nat) :
    ∃ ok m', (m.walkFrom c p kernel path false).bind (Pointers.assign v) = some (ok, m') ∧
      Represents ⟨a.sys.setTree ((a.sys.tree (walkOwner p kernel)).set path v) a.sys.host
        (walkOwner p kernel), a.live⟩ m' := by
  have hi := owners_walkOwner hp kernel
  rw [hr.walkFrom_find hp kernel path, Option.bind_some]
  cases hx : seek m.heap path (m.root (walkOwner p kernel)) with
  | none =>
      obtain ⟨foot, hforest⟩ := hr.forest
      have hhas := seek_isSome (p := path) (hforest.holds _ hi)
      rw [hx] at hhas
      refine ⟨false, m, rfl, ?_⟩
      rw [Radix.set_of_not_has hhas.symm, setTree_self]
      exact hr
  | some x =>
      obtain ⟨heap, hstore, hr'⟩ := hr.store hi hx v
      refine ⟨true, { m with heap := heap }, ?_, hr'⟩
      rw [Pointers.assign_some, hstore]
      rfl

/-- Reading an entry whose tables may be missing. -/
theorem fetch_find (hr : Represents a m) (hp : m.live p = true) (kernel : Bool)
    (path : RadixPath 512 4) :
    (m.walkFrom c p kernel path false).bind Pointers.fetch =
      some ((a.sys.tree (walkOwner p kernel)).lookup 0 path, m) := by
  obtain ⟨foot, hforest⟩ := hr.forest
  have hholds := hforest.holds _ (owners_walkOwner hp kernel)
  rw [hr.walkFrom_find hp kernel path, Option.bind_some, Pointers.fetch]
  cases hx : seek m.heap path (m.root (walkOwner p kernel)) with
  | none =>
      have hhas := seek_isSome (p := path) hholds
      rw [hx] at hhas
      rw [Radix.lookup_of_not_has hhas.symm]
  | some x =>
      change Option.map _ (m.heap.load x.1 x.2) = _
      rw [load_seek hholds hx]
      rfl

end Represents

/-! ### Calls on trees -/

section

variable {s : Sys} {p : Pid} {addr pgn : Nat} {path : RadixPath 512 4}

theorem walkPte_eq_setTree (hpath : getPdFromAddress addr = some path) :
    Mem.walkPte s p addr =
      let r := Radix.touch draw 0 path (s.tree (walkOwner p (isKernelAddress addr))) s.host
      (r.1, s.setTree r.2.1 r.2.2 (walkOwner p (isKernelAddress addr))) := by
  simp only [Mem.walkPte, hpath, Sys.root, Sys.setRoot]
  cases isKernelAddress addr <;> rfl

theorem pteSetEntry_eq_setTree (hpath : getPdFromAddress (pgnAddr pgn) = some path) (v : Nat) :
    Mem.pteSetEntry s p pgn v =
      let r := Radix.write draw 0 path v (s.tree (walkOwner p (isKernelAddress (pgnAddr pgn))))
        s.host
      (r.1, s.setTree r.2.1 r.2.2 (walkOwner p (isKernelAddress (pgnAddr pgn)))) := by
  simp only [Mem.pteSetEntry, hpath, Sys.root, Sys.setRoot]
  cases isKernelAddress (pgnAddr pgn) <;> rfl

theorem pteGetEntry_eq_tree (hpath : getPdFromAddress (pgnAddr pgn) = some path) :
    Mem.pteGetEntry s p pgn =
      (s.tree (walkOwner p (isKernelAddress (pgnAddr pgn)))).lookup 0 path := by
  simp only [Mem.pteGetEntry, hpath, Sys.root]
  cases isKernelAddress (pgnAddr pgn) <;> rfl

end

/-- A result on pointers and one on trees: the same answer, and pointers that
stand for the trees. -/
abbrev SameAnswer : Option (Answer × Pointers) → Option (Answer × Tables) → Prop :=
  Option.Rel fun x y => x.1 = y.1 ∧ Represents y.2 x.2

namespace Represents

variable {c : Calloc 512} {a : Tables} {m : Pointers} {p : Pid}

/-- The three functions that set an entry. -/
theorem setEntry (hr : Represents a m) (hp : m.live p = true) (pgn v : Nat) :
    SameAnswer
      (((m.walkPte c p (pgnAddr pgn) true).bind (Pointers.assign v)).map fun r =>
        (.done r.1, r.2))
      (some (.done (Mem.pteSetEntry a.sys p pgn v).1,
        { a with sys := (Mem.pteSetEntry a.sys p pgn v).2 })) := by
  rw [Pointers.walkPte]
  cases hpath : getPdFromAddress (pgnAddr pgn) with
  | none =>
      simp only [Mem.pteSetEntry, hpath]
      exact .some ⟨rfl, hr⟩
  | some path =>
      obtain ⟨m', hassign, hr'⟩ :=
        hr.assign_create (c := c) hp (isKernelAddress (pgnAddr pgn)) path v
      rw [pteSetEntry_eq_setTree hpath]
      simp only [hassign, Option.map_some]
      exact .some ⟨rfl, hr'⟩

theorem load (hr : Represents a m) (hp : m.live p = false) :
    Represents
      { sys := { a.sys with pgd := Function.update a.sys.pgd p blank }
        live := Function.update a.live p true } (m.initMm c p) := by
  obtain ⟨foot, hforest⟩ := hr.forest
  have hnot : ¬owners m.live (some p) := by simp [owners, hp]
  have hids (j : Option Pid) :
      j = some p ∨ owners m.live j ↔ owners (Function.update m.live p true) j := by
    cases j with
    | none => simp [owners]
    | some q => by_cases hqp : q = p <;> simp [owners, hqp]
  have hforest' := (hforest.add hnot (c.ne_zero m.heap) (c.fresh m.heap)).congr hids
  have hinit : m.initMm c p = { m with
      heap := m.heap.put (c.pick m.heap) fun _ => 0
      live := Function.update m.live p true
      krnlPgd := Function.update m.krnlPgd p m.os
      pgd := Function.update m.pgd p (c.pick m.heap) } := by
    simp [Pointers.initMm, Pointers.allocPageTable, Pointers.initKernelPageTable, hr.os]
  rw [hinit]
  rw [← tree_setTree a.sys blank a.sys.host (some p), ← root_setPgd] at hforest'
  refine ⟨hr.host, congrArg (fun l => Function.update l p true) hr.live, fun q hq => ?_, hr.os,
    Function.update foot (some p) [c.pick m.heap], hforest'⟩
  · change Function.update m.krnlPgd p m.os q = m.os
    rcases eq_or_ne q p with rfl | hqp
    · rw [Function.update_self]
    · rw [Function.update_of_ne hqp]
      exact hr.shared q (by simpa [Function.update_of_ne hqp] using hq)

theorem freeMm (hr : Represents a m) (hp : m.live p = true) :
    ∃ m', m.freeMm p = some m' ∧
      Represents { a with live := Function.update a.live p false } m' := by
  obtain ⟨foot, hforest⟩ := hr.forest
  obtain ⟨heap, hfree, hforest'⟩ := hforest.free (i := some p) hp
  have hids (j : Option Pid) :
      j ≠ some p ∧ owners m.live j ↔ owners (Function.update m.live p false) j := by
    cases j with
    | none => simp [owners]
    | some q => by_cases hqp : q = p <;> simp [owners, hqp]
  refine ⟨{ m with heap := heap, live := Function.update m.live p false }, ?_, hr.host,
    congrArg (fun l => Function.update l p false) hr.live, fun q hq => ?_, hr.os, _,
    hforest'.congr hids⟩
  · rw [Pointers.freeMm, show m.pgd p = m.root (some p) from rfl, hfree]
    rfl
  · have hqp : q ≠ p := by
      rintro rfl
      simp at hq
    exact hr.shared q (by simpa [Function.update_of_ne hqp] using hq)

theorem collectEntries (hr : Represents a m) (hp : m.live p = true) :
    m.collectEntries p = some ((a.sys.pgd p).entries.filter (· ≠ 0)) := by
  obtain ⟨foot, hforest⟩ := hr.forest
  have happend (l : List Nat) : ∀ acc, l.foldl (fun ptes pte => ptes ++ [pte]) acc = acc ++ l := by
    induction l with
    | nil => simp
    | cons v l ih => simp [ih]
  refine (collect_spec _ (hforest.holds (some p) hp) []).trans ?_
  rw [happend]
  rfl

/-- A call gives the same answer on pointers and on trees. -/
theorem call (hr : Represents a m) (call : TableCall) :
    SameAnswer (m.call c call) (a.call call) := by
  rw [Pointers.call, Tables.call, ← hr.live]
  by_cases hlive : call.caller.all m.live = true
  swap
  · rw [if_neg hlive, if_neg hlive]
    exact .none
  rw [if_pos hlive, if_pos hlive]
  cases call with
  | load p =>
      rw [Pointers.perform, Tables.perform, ← hr.live]
      cases hp : m.live p with
      | true => exact .none
      | false => exact .some ⟨rfl, hr.live ▸ hr.load hp⟩
  | walk p addr =>
      rw [Pointers.perform, Pointers.walkPte, Tables.perform]
      cases hpath : getPdFromAddress addr with
      | none =>
          simp only [Mem.walkPte, hpath]
          exact .some ⟨rfl, hr⟩
      | some path =>
          obtain ⟨m', hwalk, hr'⟩ :=
            hr.walkFrom_create (c := c) hlive (isKernelAddress addr) path
          rw [walkPte_eq_setTree hpath]
          simp only [hwalk, Option.map_some]
          refine .some ⟨?_, hr'⟩
          cases htouch : (Radix.touch draw 0 path
              (a.sys.tree (walkOwner p (isKernelAddress addr))) a.sys.host).1 with
          | false => rfl
          | true =>
              have hlive' : m'.live p = true := by
                rw [hr'.live, ← hr.live]
                exact hlive
              obtain ⟨x, hx⟩ := hr'.walkFrom_create_isSome hlive' (Radix.has_touch htouch) rfl
              rw [if_pos rfl, hx]
              rfl
  | getEntry p pgn =>
      rw [Pointers.perform, Pointers.pteGetEntry, Pointers.walkPte, Tables.perform]
      cases hpath : getPdFromAddress (pgnAddr pgn) with
      | none =>
          simp only [Mem.pteGetEntry, hpath]
          exact .some ⟨rfl, hr⟩
      | some path =>
          rw [pteGetEntry_eq_tree hpath]
          simp only [hr.fetch_find hlive, Option.map_some]
          exact .some ⟨rfl, hr⟩
  | setEntry p pgn pteVal => exact hr.setEntry hlive pgn pteVal
  | setFpn p pgn fpn => exact hr.setEntry hlive pgn (presentPte fpn)
  | setSwap p pgn swptyp swpoff => exact hr.setEntry hlive pgn (swappedPte swptyp swpoff)
  | mapPage p addr fpn =>
      rw [Pointers.perform, Pointers.kernelMapPage, Pointers.kernelWalkPte, Tables.perform]
      cases hpath : getPdFromAddress addr with
      | none =>
          simp only [Mem.kernelMapPage, hpath]
          exact .some ⟨rfl, hr⟩
      | some path =>
          obtain ⟨m', hassign, hr'⟩ := hr.assign_create (c := c) hlive true path (presentPte fpn)
          simp only [Mem.kernelMapPage, hpath, hassign, Option.map_some]
          exact .some ⟨rfl, hr'⟩
  | clearPage p addr =>
      rw [Pointers.perform, Pointers.clearKernelPte, Pointers.kernelWalkPte, Tables.perform]
      cases hpath : getPdFromAddress addr with
      | none =>
          simp only [Mem.clearKernelPte, hpath]
          exact .some ⟨rfl, hr⟩
      | some path =>
          obtain ⟨ok, m', hassign, hr'⟩ := hr.assign_find (c := c) hlive true path 0
          simp only [Mem.clearKernelPte, hpath, hassign, Option.map_some]
          exact .some ⟨rfl, hr'⟩
  | kernelEntry p addr =>
      rw [Pointers.perform, Pointers.kernelPte, Pointers.kernelWalkPte, Tables.perform]
      cases hpath : getPdFromAddress addr with
      | none =>
          simp only [Mem.kernelPte, hpath]
          exact .some ⟨rfl, hr⟩
      | some path =>
          simp only [Mem.kernelPte, hpath, hr.fetch_find hlive true path, Option.map_some]
          exact .some ⟨rfl, hr⟩
  | collect p =>
      rw [Pointers.perform, Tables.perform, hr.collectEntries hlive]
      exact .some ⟨rfl, hr⟩
  | freeMm p =>
      obtain ⟨m', hfree, hr'⟩ := hr.freeMm hlive
      rw [Pointers.perform, Tables.perform, hfree]
      exact .some ⟨rfl, hr'⟩
  | malloc =>
      rw [Pointers.perform, Tables.perform]
      refine .some ⟨by rw [hr.host], ?_⟩
      exact ⟨by rw [hr.host], hr.live, hr.shared, hr.os, hr.forest⟩

theorem boot (c : Calloc 512) (ramSz swpSz : Nat) (host : Nat → Bool) :
    Represents ⟨Mem.boot ramSz swpSz host, fun _ => false⟩ (Pointers.boot c host) := by
  have hempty : Forest TableHeap.empty (fun _ => False) (Mem.boot ramSz swpSz host).tree
      (Pointers.boot c host).root fun _ => [] := .empty
  have hforest := hempty.add (i := none) not_false (c.ne_zero TableHeap.empty)
    (c.fresh TableHeap.empty)
  have htree : Function.update (Mem.boot ramSz swpSz host).tree none blank =
      (Mem.boot ramSz swpSz host).tree := Function.update_eq_self ..
  have hroot : Function.update (Pointers.boot c host).root none (c.pick TableHeap.empty) =
      (Pointers.boot c host).root := Function.update_eq_self ..
  rw [htree, hroot] at hforest
  refine ⟨rfl, rfl, fun p hp => Bool.noConfusion hp, c.ne_zero _, _, hforest.congr fun j => ?_⟩
  cases j <;> simp [owners, Pointers.boot]

/-- After any calls. -/
theorem replies (c : Calloc 512) (ramSz swpSz : Nat) (host : Nat → Bool) (calls : List TableCall) :
    Option.Rel (fun x y => x.1 = y.1 ∧ Represents y.2 x.2)
      (Lib.replies (Pointers.call c) (Pointers.boot c host) calls)
      (Lib.replies Tables.call ⟨Mem.boot ramSz swpSz host, fun _ => false⟩ calls) :=
  replies_rel (Q := fun m a => Represents a m) (fun _ _ call hr => hr.call call)
    (Represents.boot c ramSz swpSz host) calls

end Represents

/-! ### Runs -/

/-- Any sequence of calls, by any processes, gives the same answers on
pointers and on trees, wherever `calloc` puts the tables and whenever it
refuses. -/
theorem pointers_refine (c : Calloc 512) (ramSz swpSz : Nat) (host : Nat → Bool)
    (calls : List TableCall) :
    (replies (Pointers.call c) (Pointers.boot c host) calls).map Prod.fst =
      (replies Tables.call ⟨boot ramSz swpSz host, fun _ => false⟩ calls).map Prod.fst := by
  have hrel := Represents.replies c ramSz swpSz host calls
  generalize replies (Pointers.call c) _ calls = x, replies Tables.call _ calls = y at hrel
  cases hrel with
  | none => rfl
  | some hxy => exact congrArg some hxy.1

/-- Every allocated table is reached from the kernel table or from the table
of a process that exists, by one path only; all processes point to the one
kernel table. When no process is left, `free_kernel_page_table` frees what
there is. -/
structure TablesOwned (m : Pointers) : Prop where
  kernel : ∀ p, m.live p = true → m.krnlPgd p = m.os
  allocated : ∀ a, m.heap.tables a ≠ none ↔
    ∃ i, owners m.live i ∧ a ∈ tablesFrom m.heap 4 (m.root i)
  nodup : ∀ i, owners m.live i → (tablesFrom m.heap 4 (m.root i)).Nodup
  apart : ∀ i j, owners m.live i → owners m.live j → i ≠ j →
    List.Disjoint (tablesFrom m.heap 4 (m.root i)) (tablesFrom m.heap 4 (m.root j))
  freed : (∀ p, m.live p = false) →
    ∃ m', m.freeKernelPageTable = some m' ∧ ∀ a, m'.heap.tables a = none

theorem Represents.tablesOwned {a : Tables} {m : Pointers} (hr : Represents a m) :
    TablesOwned m := by
  obtain ⟨foot, hforest⟩ := hr.forest
  have hfoot (i : Option Pid) (hi : owners m.live i) := (hforest.holds i hi).tablesFrom_eq
  refine ⟨hr.shared, hforest.tables_iff, fun i hi => ?_, fun i j hi hj hij => ?_, fun hdead => ?_⟩
  · rw [hfoot i hi]
    exact hforest.nodup i hi
  · rw [hfoot i hi, hfoot j hj]
    exact hforest.apart i j hi hj hij
  · obtain ⟨heap, hfree, hrest⟩ := hforest.free (i := none) trivial
    refine ⟨{ m with heap := heap, os := 0 }, ?_, fun b => ?_⟩
    · rw [Pointers.freeKernelPageTable, show m.os = m.root none from rfl, hfree]
      rfl
    · by_contra hb
      obtain ⟨i, ⟨hnone, hi⟩, -⟩ := hrest.all b hb
      cases i with
      | none => exact hnone rfl
      | some p => exact Bool.false_ne_true ((hdead p).symm.trans hi)

/-- No sequence of calls shares a table or loses one. -/
theorem no_table_lost (c : Calloc 512) (host : Nat → Bool) {calls : List TableCall}
    {answers : List Answer} {m : Pointers}
    (hcalls : replies (Pointers.call c) (Pointers.boot c host) calls = some (answers, m)) :
    TablesOwned m := by
  have hrel := Represents.replies c 0 0 host calls
  rw [hcalls] at hrel
  generalize replies Tables.call _ calls = y at hrel
  cases hrel with
  | some hxy => exact hxy.2.tablesOwned

/-- A process maps a page and exits. -/
def mapAndExit : List TableCall := [.load 1, .setFpn 1 5 3, .collect 1, .freeMm 1]

theorem mapAndExit_answers :
    (replies (Pointers.call (Calloc.next 512)) (Pointers.boot (Calloc.next 512) fun _ => true)
      mapAndExit).map Prod.fst =
      some [.done true, .done true, .entries [presentPte 3], .done true] := by
  decide +kernel

theorem no_table_lost_mapAndExit :
    ∃ answers m, replies (Pointers.call (Calloc.next 512))
        (Pointers.boot (Calloc.next 512) fun _ => true) mapAndExit = some (answers, m) ∧
      TablesOwned m := by
  obtain ⟨r, hcalls, -⟩ := Option.map_eq_some_iff.mp mapAndExit_answers
  exact ⟨r.1, r.2, hcalls, no_table_lost (Calloc.next 512) (fun _ => true) hcalls⟩

end Ossim.Mem
