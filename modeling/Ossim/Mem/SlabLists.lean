import Ossim.Mem.Rollback

/-!
The bookkeeping of cache pools.

A pool has one slab, which is created empty and goes to the list of partial
slabs with its first slot and to the list of full ones with its last. A slot
that was taken does not come back, so the state of a pool is determined by
the number of slots that were taken.

In the code the three lists are linked through the slabs, and a slab is
searched for by its address. The first section keeps the addresses.
-/

namespace Ossim.Mem

open Ossim.Lib

/-! ### Slabs by address -/

/-- The lists of a pool as the code has them, and the slabs in memory. -/
structure SlabLists where
  slabs : Nat → KmemCacheSlab
  emptyList : List Nat
  partialList : List Nat
  fullList : List Nat

/-- `cache_list_remove_slab` -/
def cacheListRemoveSlab (slab : Nat) : List Nat → List Nat
  | [] => []
  | curr :: rest => if curr = slab then rest else curr :: cacheListRemoveSlab slab rest

/-- `cache_list_add_slab` -/
def cacheListAddSlab (slab : Nat) (head : List Nat) : List Nat := slab :: head

namespace SlabLists

/-- The slab that `__kmem_cache_alloc` turns to. -/
def chosen (l : SlabLists) : Option Nat := l.partialList.head?.or l.emptyList.head?

/-- Take the first slot of a slab, and move the slab to the list it now
belongs to. -/
def takeFrom (l : SlabLists) (slab : Nat) : Option (Nat × SlabLists) :=
  match (l.slabs slab).freeList with
  | [] => none
  | slot :: next =>
    let left := { l.slabs slab with
      freeList := next, freeCount := (l.slabs slab).freeCount - 1 }
    let l := { l with slabs := Function.update l.slabs slab left }
    if left.freeCount = 0 then
      some (slot, { l with
        emptyList := cacheListRemoveSlab slab l.emptyList
        partialList := cacheListRemoveSlab slab l.partialList
        fullList := cacheListAddSlab slab l.fullList })
    else if l.emptyList.head? = some slab then
      some (slot, { l with
        emptyList := cacheListRemoveSlab slab l.emptyList
        partialList := cacheListAddSlab slab l.partialList })
    else some (slot, l)

/-- `__kmem_cache_alloc`, from the choice of a slab on. -/
def takeSlot (l : SlabLists) : Option (Nat × SlabLists) := l.chosen.bind l.takeFrom

/-- No slab is in two lists, or twice in one. -/
def Apart (l : SlabLists) : Prop := (l.emptyList ++ (l.partialList ++ l.fullList)).Nodup

/-- A pool with these lists. -/
def pool (l : SlabLists) (pool : KcachePool) : KcachePool :=
  { pool with
    emptySlabs := l.emptyList.map l.slabs
    partialSlabs := l.partialList.map l.slabs
    fullSlabs := l.fullList.map l.slabs }

end SlabLists

theorem cacheListRemoveSlab_of_notMem {slab : Nat} {l : List Nat} (h : slab ∉ l) :
    cacheListRemoveSlab slab l = l := by
  induction l with
  | nil => rfl
  | cons curr rest ih =>
      rw [List.mem_cons, not_or] at h
      rw [cacheListRemoveSlab, if_neg (Ne.symm h.1), ih h.2]

theorem cacheListRemoveSlab_head (slab : Nat) (l : List Nat) :
    cacheListRemoveSlab slab (slab :: l) = l := if_pos rfl

/-- A change of one slab does not show in a list without it. -/
theorem map_update_of_notMem {slab : Nat} {l : List Nat} (h : slab ∉ l)
    (slabs : Nat → KmemCacheSlab) (left : KmemCacheSlab) :
    l.map (Function.update slabs slab left) = l.map slabs := by
  apply List.map_congr_left
  intro x hx
  apply Function.update_of_ne
  rintro rfl
  exact h hx

namespace SlabLists

variable {l : SlabLists}

section

variable {slabs : Nat → KmemCacheSlab} {emptyList rest fullList : List Nat} {slab slot : Nat}
  {next : List Nat}

/-- A partial slab becomes full or stays. It is not looked for among the
empty ones. -/
theorem takeSlot_partialSlab (hempty : slab ∉ emptyList)
    (hfree : (slabs slab).freeList = slot :: next) :
    takeSlot ⟨slabs, emptyList, slab :: rest, fullList⟩ =
      let slabs' := Function.update slabs slab { slabs slab with
        freeList := next, freeCount := (slabs slab).freeCount - 1 }
      some (slot, if (slabs slab).freeCount - 1 = 0
        then ⟨slabs', emptyList, rest, slab :: fullList⟩
        else ⟨slabs', emptyList, slab :: rest, fullList⟩) := by
  have hhead : emptyList.head? ≠ some slab := fun heq => hempty (List.mem_of_head? heq)
  change takeFrom _ slab = _
  rw [takeFrom, hfree]
  dsimp only
  by_cases hlast : (slabs slab).freeCount - 1 = 0
  · rw [if_pos hlast, if_pos hlast, cacheListRemoveSlab_of_notMem hempty,
      cacheListRemoveSlab_head, cacheListAddSlab]
  · rw [if_neg hlast, if_neg hlast, if_neg hhead]

/-- An empty slab becomes full or partial. -/
theorem takeSlot_emptySlab (hfree : (slabs slab).freeList = slot :: next) :
    takeSlot ⟨slabs, slab :: rest, [], fullList⟩ =
      let slabs' := Function.update slabs slab { slabs slab with
        freeList := next, freeCount := (slabs slab).freeCount - 1 }
      some (slot, if (slabs slab).freeCount - 1 = 0 then ⟨slabs', rest, [], slab :: fullList⟩
        else ⟨slabs', rest, [slab], fullList⟩) := by
  change takeFrom _ slab = _
  rw [takeFrom, hfree]
  dsimp only
  by_cases hlast : (slabs slab).freeCount - 1 = 0
  · rw [if_pos hlast, if_pos hlast, cacheListRemoveSlab_head, cacheListAddSlab]
    rfl
  · rw [if_neg hlast, if_neg hlast, if_pos (List.head?_cons ..), cacheListRemoveSlab_head,
      cacheListAddSlab]

end

/-- Where no slab is in two lists, the search by address moves the slab that
was chosen and no other. -/
theorem takeSlot_refines (h : l.Apart) (pool : KcachePool) :
    Mem.takeSlot (l.pool pool) = l.takeSlot.map fun r => (r.1, r.2.pool pool) := by
  obtain ⟨slabs, emptyList, partialList, fullList⟩ := l
  simp only [Apart, List.nodup_append', List.disjoint_left] at h
  cases partialList with
  | cons slab rest =>
      have hempty : slab ∉ emptyList := fun hmem => h.2.2 hmem (by simp)
      have hrest : slab ∉ rest := (List.nodup_cons.mp h.2.1.1).1
      have hfull : slab ∉ fullList := h.2.1.2.2 (List.mem_cons_self ..)
      cases hfree : (slabs slab).freeList with
      | nil => simp [Mem.takeSlot, takeSlot, chosen, takeFrom, SlabLists.pool, hfree]
      | cons slot next =>
          rw [takeSlot_partialSlab hempty hfree]
          simp only [Mem.takeSlot, SlabLists.pool, List.map_cons, hfree, Option.map_some]
          by_cases hlast : (slabs slab).freeCount - 1 = 0
          · rw [if_pos hlast, if_pos hlast]
            simp only [List.map_cons, Function.update_self, map_update_of_notMem hempty,
              map_update_of_notMem hrest, map_update_of_notMem hfull]
          · rw [if_neg hlast, if_neg hlast]
            simp only [List.map_cons, Function.update_self, map_update_of_notMem hempty,
              map_update_of_notMem hrest, map_update_of_notMem hfull]
  | nil =>
      cases emptyList with
      | nil => rfl
      | cons slab rest =>
          have hrest : slab ∉ rest := (List.nodup_cons.mp h.1).1
          have hfull : slab ∉ fullList := fun hmem => h.2.2 (List.mem_cons_self ..) (by simp [hmem])
          cases hfree : (slabs slab).freeList with
          | nil => simp [Mem.takeSlot, takeSlot, chosen, takeFrom, SlabLists.pool, hfree]
          | cons slot next =>
              rw [takeSlot_emptySlab hfree]
              simp only [Mem.takeSlot, SlabLists.pool, List.map_cons, List.map_nil, hfree,
                Option.map_some]
              by_cases hlast : (slabs slab).freeCount - 1 = 0
              · rw [if_pos hlast, if_pos hlast]
                simp only [List.map_cons, List.map_nil, Function.update_self,
                  map_update_of_notMem hrest, map_update_of_notMem hfull]
              · rw [if_neg hlast, if_neg hlast]
                simp only [List.map_cons, List.map_nil, Function.update_self,
                  map_update_of_notMem hrest, map_update_of_notMem hfull]

/-- The slab that was chosen changes its list, and no slab comes or goes. -/
theorem takeSlot_perm {l' : SlabLists} {slot : Nat} (h : l.Apart)
    (htake : l.takeSlot = some (slot, l')) :
    (l'.emptyList ++ (l'.partialList ++ l'.fullList)).Perm
      (l.emptyList ++ (l.partialList ++ l.fullList)) := by
  obtain ⟨slabs, emptyList, partialList, fullList⟩ := l
  simp only [Apart, List.nodup_append', List.disjoint_left] at h
  cases partialList with
  | cons slab rest =>
      have hempty : slab ∉ emptyList := fun hmem => h.2.2 hmem (by simp)
      cases hfree : (slabs slab).freeList with
      | nil => simp [takeSlot, chosen, takeFrom, hfree] at htake
      | cons first next =>
          rw [takeSlot_partialSlab hempty hfree] at htake
          cases htake
          by_cases hlast : (slabs slab).freeCount - 1 = 0
          · rw [if_pos hlast]
            exact List.perm_middle.append_left _
          · rw [if_neg hlast]
  | nil =>
      cases emptyList with
      | nil => cases htake
      | cons slab rest =>
          cases hfree : (slabs slab).freeList with
          | nil => simp [takeSlot, chosen, takeFrom, hfree] at htake
          | cons first next =>
              rw [takeSlot_emptySlab hfree] at htake
              cases htake
              by_cases hlast : (slabs slab).freeCount - 1 = 0
              · rw [if_pos hlast]
                exact List.perm_middle
              · rw [if_neg hlast]
                exact List.perm_middle

end SlabLists

/-! ### One slab -/

/-- The address of a slot. -/
def slotAddr (base align idx : Nat) : Nat := (base + idx * align) % 2 ^ 64

/-- The slab of a pool after `n` slots were taken. -/
def slabAfter (base align slotCount n : Nat) : KmemCacheSlab where
  start := base
  slotSize := align
  slotCount := slotCount
  freeCount := slotCount - n
  freeList := ((List.range slotCount).drop n).map (slotAddr base align)

/-- A pool after `n` of its slots were taken. -/
def poolAfter (pool : KcachePool) (n : Nat) : KcachePool :=
  let slab := slabAfter pool.storage pool.align pool.slotCount n
  { pool with
    emptySlabs := if n = 0 then [slab] else []
    partialSlabs := if 0 < n ∧ n < pool.slotCount then [slab] else []
    fullSlabs := if n = pool.slotCount then [slab] else [] }

theorem slabAfter_of_lt {base align slotCount n : Nat} (h : n < slotCount) :
    (slabAfter base align slotCount n).freeList =
      slotAddr base align n :: (slabAfter base align slotCount (n + 1)).freeList := by
  rw [slabAfter, slabAfter, List.drop_eq_getElem_cons (by simpa using h), List.map_cons,
    List.getElem_range]

section

variable {pool : KcachePool} {n : Nat}

theorem poolAfter_zero (hpos : 0 < pool.slotCount) :
    poolAfter pool 0 = { pool with
      emptySlabs := [slabAfter pool.storage pool.align pool.slotCount 0]
      partialSlabs := []
      fullSlabs := [] } := by
  simp [poolAfter, hpos.ne]

theorem poolAfter_of_lt (hpos : 0 < n) (hlt : n < pool.slotCount) :
    poolAfter pool n = { pool with
      emptySlabs := []
      partialSlabs := [slabAfter pool.storage pool.align pool.slotCount n]
      fullSlabs := [] } := by
  simp [poolAfter, hpos, hpos.ne', hlt, hlt.ne]

theorem poolAfter_slotCount (hpos : 0 < pool.slotCount) :
    poolAfter pool pool.slotCount = { pool with
      emptySlabs := []
      partialSlabs := []
      fullSlabs := [slabAfter pool.storage pool.align pool.slotCount pool.slotCount] } := by
  simp [poolAfter, hpos.ne']

/-- Where the slab goes with its next slot. -/
theorem poolAfter_succ (hlt : n < pool.slotCount) :
    poolAfter pool (n + 1) = { pool with
      emptySlabs := []
      partialSlabs := if pool.slotCount - n - 1 = 0 then []
        else [slabAfter pool.storage pool.align pool.slotCount (n + 1)]
      fullSlabs := if pool.slotCount - n - 1 = 0 then
        [slabAfter pool.storage pool.align pool.slotCount (n + 1)] else [] } := by
  by_cases hlast : pool.slotCount - n - 1 = 0
  · have hcount : n + 1 = pool.slotCount := by omega
    rw [if_pos hlast, if_pos hlast, hcount, poolAfter_slotCount (by omega)]
  · rw [if_neg hlast, if_neg hlast, poolAfter_of_lt (Nat.succ_pos n) (by omega)]

/-- Slots are taken in order, as long as there are any. -/
theorem takeSlot_poolAfter (hn : n ≤ pool.slotCount) (hpos : 0 < pool.slotCount) :
    takeSlot (poolAfter pool n) =
      if n < pool.slotCount then
        some (slotAddr pool.storage pool.align n, poolAfter pool (n + 1))
      else none := by
  rcases Nat.lt_or_ge n pool.slotCount with hlt | hge
  · have hfree : (slabAfter pool.storage pool.align pool.slotCount n).freeList = _ :=
      slabAfter_of_lt hlt
    have hcount : (slabAfter pool.storage pool.align pool.slotCount n).freeCount - 1 =
      pool.slotCount - n - 1 := rfl
    rw [if_pos hlt, poolAfter_succ hlt]
    rcases Nat.eq_zero_or_pos n with rfl | hpos
    · rw [poolAfter_zero hpos, takeSlot]
      dsimp only
      rw [hfree]
      dsimp only
      by_cases hlast : pool.slotCount - 0 - 1 = 0
      · rw [if_pos (hcount.trans hlast), if_pos hlast, if_pos hlast]
        rfl
      · rw [if_neg (hcount.trans_ne hlast), if_neg hlast, if_neg hlast]
        rfl
    · rw [poolAfter_of_lt hpos hlt, takeSlot]
      dsimp only
      rw [hfree]
      dsimp only
      by_cases hlast : pool.slotCount - n - 1 = 0
      · rw [if_pos (hcount.trans hlast), if_pos hlast, if_pos hlast]
        rfl
      · rw [if_neg (hcount.trans_ne hlast), if_neg hlast, if_neg hlast]
        rfl
  · obtain rfl : n = pool.slotCount := Nat.le_antisymm hn hge
    rw [if_neg (Nat.lt_irrefl _), poolAfter_slotCount hpos, takeSlot]

end

/-- A new pool has all its slots. -/
theorem poolAfter_createdPool {size align base sz : Nat}
    (hpos : 0 < (createdPool size align base sz).slotCount) :
    poolAfter (createdPool size align base sz) 0 = createdPool size align base sz := by
  rw [poolAfter_zero hpos]
  rfl

/-! ### Other pools -/

/-- A pool that is in use keeps its place when the table grows. -/
theorem getElem?_growPools {s : Sys} {p q : Pid} {id id' : Nat} {pool : KcachePool}
    (hpool : (s.kcpooltbl p)[id]? = some pool) :
    ((growPools s q id').2.kcpooltbl p)[id]? = some pool := by
  obtain ⟨host, k, heq⟩ := growPools_eq s q id'
  rw [heq]
  dsimp only
  rcases eq_or_ne p q with rfl | hpq
  · rw [Function.update_self, grownPools,
      List.getElem?_append_left (List.getElem?_eq_some_iff.mp hpool).1, hpool]
  · rw [Function.update_of_ne hpq, hpool]

theorem kcpooltbl_of_kernelChange {s t : Sys} (h : KernelChange s t) :
    t.kcpooltbl = s.kcpooltbl := by
  obtain ⟨_, _, _, _, rfl⟩ := h
  rfl

/-- Another record of the table is replaced. -/
theorem getElem?_setPools {s : Sys} {p q : Pid} {id id' : Nat} {pool other new : KcachePool}
    (hpool : (s.kcpooltbl p)[id]? = some pool) (hother : (s.kcpooltbl q)[id']? = some other)
    (hne : other ≠ pool) : ((s.setPools q ((s.kcpooltbl q).set id' new)).kcpooltbl p)[id]? =
      some pool := by
  rw [Sys.setPools]
  dsimp only
  rcases eq_or_ne p q with rfl | hpq
  · have hid : id' ≠ id := by
      rintro rfl
      rw [hpool] at hother
      exact hne (Option.some.inj hother).symm
    rw [Function.update_self, List.getElem?_set_ne hid, hpool]
  · rw [Function.update_of_ne hpq, hpool]

/-- A creation leaves every pool that is in use as it is. -/
theorem getElem?_poolCreate {s : Sys} {p : Pid} {id : Nat} {pool : KcachePool}
    (hpool : (s.kcpooltbl p)[id]? = some pool) (hsize : pool.size ≠ 0) (q : Pid)
    (size align id' : Nat) :
    ((libkmemCachePoolCreate s q size align id').2.kcpooltbl p)[id]? = some pool := by
  have hgrown : ((growPools s q id').2.kcpooltbl p)[id]? = some pool := getElem?_growPools hpool
  have hkeep {u : Sys} {r : Option (Nat × Nat)}
      (halloc : kernelAllocContiguousRegion (growPools s q id').2 q size = (r, u)) :
      u.kcpooltbl = (growPools s q id').2.kcpooltbl := by
    have hchange := kernelChange_alloc (growPools s q id').2 q size
    rw [halloc] at hchange
    exact kcpooltbl_of_kernelChange hchange
  have hcase := libkmemCachePoolCreate_cases s q size align id'
  generalize (libkmemCachePoolCreate s q size align id').2 = t at hcase ⊢
  cases hcase with
  | refused => exact hpool
  | grown => exact hgrown
  | failed halloc =>
      rw [hkeep halloc]
      exact hgrown
  | @undone u base sz other host hother hunused halloc =>
      have hu := hkeep halloc
      have hrelease := (kcpooltbl_of_kernelChange (kernelChange_release { u with host := host } base
        (toInt (pageAlignSz size / pageSz)))).trans hu
      refine getElem?_setPools ?_ ?_ fun heq => hsize (heq ▸ hunused)
      · rw [hrelease]
        exact hgrown
      · rw [hrelease]
        exact hother
  | created host hpos halign husable hother hunused halloc =>
      rw [← hkeep halloc] at hgrown hother
      exact getElem?_setPools hgrown hother fun heq => hsize (heq ▸ hunused)

/-- What a creation that succeeds puts into the table. -/
theorem getElem?_of_poolCreate {s t : Sys} {p : Pid} {size align id : Nat}
    (h : libkmemCachePoolCreate s p size align id = (0, t)) :
    id < maxSymtblSz ∧ 0 < size / align ∧
      ∃ base sz, (t.kcpooltbl p)[id]? = some (createdPool size align base sz) := by
  rw [libkmemCachePoolCreate] at h
  split at h
  · cases h
  · rename_i hargs
    simp only [not_or, Nat.not_le] at hargs
    dsimp only at h
    split at h
    · cases h
    · rename_i husable
      rw [not_or] at husable
      have hcount : 0 < size / align :=
        Nat.pos_of_ne_zero fun hzero => husable.1 (by rw [hzero, Nat.zero_mul])
      refine ⟨hargs.1, hcount, ?_⟩
      generalize growPools s p id = r at h
      obtain ⟨_ | _, u⟩ := r
      · cases h
      · dsimp only at h
        cases hpool : (u.kcpooltbl p)[id]? with
        | none =>
            rw [hpool] at h
            cases h
        | some pool =>
            rw [hpool] at h
            dsimp only at h
            split at h
            · cases h
            · have hkeep := kcpooltbl_of_kernelChange (kernelChange_alloc u p size)
              generalize kernelAllocContiguousRegion u p size = r at h hkeep
              obtain ⟨_ | ⟨base, sz⟩, v⟩ := r
              · cases h
              · dsimp only at h hkeep
                split at h
                · cases h
                · cases h
                  rw [← hkeep] at hpool
                  refine ⟨base, sz, ?_⟩
                  rw [Sys.setPools]
                  dsimp only
                  rw [Function.update_self,
                    List.getElem?_set_self (List.getElem?_eq_some_iff.mp hpool).1]
                  rfl

/-! ### Sequences of calls -/

/-- The calls that name pools, and `__free`, which gives the id of a region
back. -/
inductive PoolCall
  | cacheAlloc (p : Pid) (rgid cachePoolId : Nat)
  | poolCreate (p : Pid) (size align cachePoolId : Nat)
  | free (p : Pid) (rgid : Nat)

def PoolCall.apply (s : Sys) : PoolCall → Sys
  | cacheAlloc p rgid id => (kmemCacheAlloc s p rgid id).2
  | poolCreate p size align id => (libkmemCachePoolCreate s p size align id).2
  | free p rgid => (Mem.free s p rgid).2

/-- The object that a call takes from pool `id` of process `p`. -/
def PoolCall.object (p : Pid) (id : Nat) (s : Sys) : PoolCall → Option Nat
  | cacheAlloc q rgid id' => if q = p ∧ id' = id then (kmemCacheAlloc s q rgid id').1 else none
  | poolCreate _ _ _ _ | free _ _ => none

def applyPoolCalls (s : Sys) (calls : List PoolCall) : Sys := calls.foldl PoolCall.apply s

/-- What the successful calls on the pool return, in order. -/
def objects (p : Pid) (id : Nat) : Sys → List PoolCall → List Nat
  | _, [] => []
  | s, c :: calls => (c.object p id s).toList ++ objects p id (c.apply s) calls

/-- Pool `id` of process `p` is `pool`, less the first `n` slots. -/
structure SlotsTaken (pool : KcachePool) (p : Pid) (id : Nat) (s : Sys) (n : Nat) : Prop where
  idLt : id < maxSymtblSz
  size : pool.size ≠ 0
  pos : 0 < pool.slotCount
  record : (s.kcpooltbl p)[id]? = some (poolAfter pool n)
  le : n ≤ pool.slotCount

namespace SlotsTaken

variable {pool : KcachePool} {p : Pid} {id rgid n : Nat} {s t : Sys}

theorem frame (h : SlotsTaken pool p id s n)
    (hrecord : (t.kcpooltbl p)[id]? = some (poolAfter pool n)) : SlotsTaken pool p id t n :=
  { h with record := hrecord }

/-- A call on the pool needs an id that is not in use and a slot that is not
taken. -/
theorem alloc_of_not (h : SlotsTaken pool p id s n)
    (hno : ¬(rgid < maxSymtblSz ∧ s.symrgtbl p rgid = ⟨0, 0⟩ ∧ n < pool.slotCount)) :
    kmemCacheAlloc s p rgid id = (none, s) := by
  obtain heq | ⟨pool', slot, left, hrgid, hunused, hpool', -, htake, -⟩ :=
    kmemCacheAlloc_eq s p rgid id
  · exact heq
  · rw [h.record] at hpool'
    cases hpool'
    rw [takeSlot_poolAfter h.le h.pos] at htake
    split at htake
    next hlt => exact absurd ⟨hrgid, hunused, hlt⟩ hno
    next => cases htake

theorem alloc_of (h : SlotsTaken pool p id s n) (hrgid : rgid < maxSymtblSz)
    (hunused : s.symrgtbl p rgid = ⟨0, 0⟩) (hlt : n < pool.slotCount) :
    (kmemCacheAlloc s p rgid id).1 = some (slotAddr pool.storage pool.align n) ∧
      (kmemCacheAlloc s p rgid id).2.host = s.host ∧
      SlotsTaken pool p id (kmemCacheAlloc s p rgid id).2 (n + 1) := by
  have hargs : ¬(maxSymtblSz ≤ id ∨ maxSymtblSz ≤ rgid) := by
    rw [not_or, Nat.not_le, Nat.not_le]
    exact ⟨h.idLt, hrgid⟩
  have hfree : ¬((poolAfter pool n).size = 0 ∨ (s.symrgtbl p rgid).rgStart ≠ 0 ∨
      (s.symrgtbl p rgid).rgEnd ≠ 0) := by
    rw [hunused]
    rintro (hzero | hne | hne)
    · exact h.size hzero
    · exact hne rfl
    · exact hne rfl
  rw [kmemCacheAlloc, if_neg hargs, h.record]
  dsimp only
  rw [if_neg hfree, takeSlot_poolAfter h.le h.pos, if_pos hlt]
  refine ⟨rfl, rfl, { h with record := ?_, le := hlt }⟩
  change (Function.update s.kcpooltbl p _ p)[id]? = _
  rw [Function.update_self, List.getElem?_set_self (List.getElem?_eq_some_iff.mp h.record).1]

/-- A call on another pool. -/
theorem alloc_other (h : SlotsTaken pool p id s n) {q : Pid} {id' : Nat}
    (hother : ¬(q = p ∧ id' = id)) : SlotsTaken pool p id (kmemCacheAlloc s q rgid id').2 n := by
  obtain heq | ⟨pool', slot, left, -, -, -, -, -, heq⟩ := kmemCacheAlloc_eq s q rgid id'
  · rw [heq]
    exact h
  · rw [heq]
    refine h.frame ?_
    change (Function.update s.kcpooltbl q _ p)[id]? = _
    rcases eq_or_ne p q with rfl | hpq
    · rw [Function.update_self, List.getElem?_set_ne fun heq => hother ⟨rfl, heq⟩]
      exact h.record
    · rw [Function.update_of_ne hpq]
      exact h.record

theorem kcpooltbl_free (s : Sys) (q : Pid) (rgid : Nat) :
    (Mem.free s q rgid).2.kcpooltbl = s.kcpooltbl := by
  rw [Mem.free]
  split
  · rfl
  · dsimp only
    split
    · rfl
    · split <;> rfl

/-- One call takes the next slot of the pool, or none of its slots. -/
theorem step (h : SlotsTaken pool p id s n) (c : PoolCall) :
    c.object p id s = none ∧ SlotsTaken pool p id (c.apply s) n ∨
      c.object p id s = some (slotAddr pool.storage pool.align n) ∧
        SlotsTaken pool p id (c.apply s) (n + 1) := by
  cases c with
  | cacheAlloc q rgid id' =>
      rw [PoolCall.object, PoolCall.apply]
      by_cases hthis : q = p ∧ id' = id
      · rw [if_pos hthis]
        obtain ⟨rfl, rfl⟩ := hthis
        by_cases hok : rgid < maxSymtblSz ∧ s.symrgtbl q rgid = ⟨0, 0⟩ ∧ n < pool.slotCount
        · obtain ⟨hslot, -, htaken⟩ := h.alloc_of hok.1 hok.2.1 hok.2.2
          exact .inr ⟨hslot, htaken⟩
        · rw [h.alloc_of_not hok]
          exact .inl ⟨rfl, h⟩
      · rw [if_neg hthis]
        exact .inl ⟨rfl, h.alloc_other hthis⟩
  | poolCreate q size align id' =>
      exact .inl ⟨rfl, h.frame (getElem?_poolCreate h.record h.size q size align id')⟩
  | free q rgid =>
      refine .inl ⟨rfl, h.frame ?_⟩
      rw [PoolCall.apply, kcpooltbl_free]
      exact h.record

/-- A sequence of calls takes the next slots of the pool in order. -/
theorem run (h : SlotsTaken pool p id s n) (calls : List PoolCall) :
    objects p id s calls =
        (List.range' n (objects p id s calls).length).map (slotAddr pool.storage pool.align) ∧
      SlotsTaken pool p id (applyPoolCalls s calls) (n + (objects p id s calls).length) := by
  induction calls generalizing s n with
  | nil => exact ⟨rfl, h⟩
  | cons c calls ih =>
      rw [objects, applyPoolCalls, List.foldl_cons]
      obtain ⟨hobject, hnext⟩ | ⟨hobject, hnext⟩ := h.step c
      · rw [hobject]
        exact ih hnext
      · obtain ⟨hrest, hlast⟩ := ih hnext
        rw [hobject, Option.toList_some, List.singleton_append, List.length_cons,
          List.range'_succ, List.map_cons, ← hrest]
        refine ⟨rfl, ?_⟩
        rw [← Nat.add_assoc, Nat.add_right_comm]
        exact hlast

/-- After `__free` the id is not in use. -/
theorem symrgtbl_free (hs : s.HostOk) (hrgid : rgid < maxSymtblSz) :
    (Mem.free s p rgid).2.symrgtbl p rgid = ⟨0, 0⟩ ∧ (Mem.free s p rgid).2.HostOk := by
  rw [Mem.free, if_neg (Nat.not_le.mpr hrgid)]
  dsimp only
  split
  next hzero => exact ⟨VmRg.eq_unused hzero.1 hzero.2, hs⟩
  next =>
    rw [hs.draw]
    refine ⟨?_, hs⟩
    change Function.update s.symrgtbl p (Function.update (s.symrgtbl p) rgid ⟨0, 0⟩) p rgid = _
    rw [Function.update_self, Function.update_self]

/-- With ids that are given back all slots that are left can be had. -/
theorem exhaust (h : SlotsTaken pool p id s n) (hs : s.HostOk) :
    ∃ calls, n + (objects p id s calls).length = pool.slotCount := by
  obtain ⟨k, hk⟩ := Nat.exists_eq_add_of_le h.le
  induction k generalizing s n with
  | zero => exact ⟨[], hk.symm⟩
  | succ k ih =>
      have hzero : 0 < maxSymtblSz := by decide
      have hfreed := h.frame (t := (Mem.free s p 0).2) (by rw [kcpooltbl_free]; exact h.record)
      obtain ⟨hunused, hhost⟩ := symrgtbl_free (p := p) hs hzero
      obtain ⟨hslot, hsame, hnext⟩ := hfreed.alloc_of hzero hunused (by omega)
      obtain ⟨calls, hcalls⟩ := ih hnext (hsame.trans hhost) (by omega)
      refine ⟨.free p 0 :: .cacheAlloc p 0 id :: calls, ?_⟩
      rw [objects, objects, PoolCall.object, PoolCall.object, PoolCall.apply, PoolCall.apply,
        if_pos ⟨rfl, rfl⟩, hslot]
      simp only [Option.toList_none, Option.toList_some, List.nil_append, List.singleton_append,
        List.length_cons]
      omega

end SlotsTaken

/-! ### Exactness -/

/-- The slab is in the list that the number of its free slots says, and in no
other. -/
structure Bookkept (pool : KcachePool) (slab : KmemCacheSlab) : Prop where
  count : slab.freeCount = slab.freeList.length
  place : slab.freeCount = pool.slotCount ∧ pool.emptySlabs = [slab] ∧
      pool.partialSlabs = [] ∧ pool.fullSlabs = [] ∨
    (0 < slab.freeCount ∧ slab.freeCount < pool.slotCount) ∧ pool.emptySlabs = [] ∧
      pool.partialSlabs = [slab] ∧ pool.fullSlabs = [] ∨
    slab.freeCount = 0 ∧ pool.emptySlabs = [] ∧ pool.partialSlabs = [] ∧ pool.fullSlabs = [slab]

theorem bookkept_poolAfter {pool : KcachePool} {n : Nat} (hn : n ≤ pool.slotCount)
    (hpos : 0 < pool.slotCount) :
    Bookkept (poolAfter pool n) (slabAfter pool.storage pool.align pool.slotCount n) where
  count := by
    rw [slabAfter, List.length_map, List.length_drop, List.length_range]
  place := by
    rcases Nat.eq_zero_or_pos n with rfl | hn'
    · rw [poolAfter_zero hpos]
      exact .inl ⟨rfl, rfl, rfl, rfl⟩
    · rcases Nat.lt_or_ge n pool.slotCount with hlt | hge
      · rw [poolAfter_of_lt hn' hlt]
        refine .inr (.inl ⟨⟨?_, ?_⟩, rfl, rfl, rfl⟩)
        · exact Nat.sub_pos_of_lt hlt
        · exact Nat.sub_lt hpos hn'
      · obtain rfl : n = pool.slotCount := Nat.le_antisymm hn hge
        rw [poolAfter_slotCount hpos]
        exact .inr (.inr ⟨Nat.sub_self _, rfl, rfl, rfl⟩)

/-- No address is given out twice. -/
theorem nodup_slotAddr {base align n : Nat} (halign : 0 < align) (hn : n * align < 2 ^ 64) :
    ((List.range n).map (slotAddr base align)).Nodup := by
  refine List.nodup_range.map_on fun i hi j hj heq => ?_
  have hbound {k : Nat} (hk : k ∈ List.range n) : k * align < 2 ^ 64 :=
    lt_of_le_of_lt (Nat.mul_le_mul_right _ (List.mem_range.mp hk).le) hn
  have hi := hbound hi
  have hj := hbound hj
  rw [slotAddr, slotAddr] at heq
  exact Nat.eq_of_mul_eq_mul_right halign (by omega)

/-- What a sequence of calls leaves of a pool of `slotCount` slots, and what it
has returned. -/
structure SlabExact (t : Sys) (p : Pid) (id storage align slotCount : Nat)
    (calls : List PoolCall) : Prop where
  bookkept : ∃ pool slab, ((applyPoolCalls t calls).kcpooltbl p)[id]? = some pool ∧
    pool.storage = storage ∧ pool.align = align ∧ pool.slotCount = slotCount ∧
    slab.freeCount + (objects p id t calls).length = slotCount ∧ Bookkept pool slab
  inOrder : objects p id t calls = (List.range (objects p id t calls).length).map fun idx =>
    (storage + idx * align) % 2 ^ 64
  once : (objects p id t calls).Nodup
  succeeds : ∀ rgid, (kmemCacheAlloc (applyPoolCalls t calls) p rgid id).1.isSome = true ↔
    rgid < maxSymtblSz ∧ (applyPoolCalls t calls).symrgtbl p rgid = ⟨0, 0⟩ ∧
      (objects p id t calls).length < slotCount
  fails : ∀ rgid, (kmemCacheAlloc (applyPoolCalls t calls) p rgid id).1 = none →
    (kmemCacheAlloc (applyPoolCalls t calls) p rgid id).2 = applyPoolCalls t calls

theorem SlotsTaken.slabExact {pool : KcachePool} {p : Pid} {id : Nat} {t : Sys}
    (h : SlotsTaken pool p id t 0) (halign : 0 < pool.align)
    (hbytes : pool.slotCount * pool.align < 2 ^ 64) (calls : List PoolCall) :
    SlabExact t p id pool.storage pool.align pool.slotCount calls := by
  obtain ⟨horder, htaken⟩ := h.run calls
  rw [← List.range_eq_range'] at horder
  rw [Nat.zero_add] at htaken
  have hle := htaken.le
  have hcall (rgid : Nat) :
      ((kmemCacheAlloc (applyPoolCalls t calls) p rgid id).1.isSome = true ↔
        rgid < maxSymtblSz ∧ (applyPoolCalls t calls).symrgtbl p rgid = ⟨0, 0⟩ ∧
          (objects p id t calls).length < pool.slotCount) ∧
      ((kmemCacheAlloc (applyPoolCalls t calls) p rgid id).1 = none →
        (kmemCacheAlloc (applyPoolCalls t calls) p rgid id).2 = applyPoolCalls t calls) := by
    by_cases hok : rgid < maxSymtblSz ∧ (applyPoolCalls t calls).symrgtbl p rgid = ⟨0, 0⟩ ∧
      (objects p id t calls).length < pool.slotCount
    · obtain ⟨hslot, -⟩ := htaken.alloc_of hok.1 hok.2.1 hok.2.2
      rw [hslot]
      exact ⟨iff_of_true rfl hok, fun hnone => absurd hnone (Option.some_ne_none _)⟩
    · rw [htaken.alloc_of_not hok]
      exact ⟨iff_of_false Bool.false_ne_true hok, fun _ => rfl⟩
  refine ⟨⟨_, _, htaken.record, rfl, rfl, rfl, ?_, bookkept_poolAfter hle htaken.pos⟩, horder, ?_,
    fun rgid => (hcall rgid).1, fun rgid => (hcall rgid).2⟩
  · exact Nat.sub_add_cancel hle
  · rw [horder]
    exact nodup_slotAddr halign (lt_of_le_of_lt (Nat.mul_le_mul_right _ hle) hbytes)

/-- The bookkeeping of a pool is exact in every sequence of calls, and all its
slots can be had. -/
theorem slab_bookkeeping_exact {s t : Sys} {p : Pid} {size align id : Nat} (hsize : size < 2 ^ 32)
    (hcreate : libkmemCachePoolCreate s p size align id = (0, t)) :
    ∃ storage, (∀ calls, SlabExact t p id storage align (size / align) calls) ∧
      (t.HostOk → ∃ calls, (objects p id t calls).length = size / align) := by
  obtain ⟨hid, hpos, base, sz, hrecord⟩ := getElem?_of_poolCreate hcreate
  have halign : 0 < align := Nat.pos_of_ne_zero fun hzero => by simp [hzero] at hpos
  have hcount : (createdPool size align base sz).slotCount = size / align :=
    Nat.mul_div_cancel _ halign
  have htaken : SlotsTaken (createdPool size align base sz) p id t 0 :=
    { idLt := hid
      size := (Nat.mul_pos hpos halign).ne'
      pos := hcount ▸ hpos
      record := by rw [poolAfter_createdPool (hcount ▸ hpos), hrecord]
      le := Nat.zero_le _ }
  have hbytes : size / align * align < 2 ^ 64 :=
    lt_of_le_of_lt (Nat.div_mul_le_self ..) (hsize.trans (by decide))
  refine ⟨base, fun calls => ?_, fun hhost => ?_⟩
  · have hexact := htaken.slabExact halign (by rw [hcount]; exact hbytes) calls
    rw [hcount] at hexact
    exact hexact
  · obtain ⟨calls, hcalls⟩ := htaken.exhaust hhost
    rw [Nat.zero_add, hcount] at hcalls
    exact ⟨calls, hcalls⟩

/-- A pool of three slots in a RAM of two frames. -/
def threeSlots : Sys := (libkmemCachePoolCreate (boot 8192 0 fun _ => true) 1 100 30 2).2

theorem slab_bookkeeping_exact_threeSlots :
    libkmemCachePoolCreate (boot 8192 0 fun _ => true) 1 100 30 2 = (0, threeSlots) ∧
      ∃ storage, (∀ calls, SlabExact threeSlots 1 2 storage 30 3 calls) ∧
        ∃ calls, (objects 1 2 threeSlots calls).length = 3 := by
  have hcreate : libkmemCachePoolCreate (boot 8192 0 fun _ => true) 1 100 30 2 =
      (0, threeSlots) := Prod.ext (by decide +kernel) rfl
  have hhost : threeSlots.HostOk := rfl
  obtain ⟨storage, hexact, hall⟩ := slab_bookkeeping_exact (by decide) hcreate
  exact ⟨hcreate, storage, hexact, hall hhost⟩

end Ossim.Mem
