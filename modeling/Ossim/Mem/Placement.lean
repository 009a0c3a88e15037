import Ossim.Mem.Sweep

/-!
Where regions and pools can be.

Whatever mix of `ALLOC`, `FREE`, `KMALLOC` and cache pools a program uses,
its regions run forward and end below a bound that is far from the last
address, and its pools lie in kernel memory. Nothing is said about who owns
the frames there: a region may be any part of the user or of the kernel half.
-/

namespace Ossim.Mem

open Ossim.Lib

/-! ### Runs -/

/-- No system call; an `ALLOC` asks for less than `2^31` bytes, and its
growth, if it needs one, obtains its frames. -/
def Inst.Supplied (s : Sys) (p : Pid) (ins : Inst) (junk : VmRg) : Prop :=
  ins.opcode ≠ .syscall ∧ (ins.opcode = .alloc → ins.arg0.toNat < 2 ^ 31) ∧
    ∀ inc ∈ growthRequest s p ins, ¬GrowthFails s p inc junk

instance (s : Sys) (p : Pid) (ins : Inst) (junk : VmRg) : Decidable (ins.Supplied s p junk) :=
  inferInstanceAs (Decidable (_ ∧ (_ → _) ∧ ∀ inc ∈ growthRequest s p ins, _))

def Op.Supplied (s : Sys) : Op → Prop
  | .inst p ins junk => ins.Supplied s p junk
  | _ => True

instance (s : Sys) : (op : Op) → Decidable (op.Supplied s)
  | .inst p ins junk => inferInstanceAs (Decidable (ins.Supplied s p junk))
  | .load => inferInstanceAs (Decidable True)
  | .exit _ => inferInstanceAs (Decidable True)

def SuppliedStep (s : Sys) (op : Op) (t : Sys) : Prop := step s op = some t ∧ op.Supplied s

/-- The same, as a function. -/
def suppliedExec : Sys → List Op → Option Sys :=
  exec (guarded step fun s op _ => decide (op.Supplied s))

theorem run_of_suppliedExec {s t : Sys} {ops : List Op} (h : suppliedExec s ops = some t) :
    Run SuppliedStep s ops t :=
  run_of_exec_guarded (fun _ _ _ hstep hok => ⟨hstep, of_decide_eq_true hok⟩) h

/-- The growth request of an `ALLOC`. -/
theorem growthRequest_alloc {s : Sys} {p : Pid} {ins : Inst} (hop : ins.opcode = .alloc)
    {inc : Nat} : inc ∈ growthRequest s p ins ↔
      toUint32 ins.arg1.toNat < maxSymtblSz ∧ ins.arg0.toNat ≠ 0 ∧
        (getFreeVmrgArea s p (toInt ins.arg0.toNat)).1 = none ∧
        allocInc ins.arg0.toNat = inc := by
  rw [growthRequest, hop]
  simp only [Option.mem_def, Option.ite_none_left_eq_some, not_or, Nat.not_le,
    Option.some.injEq, Option.not_isSome_iff_eq_none, and_assoc, ne_eq]

/-- A request that obtains its frames stays in the lower half. -/
theorem Inv.supplied_low {ok : Prop} {s : Sys} {p : Pid} {size : Nat} {junk : VmRg}
    (h : Inv ok [] [] s) (hs : s.LowBreaks) (hp : p ∈ s.runningList) (hpos : size ≠ 0)
    (hsize : size < 2 ^ 31) (hok : ¬GrowthFails s p (allocInc size) junk) :
    SmallRequest s p (allocInc size) ∧ newBreak s p (allocInc size) ≤ 2 ^ 56 := by
  have hle : 0 < pageAlignSz size ∧ pageAlignSz size ≤ 2 ^ 31 := by
    simp only [pageAlignSz, pageSz]
    omega
  rw [allocInc_of_lt hsize] at hok ⊢
  have hreq : SmallRequest s p (pageAlignSz size) :=
    ⟨hle.1, hle.2, pageAlignSz_mod size, hs p hp, h.aligned p hp⟩
  refine ⟨hreq, ?_⟩
  rw [hreq.newBreak_eq]
  exact (grown_ok hreq hok).low

/-- The growth of an `ALLOC` that is supplied with frames. -/
theorem Inst.Supplied.grownOk {ok : Prop} {s u : Sys} {p : Pid} {ins : Inst} {junk : VmRg}
    (h : ins.Supplied s p junk) (hinv : Inv ok [] [] s) (hs : s.LowBreaks)
    (hp : p ∈ s.runningList) (hop : ins.opcode = .alloc)
    (hrgid : toUint32 ins.arg1.toNat < maxSymtblSz) (hu : Grows s p ins.arg0.toNat junk u) :
    GrownOk s p (allocInc ins.arg0.toNat) u ∧ u.kcpooltbl = s.kcpooltbl := by
  have hok := h.2.2 _ ((growthRequest_alloc hop).mpr
    ⟨hrgid, Nat.ne_of_gt hu.pos, by rw [hu.none], rfl⟩)
  obtain ⟨hreq, -⟩ := hinv.supplied_low hs hp (Nat.ne_of_gt hu.pos) (h.2.1 hop) hok
  obtain ⟨-, -, -, -, -, hpools, -⟩ := grown_region hu.accepted hok
  rw [hu.eq]
  exact ⟨grown_ok hreq hok, hpools⟩

theorem SuppliedStep.growthStep {ok : Prop} {s t : Sys} {op : Op} (h : SuppliedStep s op t)
    (hinv : Inv ok [] [] s) (hs : s.LowBreaks) : GrowthStep s op t := by
  obtain ⟨hstep, hok⟩ := h
  refine ⟨hstep, ?_, ?_⟩
  · cases op with
    | inst p ins junk => exact fun hop => absurd hop hok.1
    | load => trivial
    | exit p => trivial
  · obtain ⟨rfl, -⟩ | ⟨p, rfl, -⟩ | ⟨p, ins, junk, ret, rfl, hp, -⟩ := step_cases hstep
    · trivial
    · trivial
    · intro inc hinc
      obtain ⟨hsys, hsize, hgrow⟩ := hok
      have hok := hgrow inc hinc
      rcases eq_or_ne ins.opcode .alloc with hop | hop
      · obtain ⟨-, hpos, -, rfl⟩ := (growthRequest_alloc hop).mp hinc
        exact (hinv.supplied_low hs hp hpos (hsize hop) hok).2
      · rw [growthRequest] at hinc
        split at hinc
        · contradiction
        · contradiction
        · cases hinc

/-! ### What an instruction can do -/

theorem VmRg.eq_unused {rg : VmRg} (hstart : rg.rgStart = 0) (hend : rg.rgEnd = 0) :
    rg = ⟨0, 0⟩ := by
  cases rg
  cases hstart
  cases hend
  rfl

/-- What `__kmalloc` leaves. -/
inductive KmallocCase (s : Sys) (p : Pid) (rgid size : Nat) : Sys → Prop
  | refused : KmallocCase s p rgid size s
  | failed {u : Sys} (halloc : kernelAllocContiguousRegion s p size = (none, u)) :
      KmallocCase s p rgid size u
  | taken {u : Sys} {base sz : Nat} (hpos : size ≠ 0) (hrgid : rgid < maxSymtblSz)
      (hunused : s.symrgtbl p rgid = ⟨0, 0⟩)
      (halloc : kernelAllocContiguousRegion s p size = (some (base, sz), u)) :
      KmallocCase s p rgid size (u.setSymrg p rgid ⟨base, (base + size) % 2 ^ 64⟩)

theorem kmalloc_cases (s : Sys) (p : Pid) (rgid size : Nat) :
    KmallocCase s p rgid size (kmalloc s p rgid size).2 := by
  rw [kmalloc]
  split
  · exact .refused
  · rename_i hargs
    simp only [not_or, not_not, Nat.not_le] at hargs
    obtain ⟨hpos, hrgid, hstart, hend⟩ := hargs
    cases halloc : kernelAllocContiguousRegion s p size with
    | mk r u =>
        cases r with
        | none => exact .failed halloc
        | some r => exact .taken hpos hrgid (VmRg.eq_unused hstart hend) halloc

/-- What `__kmem_cache_alloc` leaves. -/
inductive CacheAllocCase (s : Sys) (p : Pid) (rgid id : Nat) : Sys → Prop
  | refused : CacheAllocCase s p rgid id s
  | taken {pool pool' : KcachePool} {slot : Nat} (hrgid : rgid < maxSymtblSz)
      (hunused : s.symrgtbl p rgid = ⟨0, 0⟩) (hpool : (s.kcpooltbl p)[id]? = some pool)
      (hsize : pool.size ≠ 0) (htake : takeSlot pool = some (slot, pool'))
      (hresult : (kmemCacheAlloc s p rgid id).1 = some slot) :
      CacheAllocCase s p rgid id ((s.setPools p ((s.kcpooltbl p).set id pool')).setSymrg p rgid
        ⟨slot, (slot + pool.size) % 2 ^ 64⟩)

/-- `__kmem_cache_alloc` takes a slot, or changes nothing. -/
theorem kmemCacheAlloc_eq (s : Sys) (p : Pid) (rgid id : Nat) :
    kmemCacheAlloc s p rgid id = (none, s) ∨ ∃ pool slot pool', rgid < maxSymtblSz ∧
      s.symrgtbl p rgid = ⟨0, 0⟩ ∧ (s.kcpooltbl p)[id]? = some pool ∧ pool.size ≠ 0 ∧
      takeSlot pool = some (slot, pool') ∧ kmemCacheAlloc s p rgid id =
        (some slot, (s.setPools p ((s.kcpooltbl p).set id pool')).setSymrg p rgid
          ⟨slot, (slot + pool.size) % 2 ^ 64⟩) := by
  rw [kmemCacheAlloc]
  split
  · exact .inl rfl
  · rename_i hargs
    rw [not_or, Nat.not_le, Nat.not_le] at hargs
    cases hpool : (s.kcpooltbl p)[id]? with
    | none => exact .inl rfl
    | some pool =>
        dsimp only
        split
        · exact .inl rfl
        · rename_i hfree
          simp only [not_or, not_not] at hfree
          obtain ⟨hsize, hstart, hend⟩ := hfree
          cases htake : takeSlot pool with
          | none => exact .inl rfl
          | some r =>
              obtain ⟨slot, pool'⟩ := r
              refine .inr ⟨pool, slot, pool', hargs.2, VmRg.eq_unused hstart hend, rfl, hsize,
                htake, ?_⟩
              dsimp only
              rw [(takeSlot_spec htake).1]

theorem kmemCacheAlloc_cases (s : Sys) (p : Pid) (rgid id : Nat) :
    CacheAllocCase s p rgid id (kmemCacheAlloc s p rgid id).2 := by
  obtain heq | ⟨pool, slot, pool', hrgid, hunused, hpool, hsize, htake, heq⟩ :=
    kmemCacheAlloc_eq s p rgid id
  · rw [heq]
    exact .refused
  · have hresult : (kmemCacheAlloc s p rgid id).1 = some slot := by rw [heq]
    rw [heq]
    exact .taken hrgid hunused hpool hsize htake hresult

/-- The pool that a creation puts into the table. -/
def createdPool (size align base allocSize : Nat) : KcachePool where
  size := size / align * align
  align := align
  slotCount := size / align * align / align
  storage := base
  allocSize := allocSize
  emptySlabs := [createCacheSlab base align (size / align * align / align)]
  partialSlabs := []
  fullSlabs := []

/-- What `libkmem_cache_pool_create` leaves: the table may have grown, and
the pages for the pool may have been had, and given back if there was no
memory for the slab. -/
inductive PoolCreateCase (s : Sys) (p : Pid) (size align id : Nat) : Sys → Prop
  | refused : PoolCreateCase s p size align id s
  | grown : PoolCreateCase s p size align id (growPools s p id).2
  | failed {u : Sys}
      (halloc : kernelAllocContiguousRegion (growPools s p id).2 p size = (none, u)) :
      PoolCreateCase s p size align id u
  | undone {u : Sys} {base sz : Nat} {pool : KcachePool} (host : Nat → Bool)
      (hpool : ((growPools s p id).2.kcpooltbl p)[id]? = some pool) (hunused : pool.size = 0)
      (halloc : kernelAllocContiguousRegion (growPools s p id).2 p size = (some (base, sz), u)) :
      PoolCreateCase s p size align id
        (let v := kernelReleaseContiguousRegion { u with host := host } base
          (toInt (pageAlignSz size / pageSz))
        v.setPools p ((v.kcpooltbl p).set id KcachePool.zero))
  | created {u : Sys} {base sz : Nat} {pool : KcachePool} (host : Nat → Bool) (hpos : size ≠ 0)
      (halign : align ≠ 0) (husable : size / align * align ≠ 0)
      (hpool : ((growPools s p id).2.kcpooltbl p)[id]? = some pool) (hunused : pool.size = 0)
      (halloc : kernelAllocContiguousRegion (growPools s p id).2 p size = (some (base, sz), u)) :
      PoolCreateCase s p size align id
        ({ u with host := host }.setPools p
          ((u.kcpooltbl p).set id (createdPool size align base sz)))

theorem libkmemCachePoolCreate_cases (s : Sys) (p : Pid) (size align id : Nat) :
    PoolCreateCase s p size align id (libkmemCachePoolCreate s p size align id).2 := by
  rw [libkmemCachePoolCreate]
  split
  · exact .refused
  · rename_i hargs
    simp only [not_or] at hargs
    dsimp only
    split
    · exact .refused
    · rename_i husable
      rw [not_or] at husable
      cases hgrow : growPools s p id with
      | mk ok u =>
          have hu : (growPools s p id).2 = u := by rw [hgrow]
          have hgrown : PoolCreateCase s p size align id u := hu ▸ .grown
          cases ok with
          | false => exact hgrown
          | true =>
              dsimp only
              cases hpool : (u.kcpooltbl p)[id]? with
              | none => exact hgrown
              | some pool =>
                  dsimp only
                  split
                  · exact hgrown
                  · rename_i hunused
                    rw [← hu] at hpool
                    cases halloc : kernelAllocContiguousRegion u p size with
                    | mk r v =>
                        rw [← hu] at halloc
                        cases r with
                        | none => exact .failed halloc
                        | some r =>
                            obtain ⟨base, sz⟩ := r
                            dsimp only
                            split
                            · rename_i host hd
                              exact .undone host hpool (not_not.mp hunused) halloc
                            · rename_i host hd
                              exact .created host hargs.2.1 hargs.2.2 husable.1 hpool
                                (not_not.mp hunused) halloc

/-- What an instruction other than a system call does, registers apart. -/
inductive InstCase (s : Sys) (p : Pid) (ins : Inst) (junk : VmRg) : Sys → Prop
  | refused : InstCase s p ins junk s
  | access {t : Sys} (hop : ins.opcode ∈ [.read, .write, .copyFromUser, .copyToUser])
      (hacc : Accesses s t) : InstCase s p ins junk t
  | alloc {t : Sys} {ret : Int} (hop : ins.opcode = .alloc)
      (halloc : Mem.alloc s p (toUint32 ins.arg1.toNat) ins.arg0.toNat junk = some (ret, t)) :
      InstCase s p ins junk t
  | free (hop : ins.opcode = .free) :
      InstCase s p ins junk (Mem.free s p (toUint32 ins.arg0.toNat)).2
  | kmalloc {t : Sys} (regs : Pid → Nat → Nat) (hop : ins.opcode = .kmalloc)
      (hcase : KmallocCase s p (toUint32 ins.arg1.toNat) (toUint32 ins.arg0.toNat) t) :
      InstCase s p ins junk { t with regs := regs }
  | poolCreate {t : Sys} (hop : ins.opcode = .kmemCacheCreate)
      (hcase : PoolCreateCase s p (toUint32 ins.arg0.toNat) (toUint32 ins.arg1.toNat)
        (toUint32 ins.arg2.toNat) t) : InstCase s p ins junk t
  | cacheAlloc {t : Sys} (regs : Pid → Nat → Nat) (hop : ins.opcode = .kmemCacheAlloc)
      (hcase : CacheAllocCase s p (toUint32 ins.arg1.toNat) (toUint32 ins.arg0.toNat) t) :
      InstCase s p ins junk { t with regs := regs }

/-- Only a register changes when an address is returned. -/
theorem returnAddr_cases {p : Pid} {reg : Nat} {r : Option Nat × Sys} {ret : Int} {t : Sys}
    (h : returnAddr p reg r = some (ret, t)) : ∃ regs, t = { r.2 with regs := regs } := by
  obtain ⟨_ | addr, u⟩ := r
  · cases h
    exact ⟨_, rfl⟩
  · rw [returnAddr] at h
    split at h
    · cases h
    · cases h
      exact ⟨_, rfl⟩

theorem run_cases {s t : Sys} {p : Pid} {ins : Inst} {junk : VmRg} {ret : Int}
    (hsys : ins.opcode ≠ .syscall) (hrun : run s p ins junk = some (ret, t)) :
    InstCase s p ins junk t := by
  rw [run] at hrun
  split at hrun
  all_goals rename_i hop
  · cases hrun
    exact .refused
  · exact .alloc hop hrun
  · rw [libkmemMalloc] at hrun
    split at hrun
    · cases hrun
      exact .refused
    · obtain ⟨regs, rfl⟩ := returnAddr_cases hrun
      exact .kmalloc regs hop (kmalloc_cases ..)
  · rw [← snd_eq_of_some hrun]
    exact .poolCreate hop (libkmemCachePoolCreate_cases ..)
  · rw [libkmemCacheAlloc] at hrun
    split at hrun
    · cases hrun
      exact .refused
    · obtain ⟨regs, rfl⟩ := returnAddr_cases hrun
      exact .cacheAlloc regs hop (kmemCacheAlloc_cases ..)
  · rw [← snd_eq_of_some hrun, libkmemCopyFromUser]
    split
    · exact .refused
    · exact .access (by simp [hop]) (.copyFromUser ..)
  · rw [← snd_eq_of_some hrun, libkmemCopyToUser]
    split
    · exact .refused
    · exact .access (by simp [hop]) (.copyToUser ..)
  · rw [← snd_eq_of_some hrun]
    exact .free hop
  · exact .access (by simp [hop]) (.libread hrun)
  · rw [← snd_eq_of_some hrun]
    exact .access (by simp [hop]) (.libwrite ..)
  · contradiction

/-- What holds of the area, the regions and the pools of every process: a new
process has none, and only an instruction of the process itself changes
them. -/
theorem forall_step {I : Sys → Pid → Prop}
    (hframe : ∀ {s t : Sys} {p : Pid}, t.mmap p = s.mmap p → t.symrgtbl p = s.symrgtbl p →
      t.kcpooltbl p = s.kcpooltbl p → I s p → I t p)
    (hempty : ∀ {t : Sys} {p : Pid}, t.mmap p = ⟨0, 0, 0, []⟩ →
      (t.symrgtbl p = fun _ => ⟨0, 0⟩) → t.kcpooltbl p = [] → I t p)
    {s t : Sys} {op : Op} (hnodup : s.runningList.Nodup) (h : ∀ p ∈ s.runningList, I s p)
    (hstep : step s op = some t)
    (hrun : ∀ p ins junk ret, op = .inst p ins junk → p ∈ s.runningList →
      run s p ins junk = some (ret, t) → I t p) : ∀ p ∈ t.runningList, I t p := by
  intro p hp
  obtain ⟨-, hload⟩ | ⟨q, -, hq, rfl⟩ | ⟨q, ins, junk, ret, rfl, hq, hins⟩ := step_cases hstep
  · simp only [loadProc] at hload
    split at hload
    · cases hload
      rcases eq_or_ne p s.availPid with rfl | hne
      · exact hempty (Function.update_self ..) (Function.update_self ..)
          (Function.update_self ..)
      · exact hframe (Function.update_of_ne hne ..) (Function.update_of_ne hne ..)
          (Function.update_of_ne hne ..) (h p (by simpa [hne] using hp))
    · cases hload
  · have hpriv := exitProc_private s q
    rw [hpriv.runningList] at hp
    obtain ⟨hne, hp⟩ := hnodup.mem_erase_iff.mp hp
    exact hframe (s := s) (hpriv.mmap p hne) (hpriv.symrgtbl p hne) (hpriv.kcpooltbl p hne) (h p hp)
  · have hpriv := Private.run hins
    rw [hpriv.runningList] at hp
    rcases eq_or_ne p q with rfl | hne
    · exact hrun p ins junk ret rfl hq hins
    · exact hframe (hpriv.mmap p hne) (hpriv.symrgtbl p hne) (hpriv.kcpooltbl p hne) (h p hp)

/-! ### Pools -/

/-- A pool that was created lies in kernel memory, and so do its objects. -/
structure PoolPlaced (pool : KcachePool) : Prop where
  base : kmemVaddrBase ≤ pool.storage
  alloc : pool.allocSize ≠ 0
  top : pool.storage + pool.allocSize ≤ kmemTop
  fits : pool.size ≤ pool.allocSize
  slots : ∀ slab ∈ pool.emptySlabs ++ pool.partialSlabs, ∀ slot ∈ slab.freeList,
    pool.storage ≤ slot ∧ slot < pool.storage + pool.size

theorem PoolPlaced.takeSlot {pool pool' : KcachePool} {slot : Nat} (h : PoolPlaced pool)
    (htake : Mem.takeSlot pool = some (slot, pool')) :
    PoolPlaced pool' ∧ pool.storage ≤ slot ∧ slot < pool.storage + pool.size := by
  obtain ⟨hsize, hstorage, halloc, ⟨slab, hslab, hslot⟩, hslots⟩ := takeSlot_spec htake
  refine ⟨⟨?_, ?_, ?_, ?_, fun slab' hslab' x hx => ?_⟩, h.slots slab hslab slot hslot⟩
  · rw [hstorage]
    exact h.base
  · rw [halloc]
    exact h.alloc
  · rw [hstorage, halloc]
    exact h.top
  · rw [hsize, halloc]
    exact h.fits
  · obtain ⟨slab, hslab, hx⟩ := hslots slab' hslab' x hx
    rw [hstorage, hsize]
    exact h.slots slab hslab x hx

/-- The pool that a creation puts into the table. -/
theorem poolPlaced_create {size align base : Nat} (hsize : size < 2 ^ 32) (hpos : 0 < size)
    (halign : 0 < align) (hbase : kmemVaddrBase ≤ base)
    (htop : base + pageAlignSz size ≤ kmemTop) :
    PoolPlaced
      { size := size / align * align
        align := align
        slotCount := size / align * align / align
        storage := base
        allocSize := pageAlignSz size
        emptySlabs := [createCacheSlab base align (size / align * align / align)]
        partialSlabs := []
        fullSlabs := [] } := by
  have hle : size ≤ pageAlignSz size ∧ 0 < pageAlignSz size := by
    simp only [pageAlignSz, pageSz]
    omega
  have husable := Nat.div_mul_le_self size align
  refine ⟨hbase, by dsimp only; omega, htop, by dsimp only; omega, fun slab hslab slot hslot => ?_⟩
  simp only [List.append_nil, List.mem_singleton] at hslab
  subst hslab
  obtain ⟨idx, hidx, rfl⟩ := List.mem_map.mp hslot
  -- the last slot ends at or before the end of the usable size
  have hfit : (idx + 1) * align ≤ size / align * align :=
    (Nat.mul_le_mul_right align (List.mem_range.mp hidx)).trans (Nat.div_mul_le_self _ _)
  rw [Nat.add_mul, Nat.one_mul] at hfit
  have hlast : kmemTop < 2 ^ 64 := by decide
  dsimp only
  omega

/-! ### The invariant -/

/-- The last address a region ends at: an object is taken to be as long as
its pool. -/
def regionTop : Nat := kmemTop + 2 ^ 32

structure Placed (s : Sys) (p : Pid) : Prop where
  within : Within regionTop (regions s p)
  pools : ∀ pool ∈ s.kcpooltbl p, pool.size = 0 ∨ PoolPlaced pool

namespace Placed

variable {s t : Sys} {p q : Pid}

theorem frame (h : Placed s p) (hregions : regions t p = regions s p)
    (hpools : t.kcpooltbl p = s.kcpooltbl p) : Placed t p where
  within := hregions ▸ h.within
  pools := hpools ▸ h.pools

theorem of_kernel (h : Placed s p) (hst : KernelChange s t) : Placed t p := by
  obtain ⟨_, _, _, _, rfl⟩ := hst
  exact h.frame rfl rfl

theorem of_empty (hmmap : t.mmap p = ⟨0, 0, 0, []⟩) (hsym : t.symrgtbl p = fun _ => ⟨0, 0⟩)
    (hpools : t.kcpooltbl p = []) : Placed t p where
  within := (Holdings.of_empty hmmap hsym hpools).within.mono (Nat.le_add_right _ _)
  pools pool hpool := by
    rw [hpools] at hpool
    cases hpool

theorem setSymrg (h : Placed s p) {rgid : Nat} {rg : VmRg}
    (hrg : rg.rgStart ≤ rg.rgEnd ∧ rg.rgEnd ≤ regionTop) : Placed (s.setSymrg p rgid rg) p where
  within := by
    obtain ⟨hsym, hfree⟩ := within_append.mp h.within
    exact within_append.mpr ⟨within_setSymrg hsym hrg, hfree⟩
  pools := h.pools

theorem setPools (h : Placed s p) {pools : List KcachePool}
    (hpools : ∀ pool ∈ pools, pool.size = 0 ∨ PoolPlaced pool) : Placed (s.setPools p pools) p where
  within := h.within
  pools pool hpool := by
    rw [Sys.setPools] at hpool
    simp only [Function.update_self] at hpool
    exact hpools pool hpool

theorem setPool (h : Placed s p) {id : Nat} {pool : KcachePool}
    (hpool : pool.size = 0 ∨ PoolPlaced pool) :
    Placed (s.setPools p ((s.kcpooltbl p).set id pool)) p := by
  refine h.setPools fun pool' hmem => ?_
  rcases List.mem_or_eq_of_mem_set hmem with hmem | rfl
  · exact h.pools pool' hmem
  · exact hpool

theorem returnAddr {reg : Nat} {r : Option Nat × Sys} {ret : Int} (h : Placed r.2 p)
    (hr : Mem.returnAddr p reg r = some (ret, t)) : Placed t p := by
  obtain ⟨_ | addr, u⟩ := r
  · cases hr
    exact h
  · rw [Mem.returnAddr] at hr
    split at hr
    · cases hr
    · cases hr
      exact h.frame rfl rfl

/-! ### ALLOC and FREE -/

theorem grow (h : Placed s p) {inc : Nat} (ht : GrownOk s p inc t)
    (hpools : t.kcpooltbl = s.kcpooltbl) : Placed t p := by
  obtain ⟨hsym, hfree⟩ := within_append.mp h.within
  have hlow := ht.low
  have htop : 2 ^ 56 ≤ regionTop := by decide
  refine ⟨?_, fun pool hpool => h.pools pool ?_⟩
  · rw [regions, symRegions, ht.symrgtbl, ht.mmap]
    refine within_append.mpr ⟨hsym, within_enlistVmRgNode (.cons ?_ hfree)⟩
    exact ⟨Nat.le_add_right _ _, hlow.trans htop⟩
  · rw [hpools] at hpool
    exact hpool

theorem alloc {rgid size : Nat} {junk : VmRg} {ret : Int} (h : Placed s p)
    (hsize : size < 2 ^ 31)
    (hgrow : ∀ u, Grows s p size junk u →
      GrownOk s p (allocInc size) u ∧ u.kcpooltbl = s.kcpooltbl)
    (halloc : Mem.alloc s p rgid size junk = some (ret, t)) : Placed t p := by
  have hgrown {u : Sys} (hu : Grows s p size junk u) : Placed u p :=
    h.grow (hgrow u hu).1 (hgrow u hu).2
  obtain ⟨hpos, hint⟩ := RegionInv.toInt_of_lt hsize
  have htop : regionTop + 2 ^ 31 < 2 ^ 64 := by decide
  cases alloc_cases htop hpos (within_append.mp h.within).2
    (fun u hu => (within_append.mp (hgrown hu).within).2) halloc with
  | refused host => exact h.frame rfl rfl
  | grown hu => exact hgrown hu
  | @taken u rg rest hu hrgid htake =>
      have hu : Placed u p := hu.elim (fun heq => heq ▸ h) hgrown
      rw [hint] at htake
      obtain ⟨hend, hle, hwithin, -⟩ :=
        takeFree_spec (within_append.mp hu.within).2 (by omega) htake
      exact ⟨within_regions_take hu.within ⟨by omega, hle⟩ hwithin, hu.pools⟩

theorem free (h : Placed s p) (rgid : Nat) : Placed (Mem.free s p rgid).2 p := by
  rw [Mem.free]
  split
  · exact h
  · rename_i hrgid
    dsimp only
    split
    · exact h
    · split
      · exact h.frame rfl rfl
      · rename_i host hd
        have hdraw : Placed { s with host := host } p := h.frame rfl rfl
        exact ⟨within_regions_give hdraw.within (Nat.not_le.mp hrgid), h.pools⟩

/-! ### KMALLOC and cache pools -/

theorem kmalloc {ok : Prop} {rgid size : Nat} (hinv : Inv ok [] [] s) (h : Placed s p)
    (hsize : size < 2 ^ 32) (hcase : KmallocCase s p rgid size t) : Placed t p := by
  have halloc := allocated hinv p hsize
  have hchange := kernelChange_alloc s p size
  cases hcase with
  | refused => exact h
  | failed heq =>
      rw [heq] at hchange
      exact h.of_kernel hchange
  | @taken u base sz hpos hrgid hunused heq =>
      rw [heq] at halloc hchange
      obtain ⟨rfl, hbase, htop, -⟩ := halloc.region base sz rfl
      have hle : size ≤ pageAlignSz size := by
        simp only [pageAlignSz, pageSz]
        omega
      have hlast : regionTop = kmemTop + 2 ^ 32 ∧ kmemTop < 2 ^ 64 := by decide
      refine (h.of_kernel hchange).setSymrg ?_
      dsimp only
      omega

theorem cacheAlloc {rgid id : Nat} (h : Placed s p) (hcase : CacheAllocCase s p rgid id t) :
    Placed t p := by
  cases hcase with
  | refused => exact h
  | @taken pool pool' slot hrgid hunused hpool hsize htake _ =>
      have hplaced := (h.pools pool (List.mem_of_getElem? hpool)).resolve_left hsize
      obtain ⟨hplaced', hlo, hhi⟩ := hplaced.takeSlot htake
      have htop := hplaced.top
      have hfits := hplaced.fits
      have hbase := hplaced.base
      have hlast : regionTop = kmemTop + 2 ^ 32 ∧ kmemTop = kmemVaddrBase + 2 ^ 31 ∧
        regionTop < 2 ^ 64 := by decide
      refine (h.setPool (.inr hplaced')).setSymrg ?_
      dsimp only
      omega

theorem growPools (h : Placed s p) (id : Nat) : Placed (Mem.growPools s p id).2 p := by
  rw [Mem.growPools]
  split
  · exact h
  · split
    · exact h.frame rfl rfl
    · rename_i host hd
      have hdraw : Placed { s with host := host } p := h.frame rfl rfl
      refine hdraw.setPools fun pool hmem => ?_
      rcases List.mem_append.mp hmem with hmem | hmem
      · exact hdraw.pools pool hmem
      · rw [List.eq_of_mem_replicate hmem]
        exact .inl rfl

theorem poolCreate {ok : Prop} {size align id : Nat} (hinv : Inv ok [] [] s) (h : Placed s p)
    (hsize : size < 2 ^ 32) (hcase : PoolCreateCase s p size align id t) : Placed t p := by
  have hgrown := h.growPools id
  have halloc := allocated (hinv.growPools p id) p hsize
  have hchange := kernelChange_alloc (Mem.growPools s p id).2 p size
  cases hcase with
  | refused => exact h
  | grown => exact hgrown
  | failed heq =>
      rw [heq] at hchange
      exact hgrown.of_kernel hchange
  | @undone u base sz pool host _ _ heq =>
      rw [heq] at hchange
      have hu : Placed { u with host := host } p := (hgrown.of_kernel hchange).frame rfl rfl
      exact (hu.of_kernel (kernelChange_release ..)).setPool (.inl rfl)
  | @created u base sz pool host hpos halign _ _ _ heq =>
      rw [heq] at halloc hchange
      obtain ⟨rfl, hbase, htop, -⟩ := halloc.region base sz rfl
      have hu : Placed { u with host := host } p := (hgrown.of_kernel hchange).frame rfl rfl
      exact hu.setPool (.inr (poolPlaced_create hsize (Nat.pos_of_ne_zero hpos)
        (Nat.pos_of_ne_zero halign) hbase htop))

/-! ### Steps and runs -/

theorem run {ok : Prop} {ins : Inst} {junk : VmRg} {ret : Int} (hinv : Inv ok [] [] s)
    (hs : s.LowBreaks) (hp : p ∈ s.runningList) (h : Placed s p) (hok : ins.Supplied s p junk)
    (hrun : Mem.run s p ins junk = some (ret, t)) : Placed t p := by
  cases run_cases hok.1 hrun with
  | refused => exact h
  | access hop hacc =>
      refine h.frame ?_ (congrFun hacc.kcpooltbl p)
      rw [regions, regions, symRegions, symRegions, hacc.mmap, hacc.symrgtbl]
  | alloc hop halloc =>
      rcases Nat.lt_or_ge (toUint32 ins.arg1.toNat) maxSymtblSz with hrgid | hrgid
      · exact h.alloc (hok.2.1 hop) (fun u hu => hok.grownOk hinv hs hp hop hrgid hu) halloc
      · rw [Mem.alloc, if_pos (.inl hrgid)] at halloc
        cases halloc
        exact h
  | free hop => exact h.free _
  | kmalloc regs hop hcase => exact (h.kmalloc hinv (toUint32_lt _) hcase).frame rfl rfl
  | poolCreate hop hcase => exact h.poolCreate hinv (toUint32_lt _) hcase
  | cacheAlloc regs hop hcase => exact (h.cacheAlloc hcase).frame rfl rfl

theorem step {ok : Prop} {op : Op} (hinv : Inv ok [] [] s) (hs : s.LowBreaks)
    (h : ∀ p ∈ s.runningList, Placed s p) (hstep : SuppliedStep s op t) :
    ∀ p ∈ t.runningList, Placed t p := by
  refine forall_step (I := Placed) (fun hmmap hsym hpools hs => hs.frame ?_ hpools) of_empty
    hinv.nodup h hstep.1 fun p ins junk ret hop hp hrun => ?_
  · rw [regions, regions, symRegions, symRegions, hmmap, hsym]
  · subst hop
    exact (h p hp).run hinv hs hp hstep.2 hrun

end Placed

/-- What holds in every state of a run that is supplied with frames. -/
structure PlacedInv (ok : Prop) (s : Sys) : Prop where
  inv : Inv ok [] [] s
  low : s.LowBreaks
  placed : ∀ p ∈ s.runningList, Placed s p

theorem PlacedInv.step {ok : Prop} {s t : Sys} {op : Op} (h : PlacedInv ok s)
    (hstep : SuppliedStep s op t) : PlacedInv ok t := by
  obtain ⟨hinv, hlow⟩ := Inv.growthStep ⟨h.inv, h.low⟩ (hstep.growthStep h.inv h.low)
  exact ⟨hinv, hlow, Placed.step h.inv h.low h.placed hstep⟩

theorem PlacedInv.boot (ramSz swpSz : Nat) (host : Nat → Bool) :
    PlacedInv (host = fun _ => true) (Mem.boot ramSz swpSz host) :=
  ⟨.boot ramSz swpSz host, fun _ hp => (by cases hp), fun _ hp => (by cases hp)⟩

end Ossim.Mem
