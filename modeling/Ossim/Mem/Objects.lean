import Ossim.Mem.UserHalf

/-!
Objects of cache pools, as long as every pool gives out one.

The slots of a pool are as far apart as its alignment, but the region of an
object is as long as the whole pool. The first object has the pool to
itself; every further one overlaps it, and may end behind the pages of the
pool. In runs in which no pool is asked for a second object all regions of
kernel memory are apart, and those that meet a pool lie inside it.
-/

namespace Ossim.Mem

open Ossim.Lib

/-! ### Runs -/

/-- A `KMEM_CACHE_ALLOC` under these names takes an object of a pool that has
given out another one before. -/
def TakesFurther (s : Sys) (p : Pid) (rgid id : Nat) : Prop :=
  rgid < maxSymtblSz ∧ s.symrgtbl p rgid = ⟨0, 0⟩ ∧
    ∃ pool ∈ (s.kcpooltbl p)[id]?, pool.partialSlabs ≠ []

instance (s : Sys) (p : Pid) (rgid id : Nat) : Decidable (TakesFurther s p rgid id) :=
  inferInstanceAs (Decidable (_ ∧ _ ∧ ∃ pool ∈ (s.kcpooltbl p)[id]?, _))

/-- The step takes no further object of a pool. -/
def Op.FirstObject (s : Sys) : Op → Prop
  | .inst p ins _ => ins.opcode = .kmemCacheAlloc →
    ¬TakesFurther s p (toUint32 ins.arg1.toNat) (toUint32 ins.arg0.toNat)
  | _ => True

instance (s : Sys) : (op : Op) → Decidable (op.FirstObject s)
  | .inst _ ins _ => inferInstanceAs (Decidable (ins.opcode = .kmemCacheAlloc → _))
  | .load => inferInstanceAs (Decidable True)
  | .exit _ => inferInstanceAs (Decidable True)

def ObjectStep (s : Sys) (op : Op) (t : Sys) : Prop := KeepingStep s op t ∧ op.FirstObject s

/-- The same, as a function. -/
def objectExec : Sys → List Op → Option Sys :=
  exec (guarded step fun s op _ =>
    decide (op.Supplied s ∧ op.KeepsKernel s ∧ op.FirstObject s))

theorem run_of_objectExec {s t : Sys} {ops : List Op} (h : objectExec s ops = some t) :
    Run ObjectStep s ops t :=
  run_of_exec_guarded (fun _ _ _ hstep hok =>
    have hok := of_decide_eq_true hok
    ⟨⟨⟨hstep, hok.1⟩, hok.2.1⟩, hok.2.2⟩) h

/-! ### Pools -/

/-- The byte belongs to the pages of the pool. -/
def KcachePool.Holds (pool : KcachePool) (x : Nat) : Prop :=
  pool.size ≠ 0 ∧ pool.storage ≤ x ∧ x < pool.storage + pool.allocSize

/-- A pool whose slab is still empty hands out its first slot. -/
def FirstSlot (pool : KcachePool) : Prop :=
  ∀ slab rest, pool.emptySlabs = slab :: rest →
    rest = [] ∧ slab.freeList.head? = some pool.storage

/-- A pool without a partial slab gives out its first object. -/
theorem FirstSlot.takeSlot {pool pool' : KcachePool} {slot : Nat} (h : FirstSlot pool)
    (hpart : pool.partialSlabs = []) (htake : Mem.takeSlot pool = some (slot, pool')) :
    slot = pool.storage ∧ pool.emptySlabs ≠ [] ∧ pool'.emptySlabs = [] := by
  obtain ⟨size, align, slotCount, storage, allocSize, emptySlabs, partialSlabs, fullSlabs⟩ := pool
  dsimp only at hpart
  subst hpart
  cases emptySlabs with
  | nil => cases htake
  | cons slab rest =>
      obtain ⟨rfl, hhead⟩ := h slab rest rfl
      rw [Mem.takeSlot] at htake
      dsimp only at htake hhead ⊢
      cases hfree : slab.freeList with
      | nil =>
          rw [hfree] at hhead
          cases hhead
      | cons first slots =>
          rw [hfree] at htake hhead
          dsimp only at htake
          cases hhead
          split at htake
          all_goals
            cases htake
            exact ⟨rfl, List.cons_ne_nil _ _, rfl⟩

theorem firstSlot_create {size align base sz : Nat} (halign : align ≠ 0)
    (husable : size / align * align ≠ 0) (hbase : base < 2 ^ 64) :
    FirstSlot (createdPool size align base sz) := by
  rintro slab rest heq
  simp only [createdPool, List.cons.injEq] at heq
  obtain ⟨rfl, rfl⟩ := heq
  refine ⟨rfl, ?_⟩
  have hcount : 0 < size / align * align / align := by
    rw [Nat.mul_div_cancel _ (Nat.pos_of_ne_zero halign)]
    exact Nat.pos_of_ne_zero fun hzero => husable (by rw [hzero, Nat.zero_mul])
  obtain ⟨n, hn⟩ := Nat.exists_eq_add_of_lt hcount
  rw [createCacheSlab, hn, Nat.zero_add, List.range_succ_eq_map, List.map_cons, List.head?_cons,
    Nat.zero_mul, Nat.add_zero, Nat.mod_eq_of_lt hbase]
  rfl

/-! ### The invariant -/

/-- What the regions and pools of one process have to do with each other in
kernel memory. -/
structure Slabs (s : Sys) (p : Pid) : Prop where
  first : ∀ pool ∈ s.kcpooltbl p, pool.size ≠ 0 → FirstSlot pool
  names : ∀ i < maxSymtblSz, ∀ j < maxSymtblSz, ∀ x, kmemVaddrBase ≤ x →
    (s.symrgtbl p i).covers x = true → (s.symrgtbl p j).covers x = true → i = j
  pools : ∀ (i j : Nat) (a b : KcachePool) x, (s.kcpooltbl p)[i]? = some a →
    (s.kcpooltbl p)[j]? = some b → a.Holds x → b.Holds x → i = j
  /-- a region that meets a pool is the object of this pool -/
  object : ∀ i < maxSymtblSz, ∀ pool ∈ s.kcpooltbl p, ∀ x, kmemVaddrBase ≤ x →
    (s.symrgtbl p i).covers x = true → pool.Holds x →
      pool.emptySlabs = [] ∧ ∀ y, (s.symrgtbl p i).covers y = true → pool.Holds y

/-- The pages of an allocation were not in use. -/
theorem Allocated.not_owned {s t : Sys} {p q : Pid} {size base sz x : Nat}
    (h : Allocated s p size (kernelAllocContiguousRegion s p size)) (hsize : size < 2 ^ 32)
    (heq : kernelAllocContiguousRegion s p size = (some (base, sz), t)) (hlo : base ≤ x)
    (hhi : x < base + sz) : ¬Owned s q x := by
  have haligned := aligned_alloc heq
  rw [heq] at h
  obtain ⟨rfl, hbase, htop, -⟩ := h.region base sz rfl
  rintro ⟨fp, hfp, -, hx⟩
  have hlast : kmemTop < 2 ^ 64 := by decide
  refine h.fresh base _ rfl fp hfp (fp.fpn - kernelFpnFromVaddr base) ?_ ?_
  all_goals
    simp only [kernelFpnFromVaddr, kmemVaddrBase, toInt, pageAlignSz, pageSz] at *
    omega

/-- What a name of the process covers in kernel memory, the process owns. -/
theorem Holdings.owned_name {s : Sys} {p : Pid} {i x : Nat} (h : Holdings s p)
    (hi : i < maxSymtblSz) (hx : kmemVaddrBase ≤ x) (hcover : (s.symrgtbl p i).covers x = true) :
    Owned s p x := by
  refine h.owned x hx ?_
  rw [regions, cover, List.countP_append]
  exact Nat.add_pos_left (List.countP_pos_iff.mpr ⟨_, mem_symRegions hi, hcover⟩) _

namespace Slabs

variable {ok : Prop} {s t : Sys} {p : Pid}

theorem frame (h : Slabs s p) (hsym : t.symrgtbl p = s.symrgtbl p)
    (hpools : t.kcpooltbl p = s.kcpooltbl p) : Slabs t p where
  first := by
    rw [hpools]
    exact h.first
  names := by
    rw [hsym]
    exact h.names
  pools := by
    rw [hpools]
    exact h.pools
  object := by
    rw [hsym, hpools]
    exact h.object

theorem of_kernel (h : Slabs s p) (hst : KernelChange s t) : Slabs t p := by
  obtain ⟨_, _, _, _, rfl⟩ := hst
  exact h.frame rfl rfl

theorem of_empty (hsym : t.symrgtbl p = fun _ => ⟨0, 0⟩) (hpools : t.kcpooltbl p = []) :
    Slabs t p where
  first pool hpool := by
    rw [hpools] at hpool
    cases hpool
  names i _ j _ x _ hi := by
    rw [hsym, VmRg.covers_iff] at hi
    exact absurd hi.2 (Nat.not_lt_zero x)
  pools i j a b x ha := by
    rw [hpools] at ha
    cases ha
  object i _ pool hpool := by
    rw [hpools] at hpool
    cases hpool

/-- A name gets another region. -/
theorem setSymrg (h : Slabs s p) {rgid : Nat} {rg : VmRg}
    (hnames : ∀ i < maxSymtblSz, i ≠ rgid → ∀ x, kmemVaddrBase ≤ x → rg.covers x = true →
      (s.symrgtbl p i).covers x ≠ true)
    (hobject : ∀ pool ∈ s.kcpooltbl p, ∀ x, kmemVaddrBase ≤ x → rg.covers x = true →
      pool.Holds x → pool.emptySlabs = [] ∧ ∀ y, rg.covers y = true → pool.Holds y) :
    Slabs (s.setSymrg p rgid rg) p where
  first := h.first
  names i hi j hj x hx hcover hcover' := by
    simp only [Sys.setSymrg, Function.update_self] at hcover hcover'
    rcases eq_or_ne i rgid with rfl | hir
    · rw [Function.update_self] at hcover
      by_contra hne
      rw [Function.update_of_ne (Ne.symm hne)] at hcover'
      exact hnames j hj (Ne.symm hne) x hx hcover hcover'
    · rw [Function.update_of_ne hir] at hcover
      rcases eq_or_ne j rgid with rfl | hjr
      · rw [Function.update_self] at hcover'
        exact absurd hcover (hnames i hi hir x hx hcover')
      · rw [Function.update_of_ne hjr] at hcover'
        exact h.names i hi j hj x hx hcover hcover'
  pools := h.pools
  object i hi pool hpool x hx := by
    simp only [Sys.setSymrg, Function.update_self]
    rcases eq_or_ne i rgid with rfl | hir
    · simp only [Function.update_self]
      exact hobject pool hpool x hx
    · simp only [Function.update_of_ne hir]
      exact h.object i hi pool hpool x hx

/-- A name gets a region outside kernel memory. -/
theorem setUser (h : Slabs s p) {rgid : Nat} {rg : VmRg} (hrg : rg.rgEnd ≤ kmemVaddrBase) :
    Slabs (s.setSymrg p rgid rg) p := by
  refine h.setSymrg (fun i _ _ x hx hcover => ?_) fun pool _ x hx hcover => ?_
  all_goals
    rw [VmRg.covers_iff] at hcover
    omega

/-- The table has no other pools in use. -/
theorem setPools (h : Slabs s p) {l : List KcachePool}
    (hl : ∀ (i : Nat) pool, l[i]? = some pool → pool.size ≠ 0 → (s.kcpooltbl p)[i]? = some pool) :
    Slabs (s.setPools p l) p := by
  have hmem (pool : KcachePool) (hpool : pool ∈ l) (hsize : pool.size ≠ 0) :
      pool ∈ s.kcpooltbl p := by
    obtain ⟨i, hi⟩ := List.getElem?_of_mem hpool
    exact List.mem_of_getElem? (hl i pool hi hsize)
  refine ⟨fun pool hpool hsize => ?_, h.names, fun i j a b x ha hb hax hbx => ?_,
    fun i hi pool hpool x hx hcover hhold => ?_⟩
  all_goals simp only [Sys.setPools, Function.update_self] at *
  · exact h.first pool (hmem pool hpool hsize) hsize
  · exact h.pools i j a b x (hl i a ha hax.1) (hl j b hb hbx.1) hax hbx
  · exact h.object i hi pool (hmem pool hpool hhold.1) x hx hcover hhold

/-- One pool is replaced. -/
theorem setPool (h : Slabs s p) {id : Nat} {pool : KcachePool} (hfirst : FirstSlot pool)
    (hpools : ∀ (i : Nat) old, i ≠ id → (s.kcpooltbl p)[i]? = some old →
      ∀ x, pool.Holds x → ¬old.Holds x)
    (hobject : ∀ i < maxSymtblSz, ∀ x, kmemVaddrBase ≤ x → (s.symrgtbl p i).covers x = true →
      pool.Holds x → pool.emptySlabs = [] ∧
        ∀ y, (s.symrgtbl p i).covers y = true → pool.Holds y) :
    Slabs (s.setPools p ((s.kcpooltbl p).set id pool)) p := by
  have hcases (i : Nat) (a : KcachePool) (ha : ((s.kcpooltbl p).set id pool)[i]? = some a) :
      i = id ∧ a = pool ∨ i ≠ id ∧ (s.kcpooltbl p)[i]? = some a := by
    rcases eq_or_ne i id with rfl | hne
    · rw [List.getElem?_set_self'] at ha
      obtain ⟨-, -, rfl⟩ := Option.map_eq_some_iff.mp ha
      exact .inl ⟨rfl, rfl⟩
    · rw [List.getElem?_set_ne (Ne.symm hne)] at ha
      exact .inr ⟨hne, ha⟩
  refine ⟨fun a ha hsize => ?_, h.names, fun i j a b x ha hb hax hbx => ?_,
    fun i hi a ha x hx hcover hhold => ?_⟩
  all_goals simp only [Sys.setPools, Function.update_self] at ha
  · rcases List.mem_or_eq_of_mem_set ha with ha | rfl
    · exact h.first a ha hsize
    · exact hfirst
  · simp only [Sys.setPools, Function.update_self] at hb
    obtain ⟨rfl, rfl⟩ | ⟨hi, hold⟩ := hcases i a ha
    · obtain ⟨rfl, -⟩ | ⟨hj, hold⟩ := hcases j b hb
      · rfl
      · exact absurd hbx (hpools j b hj hold x hax)
    · obtain ⟨rfl, rfl⟩ | ⟨-, hold'⟩ := hcases j b hb
      · exact absurd hax (hpools i a hi hold x hbx)
      · exact h.pools i j a b x hold hold' hax hbx
  · rcases List.mem_or_eq_of_mem_set ha with ha | rfl
    · exact h.object i hi a ha x hx hcover hhold
    · exact hobject i hi x hx hcover hhold

/-! ### Instructions -/

/-- A region of pages that were not in use. -/
theorem kmalloc {rgid size : Nat} (hinv : Inv ok [] [] s) (hheld : Holdings s p) (h : Slabs s p)
    (hsize : size < 2 ^ 32) (hcase : KmallocCase s p rgid size t) : Slabs t p := by
  have halloc := allocated hinv p hsize
  have hchange := kernelChange_alloc s p size
  cases hcase with
  | refused => exact h
  | failed heq =>
      rw [heq] at hchange
      exact h.of_kernel hchange
  | @taken u base sz hpos hrgid hunused heq =>
      have hfresh (x : Nat) (hlo : base ≤ x) (hhi : x < base + sz) : ¬Owned s p x :=
        halloc.not_owned hsize heq hlo hhi
      rw [heq] at halloc hchange
      obtain ⟨rfl, hbase, htop, -⟩ := halloc.region base sz rfl
      have hle : size ≤ pageAlignSz size := by
        simp only [pageAlignSz, pageSz]
        omega
      have hlast : kmemTop < 2 ^ 64 := by decide
      rw [Nat.mod_eq_of_lt (by omega)]
      refine (h.of_kernel hchange).setSymrg (fun i hi _ x hx hcover hold => ?_)
        fun pool hpool x hx hcover hhold => ?_
      all_goals
        rw [VmRg.covers_iff] at hcover
        dsimp only at hcover
        refine absurd ?_ (hfresh x hcover.1 (by omega))
      · rw [hchange.symrgtbl] at hold
        exact hheld.owned_name hi hx hold
      · have hpools : u.kcpooltbl = s.kcpooltbl := by
          obtain ⟨_, _, _, _, rfl⟩ := hchange
          rfl
        rw [hpools] at hpool
        exact ((hheld.pools pool hpool).resolve_left hhold.1).owned x hhold.2.1 hhold.2.2

theorem growPools (h : Slabs s p) (id : Nat) : Slabs (Mem.growPools s p id).2 p := by
  rw [Mem.growPools]
  split
  · exact h
  · split
    · exact h.frame rfl rfl
    · rename_i host _
      have hdrawn : Slabs { s with host := host } p := h.frame rfl rfl
      refine hdrawn.setPools fun i pool hi hsize => ?_
      rcases Nat.lt_or_ge i (s.kcpooltbl p).length with hlt | hge
      · rw [List.getElem?_append_left hlt] at hi
        exact hi
      · rw [List.getElem?_append_right hge] at hi
        rw [List.eq_of_mem_replicate (List.mem_of_getElem? hi)] at hsize
        exact absurd rfl hsize

theorem poolCreate {size align id : Nat} (hinv : Inv ok [] [] s) (hheld : Holdings s p)
    (h : Slabs s p) (hsize : size < 2 ^ 32) (hcase : PoolCreateCase s p size align id t) :
    Slabs t p := by
  have hheld' := hheld.growPools id
  have hgrown := h.growPools id
  have halloc := allocated (hinv.growPools p id) p hsize
  have hchange := kernelChange_alloc (Mem.growPools s p id).2 p size
  cases hcase with
  | refused => exact h
  | grown => exact hgrown
  | failed heq =>
      rw [heq] at hchange
      exact hgrown.of_kernel hchange
  | @undone u base sz pool host hpool hunused heq =>
      rw [heq] at hchange
      have hu : Slabs { u with host := host } p := (hgrown.of_kernel hchange).frame rfl rfl
      refine (hu.of_kernel (kernelChange_release ..)).setPools fun i a ha hused => ?_
      rcases eq_or_ne i id with rfl | hne
      · rw [List.getElem?_set_self'] at ha
        obtain ⟨_, -, rfl⟩ := Option.map_eq_some_iff.mp ha
        exact absurd rfl hused
      · rw [List.getElem?_set_ne (Ne.symm hne)] at ha
        exact ha
  | @created u base sz pool host hpos halign husable hpool hunused heq =>
      have hfresh (x : Nat) (hlo : base ≤ x) (hhi : x < base + sz) :
          ¬Owned (Mem.growPools s p id).2 p x := halloc.not_owned hsize heq hlo hhi
      rw [heq] at halloc hchange
      obtain ⟨rfl, hbase, htop, -⟩ := halloc.region base sz rfl
      have hlast : kmemTop < 2 ^ 64 := by decide
      have hpools : u.kcpooltbl = (Mem.growPools s p id).2.kcpooltbl := by
        obtain ⟨_, _, _, _, rfl⟩ := hchange
        rfl
      have hu : Slabs { u with host := host } p := (hgrown.of_kernel hchange).frame rfl rfl
      refine hu.setPool (firstSlot_create halign husable (by omega)) ?_ ?_
      · intro i old _ hold x hholds hhold
        simp only [hpools] at hold
        have hheldPool := (hheld'.pools old (List.mem_of_getElem? hold)).resolve_left hhold.1
        exact hfresh x hholds.2.1 hholds.2.2 (hheldPool.owned x hhold.2.1 hhold.2.2)
      · intro i hi x hx hcover hholds
        exfalso
        have hsym : u.symrgtbl = (Mem.growPools s p id).2.symrgtbl := hchange.symrgtbl
        have hcover : (u.symrgtbl p i).covers x = true := hcover
        rw [hsym] at hcover
        exact hfresh x hholds.2.1 hholds.2.2 (hheld'.owned_name hi hx hcover)

/-- The first object of a pool. -/
theorem cacheAlloc {rgid id : Nat} (h : Slabs s p) (hplaced : Placed s p)
    (hfirst : ¬TakesFurther s p rgid id) (hcase : CacheAllocCase s p rgid id t) : Slabs t p := by
  cases hcase with
  | refused => exact h
  | @taken pool pool' slot hrgid hunused hpool hsize htake _ =>
      have hmem := List.mem_of_getElem? hpool
      have hpart : pool.partialSlabs = [] := by
        by_contra hne
        exact hfirst ⟨hrgid, hunused, pool, hpool, hne⟩
      have hpages := (hplaced.pools pool hmem).resolve_left hsize
      obtain ⟨hsize', hstorage, halloc, -⟩ := takeSlot_spec htake
      obtain ⟨rfl, hempty, hempty'⟩ := (h.first pool hmem hsize).takeSlot hpart htake
      have hholds (x : Nat) : pool'.Holds x ↔ pool.Holds x := by
        rw [KcachePool.Holds, KcachePool.Holds, hsize', hstorage, halloc]
      -- no name meets the pool before
      have hnone (i : Nat) (hi : i < maxSymtblSz) (x : Nat) (hx : kmemVaddrBase ≤ x)
          (hcover : (s.symrgtbl p i).covers x = true) : ¬pool.Holds x :=
        fun hhold => hempty (h.object i hi pool hmem x hx hcover hhold).1
      have hlast : kmemTop < 2 ^ 64 := by decide
      have htop := hpages.top
      have hfits := hpages.fits
      have hinside (y : Nat)
          (hy : (VmRg.mk pool.storage (pool.storage + pool.size)).covers y = true) :
          pool.Holds y := by
        rw [VmRg.covers_iff] at hy
        exact ⟨hsize, hy.1, by dsimp only at hy; omega⟩
      have hset : Slabs (s.setPools p ((s.kcpooltbl p).set id pool')) p := by
        refine h.setPool (fun slab rest hcons => ?_) (fun i old hne hold x hx hx' => ?_)
          fun i hi x hx hcover hhold => ?_
        · rw [hempty'] at hcons
          cases hcons
        · exact hne (h.pools i id old pool x hold hpool hx' ((hholds x).mp hx))
        · exact absurd ((hholds x).mp hhold) (hnone i hi x hx hcover)
      rw [Nat.mod_eq_of_lt (by omega)]
      refine hset.setSymrg (fun i hi _ x hx hcover hold => ?_) fun a ha x hx hcover hhold => ?_
      · exact hnone i hi x hx hold (hinside x hcover)
      · -- a pool that meets the object is the pool itself
        simp only [Sys.setPools, Function.update_self] at ha
        obtain ⟨j, hj⟩ := List.getElem?_of_mem ha
        rcases eq_or_ne j id with rfl | hne
        · rw [List.getElem?_set_self'] at hj
          obtain ⟨_, -, rfl⟩ := Option.map_eq_some_iff.mp hj
          exact ⟨hempty', fun y hy => (hholds y).mpr (hinside y hy)⟩
        · rw [List.getElem?_set_ne (Ne.symm hne)] at hj
          exact absurd (h.pools j id a pool x hj hpool hhold (hinside x hcover)) hne

theorem run {ins : Inst} {junk : VmRg} {ret : Int} (hinv : PlacedInv ok s)
    (hp : p ∈ s.runningList) (hheap : UserHeap s p) (hheld : Holdings s p) (h : Slabs s p)
    (hok : ins.Supplied s p junk) (hfirst : (Op.inst p ins junk).FirstObject s)
    (hrun : Mem.run s p ins junk = some (ret, t)) : Slabs t p := by
  cases run_cases hok.1 hrun with
  | refused => exact h
  | access hop hacc => exact h.frame (congrFun hacc.symrgtbl p) (congrFun hacc.kcpooltbl p)
  | alloc hop halloc =>
      obtain hsame | ⟨u, rg, hsame, hrgid, rfl, rfl⟩ := alloc_records halloc
      · exact h.frame (congrFun hsame.symrgtbl p) (congrFun hsame.kcpooltbl p)
      · obtain ⟨-, hlow, harea⟩ := hheap.alloc (hinv.low p hp) (hok.2.1 hop)
          (fun u hu => (hok.grownOk hinv.inv hinv.low hp hop hrgid hu).1) halloc
        have hend := (harea rfl).2.2
        simp only [Sys.setSymrg, Function.update_self] at hend hlow
        have hu : Slabs u p := h.frame (congrFun hsame.symrgtbl p) (congrFun hsame.kcpooltbl p)
        have hbase : 2 ^ 56 ≤ kmemVaddrBase := by decide
        exact hu.setUser (by omega)
  | free hop =>
      rw [Mem.free]
      split
      · exact h
      · dsimp only
        split
        · exact h
        · split
          · exact h.frame rfl rfl
          · rename_i host _
            have hdrawn : Slabs { s with host := host } p := h.frame rfl rfl
            have hzero : Slabs ({ s with host := host }.setSymrg p (toUint32 ins.arg0.toNat)
                ⟨0, 0⟩) p := hdrawn.setUser (Nat.zero_le _)
            exact hzero.frame rfl rfl
  | kmalloc regs hop hcase =>
      exact (h.kmalloc hinv.inv hheld (toUint32_lt _) hcase).frame rfl rfl
  | poolCreate hop hcase => exact h.poolCreate hinv.inv hheld (toUint32_lt _) hcase
  | cacheAlloc regs hop hcase =>
      exact (h.cacheAlloc (hinv.placed p hp) (hfirst hop) hcase).frame rfl rfl

end Slabs

/-! ### Steps -/

/-- A first object starts where the pages of the pool start. -/
theorem Slabs.first_object {s : Sys} {p : Pid} {rgid id slot : Nat} (h : Slabs s p)
    (hfirst : ¬TakesFurther s p rgid id) (halloc : (kmemCacheAlloc s p rgid id).1 = some slot)
    {pool : KcachePool} (hpool : (s.kcpooltbl p)[id]? = some pool) : slot = pool.storage := by
  obtain heq | ⟨pool₀, slot', pool', hrgid, hunused, hpool₀, hsize, htake, heq⟩ :=
    kmemCacheAlloc_eq s p rgid id
  · rw [heq] at halloc
    cases halloc
  rw [heq] at halloc
  cases halloc
  rw [hpool] at hpool₀
  cases hpool₀
  have hpart : pool.partialSlabs = [] := by
    by_contra hne
    exact hfirst ⟨hrgid, hunused, pool, hpool, hne⟩
  exact ((h.first pool (List.mem_of_getElem? hpool) hsize).takeSlot hpart htake).1

/-- What holds in every state of a run in which no pool gives out a second
object. -/
structure ObjectInv (ok : Prop) (s : Sys) : Prop where
  placed : PlacedInv ok s
  heap : ∀ p ∈ s.runningList, UserHeap s p
  held : ∀ p ∈ s.runningList, Holdings s p
  slabs : ∀ p ∈ s.runningList, Slabs s p

theorem ObjectStep.holdStep {ok : Prop} {s t : Sys} {op : Op} (h : ObjectInv ok s)
    (hstep : ObjectStep s op t) : HoldStep s op t := by
  obtain ⟨⟨hsupplied, hkeeps⟩, hfirst⟩ := hstep
  have hgrowth := hsupplied.growthStep h.placed.inv h.placed.low
  obtain ⟨hstep, hok⟩ := hsupplied
  refine ⟨hstep, ?_⟩
  obtain ⟨rfl, -⟩ | ⟨p, rfl, -⟩ | ⟨p, ins, junk, ret, rfl, hp, -⟩ := step_cases hstep
  · trivial
  · trivial
  · obtain ⟨hsys, hsize, hgrow⟩ := hok
    refine ⟨hsys, fun hop _ => ?_, fun inc hinc => ⟨hgrowth.2.2 inc hinc, .inr (hgrow inc hinc)⟩,
      fun hop slot hslot pool hpool => ?_⟩
    · obtain ⟨hnonneg, -⟩ := RegionInv.toInt_of_lt (hsize hop)
      exact hnonneg
    · rw [(h.slabs p hp).first_object (hfirst hop) hslot hpool]
      have hplaced := h.placed.placed p hp
      rcases hplaced.pools pool (List.mem_of_getElem? hpool) with hzero | hpages
      · rw [hzero]
        exact Nat.add_le_add_left (Nat.zero_le _) _
      · exact Nat.add_le_add_left hpages.fits _

theorem ObjectInv.step {ok : Prop} {s t : Sys} {op : Op} (h : ObjectInv ok s)
    (hstep : ObjectStep s op t) : ObjectInv ok t where
  placed := h.placed.step hstep.1.1
  heap := UserHeap.step h.placed h.heap hstep.1
  held := Holdings.step h.placed.inv h.held (hstep.holdStep h)
  slabs := by
    refine forall_step (I := Slabs) (fun _ hsym hpools hs => hs.frame hsym hpools)
      (fun _ hsym hpools => .of_empty hsym hpools) h.placed.inv.nodup h.slabs hstep.1.1.1
      fun p ins junk ret hop hp hrun => ?_
    subst hop
    exact (h.slabs p hp).run h.placed hp (h.heap p hp) (h.held p hp) hstep.1.1.2 hstep.2 hrun

theorem ObjectInv.boot (ramSz swpSz : Nat) (host : Nat → Bool) :
    ObjectInv (host = fun _ => true) (Mem.boot ramSz swpSz host) :=
  ⟨.boot ramSz swpSz host, fun _ hp => (by cases hp), fun _ hp => (by cases hp),
    fun _ hp => (by cases hp)⟩

/-! ### Kernel writes -/

/-- The byte that a kernel access reaches is in the region. -/
theorem kernelAccess_covers {s : Sys} {p : Pid} {rgid offset a : Nat}
    (hend : rgid < maxSymtblSz → (s.symrgtbl p rgid).rgEnd < 2 ^ 64)
    (h : kernelAccess s p rgid offset = some a) :
    rgid < maxSymtblSz ∧ a < 2 ^ 64 ∧ (s.symrgtbl p rgid).covers a = true := by
  rw [kernelAccess] at h
  split at h
  · cases h
  · rename_i hargs
    rw [not_or, Nat.not_le, Nat.not_le] at hargs
    have hlt := hend hargs.1
    split at h
    · cases h
    · cases h
      rw [VmRg.covers_iff]
      omega

/-- A kernel write changes one byte, and this byte is in the region. -/
theorem writeKernelMem_poke {ok : Prop} {s t : Sys} {p : Pid} {rgid offset : Nat} {value : Byte}
    (hinv : Inv ok [] [] s) (hend : rgid < maxSymtblSz → (s.symrgtbl p rgid).rgEnd < 2 ^ 64)
    (h : writeKernelMem s p rgid offset value = some t) : rgid < maxSymtblSz ∧
      ∃ phys, (s.symrgtbl p rgid).covers (kmemVaddrBase + phys) = true ∧
        t = s.poke .mram phys value := by
  simp only [writeKernelMem, Option.bind_eq_bind, Option.bind_eq_some_iff] at h
  obtain ⟨a, hacc, phys, htrans, hwrite⟩ := h
  obtain ⟨hrgid, ha, hcover⟩ := kernelAccess_covers hend hacc
  rw [(hinv.of_translate ha htrans).1] at hcover
  exact ⟨hrgid, phys, hcover, memphyWrite_eq_some hwrite⟩

/-- A kernel read outside the byte that was written. -/
theorem readKernelMem_poke {ok : Prop} {s : Sys} {p : Pid} {rgid offset phys : Nat} {value : Byte}
    (hinv : Inv ok [] [] s) (hend : rgid < maxSymtblSz → (s.symrgtbl p rgid).rgEnd < 2 ^ 64)
    (hout : rgid < maxSymtblSz → (s.symrgtbl p rgid).covers (kmemVaddrBase + phys) ≠ true) :
    readKernelMem (s.poke .mram phys value) p rgid offset = readKernelMem s p rgid offset := by
  have hacc : kernelAccess (s.poke .mram phys value) p rgid offset =
      kernelAccess s p rgid offset := rfl
  have htrans (a : Nat) : kernelTranslateVaddr (s.poke .mram phys value) a =
      kernelTranslateVaddr s a := rfl
  simp only [readKernelMem, Option.bind_eq_bind, hacc, htrans]
  cases haccess : kernelAccess s p rgid offset with
  | none => rfl
  | some a =>
      rw [Option.bind_some, Option.bind_some]
      cases htranslate : kernelTranslateVaddr s a with
      | none => rfl
      | some phys' =>
          obtain ⟨hrgid, ha, hcover⟩ := kernelAccess_covers hend haccess
          rw [(hinv.of_translate ha htranslate).1] at hcover
          have hne : phys' ≠ phys := by
            rintro rfl
            exact hout hrgid hcover
          rw [Option.bind_some, Option.bind_some, memphyRead, memphyRead]
          simp only [Sys.poke, Sys.setStorage, Function.update_self, Function.update_of_ne hne]

/-! ### The result -/

/-- Kernel memory is divided among the names and the pools. -/
structure ObjectsSeparate (s : Sys) : Prop where
  /-- two names of live processes have no byte of kernel memory in common -/
  regions : ∀ p ∈ s.runningList, ∀ q ∈ s.runningList, ∀ i < maxSymtblSz, ∀ j < maxSymtblSz,
    ∀ x, kmemVaddrBase ≤ x → (s.symrgtbl p i).covers x = true →
      (s.symrgtbl q j).covers x = true → p = q ∧ i = j
  pools : ∀ p ∈ s.runningList, ∀ q ∈ s.runningList, ∀ (i j : Nat) (a b : KcachePool) x,
    (s.kcpooltbl p)[i]? = some a → (s.kcpooltbl q)[j]? = some b → a.Holds x → b.Holds x →
      p = q ∧ i = j
  /-- a name that meets a pool lies in it, and the pool is one of its process -/
  inside : ∀ p ∈ s.runningList, ∀ q ∈ s.runningList, ∀ i < maxSymtblSz, ∀ pool ∈ s.kcpooltbl q,
    ∀ x, kmemVaddrBase ≤ x → (s.symrgtbl p i).covers x = true → pool.Holds x →
      p = q ∧ ∀ y, (s.symrgtbl p i).covers y = true → pool.Holds y
  /-- an object that is handed out lies in its pool -/
  object : ∀ p ∈ s.runningList, ∀ rgid id slot t, ¬TakesFurther s p rgid id →
    kmemCacheAlloc s p rgid id = (some slot, t) → ∃ pool, (t.kcpooltbl p)[id]? = some pool ∧
      pool.size ≠ 0 ∧ t.symrgtbl p rgid = ⟨slot, slot + pool.size⟩ ∧
      ∀ y, (t.symrgtbl p rgid).covers y = true → pool.Holds y
  /-- a write through a name changes bytes of its region only, so that what
  can be read through another name stays -/
  write : ∀ p ∈ s.runningList, ∀ i offset value t, writeKernelMem s p i offset value = some t →
    (∀ d a, t.storage d a ≠ s.storage d a →
      d = .mram ∧ (s.symrgtbl p i).covers (kmemVaddrBase + a) = true) ∧
    ∀ q ∈ s.runningList, ∀ j, (q, j) ≠ (p, i) → ∀ off,
      readKernelMem t q j off = readKernelMem s q j off

/-- A byte has one owner. -/
theorem Owned.unique {ok : Prop} {s : Sys} {p q : Pid} {x : Nat} (hinv : Inv ok [] [] s)
    (hp : Owned s p x) (hq : Owned s q x) : p = q := by
  obtain ⟨fp, hfp, rfl, hx⟩ := hp
  obtain ⟨fp', hfp', rfl, hx'⟩ := hq
  rw [hinv.used_inj fp hfp fp' hfp' (by omega)]

theorem ObjectInv.separate {ok : Prop} {s : Sys} (h : ObjectInv ok s) : ObjectsSeparate s := by
  have hinv := h.placed.inv
  have hlast : kmemTop < 2 ^ 64 := by decide
  have hnamed (p : Pid) (hp : p ∈ s.runningList) (i : Nat) (hi : i < maxSymtblSz) (x : Nat)
      (hx : kmemVaddrBase ≤ x) (hcover : (s.symrgtbl p i).covers x = true) : Owned s p x :=
    (h.held p hp).owned_name hi hx hcover
  have hheld (p : Pid) (hp : p ∈ s.runningList) (pool : KcachePool) (hpool : pool ∈ s.kcpooltbl p)
      (x : Nat) (hhold : pool.Holds x) : Owned s p x :=
    (((h.held p hp).pools pool hpool).resolve_left hhold.1).owned x hhold.2.1 hhold.2.2
  have hregions : ∀ p ∈ s.runningList, ∀ q ∈ s.runningList, ∀ i < maxSymtblSz,
      ∀ j < maxSymtblSz, ∀ x, kmemVaddrBase ≤ x → (s.symrgtbl p i).covers x = true →
        (s.symrgtbl q j).covers x = true → p = q ∧ i = j := by
    intro p hp q hq i hi j hj x hx hcover hcover'
    obtain rfl := (hnamed p hp i hi x hx hcover).unique hinv (hnamed q hq j hj x hx hcover')
    exact ⟨rfl, (h.slabs p hp).names i hi j hj x hx hcover hcover'⟩
  have hend (p : Pid) (hp : p ∈ s.runningList) (i : Nat) (hi : i < maxSymtblSz) :
      (s.symrgtbl p i).rgEnd < 2 ^ 64 := by
    have hsym := (within_append.mp (h.held p hp).within).1
    have hle := (hsym _ (mem_symRegions hi)).2
    omega
  refine ⟨hregions, ?_, ?_, ?_, ?_⟩
  · intro p hp q hq i j a b x ha hb hax hbx
    obtain rfl := (hheld p hp a (List.mem_of_getElem? ha) x hax).unique hinv
      (hheld q hq b (List.mem_of_getElem? hb) x hbx)
    exact ⟨rfl, (h.slabs p hp).pools i j a b x ha hb hax hbx⟩
  · intro p hp q hq i hi pool hpool x hx hcover hhold
    obtain rfl := (hnamed p hp i hi x hx hcover).unique hinv (hheld q hq pool hpool x hhold)
    exact ⟨rfl, ((h.slabs p hp).object i hi pool hpool x hx hcover hhold).2⟩
  · intro p hp rgid id slot t hfirst halloc
    obtain heq | ⟨pool, slot', pool', hrgid, hunused, hpool, hsize, htake, heq⟩ :=
      kmemCacheAlloc_eq s p rgid id
    · rw [heq] at halloc
      cases halloc
    · have hslot := (h.slabs p hp).first_object hfirst (by rw [halloc]) hpool
      rw [heq] at halloc
      cases halloc
      obtain ⟨hsize', hstorage, hallocSize, -⟩ := takeSlot_spec htake
      have hpages := ((h.placed.placed p hp).pools pool (List.mem_of_getElem? hpool)).resolve_left
        hsize
      have htop := hpages.top
      have hfits := hpages.fits
      have hsym : ((s.setPools p ((s.kcpooltbl p).set id pool')).setSymrg p rgid
          ⟨slot, (slot + pool.size) % 2 ^ 64⟩).symrgtbl p rgid = ⟨slot, slot + pool'.size⟩ := by
        simp only [Sys.setSymrg, Function.update_self]
        rw [Nat.mod_eq_of_lt (by omega), hsize']
      refine ⟨pool', ?_, by rw [hsize']; exact hsize, hsym, fun y hy => ?_⟩
      · simp only [Sys.setSymrg, Sys.setPools, Function.update_self]
        exact List.getElem?_set_self (List.getElem?_eq_some_iff.mp hpool).1
      · rw [hsym, VmRg.covers_iff] at hy
        dsimp only at hy
        rw [KcachePool.Holds]
        omega
  · intro p hp i offset value t hwrite
    obtain ⟨hi, phys, hcover, rfl⟩ := writeKernelMem_poke hinv (hend p hp i) hwrite
    refine ⟨fun d a hchanged => ?_, fun q hq j hne off => ?_⟩
    · simp only [Sys.poke, Sys.setStorage] at hchanged
      rcases eq_or_ne d .mram with rfl | hd
      · rw [Function.update_self] at hchanged
        rcases eq_or_ne a phys with rfl | ha
        · exact ⟨rfl, hcover⟩
        · rw [Function.update_of_ne ha] at hchanged
          exact absurd rfl hchanged
      · rw [Function.update_of_ne hd] at hchanged
        exact absurd rfl hchanged
    · refine readKernelMem_poke hinv (hend q hq j) fun hj hcover' => ?_
      obtain ⟨rfl, rfl⟩ := hregions q hq p hp j hj i hi _ (Nat.le_add_right _ _) hcover' hcover
      exact hne rfl

/-- In every run in which no pool gives out a second object, kernel memory is
divided among the names and the pools. -/
theorem objects_separate {ramSz swpSz : Nat} {host : Nat → Bool} {ops : List Op} {s : Sys}
    (hrun : Run ObjectStep (boot ramSz swpSz host) ops s) : ObjectsSeparate s := by
  have hinv := hrun.invariant (I := ObjectInv (host = fun _ => true))
    (fun s op t hs hstep => hs.step hstep) (.boot ramSz swpSz host)
  exact hinv.separate

/-- Two processes take an object each, among other kernel memory. -/
def twoObjects : List Op :=
  [.load, .load,
    .inst 1 { opcode := .kmemCacheCreate, arg0 := 8192, arg1 := 4096, arg2 := 0 } ⟨0, 0⟩,
    .inst 2 { opcode := .kmalloc, arg0 := 100, arg1 := 0 } ⟨0, 0⟩,
    .inst 1 { opcode := .kmemCacheAlloc, arg0 := 0, arg1 := 0 } ⟨0, 0⟩,
    .inst 2 { opcode := .kmemCacheCreate, arg0 := 64, arg1 := 32, arg2 := 0 } ⟨0, 0⟩,
    .inst 2 { opcode := .kmemCacheAlloc, arg0 := 0, arg1 := 1 } ⟨0, 0⟩]

theorem twoObjects_isSome :
    (objectExec (boot 20480 0 fun _ => true) twoObjects).isSome = true := by
  decide +kernel

theorem objects_separate_twoObjects : ∃ s,
    Run ObjectStep (boot 20480 0 fun _ => true) twoObjects s ∧
      s.symrgtbl 1 0 = ⟨kmemVaddrBase, kmemVaddrBase + 8192⟩ ∧
      s.symrgtbl 2 1 = ⟨kmemVaddrBase + 12288, kmemVaddrBase + 12352⟩ ∧ ObjectsSeparate s := by
  have hrun := run_of_objectExec (Option.some_get twoObjects_isSome).symm
  exact ⟨_, hrun, by decide +kernel, by decide +kernel, objects_separate hrun⟩

/-- A pool of two pages gives out both of its objects. -/
def furtherObject : List Op :=
  [.load, .inst 1 { opcode := .kmemCacheCreate, arg0 := 8192, arg1 := 4096, arg2 := 0 } ⟨0, 0⟩,
    .inst 1 { opcode := .kmemCacheAlloc, arg0 := 0, arg1 := 0 } ⟨0, 0⟩,
    .inst 1 { opcode := .kmemCacheAlloc, arg0 := 0, arg1 := 1 } ⟨0, 0⟩,
    .inst 1 { opcode := .kmalloc, arg0 := 100, arg1 := 2 } ⟨0, 0⟩]

theorem furtherObject_isSome :
    (keepingExec (boot 20480 0 fun _ => true) furtherObject).isSome = true := by
  decide +kernel

/-- The second object covers half of the first one, and the region that
`KMALLOC` puts behind the pool. -/
theorem furtherObject_overlaps : ∃ s,
    Run KeepingStep (boot 20480 0 fun _ => true) furtherObject s ∧
      s.symrgtbl 1 0 = ⟨kmemVaddrBase, kmemVaddrBase + 8192⟩ ∧
      s.symrgtbl 1 1 = ⟨kmemVaddrBase + 4096, kmemVaddrBase + 12288⟩ ∧
      s.symrgtbl 1 2 = ⟨kmemVaddrBase + 8192, kmemVaddrBase + 8292⟩ ∧ ¬ObjectsSeparate s := by
  have hrun := run_of_keepingExec (Option.some_get furtherObject_isSome).symm
  refine ⟨_, hrun, by decide +kernel, by decide +kernel, by decide +kernel, fun hsep => ?_⟩
  have hsame := hsep.regions 1 (by decide +kernel) 1 (by decide +kernel) 0 (by decide) 1
    (by decide) (kmemVaddrBase + 4096) (by decide) (by decide +kernel) (by decide +kernel)
  exact absurd hsame.2 (by decide)

end Ossim.Mem
