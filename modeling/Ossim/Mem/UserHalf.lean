import Ossim.Mem.Placement

/-!
`ALLOC` hands out user memory, as long as no kernel region is freed.

Kernel regions are named in the same symbol table as user regions. `FREE`
does not look at what a name stands for: it puts the range into the free
list of the area, from where the next `ALLOC` takes it. Any other mix of
user and kernel allocations, on any names, keeps the free list and what
`ALLOC` takes from it below the break.
-/

namespace Ossim.Mem

open Ossim.Lib

/-- A `FREE` of the name gets its list node and gives a kernel region to the
area. -/
def FreesKernel (s : Sys) (p : Pid) (rgid : Nat) : Prop :=
  s.host 0 = true ∧ rgid < maxSymtblSz ∧ kmemVaddrBase ≤ (s.symrgtbl p rgid).rgStart

instance (s : Sys) (p : Pid) (rgid : Nat) : Decidable (FreesKernel s p rgid) :=
  inferInstanceAs (Decidable (_ ∧ _ ∧ _))

/-- The step is no `FREE` of a kernel region. -/
def Op.KeepsKernel (s : Sys) : Op → Prop
  | .inst p ins _ => ins.opcode = .free → ¬FreesKernel s p (toUint32 ins.arg0.toNat)
  | _ => True

instance (s : Sys) : (op : Op) → Decidable (op.KeepsKernel s)
  | .inst p ins _ => inferInstanceAs (Decidable (ins.opcode = .free → ¬FreesKernel s p _))
  | .load => inferInstanceAs (Decidable True)
  | .exit _ => inferInstanceAs (Decidable True)

def KeepingStep (s : Sys) (op : Op) (t : Sys) : Prop := SuppliedStep s op t ∧ op.KeepsKernel s

/-- The same, as a function. -/
def keepingExec : Sys → List Op → Option Sys :=
  exec (guarded step fun s op _ => decide (op.Supplied s ∧ op.KeepsKernel s))

theorem run_of_keepingExec {s t : Sys} {ops : List Op} (h : keepingExec s ops = some t) :
    Run KeepingStep s ops t :=
  run_of_exec_guarded (fun _ _ _ hstep hok =>
    have hok := of_decide_eq_true hok
    ⟨⟨hstep, hok.1⟩, hok.2⟩) h

/-! ### The invariant -/

/-- The region lies in the area of the process. -/
def InArea (s : Sys) (p : Pid) (rg : VmRg) : Prop :=
  (s.mmap p).vmStart ≤ rg.rgStart ∧ rg.rgStart ≤ rg.rgEnd ∧ rg.rgEnd ≤ (s.mmap p).sbrk

/-- The free regions are in the area, and a name stands for a region of the
area or for one in kernel memory. -/
structure UserHeap (s : Sys) (p : Pid) : Prop where
  vmStart : (s.mmap p).vmStart = 0
  free : Within (s.mmap p).sbrk (s.mmap p).vmFreergList
  sym : ∀ i < maxSymtblSz, InArea s p (s.symrgtbl p i) ∨ kmemVaddrBase ≤ (s.symrgtbl p i).rgStart

namespace UserHeap

variable {s t : Sys} {p : Pid}

theorem frame (h : UserHeap s p) (hmmap : t.mmap p = s.mmap p)
    (hsym : t.symrgtbl p = s.symrgtbl p) : UserHeap t p where
  vmStart := by
    rw [hmmap]
    exact h.vmStart
  free := by
    rw [hmmap]
    exact h.free
  sym i hi := by
    rw [InArea, hmmap, hsym]
    exact h.sym i hi

theorem of_kernel (h : UserHeap s p) (hst : KernelChange s t) : UserHeap t p := by
  obtain ⟨_, _, _, _, rfl⟩ := hst
  exact h.frame rfl rfl

theorem of_empty (hmmap : t.mmap p = ⟨0, 0, 0, []⟩) (hsym : t.symrgtbl p = fun _ => ⟨0, 0⟩) :
    UserHeap t p where
  vmStart := by rw [hmmap]
  free rg hrg := by
    rw [hmmap] at hrg
    cases hrg
  sym i _ := by
    rw [InArea, hmmap, hsym]
    exact .inl ⟨Nat.le_refl _, Nat.le_refl _, Nat.le_refl _⟩

/-- One name gets another region. -/
theorem setSymrg (h : UserHeap s p) (rgid : Nat) {rg : VmRg}
    (hrg : InArea s p rg ∨ kmemVaddrBase ≤ rg.rgStart) : UserHeap (s.setSymrg p rgid rg) p where
  vmStart := h.vmStart
  free := h.free
  sym i hi := by
    simp only [Sys.setSymrg, Function.update_self]
    rcases eq_or_ne i rgid with rfl | hne
    · rw [Function.update_self]
      exact hrg
    · rw [Function.update_of_ne hne]
      exact h.sym i hi

theorem setFreerg (h : UserHeap s p) {l : List VmRg} (hl : Within (s.mmap p).sbrk l) :
    UserHeap (s.setMmap p { s.mmap p with vmFreergList := l }) p where
  vmStart := by
    rw [Sys.mmap_setMmap]
    exact h.vmStart
  free := by
    rw [Sys.mmap_setMmap]
    exact hl
  sym i hi := by
    rw [InArea, Sys.mmap_setMmap]
    exact h.sym i hi

theorem grow (h : UserHeap s p) {inc : Nat} (ht : GrownOk s p inc t) : UserHeap t p where
  vmStart := by
    rw [ht.mmap]
    exact h.vmStart
  free := by
    rw [ht.mmap]
    refine within_enlistVmRgNode (.cons ⟨Nat.le_add_right _ _, Nat.le_refl _⟩ ?_)
    exact h.free.mono (Nat.le_add_right _ _)
  sym i hi := by
    rw [InArea, ht.mmap, ht.symrgtbl]
    refine (h.sym i hi).imp_left ?_
    rintro ⟨hstart, hle, hend⟩
    exact ⟨hstart, hle, Nat.le_add_right_of_le hend⟩

/-- What an `ALLOC` leaves, and which region a successful one takes. -/
theorem alloc {rgid size : Nat} {junk : VmRg} {ret : Int} (h : UserHeap s p)
    (hlow : (s.mmap p).sbrk ≤ 2 ^ 56) (hsize : size < 2 ^ 31)
    (hgrow : ∀ u, Grows s p size junk u → GrownOk s p (allocInc size) u)
    (halloc : Mem.alloc s p rgid size junk = some (ret, t)) :
    UserHeap t p ∧ (t.mmap p).sbrk ≤ 2 ^ 56 ∧ (ret = 0 → InArea t p (t.symrgtbl p rgid)) := by
  have hgrown {u : Sys} (hu : Grows s p size junk u) :
      UserHeap u p ∧ (u.mmap p).sbrk ≤ 2 ^ 56 := by
    have hok := hgrow u hu
    refine ⟨h.grow hok, ?_⟩
    rw [hok.mmap]
    exact hok.low
  obtain ⟨hpos, hint⟩ := RegionInv.toInt_of_lt hsize
  obtain ⟨rfl, ⟨host, rfl⟩ | hgrows⟩ | ⟨-, u, rg, rest, hu, hrgid, htake, rfl⟩ :=
    alloc_result (show 2 ^ 56 + 2 ^ 31 < 2 ^ 64 by decide) hpos (h.free.mono hlow)
      (fun u hu => (hgrown hu).1.free.mono (hgrown hu).2) halloc
  · exact ⟨h.frame rfl rfl, hlow, fun hret => (by cases hret)⟩
  · exact ⟨(hgrown hgrows).1, (hgrown hgrows).2, fun hret => (by cases hret)⟩
  · have hu : UserHeap u p ∧ (u.mmap p).sbrk ≤ 2 ^ 56 :=
      hu.elim (fun heq => heq ▸ ⟨h, hlow⟩) hgrown
    obtain ⟨hheap, hlow'⟩ := hu
    rw [hint] at htake
    obtain ⟨hend, hle, hwithin, -⟩ := takeFree_spec hheap.free (by omega) htake
    have hmmap : ((u.setMmap p { u.mmap p with vmFreergList := rest }).setSymrg p rgid rg).mmap p =
        { u.mmap p with vmFreergList := rest } := Sys.mmap_setMmap ..
    have harea : InArea (u.setMmap p { u.mmap p with vmFreergList := rest }) p rg := by
      rw [InArea, Sys.mmap_setMmap, hheap.vmStart]
      exact ⟨Nat.zero_le _, by omega, hle⟩
    refine ⟨(hheap.setFreerg hwithin).setSymrg rgid (.inl harea), ?_, fun _ => ?_⟩
    · rw [hmmap]
      exact hlow'
    · simp only [Sys.setSymrg, Function.update_self]
      exact harea

/-- A `FREE` of a region of the area. -/
theorem free_region (h : UserHeap s p) {rgid : Nat} (hkeeps : ¬FreesKernel s p rgid) :
    UserHeap (Mem.free s p rgid).2 p := by
  rw [Mem.free]
  split
  · exact h
  · rename_i hrgid
    have hrgid := Nat.not_le.mp hrgid
    dsimp only
    split
    · exact h
    · cases hdraw : draw s.host with
      | mk ok host =>
          have hdrawn : UserHeap { s with host := host } p := h.frame rfl rfl
          cases ok with
          | false => exact hdrawn
          | true =>
              have hhost : s.host 0 = true := congrArg Prod.fst hdraw
              obtain ⟨-, hle, hend⟩ := (h.sym rgid hrgid).resolve_right fun hkernel =>
                hkeeps ⟨hhost, hrgid, hkernel⟩
              have hzero : InArea { s with host := host } p ⟨0, 0⟩ :=
                ⟨Nat.le_of_eq h.vmStart, Nat.le_refl _, Nat.zero_le _⟩
              exact (hdrawn.setSymrg rgid (.inl hzero)).setFreerg
                (within_enlistVmRgNode (.cons ⟨hle, hend⟩ h.free))

theorem kmalloc {ok : Prop} {rgid size : Nat} (hinv : Inv ok [] [] s) (h : UserHeap s p)
    (hsize : size < 2 ^ 32) (hcase : KmallocCase s p rgid size t) : UserHeap t p := by
  have halloc := allocated hinv p hsize
  have hchange := kernelChange_alloc s p size
  cases hcase with
  | refused => exact h
  | failed heq =>
      rw [heq] at hchange
      exact h.of_kernel hchange
  | @taken u base sz hpos hrgid hunused heq =>
      rw [heq] at halloc hchange
      exact (h.of_kernel hchange).setSymrg rgid (.inr (halloc.region base sz rfl).2.1)

theorem cacheAlloc {rgid id : Nat} (h : UserHeap s p) (hplaced : Placed s p)
    (hcase : CacheAllocCase s p rgid id t) : UserHeap t p := by
  cases hcase with
  | refused => exact h
  | @taken pool pool' slot hrgid hunused hpool hsize htake _ =>
      have hpool := (hplaced.pools pool (List.mem_of_getElem? hpool)).resolve_left hsize
      have hslot := (hpool.takeSlot htake).2.1
      have hpools : UserHeap (s.setPools p ((s.kcpooltbl p).set id pool')) p := h.frame rfl rfl
      exact hpools.setSymrg _ (.inr (hpool.base.trans hslot))

theorem poolCreate {size align id : Nat} (h : UserHeap s p)
    (hcase : PoolCreateCase s p size align id t) : UserHeap t p := by
  have hmmap (u : Sys) : (growPools u p id).2.mmap = u.mmap ∧
      (growPools u p id).2.symrgtbl = u.symrgtbl := by
    rw [growPools]
    split
    · exact ⟨rfl, rfl⟩
    · split <;> exact ⟨rfl, rfl⟩
  have hgrown : UserHeap (growPools s p id).2 p :=
    h.frame (congrFun (hmmap s).1 p) (congrFun (hmmap s).2 p)
  have hchange := kernelChange_alloc (growPools s p id).2 p size
  cases hcase with
  | refused => exact h
  | grown => exact hgrown
  | failed heq =>
      rw [heq] at hchange
      exact hgrown.of_kernel hchange
  | @undone u base sz pool host _ _ heq =>
      rw [heq] at hchange
      have hu : UserHeap { u with host := host } p := (hgrown.of_kernel hchange).frame rfl rfl
      exact (hu.of_kernel (kernelChange_release ..)).frame rfl rfl
  | @created u base sz pool host _ _ _ _ _ heq =>
      rw [heq] at hchange
      exact (hgrown.of_kernel hchange).frame rfl rfl

/-- An instruction that frees no kernel region. -/
theorem run {ok : Prop} {ins : Inst} {junk : VmRg} {ret : Int} (hinv : PlacedInv ok s)
    (hp : p ∈ s.runningList) (h : UserHeap s p) (hok : ins.Supplied s p junk)
    (hkeeps : ins.opcode = .free → ¬FreesKernel s p (toUint32 ins.arg0.toNat))
    (hrun : Mem.run s p ins junk = some (ret, t)) : UserHeap t p := by
  cases run_cases hok.1 hrun with
  | refused => exact h
  | access hop hacc => exact h.frame (congrFun hacc.mmap p) (congrFun hacc.symrgtbl p)
  | alloc hop halloc =>
      rcases Nat.lt_or_ge (toUint32 ins.arg1.toNat) maxSymtblSz with hrgid | hrgid
      · exact (h.alloc (hinv.low p hp) (hok.2.1 hop)
          (fun u hu => (hok.grownOk hinv.inv hinv.low hp hop hrgid hu).1) halloc).1
      · rw [Mem.alloc, if_pos (.inl hrgid)] at halloc
        cases halloc
        exact h
  | free hop => exact h.free_region (hkeeps hop)
  | kmalloc regs hop hcase => exact (h.kmalloc hinv.inv (toUint32_lt _) hcase).frame rfl rfl
  | poolCreate hop hcase => exact h.poolCreate hcase
  | cacheAlloc regs hop hcase => exact (h.cacheAlloc (hinv.placed p hp) hcase).frame rfl rfl

theorem step {ok : Prop} {op : Op} (hinv : PlacedInv ok s) (h : ∀ p ∈ s.runningList, UserHeap s p)
    (hstep : KeepingStep s op t) : ∀ p ∈ t.runningList, UserHeap t p := by
  refine forall_step (I := UserHeap) (fun hmmap hsym _ hs => hs.frame hmmap hsym)
    (fun hmmap hsym _ => of_empty hmmap hsym) hinv.inv.nodup h hstep.1.1
    fun p ins junk ret hop hp hrun => ?_
  subst hop
  exact (h p hp).run hinv hp hstep.1.2 hstep.2 hrun

end UserHeap

/-! ### The result -/

/-- What `ALLOC` has to offer, and what it hands out. -/
structure AllocsUserMemory (s : Sys) (p : Pid) : Prop where
  /-- the area lies in the lower half -/
  low : (s.mmap p).sbrk ≤ 2 ^ 56
  free : ∀ rg ∈ (s.mmap p).vmFreergList, InArea s p rg
  /-- a successful `ALLOC` takes a region of the area as it is then -/
  alloc : ∀ ins junk t, ins.opcode = .alloc → ins.Supplied s p junk →
    run s p ins junk = some (0, t) →
      InArea t p (t.symrgtbl p (toUint32 ins.arg1.toNat)) ∧ (t.mmap p).sbrk ≤ 2 ^ 56
  /-- and it stays there: below kernel memory every name is in the area -/
  named : ∀ i < maxSymtblSz, (s.symrgtbl p i).rgStart < kmemVaddrBase →
    InArea s p (s.symrgtbl p i)

theorem UserHeap.allocsUserMemory {ok : Prop} {s : Sys} {p : Pid} (hinv : PlacedInv ok s)
    (hp : p ∈ s.runningList) (h : UserHeap s p) : AllocsUserMemory s p where
  low := hinv.low p hp
  free rg hrg := by
    obtain ⟨hle, hend⟩ := h.free rg hrg
    refine ⟨?_, hle, hend⟩
    rw [h.vmStart]
    exact Nat.zero_le _
  alloc ins junk t hop hok hrun := by
    rw [Mem.run, hop] at hrun
    dsimp only at hrun
    rcases Nat.lt_or_ge (toUint32 ins.arg1.toNat) maxSymtblSz with hrgid | hrgid
    · obtain ⟨-, hlow, harea⟩ := h.alloc (hinv.low p hp) (hok.2.1 hop)
        (fun u hu => (hok.grownOk hinv.inv hinv.low hp hop hrgid hu).1) hrun
      exact ⟨harea rfl, hlow⟩
    · rw [Mem.alloc, if_pos (.inl hrgid)] at hrun
      cases hrun
  named i hi hlt := (h.sym i hi).resolve_right (Nat.not_le.mpr hlt)

/-- In every run in which no kernel region is freed, `ALLOC` hands out user
memory. -/
theorem alloc_user_memory {ramSz swpSz : Nat} {host : Nat → Bool} {ops : List Op} {s : Sys}
    {p : Pid} (hrun : Run KeepingStep (boot ramSz swpSz host) ops s) (hp : p ∈ s.runningList) :
    AllocsUserMemory s p := by
  have hinv := hrun.invariant
    (I := fun s => PlacedInv (host = fun _ => true) s ∧ ∀ p ∈ s.runningList, UserHeap s p)
    (fun s op t hs hstep => ⟨hs.1.step hstep.1, UserHeap.step hs.1 hs.2 hstep⟩)
    ⟨.boot ramSz swpSz host, fun p hp => by cases hp⟩
  exact (hinv.2 p hp).allocsUserMemory hinv.1 hp

/-- Names 0 and 1 of process 1 stand for a kernel region and a user region;
the second is freed and name 0 is given to a user region. -/
def kmallocThenAlloc : List Op :=
  [.load, .inst 1 { opcode := .kmalloc, arg0 := 100, arg1 := 0 } ⟨0, 0⟩,
    .inst 1 { opcode := .alloc, arg0 := 100, arg1 := 1 } ⟨0, 0⟩,
    .inst 1 { opcode := .free, arg0 := 1 } ⟨0, 0⟩,
    .inst 1 { opcode := .alloc, arg0 := 100, arg1 := 0 } ⟨0, 0⟩]

theorem kmallocThenAlloc_isSome :
    (keepingExec (boot 12288 0 fun _ => true) kmallocThenAlloc).isSome = true := by
  decide +kernel

theorem alloc_user_memory_kmallocThenAlloc : ∃ s,
    Run KeepingStep (boot 12288 0 fun _ => true) kmallocThenAlloc s ∧
      s.symrgtbl 1 0 = ⟨0, 100⟩ ∧ AllocsUserMemory s 1 := by
  have hrun := run_of_keepingExec (Option.some_get kmallocThenAlloc_isSome).symm
  exact ⟨_, hrun, by decide +kernel, alloc_user_memory hrun (by decide +kernel)⟩

/-- A kernel region is freed. -/
def kmallocFree : List Op :=
  [.load, .inst 1 { opcode := .kmalloc, arg0 := 100, arg1 := 0 } ⟨0, 0⟩,
    .inst 1 { opcode := .free, arg0 := 0 } ⟨0, 0⟩]

theorem kmallocFree_isSome :
    (suppliedExec (boot 12288 0 fun _ => true) kmallocFree).isSome = true := by
  decide +kernel

/-- The range of the kernel region is in the free list, outside the area, and
the next `ALLOC` hands it out. -/
theorem kmallocFree_hands_out_kernel : ∃ s,
    Run SuppliedStep (boot 12288 0 fun _ => true) kmallocFree s ∧ 1 ∈ s.runningList ∧
      ¬AllocsUserMemory s 1 ∧
      (s.mmap 1).vmFreergList = [⟨kmemVaddrBase, kmemVaddrBase + 100⟩] ∧ (s.mmap 1).sbrk = 0 ∧
      (alloc s 1 1 100 ⟨0, 0⟩).map (fun r => (r.1, r.2.symrgtbl 1 1)) =
        some (0, ⟨kmemVaddrBase, kmemVaddrBase + 100⟩) := by
  have hfree : (((suppliedExec (boot 12288 0 fun _ => true) kmallocFree).get
      kmallocFree_isSome).mmap 1).vmFreergList = [⟨kmemVaddrBase, kmemVaddrBase + 100⟩] := by
    decide +kernel
  have hsbrk : (((suppliedExec (boot 12288 0 fun _ => true) kmallocFree).get
      kmallocFree_isSome).mmap 1).sbrk = 0 := by decide +kernel
  refine ⟨_, run_of_suppliedExec (Option.some_get kmallocFree_isSome).symm, by decide +kernel,
    fun h => ?_, hfree, hsbrk, by decide +kernel⟩
  have harea := h.free _ (by rw [hfree]; exact List.mem_singleton_self _)
  have hend := harea.2.2
  rw [hsbrk] at hend
  exact absurd hend (by decide)

end Ossim.Mem
