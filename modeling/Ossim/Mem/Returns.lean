import Ossim.Mem.Flat
import Ossim.Mem.Linear

/-!
All memory comes back when the last process exits.

The frames of user pages are found through the page table. The frames of
kernel memory are found through records only: the pools of the process and
the kernel regions that are still in its symbol table. `ALLOC` and `FREE`
write to the same table. As long as neither of them takes away the last
record of a frame, every used frame is on record at a live process.
-/

namespace Ossim.Mem

open Ossim.Lib

/-! ### Records -/

instance (base : Nat) (pgnum : Int) (f : Nat) : Decidable (Names base pgnum f) :=
  inferInstanceAs (Decidable (∃ page < _, _))

/-- The bytes that the exit of the owner releases for the pool. -/
def poolSpan (pool : KcachePool) : Nat :=
  if pool.allocSize = 0 then pageAlignSz pool.size else pool.allocSize

/-- `release_kernel_cache_pools` releases the frame for the pool. -/
def PoolNames (pool : KcachePool) (f : Nat) : Prop :=
  pool.size ≠ 0 ∧ pool.storage ≠ 0 ∧ Names pool.storage (toInt (poolSpan pool / pageSz)) f

/-- `release_kernel_symrg_allocations` releases the frame for the region. -/
def RegionNames (rg : VmRg) (f : Nat) : Prop :=
  isKernelVaddrRange rg.rgStart rg.rgEnd = true ∧
    Names rg.rgStart (toInt (pageAlignSz (rg.rgEnd - rg.rgStart) / pageSz)) f

instance (pool : KcachePool) (f : Nat) : Decidable (PoolNames pool f) :=
  inferInstanceAs (Decidable (_ ∧ _ ∧ _))

instance (rg : VmRg) (f : Nat) : Decidable (RegionNames rg f) :=
  inferInstanceAs (Decidable (_ ∧ _))

/-- A record of the frame other than the region that `p` has under the name
`rgid`. -/
def RecordedApart (s : Sys) (p : Pid) (rgid f : Nat) : Prop :=
  ∃ q ∈ s.runningList, (∃ pool ∈ s.kcpooltbl q, PoolNames pool f) ∨
    ∃ i < maxSymtblSz, (q ≠ p ∨ i ≠ rgid) ∧ RegionNames (s.symrgtbl q i) f

/-- The name stands for the only record of some used frame. -/
def LastRecord (s : Sys) (p : Pid) (rgid : Nat) : Prop :=
  rgid < maxSymtblSz ∧ ∃ fp ∈ s.usedFpList .mram,
    RegionNames (s.symrgtbl p rgid) fp.fpn ∧ ¬RecordedApart s p rgid fp.fpn

instance (s : Sys) (p : Pid) (rgid f : Nat) : Decidable (RecordedApart s p rgid f) :=
  inferInstanceAs (Decidable (∃ q ∈ s.runningList, _ ∨ _))

instance (s : Sys) (p : Pid) (rgid : Nat) : Decidable (LastRecord s p rgid) :=
  inferInstanceAs (Decidable (_ ∧ ∃ fp ∈ s.usedFpList .mram, _))

/-! ### Runs -/

/-- Neither a `FREE` nor an `ALLOC` that succeeds overwrites a last record. -/
def Op.KeepsRecords (s : Sys) : Op → Prop
  | .inst p ins junk =>
    (ins.opcode = .free → ¬LastRecord s p (toUint32 ins.arg0.toNat)) ∧
    (ins.opcode = .alloc →
      (alloc s p (toUint32 ins.arg1.toNat) ins.arg0.toNat junk).map Prod.fst = some 0 →
        ¬LastRecord s p (toUint32 ins.arg1.toNat))
  | _ => True

instance (s : Sys) : (op : Op) → Decidable (op.KeepsRecords s)
  | .inst _ _ _ => inferInstanceAs (Decidable ((_ → _) ∧ (_ → _ → _)))
  | .load => inferInstanceAs (Decidable True)
  | .exit _ => inferInstanceAs (Decidable True)

/-- One step of a run without system calls, whose growth requests stay in the
lower half and whose frames stay on record. -/
def RecordingStep (s : Sys) (op : Op) (t : Sys) : Prop :=
  step s op = some t ∧ op.NoSyscall ∧ op.LowGrowth s ∧ op.KeepsRecords s

/-- The same, as a function. -/
def recordingExec : Sys → List Op → Option Sys :=
  exec (guarded step fun s op _ => decide (op.NoSyscall ∧ op.LowGrowth s ∧ op.KeepsRecords s))

theorem run_of_recordingExec {s t : Sys} {ops : List Op} (h : recordingExec s ops = some t) :
    Run RecordingStep s ops t :=
  run_of_exec_guarded (fun _ _ _ hstep hok => ⟨hstep, of_decide_eq_true hok⟩) h

theorem RecordingStep.growthStep {s t : Sys} {op : Op} (h : RecordingStep s op t) :
    GrowthStep s op t :=
  ⟨h.1, h.2.1.tame, h.2.2.1⟩

/-! ### What an allocation puts on record -/

/-- The frames that an allocation adds are those of its pages. -/
theorem named_alloc {ok : Prop} {s : Sys} (hinv : Inv ok [] [] s) (p : Pid) (size : Nat) :
    ∀ fp ∈ (kernelAllocContiguousRegion s p size).2.usedFpList .mram,
      fp ∈ s.usedFpList .mram ∨ ∃ base sz,
        (kernelAllocContiguousRegion s p size).1 = some (base, sz) ∧
          Names base (toInt (pageAlignSz size / pageSz)) fp.fpn := by
  intro fp hfp
  rw [kernelAllocContiguousRegion] at hfp ⊢
  split at hfp
  · exact .inl hfp
  · rename_i hpos
    rw [if_neg hpos]
    dsimp only at hfp ⊢
    generalize toInt (pageAlignSz size / pageSz) = n at hfp ⊢
    obtain heq | heq | ⟨first, -, hfree, heq⟩ := kernelAllocateContiguousFrames_cases s p n
    · rw [heq] at hfp
      exact .inl hfp
    · rw [heq] at hfp
      exact .inl hfp
    · rw [heq] at hfp ⊢
      dsimp only at hfp ⊢
      have hframes := hinv.drawHost.framesUsed (p := p) List.nodup_range' hfree
      have hnodup := hframes.nodup_used
      have hused := used_kernelMapPages (kernelVaddrFromFpn first) first n.toNat 0
        (framesUsed { s with host := (draw s.host).2 } p (List.range' first n.toNat))
      have hnames : ∀ fp ∈ (framesUsed { s with host := (draw s.host).2 } p
          (List.range' first n.toNat)).usedFpList .mram, fp ∈ s.usedFpList .mram ∨
            Names (kernelVaddrFromFpn first) n fp.fpn := by
        intro fp hfp
        simp only [framesUsed, Function.update_self, List.mem_append, List.mem_reverse,
          List.mem_map, List.mem_range'_1] at hfp
        rcases hfp with ⟨f, hf, rfl⟩ | hfp
        · have hlt := (hinv.of_free (hfree f (List.mem_range'_1.mpr hf))).1
          refine .inr ⟨f - first, by omega, ?_⟩
          simp only [kernelFpnFromVaddr, kernelVaddrFromFpn, kmemVaddrBase, pageSz]
          omega
        · exact .inl hfp
      rw [← hused] at hnodup hnames
      generalize kernelMapPages (kernelVaddrFromFpn first) first n.toNat 0
        (framesUsed { s with host := (draw s.host).2 } p (List.range' first n.toNat)) = r
        at hfp hnodup hnames ⊢
      obtain ⟨_ | _, t⟩ := r
      · obtain ⟨hfp, hnot⟩ := ((used_release _ n hnodup).2 fp).mp hfp
        exact .inl ((hnames fp hfp).resolve_right hnot)
      · exact (hnames fp hfp).imp_right fun hname => ⟨_, _, rfl, hname⟩

/-! ### The invariant -/

/-- The exit of the process releases the frame. -/
def Records (s : Sys) (p : Pid) (f : Nat) : Prop :=
  (∃ pool ∈ s.kcpooltbl p, PoolNames pool f) ∨ ∃ i < maxSymtblSz, RegionNames (s.symrgtbl p i) f

/-- Every used frame is on record at a live process. -/
def Recorded (s : Sys) : Prop := ∀ fp ∈ s.usedFpList .mram, ∃ p ∈ s.runningList, Records s p fp.fpn

/-- A pool that was created has whole pages of kernel memory. -/
structure PoolPages (pool : KcachePool) : Prop where
  base : kmemVaddrBase ≤ pool.storage
  alloc : pool.allocSize ≠ 0
  top : pool.storage + pool.allocSize ≤ kmemTop
  aligned : pool.storage % pageSz = 0 ∧ pool.allocSize % pageSz = 0

/-- The pools of the process are unused or have pages. -/
def PoolsPaged (s : Sys) (p : Pid) : Prop :=
  ∀ pool ∈ s.kcpooltbl p, pool.size = 0 ∨ PoolPages pool

theorem not_regionNames_unused (f : Nat) : ¬RegionNames ⟨0, 0⟩ f := by
  rintro ⟨hkernel, -⟩
  exact absurd hkernel (by decide)

theorem Records.same {s t : Sys} {p : Pid} {f : Nat} (h : Records s p f)
    (hsym : t.symrgtbl p = s.symrgtbl p) (hpools : t.kcpooltbl p = s.kcpooltbl p) :
    Records t p f := by
  rw [Records, hsym, hpools]
  exact h

theorem Recorded.same {s t : Sys} (h : Recorded s) (hst : SameRecords s t) : Recorded t := by
  intro fp hfp
  rw [hst.used] at hfp
  obtain ⟨p, hp, hrec⟩ := h fp hfp
  exact ⟨p, hst.running ▸ hp, hrec.same (congrFun hst.symrgtbl p) (congrFun hst.kcpooltbl p)⟩

/-- A region that no frame depends on may be overwritten. -/
theorem Recorded.setSymrg {s : Sys} {p : Pid} {rgid : Nat} (h : Recorded s) (hp : p ∈ s.runningList)
    (hrgid : rgid < maxSymtblSz) (hlast : ¬LastRecord s p rgid) (rg : VmRg) :
    Recorded (s.setSymrg p rgid rg) := by
  intro fp hfp
  -- the frame has a record that stays
  have hapart : RecordedApart s p rgid fp.fpn := by
    obtain ⟨q, hq, hpools | ⟨i, hi, hname⟩⟩ := h fp hfp
    · exact ⟨q, hq, .inl hpools⟩
    · by_cases hsame : q = p ∧ i = rgid
      · obtain ⟨rfl, rfl⟩ := hsame
        by_contra hnot
        exact hlast ⟨hrgid, fp, hfp, hname, hnot⟩
      · exact ⟨q, hq, .inr ⟨i, hi, not_and_or.mp hsame, hname⟩⟩
  obtain ⟨q, hq, hpools | ⟨i, hi, hne, hname⟩⟩ := hapart
  · exact ⟨q, hq, .inl hpools⟩
  · refine ⟨q, hq, .inr ⟨i, hi, ?_⟩⟩
    have hkeep : (s.setSymrg p rgid rg).symrgtbl q i = s.symrgtbl q i := by
      rw [Sys.setSymrg]
      rcases eq_or_ne q p with rfl | hqp
      · simp only [Function.update_self]
        exact Function.update_of_ne (hne.resolve_left (not_not.mpr rfl)) ..
      · simp only [Function.update_of_ne hqp]
    rw [hkeep]
    exact hname

/-! ### ALLOC and FREE -/

theorem Recorded.alloc {s t : Sys} {p : Pid} {rgid size : Nat} {junk : VmRg} {ret : Int}
    (h : Recorded s) (hp : p ∈ s.runningList)
    (hkeeps : (Mem.alloc s p rgid size junk).map Prod.fst = some 0 → ¬LastRecord s p rgid)
    (halloc : Mem.alloc s p rgid size junk = some (ret, t)) : Recorded t := by
  obtain hsame | ⟨u, rg, hsame, hrgid, rfl, rfl⟩ := alloc_records halloc
  · exact h.same hsame
  · have hlast := hkeeps (by rw [halloc]; rfl)
    refine (h.same hsame).setSymrg (hsame.running ▸ hp) hrgid ?_ rg
    rw [LastRecord, hsame.used, hsame.symrgtbl]
    simp only [RecordedApart, hsame.running, hsame.kcpooltbl, hsame.symrgtbl]
    exact hlast

theorem Recorded.free {s : Sys} {p : Pid} {rgid : Nat} (h : Recorded s) (hp : p ∈ s.runningList)
    (hkeeps : ¬LastRecord s p rgid) : Recorded (Mem.free s p rgid).2 := by
  rw [Mem.free]
  split
  · exact h
  · rename_i hrgid
    dsimp only
    split
    · exact h
    · split
      · exact h.same ⟨rfl, rfl, rfl, rfl⟩
      · have hzero := h.setSymrg hp (Nat.not_le.mp hrgid) hkeeps ⟨0, 0⟩
        exact hzero.same ⟨rfl, rfl, rfl, rfl⟩

/-! ### KMALLOC and cache pools -/

/-- A change by `p` that adds records of `p` and keeps those it has. -/
theorem Recorded.grow {s t : Sys} {p : Pid} (h : Recorded s) (hp : p ∈ s.runningList)
    (hpriv : Private p s t) (hkeeps : ∀ f, Records s p f → Records t p f)
    (hnew : ∀ fp ∈ t.usedFpList .mram, fp ∈ s.usedFpList .mram ∨ Records t p fp.fpn) :
    Recorded t := by
  intro fp hfp
  rcases hnew fp hfp with hold | hrec
  · obtain ⟨q, hq, hrec⟩ := h fp hold
    refine ⟨q, hpriv.runningList ▸ hq, ?_⟩
    rcases eq_or_ne q p with rfl | hne
    · exact hkeeps _ hrec
    · exact hrec.same (hpriv.symrgtbl q hne) (hpriv.kcpooltbl q hne)
  · exact ⟨p, hpriv.runningList ▸ hp, hrec⟩

/-- A name that was unused gets a region. -/
theorem Records.setSymrg {s : Sys} {p : Pid} {rgid f : Nat} (h : Records s p f)
    (hunused : s.symrgtbl p rgid = ⟨0, 0⟩) (rg : VmRg) : Records (s.setSymrg p rgid rg) p f := by
  obtain hpools | ⟨i, hi, hname⟩ := h
  · exact .inl hpools
  · refine .inr ⟨i, hi, ?_⟩
    have hne : i ≠ rgid := by
      rintro rfl
      rw [hunused] at hname
      exact not_regionNames_unused f hname
    rw [Sys.setSymrg]
    simp only [Function.update_self, Function.update_of_ne hne]
    exact hname

/-- A pool that was unused, or that keeps its pages, is replaced. -/
theorem Records.setPool {s : Sys} {p : Pid} {id f : Nat} {pool : KcachePool} (h : Records s p f)
    (hnames : ∀ old ∈ (s.kcpooltbl p)[id]?, PoolNames old f → PoolNames pool f) :
    Records (s.setPools p ((s.kcpooltbl p).set id pool)) p f := by
  obtain ⟨old, hold, hname⟩ | hname := h
  · refine .inl ?_
    rw [Sys.setPools]
    simp only [Function.update_self]
    obtain ⟨i, hi, rfl⟩ := List.getElem_of_mem hold
    rcases eq_or_ne i id with rfl | hne
    · exact ⟨pool, List.mem_set hi _, hnames _ (List.getElem?_eq_getElem hi) hname⟩
    · refine ⟨_, List.mem_of_getElem? (i := i) ?_, hname⟩
      rw [List.getElem?_set_ne hne.symm, List.getElem?_eq_getElem hi]
  · exact .inr hname

/-- The process keeps its records, and has one of every new frame. -/
structure AddsRecords (p : Pid) (s t : Sys) : Prop where
  keeps : ∀ f, Records s p f → Records t p f
  new : ∀ fp ∈ t.usedFpList .mram, fp ∈ s.usedFpList .mram ∨ Records t p fp.fpn

namespace AddsRecords

variable {ok : Prop} {s t u : Sys} {p : Pid}

theorem refl (p : Pid) (s : Sys) : AddsRecords p s s := ⟨fun _ h => h, fun _ h => .inl h⟩

theorem trans (h : AddsRecords p s t) (h' : AddsRecords p t u) : AddsRecords p s u where
  keeps f hf := h'.keeps f (h.keeps f hf)
  new fp hfp := by
    rcases h'.new fp hfp with hfp | hrec
    · exact (h.new fp hfp).imp_right (h'.keeps _)
    · exact .inr hrec

theorem of_kernel (hst : KernelChange s t)
    (hused : ∀ fp ∈ t.usedFpList .mram, fp ∈ s.usedFpList .mram) : AddsRecords p s t where
  keeps f hf := by
    obtain ⟨_, _, _, _, rfl⟩ := hst
    exact hf
  new fp hfp := .inl (hused fp hfp)

/-- An allocation that fails. -/
theorem failed (hinv : Inv ok [] [] s) {size : Nat}
    (halloc : kernelAllocContiguousRegion s p size = (none, u)) : AddsRecords p s u := by
  have hchange := kernelChange_alloc s p size
  have hnamed := named_alloc hinv p size
  rw [halloc] at hchange hnamed
  refine .of_kernel hchange fun fp hfp => (hnamed fp hfp).resolve_right ?_
  rintro ⟨base, sz, hsome, -⟩
  cases hsome

theorem kmalloc {rgid size : Nat} (hinv : Inv ok [] [] s) (hsize : size < 2 ^ 32)
    (hcase : KmallocCase s p rgid size t) : AddsRecords p s t := by
  cases hcase with
  | refused => exact .refl p s
  | failed heq => exact failed hinv heq
  | @taken u base sz hpos hrgid hunused heq =>
      have hchange := kernelChange_alloc s p size
      have hnamed := named_alloc hinv p size
      have hregion := (allocated hinv p hsize).region
      rw [heq] at hchange hnamed hregion
      obtain ⟨rfl, hbase, htop, -⟩ := hregion base sz rfl
      have hsym : u.symrgtbl p = s.symrgtbl p := congrFun hchange.symrgtbl p
      refine ⟨fun f hf => ?_, fun fp hfp => (hnamed fp hfp).imp_right ?_⟩
      · refine Records.setSymrg (hf.same hsym ?_) (hsym ▸ hunused) _
        obtain ⟨_, _, _, _, rfl⟩ := hchange
        rfl
      · rintro ⟨base', sz', hsame, hname⟩
        cases hsame
        have hle : size ≤ pageAlignSz size := by
          simp only [pageAlignSz, pageSz]
          omega
        have hlast : kmemTop < 2 ^ 64 := by decide
        have hend : (base + size) % 2 ^ 64 = base + size := Nat.mod_eq_of_lt (by omega)
        refine .inr ⟨rgid, hrgid, ?_⟩
        simp only [Sys.setSymrg, Function.update_self, RegionNames, isKernelVaddrRange, hend,
          Nat.add_sub_cancel_left, Bool.and_eq_true, decide_eq_true_eq]
        exact ⟨⟨hbase, by omega⟩, hname⟩

theorem growPools (s : Sys) (p : Pid) (id : Nat) : AddsRecords p s (Mem.growPools s p id).2 := by
  rw [Mem.growPools]
  split
  · exact .refl p s
  · split
    · exact ⟨fun _ hf => hf, fun _ hfp => .inl hfp⟩
    · refine ⟨fun f hf => ?_, fun _ hfp => .inl hfp⟩
      obtain ⟨pool, hpool, hname⟩ | hname := hf
      · refine .inl ⟨pool, ?_, hname⟩
        simp only [Sys.setPools, Function.update_self]
        exact List.mem_append_left _ hpool
      · exact .inr hname

/-- The pages of a pool that was not used. -/
theorem setPool {id : Nat} {old pool : KcachePool} (hst : KernelChange s t)
    (hold : (s.kcpooltbl p)[id]? = some old) (hunused : old.size = 0)
    (hnew : ∀ fp ∈ t.usedFpList .mram, fp ∈ s.usedFpList .mram ∨ PoolNames pool fp.fpn) :
    AddsRecords p s (t.setPools p ((t.kcpooltbl p).set id pool)) := by
  have hpools : t.kcpooltbl = s.kcpooltbl := by
    obtain ⟨_, _, _, _, rfl⟩ := hst
    rfl
  refine ⟨fun f hf => ?_, fun fp hfp => (hnew fp hfp).imp_right fun hname => ?_⟩
  · refine Records.setPool (hf.same (congrFun hst.symrgtbl p) (congrFun hpools p)) ?_
    intro old' hold' hname
    rw [hpools, hold] at hold'
    cases hold'
    exact absurd hunused hname.1
  · have hlt : id < (t.kcpooltbl p).length := by
      rw [hpools]
      exact (List.getElem?_eq_some_iff.mp hold).1
    refine .inl ⟨pool, ?_, hname⟩
    simp only [Sys.setPools, Function.update_self]
    exact List.mem_set hlt pool

theorem poolCreate {size align id : Nat} (hinv : Inv ok [] [] s) (hsize : size < 2 ^ 32)
    (hcase : PoolCreateCase s p size align id t) : AddsRecords p s t := by
  have hinv' := hinv.growPools p id
  have hgrown := growPools s p id
  have hchange := kernelChange_alloc (Mem.growPools s p id).2 p size
  have hnamed := named_alloc hinv' p size
  have hregion := (allocated hinv' p hsize).region
  have hnodup := (hinv'.kernelAllocContiguousRegion p size).nodup_used
  cases hcase with
  | refused => exact .refl p s
  | grown => exact hgrown
  | failed heq => exact hgrown.trans (failed hinv' heq)
  | @undone u base sz pool host hpool hunused heq =>
      rw [heq] at hchange hnamed hnodup
      have hdrawn : KernelChange (Mem.growPools s p id).2 { u with host := host } :=
        hchange.trans ⟨_, _, _, _, rfl⟩
      refine hgrown.trans (setPool (hdrawn.trans (kernelChange_release ..)) hpool hunused ?_)
      intro fp hfp
      have hrel := used_release (s := { u with host := host }) base
        (toInt (pageAlignSz size / pageSz)) hnodup
      obtain ⟨hfp, hnot⟩ := (hrel.2 fp).mp hfp
      refine .inl ((hnamed fp hfp).resolve_right ?_)
      rintro ⟨base', sz', hsame, hname⟩
      cases hsame
      exact hnot hname
  | @created u base sz pool host hpos halign husable hpool hunused heq =>
      rw [heq] at hchange hnamed hregion
      obtain ⟨rfl, hbase, htop, -⟩ := hregion base sz rfl
      have hdrawn : KernelChange (Mem.growPools s p id).2 { u with host := host } :=
        hchange.trans ⟨_, _, _, _, rfl⟩
      refine hgrown.trans (setPool hdrawn hpool hunused fun fp hfp => ?_)
      refine (hnamed fp hfp).imp_right ?_
      rintro ⟨base', sz', hsame, hname⟩
      cases hsame
      have hne : pageAlignSz size ≠ 0 := by
        simp only [pageAlignSz, pageSz]
        omega
      have hstorage : base ≠ 0 := by
        simp only [kmemVaddrBase] at hbase
        omega
      refine ⟨husable, hstorage, ?_⟩
      rw [poolSpan, createdPool, if_neg hne]
      exact hname

theorem cacheAlloc {rgid id : Nat} (hcase : CacheAllocCase s p rgid id t) : AddsRecords p s t := by
  cases hcase with
  | refused => exact .refl p s
  | @taken pool pool' slot hrgid hunused hpool hsize htake _ =>
      obtain ⟨hsize', hstorage, halloc, -⟩ := takeSlot_spec htake
      refine ⟨fun f hf => Records.setSymrg (Records.setPool hf ?_) hunused _, fun _ hfp => .inl hfp⟩
      intro old hold hname
      rw [hpool] at hold
      cases hold
      rw [PoolNames, poolSpan, hsize', hstorage, halloc]
      exact hname

end AddsRecords

/-- An instruction that keeps the records. -/
theorem Recorded.run {ok : Prop} {s t : Sys} {p : Pid} {ins : Inst} {junk : VmRg} {ret : Int}
    (hinv : Inv ok [] [] s) (hp : p ∈ s.runningList) (h : Recorded s)
    (hsys : ins.opcode ≠ .syscall) (hkeeps : (Op.inst p ins junk).KeepsRecords s)
    (hrun : Mem.run s p ins junk = some (ret, t)) : Recorded t := by
  have hadds (hadds : AddsRecords p s t) : Recorded t :=
    h.grow hp (Private.run hrun) hadds.keeps hadds.new
  have hregs {u : Sys} (regs : Pid → Nat → Nat) (hu : AddsRecords p s u) :
      AddsRecords p s { u with regs := regs } := ⟨hu.keeps, hu.new⟩
  cases run_cases hsys hrun with
  | refused => exact h
  | access hop hacc =>
      exact h.same
        ⟨hacc.usedFpList, (Private.run hrun).runningList, hacc.symrgtbl, hacc.kcpooltbl⟩
  | alloc hop halloc => exact h.alloc hp (hkeeps.2 hop) halloc
  | free hop => exact h.free hp (hkeeps.1 hop)
  | kmalloc regs hop hcase => exact hadds (hregs regs (.kmalloc hinv (toUint32_lt _) hcase))
  | poolCreate hop hcase => exact hadds (.poolCreate hinv (toUint32_lt _) hcase)
  | cacheAlloc regs hop hcase => exact hadds (hregs regs (.cacheAlloc hcase))

/-! ### Pools have pages -/

theorem PoolPages.takeSlot {pool pool' : KcachePool} {slot : Nat} (h : PoolPages pool)
    (htake : Mem.takeSlot pool = some (slot, pool')) : PoolPages pool' := by
  obtain ⟨-, hstorage, halloc, -⟩ := takeSlot_spec htake
  refine ⟨?_, ?_, ?_, ?_⟩
  · rw [hstorage]
    exact h.base
  · rw [halloc]
    exact h.alloc
  · rw [hstorage, halloc]
    exact h.top
  · rw [hstorage, halloc]
    exact h.aligned

namespace PoolsPaged

variable {ok : Prop} {s t : Sys} {p : Pid}

theorem same (h : PoolsPaged s p) (hpools : t.kcpooltbl p = s.kcpooltbl p) : PoolsPaged t p := by
  rw [PoolsPaged, hpools]
  exact h

theorem of_kernel (h : PoolsPaged s p) (hst : KernelChange s t) : PoolsPaged t p := by
  obtain ⟨_, _, _, _, rfl⟩ := hst
  exact h

theorem setPool (h : PoolsPaged s p) {id : Nat} {pool : KcachePool}
    (hpool : pool.size = 0 ∨ PoolPages pool) :
    PoolsPaged (s.setPools p ((s.kcpooltbl p).set id pool)) p := by
  intro pool' hmem
  simp only [Sys.setPools, Function.update_self] at hmem
  rcases List.mem_or_eq_of_mem_set hmem with hmem | rfl
  · exact h pool' hmem
  · exact hpool

theorem growPools (h : PoolsPaged s p) (id : Nat) : PoolsPaged (Mem.growPools s p id).2 p := by
  rw [Mem.growPools]
  split
  · exact h
  · split
    · exact h
    · intro pool hmem
      simp only [Sys.setPools, Function.update_self] at hmem
      rcases List.mem_append.mp hmem with hmem | hmem
      · exact h pool hmem
      · rw [List.eq_of_mem_replicate hmem]
        exact .inl rfl

theorem poolCreate {size align id : Nat} (hinv : Inv ok [] [] s) (h : PoolsPaged s p)
    (hsize : size < 2 ^ 32) (hcase : PoolCreateCase s p size align id t) : PoolsPaged t p := by
  have hgrown := h.growPools id
  have hchange := kernelChange_alloc (Mem.growPools s p id).2 p size
  have hregion := (allocated (hinv.growPools p id) p hsize).region
  cases hcase with
  | refused => exact h
  | grown => exact hgrown
  | failed heq =>
      rw [heq] at hchange
      exact hgrown.of_kernel hchange
  | @undone u base sz pool host _ _ heq =>
      rw [heq] at hchange
      have hu : PoolsPaged { u with host := host } p := (hgrown.of_kernel hchange).same rfl
      exact (hu.of_kernel (kernelChange_release ..)).setPool (.inl rfl)
  | @created u base sz pool host hpos _ _ _ _ heq =>
      have haligned := aligned_alloc heq
      rw [heq] at hchange hregion
      obtain ⟨rfl, hbase, htop, -⟩ := hregion base sz rfl
      have hspan : pageAlignSz size ≠ 0 ∧ pageAlignSz size % pageSz = 0 := by
        simp only [pageAlignSz, pageSz]
        omega
      have hu : PoolsPaged { u with host := host } p := (hgrown.of_kernel hchange).same rfl
      exact hu.setPool (.inr ⟨hbase, hspan.1, htop, haligned, hspan.2⟩)

theorem run {ins : Inst} {junk : VmRg} {ret : Int} (hinv : Inv ok [] [] s) (h : PoolsPaged s p)
    (hsys : ins.opcode ≠ .syscall) (hrun : Mem.run s p ins junk = some (ret, t)) :
    PoolsPaged t p := by
  cases run_cases hsys hrun with
  | refused => exact h
  | access hop hacc => exact h.same (congrFun hacc.kcpooltbl p)
  | alloc hop halloc =>
      obtain hsame | ⟨u, rg, hsame, -, -, rfl⟩ := alloc_records halloc
      · exact h.same (congrFun hsame.kcpooltbl p)
      · exact h.same (congrFun hsame.kcpooltbl p)
  | free hop =>
      refine h.same ?_
      rw [Mem.free]
      split
      · rfl
      · dsimp only
        split
        · rfl
        · split <;> rfl
  | kmalloc regs hop hcase =>
      have hchange := kernelChange_alloc s p (toUint32 ins.arg0.toNat)
      cases hcase with
      | refused => exact h
      | failed heq =>
          rw [heq] at hchange
          exact (h.of_kernel hchange).same rfl
      | taken _ _ _ heq =>
          rw [heq] at hchange
          exact (h.of_kernel hchange).same rfl
  | poolCreate hop hcase => exact h.poolCreate hinv (toUint32_lt _) hcase
  | cacheAlloc regs hop hcase =>
      cases hcase with
      | refused => exact h
      | taken _ _ hpool hsize htake _ =>
          have hpages := (h _ (List.mem_of_getElem? hpool)).resolve_left hsize
          exact h.setPool (.inr (hpages.takeSlot htake))

theorem step {op : Op} (hinv : Inv ok [] [] s) (h : ∀ p ∈ s.runningList, PoolsPaged s p)
    (hsys : op.NoSyscall) (hstep : Mem.step s op = some t) :
    ∀ p ∈ t.runningList, PoolsPaged t p := by
  refine forall_step (I := PoolsPaged) (fun _ _ hpools hs => hs.same hpools) ?_ hinv.nodup h hstep
    fun p ins junk ret hop hp hrun => ?_
  · intro t p _ _ hpools pool hpool
    rw [hpools] at hpool
    cases hpool
  · subst hop
    exact (h p hp).run hinv hsys hrun

end PoolsPaged

/-! ### Exit -/

/-- A region inside the pages of a pool has no other frames. -/
theorem PoolPages.names {pool : KcachePool} {rg : VmRg} {f : Nat} (h : PoolPages pool)
    (hused : pool.size ≠ 0) (hstart : pool.storage ≤ rg.rgStart)
    (hend : rg.rgEnd ≤ pool.storage + pool.allocSize) (hname : RegionNames rg f) :
    PoolNames pool f := by
  obtain ⟨hbase, halloc, htop, haligned⟩ := h
  obtain ⟨hkernel, page, hpage, rfl⟩ := hname
  simp only [isKernelVaddrRange, Bool.and_eq_true, decide_eq_true_eq] at hkernel
  have hstorage : pool.storage ≠ 0 := by
    simp only [kmemVaddrBase] at hbase
    omega
  refine ⟨hused, hstorage, ?_⟩
  rw [poolSpan, if_neg halloc]
  have hlast : kmemTop = kmemVaddrBase + 2 ^ 31 ∧ kmemTop < 2 ^ 64 := by decide
  have hfpn (a : Nat) (hle : kmemVaddrBase ≤ a) (hlt : a < 2 ^ 64) :
      kernelFpnFromVaddr a = (a - kmemVaddrBase) / 4096 := by
    simp only [kernelFpnFromVaddr, pageSz]
    omega
  have hpages : (toInt (pool.allocSize / pageSz)).toNat = pool.allocSize / 4096 := by
    simp only [toInt, pageSz]
    omega
  have hlen : (toInt (pageAlignSz (rg.rgEnd - rg.rgStart) / pageSz)).toNat =
      (rg.rgEnd - rg.rgStart + 4095) / 4096 := by
    simp only [toInt, pageAlignSz, pageSz]
    omega
  have hzero : kmemVaddrBase % 4096 = 0 := by decide
  rw [hlen] at hpage
  rw [Names, hpages, hfpn _ hkernel.1 (by omega), hfpn _ hbase (by omega)]
  simp only [pageSz] at haligned
  refine ⟨(rg.rgStart - kmemVaddrBase) / 4096 + page - (pool.storage - kmemVaddrBase) / 4096,
    ?_, ?_⟩
  · omega
  · omega

/-- A name either stays as it is or was inside the range. -/
theorem symrgtbl_clearSymrgRange (t : Sys) (p : Pid) (start stop i : Nat) :
    (clearSymrgRange t p start stop).symrgtbl p i = t.symrgtbl p i ∨
      start ≤ (t.symrgtbl p i).rgStart ∧ (t.symrgtbl p i).rgEnd ≤ stop := by
  have hgo (l : List Nat) (u : Sys) (hu : u.symrgtbl p i = t.symrgtbl p i ∨
      start ≤ (t.symrgtbl p i).rgStart ∧ (t.symrgtbl p i).rgEnd ≤ stop) :
      (l.foldl (clearSymrg p start stop) u).symrgtbl p i = t.symrgtbl p i ∨
        start ≤ (t.symrgtbl p i).rgStart ∧ (t.symrgtbl p i).rgEnd ≤ stop := by
    induction l generalizing u with
    | nil => exact hu
    | cons idx l ih =>
        refine ih _ (hu.elim (fun hkept => ?_) .inr)
        rw [clearSymrg]
        split
        · rename_i hinside
          rcases eq_or_ne i idx with rfl | hne
          · rw [← hkept]
            exact .inr hinside
          · simp only [Sys.setSymrg, Function.update_self, Function.update_of_ne hne]
            exact .inl hkept
        · exact .inl hkept
  rw [clearSymrgRange]
  split
  · exact .inl rfl
  · exact hgo _ t (.inl rfl)

theorem used_clearSymrgRange (t : Sys) (p : Pid) (start stop : Nat) :
    (clearSymrgRange t p start stop).usedFpList = t.usedFpList := by
  have hgo (l : List Nat) (u : Sys) :
      (l.foldl (clearSymrg p start stop) u).usedFpList = u.usedFpList := by
    induction l generalizing u with
    | nil => rfl
    | cons idx l ih =>
        rw [List.foldl_cons, ih, clearSymrg]
        split <;> rfl
  rw [clearSymrgRange]
  split
  · rfl
  · exact hgo _ t

/-- The sweep of `p` on its way: what it will not release is for `others` to
release. `pools` and `names` are still to be visited. -/
structure Remains (p : Pid) (others : Nat → Prop) (pools : List KcachePool) (names : List Nat)
    (t : Sys) : Prop where
  nodup : ((t.usedFpList .mram).map UsedFrame.fpn).Nodup
  recorded : ∀ fp ∈ t.usedFpList .mram, others fp.fpn ∨
    (∃ pool ∈ pools, PoolNames pool fp.fpn) ∨ ∃ i ∈ names, RegionNames (t.symrgtbl p i) fp.fpn

namespace Remains

variable {p : Pid} {others : Nat → Prop} {names : List Nat} {t : Sys}

theorem releasePool {pool : KcachePool} {pools : List KcachePool}
    (h : Remains p others (pool :: pools) names t) (hpool : pool.size = 0 ∨ PoolPages pool) :
    Remains p others pools names (Mem.releasePool p t pool) := by
  rw [Mem.releasePool]
  split
  · rename_i hunused
    refine ⟨h.nodup, fun fp hfp => (h.recorded fp hfp).imp_right (Or.imp_left ?_)⟩
    rintro ⟨pool', hmem, hname⟩
    rcases List.mem_cons.mp hmem with rfl | hmem
    · exact absurd hunused (not_or.mpr ⟨hname.1, hname.2.1⟩)
    · exact ⟨pool', hmem, hname⟩
  · rename_i hused
    rw [not_or] at hused
    have hpages := hpool.resolve_left hused.1
    have htop := hpages.top
    have hlast : kmemTop < 2 ^ 64 := by decide
    have hend : (pool.storage + pool.allocSize) % 2 ^ 64 = pool.storage + pool.allocSize :=
      Nat.mod_eq_of_lt (by omega)
    dsimp only
    rw [if_neg hpages.alloc, if_neg hpages.alloc, hend]
    obtain ⟨hnodup, hmem⟩ := used_release pool.storage (toInt (pool.allocSize / pageSz)) h.nodup
    have hsym := (kernelChange_release t pool.storage (toInt (pool.allocSize / pageSz))).symrgtbl
    have hused' := used_clearSymrgRange (kernelReleaseContiguousRegion t pool.storage
      (toInt (pool.allocSize / pageSz))) p pool.storage (pool.storage + pool.allocSize)
    refine ⟨by rw [hused']; exact hnodup, fun fp hfp => ?_⟩
    rw [hused'] at hfp
    obtain ⟨hfp, hnot⟩ := (hmem fp).mp hfp
    have hnot : ¬PoolNames pool fp.fpn := by
      rintro ⟨-, -, hname⟩
      rw [poolSpan, if_neg hpages.alloc] at hname
      exact hnot hname
    refine (h.recorded fp hfp).imp_right (Or.imp ?_ ?_)
    · rintro ⟨pool', hmem', hname⟩
      rcases List.mem_cons.mp hmem' with rfl | hmem'
      · exact absurd hname hnot
      · exact ⟨pool', hmem', hname⟩
    · rintro ⟨i, hi, hname⟩
      refine ⟨i, hi, ?_⟩
      rw [← hsym] at hname
      obtain hkept | ⟨hstart, hend⟩ := symrgtbl_clearSymrgRange (kernelReleaseContiguousRegion t
        pool.storage (toInt (pool.allocSize / pageSz))) p pool.storage
        (pool.storage + pool.allocSize) i
      · rw [hkept]
        exact hname
      · exact absurd (hpages.names hused.1 hstart hend hname) hnot

theorem releasePools {pools : List KcachePool} (h : Remains p others pools names t)
    (hpools : ∀ pool ∈ pools, pool.size = 0 ∨ PoolPages pool) :
    Remains p others [] names (pools.foldl (Mem.releasePool p) t) := by
  induction pools generalizing t with
  | nil => exact h
  | cons pool pools ih =>
      exact ih (h.releasePool (hpools pool (List.mem_cons_self ..)))
        fun pool' hmem => hpools pool' (List.mem_cons_of_mem _ hmem)

theorem releaseSymrg {idx : Nat} (h : Remains p others [] (idx :: names) t) :
    Remains p others [] names (Mem.releaseSymrg p t idx) := by
  rw [Mem.releaseSymrg]
  dsimp only
  split
  · rename_i huser
    refine ⟨h.nodup, fun fp hfp => (h.recorded fp hfp).imp_right (Or.imp_right ?_)⟩
    rintro ⟨i, hi, hname⟩
    rcases List.mem_cons.mp hi with rfl | hi
    · rw [hname.1] at huser
      cases huser
    · exact ⟨i, hi, hname⟩
  · split
    · rename_i hnone
      refine ⟨h.nodup, fun fp hfp => (h.recorded fp hfp).imp_right (Or.imp_right ?_)⟩
      rintro ⟨i, hi, hname⟩
      rcases List.mem_cons.mp hi with rfl | hi
      · obtain ⟨-, page, hlt, -⟩ := hname
        omega
      · exact ⟨i, hi, hname⟩
    · rename_i hkernel _
      obtain ⟨hnodup, hmem⟩ := used_release (t.symrgtbl p idx).rgStart (toInt (pageAlignSz
        ((t.symrgtbl p idx).rgEnd - (t.symrgtbl p idx).rgStart) / pageSz)) h.nodup
      have hsym := (kernelChange_release t (t.symrgtbl p idx).rgStart (toInt (pageAlignSz
        ((t.symrgtbl p idx).rgEnd - (t.symrgtbl p idx).rgStart) / pageSz))).symrgtbl
      refine ⟨hnodup, fun fp hfp => ?_⟩
      obtain ⟨hfp, hnot⟩ := (hmem fp).mp hfp
      refine (h.recorded fp hfp).imp_right (Or.imp_right ?_)
      rintro ⟨i, hi, hname⟩
      have hne : i ≠ idx := by
        rintro rfl
        exact hnot hname.2
      refine ⟨i, (List.mem_cons.mp hi).resolve_left hne, ?_⟩
      simp only [Sys.setSymrg, Function.update_self, Function.update_of_ne hne, hsym]
      exact hname

theorem releaseSymrgs (h : Remains p others [] names t) :
    Remains p others [] [] (names.foldl (Mem.releaseSymrg p) t) := by
  induction names generalizing t with
  | nil => exact h
  | cons idx names ih => exact ih h.releaseSymrg

end Remains

/-- An exit releases all frames that only the process had on record. -/
theorem Recorded.exitProc {ok : Prop} {s : Sys} {p : Pid} (hinv : Inv ok [] [] s)
    (h : Recorded s) (hpools : PoolsPaged s p) : Recorded (Mem.exitProc s p) := by
  have hstart : Remains p (fun f => ∃ q ∈ s.runningList, q ≠ p ∧ Records s q f) (s.kcpooltbl p)
      (List.range maxSymtblSz) { s with runningList := s.runningList.erase p } := by
    refine ⟨hinv.nodup_used, fun fp hfp => ?_⟩
    obtain ⟨q, hq, hrec⟩ := h fp hfp
    rcases eq_or_ne q p with rfl | hne
    · refine .inr (hrec.imp_right ?_)
      rintro ⟨i, hi, hname⟩
      exact ⟨i, List.mem_range.mpr hi, hname⟩
    · exact .inl ⟨q, hq, hne, hrec⟩
  have hreleased := hstart.releasePools hpools
  have hswept : Remains p (fun f => ∃ q ∈ s.runningList, q ≠ p ∧ Records s q f) [] []
      (swept s p) :=
    Remains.releaseSymrgs ⟨hreleased.nodup, hreleased.recorded⟩
  have hpriv := exitProc_private s p
  have hused : (Mem.exitProc s p).usedFpList = (swept s p).usedFpList := by
    rw [exitProc_eq]
    generalize swept s p = u
    have hmeta := meta_pcbMemphCollect u (u.pgd p)
    exact congrArg Sys.Meta.usedFpList hmeta
  intro fp hfp
  rw [hused] at hfp
  obtain ⟨q, hq, hne, hrec⟩ | ⟨pool, hmem, -⟩ | ⟨i, hmem, -⟩ := hswept.recorded fp hfp
  · refine ⟨q, ?_, hrec.same (hpriv.symrgtbl q hne) (hpriv.kcpooltbl q hne)⟩
    rw [hpriv.runningList]
    exact (List.mem_erase_of_ne hne).mpr hq
  · cases hmem
  · cases hmem

/-! ### Runs -/

/-- What holds in every state of a run that keeps its records. -/
structure RecordedInv (ok : Prop) (s : Sys) : Prop where
  inv : Inv ok [] [] s
  low : s.LowBreaks
  pools : ∀ p ∈ s.runningList, PoolsPaged s p
  recorded : Recorded s

theorem RecordedInv.boot (ramSz swpSz : Nat) (host : Nat → Bool) :
    RecordedInv (host = fun _ => true) (Mem.boot ramSz swpSz host) :=
  ⟨.boot ramSz swpSz host, fun _ hp => (by cases hp), fun _ hp => (by cases hp),
    fun _ hfp => (by cases hfp)⟩

theorem RecordedInv.step {ok : Prop} {s t : Sys} {op : Op} (h : RecordedInv ok s)
    (hstep : RecordingStep s op t) : RecordedInv ok t := by
  obtain ⟨hinv, hlow⟩ := Inv.growthStep ⟨h.inv, h.low⟩ hstep.growthStep
  refine ⟨hinv, hlow, PoolsPaged.step h.inv h.pools hstep.2.1 hstep.1, ?_⟩
  obtain ⟨hstep, hsys, -, hkeeps⟩ := hstep
  obtain ⟨-, hload⟩ | ⟨p, -, hp, rfl⟩ | ⟨p, ins, junk, ret, rfl, hp, hrun⟩ := step_cases hstep
  · simp only [loadProc] at hload
    split at hload
    · cases hload
      intro fp hfp
      obtain ⟨p, hp, hrec⟩ := h.recorded fp hfp
      have hne : p ≠ s.availPid := Nat.ne_of_lt (h.inv.fresh p hp)
      exact ⟨p, List.mem_append_left _ hp,
        hrec.same (Function.update_of_ne hne ..) (Function.update_of_ne hne ..)⟩
    · cases hload
  · exact h.recorded.exitProc h.inv (h.pools p hp)
  · exact h.recorded.run h.inv hp hsys hkeeps hrun

/-- Both devices are as they were at boot, but for the order of the free
frames, and the kernel maps no page. -/
structure AllReturned (ramSz swpSz : Nat) (s : Sys) : Prop where
  used : s.usedFpList .mram = []
  ram : (s.freeFpList .mram).Perm (List.range (numfp (toInt ramSz)))
  swp : (s.freeFpList .mswp).Perm (List.range (numfp (toInt swpSz)))
  kernel : ∀ a < 2 ^ 64, pagePresent (kernelPte s a) = false

theorem RecordedInv.allReturned {ramSz swpSz : Nat} {ok : Prop} {s : Sys} (h : RecordedInv ok s)
    (hok : ok) (hdone : s.runningList = []) (hram : s.maxsz .mram = toInt ramSz)
    (hswp : s.maxsz .mswp = toInt swpSz) : AllReturned ramSz swpSz s := by
  have hused : s.usedFpList .mram = [] := by
    refine List.eq_nil_iff_forall_not_mem.mpr fun fp hfp => ?_
    obtain ⟨p, hp, -⟩ := h.recorded fp hfp
    rw [hdone] at hp
    cases hp
  have hlost := (h.inv.host hok).2
  have hcount (d : Dev) (x : Nat) := h.inv.owners d x
  refine ⟨hused, ?_, ?_, fun a ha => ?_⟩
  · refine List.perm_iff_count.mpr fun x => ?_
    have hcount := hcount .mram x
    simp only [Sys.owners, held, hlost, hused, hdone, hram, List.map_nil, List.count_nil, tally,
      List.sum_nil, Nat.add_zero] at hcount
    rw [count_range]
    exact hcount
  · refine List.perm_iff_count.mpr fun x => ?_
    have hcount := hcount .mswp x
    simp only [Sys.owners, held, hlost, h.inv.swpUsed, hdone, hswp, List.map_nil, List.count_nil,
      tally, List.sum_nil, Nat.add_zero] at hcount
    rw [count_range]
    exact hcount
  · by_contra hpres
    obtain ⟨fp, hfp, -⟩ := h.inv.kernel a ha (Bool.eq_true_of_not_eq_false hpres)
    rw [hused] at hfp
    cases hfp

/-- At the end of every run that keeps its frames on record, all memory has
come back. -/
theorem all_memory_returns {ramSz swpSz : Nat} {ops : List Op} {s : Sys}
    (hrun : Run RecordingStep (boot ramSz swpSz fun _ => true) ops s)
    (hdone : s.runningList = []) : AllReturned ramSz swpSz s := by
  have hinv := hrun.invariant
    (I := fun s => RecordedInv ((fun _ => true) = fun _ : Nat => true) s ∧
      s.maxsz = (boot ramSz swpSz fun _ => true).maxsz)
    (fun s op t hs hstep => ⟨hs.1.step hstep, (maxsz_step hstep.1).trans hs.2⟩)
    ⟨.boot ramSz swpSz _, rfl⟩
  exact hinv.1.allReturned rfl hdone (congrFun hinv.2 .mram) (congrFun hinv.2 .mswp)

/-- An object of a pool is freed, and an `ALLOC` takes a name that a user
region has; the kernel region keeps its name. -/
def poolObjectFreed : List Op :=
  [.load, .inst 1 { opcode := .kmemCacheCreate, arg0 := 64, arg1 := 32, arg2 := 0 } ⟨0, 0⟩,
    .inst 1 { opcode := .kmemCacheAlloc, arg0 := 0, arg1 := 0 } ⟨0, 0⟩,
    .inst 1 { opcode := .free, arg0 := 0 } ⟨0, 0⟩,
    .inst 1 { opcode := .kmalloc, arg0 := 100, arg1 := 1 } ⟨0, 0⟩,
    .inst 1 { opcode := .alloc, arg0 := 10, arg1 := 0 } ⟨0, 0⟩, .exit 1]

theorem poolObjectFreed_isSome :
    (recordingExec (boot 12288 4096 fun _ => true) poolObjectFreed).isSome = true := by
  decide +kernel

theorem all_memory_returns_poolObjectFreed : ∃ s,
    Run RecordingStep (boot 12288 4096 fun _ => true) poolObjectFreed s ∧
      AllReturned 12288 4096 s := by
  have hrun := run_of_recordingExec (Option.some_get poolObjectFreed_isSome).symm
  exact ⟨_, hrun, all_memory_returns hrun (by decide +kernel)⟩

/-- The only record of a frame is freed. -/
def kmallocFreeExit : List Op :=
  [.load, .inst 1 { opcode := .kmalloc, arg0 := 100, arg1 := 0 } ⟨0, 0⟩,
    .inst 1 { opcode := .free, arg0 := 0 } ⟨0, 0⟩, .exit 1]

theorem kmallocFreeExit_isSome :
    (exec step (boot 12288 4096 fun _ => true) kmallocFreeExit).isSome = true := by
  decide +kernel

/-- The frame stays in the used list after the exit. -/
theorem kmallocFreeExit_leaks : ∃ s,
    exec step (boot 12288 4096 fun _ => true) kmallocFreeExit = some s ∧
      (∀ op ∈ kmallocFreeExit, op.NoSyscall) ∧ s.runningList = [] ∧
      (s.usedFpList .mram).map UsedFrame.fpn = [0] ∧ s.freeFpList .mram = [1, 2] ∧
      pagePresent (kernelPte s kmemVaddrBase) = true ∧ ¬AllReturned 12288 4096 s := by
  have hused : (((exec step (boot 12288 4096 fun _ => true) kmallocFreeExit).get
      kmallocFreeExit_isSome).usedFpList .mram).map UsedFrame.fpn = [0] := by
    decide +kernel
  refine ⟨_, (Option.some_get kmallocFreeExit_isSome).symm, ?_, ?_, hused, ?_, ?_, fun hall => ?_⟩
  · decide +kernel
  · decide +kernel
  · decide +kernel
  · decide +kernel
  · rw [hall.used] at hused
    cases hused

end Ossim.Mem
