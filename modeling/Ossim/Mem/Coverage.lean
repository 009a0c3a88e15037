import Ossim.Mem.Regions

/-!
No byte of the heap is lost.

Below the break every byte is in a region of the symbol table or in a free
region. `FREE` and a growth keep it so. `ALLOC` writes the new region over
the entry without a look at what was there: if the id still held a region,
its bytes are in no list any more. `__kmalloc` refuses such an id.
-/

namespace Ossim.Mem

open Ossim.Lib

/-- Every byte of the area is in a region or in a free region. -/
def HeapCovered (s : Sys) (p : Pid) : Prop :=
  ∀ x, (s.mmap p).vmStart ≤ x → x < (s.mmap p).sbrk →
    ∃ rg ∈ symRegions s p ++ (s.mmap p).vmFreergList, rg.rgStart ≤ x ∧ x < rg.rgEnd

/-- The instruction of process `p` is an `ALLOC` on an id that holds a
region. -/
def Reuses (p : Pid) (s : Sys) : Op → Prop
  | .inst q ins _ => q = p ∧ ins.opcode = .alloc ∧
      (s.symrgtbl p (toUint32 ins.arg1.toNat)).nonempty = true
  | _ => False

instance (p : Pid) (s : Sys) : (op : Op) → Decidable (Reuses p s op)
  | .inst q _ _ => inferInstanceAs (Decidable (q = p ∧ _ ∧ _))
  | .load => inferInstanceAs (Decidable False)
  | .exit _ => inferInstanceAs (Decidable False)

def FreshStep (p : Pid) (s : Sys) (op : Op) (t : Sys) : Prop :=
  RegionStep p s op t ∧ ¬Reuses p s op

/-- The same, as a function. -/
def freshExec (p : Pid) : Sys → List Op → Option Sys :=
  exec (guarded step fun s op _ => decide (OnRegions p s op ∧ ¬Reuses p s op))

theorem run_of_freshExec {p : Pid} {s t : Sys} {ops : List Op} (h : freshExec p s ops = some t) :
    Run (FreshStep p) s ops t :=
  run_of_exec_guarded (fun _ _ _ hstep hok =>
    ⟨⟨hstep, (of_decide_eq_true hok).1⟩, (of_decide_eq_true hok).2⟩) h

theorem VmRg.covers_of_not_nonempty {rg : VmRg} (h : rg.nonempty ≠ true) (x : Nat) :
    rg.covers x = false := by
  simp only [VmRg.nonempty, ne_eq, decide_eq_true_eq] at h
  rw [Bool.eq_false_iff, ne_eq, VmRg.covers_iff]
  omega

/-- The invariant, as a statement about counts. -/
def Counted (s : Sys) (p : Pid) : Prop :=
  ∀ x < (s.mmap p).sbrk, 1 ≤ cover (symRegions s p) x + cover (s.mmap p).vmFreergList x

namespace Counted

variable {s t : Sys} {p : Pid}

theorem heapCovered (h : Counted s p) : HeapCovered s p := by
  intro x _ hx
  have hpos : 0 < cover (symRegions s p ++ (s.mmap p).vmFreergList) x := by
    rw [cover_append]
    exact h x hx
  obtain ⟨rg, hmem, hcov⟩ := cover_pos.mp hpos
  exact ⟨rg, hmem, VmRg.covers_iff.mp hcov⟩

theorem frame (h : Counted s p) (hmmap : t.mmap p = s.mmap p)
    (hsym : t.symrgtbl p = s.symrgtbl p) : Counted t p := by
  intro x hx
  have hregions : symRegions t p = symRegions s p := by rw [symRegions, hsym]; rfl
  rw [hmmap] at hx ⊢
  rw [hregions]
  exact h x hx

/-- The new free region covers the bytes between the two breaks. -/
theorem grow (h : Counted s p) (hinv : RegionInv s p) {inc : Nat} (ht : GrownOk s p inc t) :
    Counted t p := by
  intro x hx
  have hwithin : Within ((s.mmap p).sbrk + inc)
      (⟨(s.mmap p).sbrk, (s.mmap p).sbrk + inc⟩ :: (s.mmap p).vmFreergList) :=
    .cons ⟨Nat.le_add_right _ _, Nat.le_refl _⟩ (hinv.free.mono (Nat.le_add_right _ _))
  have hsym : symRegions t p = symRegions s p := by rw [symRegions, ht.symrgtbl]; rfl
  rw [ht.mmap] at hx ⊢
  rw [hsym]
  dsimp only at hx ⊢
  rw [cover_enlistVmRgNode hwithin, cover_cons]
  rcases Nat.lt_or_ge x (s.mmap p).sbrk with hold | hnew
  · have := h x hold
    omega
  · rw [if_pos (VmRg.covers_iff.mpr ⟨hnew, hx⟩)]
    omega

/-- Nothing is lost by overwriting an empty region. -/
theorem take (h : Counted s p) {rgid : Nat} (hrgid : rgid < maxSymtblSz)
    (hempty : (s.symrgtbl p rgid).nonempty ≠ true) {rg : VmRg} {rest : List VmRg}
    (hcover : ∀ x, cover (rg :: rest) x = cover (s.mmap p).vmFreergList x) :
    Counted ((s.setMmap p { s.mmap p with vmFreergList := rest }).setSymrg p rgid rg) p := by
  have hmmap : ((s.setMmap p { s.mmap p with vmFreergList := rest }).setSymrg p rgid rg).mmap p =
      { s.mmap p with vmFreergList := rest } := Sys.mmap_setMmap ..
  intro x hx
  have hset := cover_setSymrg (s := s.setMmap p { s.mmap p with vmFreergList := rest })
    (p := p) hrgid rg x
  change _ + (if (s.symrgtbl p rgid).covers x then 1 else 0) = cover (symRegions s p) x + _ at hset
  rw [VmRg.covers_of_not_nonempty hempty] at hset
  have htake := hcover x
  rw [cover_cons] at htake
  rw [hmmap] at hx ⊢
  have hbyte := h x hx
  dsimp only
  simp only [Bool.false_eq_true, if_false] at hset
  omega

/-- The region that `FREE` takes out of the table is in the list. -/
theorem give (h : Counted s p) (hinv : RegionInv s p) {rgid : Nat} (hrgid : rgid < maxSymtblSz) :
    Counted ((s.setSymrg p rgid ⟨0, 0⟩).setMmap p { s.mmap p with
      vmFreergList := enlistVmRgNode (s.mmap p).vmFreergList (s.symrgtbl p rgid) }) p := by
  have hwithin : Within (s.mmap p).sbrk (s.symrgtbl p rgid :: (s.mmap p).vmFreergList) :=
    .cons (hinv.sym _ (mem_symRegions hrgid)) hinv.free
  intro x hx
  rw [Sys.mmap_setMmap] at hx ⊢
  have hset := cover_setSymrg (s := s) (p := p) hrgid ⟨0, 0⟩ x
  have hzero : (⟨0, 0⟩ : VmRg).covers x = false := by simp [VmRg.covers]
  rw [hzero] at hset
  simp only [Bool.false_eq_true, if_false] at hset
  have hbyte := h x hx
  dsimp only
  rw [cover_enlistVmRgNode hwithin, cover_cons]
  change 1 ≤ cover (symRegions (s.setSymrg p rgid ⟨0, 0⟩) p) x + _
  omega

theorem alloc (h : Counted s p) (hinv : RegionInv s p) {rgid size : Nat} {junk : VmRg} {ret : Int}
    (hsize : size < 2 ^ 31) (hok : Obtains s p size junk)
    (hempty : (s.symrgtbl p rgid).nonempty ≠ true)
    (halloc : Mem.alloc s p rgid size junk = some (ret, t)) : Counted t p := by
  obtain ⟨hpos, hint⟩ := RegionInv.toInt_of_lt hsize
  have hgrow {u : Sys} (hgrows : Grows s p size junk u) :
      RegionInv u p ∧ Counted u p ∧ u.symrgtbl = s.symrgtbl := by
    obtain ⟨inc, hreq, hgrown⟩ := hinv.grows hsize hok hgrows
    exact ⟨hinv.grow hreq hgrown, h.grow hinv hgrown, hgrown.symrgtbl⟩
  cases alloc_cases (by decide) hpos (hinv.free.mono hinv.low)
    (fun u hgrows => (hgrow hgrows).1.free.mono (hgrow hgrows).1.low) halloc with
  | refused host => exact h
  | grown hgrows => exact (hgrow hgrows).2.1
  | @taken u rg rest hu hrgid htake =>
      obtain ⟨hinv, h, hsym⟩ : RegionInv u p ∧ Counted u p ∧ u.symrgtbl = s.symrgtbl :=
        hu.elim (fun heq => by rw [heq]; exact ⟨hinv, h, rfl⟩) hgrow
      have hlow := hinv.low
      rw [hint] at htake
      obtain ⟨-, -, -, hcover⟩ := takeFree_spec hinv.free (by omega) htake
      exact h.take hrgid (hsym ▸ hempty) hcover

theorem free (h : Counted s p) (hinv : RegionInv s p) (rgid : Nat) :
    Counted (Mem.free s p rgid).2 p := by
  rw [Mem.free]
  split
  · exact h
  · rename_i hrgid
    dsimp only
    split
    · exact h
    · split
      · exact h
      · rename_i host hd
        have hdraw : RegionInv { s with host := host } p := { hinv with }
        exact give (s := { s with host := host }) h hdraw (Nat.not_le.mp hrgid)

theorem run {ins : Inst} {junk : VmRg} {ret : Int} (h : Counted s p) (hinv : RegionInv s p)
    (hop : OnRegions p s (.inst p ins junk)) (hfresh : ¬Reuses p s (.inst p ins junk))
    (hrun : Mem.run s p ins junk = some (ret, t)) : Counted t p := by
  obtain ⟨halloc, hsize, hok⟩ | hother := hop rfl
  · rw [Mem.run, halloc] at hrun
    exact h.alloc hinv hsize hok (fun hne => hfresh ⟨rfl, halloc, hne⟩) hrun
  · simp only [List.mem_cons, List.not_mem_nil, or_false] at hother
    rcases hother with hop | hop | hop | hop
    all_goals rw [Mem.run, hop] at hrun
    · rw [← snd_eq_of_some hrun]
      exact h.free hinv _
    · have hacc := Accesses.libread hrun
      exact h.frame (congrFun hacc.mmap p) (congrFun hacc.symrgtbl p)
    · rw [← snd_eq_of_some hrun]
      have hacc := Accesses.libwrite s p (BitVec.ofNat 8 ins.arg0.toNat) (toUint32 ins.arg1.toNat)
        ins.arg2.toNat
      exact h.frame (congrFun hacc.mmap p) (congrFun hacc.symrgtbl p)
    · cases hrun
      exact h

theorem step {op : Op} (hpids : Pids s) (hinv : p ∈ s.runningList → RegionInv s p)
    (h : p ∈ s.runningList → Counted s p) (hstep : FreshStep p s op t)
    (hp : p ∈ t.runningList) : Counted t p := by
  obtain ⟨⟨hstep, hop⟩, hfresh⟩ := hstep
  obtain ⟨hmmap, -⟩ | ⟨hp, hmmap, hsym, -⟩ | ⟨hp, ins, junk, ret, rfl, hrun⟩ :=
    step_of_process hpids hstep hp
  · intro x hx
    rw [hmmap] at hx
    exact absurd hx (Nat.not_lt_zero _)
  · exact (h hp).frame hmmap hsym
  · exact (h hp).run (hinv hp) hop hfresh hrun

end Counted

/-- No byte of the heap is lost in a run in which the process never puts a
new region over one that it still holds. -/
theorem heap_covered {ramSz swpSz : Nat} {host : Nat → Bool} {ops : List Op} {s : Sys} {p : Pid}
    (hrun : Run (FreshStep p) (boot ramSz swpSz host) ops s) (hp : p ∈ s.runningList) :
    HeapCovered s p := by
  have hinv := hrun.invariant
    (I := fun s => Pids s ∧ (p ∈ s.runningList → RegionInv s p) ∧
      (p ∈ s.runningList → Counted s p))
    (fun s op t hs hstep => ⟨hs.1.step hstep.1.1, RegionInv.step hs.1 hs.2.1 hstep.1,
      Counted.step hs.1 hs.2.1 hs.2.2 hstep⟩)
    ⟨.boot ramSz swpSz host, (fun hp => by cases hp), fun hp => by cases hp⟩
  exact (hinv.2.2 hp).heapCovered

/-- Process 1 allocates 100 bytes, frees them and allocates 5000 bytes with
the same id. -/
def allocFreeAlloc : List Op :=
  [.load, .inst 1 { opcode := .alloc, arg0 := 100, arg1 := 0 } ⟨0, 0⟩,
    .inst 1 { opcode := .free, arg0 := 0 } ⟨0, 0⟩,
    .inst 1 { opcode := .alloc, arg0 := 5000, arg1 := 0 } ⟨0, 0⟩]

theorem allocFreeAlloc_isSome :
    (freshExec 1 (boot 12288 0 fun _ => true) allocFreeAlloc).isSome = true := by
  decide +kernel

theorem heap_covered_allocFreeAlloc : ∃ s,
    Run (FreshStep 1) (boot 12288 0 fun _ => true) allocFreeAlloc s ∧
    1 ∈ s.runningList ∧ HeapCovered s 1 := by
  have hrun := run_of_freshExec (Option.some_get allocFreeAlloc_isSome).symm
  have hlive : 1 ∈ ((freshExec 1 (boot 12288 0 fun _ => true) allocFreeAlloc).get
      allocFreeAlloc_isSome).runningList := by decide +kernel
  exact ⟨_, hrun, hlive, heap_covered hrun hlive⟩

/-- Process 1 allocates 100 bytes twice with the same id. -/
def allocAlloc : List Op :=
  [.load, .inst 1 { opcode := .alloc, arg0 := 100, arg1 := 0 } ⟨0, 0⟩,
    .inst 1 { opcode := .alloc, arg0 := 100, arg1 := 0 } ⟨0, 0⟩]

theorem allocAlloc_isSome :
    (regionExec 1 (boot 12288 0 fun _ => true) allocAlloc).isSome = true := by
  decide +kernel

/-- The first byte of the heap is in no list after the second `ALLOC`. -/
theorem allocAlloc_not_covered : ∃ s,
    Run (RegionStep 1) (boot 12288 0 fun _ => true) allocAlloc s ∧
    1 ∈ s.runningList ∧ ¬HeapCovered s 1 := by
  have hrun := run_of_regionExec (Option.some_get allocAlloc_isSome).symm
  refine ⟨_, hrun, by decide +kernel, fun hcov => ?_⟩
  obtain ⟨rg, hmem, hx⟩ := hcov 0 (by decide +kernel) (by decide +kernel)
  have hnone : ∀ rg ∈ symRegions ((regionExec 1 (boot 12288 0 fun _ => true) allocAlloc).get
      allocAlloc_isSome) 1 ++ (((regionExec 1 (boot 12288 0 fun _ => true) allocAlloc).get
      allocAlloc_isSome).mmap 1).vmFreergList, ¬(rg.rgStart ≤ 0 ∧ 0 < rg.rgEnd) := by
    decide +kernel
  exact hnone rg hmem hx

end Ossim.Mem
