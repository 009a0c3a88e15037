import Ossim.Mem.Privacy

/-!
Boot, load, exit: the invariant holds in every reachable state.

When a process leaves the running list its page table no longer counts, so
every frame the table names becomes held by the exit; the collection at the
end of the sweep gives exactly these back.
-/

namespace Ossim.Mem

open Ossim.Lib

/-! ### Exit -/

/-- The RAM frame an entry owns. -/
def pteRamFrame (pte : Nat) : Option Nat := if pagePresent pte then some (pteFpn pte) else none

/-- The swap frame an entry owns. -/
def pteSwpFrame (pte : Nat) : Option Nat := if pageSwapped pte then some (pteSwp pte) else none

theorem count_pteRamFrame (x : Nat) (l : List Nat) :
    (l.filterMap pteRamFrame).count x = l.countP (owns .mram x) := by
  induction l with
  | nil => rfl
  | cons v l ih =>
      rw [List.countP_cons, List.filterMap_cons, ← ih, pteRamFrame]
      cases hv : pagePresent v <;> simp [owns, hv, List.count_cons]

theorem count_pteSwpFrame (x : Nat) (l : List Nat) :
    (l.filterMap pteSwpFrame).count x = l.countP (owns .mswp x) := by
  induction l with
  | nil => rfl
  | cons v l ih =>
      rw [List.countP_cons, List.filterMap_cons, ← ih, pteSwpFrame]
      cases hv : pageSwapped v <;> simp [owns, hv, List.count_cons]

/-- The kernel part of the sweep leaves page tables and the other processes
alone. -/
structure SweepChange (p : Pid) (s t : Sys) : Prop where
  others : Private p s t
  pgd : t.pgd = s.pgd

namespace SweepChange

variable {p : Pid} {s t u : Sys}

theorem refl (p : Pid) (s : Sys) : SweepChange p s s := ⟨.refl p s, rfl⟩

theorem trans (h : SweepChange p s t) (h' : SweepChange p t u) : SweepChange p s u :=
  ⟨h.others.trans h'.others, h'.pgd.trans h.pgd⟩

theorem of_kernel (h : KernelChange s t) : SweepChange p s t := by
  refine ⟨.of_kernel h, ?_⟩
  obtain ⟨_, _, _, _, rfl⟩ := h
  rfl

theorem foldl {α : Type} {f : Sys → α → Sys} (hf : ∀ s a, SweepChange p s (f s a)) (l : List α)
    (s : Sys) : SweepChange p s (l.foldl f s) := by
  induction l generalizing s with
  | nil => exact refl p s
  | cons a l ih => exact (hf s a).trans (ih (f s a))

theorem clearSymrgRange (s : Sys) (p : Pid) (start stop : Nat) :
    SweepChange p s (Mem.clearSymrgRange s p start stop) := by
  rw [Mem.clearSymrgRange]
  split
  · exact refl p s
  · refine foldl (fun s idx => ?_) _ s
    rw [clearSymrg]
    split
    · exact ⟨.setSymrg .., rfl⟩
    · exact refl p s

theorem releasePool (p : Pid) (s : Sys) (pool : KcachePool) :
    SweepChange p s (Mem.releasePool p s pool) := by
  rw [Mem.releasePool]
  split
  · exact refl p s
  · dsimp only
    generalize (if pool.allocSize = 0 then pageAlignSz pool.size else pool.allocSize) = sz
    split
    · exact refl p s
    · exact (of_kernel (kernelChange_release ..)).trans (clearSymrgRange ..)

theorem releaseKernelCachePools (s : Sys) (p : Pid) :
    SweepChange p s (Mem.releaseKernelCachePools s p) :=
  (foldl (releasePool p) _ s).trans ⟨.setPools .., rfl⟩

theorem releaseSymrg (p : Pid) (s : Sys) (idx : Nat) :
    SweepChange p s (Mem.releaseSymrg p s idx) := by
  rw [Mem.releaseSymrg]
  dsimp only
  split
  · exact refl p s
  · split
    · exact refl p s
    · exact (of_kernel (kernelChange_release ..)).trans ⟨.setSymrg .., rfl⟩

theorem releaseKernelSymrgAllocations (s : Sys) (p : Pid) :
    SweepChange p s (Mem.releaseKernelSymrgAllocations s p) :=
  foldl (releaseSymrg p) _ s

end SweepChange

theorem meta_collectPte (s : Sys) (v : Nat) : (collectPte s v).meta = s.meta := by
  rw [collectPte]
  split
  · exact meta_memphyPutFreefp ..
  · split
    · exact meta_memphyPutFreefp ..
    · rfl

theorem meta_pcbMemphCollect (s : Sys) (table : PageTable) :
    (pcbMemphCollect s table).meta = s.meta := by
  rw [pcbMemphCollect]
  induction table.entries generalizing s with
  | nil => rfl
  | cons v l ih =>
      rw [List.foldl_cons, ih]
      exact meta_collectPte s v

theorem pgd_pcbMemphCollect (s : Sys) (table : PageTable) :
    (pcbMemphCollect s table).pgd = s.pgd := by
  rw [pcbMemphCollect]
  induction table.entries generalizing s with
  | nil => rfl
  | cons v l ih =>
      rw [List.foldl_cons, ih, collectPte]
      split
      · exact pgd_memphyPutFreefp ..
      · split
        · exact pgd_memphyPutFreefp ..
        · rfl

/-- The state in which the sweep of `p` collects its page table. -/
def swept (s : Sys) (p : Pid) : Sys :=
  releaseKernelSymrgAllocations (releaseKernelCachePools
    { s with runningList := s.runningList.erase p } p) p

theorem exitProc_eq (s : Sys) (p : Pid) :
    exitProc s p =
      let t := pcbMemphCollect (swept s p) ((swept s p).pgd p)
      { t with fifoPgn := Function.update t.fifoPgn p [] } := by
  simp only [exitProc, freePcbMemph, swept]

theorem swept_change (s : Sys) (p : Pid) :
    SweepChange p { s with runningList := s.runningList.erase p } (swept s p) :=
  (SweepChange.releaseKernelCachePools _ p).trans (.releaseKernelSymrgAllocations _ p)

/-- What the exit of a process does to the others. -/
theorem exitProc_private (s : Sys) (p : Pid) :
    Private p { s with runningList := s.runningList.erase p } (exitProc s p) := by
  have hswept := (swept_change s p).others
  have hmeta := meta_pcbMemphCollect (swept s p) ((swept s p).pgd p)
  have hpgd := pgd_pcbMemphCollect (swept s p) ((swept s p).pgd p)
  rw [exitProc_eq]
  dsimp only
  generalize pcbMemphCollect (swept s p) ((swept s p).pgd p) = t at hmeta hpgd ⊢
  generalize swept s p = u at hswept hmeta hpgd
  have hcollect : Private p u { t with fifoPgn := Function.update t.fifoPgn p [] } :=
    .of_meta (l := u.stores) hmeta fun q _ path => .inl (by rw [← hpgd])
  exact hswept.trans hcollect

/-- The pids of the running list, whatever the processes do. -/
structure Pids (s : Sys) : Prop where
  nodup : s.runningList.Nodup
  fresh : ∀ p ∈ s.runningList, p < s.availPid

namespace Pids

variable {s t : Sys}

theorem boot (ramSz swpSz : Nat) (host : Nat → Bool) : Pids (Mem.boot ramSz swpSz host) :=
  ⟨List.nodup_nil, fun _ hp => by cases hp⟩

theorem loadProc (h : Pids s) (hload : Mem.loadProc s = some t) : Pids t := by
  simp only [Mem.loadProc] at hload
  split at hload
  · cases hload
    refine ⟨?_, fun q hq => ?_⟩
    · rw [List.nodup_append]
      refine ⟨h.nodup, List.nodup_singleton _, fun q hq q' hq' heq => ?_⟩
      rw [heq, List.mem_singleton.mp hq'] at hq
      exact Nat.lt_irrefl _ (h.fresh _ hq)
    · rcases List.mem_append.mp hq with hq | hq
      · exact Nat.lt_succ_of_lt (h.fresh q hq)
      · rw [List.mem_singleton.mp hq]
        exact Nat.lt_succ_self _
  · cases hload

theorem step {op : Op} (h : Pids s) (hstep : Mem.step s op = some t) : Pids t := by
  obtain ⟨-, hload⟩ | ⟨p, -, -, rfl⟩ | ⟨p, ins, junk, ret, -, -, hrun⟩ := step_cases hstep
  · exact h.loadProc hload
  · have hpriv := exitProc_private s p
    refine ⟨?_, fun q hq => ?_⟩
    · rw [hpriv.runningList]
      exact h.nodup.erase p
    · rw [hpriv.runningList] at hq
      rw [hpriv.availPid]
      exact h.fresh q (List.mem_of_mem_erase hq)
  · have hpriv := Private.run hrun
    refine ⟨?_, fun q hq => ?_⟩
    · rw [hpriv.runningList]
      exact h.nodup
    · rw [hpriv.runningList] at hq
      rw [hpriv.availPid]
      exact h.fresh q hq

end Pids

namespace Inv

variable {ok : Prop} {ram swp : List Nat} {s t : Sys} {p : Pid}

/-- A process leaves: its page table no longer counts. -/
theorem leave (h : Inv ok ram swp s) (hp : p ∈ s.runningList) :
    Inv ok ((s.pgd p).entries.filterMap pteRamFrame ++ ram)
      ((s.pgd p).entries.filterMap pteSwpFrame ++ swp)
      { s with runningList := s.runningList.erase p } :=
  have hsub (q : Pid) (hq : q ∈ s.runningList.erase p) : q ∈ s.runningList :=
    List.mem_of_mem_erase hq
  { h with
    owners := fun d x => by
      have hold := h.owners d x
      have htally := tally_erase (f := s.owned d x) hp
      simp only [Sys.owners] at hold ⊢
      change _ + tally (s.runningList.erase p) (s.owned d x) + _ = _
      have howned : s.owned d x p = (s.pgd p).entries.countP (owns d x) := rfl
      cases d with
      | mram =>
          simp only [held, List.count_append, count_pteRamFrame] at hold ⊢
          omega
      | mswp =>
          simp only [held, List.count_append, count_pteSwpFrame] at hold ⊢
          omega
    nodup := h.nodup.erase p
    fresh := fun q hq => h.fresh q (hsub q hq)
    wf := fun q hq => h.wf q (hsub q hq)
    aligned := fun q hq => h.aligned q (hsub q hq)
    above := fun q hq => h.above q (hsub q hq)
    fifo := fun q hq => h.fifo q (hsub q hq)
    content := fun q hq => h.content q (hsub q hq) }

theorem collect {l : List Nat} (hl : ∀ v ∈ l, WfPte v)
    (h : Inv ok (l.filterMap pteRamFrame ++ ram) (l.filterMap pteSwpFrame ++ swp) s) :
    Inv ok ram swp (l.foldl collectPte s) := by
  induction l generalizing s with
  | nil => exact h
  | cons v l ih =>
      refine ih (fun v' hv' => hl v' (List.mem_cons_of_mem v hv')) ?_
      have hwf := hl v (List.mem_cons_self ..)
      rw [collectPte]
      cases hwf with
      | zero => exact h
      | present hf =>
          simp only [List.filterMap_cons, pteRamFrame, pteSwpFrame, pagePresent_presentPte,
            pageSwapped_presentPte, if_true, Bool.false_eq_true, if_false] at h ⊢
          exact putFreefp_mram h
      | swapped ho =>
          simp only [List.filterMap_cons, pteRamFrame, pteSwpFrame, pagePresent_swappedPte,
            pageSwapped_swappedPte, if_true, Bool.false_eq_true, if_false] at h ⊢
          exact putFreefp_mswp h

theorem foldl {α : Type} {f : Sys → α → Sys}
    (hf : ∀ s a, Inv ok ram swp s → Inv ok ram swp (f s a)) (l : List α) (h : Inv ok ram swp s) :
    Inv ok ram swp (l.foldl f s) := by
  induction l generalizing s with
  | nil => exact h
  | cons a l ih => exact ih (hf s a h)

theorem clearSymrgRange (h : Inv ok ram swp s) (p : Pid) (start stop : Nat) :
    Inv ok ram swp (Mem.clearSymrgRange s p start stop) := by
  rw [Mem.clearSymrgRange]
  split
  · exact h
  · refine h.foldl (fun s idx hs => ?_) _
    rw [clearSymrg]
    split
    · exact hs.setSymrg p idx _
    · exact hs

theorem releaseKernelCachePools (h : Inv ok ram swp s) (p : Pid) :
    Inv ok ram swp (Mem.releaseKernelCachePools s p) := by
  refine setPools (h.foldl (fun s pool hs => ?_) _) p []
  rw [releasePool]
  split
  · exact hs
  · dsimp only
    generalize (if pool.allocSize = 0 then pageAlignSz pool.size else pool.allocSize) = sz
    split
    · exact hs
    · exact (hs.release _ _).clearSymrgRange p _ _

theorem releaseKernelSymrgAllocations (h : Inv ok ram swp s) (p : Pid) :
    Inv ok ram swp (Mem.releaseKernelSymrgAllocations s p) := by
  refine h.foldl (fun s idx hs => ?_) _
  rw [releaseSymrg]
  dsimp only
  split
  · exact hs
  · split
    · exact hs
    · exact (hs.release _ _).setSymrg p idx _

theorem exitProc (h : Inv ok ram swp s) (hp : p ∈ s.runningList) :
    Inv ok ram swp (Mem.exitProc s p) := by
  have hsweep : Inv ok ((s.pgd p).entries.filterMap pteRamFrame ++ ram)
      ((s.pgd p).entries.filterMap pteSwpFrame ++ swp) (swept s p) :=
    ((h.leave hp).releaseKernelCachePools p).releaseKernelSymrgAllocations p
  have hwf : ∀ v ∈ (s.pgd p).entries, WfPte v := by
    intro v hv
    obtain ⟨path, -, rfl⟩ := Radix.exists_lookup_of_mem_entries (z := 0) hv
    exact h.wf p hp path
  have hcollect := hsweep.collect hwf
  rw [← show (swept s p).pgd = s.pgd from (swept_change s p).pgd] at hcollect
  rw [exitProc_eq]
  dsimp only
  change Inv ok ram swp (pcbMemphCollect (swept s p) ((swept s p).pgd p)) at hcollect
  generalize pcbMemphCollect (swept s p) ((swept s p).pgd p) = t at hcollect ⊢
  refine hcollect.setFifo fun q hq g hg => ?_
  rcases eq_or_ne q p with rfl | hne
  · rw [Function.update_self] at hg
    cases hg
  · rw [Function.update_of_ne hne] at hg
    exact hcollect.fifo q hq g hg

/-! ### Boot and load -/

theorem entries_emptyTable :
    (Radix.node fun _ => .null : PageTable).entries = [] := by
  simp [Radix.entries]

theorem boot (ramSz swpSz : Nat) (host : Nat → Bool) :
    Inv (host = fun _ => true) [] [] (Mem.boot ramSz swpSz host) where
  usable d := by
    have hlt (n : Nat) : toInt n < 2 ^ 31 := by
      rw [toInt]
      split <;> omega
    cases d <;> exact ⟨rfl, hlt _⟩
  owners d x := by
    have hcount (n : Nat) : (List.range n).count x = if x < n then 1 else 0 := by
      split
      · rename_i hx
        exact List.count_eq_one_of_mem List.nodup_range (List.mem_range.mpr hx)
      · rename_i hx
        exact List.count_eq_zero.mpr fun hmem => hx (List.mem_range.mp hmem)
    cases d <;> exact hcount _
  swpUsed := rfl
  nodup := List.nodup_nil
  fresh _ hp := by cases hp
  wf _ hp := by cases hp
  aligned _ hp := by cases hp
  above _ hp := by cases hp
  fifo _ hp := by cases hp
  kernel a _ hpres := by
    have hzero : kernelPte (Mem.boot ramSz swpSz host) a = 0 := by
      rw [kernelPte]
      split
      · rfl
      · rename_i path _
        cases path
        rfl
    rw [hzero] at hpres
    cases hpres
  past _ he := by cases he
  content _ hp := by cases hp
  host hok := ⟨hok, fun _ => rfl⟩

/-- A new process has a fresh pid, an empty page table and no stores. -/
theorem loadProc (h : Inv ok ram swp s) (hload : Mem.loadProc s = some t) :
    Inv ok ram swp t := by
  have hpids := Pids.loadProc ⟨h.nodup, h.fresh⟩ hload
  simp only [Mem.loadProc] at hload
  split at hload
  · cases hload
    have hnew : s.availPid ∉ s.runningList := fun hmem => Nat.lt_irrefl _ (h.fresh _ hmem)
    have hold {α : Type} (f : Pid → α) (a : α) (q : Pid) (hq : q ∈ s.runningList) :
        Function.update f s.availPid a q = f q :=
      Function.update_of_ne (fun heq : q = s.availPid => hnew (heq ▸ hq)) _ _
    have hself {α : Type} (f : Pid → α) (a : α) :
        Function.update f s.availPid a s.availPid = a := Function.update_self ..
    have hcases (q : Pid) (hq : q ∈ s.runningList ++ [s.availPid]) :
        q ∈ s.runningList ∨ q = s.availPid := by simpa using hq
    have hlookup (path : RadixPath 512 4) :
        (Radix.node fun _ => .null : PageTable).lookup 0 path = 0 := by
      cases path
      rfl
    exact
    { h with
      owners := fun d x => by
        rw [← h.owners d x]
        simp only [Sys.owners, tally_append]
        congr 2
        rw [tally_congr (l := s.runningList) (g := s.owned d x) fun q hq => ?_]
        · simp [tally, Sys.owned, entries_emptyTable]
        · simp only [Sys.owned, hold _ _ q hq]
      nodup := hpids.nodup
      fresh := hpids.fresh
      wf := fun q hq path => by
        rcases hcases q hq with hq | rfl
        · simp only [hold _ _ q hq]
          exact h.wf q hq path
        · simp only [hself, hlookup]
          exact .zero
      aligned := fun q hq => by
        rcases hcases q hq with hq | rfl
        · simp only [hold _ _ q hq]
          exact h.aligned q hq
        · simp only [hself, Nat.zero_mod]
      above := fun q hq g hg hle => by
        rcases hcases q hq with hq | rfl
        · simp only [hold _ _ q hq] at hle
          simp only [Sys.pte, hold _ _ q hq]
          exact h.above q hq g hg hle
        · simp only [Sys.pte, hself, hlookup]
      fifo := fun q hq g hg => by
        rcases hcases q hq with hq | rfl
        · simp only [hold _ _ q hq] at hg
          exact h.fifo q hq g hg
        · simp only [hself] at hg
          cases hg
      past := fun e he => Nat.lt_succ_of_lt (h.past e he)
      content := fun q hq g hg off hoff e he => by
        rcases hcases q hq with hq | rfl
        · simp only [Sys.pte, hold _ _ q hq]
          exact h.content q hq g hg off hoff e he
        · have hpid := List.find?_some he
          simp only [Bool.and_eq_true, beq_iff_eq] at hpid
          exact absurd hpid.1 (Nat.ne_of_lt (h.past e (List.mem_of_find?_eq_some he))) }
  · cases hload

end Inv

/-! ### Steps and runs -/

/-- An instruction other than the two system calls that write page tables
and copy frames past the memory manager, `SYSMEM_MAP_OP` and
`SYSMEM_SWP_OP`. -/
def Inst.Tame (ins : Inst) : Prop :=
  ins.opcode = .syscall → toUint32 ins.arg0.toNat = 17 →
    MemOp.ofInt (toInt ins.arg1.toNat) ≠ some .map ∧
    MemOp.ofInt (toInt ins.arg1.toNat) ≠ some .swp

instance (ins : Inst) : Decidable ins.Tame := inferInstanceAs (Decidable (_ → _ → _))

def Op.Tame : Op → Prop
  | .inst _ ins _ => ins.Tame
  | _ => True

instance : (op : Op) → Decidable op.Tame
  | .inst _ ins _ => inferInstanceAs (Decidable ins.Tame)
  | .load => inferInstanceAs (Decidable True)
  | .exit _ => inferInstanceAs (Decidable True)

/-- The step is no system call at all. -/
def Op.NoSyscall : Op → Prop
  | .inst _ ins _ => ins.opcode ≠ .syscall
  | _ => True

instance : (op : Op) → Decidable op.NoSyscall
  | .inst _ ins _ => inferInstanceAs (Decidable (ins.opcode ≠ .syscall))
  | .load => inferInstanceAs (Decidable True)
  | .exit _ => inferInstanceAs (Decidable True)

theorem Op.NoSyscall.tame {op : Op} (h : op.NoSyscall) : op.Tame := by
  cases op with
  | inst p ins junk => exact fun hop => absurd hop h
  | load => trivial
  | exit p => trivial

/-- All breaks are in the lower half. -/
def Sys.LowBreaks (s : Sys) : Prop := ∀ p ∈ s.runningList, (s.mmap p).sbrk ≤ 2 ^ 56

instance (s : Sys) : Decidable s.LowBreaks := inferInstanceAs (Decidable (∀ p ∈ _, _))

namespace Inv

variable {ok : Prop} {ram swp : List Nat} {s t : Sys} {p : Pid}

theorem sysMemmap {a1 a2 a3 a3' : Nat} {junk : VmRg} {ret : Int} (h : Inv ok ram swp s)
    (hr : Mem.sysMemmap s p a1 a2 a3 junk = some (ret, a3', t))
    (hmap : MemOp.ofInt (toInt a1) ≠ some .map) (hswp : MemOp.ofInt (toInt a1) ≠ some .swp)
    (hlow : (t.mmap p).sbrk ≤ 2 ^ 56) : Inv ok ram swp t := by
  rw [Mem.sysMemmap] at hr
  split at hr
  · cases hr
    exact h
  · rename_i hp
    have hp : p ∈ s.runningList := not_not.mp hp
    split at hr
    · contradiction
    · split at hr
      · cases hr
      · rename_i hgrow
        cases hr
        exact h.incVmaLimit hp hgrow hlow
    · contradiction
    · cases hr
    · cases hr
    · cases hr
      exact h

theorem libsyscall {idx a1 a2 a3 : Nat} {junk : VmRg} {ret : Int} (h : Inv ok ram swp s)
    (hr : Mem.libsyscall s p idx a1 a2 a3 junk = some (ret, t))
    (htame : idx = 17 → MemOp.ofInt (toInt a1) ≠ some .map ∧ MemOp.ofInt (toInt a1) ≠ some .swp)
    (hlow : (t.mmap p).sbrk ≤ 2 ^ 56) : Inv ok ram swp t := by
  rw [Mem.libsyscall] at hr
  split at hr
  · rename_i hidx
    obtain ⟨hmap, hswp⟩ := htame hidx
    split at hr
    · cases hr
    · rename_i hu
      split at hr
      · split at hr
        · cases hr
          exact h.sysMemmap hu hmap hswp hlow
        · cases hr
          exact (h.sysMemmap hu hmap hswp hlow).setReg p _ _
      · cases hr
        exact h.sysMemmap hu hmap hswp hlow
  · split at hr
    all_goals
      cases hr
      exact h

/-- Every instruction keeps the invariant. -/
theorem run {ins : Inst} {junk : VmRg} {ret : Int} (h : Inv ok ram swp s)
    (hp : p ∈ s.runningList) (htame : ins.Tame) (hr : Mem.run s p ins junk = some (ret, t))
    (hlow : (t.mmap p).sbrk ≤ 2 ^ 56) : Inv ok ram swp t := by
  rw [Mem.run] at hr
  split at hr
  · cases hr
    exact h
  · exact h.alloc hr hlow
  · exact h.libkmemMalloc hr
  · rw [← snd_eq_of_some hr]
    exact h.libkmemCachePoolCreate p _ _ _
  · exact h.libkmemCacheAlloc hr
  · rw [← snd_eq_of_some hr, libkmemCopyFromUser]
    split
    · exact h
    · exact h.copyFromUser hp
  · rw [← snd_eq_of_some hr, libkmemCopyToUser]
    split
    · exact h
    · exact h.copyToUser hp
  · rw [← snd_eq_of_some hr]
    exact h.free p _
  · exact h.libread hp hr
  · rw [← snd_eq_of_some hr]
    exact h.libwrite hp
  · rename_i hop
    exact h.libsyscall hr (htame hop) hlow

end Inv

/-- One step of a run that stays in the lower half. -/
def LowStep (s : Sys) (op : Op) (t : Sys) : Prop :=
  step s op = some t ∧ op.Tame ∧ t.LowBreaks

/-- The same, as a function. -/
def lowExec : Sys → List Op → Option Sys :=
  exec (guarded step fun _ op t => decide (op.Tame ∧ t.LowBreaks))

theorem run_of_lowExec {s t : Sys} {ops : List Op} (h : lowExec s ops = some t) :
    Run LowStep s ops t :=
  run_of_exec_guarded (fun _ _ _ hstep hok => ⟨hstep, of_decide_eq_true hok⟩) h

theorem pair_of_fst {α β : Type} {r : α × β} {a : α} (h : r.1 = a) : r = (a, r.2) := by
  rw [← h]

theorem Inv.lowStep {ok : Prop} {ram swp : List Nat} {s t : Sys} {op : Op}
    (h : Inv ok ram swp s) (hstep : LowStep s op t) : Inv ok ram swp t := by
  obtain ⟨hstep, htame, hlow⟩ := hstep
  obtain ⟨-, hload⟩ | ⟨p, -, hp, rfl⟩ | ⟨p, ins, junk, ret, rfl, hp, hrun⟩ := step_cases hstep
  · exact h.loadProc hload
  · exact h.exitProc hp
  · refine h.run hp htame hrun (hlow p ?_)
    rw [(Private.run hrun).runningList]
    exact hp

/-- The invariant holds in every state of a run. -/
theorem inv_of_run {ramSz swpSz : Nat} {host : Nat → Bool} {ops : List Op} {s : Sys}
    (hrun : Run LowStep (boot ramSz swpSz host) ops s) :
    Inv (host = fun _ => true) [] [] s ∧ s.LowBreaks := by
  refine hrun.invariant (I := fun s => Inv (host = fun _ => true) [] [] s ∧ s.LowBreaks)
    (fun s op t hs hstep => ⟨hs.1.lowStep hstep, hstep.2.2⟩) ⟨.boot ramSz swpSz host, ?_⟩
  intro p hp
  cases hp

/-- The devices keep the size they were made with. -/
theorem maxsz_step {s t : Sys} {op : Op} (hstep : step s op = some t) : t.maxsz = s.maxsz := by
  obtain ⟨-, hload⟩ | ⟨p, -, -, rfl⟩ | ⟨p, ins, junk, ret, -, -, hrun⟩ := step_cases hstep
  · simp only [loadProc] at hload
    split at hload
    · cases hload
      rfl
    · cases hload
  · exact (exitProc_private s p).maxsz
  · exact (Private.run hrun).maxsz

theorem maxsz_of_run {s t : Sys} {ops : List Op} (hrun : Run LowStep s ops t) :
    t.maxsz = s.maxsz :=
  hrun.invariant (I := fun u => u.maxsz = s.maxsz)
    (fun _ _ _ hu hstep => (maxsz_step hstep.1).trans hu) rfl

end Ossim.Mem
