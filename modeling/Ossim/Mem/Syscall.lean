import Ossim.Mem.Lifecycle

/-!
The break and system-call I/O.

Only a growth request moves the break. All requests go through
`__sys_memmap`, which cuts the increment to 32 bits. `SYSMEM_IO_READ` and
`SYSMEM_IO_WRITE` never get as far as a page: the simulator crashes on the
way to the `mm` of the caller. So they show nothing of the kernel and change
nothing in it.
-/

namespace Ossim.Mem

open Ossim.Lib

/-! ### Growth requests -/

/-- The increment an instruction asks `inc_vma_limit` for. -/
def growthRequest (s : Sys) (p : Pid) (ins : Inst) : Option Nat :=
  match ins.opcode with
  | .alloc =>
    if maxSymtblSz ≤ toUint32 ins.arg1.toNat ∨ ins.arg0.toNat = 0 ∨
        (getFreeVmrgArea s p (toInt ins.arg0.toNat)).1.isSome then none
    else some (allocInc ins.arg0.toNat)
  | .syscall =>
    if toUint32 ins.arg0.toNat = 17 ∧ MemOp.ofInt (toInt ins.arg1.toNat) = some .inc then
      some (toUint32 ins.arg3.toNat)
    else none
  | _ => none

/-- A growth request asks for a break in the lower half. -/
def Op.LowGrowth (s : Sys) : Op → Prop
  | .inst p ins _ => ∀ inc ∈ growthRequest s p ins, newBreak s p inc ≤ 2 ^ 56
  | _ => True

instance (s : Sys) : (op : Op) → Decidable (op.LowGrowth s)
  | .inst p ins _ => inferInstanceAs (Decidable (∀ inc ∈ growthRequest s p ins, _))
  | .load => inferInstanceAs (Decidable True)
  | .exit _ => inferInstanceAs (Decidable True)

theorem sbrk_incVmaLimit {s t : Sys} {p : Pid} {vmaid : Int} {inc : Nat} {junk : VmRg} {ret : Int}
    (h : incVmaLimit s p vmaid inc junk = some (ret, t)) :
    (t.mmap p).sbrk = (s.mmap p).sbrk ∨ (t.mmap p).sbrk = newBreak s p inc := by
  obtain ⟨-, rfl⟩ | ⟨-, -, rfl⟩ := incVmaLimit_cases h
  · exact .inl rfl
  · exact .inr (sbrk_grown s p inc junk)

theorem sbrk_alloc {s t : Sys} {p : Pid} {rgid size : Nat} {junk : VmRg} {ret : Int}
    (h : alloc s p rgid size junk = some (ret, t)) :
    (t.mmap p).sbrk = (s.mmap p).sbrk ∨
      ¬(maxSymtblSz ≤ rgid ∨ size = 0 ∨ (getFreeVmrgArea s p (toInt size)).1.isSome) ∧
        (t.mmap p).sbrk = newBreak s p (allocInc size) := by
  rw [alloc] at h
  split at h
  · cases h
    exact .inl rfl
  · rename_i hargs
    have hget := sbrk_getFreeVmrgArea s p (toInt size) p
    split at h
    · rename_i rg s₁ hs₁
      rw [hs₁] at hget
      cases h
      exact .inl hget
    · rename_i s₁ hs₁
      rw [hs₁] at hget
      split at h
      · cases h
        exact .inl hget
      · split at h
        · cases h
        · rename_i sret s₂ hs₂
          have hgrow := sbrk_incVmaLimit hs₂
          have hnew : newBreak s₁ p (allocInc size) = newBreak s p (allocInc size) := by
            rw [newBreak, newBreak, hget]
          rw [hget, hnew] at hgrow
          have hslow : ¬(maxSymtblSz ≤ rgid ∨ size = 0 ∨
              (getFreeVmrgArea s p (toInt size)).1.isSome) := by
            rw [hs₁]
            simpa [not_or] using hargs
          have hres : (s₂.mmap p).sbrk = (t.mmap p).sbrk := by
            split at h
            · cases h
              rfl
            · have hagain := sbrk_getFreeVmrgArea s₂ p (toInt size) p
              split at h
              all_goals
                rename_i hs₃
                rw [hs₃] at hagain
                cases h
                exact hagain.symm
          rw [hres] at hgrow
          exact hgrow.imp_right fun heq => ⟨hslow, heq⟩

theorem mmap_returnAddr {s t : Sys} {p : Pid} {reg : Nat} {r : Option Nat × Sys} {ret : Int}
    (hr : returnAddr p reg r = some (ret, t)) (h : r.2.mmap = s.mmap) : t.mmap = s.mmap := by
  obtain ⟨_ | addr, u⟩ := r
  · cases hr
    exact h
  · rw [returnAddr] at hr
    split at hr
    · cases hr
    · cases hr
      exact h

theorem KernelChange.mmap {s t : Sys} (h : KernelChange s t) : t.mmap = s.mmap := by
  obtain ⟨_, _, _, _, rfl⟩ := h
  rfl

theorem mmap_libkmemMalloc {s t : Sys} {p : Pid} {size reg : Nat} {ret : Int}
    (h : libkmemMalloc s p size reg = some (ret, t)) : t.mmap = s.mmap := by
  have hmalloc : (kmalloc s p reg size).2.mmap = s.mmap := by
    have halloc := (kernelChange_alloc s p size).mmap
    rw [kmalloc]
    split
    · rfl
    · split
      all_goals
        rename_i hu
        rw [hu] at halloc
        exact halloc
  rw [libkmemMalloc] at h
  split at h
  · cases h
    rfl
  · exact mmap_returnAddr h hmalloc

theorem mmap_libkmemCacheAlloc {s t : Sys} {p : Pid} {reg id : Nat} {ret : Int}
    (h : libkmemCacheAlloc s p reg id = some (ret, t)) : t.mmap = s.mmap := by
  have hcache : (kmemCacheAlloc s p reg id).2.mmap = s.mmap := by
    rw [kmemCacheAlloc]
    split
    · rfl
    · split
      · rfl
      · dsimp only
        split
        · rfl
        · split <;> rfl
  rw [libkmemCacheAlloc] at h
  split at h
  · cases h
    rfl
  · exact mmap_returnAddr h hcache

theorem mmap_libkmemCachePoolCreate (s : Sys) (p : Pid) (size align id : Nat) :
    (libkmemCachePoolCreate s p size align id).2.mmap = s.mmap := by
  have hgrow : (growPools s p id).2.mmap = s.mmap := by
    rw [growPools]
    split
    · rfl
    · split <;> rfl
  rw [libkmemCachePoolCreate]
  split
  · rfl
  · dsimp only
    split
    · rfl
    · generalize growPools s p id = r at hgrow
      obtain ⟨_ | _, s₁⟩ := r
      · exact hgrow
      · have halloc := (kernelChange_alloc s₁ p size).mmap.trans hgrow
        dsimp only
        split
        · exact hgrow
        · split
          · exact hgrow
          · split
            · rename_i hu
              rw [hu] at halloc
              exact halloc
            · rename_i base sz s₂ hu
              rw [hu] at halloc
              split
              · rename_i host hd
                exact (kernelChange_release { s₂ with host := host } base _).mmap.trans halloc
              · exact halloc

theorem sbrk_free (s : Sys) (p : Pid) (rgid : Nat) :
    ((free s p rgid).2.mmap p).sbrk = (s.mmap p).sbrk := by
  rw [free]
  split
  · rfl
  · dsimp only
    split
    · rfl
    · split
      · rfl
      · dsimp only
        rw [Sys.mmap_setMmap]
        rfl

theorem sbrk_libsyscall {s t : Sys} {p : Pid} {idx a1 a2 a3 : Nat} {junk : VmRg} {ret : Int}
    (h : libsyscall s p idx a1 a2 a3 junk = some (ret, t)) :
    (t.mmap p).sbrk = (s.mmap p).sbrk ∨
      (idx = 17 ∧ MemOp.ofInt (toInt a1) = some .inc) ∧
        (t.mmap p).sbrk = newBreak s p (toUint32 a3) := by
  have hmemmap {ret' : Int} {a3' : Nat} {u : Sys}
      (hu : sysMemmap s p a1 a2 a3 junk = some (ret', a3', u)) :
      (u.mmap p).sbrk = (s.mmap p).sbrk ∨
        MemOp.ofInt (toInt a1) = some .inc ∧
          (u.mmap p).sbrk = newBreak s p (toUint32 a3) := by
    rcases Decidable.em (MemOp.ofInt (toInt a1) = some .inc) with hinc | hinc
    · rw [sysMemmap, hinc] at hu
      split at hu
      · cases hu
        exact .inl rfl
      · dsimp only at hu
        split at hu
        · cases hu
        · rename_i hgrow
          cases hu
          exact (sbrk_incVmaLimit hgrow).imp_right fun heq => ⟨hinc, heq⟩
    · exact .inl (by rw [(Accesses.sysMemmap hu hinc).mmap])
  rw [libsyscall] at h
  split at h
  · rename_i hidx
    split at h
    · cases h
    · rename_i ret' a3' u hu
      have hsbrk := (hmemmap hu).imp_right fun h => (⟨⟨hidx, h.1⟩, h.2⟩ : (_ ∧ _) ∧ _)
      split at h
      · split at h
        all_goals
          cases h
          exact hsbrk
      · cases h
        exact hsbrk
  · split at h
    all_goals
      cases h
      exact .inl rfl

/-- Only a growth request moves the break, and to where it asks. -/
theorem sbrk_run {s t : Sys} {p : Pid} {ins : Inst} {junk : VmRg} {ret : Int}
    (h : run s p ins junk = some (ret, t)) :
    (t.mmap p).sbrk = (s.mmap p).sbrk ∨
      ∃ inc, growthRequest s p ins = some inc ∧ (t.mmap p).sbrk = newBreak s p inc := by
  rw [run] at h
  split at h
  · cases h
    exact .inl rfl
  · rename_i hop
    refine (sbrk_alloc h).imp_right fun hnew => ⟨_, ?_, hnew.2⟩
    rw [growthRequest, hop]
    exact if_neg hnew.1
  · exact .inl (by rw [mmap_libkmemMalloc h])
  · rw [← snd_eq_of_some h]
    exact .inl (by rw [mmap_libkmemCachePoolCreate])
  · exact .inl (by rw [mmap_libkmemCacheAlloc h])
  · rw [← snd_eq_of_some h, libkmemCopyFromUser]
    split
    · exact .inl rfl
    · exact .inl (by rw [(Accesses.copyFromUser ..).mmap])
  · rw [← snd_eq_of_some h, libkmemCopyToUser]
    split
    · exact .inl rfl
    · exact .inl (by rw [(Accesses.copyToUser ..).mmap])
  · rw [← snd_eq_of_some h]
    exact .inl (sbrk_free ..)
  · exact .inl (by rw [(Accesses.libread h).mmap])
  · rw [← snd_eq_of_some h]
    exact .inl (by rw [(Accesses.libwrite ..).mmap])
  · rename_i hop
    refine (sbrk_libsyscall h).imp_right fun hnew => ⟨_, ?_, hnew.2⟩
    rw [growthRequest, hop]
    exact if_pos hnew.1

/-- One step of a run whose growth requests stay in the lower half. -/
def GrowthStep (s : Sys) (op : Op) (t : Sys) : Prop :=
  step s op = some t ∧ op.Tame ∧ op.LowGrowth s

theorem lowBreaks_step {s t : Sys} {op : Op} (hs : s.LowBreaks) (hnodup : s.runningList.Nodup)
    (hstep : step s op = some t) (hlow : op.LowGrowth s) : t.LowBreaks := by
  intro q hq
  obtain ⟨-, hload⟩ | ⟨p, -, -, rfl⟩ | ⟨p, ins, junk, ret, rfl, -, hrun⟩ := step_cases hstep
  · simp only [loadProc] at hload
    split at hload
    · cases hload
      rcases eq_or_ne q s.availPid with rfl | hne
      · simp only [Function.update_self]
        omega
      · simp only [Function.update_of_ne hne]
        exact hs q (by simpa [hne] using hq)
    · cases hload
  · have hpriv := exitProc_private s p
    rw [hpriv.runningList] at hq
    obtain ⟨hne, hq'⟩ := hnodup.mem_erase_iff.mp hq
    rw [hpriv.mmap q hne]
    exact hs q hq'
  · have hpriv := Private.run hrun
    have hq' : q ∈ s.runningList := by
      rw [← hpriv.runningList]
      exact hq
    rcases eq_or_ne q p with rfl | hne
    · obtain heq | ⟨inc, hreq, heq⟩ := sbrk_run hrun
      · rw [heq]
        exact hs q hq'
      · rw [heq]
        exact hlow inc hreq
    · rw [hpriv.mmap q hne]
      exact hs q hq'

theorem Inv.growthStep {ok : Prop} {s t : Sys} {op : Op} (h : Inv ok [] [] s ∧ s.LowBreaks)
    (hstep : GrowthStep s op t) : Inv ok [] [] t ∧ t.LowBreaks := by
  obtain ⟨hstep, htame, hlow⟩ := hstep
  have ht := lowBreaks_step h.2 h.1.nodup hstep hlow
  exact ⟨h.1.lowStep ⟨hstep, htame, ht⟩, ht⟩

/-! ### I/O -/

/-- A frame is mapped through the kernel page table. -/
def Sys.KernelMapped (s : Sys) (f : Nat) : Prop :=
  ∃ addr < 2 ^ 64, pagePresent (kernelPte s addr) = true ∧ pteFpn (kernelPte s addr) = f

/-- An I/O call comes back only for a process that does not exist. -/
theorem sysMemmap_io {s t : Sys} {p : Pid} {a1 a2 a3 v : Nat} {junk : VmRg} {ret : Int}
    (hop : MemOp.ofInt (toInt a1) = some .ioRead ∨ MemOp.ofInt (toInt a1) = some .ioWrite)
    (h : sysMemmap s p a1 a2 a3 junk = some (ret, v, t)) :
    p ∉ s.runningList ∧ ret = -1 ∧ t = s := by
  rw [sysMemmap] at h
  split at h
  · rename_i hp
    cases h
    exact ⟨hp, rfl, rfl⟩
  · obtain hop | hop := hop
    · rw [hop] at h
      cases h
    · rw [hop] at h
      cases h

end Ossim.Mem
