import Ossim.Mem.Mapping

/-!
Growth of the heap: `inc_vma_limit`, `__alloc` and `__free`.

`inc_vma_limit` moves the break first, asks `vm_map_ram` for the pages, and
means to move the break back if that fails. The test is `vm_map_ram(...) < 0`
on an unsigned result, so the branch is never taken: a growth whose frames
could not be had keeps its break and reports success.
-/

namespace Ossim.Mem

open Ossim.Lib

/-! ### One growth request -/

/-- The new break a request asks for. -/
def newBreak (s : Sys) (p : Pid) (incSz : Nat) : Nat :=
  ((s.mmap p).sbrk + pageAlignSz incSz) % 2 ^ 64

/-- The number of pages a request maps. -/
def incNumPage (incSz : Nat) : Int := toInt (pageAlignSz incSz / pageSz)

/-- The state in which a request calls `vm_map_ram`. -/
def breakMoved (s : Sys) (p : Pid) (incSz : Nat) : Sys :=
  { s with host := (draw s.host).2 }.setMmap p
    { s.mmap p with vmEnd := newBreak s p incSz, sbrk := newBreak s p incSz }

/-- `alloc_pages_range` does not supply the pages of a request, or
`vmap_page_range` refuses to map them. -/
def GrowthFails (s : Sys) (p : Pid) (incSz : Nat) (junk : VmRg) : Prop :=
  let r := allocPagesRange (breakMoved s p incSz) p (incNumPage incSz)
  r.1 ≠ 0 ∨
    (vmapPageRange r.2.2 p (s.mmap p).sbrk (incNumPage incSz) r.2.1 junk).1 = errFail

instance (s : Sys) (p : Pid) (incSz : Nat) (junk : VmRg) : Decidable (GrowthFails s p incSz junk) :=
  inferInstanceAs (Decidable (_ ∨ _))

/-- A request is refused before anything changes. -/
def Refused (s : Sys) (p : Pid) (incSz : Nat) : Prop :=
  s.host 0 = false ∨ newBreak s p incSz ≤ (s.mmap p).sbrk

instance (s : Sys) (p : Pid) (incSz : Nat) : Decidable (Refused s p incSz) :=
  inferInstanceAs (Decidable (_ ∨ _))

theorem incVmaLimit_of_refused {s : Sys} {p : Pid} {vmaid : Int} {incSz : Nat} (junk : VmRg)
    (hvma : vmaFound vmaid = true) (h : Refused s p incSz) :
    incVmaLimit s p vmaid incSz junk = some (-1, { s with host := (draw s.host).2 }) := by
  rw [incVmaLimit]
  cases hhost : s.host 0 with
  | false => simp [draw, hhost]
  | true =>
      have hle : newBreak s p incSz ≤ (s.mmap p).sbrk := by simpa [Refused, hhost] using h
      have hval : validateOverlapVmArea (s.mmap p).sbrk (newBreak s p incSz) = -1 := if_pos hle
      rw [newBreak] at hval
      simp only [draw, hhost, hvma, hval]
      rfl

/-- The state after a request that was not refused. -/
def grown (s : Sys) (p : Pid) (incSz : Nat) (junk : VmRg) : Sys :=
  let r := vmMapRam (breakMoved s p incSz) p (s.mmap p).sbrk (incNumPage incSz) junk
  r.2.2.setMmap p { r.2.2.mmap p with
    vmFreergList := enlistVmRgNode (r.2.2.mmap p).vmFreergList r.2.1 }

/-- A request that is not refused returns 0, whatever `vm_map_ram` did. -/
theorem incVmaLimit_of_not_refused {s : Sys} {p : Pid} {vmaid : Int} {incSz : Nat} (junk : VmRg)
    (hvma : vmaFound vmaid = true) (h : ¬Refused s p incSz) :
    incVmaLimit s p vmaid incSz junk =
      some (0, grown s p incSz junk) := by
  have hhost : s.host 0 = true := by
    by_contra hfalse
    exact h (.inl (by simpa using hfalse))
  have hlt : ¬newBreak s p incSz ≤ (s.mmap p).sbrk := fun hle => h (.inr hle)
  have hval : validateOverlapVmArea (s.mmap p).sbrk (newBreak s p incSz) = 0 := if_neg hlt
  rw [newBreak] at hval
  rw [incVmaLimit]
  simp only [draw, hhost, hvma, hval]
  rfl

/-- What a request comes to. -/
theorem incVmaLimit_cases {s t : Sys} {p : Pid} {vmaid : Int} {incSz : Nat} {junk : VmRg}
    {ret : Int}
    (h : incVmaLimit s p vmaid incSz junk = some (ret, t)) :
    ret = -1 ∧ t = { s with host := (draw s.host).2 } ∨
      ¬Refused s p incSz ∧ ret = 0 ∧ t = grown s p incSz junk := by
  rcases Decidable.em (vmaFound vmaid = true) with hvma | hvma
  · rcases Decidable.em (Refused s p incSz) with href | href
    · rw [incVmaLimit_of_refused junk hvma href] at h
      cases h
      exact .inl ⟨rfl, rfl⟩
    · rw [incVmaLimit_of_not_refused junk hvma href] at h
      cases h
      exact .inr ⟨href, rfl, rfl⟩
  · rw [incVmaLimit] at h
    split at h
    · rename_i host hd
      cases h
      exact .inl ⟨rfl, by rw [hd]⟩
    · simp only [hvma, Bool.not_false, if_true] at h
      cases h

/-! ### A growth that gets no frames -/

/-- The `ALLOC` of `size` bytes into region `rgid` found no free region in
state `s₀`, and its growth request starts in state `s`. -/
def Triggers (s₀ : Sys) (p : Pid) (rgid size : Nat) (s : Sys) : Prop :=
  rgid < maxSymtblSz ∧ size ≠ 0 ∧ getFreeVmrgArea s₀ p (toInt size) = (none, s) ∧
    p ∈ s.runningList

/-- The request fails and leaves the area as it was, and so does every
`ALLOC` that makes the request. -/
def FailsAtomically (s : Sys) (p : Pid) (incSz : Nat) (junk : VmRg) : Prop :=
  (∃ t, incVmaLimit s p 0 incSz junk = some (-1, t) ∧
    (t.mmap p).vmEnd = (s.mmap p).vmEnd ∧ (t.mmap p).sbrk = (s.mmap p).sbrk ∧
    (t.mmap p).vmFreergList = (s.mmap p).vmFreergList) ∧
  ∀ s₀ rgid size, Triggers s₀ p rgid size s → incSz = allocInc size →
    ∃ t, alloc s₀ p rgid size junk = some (-1, t) ∧ t.symrgtbl = s₀.symrgtbl

theorem symrgtbl_getFreeVmrgArea (s : Sys) (p : Pid) (size : Int) :
    (getFreeVmrgArea s p size).2.symrgtbl = s.symrgtbl := by
  rw [getFreeVmrgArea]
  split
  · rfl
  · dsimp only
    split <;> rfl

/-- An `ALLOC` whose request is refused. -/
theorem alloc_of_refused {s₀ s : Sys} {p : Pid} {rgid size : Nat} (junk : VmRg)
    (htrig : Triggers s₀ p rgid size s) (h : Refused s p (allocInc size)) :
    alloc s₀ p rgid size junk = some (-1, { s with host := (draw s.host).2 }) := by
  obtain ⟨hrgid, hsize, hget, hp⟩ := htrig
  have hgrow := incVmaLimit_of_refused junk (show vmaFound 0 = true from rfl) h
  rw [alloc, if_neg (by omega), hget]
  dsimp only
  rw [if_neg (not_not_intro hp), hgrow]
  rfl

/-- A request that is not refused never fails. -/
theorem not_failsAtomically {s : Sys} {p : Pid} {incSz : Nat} {junk : VmRg}
    (h : ¬Refused s p incSz) : ¬FailsAtomically s p incSz junk := by
  rintro ⟨⟨t, hret, -⟩, -⟩
  rw [incVmaLimit_of_not_refused junk rfl h] at hret
  simp only [Option.some.injEq, Prod.mk.injEq] at hret
  exact absurd hret.1 (by decide)

/-- A request fails atomically, and every `ALLOC` that makes it, only where it
is refused from the start: after the break has moved the request reports
success, whether or not it got its frames and could map them. -/
theorem failed_growth_atomic_iff (s : Sys) (p : Pid) (incSz : Nat) (junk : VmRg) :
    FailsAtomically s p incSz junk ↔ Refused s p incSz := by
  constructor
  · intro hatomic
    by_contra hnot
    exact not_failsAtomically hnot hatomic
  · intro href
    refine ⟨⟨_, incVmaLimit_of_refused junk rfl href, rfl, rfl, rfl⟩, ?_⟩
    rintro s₀ rgid size htrig rfl
    refine ⟨_, alloc_of_refused junk htrig href, ?_⟩
    have hsym := symrgtbl_getFreeVmrgArea s₀ p (toInt size)
    rw [htrig.2.2.1] at hsym
    exact hsym

/-- One frame of RAM, no swap, one process. -/
def oneFrame : Option Sys := exec step (boot 4096 0 fun _ => true) [.load]

/-- There is one frame for two pages, and the request returns 0 with the
break at 8192. -/
theorem oneFrame_not_failsAtomically : ∃ s ∈ oneFrame,
    GrowthFails s 1 8192 ⟨0, 0⟩ ∧ ¬FailsAtomically s 1 8192 ⟨0, 0⟩ ∧ (s.mmap 1).sbrk = 0 ∧
      (incVmaLimit s 1 0 8192 ⟨0, 0⟩).map (fun r => (r.1, (r.2.mmap 1).sbrk)) = some (0, 8192) := by
  refine ⟨_, Option.get_mem rfl, .inl (by decide +kernel), not_failsAtomically ?_, ?_, ?_⟩
  all_goals decide +kernel

/-! ### The invariant -/

theorem pageAlignSz_mod (sz : Nat) : pageAlignSz sz % pageSz = 0 := Nat.mul_mod_left _ _

theorem sbrk_breakMoved (s : Sys) (p : Pid) (incSz : Nat) :
    ((breakMoved s p incSz).mmap p).sbrk = newBreak s p incSz := by
  rw [breakMoved, Sys.mmap_setMmap]

theorem sbrk_grown (s : Sys) (p : Pid) (incSz : Nat) (junk : VmRg) :
    ((grown s p incSz junk).mmap p).sbrk = newBreak s p incSz := by
  have hmeta := meta_vmMapRam (breakMoved s p incSz) p (s.mmap p).sbrk (incNumPage incSz) junk
  rw [grown, Sys.mmap_setMmap, show (vmMapRam _ p _ _ junk).2.2.mmap = _ from
    congrArg Sys.Meta.mmap hmeta]
  exact sbrk_breakMoved s p incSz

theorem sbrk_getFreeVmrgArea (s : Sys) (p : Pid) (size : Int) (q : Pid) :
    ((getFreeVmrgArea s p size).2.mmap q).sbrk = (s.mmap q).sbrk := by
  have hset (l : List VmRg) :
      ((s.setMmap p { s.mmap p with vmFreergList := l }).mmap q).sbrk = (s.mmap q).sbrk := by
    rcases eq_or_ne q p with rfl | hne
    · rw [Sys.mmap_setMmap]
    · rw [Sys.mmap_setMmap_of_ne s hne]
  rw [getFreeVmrgArea]
  split
  · rfl
  · dsimp only
    split <;> exact hset _

namespace Inv

variable {ok : Prop} {ram swp : List Nat} {s t : Sys} {p : Pid}

/-- A change of the free list leaves the break where it is. -/
theorem setFreerg (h : Inv ok ram swp s) (p : Pid) (l : List VmRg) :
    Inv ok ram swp (s.setMmap p { s.mmap p with vmFreergList := l }) := by
  refine h.setMeta fun q hq => ?_
  rcases eq_or_ne q p with rfl | hne
  · rw [Function.update_self]
    exact ⟨Nat.le_refl _, h.aligned q hq⟩
  · rw [Function.update_of_ne hne]
    exact ⟨Nat.le_refl _, h.aligned q hq⟩

theorem setSymrg (h : Inv ok ram swp s) (p : Pid) (rgid : Nat) (rg : VmRg) :
    Inv ok ram swp (s.setSymrg p rgid rg) :=
  h.setMeta fun q hq => ⟨Nat.le_refl _, h.aligned q hq⟩

theorem setReg (h : Inv ok ram swp s) (p : Pid) (r v : Nat) : Inv ok ram swp (s.setReg p r v) :=
  h.setMeta fun q hq => ⟨Nat.le_refl _, h.aligned q hq⟩

theorem getFreeVmrgArea (h : Inv ok ram swp s) (p : Pid) (size : Int) :
    Inv ok ram swp (Mem.getFreeVmrgArea s p size).2 := by
  rw [Mem.getFreeVmrgArea]
  split
  · exact h
  · dsimp only
    split <;> exact h.setFreerg p _

/-- A growth request finds no entries in the pages it is going to map, and
they lie below the new break. -/
theorem breakMoved_new (h : Inv ok ram swp s) (hp : p ∈ s.runningList) {incSz : Nat}
    (hup : ¬Refused s p incSz) :
    Inv ok ram swp (Mem.breakMoved s p incSz) ∧ (s.mmap p).sbrk % pageSz = 0 ∧
      (s.mmap p).sbrk + (incNumPage incSz).toNat * pageSz ≤
        ((Mem.breakMoved s p incSz).mmap p).sbrk ∧
      ∀ g < userPgns, (s.mmap p).sbrk ≤ g * pageSz → (Mem.breakMoved s p incSz).pte p g = 0 := by
  have hlt : (s.mmap p).sbrk < newBreak s p incSz := Nat.not_le.mp fun hle => hup (.inr hle)
  have halign := h.aligned p hp
  have hinc := pageAlignSz_mod incSz
  have hpages := toInt_toNat_le (pageAlignSz incSz / pageSz)
  have hnew : newBreak s p incSz = (s.mmap p).sbrk + pageAlignSz incSz ∧
      newBreak s p incSz % pageSz = 0 := by
    simp only [newBreak, pageAlignSz, pageSz] at *
    omega
  refine ⟨h.drawHost.setMeta fun q hq => ?_, halign, ?_, fun g hg hle => h.above p hp g hg hle⟩
  · rcases eq_or_ne q p with rfl | hne
    · rw [Function.update_self]
      exact ⟨hlt.le, hnew.2⟩
    · rw [Function.update_of_ne hne]
      exact ⟨Nat.le_refl _, h.aligned q hq⟩
  · rw [sbrk_breakMoved, hnew.1, incNumPage]
    have := Nat.mul_le_mul_right pageSz hpages
    have := Nat.div_mul_le_self (pageAlignSz incSz) pageSz
    omega

/-- The pages of a growth request are new, as long as the break stays in the
lower half. -/
theorem breakMoved (h : Inv ok ram swp s) (hp : p ∈ s.runningList) {incSz : Nat}
    (hup : ¬Refused s p incSz) (hlow : newBreak s p incSz ≤ 2 ^ 56) :
    Inv ok ram swp (Mem.breakMoved s p incSz) ∧
      NewPages (Mem.breakMoved s p incSz) p (s.mmap p).sbrk (incNumPage incSz).toNat := by
  obtain ⟨hinv, halign, hroom, hzero⟩ := h.breakMoved_new hp hup
  refine ⟨hinv, halign, hroom, ?_, hzero⟩
  rw [sbrk_breakMoved]
  exact hlow

theorem incVmaLimit {vmaid : Int} {incSz : Nat} {junk : VmRg} {ret : Int} (h : Inv ok ram swp s)
    (hp : p ∈ s.runningList) (hgrow : Mem.incVmaLimit s p vmaid incSz junk = some (ret, t))
    (hlow : (t.mmap p).sbrk ≤ 2 ^ 56) : Inv ok ram swp t := by
  obtain ⟨-, rfl⟩ | ⟨href, -, rfl⟩ := incVmaLimit_cases hgrow
  · exact h.drawHost
  · rw [sbrk_grown] at hlow
    obtain ⟨hmoved, hpages⟩ := h.breakMoved hp href hlow
    exact (hmoved.vmMapRam hp hpages).setFreerg p _

theorem alloc {rgid size : Nat} {junk : VmRg} {ret : Int} (h : Inv ok ram swp s)
    (halloc : Mem.alloc s p rgid size junk = some (ret, t))
    (hlow : (t.mmap p).sbrk ≤ 2 ^ 56) : Inv ok ram swp t := by
  rw [Mem.alloc] at halloc
  split at halloc
  · cases halloc
    exact h
  · have hget := h.getFreeVmrgArea p (toInt size)
    split at halloc
    · rename_i rg s₁ hs₁
      rw [hs₁] at hget
      cases halloc
      exact hget.setSymrg p rgid rg
    · rename_i s₁ hs₁
      rw [hs₁] at hget
      split at halloc
      · cases halloc
        exact hget
      · rename_i hp₁
        split at halloc
        · cases halloc
        · rename_i sret s₂ hs₂
          have hgrow (hlow₂ : (s₂.mmap p).sbrk ≤ 2 ^ 56) : Inv ok ram swp s₂ :=
            hget.incVmaLimit (not_not.mp hp₁) hs₂ hlow₂
          split at halloc
          · cases halloc
            exact hgrow hlow
          · have hsbrk := sbrk_getFreeVmrgArea s₂ p (toInt size) p
            split at halloc
            · rename_i s₃ hs₃
              rw [hs₃] at hsbrk
              cases halloc
              have hagain := (hgrow (hsbrk ▸ hlow)).getFreeVmrgArea p (toInt size)
              rw [hs₃] at hagain
              exact hagain
            · rename_i rg s₃ hs₃
              rw [hs₃] at hsbrk
              cases halloc
              have hagain := (hgrow (hsbrk ▸ hlow)).getFreeVmrgArea p (toInt size)
              rw [hs₃] at hagain
              exact hagain.setSymrg p rgid rg

theorem free (h : Inv ok ram swp s) (p : Pid) (rgid : Nat) :
    Inv ok ram swp (Mem.free s p rgid).2 := by
  have hdraw := h.drawHost
  rw [Mem.free]
  split
  · exact h
  · dsimp only
    split
    · exact h
    · split
      · rename_i host hd
        rw [hd] at hdraw
        exact hdraw
      · rename_i host hd
        rw [hd] at hdraw
        exact (hdraw.setSymrg p rgid ⟨0, 0⟩).setFreerg p _

end Inv

end Ossim.Mem
