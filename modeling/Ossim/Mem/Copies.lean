import Ossim.Lib.Copy
import Ossim.Mem.ByteAccess

/-!
Copies between user and kernel memory.

Both loops are instances of one loop over places: a byte is read on one
side and written on the other, and the checks of both sides are made again
for every byte. Kernel addresses span less than two gigabytes, so the
offsets of a copy do not wrap around.
-/

namespace Ossim.Mem

open Ossim.Lib

/-! ### The loops -/

/-- Byte `i` of a copy, on the user side. -/
def userPlace (s : Sys) (p : Pid) (rgid offset i : Nat) : Place :=
  .user p ((s.symrgtbl p rgid).addrAt (toUint32 (offset + i)))

/-- Byte `i` of a copy, on the kernel side. -/
def kernelPlace (s : Sys) (p : Pid) (rgid offset i : Nat) : Place :=
  .kernel ((s.symrgtbl p rgid).addrAt (toUint32 (offset + i)))

/-- Byte `i` of a copy between two regions can be copied. -/
def CopyByteOk (p : Pid) (user kernel offset : Nat) (s : Sys) (i : Nat) : Prop :=
  UserByteOk s p user (toUint32 (offset + i)) ∧ KernelByteOk s p kernel (toUint32 (offset + i))

/-- What stays true from round to round of a copy that starts in `s₀`. -/
structure Copying (ok : Prop) (s₀ : Sys) (p : Pid) (s : Sys) : Prop where
  inv : Inv ok [] [] s
  live : p ∈ s.runningList
  symrgtbl : s.symrgtbl = s₀.symrgtbl

/-- `__write_kernel_mem` as an operation that keeps the state on failure -/
def putKernelMem (s : Sys) (p : Pid) (rgid offset : Nat) (v : Byte) : Bool × Sys :=
  match writeKernelMem s p rgid offset v with
  | none => (false, s)
  | some t => (true, t)

theorem copyFromUser_eq (p : Pid) (source destination offset left idx : Nat) (s : Sys) :
    copyFromUser p source destination offset left idx s =
      let r := copyLoop (fun s i => readUserMem s p source (toUint32 (offset + i)))
        (fun s i v => putKernelMem s p destination (toUint32 (offset + i)) v) left idx s
      (bif r.1 then 0 else -1, r.2) := by
  induction left generalizing idx s with
  | zero => rfl
  | succ left ih =>
      rw [copyFromUser, copyLoop]
      generalize readUserMem s p source (toUint32 (offset + idx)) = r
      obtain ⟨_ | v, t⟩ := r
      · rfl
      · dsimp only
        rw [putKernelMem]
        cases writeKernelMem t p destination (toUint32 (offset + idx)) v with
        | none => rfl
        | some u => exact ih (idx + 1) u

theorem copyToUser_eq (p : Pid) (source destination offset left idx : Nat) (s : Sys) :
    copyToUser p source destination offset left idx s =
      let r := copyLoop (fun s i => (readKernelMem s p source (toUint32 (offset + i)), s))
        (fun s i v => writeUserMem s p destination (toUint32 (offset + i)) v) left idx s
      (bif r.1 then 0 else -1, r.2) := by
  induction left generalizing idx s with
  | zero => rfl
  | succ left ih =>
      rw [copyToUser, copyLoop]
      dsimp only
      cases readKernelMem s p source (toUint32 (offset + idx)) with
      | none => rfl
      | some v =>
          dsimp only
          generalize writeUserMem s p destination (toUint32 (offset + idx)) v = r
          obtain ⟨_ | _, u⟩ := r
          · rfl
          · exact ih (idx + 1) u

section Loops

variable {ok : Prop} {s₀ s t : Sys} {p : Pid} {source destination offset : Nat}

theorem Copying.readUserMem (h : Copying ok s₀ p s) (rgid off : Nat) :
    Copying ok s₀ p (Mem.readUserMem s p rgid off).2 := by
  have hmeta := meta_readUserMem s p rgid off
  refine ⟨h.inv.readUserMem h.live, ?_, ?_⟩
  · rw [show (Mem.readUserMem s p rgid off).2.runningList = s.runningList from
      congrArg Sys.Meta.runningList hmeta]
    exact h.live
  · exact (congrArg Sys.Meta.symrgtbl hmeta).trans h.symrgtbl

theorem Copying.writeUserMem (h : Copying ok s₀ p s) (rgid off : Nat) (v : Byte) :
    Copying ok s₀ p (Mem.writeUserMem s p rgid off v).2 := by
  obtain ⟨stores, hmeta⟩ := meta_writeUserMem s p rgid off v
  refine ⟨h.inv.writeUserMem h.live, ?_, ?_⟩
  · rw [show (Mem.writeUserMem s p rgid off v).2.runningList = s.runningList from
      congrArg Sys.Meta.runningList hmeta]
    exact h.live
  · exact (congrArg Sys.Meta.symrgtbl hmeta).trans h.symrgtbl

theorem Copying.writeKernelMem {rgid off : Nat} {v : Byte} (h : Copying ok s₀ p s)
    (hwrite : Mem.writeKernelMem s p rgid off v = some t) : Copying ok s₀ p t := by
  have hinv := h.inv.writeKernelMem hwrite
  obtain ⟨st, rfl⟩ := writeKernelMem_eq hwrite
  exact ⟨hinv, h.live, h.symrgtbl⟩

theorem Copying.copyByteOk_before {user kernel i : Nat} (h : Copying ok s₀ p s)
    (hfault : Faults p s t) (hbyte : CopyByteOk p user kernel offset t i) :
    CopyByteOk p user kernel offset s i :=
  ⟨h.inv.userByteOk_before h.live hfault hbyte.1, (hfault.kernelByteOk _ _).mp hbyte.2⟩

theorem Copying.copyByteOk_after {user kernel i : Nat} (h : Copying ok s₀ p s) (hok : ok)
    (hfault : Faults p s t) (hbyte : CopyByteOk p user kernel offset s i) :
    CopyByteOk p user kernel offset t i :=
  ⟨h.inv.userByteOk_after hok h.live hfault hbyte.1, (hfault.kernelByteOk _ _).mpr hbyte.2⟩

/-- The two steps of one round into the kernel. -/
theorem Copying.roundFromUser {u : Sys} {src dst : Nat} {v : Byte} (h : Copying ok s₀ p s)
    (hread : Mem.readUserMem s p source src = (some v, t))
    (hput : putKernelMem t p destination dst v = (true, u)) :
    Faults p s u ∧ KernelByteOk s p destination dst := by
  have hfault := h.inv.faults_readUserMem h.live hread
  have ht := h.readUserMem source src
  rw [hread] at ht
  rw [putKernelMem] at hput
  split at hput
  · cases hput
  · rename_i w hw
    cases hput
    have hkernel := (ht.inv.writeKernelMem_isSome (v := v)).mp (by rw [hw]; rfl)
    obtain ⟨st, rfl⟩ := writeKernelMem_eq hw
    exact ⟨hfault.setStorage st, (hfault.kernelByteOk _ _).mp hkernel⟩

theorem loopSpec_copyFromUser : LoopSpec
    (fun s i => readUserMem s p source (toUint32 (offset + i)))
    (fun s i v => putKernelMem s p destination (toUint32 (offset + i)) v)
    Sys.byteAt (userPlace s₀ p source offset) (kernelPlace s₀ p destination offset)
    (Copying ok s₀ p) (CopyByteOk p source destination offset) where
  got := fun {s i r t} hs hget => by
    have ht := hs.readUserMem source (toUint32 (offset + i))
    obtain ⟨hview, hread⟩ := hs.inv.readUserMem_byteAt hs.live hget
    rw [hget] at ht
    rw [userPlace, ← hs.symrgtbl]
    exact ⟨ht, hview, hread⟩
  placed := fun {s i v r t} hs hput => by
    rw [putKernelMem] at hput
    split at hput
    · cases hput
      exact ⟨hs, rfl⟩
    · rename_i u hu
      cases hput
      rw [kernelPlace, ← hs.symrgtbl]
      exact ⟨hs.writeKernelMem hu, hs.inv.writeKernelMem_byteAt hu⟩
  round := fun {s i v t u} hs hget hput => by
    obtain ⟨hfault, hkernel⟩ := hs.roundFromUser hget hput
    have huser := (hs.inv.readUserMem_isSome hs.live).mp (by rw [hget]; rfl)
    exact ⟨⟨huser, hkernel⟩, fun j hj => hs.copyByteOk_before hfault hj⟩

theorem loopLasts_copyFromUser (hok : ok) : LoopLasts
    (fun s i => readUserMem s p source (toUint32 (offset + i)))
    (fun s i v => putKernelMem s p destination (toUint32 (offset + i)) v)
    (Copying ok s₀ p) (CopyByteOk p source destination offset) where
  got := fun {s i t} hs hget hbyte => by
    have hsome := (hs.inv.readUserMem_isSome hs.live).mpr hbyte.1
    rw [hget] at hsome
    cases hsome
  placed := fun {s i v t u} hs hget hput hbyte => by
    have ht := hs.readUserMem source (toUint32 (offset + i))
    have hfault := hs.inv.faults_readUserMem hs.live hget
    rw [hget] at ht
    have hsome := (ht.inv.writeKernelMem_isSome (v := v)).mpr
      ((hfault.kernelByteOk _ _).mpr hbyte.2)
    rw [putKernelMem] at hput
    split at hput
    · rename_i hnone
      rw [hnone] at hsome
      cases hsome
    · cases hput
  round := fun {s i v t u} hs hget hput j hj =>
    hs.copyByteOk_after hok (hs.roundFromUser hget hput).1 hj

theorem loopSpec_copyToUser : LoopSpec
    (fun s i => (readKernelMem s p source (toUint32 (offset + i)), s))
    (fun s i v => writeUserMem s p destination (toUint32 (offset + i)) v)
    Sys.byteAt (kernelPlace s₀ p source offset) (userPlace s₀ p destination offset)
    (Copying ok s₀ p) (CopyByteOk p destination source offset) where
  got := fun {s i r t} hs hget => by
    obtain ⟨hread, rfl⟩ := Prod.mk.inj hget
    refine ⟨hs, rfl, fun v hv => ?_⟩
    rw [kernelPlace, ← hs.symrgtbl]
    exact Inv.readKernelMem_byteAt (hread.trans hv)
  placed := fun {s i v r t} hs hput => by
    have ht := hs.writeUserMem destination (toUint32 (offset + i)) v
    rw [hput] at ht
    rw [userPlace, ← hs.symrgtbl]
    exact ⟨ht, hs.inv.writeUserMem_byteAt hs.live hput⟩
  round := fun {s i v t u} hs hget hput => by
    obtain ⟨hread, rfl⟩ := Prod.mk.inj hget
    have hkernel := hs.inv.readKernelMem_isSome.mp (by rw [hread]; rfl)
    have huser := (hs.inv.writeUserMem_eq_true hs.live).mp (by rw [hput])
    have hfault := hs.inv.faults_writeUserMem hs.live hput
    exact ⟨⟨huser, hkernel⟩, fun j hj => hs.copyByteOk_before hfault hj⟩

theorem loopLasts_copyToUser (hok : ok) : LoopLasts
    (fun s i => (readKernelMem s p source (toUint32 (offset + i)), s))
    (fun s i v => writeUserMem s p destination (toUint32 (offset + i)) v)
    (Copying ok s₀ p) (CopyByteOk p destination source offset) where
  got := fun {s i t} hs hget hbyte => by
    have hsome := hs.inv.readKernelMem_isSome.mpr hbyte.2
    rw [(Prod.mk.inj hget).1] at hsome
    cases hsome
  placed := fun {s i v t u} hs hget hput hbyte => by
    obtain ⟨-, rfl⟩ := Prod.mk.inj hget
    have htrue := (hs.inv.writeUserMem_eq_true (v := v) hs.live).mpr hbyte.1
    rw [hput] at htrue
    cases htrue
  round := fun {s i v t u} hs hget hput j hj => by
    obtain ⟨-, rfl⟩ := Prod.mk.inj hget
    exact hs.copyByteOk_after hok (hs.inv.faults_writeUserMem hs.live hput) hj

/-- How a copy ends: `n` bytes are copied, one after the other, each of
which could be copied at the start. -/
structure CopyEnd (ok : Prop) (p : Pid) (s t : Sys) (src dst : Nat → Place) (Ok : Nat → Prop)
    (size : Nat) (ret : Int) (n : Nat) : Prop where
  copying : Copying ok s p t
  le : n ≤ size
  view : t.byteAt = copied src dst n 0 s.byteAt
  each : ∀ i < n, Ok i
  done : ret = 0 → n = size
  /-- with a host that never refuses, the copy stops only where it must -/
  stop : ret ≠ 0 → ok → ¬Ok n

/-- A copy with an identifier outside the table does nothing. -/
theorem CopyEnd.of_args {ret : Int} {size : Nat} {src dst : Nat → Place} {Ok : Nat → Prop}
    (h : Inv ok [] [] s) (hp : p ∈ s.runningList) (hok : ¬Ok 0) (hret : ret ≠ 0) :
    CopyEnd ok p s s src dst Ok size ret 0 where
  copying := ⟨h, hp, rfl⟩
  le := Nat.zero_le size
  view := rfl
  each := fun i hi => absurd hi (Nat.not_lt_zero i)
  done := fun hzero => absurd hzero hret
  stop := fun _ _ => hok

theorem CopyEnd.of_loop {get : Sys → Nat → Option Byte × Sys} {put : Sys → Nat → Byte → Bool × Sys}
    {src dst : Nat → Place} {Ok : Sys → Nat → Prop} {size n : Nat} {done : Bool}
    (hend : LoopEnd get put Sys.byteAt src dst (Copying ok s p) Ok size 0 s t done n)
    (hlasts : ok → LoopLasts get put (Copying ok s p) Ok) :
    CopyEnd ok p s t src dst (Ok s) size (bif done then 0 else -1) n where
  copying := hend.inv
  le := hend.le
  view := hend.view
  each := fun i hi => hend.ok i (Nat.zero_le i) (by omega)
  done := fun hret => by
    cases done with
    | true => exact hend.all rfl
    | false => cases hret
  stop := fun hret hok => by
    cases done with
    | true => exact absurd rfl hret
    | false =>
        have hstop := (hend.stop rfl).2 (hlasts hok)
        rwa [Nat.zero_add] at hstop

theorem KernelByteOk.id {rgid off : Nat} (h : KernelByteOk s p rgid off) : rgid < maxSymtblSz := by
  by_contra hge
  have haccess := h.access
  rw [kernelAccess, if_pos (.inl (Nat.not_lt.mp hge))] at haccess
  cases haccess

theorem Inv.libkmemCopyFromUser_end {size : Nat} {ret : Int} (h : Inv ok [] [] s)
    (hp : p ∈ s.runningList)
    (hcopy : libkmemCopyFromUser s p source destination offset size = (ret, t)) :
    ∃ n, CopyEnd ok p s t (userPlace s p source offset) (kernelPlace s p destination offset)
      (CopyByteOk p source destination offset s) size ret n := by
  rw [libkmemCopyFromUser] at hcopy
  split at hcopy
  · rename_i hargs
    cases hcopy
    refine ⟨0, .of_args h hp (fun hbyte => ?_) (by decide)⟩
    have huser := hbyte.1.id
    have hkernel := hbyte.2.id
    omega
  · rw [copyFromUser_eq] at hcopy
    obtain ⟨rfl, rfl⟩ := Prod.mk.inj hcopy
    obtain ⟨n, hend⟩ := loopSpec_copyFromUser.copyLoop (s := s) ⟨h, hp, rfl⟩ rfl
    exact ⟨n, .of_loop hend loopLasts_copyFromUser⟩

theorem Inv.libkmemCopyToUser_end {size : Nat} {ret : Int} (h : Inv ok [] [] s)
    (hp : p ∈ s.runningList)
    (hcopy : libkmemCopyToUser s p source destination offset size = (ret, t)) :
    ∃ n, CopyEnd ok p s t (kernelPlace s p source offset) (userPlace s p destination offset)
      (CopyByteOk p destination source offset s) size ret n := by
  rw [libkmemCopyToUser] at hcopy
  split at hcopy
  · rename_i hargs
    cases hcopy
    refine ⟨0, .of_args h hp (fun hbyte => ?_) (by decide)⟩
    have huser := hbyte.1.id
    have hkernel := hbyte.2.id
    omega
  · rw [copyToUser_eq] at hcopy
    obtain ⟨rfl, rfl⟩ := Prod.mk.inj hcopy
    obtain ⟨n, hend⟩ := loopSpec_copyToUser.copyLoop (s := s) ⟨h, hp, rfl⟩ rfl
    exact ⟨n, .of_loop hend loopLasts_copyToUser⟩

end Loops

/-! ### Offsets -/

section Offsets

variable {ok : Prop} {s t : Sys} {p : Pid} {user kernel rgid offset n : Nat}

/-- Kernel memory is smaller than the RAM, which is smaller than `2^31`. -/
theorem Inv.kernel_window {a : Nat} (h : Inv ok [] [] s) (ha : a < 2 ^ 64)
    (hmapped : (kernelTranslateVaddr s a).isSome = true) :
    kmemVaddrBase ≤ a ∧ a < kmemVaddrBase + 2 ^ 31 := by
  obtain ⟨phys, hphys⟩ := Option.isSome_iff_exists.mp hmapped
  obtain ⟨hlin, hused⟩ := h.of_translate ha hphys
  obtain ⟨fp, hfp, hfpn⟩ := List.mem_map.mp hused
  have hlt := h.lt_of_used hfp
  have hsmall := (h.usable .mram).numfp_lt
  simp only [pageSz] at hfpn
  omega

/-- A region cannot have kernel bytes at both ends of the 32-bit offsets, so
the offsets of a copy do not wrap around. -/
theorem Inv.offset_lt (h : Inv ok [] [] s) (hoff : offset < 2 ^ 32)
    (hall : ∀ i < n, KernelByteOk s p rgid (toUint32 (offset + i))) {i : Nat} (hi : i < n) :
    offset + i < 2 ^ 32 := by
  by_contra hge
  have hlast := hall (2 ^ 32 - 1 - offset) (by omega)
  have hfirst := hall (2 ^ 32 - offset) (by omega)
  rw [show toUint32 (offset + (2 ^ 32 - 1 - offset)) = 2 ^ 32 - 1 by
    rw [toUint32]; omega] at hlast
  rw [show toUint32 (offset + (2 ^ 32 - offset)) = 0 by rw [toUint32]; omega] at hfirst
  have hhigh := h.kernel_window (VmRg.addrAt_lt _ _) hlast.mapped
  have hlow := h.kernel_window (VmRg.addrAt_lt _ _) hfirst.mapped
  simp only [VmRg.addrAt, kmemVaddrBase] at hhigh hlow
  omega

/-- Different offsets are different addresses. -/
theorem VmRg.addrAt_inj {rg : VmRg} {x y : Nat} (hx : x < 2 ^ 32) (hy : y < 2 ^ 32)
    (h : rg.addrAt x = rg.addrAt y) : x = y := by
  simp only [VmRg.addrAt] at h
  omega

theorem userPlace_ne_kernelPlace (s : Sys) (p : Pid) (user kernel offset i j : Nat) :
    userPlace s p user offset i ≠ kernelPlace s p kernel offset j := nofun

theorem userPlace_ne {i j : Nat} (hlt : i < j) (hoff : offset + j < 2 ^ 32) :
    userPlace s p rgid offset i ≠ userPlace s p rgid offset j := by
  intro heq
  have haddr := (Place.user.inj heq).2
  rw [toUint32_of_lt hoff, toUint32_of_lt (by omega)] at haddr
  have hsame := VmRg.addrAt_inj (by omega) hoff haddr
  omega

theorem kernelPlace_ne {i j : Nat} (hlt : i < j) (hoff : offset + j < 2 ^ 32) :
    kernelPlace s p rgid offset i ≠ kernelPlace s p rgid offset j := by
  intro heq
  have haddr := Place.kernel.inj heq
  rw [toUint32_of_lt hoff, toUint32_of_lt (by omega)] at haddr
  have hsame := VmRg.addrAt_inj (by omega) hoff haddr
  omega

theorem UserByteOk.isUser {off : Nat} (h : UserByteOk s p rgid off) :
    (s.symrgtbl p rgid).IsUser := by
  obtain ⟨addr, haddr⟩ := Option.isSome_iff_exists.mp h.access
  exact userAccess_isUser haddr

theorem UserByteOk.byteAt_isSome {off : Nat} (h : UserByteOk s p rgid off)
    (hp : p ∈ s.runningList) :
    (s.byteAt (.user p ((s.symrgtbl p rgid).addrAt off))).isSome = true := by
  obtain ⟨addr, haddr⟩ := Option.isSome_iff_exists.mp h.access
  have hlt := userAccess_lt haddr
  rw [userAccess_eq_some haddr] at hlt
  rw [Sys.byteAt, if_pos ⟨hp, hlt⟩, pteByte_isSome]
  exact h.page.imp_right And.left

theorem KernelByteOk.byteAt_isSome {off : Nat} (h : KernelByteOk s p rgid off) :
    (s.byteAt (.kernel ((s.symrgtbl p rgid).addrAt off))).isSome = true := by
  rw [Sys.byteAt, if_pos (VmRg.addrAt_lt _ _), Option.isSome_map]
  exact h.mapped

end Offsets

/-! ### Copies that succeed -/

/-- The bytes that were at the places `src` are at the places `dst`, and
nothing else has changed. -/
structure MovesBytes (s t : Sys) (src dst : Nat → Place) (n : Nat) : Prop where
  moved : ∀ i < n, ∃ b, s.byteAt (src i) = some b ∧ t.byteAt (dst i) = some b
  others : ∀ l, (∀ i < n, l ≠ dst i) → t.byteAt l = s.byteAt l

/-- Byte `i` of a copy from or to a user region. -/
def Sys.userByte (s : Sys) (p : Pid) (rgid offset i : Nat) : Place :=
  .user p ((s.symrgtbl p rgid).addrAt (offset + i))

/-- Byte `i` of a copy from or to a kernel region. -/
def Sys.kernelByte (s : Sys) (p : Pid) (rgid offset i : Nat) : Place :=
  .kernel ((s.symrgtbl p rgid).addrAt (offset + i))

section Success

variable {ok : Prop} {s t u : Sys} {p : Pid} {source destination offset size : Nat}

/-- A copy that ran to its end, between places that do not overlap. -/
theorem CopyEnd.moves {src dst src' dst' : Nat → Place} {Ok : Nat → Prop} {n : Nat}
    (hend : CopyEnd ok p s t src dst Ok size 0 n) (hsep : ∀ i j, src i ≠ dst j)
    (hinj : ∀ i j, i < j → j < size → dst i ≠ dst j)
    (hsrc : ∀ i < size, src' i = src i) (hdst : ∀ i < size, dst' i = dst i)
    (hsome : ∀ i < size, (s.byteAt (src i)).isSome = true) : MovesBytes s t src' dst' size := by
  obtain rfl := hend.done rfl
  constructor
  · intro i hi
    obtain ⟨b, hb⟩ := Option.isSome_iff_exists.mp (hsome i hi)
    refine ⟨b, by rw [hsrc i hi, hb], ?_⟩
    rw [hdst i hi, hend.view, copied_dst hsep (fun i j hij hj => hinj i j hij (by omega))
      (Nat.zero_le i) (by omega), hb]
  · intro l hl
    rw [hend.view]
    refine copied_of_ne fun i _ hi => ?_
    rw [← hdst i (by omega)]
    exact hl i (by omega)

theorem Inv.copyFromUser_moves (h : Inv ok [] [] s) (hp : p ∈ s.runningList)
    (hoff : offset < 2 ^ 32)
    (hcopy : libkmemCopyFromUser s p source destination offset size = (0, t)) :
    Copying ok s p t ∧ (∀ i < size, CopyByteOk p source destination offset s i) ∧
      (∀ i < size, offset + i < 2 ^ 32) ∧
      MovesBytes s t (s.userByte p source offset) (s.kernelByte p destination offset) size := by
  obtain ⟨n, hend⟩ := h.libkmemCopyFromUser_end hp hcopy
  have heach : ∀ i < size, CopyByteOk p source destination offset s i := hend.done rfl ▸ hend.each
  have hlt (i : Nat) (hi : i < size) : offset + i < 2 ^ 32 :=
    h.offset_lt hoff (fun j hj => (heach j hj).2) hi
  refine ⟨hend.copying, heach, hlt,
    hend.moves (userPlace_ne_kernelPlace s p source destination offset)
    (fun i j hij hj => kernelPlace_ne hij (hlt j hj))
    (fun i hi => ?_) (fun i hi => ?_) fun i hi => ?_⟩
  · rw [Sys.userByte, userPlace, toUint32_of_lt (hlt i hi)]
  · rw [Sys.kernelByte, kernelPlace, toUint32_of_lt (hlt i hi)]
  · exact (heach i hi).1.byteAt_isSome hp

theorem Inv.copyToUser_moves (h : Inv ok [] [] s) (hp : p ∈ s.runningList)
    (hoff : offset < 2 ^ 32)
    (hcopy : libkmemCopyToUser s p source destination offset size = (0, t)) :
    (∀ i < size, CopyByteOk p destination source offset s i) ∧
      (∀ i < size, offset + i < 2 ^ 32) ∧
      MovesBytes s t (s.kernelByte p source offset) (s.userByte p destination offset) size := by
  obtain ⟨n, hend⟩ := h.libkmemCopyToUser_end hp hcopy
  have heach : ∀ i < size, CopyByteOk p destination source offset s i := hend.done rfl ▸ hend.each
  have hlt (i : Nat) (hi : i < size) : offset + i < 2 ^ 32 :=
    h.offset_lt hoff (fun j hj => (heach j hj).2) hi
  refine ⟨heach, hlt, hend.moves
    (fun i j => (userPlace_ne_kernelPlace s p destination source offset j i).symm)
    (fun i j hij hj => userPlace_ne hij (hlt j hj))
    (fun i hi => ?_) (fun i hi => ?_) fun i hi => ?_⟩
  · rw [Sys.kernelByte, kernelPlace, toUint32_of_lt (hlt i hi)]
  · rw [Sys.userByte, userPlace, toUint32_of_lt (hlt i hi)]
  · exact (heach i hi).2.byteAt_isSome

/-- Every byte of the range has an address that the kernel page table maps. -/
def KernelMapped (s : Sys) (p : Pid) (rgid offset size : Nat) : Prop :=
  ∀ i < size, (kernelTranslateVaddr s ((s.symrgtbl p rgid).addrAt (offset + i))).isSome = true

theorem kernelMapped_of_copyByteOk {user kernel : Nat}
    (hbyte : ∀ i < size, CopyByteOk p user kernel offset s i)
    (hlt : ∀ i < size, offset + i < 2 ^ 32) : KernelMapped s p kernel offset size := by
  intro i hi
  have hmapped := (hbyte i hi).2.mapped
  rwa [toUint32_of_lt (hlt i hi)] at hmapped

end Success

/-- In every state of a run without system calls, a copy that succeeds moves
the bytes that were asked for, between a user region and mapped kernel
memory, and changes no other byte that any process or the kernel can see. A
range that is copied into the kernel and back is reproduced. -/
theorem copies_move_bytes {ramSz swpSz : Nat} {host : Nat → Bool} {ops : List Op} {s : Sys}
    (hrun : Run CallFreeStep (boot ramSz swpSz host) ops s) {p : Pid} (hp : p ∈ s.runningList)
    (source destination size : Nat) {offset : Nat} (hoff : offset < 2 ^ 32) :
    (∀ t, libkmemCopyFromUser s p source destination offset size = (0, t) →
      (0 < size → (s.symrgtbl p source).IsUser) ∧ KernelMapped s p destination offset size ∧
      MovesBytes s t (s.userByte p source offset) (s.kernelByte p destination offset) size) ∧
    (∀ t, libkmemCopyToUser s p source destination offset size = (0, t) →
      (0 < size → (s.symrgtbl p destination).IsUser) ∧ KernelMapped s p source offset size ∧
      MovesBytes s t (s.kernelByte p source offset) (s.userByte p destination offset) size) ∧
    ∀ back t u, libkmemCopyFromUser s p source destination offset size = (0, t) →
      libkmemCopyToUser t p destination back offset size = (0, u) →
      ∀ i < size, ∃ b, s.byteAt (s.userByte p source offset i) = some b ∧
        u.byteAt (s.userByte p back offset i) = some b := by
  obtain ⟨hinv, -⟩ := inv_of_run (hrun.mono fun _ _ _ h => h.lowStep)
  refine ⟨fun t hcopy => ?_, fun t hcopy => ?_, fun back t u hcopy hback i hi => ?_⟩
  · obtain ⟨-, hbyte, hlt, hmoves⟩ := hinv.copyFromUser_moves hp hoff hcopy
    exact ⟨fun hsize => (hbyte 0 hsize).1.isUser, kernelMapped_of_copyByteOk hbyte hlt, hmoves⟩
  · obtain ⟨hbyte, hlt, hmoves⟩ := hinv.copyToUser_moves hp hoff hcopy
    exact ⟨fun hsize => (hbyte 0 hsize).1.isUser, kernelMapped_of_copyByteOk hbyte hlt, hmoves⟩
  · obtain ⟨hcopying, -, -, hin⟩ := hinv.copyFromUser_moves hp hoff hcopy
    obtain ⟨-, -, hout⟩ := hcopying.inv.copyToUser_moves hcopying.live hoff hback
    obtain ⟨b, hb, hkernel⟩ := hin.moved i hi
    obtain ⟨b', hb', huser⟩ := hout.moved i hi
    rw [Sys.kernelByte, hcopying.symrgtbl, ← Sys.kernelByte, hkernel] at hb'
    rw [Sys.userByte, hcopying.symrgtbl, ← Sys.userByte] at huser
    exact ⟨b, hb, by rw [huser, hb']⟩

/-- Two user regions and a kernel region. -/
def copyRegions : List Op :=
  [.load, .inst 1 { opcode := .alloc, arg0 := 100, arg1 := 0 } ⟨0, 0⟩,
    .inst 1 { opcode := .kmalloc, arg0 := 100, arg1 := 1 } ⟨0, 0⟩,
    .inst 1 { opcode := .alloc, arg0 := 100, arg1 := 2 } ⟨0, 0⟩,
    .inst 1 { opcode := .write, arg0 := 7, arg1 := 0, arg2 := 99 } ⟨0, 0⟩]

theorem copyRegions_isSome :
    (callFreeExec (boot 16384 0 fun _ => true) copyRegions).isSome = true := by
  decide +kernel

/-- The state after it. -/
def threeRegions : Sys :=
  (callFreeExec (boot 16384 0 fun _ => true) copyRegions).get copyRegions_isSome

theorem run_copyRegions : Run CallFreeStep (boot 16384 0 fun _ => true) copyRegions threeRegions :=
  run_of_callFreeExec (Option.some_get copyRegions_isSome).symm

theorem copies_move_bytes_threeRegions :
    ∃ t u, libkmemCopyFromUser threeRegions 1 0 1 98 2 = (0, t) ∧
      libkmemCopyToUser t 1 1 2 98 2 = (0, u) ∧
      MovesBytes threeRegions t (threeRegions.userByte 1 0 98) (threeRegions.kernelByte 1 1 98) 2 ∧
      ∀ i < 2, ∃ b, threeRegions.byteAt (threeRegions.userByte 1 0 98 i) = some b ∧
        u.byteAt (threeRegions.userByte 1 2 98 i) = some b := by
  have hcopy := copies_move_bytes run_copyRegions (p := 1) (by decide +kernel) 0 1 2
    (show 98 < 2 ^ 32 by decide)
  have hin : libkmemCopyFromUser threeRegions 1 0 1 98 2 =
      (0, (libkmemCopyFromUser threeRegions 1 0 1 98 2).2) := pair_of_fst (by decide +kernel)
  have hout : libkmemCopyToUser (libkmemCopyFromUser threeRegions 1 0 1 98 2).2 1 1 2 98 2 =
      (0, (libkmemCopyToUser (libkmemCopyFromUser threeRegions 1 0 1 98 2).2 1 1 2 98 2).2) :=
    pair_of_fst (by decide +kernel)
  exact ⟨_, _, hin, hout, (hcopy.1 _ hin).2.2, hcopy.2.2 2 _ _ hin hout⟩

/-- A copy of no bytes succeeds from a region that was never allocated. -/
theorem emptyCopy_noRegion :
    Run CallFreeStep (boot 16384 0 fun _ => true) copyRegions threeRegions ∧
      1 ∈ threeRegions.runningList ∧
      libkmemCopyFromUser threeRegions 1 5 1 0 0 = (0, threeRegions) ∧
      ¬(threeRegions.symrgtbl 1 5).IsUser := by
  refine ⟨run_copyRegions, by decide +kernel, ?_, ?_⟩
  · rw [libkmemCopyFromUser, if_neg (by decide), copyFromUser]
  · rw [VmRg.IsUser]
    decide +kernel

end Ossim.Mem
