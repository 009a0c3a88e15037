import Ossim.Mem.Types

/-!
Physical memory: `mm-memphy.c`.

A device hands out frame numbers from the head of its free list and takes
them back at the head. Reading and writing are bounded by `maxsz` and work
only on a random access device; the sequential path of the code refuses
every device it is reached with.
-/

namespace Ossim.Mem

/-- The number of frames `MEMPHY_format` makes, none for a size that is
not positive. -/
def numfp (maxsz : Int) : Nat := maxsz.toNat / pageSz

/-- `MEMPHY_read` -/
def memphyRead (s : Sys) (d : Dev) (addr : Nat) : Option Byte :=
  if ofInt (s.maxsz d) ≤ addr then none
  else if s.rdmflg d then some (s.storage d addr)
  else none

def Sys.setStorage (s : Sys) (d : Dev) (st : Nat → Byte) : Sys :=
  { s with storage := Function.update s.storage d st }

/-- Store a byte in a device. -/
def Sys.poke (s : Sys) (d : Dev) (addr : Nat) (data : Byte) : Sys :=
  s.setStorage d (Function.update (s.storage d) addr data)

/-- `MEMPHY_write` -/
def memphyWrite (s : Sys) (d : Dev) (addr : Nat) (data : Byte) : Option Sys :=
  if ofInt (s.maxsz d) ≤ addr then none
  else if s.rdmflg d then some (s.poke d addr data)
  else none

/-- `MEMPHY_get_freefp` -/
def memphyGetFreefp (s : Sys) (d : Dev) : Option (Nat × Sys) :=
  match s.freeFpList d with
  | [] => none
  | fpn :: rest => some (fpn, { s with freeFpList := Function.update s.freeFpList d rest })

/-- `MEMPHY_put_freefp`. Its callers ignore a failure, and then the frame
is in no list any more. -/
def memphyPutFreefp (s : Sys) (d : Dev) (fpn : Nat) : Sys :=
  match draw s.host with
  | (true, h) => { s with
      host := h
      freeFpList := Function.update s.freeFpList d (fpn :: s.freeFpList d) }
  | (false, h) => { s with
      host := h
      lostFp := Function.update s.lostFp d (fpn :: s.lostFp d) }

/-- `__swap_cp_page`, the cells from `cellidx` on. -/
def swapCpCells (src : Dev) (srcfpn : Nat) (dst : Dev) (dstfpn : Nat) :
    (left cellidx : Nat) → Sys → Bool × Sys
  | 0, _, s => (true, s)
  | left + 1, cellidx, s =>
    match memphyRead s src ((srcfpn * pageSz + cellidx) % 2 ^ 64) with
    | none => (false, s)
    | some data =>
      match memphyWrite s dst ((dstfpn * pageSz + cellidx) % 2 ^ 64) data with
      | none => (false, s)
      | some s => swapCpCells src srcfpn dst dstfpn left (cellidx + 1) s

/-- `__swap_cp_page` -/
def swapCpPage (s : Sys) (src : Dev) (srcfpn : Nat) (dst : Dev) (dstfpn : Nat) : Bool × Sys :=
  swapCpCells src srcfpn dst dstfpn pageSz 0 s

/-! ### Free lists -/

theorem memphyGetFreefp_eq_some {s t : Sys} {d : Dev} {fpn : Nat}
    (h : memphyGetFreefp s d = some (fpn, t)) :
    ∃ rest, s.freeFpList d = fpn :: rest ∧
      t = { s with freeFpList := Function.update s.freeFpList d rest } := by
  unfold memphyGetFreefp at h
  split at h
  · cases h
  · rename_i rest hlist
    cases h
    exact ⟨rest, hlist, rfl⟩

/-- A frame put back is in the free list, or lost. -/
theorem memphyPutFreefp_cases (s : Sys) (d : Dev) (fpn : Nat) :
    (s.host 0 = true ∧ memphyPutFreefp s d fpn = { s with
      host := fun n => s.host (n + 1)
      freeFpList := Function.update s.freeFpList d (fpn :: s.freeFpList d) }) ∨
    (s.host 0 = false ∧ memphyPutFreefp s d fpn = { s with
      host := fun n => s.host (n + 1)
      lostFp := Function.update s.lostFp d (fpn :: s.lostFp d) }) := by
  cases h : s.host 0
  · exact .inr ⟨rfl, by simp [memphyPutFreefp, draw, h]⟩
  · exact .inl ⟨rfl, by simp [memphyPutFreefp, draw, h]⟩

/-! ### Bytes of a frame -/

/-- A device as `main` makes them: random access, with a size that came
out of an `int`. -/
structure Usable (maxsz : Int) (rdmflg : Bool) : Prop where
  random : rdmflg = true
  small : maxsz < 2 ^ 31

/-- Device `d` is usable. -/
abbrev Sys.Usable (s : Sys) (d : Dev) : Prop := Mem.Usable (s.maxsz d) (s.rdmflg d)

theorem Usable.numfp_lt {maxsz : Int} {rdmflg : Bool} (h : Usable maxsz rdmflg) :
    numfp maxsz < 2 ^ 19 := by
  have hsmall := h.small
  simp only [numfp, pageSz]
  omega

/-- The bytes of a frame lie inside the device. -/
theorem Usable.addr_lt {maxsz : Int} {rdmflg : Bool} (h : Usable maxsz rdmflg) {f : Nat}
    (hf : f < numfp maxsz) {off : Nat} (hoff : off < pageSz) :
    f * pageSz + off < ofInt maxsz ∧ f * pageSz + off < 2 ^ 64 := by
  have hsmall := h.small
  simp only [numfp, pageSz, ofInt] at *
  omega

theorem memphyRead_frame {s : Sys} {d : Dev} (hd : s.Usable d) {f : Nat}
    (hf : f < numfp (s.maxsz d)) {off : Nat} (hoff : off < pageSz) :
    memphyRead s d (f * pageSz + off) = some (s.storage d (f * pageSz + off)) := by
  have hlt := (hd.addr_lt hf hoff).1
  simp [memphyRead, Nat.not_le.mpr hlt, hd.random]

theorem memphyWrite_frame {s : Sys} {d : Dev} (hd : s.Usable d) {f : Nat}
    (hf : f < numfp (s.maxsz d)) {off : Nat} (hoff : off < pageSz) (v : Byte) :
    memphyWrite s d (f * pageSz + off) v = some (s.poke d (f * pageSz + off) v) := by
  have hlt := (hd.addr_lt hf hoff).1
  simp [memphyWrite, Nat.not_le.mpr hlt, hd.random]

theorem memphyRead_eq_some {s : Sys} {d : Dev} {addr : Nat} {v : Byte}
    (h : memphyRead s d addr = some v) : v = s.storage d addr := by
  simp only [memphyRead] at h
  split at h
  · cases h
  · split at h
    · cases h
      rfl
    · cases h

theorem memphyWrite_eq_some {s t : Sys} {d : Dev} {addr : Nat} {v : Byte}
    (h : memphyWrite s d addr v = some t) : t = s.poke d addr v := by
  simp only [memphyWrite] at h
  split at h
  · cases h
  · split at h
    · cases h
      rfl
    · cases h

/-! ### Copying a page -/

/-- Copying changes storage only, however it ends. -/
theorem swapCpPage_eq (s : Sys) (src : Dev) (f : Nat) (dst : Dev) (o : Nat) :
    ∃ st, (swapCpPage s src f dst o).2 = { s with storage := st } := by
  have hcells (left k : Nat) (s : Sys) :
      ∃ st, (swapCpCells src f dst o left k s).2 = { s with storage := st } := by
    induction left generalizing k s with
    | zero => exact ⟨s.storage, rfl⟩
    | succ left ih =>
        rw [swapCpCells]
        split
        · exact ⟨s.storage, rfl⟩
        · split
          · exact ⟨s.storage, rfl⟩
          · rename_i t ht
            obtain ⟨st, hst⟩ := ih (k + 1) t
            refine ⟨st, hst.trans ?_⟩
            rw [memphyWrite_eq_some ht]
            rfl
  exact hcells _ _ s

/-- Copying changes the destination only. -/
theorem storage_swapCpPage (s : Sys) (src : Dev) (f o : Nat) {dst d : Dev} (hd : d ≠ dst) :
    (swapCpPage s src f dst o).2.storage d = s.storage d := by
  have hcells (left k : Nat) (s : Sys) :
      (swapCpCells src f dst o left k s).2.storage d = s.storage d := by
    induction left generalizing k s with
    | zero => rfl
    | succ left ih =>
        rw [swapCpCells]
        split
        · rfl
        · split
          · rfl
          · rename_i t ht
            rw [ih, memphyWrite_eq_some ht, Sys.poke, Sys.setStorage]
            exact Function.update_of_ne hd _ _
  exact hcells _ _ s

/-- The storage `dst` with the first `k` cells of frame `f` of `src` copied
to frame `o`. -/
def copyCells (src : Nat → Byte) (f : Nat) (dst : Nat → Byte) (o k : Nat) : Nat → Byte :=
  fun a => if a / pageSz = o ∧ a % pageSz < k then src (f * pageSz + a % pageSz) else dst a

theorem copyCells_zero (src : Nat → Byte) (f : Nat) (dst : Nat → Byte) (o : Nat) :
    copyCells src f dst o 0 = dst := by
  funext a
  simp [copyCells]

theorem update_copyCells (src : Nat → Byte) (f : Nat) (dst : Nat → Byte) (o : Nat) {k : Nat}
    (hk : k < pageSz) :
    Function.update (copyCells src f dst o k) (o * pageSz + k) (src (f * pageSz + k)) =
      copyCells src f dst o (k + 1) := by
  funext a
  simp only [copyCells, Function.update_apply, pageSz] at *
  have hiff : a = o * 4096 + k ↔ a / 4096 = o ∧ a % 4096 = k := by omega
  rcases Nat.lt_trichotomy (a % 4096) k with hlt | heq | hgt
  · have hne : ¬a = o * 4096 + k := fun h => by omega
    simp [hne, hlt, Nat.lt_succ_of_lt hlt]
  · by_cases ho : a / 4096 = o
    · simp [hiff, ho, heq]
    · simp [hiff, ho]
  · have hne : ¬a = o * 4096 + k := fun h => by omega
    have h1 : ¬a % 4096 < k := by omega
    have h2 : ¬a % 4096 < k + 1 := by omega
    simp [hne, h1, h2]

/-- The storage `dst` after `__swap_cp_page` copied frame `f` of `src` to
frame `o`. -/
def copyPage (src : Nat → Byte) (f : Nat) (dst : Nat → Byte) (o : Nat) : Nat → Byte :=
  fun a => if a / pageSz = o then src (f * pageSz + a % pageSz) else dst a

theorem copyPage_self (src dst : Nat → Byte) (f o : Nat) {off : Nat} (hoff : off < pageSz) :
    copyPage src f dst o (o * pageSz + off) = src (f * pageSz + off) := by
  have hdiv : (o * pageSz + off) / pageSz = o := by simp only [pageSz] at *; omega
  have hmod : (o * pageSz + off) % pageSz = off := by simp only [pageSz] at *; omega
  rw [copyPage, if_pos hdiv, hmod]

/-- The device can be read and written at the address. -/
def Sys.InRange (s : Sys) (d : Dev) (addr : Nat) : Prop :=
  addr < ofInt (s.maxsz d) ∧ s.rdmflg d = true

theorem memphyRead_inRange {s : Sys} {d : Dev} {addr : Nat} (h : s.InRange d addr) :
    memphyRead s d addr = some (s.storage d addr) := by
  rw [memphyRead, if_neg (Nat.not_le.mpr h.1), if_pos h.2]

theorem memphyRead_not_inRange {s : Sys} {d : Dev} {addr : Nat} (h : ¬s.InRange d addr) :
    memphyRead s d addr = none := by
  rw [memphyRead]
  split
  · rfl
  · rename_i hlt
    exact if_neg fun hrandom => h ⟨Nat.not_le.mp hlt, hrandom⟩

theorem memphyWrite_inRange {s : Sys} {d : Dev} {addr : Nat} (h : s.InRange d addr) (v : Byte) :
    memphyWrite s d addr v = some (s.poke d addr v) := by
  rw [memphyWrite, if_neg (Nat.not_le.mpr h.1), if_pos h.2]

theorem memphyWrite_not_inRange {s : Sys} {d : Dev} {addr : Nat} (h : ¬s.InRange d addr)
    (v : Byte) : memphyWrite s d addr v = none := by
  rw [memphyWrite]
  split
  · rfl
  · rename_i hlt
    exact if_neg fun hrandom => h ⟨Nat.not_le.mp hlt, hrandom⟩

/-- Between two devices the cells are copied up to the first one that is out
of range on one side, and nothing else changes. Frame numbers count modulo
the size of the address space. -/
theorem swapCpPage_part (s : Sys) {src dst : Dev} (hne : src ≠ dst) (f o : Nat) :
    ∃ n ≤ pageSz, swapCpPage s src f dst o = (decide (n = pageSz), s.setStorage dst
        (copyCells (s.storage src) (f % 2 ^ 52) (s.storage dst) (o % 2 ^ 52) n)) ∧
      ∀ j < pageSz, j < n ↔
        s.InRange src (f % 2 ^ 52 * pageSz + j) ∧ s.InRange dst (o % 2 ^ 52 * pageSz + j) := by
  let part (k : Nat) : Sys :=
    s.setStorage dst (copyCells (s.storage src) (f % 2 ^ 52) (s.storage dst) (o % 2 ^ 52) k)
  have haddr (x k : Nat) (hk : k < pageSz) :
      (x * pageSz + k) % 2 ^ 64 = x % 2 ^ 52 * pageSz + k := by
    simp only [pageSz] at *
    omega
  -- after `k` cells the state is `part k`, and these were in range
  have hcells (left k : Nat) (hleft : k + left = pageSz)
      (hdone : ∀ j < k, s.InRange src (f % 2 ^ 52 * pageSz + j) ∧
        s.InRange dst (o % 2 ^ 52 * pageSz + j)) :
      ∃ n ≤ pageSz, swapCpCells src f dst o left k (part k) = (decide (n = pageSz), part n) ∧
        ∀ j < pageSz, j < n ↔ s.InRange src (f % 2 ^ 52 * pageSz + j) ∧
          s.InRange dst (o % 2 ^ 52 * pageSz + j) := by
    induction left generalizing k with
    | zero =>
        have hk : k = pageSz := by omega
        refine ⟨k, by omega, ?_, fun j hj => ⟨fun hlt => hdone j hlt, fun _ => by omega⟩⟩
        rw [decide_eq_true hk]
        rfl
    | succ left ih =>
        have hk : k < pageSz := by omega
        have hstop (hout : ¬(s.InRange src (f % 2 ^ 52 * pageSz + k) ∧
            s.InRange dst (o % 2 ^ 52 * pageSz + k))) : ∀ j < pageSz, j < k ↔
              s.InRange src (f % 2 ^ 52 * pageSz + j) ∧
                s.InRange dst (o % 2 ^ 52 * pageSz + j) := by
          refine fun j _ => ⟨hdone j, fun hin => ?_⟩
          by_contra hle
          exact hout ⟨⟨by have := hin.1.1; omega, hin.1.2⟩, ⟨by have := hin.2.1; omega, hin.2.2⟩⟩
        have hnot : decide (k = pageSz) = false := decide_eq_false (by omega)
        rw [swapCpCells, haddr f k hk, haddr o k hk]
        by_cases hread : s.InRange src (f % 2 ^ 52 * pageSz + k)
        · rw [memphyRead_inRange (s := part k) hread]
          dsimp only
          by_cases hwrite : s.InRange dst (o % 2 ^ 52 * pageSz + k)
          · have hnext : (part k).poke dst (o % 2 ^ 52 * pageSz + k)
                ((part k).storage src (f % 2 ^ 52 * pageSz + k)) = part (k + 1) := by
              simp only [part, Sys.poke, Sys.setStorage, Function.update_self,
                Function.update_idem, Function.update_of_ne hne, update_copyCells _ _ _ _ hk]
            rw [memphyWrite_inRange (s := part k) hwrite, hnext]
            refine ih (k + 1) (by omega) fun j hj => ?_
            rcases Nat.lt_succ_iff_lt_or_eq.mp hj with hlt | rfl
            · exact hdone j hlt
            · exact ⟨hread, hwrite⟩
          · rw [memphyWrite_not_inRange (s := part k) hwrite]
            exact ⟨k, hk.le, by rw [hnot], hstop fun h => hwrite h.2⟩
        · rw [memphyRead_not_inRange (s := part k) hread]
          exact ⟨k, hk.le, by rw [hnot], hstop fun h => hread h.1⟩
  have hzero : part 0 = s := by
    simp only [part, Sys.setStorage, copyCells_zero, Function.update_eq_self]
  have hstart := hcells pageSz 0 (Nat.zero_add _) fun _ hj => absurd hj (Nat.not_lt_zero _)
  rw [hzero] at hstart
  exact hstart

theorem copyCells_pageSz (src : Nat → Byte) (f : Nat) (dst : Nat → Byte) (o : Nat) :
    copyCells src f dst o pageSz = copyPage src f dst o := by
  funext a
  have hmod : a % pageSz < pageSz := Nat.mod_lt _ (by decide)
  simp [copyCells, copyPage, hmod]

/-- A copy that succeeds has copied the whole page. -/
theorem swapCpPage_true {s t : Sys} {src dst : Dev} (hne : src ≠ dst) {f o : Nat}
    (h : swapCpPage s src f dst o = (true, t)) :
    t = s.setStorage dst
        (copyPage (s.storage src) (f % 2 ^ 52) (s.storage dst) (o % 2 ^ 52)) ∧
      ∀ j < pageSz, s.InRange src (f % 2 ^ 52 * pageSz + j) ∧
        s.InRange dst (o % 2 ^ 52 * pageSz + j) := by
  obtain ⟨n, -, heq, hrange⟩ := swapCpPage_part s hne f o
  rw [heq, Prod.mk.injEq, decide_eq_true_eq] at h
  obtain ⟨rfl, rfl⟩ := h
  exact ⟨by rw [copyCells_pageSz], fun j hj => (hrange j hj).mp hj⟩

/-- Between two devices, a page that is in range on both sides is copied
whole, and nothing else changes. -/
theorem swapCpPage_frames {s : Sys} {src dst : Dev} {f o : Nat} (hne : src ≠ dst)
    (hsrc : s.Usable src) (hdst : s.Usable dst)
    (hf : f < numfp (s.maxsz src)) (ho : o < numfp (s.maxsz dst)) :
    swapCpPage s src f dst o =
      (true, s.setStorage dst (copyPage (s.storage src) f (s.storage dst) o)) := by
  have hmod (d : Dev) (hd : s.Usable d) (x : Nat) (hx : x < numfp (s.maxsz d)) :
      x % 2 ^ 52 = x := Nat.mod_eq_of_lt (by have := hd.numfp_lt; omega)
  obtain ⟨n, hle, heq, hrange⟩ := swapCpPage_part s hne f o
  rw [hmod src hsrc f hf, hmod dst hdst o ho] at heq hrange
  have hlast : pageSz - 1 < pageSz := by decide
  have hin : pageSz - 1 < n := (hrange _ hlast).mpr
    ⟨⟨(hsrc.addr_lt hf hlast).1, hsrc.random⟩, ⟨(hdst.addr_lt ho hlast).1, hdst.random⟩⟩
  obtain rfl : n = pageSz := by omega
  rw [heq, copyCells_pageSz, decide_eq_true rfl]

end Ossim.Mem
