import Ossim.Lib.Tally
import Ossim.Mem.System

/-!
The invariant of the memory system.

Every frame of every device is owned once: by the free list, by a node of
the used list, by a page-table entry of a live process, by the list of lost
frames, or by the operation that is under way, which *holds* it. The frames
held are the two list arguments of `Inv`; between operations they are empty.
A byte that a process stored is then where its page-table entry says, in RAM
or in the swap, because nobody else can own that frame.

The section after the definitions says what each elementary change does to
the invariant. Everything that the operations do to page tables, free lists
and storage is made of these changes.
-/

namespace Ossim.Mem

open Ossim.Lib

/-! ### Definitions -/

/-- The entry of a user page. -/
def Sys.pte (s : Sys) (p : Pid) (pgn : Nat) : Nat := (s.pgd p).lookup 0 (pgnPath pgn)

/-- The entry owns frame `x` of device `d`. -/
def owns : Dev → Nat → Nat → Bool
  | .mram, x, pte => pagePresent pte && pteFpn pte == x
  | .mswp, x, pte => pageSwapped pte && pteSwp pte == x

/-- The frames held by the operation that is under way. -/
def held (ram swp : List Nat) : Dev → List Nat
  | .mram => ram
  | .mswp => swp

/-- The entries of a process that own frame `x`. -/
def Sys.owned (s : Sys) (d : Dev) (x : Nat) (p : Pid) : Nat :=
  (s.pgd p).entries.countP (owns d x)

/-- The owners of frame `x`, without the operation that is under way. -/
def Sys.owners (s : Sys) (d : Dev) (x : Nat) : Nat :=
  (s.freeFpList d).count x + ((s.usedFpList d).map UsedFrame.fpn).count x +
    (s.lostFp d).count x + tally s.runningList (s.owned d x)

/-- The entries `vmap_page_range` and the swap leave in a user page table. -/
inductive WfPte : Nat → Prop
  | zero : WfPte 0
  | present {f : Nat} (h : f < 2 ^ 40) : WfPte (presentPte f)
  | swapped {o : Nat} (h : o < 2 ^ 40) : WfPte (swappedPte activeMswpId o)

/-- The byte at an offset of the page of an entry. -/
def Sys.pteByte (s : Sys) (pte off : Nat) : Option Byte :=
  if pagePresent pte then some (s.storage .mram (pteFpn pte * pageSz + off))
  else if pageSwapped pte then some (s.storage .mswp (pteSwp pte * pageSz + off))
  else none

/-- What process `p` last stored at an address. -/
def lastStore (stores : List Store) (p : Pid) (addr : Nat) : Option Store :=
  stores.find? fun e => e.pid == p && e.addr == addr

/-- A kernel entry maps the frame that its address stands for, and that
frame is in the used list. -/
def KernelPteOk (s : Sys) (addr : Nat) : Prop :=
  pagePresent (kernelPte s addr) = true →
    ∃ fp ∈ s.usedFpList .mram, kernelPte s addr = presentPte fp.fpn ∧
      addr / pageSz = kmemVaddrBase / pageSz + fp.fpn

structure Inv (ok : Prop) (ram swp : List Nat) (s : Sys) : Prop where
  usable : ∀ d, s.Usable d
  owners : ∀ d x, s.owners d x + (held ram swp d).count x =
    if x < numfp (s.maxsz d) then 1 else 0
  swpUsed : s.usedFpList .mswp = []
  nodup : s.runningList.Nodup
  fresh : ∀ p ∈ s.runningList, p < s.availPid
  wf : ∀ p ∈ s.runningList, ∀ path, WfPte ((s.pgd p).lookup 0 path)
  aligned : ∀ p ∈ s.runningList, (s.mmap p).sbrk % pageSz = 0
  above : ∀ p ∈ s.runningList, ∀ g < userPgns, (s.mmap p).sbrk ≤ g * pageSz → s.pte p g = 0
  fifo : ∀ p ∈ s.runningList, ∀ g ∈ s.fifoPgn p, g < userPgns
  kernel : ∀ addr < 2 ^ 64, KernelPteOk s addr
  past : ∀ e ∈ s.stores, e.pid < s.availPid
  content : ∀ p ∈ s.runningList, ∀ g < userPgns, ∀ off < pageSz, ∀ e,
    lastStore s.stores p (g * pageSz + off) = some e → s.pteByte (s.pte p g) off = some e.value
  /-- as long as the host never refuses, nothing is lost -/
  host : ok → s.HostOk ∧ ∀ d, s.lostFp d = []

/-! ### Entries and their frames -/

@[simp] theorem owns_zero (d : Dev) (x : Nat) : owns d x 0 = false := by
  cases d <;> rfl

theorem owns_presentPte {f : Nat} (h : f < 2 ^ 40) (d : Dev) (x : Nat) :
    owns d x (presentPte f) = (decide (d = .mram) && f == x) := by
  cases d <;> simp [owns, pteFpn_presentPte h]

theorem owns_swappedPte {o : Nat} (h : o < 2 ^ 40) (d : Dev) (x : Nat) :
    owns d x (swappedPte activeMswpId o) = (decide (d = .mswp) && o == x) := by
  cases d <;> simp [owns, pteSwp_swappedPte h]

/-- A present entry of a user page is the one its frame number makes. -/
theorem WfPte.eq_present {v : Nat} (h : WfPte v) (hp : pagePresent v = true) :
    v = presentPte (pteFpn v) ∧ pteFpn v < 2 ^ 40 := by
  cases h with
  | zero => cases hp
  | present hf => exact ⟨by rw [pteFpn_presentPte hf], by rw [pteFpn_presentPte hf]; exact hf⟩
  | swapped ho => simp at hp

theorem WfPte.eq_swapped {v : Nat} (h : WfPte v) (hp : pageSwapped v = true) :
    v = swappedPte activeMswpId (pteSwp v) ∧ pteSwp v < 2 ^ 40 := by
  cases h with
  | zero => cases hp
  | present hf => simp at hp
  | swapped ho => exact ⟨by rw [pteSwp_swappedPte ho], by rw [pteSwp_swappedPte ho]; exact ho⟩

theorem Sys.pteByte_presentPte (s : Sys) {f : Nat} (h : f < 2 ^ 40) (off : Nat) :
    s.pteByte (presentPte f) off = some (s.storage .mram (f * pageSz + off)) := by
  simp [pteByte, pteFpn_presentPte h]

theorem Sys.pteByte_swappedPte (s : Sys) {o : Nat} (h : o < 2 ^ 40) (off : Nat) :
    s.pteByte (swappedPte activeMswpId o) off = some (s.storage .mswp (o * pageSz + off)) := by
  simp [pteByte, pteSwp_swappedPte h]

/-- A page in one frame does not see what is written to another. -/
theorem WfPte.pteByte_setFrame {s : Sys} {d : Dev} {x v off : Nat} {st : Nat → Byte} (h : WfPte v)
    (hst : ∀ a, a / pageSz ≠ x → st a = s.storage d a) (hv : owns d x v = false)
    (hoff : off < pageSz) : (s.setStorage d st).pteByte v off = s.pteByte v off := by
  have hframe (f : Nat) (hf : f ≠ x) : st (f * pageSz + off) = s.storage d (f * pageSz + off) := by
    refine hst _ fun heq => hf ?_
    simp only [pageSz] at *
    omega
  cases h with
  | zero => rfl
  | present hf =>
      rw [Sys.pteByte_presentPte _ hf, Sys.pteByte_presentPte _ hf]
      cases d with
      | mswp => rfl
      | mram =>
          simp only [owns_presentPte hf, decide_true, Bool.true_and, beq_eq_false_iff_ne] at hv
          simp only [Sys.setStorage, Function.update_self, hframe _ hv]
  | swapped ho =>
      rw [Sys.pteByte_swappedPte _ ho, Sys.pteByte_swappedPte _ ho]
      cases d with
      | mram => rfl
      | mswp =>
          simp only [owns_swappedPte ho, decide_true, Bool.true_and, beq_eq_false_iff_ne] at hv
          simp only [Sys.setStorage, Function.update_self, hframe _ hv]

theorem one_le_owned {s : Sys} {d : Dev} {x : Nat} {p : Pid} {g : Nat}
    (h : owns d x (s.pte p g) = true) : 1 ≤ s.owned d x p :=
  Radix.one_le_countP h (owns_zero d x)

namespace Inv

variable {ok : Prop} {ram swp : List Nat} {s : Sys} {p q : Pid} {d : Dev} {x g g' : Nat}

theorem owners_le (h : Inv ok ram swp s) (d : Dev) (x : Nat) :
    s.owners d x + (held ram swp d).count x ≤ 1 := by
  rw [h.owners]
  split <;> omega

/-- The frame of an entry is in range, and in no list. -/
theorem of_owns (h : Inv ok ram swp s) (hp : p ∈ s.runningList)
    (hx : owns d x (s.pte p g) = true) :
    x < numfp (s.maxsz d) ∧ x ∉ s.freeFpList d ∧ x ∉ (s.usedFpList d).map UsedFrame.fpn ∧
      x ∉ s.lostFp d ∧ x ∉ held ram swp d := by
  have hone := one_le_owned hx
  have htally := le_tally (f := s.owned d x) hp
  have hle := h.owners_le d x
  have heq := h.owners d x
  simp only [Sys.owners] at hle heq
  refine ⟨?_, ?_, ?_, ?_, ?_⟩
  · by_contra hge
    rw [if_neg hge] at heq
    omega
  all_goals
    rw [← List.count_eq_zero]
    omega

/-- Two entries of live processes never own the same frame. -/
theorem owns_unique (h : Inv ok ram swp s) (hp : p ∈ s.runningList) (hq : q ∈ s.runningList)
    (hg : g < userPgns) (hg' : g' < userPgns) (hx : owns d x (s.pte p g) = true)
    (hx' : owns d x (s.pte q g') = true) : q = p ∧ g' = g := by
  have hle := h.owners_le d x
  simp only [Sys.owners] at hle
  have hqp : q = p := owner_unique hp hq (by omega) (one_le_owned hx) (one_le_owned hx')
  subst hqp
  have htally := le_tally (f := s.owned d x) hq
  refine ⟨rfl, pgnPath_inj hg' hg ?_⟩
  exact Radix.path_unique (q := owns d x) (z := 0) (by rw [Sys.owned] at htally; omega)
    (owns_zero d x) hx hx'

/-- A frame that is in a list is owned by no entry. -/
theorem not_owns_of_held (h : Inv ok ram swp s) (hx : x ∈ held ram swp d)
    (hp : p ∈ s.runningList) : owns d x (s.pte p g) = false := by
  by_contra hown
  exact (h.of_owns hp (by simpa using hown)).2.2.2.2 hx

theorem lt_of_held (h : Inv ok ram swp s) (hx : x ∈ held ram swp d) :
    x < numfp (s.maxsz d) := by
  have heq := h.owners d x
  have hpos := List.count_pos_iff.mpr hx
  by_contra hge
  rw [if_neg hge] at heq
  omega

/-! ### Elementary changes -/

theorem setHost (h : Inv ok ram swp s) {host : Nat → Bool} (hh : ok → host = s.host) :
    Inv ok ram swp { s with host := host } :=
  { h with
    host := fun hok => ⟨by rw [Sys.HostOk, hh hok]; exact (h.host hok).1, (h.host hok).2⟩ }

/-- Asking the host for memory. -/
theorem draw_host (h : Inv ok ram swp s) (hok : ok) : draw s.host = (true, s.host) :=
  (h.host hok).1.draw

theorem setFifo (h : Inv ok ram swp s) {fifo : Pid → List Nat}
    (hf : ∀ p ∈ s.runningList, ∀ g ∈ fifo p, g < userPgns) :
    Inv ok ram swp { s with fifoPgn := fifo } :=
  { h with fifo := hf }

/-- Regions, pools, registers and area limits; a break only moves up, by
whole pages. -/
theorem setMeta (h : Inv ok ram swp s) {regs : Pid → Nat → Nat} {mmap : Pid → VmArea}
    {symrgtbl : Pid → Nat → VmRg} {kcpooltbl : Pid → List KcachePool}
    (hle : ∀ p ∈ s.runningList, (s.mmap p).sbrk ≤ (mmap p).sbrk ∧ (mmap p).sbrk % pageSz = 0) :
    Inv ok ram swp { s with
      regs := regs, mmap := mmap, symrgtbl := symrgtbl, kcpooltbl := kcpooltbl } :=
  { h with
    aligned := fun p hp => (hle p hp).2
    above := fun p hp g hg hsbrk => h.above p hp g hg ((hle p hp).1.trans hsbrk) }

/-- Bytes may change as long as no page of a live process sees it. -/
theorem setStorage (h : Inv ok ram swp s) {st : Dev → Nat → Byte}
    (hst : ∀ p ∈ s.runningList, ∀ g < userPgns, ∀ off < pageSz,
      ({ s with storage := st } : Sys).pteByte (s.pte p g) off = s.pteByte (s.pte p g) off) :
    Inv ok ram swp { s with storage := st } :=
  { h with
    content := fun p hp g hg off hoff e he =>
      (hst p hp g hg off hoff).trans (h.content p hp g hg off hoff e he) }

/-- A frame that no entry owns may be written. -/
theorem setFrame (h : Inv ok ram swp s) {st : Nat → Byte}
    (hst : ∀ a, a / pageSz ≠ x → st a = s.storage d a)
    (hx : ∀ p ∈ s.runningList, ∀ g, owns d x (s.pte p g) = false) :
    Inv ok ram swp (s.setStorage d st) :=
  Inv.setStorage h fun p hp g _ _ hoff => (h.wf p hp _).pteByte_setFrame hst (hx p hp g) hoff

/-- Moving frames between the free list, the used list, the lost list and
the operation. -/
theorem setLists (h : Inv ok ram swp s) {ram' swp' : List Nat} {host : Nat → Bool}
    {freeFp lostFp : Dev → List Nat} {usedFp : Dev → List UsedFrame}
    (hcount : ∀ d x, (freeFp d).count x + ((usedFp d).map UsedFrame.fpn).count x +
        (lostFp d).count x + (held ram' swp' d).count x =
      (s.freeFpList d).count x + ((s.usedFpList d).map UsedFrame.fpn).count x +
        (s.lostFp d).count x + (held ram swp d).count x)
    (hused : ∀ fp ∈ s.usedFpList .mram, fp ∈ usedFp .mram)
    (hswp : usedFp .mswp = s.usedFpList .mswp)
    (hhost : ok → host = s.host ∧ ∀ d, lostFp d = []) :
    Inv ok ram' swp' { s with
      host := host, freeFpList := freeFp, usedFpList := usedFp, lostFp := lostFp } :=
  { h with
    owners := fun d x => by
      have hnow := hcount d x
      have hold := h.owners d x
      simp only [Sys.owners] at hold ⊢
      change _ + tally s.runningList (s.owned d x) + _ = _
      omega
    swpUsed := hswp.trans h.swpUsed
    kernel := fun addr haddr hpres => by
      obtain ⟨fp, hfp, hrest⟩ := h.kernel addr haddr hpres
      exact ⟨fp, hused fp hfp, hrest⟩
    host := fun hok =>
      ⟨by rw [Sys.HostOk, (hhost hok).1]; exact (h.host hok).1, (hhost hok).2⟩ }

/-- Writing an entry of a live process: the frames of the old entry become
held, those of the new one are taken from the held ones, and the new one
leads to the bytes that were stored in the page. -/
theorem setPte (h : Inv ok ram swp s) {ram' swp' : List Nat} {v : Nat} {pgd : PageTable}
    {host : Nat → Bool} (hp : p ∈ s.runningList) (hg : g < userPgns)
    (hlookup : ∀ path, pgd.lookup 0 path =
      if path = pgnPath g then v else (s.pgd p).lookup 0 path)
    (hcount : ∀ c : Nat → Bool, c 0 = false →
      pgd.entries.countP c + (if c (s.pte p g) then 1 else 0) =
        (s.pgd p).entries.countP c + (if c v then 1 else 0))
    (hhost : ok → host = s.host) (hwf : WfPte v)
    (habove : (s.mmap p).sbrk ≤ g * pageSz → v = 0)
    (hheld : ∀ d x, (held ram' swp' d).count x + (if owns d x v then 1 else 0) =
      (held ram swp d).count x + (if owns d x (s.pte p g) then 1 else 0))
    (hbyte : ∀ off < pageSz, ∀ e, lastStore s.stores p (g * pageSz + off) = some e →
      s.pteByte v off = some e.value) :
    Inv ok ram' swp' { s with pgd := Function.update s.pgd p pgd, host := host } := by
  let t : Sys := { s with pgd := Function.update s.pgd p pgd, host := host }
  have hsame (q : Pid) (hq : q ≠ p) : t.pgd q = s.pgd q := Function.update_of_ne hq _ _
  have hself : t.pgd p = pgd := Function.update_self _ _ _
  have hpte (q : Pid) (g' : Nat) (hg' : g' < userPgns) :
      t.pte q g' = if q = p ∧ g' = g then v else s.pte q g' := by
    rcases eq_or_ne q p with rfl | hq
    · rw [Sys.pte, hself, hlookup]
      rcases eq_or_ne g' g with rfl | hne
      · simp
      · rw [if_neg fun he => hne (pgnPath_inj hg' hg he), if_neg fun he => hne he.2]
        rfl
    · rw [Sys.pte, hsame q hq, if_neg fun he => hq he.1]
      rfl
  exact
  { h with
    owners := fun d x => by
      have hold := h.owners d x
      have htally := tally_change (f := t.owned d x) (g := s.owned d x) h.nodup hp
        fun q _ hq => by simp only [Sys.owned, hsame q hq]
      have hone := hcount (owns d x) (owns_zero d x)
      have hmove := hheld d x
      have hnew : t.owned d x p = pgd.entries.countP (owns d x) := by rw [Sys.owned, hself]
      rw [hnew] at htally
      simp only [Sys.owners] at hold ⊢
      change _ + tally s.runningList (t.owned d x) + _ = _
      have howned : s.owned d x p = (s.pgd p).entries.countP (owns d x) := rfl
      omega
    wf := fun q hq path => by
      change WfPte ((t.pgd q).lookup 0 path)
      rcases eq_or_ne q p with rfl | hne
      · rw [hself, hlookup]
        split
        · exact hwf
        · exact h.wf q hq path
      · rw [hsame q hne]
        exact h.wf q hq path
    above := fun q hq g' hg' hsbrk => by
      change t.pte q g' = 0
      rw [hpte q g' hg']
      split
      · rename_i heq
        obtain ⟨rfl, rfl⟩ := heq
        exact habove hsbrk
      · exact h.above q hq g' hg' hsbrk
    content := fun q hq g' hg' off hoff e he => by
      change s.pteByte (t.pte q g') off = some e.value
      rw [hpte q g' hg']
      split
      · rename_i heq
        obtain ⟨rfl, rfl⟩ := heq
        exact hbyte off hoff e he
      · exact h.content q hq g' hg' off hoff e he
    host := fun hok =>
      ⟨by rw [Sys.HostOk, hhost hok]; exact (h.host hok).1, (h.host hok).2⟩ }

/-- Creating tables changes nothing. -/
theorem touchPgd (h : Inv ok ram swp s) (hp : p ∈ s.runningList) (path : RadixPath 512 4) :
    Inv ok ram swp { s with
      pgd := Function.update s.pgd p (Radix.touch draw 0 path (s.pgd p) s.host).2.1
      host := (Radix.touch draw 0 path (s.pgd p) s.host).2.2 } := by
  refine h.setPte (g := 0) (v := s.pte p 0) hp (by decide) (fun path' => ?_) (fun c hc => ?_)
    (fun hok => ?_) (h.wf p hp _) (h.above p hp 0 (by decide)) (fun _ _ => rfl)
    (h.content p hp 0 (by decide))
  · rw [Radix.lookup_touch]
    split
    · rename_i heq
      rw [heq]
      rfl
    · rfl
  · rw [Radix.countP_touch hc]
  · exact (Radix.touch_of_always (h.draw_host hok)).2

/-- Nothing was stored in a page that has no entry. -/
theorem lastStore_eq_none (h : Inv ok ram swp s) (hp : p ∈ s.runningList) (hg : g < userPgns)
    (hpte : s.pte p g = 0) {off : Nat} (hoff : off < pageSz) :
    lastStore s.stores p (g * pageSz + off) = none := by
  cases he : lastStore s.stores p (g * pageSz + off) with
  | none => rfl
  | some e =>
      have hbyte := h.content p hp g hg off hoff e he
      rw [hpte] at hbyte
      cases hbyte

/-- A byte of another page, or at another offset, is at another place. -/
theorem pteByte_poke (h : Inv ok ram swp s) {f off off' : Nat} (v : Byte) (hp : p ∈ s.runningList)
    (hg : g < userPgns) (hf : f < 2 ^ 40) (hpte : s.pte p g = presentPte f) (hoff : off < pageSz)
    (hq : q ∈ s.runningList) (hg' : g' < userPgns) (hoff' : off' < pageSz)
    (hne : ¬(q = p ∧ g' * pageSz + off' = g * pageSz + off)) :
    (s.poke .mram (f * pageSz + off) v).pteByte (s.pte q g') off' =
      s.pteByte (s.pte q g') off' := by
  have hown : owns .mram f (s.pte p g) = true := by
    rw [hpte, owns_presentPte hf]
    simp
  have hwf : WfPte (s.pte q g') := h.wf q hq (pgnPath g')
  generalize hv : s.pte q g' = v' at hwf
  cases hwf with
  | zero => rfl
  | swapped ho =>
      rw [Sys.pteByte_swappedPte _ ho, Sys.pteByte_swappedPte _ ho]
      rfl
  | present hf' =>
      rename_i f'
      rw [Sys.pteByte_presentPte _ hf', Sys.pteByte_presentPte _ hf']
      have haddr : f' * pageSz + off' ≠ f * pageSz + off := by
        intro heq
        have hff : f' = f := by simp only [pageSz] at *; omega
        have hown' : owns .mram f (s.pte q g') = true := by
          rw [hv, hff, owns_presentPte hf]
          simp
        obtain ⟨hqp, hgg⟩ := h.owns_unique hp hq hg hg' hown hown'
        refine hne ⟨hqp, ?_⟩
        rw [hff] at heq
        rw [hgg]
        omega
      simp only [Sys.poke, Sys.setStorage, Function.update_self, Function.update_of_ne haddr]

/-- Storing a byte through a present entry. -/
theorem storeByte (h : Inv ok ram swp s) {f off : Nat} {v : Byte} {c : Bool}
    (hp : p ∈ s.runningList) (hg : g < userPgns) (hf : f < 2 ^ 40) (hpte : s.pte p g = presentPte f)
    (hoff : off < pageSz) :
    Inv ok ram swp { s.poke .mram (f * pageSz + off) v with
      stores := ⟨p, g * pageSz + off, v, c⟩ :: s.stores } := by
  let t : Sys := { s.poke .mram (f * pageSz + off) v with
    stores := ⟨p, g * pageSz + off, v, c⟩ :: s.stores }
  exact
  { h with
    past := fun e he => by
      rcases List.mem_cons.mp he with rfl | he
      · exact h.fresh p hp
      · exact h.past e he
    content := fun q hq g' hg' off' hoff' e he => by
      change t.pteByte (s.pte q g') off' = some e.value
      rw [lastStore, List.find?_cons] at he
      split at he
      · rename_i hhit
        simp only [Bool.and_eq_true, beq_iff_eq] at hhit
        obtain ⟨rfl, haddr⟩ := hhit
        cases he
        have hgg : g' = g ∧ off' = off := by simp only [pageSz] at *; omega
        rw [hgg.1, hgg.2, hpte, Sys.pteByte_presentPte _ hf]
        simp [t, Sys.poke, Sys.setStorage]
      · rename_i hmiss
        refine (h.pteByte_poke v hp hg hf hpte hoff hq hg' hoff' fun heq => ?_).trans
          (h.content q hq g' hg' off' hoff' e he)
        simp [heq.1, heq.2] at hmiss }

end Inv

end Ossim.Mem
