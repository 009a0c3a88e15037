import Mathlib.Data.List.Count
import Ossim.Mem.Fault

/-!
Kernel memory keeps the invariant.

A kernel allocation moves a run of consecutive frames to the used list and
maps each of them at the one address that belongs to it. A release clears
the entries of a range of pages and moves the frames those addresses stand
for back, whoever owns them. For the invariant it is enough that a frame
leaves the used list only after its entry was cleared, and this holds for
every range, because the address of a frame determines its number.
-/

namespace Ossim.Mem

open Ossim.Lib

/-! ### What kernel memory never touches -/

/-- `t` differs from `s` in the kernel page table and the lists of frames
only. -/
def KernelChange (s t : Sys) : Prop :=
  ∃ host krnlPgd freeFp usedFp, t =
    { s with host := host, krnlPgd := krnlPgd, freeFpList := freeFp, usedFpList := usedFp }

namespace KernelChange

variable {s t u : Sys}

theorem refl (s : Sys) : KernelChange s s := ⟨_, _, _, _, rfl⟩

theorem trans (h : KernelChange s t) (h' : KernelChange t u) : KernelChange s u := by
  obtain ⟨_, _, _, _, rfl⟩ := h
  obtain ⟨_, _, _, _, rfl⟩ := h'
  exact ⟨_, _, _, _, rfl⟩

theorem foldl {α : Type} {f : Sys → α → Sys} (hf : ∀ s a, KernelChange s (f s a)) (l : List α)
    (s : Sys) : KernelChange s (l.foldl f s) := by
  induction l generalizing s with
  | nil => exact refl s
  | cons a l ih => exact (hf s a).trans (ih (f s a))

end KernelChange

/-! ### Consecutive frames -/

/-- The search ends on consecutive numbers. The list is `pre ++ rest`, and
the last `run` elements of `pre` are consecutive and end with `prev`. -/
theorem findRun_spec {req prev run first start : Nat} {pre rest : List Nat}
    (hpre : pre.drop (pre.length - run) = List.range' first run) (hlen : run ≤ pre.length)
    (hlast : first + run = prev + 1) (h : findRun req prev run pre.length rest = some start) :
    ∃ first, ((pre ++ rest).drop start).take req = List.range' first req := by
  induction rest generalizing prev run first pre with
  | nil => cases h
  | cons fpn rest ih =>
      -- the same for `pre ++ [fpn]` and the new length of the run
      obtain ⟨run', hrun', first', hpre', hlen', hlast'⟩ : ∃ run',
          run' = (if fpn = prev + 1 then run + 1 else 1) ∧ ∃ first',
            (pre ++ [fpn]).drop ((pre ++ [fpn]).length - run') = List.range' first' run' ∧
            run' ≤ (pre ++ [fpn]).length ∧ first' + run' = fpn + 1 := by
        refine ⟨_, rfl, ?_⟩
        split
        · rename_i hnext
          refine ⟨first, ?_, by simpa using hlen, by omega⟩
          rw [List.length_append, List.length_singleton, Nat.add_sub_add_right,
            List.drop_append_of_le_length (Nat.sub_le _ _), hpre, List.range'_concat]
          congr 2
          omega
        · refine ⟨fpn, ?_, by simp, rfl⟩
          simp
      rw [findRun] at h
      rw [← hrun'] at h
      split at h
      · rename_i hreq
        cases h
        refine ⟨first', ?_⟩
        have hstart : pre.length + 1 - req = (pre ++ [fpn]).length - run' := by
          rw [List.length_append, List.length_singleton, hreq]
        rw [hstart, show pre ++ fpn :: rest = pre ++ [fpn] ++ rest by simp,
          List.drop_append_of_le_length (Nat.sub_le _ _), hpre', ← hreq,
          List.take_left' (by rw [List.length_range'])]
      · have hidx : pre.length + 1 = (pre ++ [fpn]).length := by simp
        rw [hidx] at h
        have := ih hpre' hlen' hlast' h
        rwa [List.append_assoc, List.singleton_append] at this

theorem selectStart_spec {req start : Nat} {list : List Nat}
    (h : selectStart req list = some start) :
    ∃ first, (list.drop start).take req = List.range' first req := by
  cases list with
  | nil => cases h
  | cons fpn rest =>
      rw [selectStart] at h
      split at h
      · rename_i hone
        cases h
        exact ⟨fpn, by rw [hone]; rfl⟩
      · have hone : [fpn].drop ([fpn].length - 1) = List.range' fpn 1 := rfl
        exact findRun_spec hone (Nat.le_refl _) rfl h

/-- The state after `frames` moved to the used list. -/
def framesUsed (s : Sys) (p : Pid) (frames : List Nat) : Sys :=
  { s with
    freeFpList := Function.update s.freeFpList .mram ((s.freeFpList .mram).diff frames)
    usedFpList := Function.update s.usedFpList .mram
      ((frames.map (UsedFrame.mk · p)).reverse ++ s.usedFpList .mram) }

theorem foldl_useFrame {p : Pid} {frames : List Nat} {s : Sys} (hnodup : frames.Nodup)
    (hfree : ∀ f ∈ frames, f ∈ s.freeFpList .mram) :
    frames.foldl (useFrame p) s = framesUsed s p frames := by
  induction frames generalizing s with
  | nil => simp [framesUsed, List.diff]
  | cons f frames ih =>
      rw [List.foldl_cons, useFrame, if_pos (hfree f (List.mem_cons_self ..))]
      rw [ih (List.nodup_cons.mp hnodup).2 ?_]
      · simp [framesUsed]
      · intro f' hf'
        simp only [Function.update_self]
        refine (List.mem_erase_of_ne ?_).mpr (hfree f' (List.mem_cons_of_mem f hf'))
        rintro rfl
        exact (List.nodup_cons.mp hnodup).1 hf'

/-- `kernel_allocate_contiguous_frames` moves all frames of a run, or
none. -/
theorem kernelAllocateContiguousFrames_cases (s : Sys) (p : Pid) (req : Int) :
    kernelAllocateContiguousFrames s p req = (none, s) ∨
    kernelAllocateContiguousFrames s p req = (none, { s with host := (draw s.host).2 }) ∨
    ∃ first, 0 < req ∧ (∀ f ∈ List.range' first req.toNat, f ∈ s.freeFpList .mram) ∧
      kernelAllocateContiguousFrames s p req = (some first,
        framesUsed { s with host := (draw s.host).2 } p (List.range' first req.toNat)) := by
  rw [kernelAllocateContiguousFrames]
  split
  · exact .inl rfl
  · rename_i hpos
    split
    · exact .inl rfl
    · split
      · rename_i h hd
        rw [hd]
        exact .inr (.inl rfl)
      · rename_i h hd
        rw [hd]
        dsimp only
        split
        · exact .inr (.inl rfl)
        · rename_i start hstart
          obtain ⟨first, hframes⟩ := selectStart_spec hstart
          have hfree : ∀ f ∈ List.range' first req.toNat, f ∈ s.freeFpList .mram := by
            intro f hf
            rw [← hframes] at hf
            exact (List.mem_insertionSort _).mp (List.mem_of_mem_drop (List.mem_of_mem_take hf))
          refine .inr (.inr ⟨first, by omega, hfree, ?_⟩)
          rw [hframes, foldl_useFrame (s := { s with host := h }) List.nodup_range' hfree]
          obtain ⟨n, hn⟩ : ∃ n, req.toNat = n + 1 := ⟨req.toNat - 1, by omega⟩
          rw [hn]
          rfl

/-! ### Entries of the kernel page table -/

/-- Only the page of an address matters for the walk. -/
theorem getPdFromAddress_congr {a b : Nat} (h : a / pageSz = b / pageSz) :
    getPdFromAddress a = getPdFromAddress b := by
  have hdiv (k : Nat) (hk : 12 ≤ k) : a / 2 ^ k = b / 2 ^ k := by
    obtain ⟨j, rfl⟩ := Nat.exists_eq_add_of_le hk
    rw [Nat.pow_add, ← Nat.div_div_eq_div_mul, ← Nat.div_div_eq_div_mul]
    exact congrArg (· / 2 ^ j) h
  have hpath : addrPath a = addrPath b := by
    simp only [addrPath, hdiv 48 (by decide), hdiv 39 (by decide), hdiv 30 (by decide),
      hdiv 21 (by decide), hdiv 12 (by decide)]
  simp only [getPdFromAddress, hdiv 57 (by decide), hdiv 56 (by decide), hpath]

/-- The walk to an entry determines the page. -/
theorem page_of_path {a b : Nat} {path : RadixPath 512 4} (ha : a < 2 ^ 64) (hb : b < 2 ^ 64)
    (hpa : getPdFromAddress a = some path) (hpb : getPdFromAddress b = some path) :
    a / pageSz = b / pageSz := by
  obtain ⟨rfl, hhalf⟩ := getPdFromAddress_cases ha hpa
  obtain ⟨heq, hhalf'⟩ := getPdFromAddress_cases hb hpb
  have hpath := addrPath_inj heq
  simp only [pageSz]
  omega

/-- What a change of one cell of the kernel page table does to the entries
of addresses. -/
theorem kernelPte_of_lookup {s t : Sys} {addr v : Nat} {path : RadixPath 512 4}
    (hlt : addr < 2 ^ 64)
    (hpath : getPdFromAddress addr = some path)
    (hlookup : ∀ path', t.krnlPgd.lookup 0 path' =
      if path' = path then v else s.krnlPgd.lookup 0 path') {a : Nat} (ha : a < 2 ^ 64) :
    kernelPte t a = if a / pageSz = addr / pageSz then v else kernelPte s a := by
  rw [kernelPte, kernelPte]
  cases hpa : getPdFromAddress a with
  | none =>
      rw [if_neg]
      intro hpage
      rw [getPdFromAddress_congr hpage, hpath] at hpa
      cases hpa
  | some path' =>
      dsimp only
      rw [hlookup]
      refine if_congr ⟨?_, fun hpage => ?_⟩ rfl rfl
      · rintro rfl
        exact page_of_path ha hlt hpa hpath
      · rw [getPdFromAddress_congr hpage, hpath] at hpa
        exact (Option.some.inj hpa).symm

/-- Clearing an entry. -/
theorem kernelPte_clearKernelPte {s : Sys} {addr a : Nat} (hlt : addr < 2 ^ 64)
    (ha : a < 2 ^ 64) :
    kernelPte (clearKernelPte s addr) a =
      if a / pageSz = addr / pageSz then 0 else kernelPte s a := by
  cases hpath : getPdFromAddress addr with
  | none =>
      have hsame : clearKernelPte s addr = s := by rw [clearKernelPte, hpath]
      rw [hsame]
      split
      · rename_i hpage
        rw [kernelPte, getPdFromAddress_congr hpage, hpath]
      · rfl
  | some path =>
      refine kernelPte_of_lookup hlt hpath (fun path' => ?_) ha
      rw [clearKernelPte, hpath]
      dsimp only
      cases hhas : s.krnlPgd.has path with
      | true => exact Radix.lookup_set hhas 0 path'
      | false =>
          rw [Radix.set_of_not_has hhas]
          split
          · rename_i heq
            rw [heq, Radix.lookup_of_not_has hhas]
          · rfl

/-- Mapping a page changes its entry only, and fails only for want of a
table. -/
theorem kernelMapPage_spec (s : Sys) {addr : Nat} (fpn : Nat) (hlow : 2 ^ 64 - 2 ^ 56 ≤ addr)
    (hlt : addr < 2 ^ 64) :
    ∃ krnlPgd host, (kernelMapPage s addr fpn).2 = { s with krnlPgd := krnlPgd, host := host } ∧
      (s.HostOk → (kernelMapPage s addr fpn).1 = true ∧ host = s.host) ∧
      ∀ a < 2 ^ 64, kernelPte (kernelMapPage s addr fpn).2 a =
        if (kernelMapPage s addr fpn).1 = true ∧ a / pageSz = addr / pageSz then presentPte fpn
        else kernelPte s a := by
  have hpath := getPdFromAddress_kernel hlow hlt
  have heq : kernelMapPage s addr fpn =
      let r := Radix.write draw 0 (addrPath addr) (presentPte fpn) s.krnlPgd s.host
      (r.1, { s with krnlPgd := r.2.1, host := r.2.2 }) := by
    rw [kernelMapPage, hpath]
  rw [heq]
  dsimp only
  refine ⟨_, _, rfl, fun hok => Radix.write_of_always hok.draw _, fun a ha => ?_⟩
  cases hw : (Radix.write draw 0 (addrPath addr) (presentPte fpn) s.krnlPgd s.host).1 with
  | true =>
      simp only [true_and]
      exact kernelPte_of_lookup hlt hpath (Radix.lookup_write hw) ha
  | false =>
      simp only [Bool.false_eq_true, false_and, if_false]
      rw [kernelPte, kernelPte]
      cases getPdFromAddress a with
      | none => rfl
      | some path => exact Radix.lookup_write_of_fail hw path

/-! ### Releasing pages -/

theorem clearKernelPte_eq (s : Sys) (addr : Nat) :
    ∃ krnlPgd, clearKernelPte s addr = { s with krnlPgd := krnlPgd } := by
  rw [clearKernelPte]
  split
  · exact ⟨_, rfl⟩
  · exact ⟨_, rfl⟩

theorem kernelChange_clearKernelPte (s : Sys) (addr : Nat) :
    KernelChange s (clearKernelPte s addr) := by
  obtain ⟨k, hk⟩ := clearKernelPte_eq s addr
  exact ⟨_, k, _, _, hk⟩

theorem kernelChange_unuseFrame (s : Sys) (fpn : Nat) : KernelChange s (unuseFrame s fpn) := by
  rw [unuseFrame]
  split
  · exact ⟨_, _, _, _, rfl⟩
  · exact .refl s

theorem kernelChange_release (s : Sys) (base : Nat) (pgnum : Int) :
    KernelChange s (kernelReleaseContiguousRegion s base pgnum) :=
  (KernelChange.foldl (fun s _ => kernelChange_clearKernelPte s _) _ s).trans
    (KernelChange.foldl (fun s _ => kernelChange_unuseFrame s _) _ _)

/-- The page of an address is one of the pages released. -/
def Released (base : Nat) (pages : List Nat) (a : Nat) : Prop :=
  ∃ page ∈ pages, a / pageSz = (base + page * pageSz) % 2 ^ 64 / pageSz

theorem kernelPte_foldl_clear (base : Nat) (pages : List Nat) (s : Sys) {a : Nat}
    (ha : a < 2 ^ 64) :
    (Released base pages a → kernelPte (pages.foldl (fun s page =>
      clearKernelPte s ((base + page * pageSz) % 2 ^ 64)) s) a = 0) ∧
    (¬Released base pages a → kernelPte (pages.foldl (fun s page =>
      clearKernelPte s ((base + page * pageSz) % 2 ^ 64)) s) a = kernelPte s a) := by
  induction pages generalizing s with
  | nil =>
      refine ⟨?_, fun _ => rfl⟩
      rintro ⟨_, hmem, -⟩
      cases hmem
  | cons page pages ih =>
      have hclear := kernelPte_clearKernelPte (s := s) (Nat.mod_lt (base + page * pageSz)
        (by decide : 2 ^ 64 > 0)) ha
      obtain ⟨hin, hout⟩ := ih (clearKernelPte s ((base + page * pageSz) % 2 ^ 64))
      rw [List.foldl_cons]
      constructor
      · rintro ⟨page', hmem, hpage'⟩
        rcases Classical.em (Released base pages a) with hrel | hrel
        · exact hin hrel
        · rw [hout hrel, hclear, if_pos]
          rcases List.mem_cons.mp hmem with rfl | hmem
          · exact hpage'
          · exact absurd ⟨page', hmem, hpage'⟩ hrel
      · intro hrel
        rw [hout fun ⟨page', hmem, hpage'⟩ => hrel ⟨page', List.mem_cons_of_mem _ hmem, hpage'⟩,
          hclear, if_neg fun hpage => hrel ⟨page, List.mem_cons_self .., hpage⟩]

theorem kernelPte_unuseFrame (s : Sys) (f a : Nat) :
    kernelPte (unuseFrame s f) a = kernelPte s a := by
  rw [unuseFrame]
  split <;> rfl

/-- Only the frame itself leaves the used list. -/
theorem mem_used_unuseFrame {s : Sys} {f : Nat} {fp : UsedFrame} (hne : fp.fpn ≠ f) :
    fp ∈ (unuseFrame s f).usedFpList .mram ↔ fp ∈ s.usedFpList .mram := by
  rw [unuseFrame]
  split
  · simp only [Function.update_self]
    exact List.mem_eraseP_of_neg (by simpa using hne)
  · exact Iff.rfl

/-- A frame in the used list is mapped at an address in the upper half. -/
theorem kernelFpn_released {base f : Nat} {pages : List Nat} {a : Nat} (ha : a < 2 ^ 64)
    (hf : ∃ page ∈ pages, f = kernelFpnFromVaddr base + page)
    (hpage : a / pageSz = kmemVaddrBase / pageSz + f) : Released base pages a := by
  obtain ⟨page, hmem, rfl⟩ := hf
  refine ⟨page, hmem, ?_⟩
  simp only [kernelFpnFromVaddr, kmemVaddrBase, pageSz] at *
  omega

/-! ### Copies -/

@[simp] theorem meta_readUserMem (s : Sys) (p : Pid) (rgid offset : Nat) :
    (readUserMem s p rgid offset).2.meta = s.meta := by
  rw [readUserMem]
  split
  · rfl
  · split
    · rfl
    · exact meta_pgGetval s p _

theorem meta_writeUserMem (s : Sys) (p : Pid) (rgid offset : Nat) (v : Byte) :
    ∃ stores, (writeUserMem s p rgid offset v).2.meta = { s.meta with stores := stores } := by
  rw [writeUserMem]
  split
  · exact ⟨_, rfl⟩
  · split
    · exact ⟨_, rfl⟩
    · exact meta_pgSetval s p _ v true

theorem kernelAccess_lt {s : Sys} {p : Pid} {rgid offset a : Nat}
    (haccess : kernelAccess s p rgid offset = some a) : a < 2 ^ 64 := by
  rw [kernelAccess] at haccess
  split at haccess
  · cases haccess
  · split at haccess
    · cases haccess
    · cases haccess
      exact Nat.mod_lt _ (by decide)

theorem writeKernelMem_eq {s t : Sys} {p : Pid} {rgid offset : Nat} {v : Byte}
    (h : writeKernelMem s p rgid offset v = some t) : ∃ st, t = { s with storage := st } := by
  simp only [writeKernelMem, Option.bind_eq_bind, Option.bind_eq_some_iff] at h
  obtain ⟨vaddr, -, phys, -, hwrite⟩ := h
  exact ⟨_, memphyWrite_eq_some hwrite⟩

/-! ### Allocating pages -/

theorem drawMany_of_always {h : Nat → Bool} (hh : draw h = (true, h)) (n : Nat) :
    drawMany n h = (true, h) := by
  induction n with
  | zero => rfl
  | succ n ih =>
      rw [drawMany, hh]
      exact ih

/-- Mapping writes the kernel page table and nothing else. -/
theorem kernelMapPages_eq (start first left page : Nat) (s : Sys) :
    ∃ krnlPgd host, (kernelMapPages start first left page s).2 =
      { s with krnlPgd := krnlPgd, host := host } := by
  induction left generalizing page s with
  | zero => exact ⟨_, _, rfl⟩
  | succ left ih =>
      have hmap : ∃ krnlPgd host,
          (kernelMapPage s ((start + page * pageSz) % 2 ^ 64) (first + page)).2 =
            { s with krnlPgd := krnlPgd, host := host } := by
        rw [kernelMapPage]
        split
        · exact ⟨_, _, rfl⟩
        · exact ⟨_, _, rfl⟩
      rw [kernelMapPages]
      generalize kernelMapPage s ((start + page * pageSz) % 2 ^ 64) (first + page) = r at hmap ⊢
      obtain ⟨_ | _, t⟩ := r
      · exact hmap
      · obtain ⟨krnlPgd, host, rfl⟩ := hmap
        exact ih (page + 1) _

theorem kernelChange_mapPages (start first left page : Nat) (s : Sys) :
    KernelChange s (kernelMapPages start first left page s).2 := by
  obtain ⟨_, _, h⟩ := kernelMapPages_eq start first left page s
  rw [h]
  exact ⟨_, _, _, _, rfl⟩

theorem kernelChange_alloc (s : Sys) (p : Pid) (size : Nat) :
    KernelChange s (kernelAllocContiguousRegion s p size).2 := by
  rw [kernelAllocContiguousRegion]
  split
  · exact .refl s
  · dsimp only
    generalize toInt (pageAlignSz size / pageSz) = n
    obtain heq | heq | ⟨first, -, -, heq⟩ := kernelAllocateContiguousFrames_cases s p n
    · rw [heq]
      exact .refl s
    · rw [heq]
      exact ⟨_, _, _, _, rfl⟩
    · rw [heq]
      have hframes : KernelChange s (framesUsed { s with host := (draw s.host).2 } p
          (List.range' first n.toNat)) := ⟨_, _, _, _, rfl⟩
      have hmap := hframes.trans
        (kernelChange_mapPages (kernelVaddrFromFpn first) first n.toNat 0 _)
      dsimp only
      split
      · rename_i t ht
        rw [ht] at hmap
        exact hmap.trans (kernelChange_release ..)
      · rename_i t ht
        rw [ht] at hmap
        exact hmap

/-! ### The invariant -/

namespace Inv

variable {ok : Prop} {ram swp : List Nat} {s t : Sys} {p : Pid} {f : Nat}

theorem lt_of_used (h : Inv ok ram swp s) {fp : UsedFrame} (hfp : fp ∈ s.usedFpList .mram) :
    fp.fpn < numfp (s.maxsz .mram) := by
  have heq := h.owners .mram fp.fpn
  have hpos : 0 < ((s.usedFpList .mram).map UsedFrame.fpn).count fp.fpn :=
    List.count_pos_iff.mpr (List.mem_map_of_mem hfp)
  by_contra hge
  rw [if_neg hge] at heq
  simp only [Sys.owners] at heq
  omega

theorem setKrnlPgd (h : Inv ok ram swp s) {krnlPgd : PageTable} {host : Nat → Bool}
    (hhost : ok → host = s.host)
    (hk : ∀ addr < 2 ^ 64, KernelPteOk { s with krnlPgd := krnlPgd } addr) :
    Inv ok ram swp { s with krnlPgd := krnlPgd, host := host } :=
  { h with
    kernel := hk
    host := fun hok =>
      ⟨by rw [Sys.HostOk, hhost hok]; exact (h.host hok).1, (h.host hok).2⟩ }

theorem framesUsed {frames : List Nat} (h : Inv ok ram swp s) (hnodup : frames.Nodup)
    (hfree : ∀ f ∈ frames, f ∈ s.freeFpList .mram) :
    Inv ok ram swp (Mem.framesUsed s p frames) := by
  refine h.setLists (fun d x => ?_) (fun fp hfp => ?_)
    rfl (fun hok => ⟨rfl, (h.host hok).2⟩)
  · cases d with
    | mswp => rfl
    | mram =>
        have hle : frames.count x ≤ (s.freeFpList .mram).count x := by
          rcases Classical.em (x ∈ frames) with hx | hx
          · rw [List.count_eq_one_of_mem hnodup hx]
            exact List.count_pos_iff.mpr (hfree x hx)
          · rw [List.count_eq_zero.mpr hx]
            exact Nat.zero_le _
        simp only [Function.update_self, List.count_diff, List.map_append, List.map_reverse,
          List.map_map, List.count_append, List.count_reverse]
        have hmap : frames.map (UsedFrame.fpn ∘ (UsedFrame.mk · p)) = frames := List.map_id _
        rw [hmap]
        omega
  · simp only [Function.update_self]
    exact List.mem_append_right _ hfp

theorem clearKernelPte (h : Inv ok ram swp s) {addr : Nat} (hlt : addr < 2 ^ 64) :
    Inv ok ram swp (Mem.clearKernelPte s addr) := by
  have hpte (a : Nat) (ha : a < 2 ^ 64) := kernelPte_clearKernelPte (s := s) hlt ha
  obtain ⟨k, hk⟩ := clearKernelPte_eq s addr
  rw [hk] at hpte ⊢
  refine h.setKrnlPgd (fun _ => rfl) fun a ha hpres => ?_
  rw [hpte a ha] at hpres ⊢
  split at hpres
  · cases hpres
  · rename_i hpage
    rw [if_neg hpage]
    exact h.kernel a ha hpres

theorem unuseFrame (h : Inv ok ram swp s)
    (hnone : ∀ a < 2 ^ 64, a / pageSz = kmemVaddrBase / pageSz + f →
      pagePresent (kernelPte s a) = false) : Inv ok ram swp (Mem.unuseFrame s f) := by
  rw [Mem.unuseFrame]
  split
  · rename_i hmem
    exact
    { h with
      owners := fun d x => by
        rw [← h.owners d x]
        simp only [Sys.owners]
        cases d with
        | mswp => rfl
        | mram =>
            have herase : ((s.usedFpList .mram).eraseP fun fp => fp.fpn == f).map UsedFrame.fpn =
                ((s.usedFpList .mram).map UsedFrame.fpn).erase f := by
              rw [List.erase_eq_eraseP', List.eraseP_map]
              rfl
            have hpos := List.count_pos_iff.mpr hmem
            simp only [Function.update_self, herase, List.count_cons, List.count_erase]
            change _ + tally s.runningList (s.owned .mram x) + _ = _
            rcases eq_or_ne f x with rfl | hne
            · simp only [beq_self_eq_true, if_true]
              omega
            · simp [hne]
      swpUsed := h.swpUsed
      kernel := fun a ha hpres => by
        obtain ⟨fp, hfp, hpte, hpage⟩ := h.kernel a ha hpres
        refine ⟨fp, ?_, hpte, hpage⟩
        have hne : fp.fpn ≠ f := by
          rintro rfl
          have hfalse := hnone a ha hpage
          change pagePresent (kernelPte s a) = true at hpres
          rw [hpres] at hfalse
          cases hfalse
        simp only [Function.update_self]
        exact (List.mem_eraseP_of_neg (by simpa using hne)).mpr hfp }
  · exact h

theorem release (h : Inv ok ram swp s) (base : Nat) (pgnum : Int) :
    Inv ok ram swp (kernelReleaseContiguousRegion s base pgnum) := by
  rw [kernelReleaseContiguousRegion]
  generalize List.range pgnum.toNat = pages
  have hcleared : Inv ok ram swp (pages.foldl (fun s page =>
      Mem.clearKernelPte s ((base + page * pageSz) % 2 ^ 64)) s) := by
    induction pages generalizing s with
    | nil => exact h
    | cons page pages ih => exact ih (h.clearKernelPte (Nat.mod_lt _ (by decide)))
  have hnone (a : Nat) (ha : a < 2 ^ 64) (hrel : Released base pages a) :
      pagePresent (kernelPte (pages.foldl (fun s page =>
        Mem.clearKernelPte s ((base + page * pageSz) % 2 ^ 64)) s) a) = false := by
    rw [(kernelPte_foldl_clear base pages s ha).1 hrel]
    rfl
  generalize pages.foldl (fun s page =>
    Mem.clearKernelPte s ((base + page * pageSz) % 2 ^ 64)) s = t at hcleared hnone
  -- the entries of all pages are cleared, so their frames may go one by one
  have hgo (l : List Nat) (hl : ∀ page ∈ l, page ∈ pages) (u : Sys) (hu : Inv ok ram swp u)
      (hpte : ∀ a, kernelPte u a = kernelPte t a) :
      Inv ok ram swp (l.foldl (fun s page =>
        Mem.unuseFrame s (kernelFpnFromVaddr base + page)) u) := by
    induction l generalizing u with
    | nil => exact hu
    | cons page l ih =>
        refine ih (fun page' hmem => hl page' (List.mem_cons_of_mem _ hmem)) _
          (hu.unuseFrame fun a ha hpage => ?_) fun a => ?_
        · rw [hpte]
          exact hnone a ha (kernelFpn_released ha
            ⟨page, hl page (List.mem_cons_self ..), rfl⟩ hpage)
        · rw [kernelPte_unuseFrame, hpte]
  exact hgo pages (fun _ hmem => hmem) t hcleared fun _ => rfl

theorem kernelMapPage {addr : Nat} (h : Inv ok ram swp s) (hlow : 2 ^ 64 - 2 ^ 56 ≤ addr)
    (hlt : addr < 2 ^ 64) (hused : ∃ fp ∈ s.usedFpList .mram, fp.fpn = f)
    (hpage : addr / pageSz = kmemVaddrBase / pageSz + f) :
    Inv ok ram swp (Mem.kernelMapPage s addr f).2 := by
  obtain ⟨krnlPgd, host, heq, hhost, hpte⟩ := kernelMapPage_spec s f hlow hlt
  rw [heq] at hpte ⊢
  refine h.setKrnlPgd (fun hok => (hhost (h.host hok).1).2) fun a ha hpres => ?_
  change pagePresent (kernelPte { s with krnlPgd := krnlPgd, host := host } a) = true at hpres
  change ∃ fp ∈ s.usedFpList .mram,
    kernelPte { s with krnlPgd := krnlPgd, host := host } a = presentPte fp.fpn ∧ _
  rw [hpte a ha] at hpres ⊢
  split
  · rename_i hhit
    obtain ⟨fp, hfp, rfl⟩ := hused
    exact ⟨fp, hfp, rfl, hhit.2.trans hpage⟩
  · rename_i hmiss
    rw [if_neg hmiss] at hpres
    exact h.kernel a ha hpres

theorem kernelMapPages {first left page : Nat} (h : Inv ok ram swp s)
    (hused : ∀ k, page ≤ k → k < page + left → ∃ fp ∈ s.usedFpList .mram, fp.fpn = first + k) :
    Inv ok ram swp (Mem.kernelMapPages (kernelVaddrFromFpn first) first left page s).2 := by
  induction left generalizing page s with
  | zero => exact h
  | succ left ih =>
      obtain ⟨fp, hfp, hfpn⟩ := hused page (Nat.le_refl _) (by omega)
      have hlt := h.lt_of_used hfp
      have hsmall := (h.usable .mram).numfp_lt
      have haddr : (kernelVaddrFromFpn first + page * pageSz) % 2 ^ 64 =
          kmemVaddrBase + (first + page) * pageSz := by
        simp only [kernelVaddrFromFpn, kmemVaddrBase, pageSz] at *
        omega
      have hlow : 2 ^ 64 - 2 ^ 56 ≤ kmemVaddrBase + (first + page) * pageSz := by
        simp only [kmemVaddrBase]
        omega
      have hhigh : kmemVaddrBase + (first + page) * pageSz < 2 ^ 64 := by
        simp only [kmemVaddrBase, pageSz] at *
        omega
      have hmap := h.kernelMapPage (f := first + page) hlow hhigh ⟨fp, hfp, hfpn⟩ (by
        simp only [kmemVaddrBase, pageSz]
        omega)
      obtain ⟨krnlPgd, host, heq, -, -⟩ := kernelMapPage_spec s (first + page) hlow hhigh
      rw [Mem.kernelMapPages, haddr]
      generalize Mem.kernelMapPage s (kmemVaddrBase + (first + page) * pageSz) (first + page) = r
        at hmap heq ⊢
      obtain ⟨_ | _, t⟩ := r
      · exact hmap
      · refine ih hmap fun k hk hk' => ?_
        simp only at heq
        rw [heq]
        exact hused k (by omega) (by omega)

theorem kernelAllocContiguousRegion (h : Inv ok ram swp s) (p : Pid) (size : Nat) :
    Inv ok ram swp (Mem.kernelAllocContiguousRegion s p size).2 := by
  rw [Mem.kernelAllocContiguousRegion]
  split
  · exact h
  · dsimp only
    generalize toInt (pageAlignSz size / pageSz) = n
    obtain heq | heq | ⟨first, hpos, hfree, heq⟩ := kernelAllocateContiguousFrames_cases s p n
    · rw [heq]
      exact h
    · rw [heq]
      exact h.drawHost
    · rw [heq]
      have hframes := h.drawHost.framesUsed (p := p) List.nodup_range' hfree
      have hmap : Inv ok ram swp (Mem.kernelMapPages (kernelVaddrFromFpn first) first n.toNat 0
          (Mem.framesUsed { s with host := (draw s.host).2 } p (List.range' first n.toNat))).2 :=
        hframes.kernelMapPages fun k _ hk =>
          ⟨⟨first + k, p⟩, by simp [Mem.framesUsed, List.mem_range'_1]; omega, rfl⟩
      dsimp only
      split
      · rename_i t ht
        rw [ht] at hmap
        exact hmap.release _ n
      · rename_i t ht
        rw [ht] at hmap
        exact hmap

/-! ### Instructions on kernel memory -/

theorem setPools (h : Inv ok ram swp s) (p : Pid) (pools : List KcachePool) :
    Inv ok ram swp (s.setPools p pools) :=
  h.setMeta fun q hq => ⟨Nat.le_refl _, h.aligned q hq⟩

theorem returnAddr {reg : Nat} {r : Option Nat × Sys} {ret : Int} (h : Inv ok ram swp r.2)
    (hr : Mem.returnAddr p reg r = some (ret, t)) : Inv ok ram swp t := by
  obtain ⟨_ | addr, u⟩ := r
  · cases hr
    exact h
  · rw [Mem.returnAddr] at hr
    split at hr
    · cases hr
    · cases hr
      exact h.setReg p _ _

theorem libkmemMalloc {size reg : Nat} {ret : Int} (h : Inv ok ram swp s)
    (hr : Mem.libkmemMalloc s p size reg = some (ret, t)) : Inv ok ram swp t := by
  have hinv : Inv ok ram swp (kmalloc s p reg size).2 := by
    have halloc := h.kernelAllocContiguousRegion p size
    rw [kmalloc]
    split
    · exact h
    · split
      · rename_i u hu
        rw [hu] at halloc
        exact halloc
      · rename_i base _ u hu
        rw [hu] at halloc
        exact halloc.setSymrg p reg _
  rw [Mem.libkmemMalloc] at hr
  split at hr
  · cases hr
    exact h
  · exact hinv.returnAddr hr

theorem libkmemCacheAlloc {reg id : Nat} {ret : Int} (h : Inv ok ram swp s)
    (hr : Mem.libkmemCacheAlloc s p reg id = some (ret, t)) : Inv ok ram swp t := by
  have hinv : Inv ok ram swp (kmemCacheAlloc s p reg id).2 := by
    rw [kmemCacheAlloc]
    split
    · exact h
    · split
      · exact h
      · dsimp only
        split
        · exact h
        · split
          · exact h
          · exact (h.setPools p _).setSymrg p reg _
  rw [Mem.libkmemCacheAlloc] at hr
  split at hr
  · cases hr
    exact h
  · exact hinv.returnAddr hr

theorem growPools (h : Inv ok ram swp s) (p : Pid) (id : Nat) :
    Inv ok ram swp (Mem.growPools s p id).2 := by
  have hdraw := h.drawHost
  rw [Mem.growPools]
  split
  · exact h
  · split
    · rename_i host hd
      rw [hd] at hdraw
      exact hdraw
    · rename_i host hd
      rw [hd] at hdraw
      exact hdraw.setPools p _

theorem libkmemCachePoolCreate (h : Inv ok ram swp s) (p : Pid) (size align id : Nat) :
    Inv ok ram swp (Mem.libkmemCachePoolCreate s p size align id).2 := by
  rw [Mem.libkmemCachePoolCreate]
  split
  · exact h
  · dsimp only
    split
    · exact h
    · have hgrow := h.growPools p id
      split
      · rename_i s₁ hs₁
        rw [hs₁] at hgrow
        exact hgrow
      · rename_i s₁ hs₁
        rw [hs₁] at hgrow
        split
        · exact hgrow
        · split
          · exact hgrow
          · have halloc := hgrow.kernelAllocContiguousRegion p size
            split
            · rename_i s₂ hs₂
              rw [hs₂] at halloc
              exact halloc
            · rename_i base sz s₂ hs₂
              rw [hs₂] at halloc
              have hmany : Inv ok ram swp
                  { s₂ with host := (drawMany (size / align * align / align + 1) s₂.host).2 } :=
                halloc.setHost fun hok => by
                  rw [drawMany_of_always (halloc.draw_host hok)]
              split
              · rename_i host hd
                rw [hd] at hmany
                exact (hmany.release base _).setPools p _
              · rename_i host hd
                rw [hd] at hmany
                exact hmany.setPools p _

/-- Kernel memory is mapped linearly, to used frames. -/
theorem of_translate {a phys : Nat} (h : Inv ok ram swp s) (ha : a < 2 ^ 64)
    (htrans : kernelTranslateVaddr s a = some phys) :
    a = kmemVaddrBase + phys ∧ phys / pageSz ∈ (s.usedFpList .mram).map UsedFrame.fpn := by
  rw [kernelTranslateVaddr] at htrans
  split at htrans
  · cases htrans
  · rename_i hpres
    obtain ⟨fp, hfp, hpte, hpage⟩ := h.kernel a ha (by simpa using hpres)
    have hlt := h.lt_of_used hfp
    have hsmall := (h.usable .mram).numfp_lt
    cases htrans
    rw [hpte, pteFpn_presentPte (by omega)]
    have hdiv : (fp.fpn * pageSz + a % 2 ^ 12) / pageSz = fp.fpn := by
      simp only [pageSz]
      omega
    rw [hdiv]
    refine ⟨?_, List.mem_map_of_mem hfp⟩
    simp only [kmemVaddrBase, pageSz] at *
    omega

/-- No page of a process is in a used frame. -/
theorem not_owns_of_used {x g : Nat} (h : Inv ok ram swp s) (hp : p ∈ s.runningList)
    (hx : x ∈ (s.usedFpList .mram).map UsedFrame.fpn) : owns .mram x (s.pte p g) = false := by
  by_contra hown
  exact (h.of_owns hp (by simpa using hown)).2.2.1 hx

/-- A byte written through the kernel page table is in a used frame. -/
theorem writeKernelMem {rgid offset : Nat} {v : Byte} (h : Inv ok ram swp s)
    (hw : Mem.writeKernelMem s p rgid offset v = some t) : Inv ok ram swp t := by
  simp only [Mem.writeKernelMem, Option.bind_eq_bind, Option.bind_eq_some_iff] at hw
  obtain ⟨vaddr, haccess, phys, hphys, hwrite⟩ := hw
  obtain ⟨-, hused⟩ := h.of_translate (kernelAccess_lt haccess) hphys
  rw [memphyWrite_eq_some hwrite]
  refine h.setFrame (x := phys / pageSz) (fun a ha => ?_) fun q hq g => h.not_owns_of_used hq hused
  refine Function.update_of_ne ?_ _ _
  rintro rfl
  exact ha rfl

theorem readUserMem {rgid offset : Nat} (h : Inv ok ram swp s) (hp : p ∈ s.runningList) :
    Inv ok ram swp (Mem.readUserMem s p rgid offset).2 := by
  rw [Mem.readUserMem]
  split
  · exact h
  · split
    · exact h
    · rename_i addr haddr
      exact (h.pgGetval hp (userAccess_lt haddr)).1

theorem writeUserMem {rgid offset : Nat} {v : Byte} (h : Inv ok ram swp s)
    (hp : p ∈ s.runningList) : Inv ok ram swp (Mem.writeUserMem s p rgid offset v).2 := by
  rw [Mem.writeUserMem]
  split
  · exact h
  · split
    · exact h
    · rename_i addr haddr
      exact h.pgSetval hp (userAccess_lt haddr)

theorem copyFromUser {source destination offset left idx : Nat} (h : Inv ok ram swp s)
    (hp : p ∈ s.runningList) :
    Inv ok ram swp (Mem.copyFromUser p source destination offset left idx s).2 := by
  induction left generalizing idx s with
  | zero => exact h
  | succ left ih =>
      have hread : Inv ok ram swp (Mem.readUserMem s p source (toUint32 (offset + idx))).2 :=
        h.readUserMem hp
      have hmeta := meta_readUserMem s p source (toUint32 (offset + idx))
      rw [Mem.copyFromUser]
      generalize Mem.readUserMem s p source (toUint32 (offset + idx)) = r at hread hmeta ⊢
      obtain ⟨_ | b, t⟩ := r
      · exact hread
      · dsimp only
        split
        · exact hread
        · rename_i u hu
          obtain ⟨st, rfl⟩ := writeKernelMem_eq hu
          refine ih (hread.writeKernelMem hu) ?_
          change p ∈ t.runningList
          rw [show t.runningList = s.runningList from congrArg Sys.Meta.runningList hmeta]
          exact hp

theorem copyToUser {source destination offset left idx : Nat} (h : Inv ok ram swp s)
    (hp : p ∈ s.runningList) :
    Inv ok ram swp (Mem.copyToUser p source destination offset left idx s).2 := by
  induction left generalizing idx s with
  | zero => exact h
  | succ left ih =>
      rw [Mem.copyToUser]
      split
      · exact h
      · rename_i b _
        have hwrite : Inv ok ram swp
            (Mem.writeUserMem s p destination (toUint32 (offset + idx)) b).2 := h.writeUserMem hp
        obtain ⟨stores, hmeta⟩ := meta_writeUserMem s p destination (toUint32 (offset + idx)) b
        generalize Mem.writeUserMem s p destination (toUint32 (offset + idx)) b = r
          at hwrite hmeta ⊢
        obtain ⟨_ | _, t⟩ := r
        · exact hwrite
        · refine ih hwrite ?_
          rw [show t.runningList = s.runningList from congrArg Sys.Meta.runningList hmeta]
          exact hp

end Inv

end Ossim.Mem
