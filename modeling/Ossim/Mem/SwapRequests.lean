import Ossim.Mem.FrameRequests
import Ossim.Mem.Victims

/-!
A page goes to the swap for a frame that was asked for, and for nothing else.

Between two requests an instruction sets entries to a frame or clears them, and
neither says that a page is in the swap. So whatever page an access or a growth
swaps out, one of its requests has swapped it out.
-/

namespace Ossim.Mem

open Ossim.Lib

variable {s t : Sys} {p q : Pid} {g : Nat}

/-! ### Entries -/

/-- An entry is what was set last, or what it was before. -/
theorem pteGetEntry_pteSetEntry_or (s : Sys) (p : Pid) (pgn v : Nat) (q : Pid) (g : Nat) :
    pteGetEntry (pteSetEntry s p pgn v).2 q g = v ∨
      pteGetEntry (pteSetEntry s p pgn v).2 q g = pteGetEntry s q g := by
  rw [pteSetEntry, pteGetEntry, pteGetEntry]
  cases getPdFromAddress (pgnAddr pgn) with
  | none => exact .inr rfl
  | some path =>
      cases getPdFromAddress (pgnAddr g) with
      | none => exact .inr rfl
      | some path' =>
          dsimp only
          rw [root_setRoot]
          split
          · rename_i hroot
            rw [← root_of_shared s hroot]
            cases hok : (Radix.write draw 0 path v (s.root p (pgnAddr pgn)) s.host).1 with
            | false => exact .inr (Radix.lookup_write_of_fail hok path')
            | true =>
                rw [Radix.lookup_write hok]
                split
                · exact .inl rfl
                · exact .inr rfl
          · exact .inr rfl

theorem pteGetEntry_walkPte (s : Sys) (p : Pid) (addr : Nat) (q : Pid) (g : Nat) :
    pteGetEntry (walkPte s p addr).2 q g = pteGetEntry s q g := by
  rw [walkPte, pteGetEntry, pteGetEntry]
  cases getPdFromAddress addr with
  | none => rfl
  | some path =>
      cases getPdFromAddress (pgnAddr g) with
      | none => rfl
      | some path' =>
          dsimp only
          rw [root_setRoot]
          split
          · rename_i hroot
            rw [Radix.lookup_touch, root_of_shared s hroot]
          · rfl

theorem pteGetEntry_memphyPutFreefp (s : Sys) (d : Dev) (x : Nat) (q : Pid) (g : Nat) :
    pteGetEntry (memphyPutFreefp s d x) q g = pteGetEntry s q g := by
  obtain ⟨-, h⟩ | ⟨-, h⟩ := memphyPutFreefp_cases s d x
  all_goals
    rw [h]
    rfl

theorem inSwap_of_entry (h : pteGetEntry t q g = pteGetEntry s q g) :
    inSwap t q g = inSwap s q g := by
  rw [inSwap, inSwap, h]

theorem inSwap_memphyPutFreefp (s : Sys) (d : Dev) (x : Nat) :
    inSwap (memphyPutFreefp s d x) q g = inSwap s q g :=
  inSwap_of_entry (pteGetEntry_memphyPutFreefp ..)

theorem inSwap_releaseFrameList (frames : List Nat) (s : Sys) :
    inSwap (releaseFrameList s frames) q g = inSwap s q g := by
  induction frames generalizing s with
  | nil => rfl
  | cons f frames ih => exact (ih _).trans (inSwap_memphyPutFreefp ..)

theorem inSwap_enlistPgnNode (s : Sys) (p : Pid) (pgn : Nat) :
    inSwap (enlistPgnNode s p pgn).2 q g = inSwap s q g :=
  inSwap_of_entry (pteGetEntry_enlistPgnNode ..)

theorem inSwap_swapCpPage (s : Sys) (src : Dev) (f : Nat) (dst : Dev) (o : Nat) :
    inSwap (swapCpPage s src f dst o).2 q g = inSwap s q g := by
  obtain ⟨st, hst⟩ := swapCpPage_eq s src f dst o
  rw [hst]
  rfl

theorem inSwap_getFreeVmrgArea (s : Sys) (p : Pid) (size : Int) :
    inSwap (getFreeVmrgArea s p size).2 q g = inSwap s q g := by
  obtain ⟨l, hl⟩ := getFreeVmrgArea_eq s p size
  rw [hl]
  rfl

theorem inSwap_memphyWrite {d : Dev} {addr : Nat} {v : Byte} (h : memphyWrite s d addr v = some t) :
    inSwap t q g = inSwap s q g := by
  rw [memphyWrite] at h
  split at h
  · cases h
  · split at h
    · cases h
      rfl
    · cases h

theorem inSwap_writeKernelMem {rgid offset : Nat} {v : Byte}
    (h : writeKernelMem s p rgid offset v = some t) : inSwap t q g = inSwap s q g := by
  simp only [writeKernelMem, Option.bind_eq_bind, Option.bind_eq_some_iff] at h
  obtain ⟨vaddr, -, phys, -, hw⟩ := h
  exact inSwap_memphyWrite hw

/-- An entry that is set to a frame, or cleared, puts no page into the swap. -/
theorem inSwap_pteSetEntry {pgn v : Nat} (hv : pagePresent v = true ∨ pageSwapped v = false)
    (h : inSwap (pteSetEntry s p pgn v).2 q g = true) : inSwap s q g = true := by
  obtain heq | heq := pteGetEntry_pteSetEntry_or s p pgn v q g
  · rw [inSwap, heq, Bool.and_eq_true, Bool.not_eq_true'] at h
    obtain hpres | hswap := hv
    · rw [hpres] at h
      cases h.1
    · rw [hswap] at h
      cases h.2
  · rw [inSwap_of_entry heq] at h
    exact h

theorem inSwap_pteSetFpn (p : Pid) (pgn fpn : Nat)
    (h : inSwap (pteSetFpn s p pgn fpn).2 q g = true) : inSwap s q g = true :=
  inSwap_pteSetEntry (.inl (pagePresent_presentPte fpn)) h

theorem inSwap_walkPages (p : Pid) (pgn left pgit : Nat) (s : Sys) :
    inSwap (walkPages p pgn left pgit s).2 q g = inSwap s q g := by
  induction left generalizing pgit s with
  | zero => rfl
  | succ left ih =>
      have hwalk : inSwap (walkPte s p (pgnAddr (pgn + pgit))).2 q g = inSwap s q g :=
        inSwap_of_entry (pteGetEntry_walkPte ..)
      rw [walkPages]
      generalize walkPte s p (pgnAddr (pgn + pgit)) = r at hwalk ⊢
      obtain ⟨_ | _, t⟩ := r
      · exact hwalk
      · exact (ih _ t).trans hwalk

theorem inSwap_mapFrames (p : Pid) (pgn left pgit : Nat) (frames : List Nat) (s : Sys)
    (h : inSwap (mapFrames p pgn left pgit frames s).2.2 q g = true) : inSwap s q g = true := by
  induction left generalizing pgit frames s with
  | zero => exact h
  | succ left ih =>
      cases frames with
      | nil => exact h
      | cons fpn next =>
          rw [mapFrames] at h
          refine inSwap_pteSetFpn p (pgn + pgit) fpn ?_
          generalize pteSetFpn s p (pgn + pgit) fpn = r at h ⊢
          obtain ⟨_ | _, t⟩ := r
          · dsimp only at h
            rw [inSwap_releaseFrameList] at h
            exact h
          · rw [← inSwap_enlistPgnNode t p (pgn + pgit)]
            dsimp only at h
            generalize enlistPgnNode t p (pgn + pgit) = r at h ⊢
            obtain ⟨_ | _, u⟩ := r
            · dsimp only at h
              rw [inSwap_releaseFrameList, inSwap_memphyPutFreefp] at h
              exact inSwap_pteSetEntry (.inr (by decide)) h
            · exact ih _ next u h

theorem inSwap_vmapPageRange (p : Pid) (addr : Nat) (n : Int) (frames : List Nat) (rg : VmRg)
    (h : inSwap (vmapPageRange s p addr n frames rg).2.2 q g = true) : inSwap s q g = true := by
  rw [vmapPageRange] at h
  dsimp only at h
  split at h
  · rw [inSwap_releaseFrameList] at h
    exact h
  · rw [← inSwap_walkPages p (addr / 2 ^ 12) n.toNat 0 s]
    generalize walkPages p (addr / 2 ^ 12) n.toNat 0 s = r at h ⊢
    obtain ⟨_ | _, t⟩ := r
    · dsimp only at h
      rw [inSwap_releaseFrameList] at h
      exact h
    · exact inSwap_mapFrames _ _ _ _ _ _ h

/-! ### Between the requests -/

/-- The instructions of users' memory: growth, accesses and copies. -/
def Inst.AsksFrames (ins : Inst) : Prop :=
  ins.opcode ∈ [.alloc, .read, .write, .copyFromUser, .copyToUser]

namespace Asking

/-- From the state `s` on, the page goes to the swap at requests only. -/
def Idle {α : Type} (q : Pid) (g : Nat) (final : α → Option Sys) (s : Sys) (m : Asking α) : Prop :=
  Requesting.Idle FrameRequest.answer FrameRequest.before Prod.snd
    (fun s => inSwap s q g = true) final s m

/-- The state in which an operation ends. -/
def stateOf {α : Type} (r : α × Sys) : Option Sys := some r.2

section

variable {α β : Type} {final : α → Option Sys} {final' : β → Option Sys} {m : Asking α}

theorem Idle.done_of_eq {a : α × Sys} (h : inSwap a.2 q g = inSwap s q g) :
    Idle q g stateOf s (.done a) := by
  rintro _ ⟨⟩ hswap
  exact h ▸ hswap

theorem Idle.of_eq (h : Idle q g final t m) (hst : inSwap t q g = inSwap s q g) :
    Idle q g final s m :=
  Requesting.Idle.of_imp (fun hswap => hst ▸ hswap) h

theorem Idle.bind {f : α → Asking β} (h : Idle q g final s m)
    (hf : ∀ a, ∃ t, final a = some t ∧ Idle q g final' t (f a)) :
    Idle q g final' s (m.bind f) :=
  Requesting.Idle.bind h hf

theorem Idle.map {f : α → β} (h : Idle q g final s m)
    (hf : ∀ a u, final' (f a) = some u → inSwap u q g = true →
      ∃ t, final a = some t ∧ inSwap t q g = true) :
    Idle q g final' s (m.map f) :=
  Requesting.Idle.map h hf

end

theorem idle_allocPages (caller : Pid) (n : Nat) (frames : List Nat) (s : Sys) :
    Idle q g (fun r => stateOf r.2) s (allocPages caller n frames s) := by
  induction n generalizing frames s with
  | zero =>
      rintro _ ⟨⟩ h
      exact h
  | succ n ih =>
      refine ⟨id, ?_⟩
      rw [FrameRequest.answer]
      obtain ⟨_ | fpn, t⟩ := getFrame s caller
      · rintro _ ⟨⟩ h
        rw [inSwap_releaseFrameList] at h
        exact h
      · dsimp only
        obtain ⟨_ | _, host⟩ := draw t.host
        · rintro _ ⟨⟩ h
          rw [inSwap_releaseFrameList, inSwap_memphyPutFreefp] at h
          exact h
        · exact (ih (frames ++ [fpn]) { t with host := host }).of_eq rfl

theorem idle_vmMapRam (s : Sys) (p : Pid) (mapstart : Nat) (n : Int) (rg : VmRg) :
    Idle q g (fun r => stateOf r.2) s (vmMapRam s p mapstart n rg) := by
  have halloc : Idle q g (fun r => stateOf r.2) s (allocPagesRange s p n) := by
    rw [allocPagesRange]
    split
    · rintro _ ⟨⟩ h
      exact h
    · exact idle_allocPages ..
  refine halloc.map fun r u hu hswap => ?_
  obtain ⟨ret, frames, t⟩ := r
  refine ⟨t, rfl, ?_⟩
  dsimp only at hu
  split at hu
  · cases hu
    exact hswap
  · split at hu
    · cases hu
      exact hswap
    · refine inSwap_vmapPageRange p mapstart n frames rg ?_
      generalize vmapPageRange t p mapstart n frames rg = r at hu ⊢
      obtain ⟨code, rg', v⟩ := r
      dsimp only at hu
      split at hu <;> cases hu <;> exact hswap

theorem idle_incVmaLimit (s : Sys) (p : Pid) (vmaid : Int) (incSz : Nat) (junk : VmRg) :
    Idle q g (fun r => r.map Prod.snd) s (incVmaLimit s p vmaid incSz junk) := by
  rw [incVmaLimit]
  obtain ⟨_ | _, host⟩ := draw s.host
  · rintro _ ⟨⟩ h
    exact h
  · dsimp only
    split
    · rintro _ ⟨⟩
    · split
      · rintro _ ⟨⟩ h
        exact h
      · refine Idle.map (Idle.of_eq (idle_vmMapRam ..) ?_) fun r u hu hswap => ?_
        · rfl
        · obtain ⟨ret, newrg, t⟩ := r
          refine ⟨t, rfl, ?_⟩
          dsimp only at hu
          split at hu <;> cases hu <;> exact hswap

theorem idle_alloc (s : Sys) (p : Pid) (rgid size : Nat) (junk : VmRg) :
    Idle q g (fun r => r.map Prod.snd) s (alloc s p rgid size junk) := by
  rw [alloc]
  split
  · rintro _ ⟨⟩ h
    exact h
  · have hsearch := inSwap_getFreeVmrgArea (q := q) (g := g) s p (toInt size)
    generalize getFreeVmrgArea s p (toInt size) = r at hsearch ⊢
    obtain ⟨_ | rg, t⟩ := r
    · dsimp only at hsearch ⊢
      refine Idle.of_eq ?_ hsearch
      split
      · rintro _ ⟨⟩ h
        exact h
      · refine (idle_incVmaLimit t p 0 (allocInc size) junk).map fun r u hu hswap => ?_
        obtain _ | ⟨sret, v⟩ := r
        · cases hu
        · refine ⟨v, rfl, ?_⟩
          dsimp only at hu
          split at hu
          · cases hu
            exact hswap
          · rw [← inSwap_getFreeVmrgArea v p (toInt size)]
            generalize getFreeVmrgArea v p (toInt size) = r at hu ⊢
            obtain ⟨_ | rg, w⟩ := r
            · cases hu
              exact hswap
            · cases hu
              exact hswap
    · rintro _ ⟨⟩ h
      exact hsearch ▸ h

theorem idle_pgGetpage (s : Sys) (p : Pid) (pgn : Nat) :
    Idle q g stateOf s (pgGetpage s p pgn) := by
  rw [pgGetpage]
  dsimp only
  split
  · exact .done_of_eq rfl
  · split
    · exact .done_of_eq rfl
    · refine ⟨id, ?_⟩
      rw [FrameRequest.answer]
      obtain ⟨_ | f, t⟩ := swapOutVictimPage s p
      · exact Idle.done_of_eq rfl
      · have hcopy := inSwap_swapCpPage (q := q) (g := g) t .mswp (pteSwp (pteGetEntry s p pgn))
          .mram f
        dsimp only
        generalize swapCpPage t .mswp (pteSwp (pteGetEntry s p pgn)) .mram f = r at hcopy ⊢
        obtain ⟨_ | _, u⟩ := r
        · exact Idle.done_of_eq hcopy
        · rintro _ ⟨⟩ h
          dsimp only at h hcopy
          rw [inSwap_enlistPgnNode] at h
          have hput := inSwap_pteSetFpn _ _ _ h
          rw [inSwap_memphyPutFreefp, hcopy] at hput
          exact hput

theorem idle_pgGetval (s : Sys) (p : Pid) (addr : Nat) :
    Idle q g stateOf s (pgGetval s p addr) := by
  refine (idle_pgGetpage s p (addr / 2 ^ 12)).map fun r u hu hswap => ?_
  obtain ⟨_ | fpn, t⟩ := r
  · cases hu
    exact ⟨_, rfl, hswap⟩
  · cases hu
    exact ⟨_, rfl, hswap⟩

theorem idle_pgSetval (s : Sys) (p : Pid) (addr : Nat) (v : Byte) (copied : Bool) :
    Idle q g stateOf s (pgSetval s p addr v copied) := by
  refine (idle_pgGetpage s p (addr / 2 ^ 12)).map fun r u hu hswap => ?_
  obtain ⟨_ | fpn, t⟩ := r
  · cases hu
    exact ⟨_, rfl, hswap⟩
  · refine ⟨t, rfl, ?_⟩
    dsimp only at hu
    cases hw : memphyWrite t .mram (fpn * pageSz + addr % 2 ^ 12) v with
    | none =>
        rw [hw] at hu
        cases hu
        exact hswap
    | some w =>
        rw [hw] at hu
        cases hu
        rw [← inSwap_memphyWrite hw]
        exact hswap

theorem read_eq (s : Sys) (p : Pid) (rgid offset : Nat) :
    read s p rgid offset =
      (userAddr s p rgid offset).elim (.done (none, s)) (pgGetval s p) := by
  rw [read]
  split
  · rename_i h
    rw [userAddr_of_refused (h.imp_right fun heq => heq.ge), Option.elim_none]
  · rename_i h
    rw [userAddr_of_lt fun hid => h (.inl hid)]
    cases userAccess (s.symrgtbl p rgid) offset <;> rfl

theorem readUserMem_eq (s : Sys) (p : Pid) (rgid offset : Nat) :
    readUserMem s p rgid offset =
      (userAddr s p rgid offset).elim (.done (none, s)) (pgGetval s p) := by
  rw [readUserMem]
  split
  · rename_i h
    rw [userAddr_of_refused h, Option.elim_none]
  · rename_i h
    rw [userAddr_of_lt fun hid => h (.inl hid)]
    cases userAccess (s.symrgtbl p rgid) offset <;> rfl

theorem write_eq (s : Sys) (p : Pid) (rgid offset : Nat) (v : Byte) :
    write s p rgid offset v =
      (userAddr s p rgid offset).elim (.done (false, s)) fun addr =>
        pgSetval s p addr v false := by
  rw [write]
  split
  · rename_i h
    rw [userAddr_of_refused (h.imp_right fun heq => heq.ge), Option.elim_none]
  · rename_i h
    rw [userAddr_of_lt fun hid => h (.inl hid)]
    cases userAccess (s.symrgtbl p rgid) offset <;> rfl

theorem writeUserMem_eq (s : Sys) (p : Pid) (rgid offset : Nat) (v : Byte) :
    writeUserMem s p rgid offset v =
      (userAddr s p rgid offset).elim (.done (false, s)) fun addr =>
        pgSetval s p addr v true := by
  rw [writeUserMem]
  split
  · rename_i h
    rw [userAddr_of_refused h, Option.elim_none]
  · rename_i h
    rw [userAddr_of_lt fun hid => h (.inl hid)]
    cases userAccess (s.symrgtbl p rgid) offset <;> rfl

/-- An access goes through the address of its byte, if there is one. -/
theorem Idle.access {α : Type} {rgid offset : Nat} {refused : α × Sys} {go : Nat → Asking (α × Sys)}
    {m : Asking (α × Sys)} (hm : m = (userAddr s p rgid offset).elim (.done refused) go)
    (hrefused : refused.2 = s) (hgo : ∀ addr, Idle q g stateOf s (go addr)) :
    Idle q g stateOf s m := by
  rw [hm]
  cases userAddr s p rgid offset with
  | none => exact .done_of_eq (by rw [hrefused])
  | some addr => exact hgo addr

theorem idle_read (s : Sys) (p : Pid) (rgid offset : Nat) :
    Idle q g stateOf s (read s p rgid offset) :=
  .access (read_eq ..) rfl (idle_pgGetval s p)

theorem idle_write (s : Sys) (p : Pid) (rgid offset : Nat) (v : Byte) :
    Idle q g stateOf s (write s p rgid offset v) :=
  .access (write_eq ..) rfl fun addr => idle_pgSetval s p addr v false

theorem idle_readUserMem (s : Sys) (p : Pid) (rgid offset : Nat) :
    Idle q g stateOf s (readUserMem s p rgid offset) :=
  .access (readUserMem_eq ..) rfl (idle_pgGetval s p)

theorem idle_writeUserMem (s : Sys) (p : Pid) (rgid offset : Nat) (v : Byte) :
    Idle q g stateOf s (writeUserMem s p rgid offset v) :=
  .access (writeUserMem_eq ..) rfl fun addr => idle_pgSetval s p addr v true

theorem idle_libread (s : Sys) (p : Pid) (source offset destination : Nat) :
    Idle q g (fun r => r.map Prod.snd) s (libread s p source offset destination) := by
  refine (idle_read s p source offset).map fun r u hu hswap => ?_
  obtain ⟨_ | data, t⟩ := r
  · cases hu
    exact ⟨_, rfl, hswap⟩
  · refine ⟨t, rfl, ?_⟩
    dsimp only at hu
    split at hu
    · cases hu
    · cases hu
      exact hswap

theorem idle_libwrite (s : Sys) (p : Pid) (v : Byte) (destination offset : Nat) :
    Idle q g stateOf s (libwrite s p v destination offset) := by
  refine (idle_write s p destination offset v).map fun r u hu hswap => ?_
  obtain ⟨_ | _, t⟩ := r
  · cases hu
    exact ⟨_, rfl, hswap⟩
  · cases hu
    exact ⟨_, rfl, hswap⟩

theorem idle_copyFromUser (p : Pid) (source destination offset left idx : Nat) (s : Sys) :
    Idle q g stateOf s (copyFromUser p source destination offset left idx s) := by
  induction left generalizing idx s with
  | zero => exact .done_of_eq rfl
  | succ left ih =>
      refine (idle_readUserMem s p source (toUint32 (offset + idx))).bind fun r => ?_
      obtain ⟨_ | data, t⟩ := r
      · exact ⟨t, rfl, .done_of_eq rfl⟩
      · refine ⟨t, rfl, ?_⟩
        dsimp only
        cases hw : writeKernelMem t p destination (toUint32 (offset + idx)) data with
        | none => exact .done_of_eq rfl
        | some u => exact (ih _ u).of_eq (inSwap_writeKernelMem hw)

theorem idle_copyToUser (p : Pid) (source destination offset left idx : Nat) (s : Sys) :
    Idle q g stateOf s (copyToUser p source destination offset left idx s) := by
  induction left generalizing idx s with
  | zero => exact .done_of_eq rfl
  | succ left ih =>
      rw [copyToUser]
      cases readKernelMem s p source (toUint32 (offset + idx)) with
      | none => exact .done_of_eq rfl
      | some data =>
          refine (idle_writeUserMem s p destination (toUint32 (offset + idx)) data).bind
            fun r => ?_
          obtain ⟨_ | _, t⟩ := r
          · exact ⟨t, rfl, .done_of_eq rfl⟩
          · exact ⟨t, rfl, ih _ t⟩

theorem Idle.some {m : Asking (Int × Sys)} (h : Idle q g stateOf s m) :
    Idle q g (fun r => r.map Prod.snd) s (m.map some) := by
  exact h.map fun r u hu hswap => ⟨u, hu, hswap⟩

theorem idle_run (s : Sys) (p : Pid) {ins : Inst} (junk : VmRg) (h : ins.AsksFrames) :
    Idle q g (fun r => r.map Prod.snd) s (run s p ins junk) := by
  rw [run]
  split
  · exact idle_alloc ..
  · refine Idle.some ?_
    rw [libkmemCopyFromUser]
    split
    · exact .done_of_eq rfl
    · exact idle_copyFromUser ..
  · refine Idle.some ?_
    rw [libkmemCopyToUser]
    split
    · exact .done_of_eq rfl
    · exact idle_copyToUser ..
  · exact idle_libread ..
  · exact (idle_libwrite ..).some
  · rename_i halloc hfrom hto hread hwrite
    simp only [Inst.AsksFrames, List.mem_cons, List.not_mem_nil, or_false] at h
    obtain h | h | h | h | h := h
    · exact absurd h halloc
    · exact absurd h hread
    · exact absurd h hwrite
    · exact absurd h hfrom
    · exact absurd h hto

end Asking

/-! ### The requests of an instruction -/

/-- An instruction, written down with the frames that it asks for. No page goes
to the swap but for one of them. -/
structure Asks (s : Sys) (p : Pid) (ins : Inst) (junk : VmRg) where
  asking : Asking (Option (Int × Sys))
  result_eq : asking.result FrameRequest.answer = run s p ins junk
  swapped : ins.AsksFrames → ∀ ret t, run s p ins junk = some (ret, t) →
    ∀ q g, inSwap s q g = false → inSwap t q g = true →
      ∃ r ∈ asking.requests FrameRequest.answer,
        inSwap r.before q g = false ∧ inSwap r.answer.2 q g = true

def runAsks (s : Sys) (p : Pid) (ins : Inst) (junk : VmRg) : Asks s p ins junk where
  asking := Asking.run s p ins junk
  result_eq := Asking.result_run s p ins junk
  swapped := by
    intro hasks ret t hrun q g hs ht
    have hfinal : ((Asking.run s p ins junk).result FrameRequest.answer).map Prod.snd = some t := by
      rw [Asking.result_run, hrun, Option.map_some]
    obtain ⟨r, hmem, hbefore, hafter⟩ :=
      Requesting.Idle.exists_request (Asking.idle_run s p junk hasks) hfinal (by simp [hs]) ht
    exact ⟨r, hmem, Bool.eq_false_iff.mpr hbefore, hafter⟩

/-- The frames that an instruction asks for, in this order. -/
def frameRequests (s : Sys) (p : Pid) (ins : Inst) (junk : VmRg) : List FrameRequest :=
  (runAsks s p ins junk).asking.requests FrameRequest.answer

theorem frameRequests_eq (s : Sys) (p : Pid) (ins : Inst) (junk : VmRg) :
    frameRequests s p ins junk = (Asking.run s p ins junk).requests FrameRequest.answer := rfl

end Ossim.Mem
