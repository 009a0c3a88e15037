import Ossim.Mem.Fifo

/-!
Accesses that fail.

The page fault takes a swap frame before it looks for a victim, and it
copies, writes entries and moves list nodes before it is done. In the states
of a run only the first two of its exits are taken: there is no swap frame,
or there is no victim. No page list holds a page that is not in RAM, so a
search without a result has taken nothing out of them, and the swap frame is
put back where it came from.
-/

namespace Ossim.Mem

open Ossim.Lib

/-- Putting back the frame that was taken last. -/
theorem putFreefp_setSwapFree {s : Sys} (hhost : s.HostOk) {o : Nat} {rest : List Nat}
    (hfree : s.freeFpList .mswp = o :: rest) :
    memphyPutFreefp (s.setSwapFree rest) .mswp o = s := by
  have hlist : Function.update (s.setSwapFree rest).freeFpList .mswp
      (o :: (s.setSwapFree rest).freeFpList .mswp) = s.freeFpList := by
    simp only [Sys.setSwapFree, Function.update_self, Function.update_idem, ← hfree]
    exact Function.update_eq_self ..
  have hdraw : draw (s.setSwapFree rest).host = (true, s.host) := hhost.draw
  rw [memphyPutFreefp, hdraw]
  dsimp only
  rw [hlist]
  rfl

namespace Tracked

variable {ok : Prop} {log : Log} {s t : Sys} {p : Pid}

theorem swapOut_none (h : Tracked log s) (hinv : Inv ok [] [] s) (hhost : s.HostOk)
    (hp : p ∈ s.runningList) (hnone : swapOutVictimPage s p = (none, t)) : t = s := by
  have hout := h.swapOut hinv hp
  cases hfree : s.freeFpList .mswp with
  | nil =>
      rw [hout.full hfree] at hnone
      cases hnone
      rfl
  | cons o rest =>
      cases hvic : victimOf s p with
      | none =>
          rw [hout.none o rest hfree hvic, putFreefp_setSwapFree hhost hfree] at hnone
          cases hnone
          rfl
      | some vic =>
          obtain ⟨f, -, -, heq⟩ := hout.some o rest hfree vic.1 vic.2 hvic
          rw [heq] at hnone
          cases hnone

theorem pgGetpage_none {g : Nat} (h : Tracked log s) (hinv : Inv ok [] [] s) (hhost : s.HostOk)
    (hp : p ∈ s.runningList) (hg : g < userPgns) (hnone : Mem.pgGetpage s p g = (none, t)) :
    t = s := by
  cases pgGetpage_cases hnone with
  | absent => rfl
  | noFrame _ _ _ hout => exact h.swapOut_none hinv hhost hp hout
  | noCopy f u st hpres hswap hout hcopy =>
      obtain ⟨o, -, hslot, -, -, -, hcp⟩ := hinv.copyBack hp hg hpres hswap hout
      rw [hslot, hcp] at hcopy
      cases hcopy

theorem pgGetval_none {addr : Nat} (h : Tracked log s) (hinv : Inv ok [] [] s) (hhost : s.HostOk)
    (hp : p ∈ s.runningList) (haddr : addr < 2 ^ 56)
    (hnone : (Mem.pgGetval s p addr).1 = none) : (Mem.pgGetval s p addr).2 = s := by
  have hg : addr / 2 ^ 12 < userPgns := by simp only [userPgns]; omega
  have hsome := hinv.pgGetval_isSome hp hg
  rw [hnone] at hsome
  cases hpage : Mem.pgGetpage s p (addr / 2 ^ 12) with
  | mk r t =>
      rw [hpage] at hsome
      cases r with
      | some f => cases hsome
      | none =>
          rw [Mem.pgGetval, hpage]
          exact h.pgGetpage_none hinv hhost hp hg hpage

theorem pgSetval_false {addr : Nat} {v : Byte} {copied : Bool} (h : Tracked log s)
    (hinv : Inv ok [] [] s) (hhost : s.HostOk) (hp : p ∈ s.runningList) (haddr : addr < 2 ^ 56)
    (hfalse : (Mem.pgSetval s p addr v copied).1 = false) :
    (Mem.pgSetval s p addr v copied).2 = s := by
  have hg : addr / 2 ^ 12 < userPgns := by simp only [userPgns]; omega
  have hsome := hinv.pgSetval_isSome hp hg v copied
  rw [hfalse] at hsome
  cases hpage : Mem.pgGetpage s p (addr / 2 ^ 12) with
  | mk r t =>
      rw [hpage] at hsome
      cases r with
      | some f => cases hsome
      | none =>
          rw [Mem.pgSetval, hpage]
          exact h.pgGetpage_none hinv hhost hp hg hpage

end Tracked

/-- In every state of a run without system calls, on a host that never
refuses, a `READ` or `WRITE` that fails leaves the whole state as it was:
page tables, page lists, devices and free lists. -/
theorem failed_access_changes_nothing {ramSz swpSz : Nat} {ops : List Op} {s : Sys}
    (hrun : Run CallFreeStep (boot ramSz swpSz fun _ => true) ops s) {p : Pid}
    (hp : p ∈ s.runningList) (rgid offset : Nat) (v : Byte) :
    ((read s p rgid offset).1 = none → (read s p rgid offset).2 = s) ∧
    ((write s p rgid offset v).1 = false → (write s p rgid offset v).2 = s) := by
  obtain ⟨hinv, -⟩ := inv_of_run (hrun.mono fun _ _ _ h => h.lowStep)
  have htracked := Tracked.of_run hrun (.boot ramSz swpSz _) (.boot ramSz swpSz _)
    (fun p hp => (nomatch hp)) rfl
  have hhost := (hinv.host rfl).1
  constructor
  · intro hnone
    rw [read] at hnone ⊢
    split
    · rfl
    · rename_i hargs
      rw [if_neg hargs] at hnone
      split
      · rfl
      · rename_i addr haddr
        rw [haddr] at hnone
        exact htracked.pgGetval_none hinv hhost hp (userAccess_lt haddr) hnone
  · intro hfalse
    rw [write] at hfalse ⊢
    split
    · rfl
    · rename_i hargs
      rw [if_neg hargs] at hfalse
      split
      · rfl
      · rename_i addr haddr
        rw [haddr] at hfalse
        exact htracked.pgSetval_false hinv hhost hp (userAccess_lt haddr) hfalse

theorem callFree_fillRam : callFreeExec (boot 4096 4096 fun _ => true) fillRam = some ramFull := by
  have hget := (Option.some_get fillRam_isSome).symm
  exact exec_guarded_congr hget (by decide +kernel)

theorem callFree_atCapacity :
    Run CallFreeStep (boot 4096 4096 fun _ => true) (fillRam ++ [allocSecond]) atCapacity :=
  (run_of_callFreeExec callFree_fillRam).snoc
    ⟨ramFull_allocSecond.1, by decide, by decide +kernel⟩

theorem failed_access_changes_nothing_atCapacity :
    Run CallFreeStep (boot 4096 4096 fun _ => true) (fillRam ++ [allocSecond]) atCapacity ∧
      (read atCapacity 1 0 0).1 = none ∧ (read atCapacity 1 0 0).2 = atCapacity ∧
      (write atCapacity 1 0 0 7).1 = false ∧ (write atCapacity 1 0 0 7).2 = atCapacity := by
  have hsame := failed_access_changes_nothing callFree_atCapacity (p := 1) (by decide +kernel) 0 0 7
  have hread : (read atCapacity 1 0 0).1 = none := by decide +kernel
  have hwrite : (write atCapacity 1 0 0 7).1 = false := by decide +kernel
  exact ⟨callFree_atCapacity, hread, hsame.1 hread, hwrite, hsame.2 hwrite⟩

end Ossim.Mem
