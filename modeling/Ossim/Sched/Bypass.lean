import Mathlib.Algebra.BigOperators.Group.Finset.Piecewise
import Mathlib.Algebra.Order.BigOperators.Group.Finset
import Ossim.Lib.Run
import Ossim.Sched.Mlq

/-!
Bounded bypass of the dispatcher.

A waiting process can be passed over only by dispatches that some budget
pays for. `bypassLeft` counts what is left to pay with: while its own
queue has budget, only higher priorities come first; once the budget is
gone, every other queue may use up the current round and the higher
priorities may start the next one. Every call that serves another queue
lowers the count, whichever of the two refills happens in it, and no
arrival raises it.
-/

namespace Ossim.Sched

open Ossim.Lib

/-- The most calls that can pass over the front process of queue `p`. -/
def bypassBound (p : Nat) : Nat :=
  ∑ q ∈ (Finset.range maxPrio).erase p, (maxPrio - q) + ∑ q ∈ Finset.range p, (maxPrio - q)

/-- The calls that can still pass over the front process of queue `p`. -/
def bypassLeft (slot : Nat → Nat) (p : Nat) : Nat :=
  if 0 < slot p then ∑ q ∈ Finset.range p, slot q
  else ∑ q ∈ (Finset.range maxPrio).erase p, slot q + ∑ q ∈ Finset.range p, fullSlot q

/-- No budget ever exceeds the one a round starts with. -/
def Budgeted (s : SchedT) : Prop := ∀ q, s.slot q ≤ fullSlot q

theorem bypassLeft_le {slot : Nat → Nat} (h : ∀ q, slot q ≤ fullSlot q) (p : Nat) :
    bypassLeft slot p ≤ bypassBound p := by
  unfold bypassLeft bypassBound
  split
  · exact le_trans (Finset.sum_le_sum fun q _ => h q) (Nat.le_add_left _ _)
  · exact Nat.add_le_add_right (Finset.sum_le_sum fun q _ => h q) _

/-! ### Budgets -/

theorem budgeted_init : Budgeted initScheduler := fun _ => le_refl _

theorem housekeeping_le {slot : Nat → Nat} (h : ∀ q, slot q ≤ fullSlot q) (q : Nat) :
    housekeeping slot q ≤ fullSlot q := by
  obtain ⟨-, hk⟩ | ⟨-, hk⟩ := housekeeping_cases slot
  · rw [hk]
  · rw [hk]
    exact h q

theorem update_pred_le {slot : Nat → Nat} (h : ∀ q, slot q ≤ fullSlot q) (p q : Nat) :
    Function.update slot p (slot p - 1) q ≤ fullSlot q := by
  by_cases hq : q = p
  · subst hq
    rw [Function.update_self]
    exact le_trans (Nat.sub_le _ _) (h q)
  · rw [Function.update_of_ne hq]
    exact h q

theorem budgeted_getMlqProc {s : SchedT} (h : Budgeted s) : Budgeted (getMlqProc s).2 := by
  intro q
  obtain ⟨-, -, -, -, hslot⟩ | ⟨p, x, -, hd⟩ := getMlqProc_spec s
  · rw [hslot]
  · obtain ⟨-, -, hslot⟩ | ⟨-, -, hslot⟩ := hd.slots
    · rw [hslot]
      exact housekeeping_le (update_pred_le h p) q
    · rw [hslot]
      exact housekeeping_le (update_pred_le (fun _ => le_refl _) p) q

theorem budgeted_step {prio : ProcId → Nat} {s t : SchedT} {op : SchedOp} (h : Budgeted s)
    (hstep : Step (schedStep prio) s op t) : Budgeted t := by
  unfold Step at hstep
  cases op with
  | add p =>
      intro q
      rw [(addMlqProc_spec hstep).2.1]
      exact h q
  | put p =>
      intro q
      rw [(prio_lt_of_putMlqProc hstep).2.1]
      exact h q
  | get =>
      cases hstep
      exact budgeted_getMlqProc h
  | finish p =>
      cases hstep
      exact h

/-! ### A call that serves another queue pays for itself -/

theorem sum_update_pred {slot : Nat → Nat} {S : Finset Nat} {q : Nat} (hq : q ∈ S)
    (hpos : 0 < slot q) :
    ∑ r ∈ S, Function.update slot q (slot q - 1) r + 1 = ∑ r ∈ S, slot r := by
  rw [Finset.sum_update_of_mem hq, ← Finset.add_sum_erase S slot hq,
    Finset.sdiff_singleton_eq_erase]
  omega

/-- Case of pass 1: queue `q` was served out of its remaining budget. -/
theorem bypassLeft_pass_one {slot : Nat → Nat} {p q : Nat} (hp : p < maxPrio)
    (hq : q < maxPrio) (hqp : q ≠ p) (hpos : 0 < slot q) (hlt : 0 < slot p → q < p) :
    bypassLeft (housekeeping (Function.update slot q (slot q - 1))) p < bypassLeft slot p := by
  have hsame : Function.update slot q (slot q - 1) p = slot p :=
    Function.update_of_ne (Ne.symm hqp) _ _
  by_cases hslot : 0 < slot p
  · -- the queue has budget: only the sum over higher priorities counts
    obtain ⟨hzero, -⟩ | ⟨-, hk⟩ := housekeeping_cases (Function.update slot q (slot q - 1))
    · have := hzero p hp
      omega
    · have hsum := sum_update_pred (Finset.mem_range.mpr (hlt hslot)) hpos
      rw [hk]
      simp only [bypassLeft, hsame, hslot, if_true]
      omega
  · have hmem : q ∈ (Finset.range maxPrio).erase p :=
      Finset.mem_erase.mpr ⟨hqp, Finset.mem_range.mpr hq⟩
    have hsum := sum_update_pred hmem hpos
    obtain ⟨-, hk⟩ | ⟨-, hk⟩ := housekeeping_cases (Function.update slot q (slot q - 1))
    · -- the round ended with this dispatch: the next one starts with full budgets
      have hfull : 0 < fullSlot p := Nat.sub_pos_of_lt hp
      rw [hk]
      simp only [bypassLeft, hfull, if_true, hslot, if_false]
      omega
    · rw [hk]
      simp only [bypassLeft, hsame, hslot, if_false]
      omega

/-- Case of pass 2: the round was over, and queue `q` opens the next one. -/
theorem bypassLeft_pass_two {slot : Nat → Nat} {p q : Nat} (hp : p < maxPrio) (hqp : q < p)
    (hslot : slot p = 0) :
    bypassLeft (housekeeping (Function.update fullSlot q (fullSlot q - 1))) p <
      bypassLeft slot p := by
  have hsame : Function.update fullSlot q (fullSlot q - 1) p = fullSlot p :=
    Function.update_of_ne (by omega) _ _
  have hfull : 0 < fullSlot p := Nat.sub_pos_of_lt hp
  have hqpos : 0 < fullSlot q := Nat.sub_pos_of_lt (by omega)
  obtain ⟨hzero, -⟩ | ⟨-, hk⟩ := housekeeping_cases (Function.update fullSlot q (fullSlot q - 1))
  · have := hzero p hp
    omega
  · have hsum := sum_update_pred (Finset.mem_range.mpr hqp) hqpos
    rw [hk]
    simp only [bypassLeft, hsame, hfull, if_true, hslot, Nat.lt_irrefl, if_false]
    omega

theorem bypassLeft_dispatch {s t : SchedT} {p q : Nat} {x : ProcId} (hp : p < maxPrio)
    (hwait : s.ready p ≠ []) (hd : Dispatches s q x t) (hqp : q ≠ p) :
    bypassLeft t.slot p < bypassLeft s.slot p := by
  obtain ⟨hpos, hleast, hslot⟩ | ⟨hzero, hleast, hslot⟩ := hd.slots
  · rw [hslot]
    refine bypassLeft_pass_one hp hd.lt hqp hpos fun hsp => ?_
    by_contra hge
    have := hleast p (by omega) hwait
    omega
  · rw [hslot]
    refine bypassLeft_pass_two hp ?_ (hzero p hp hwait)
    by_contra hge
    exact hwait (hleast p (by omega))

/-! ### Whole call sequences -/

/-- `x`, at index `k` of queue `p` in `s`, is what a later `get_mlq_proc`
call of `ops` returns, after fewer than `n` other such calls. The state `u`
before that call has lost exactly the `k` older processes of the queue. -/
def DispatchedWithin (prio : ProcId → Nat) (s : SchedT) (ops : List SchedOp) (p k : Nat)
    (x : ProcId) (n : Nat) : Prop :=
  ∃ pre post u arrived, ops = pre ++ SchedOp.get :: post ∧ pre.count .get < n ∧
    Run (Step (schedStep prio)) s pre u ∧ u.ready p = (s.ready p).drop k ++ arrived ∧
    (getMlqProc u).1 = some x ∧
    (getMlqProc u).2.ready p = (s.ready p).drop (k + 1) ++ arrived

/-- Prefixing a call that only appends to queue `p`. -/
theorem DispatchedWithin.cons_arrival {prio : ProcId → Nat} {s t : SchedT} {op : SchedOp}
    {ops : List SchedOp} {p k n : Nat} {x : ProcId} {new : List ProcId}
    (hstep : Step (schedStep prio) s op t) (hop : op ≠ .get)
    (happ : t.ready p = s.ready p ++ new) (hk : k < (s.ready p).length)
    (h : DispatchedWithin prio t ops p k x n) : DispatchedWithin prio s (op :: ops) p k x n := by
  obtain ⟨pre, post, u, arrived, rfl, hcount, hrun, hbefore, hget, hafter⟩ := h
  refine ⟨op :: pre, post, u, new ++ arrived, rfl, ?_, .cons hstep hrun, ?_, hget, ?_⟩
  · rwa [List.count_cons_of_ne hop]
  · rw [hbefore, happ, List.drop_append_of_le_length (by omega), List.append_assoc]
  · rw [hafter, happ, List.drop_append_of_le_length (by omega), List.append_assoc]

/-- The induction over the calls. The bound pays for the remaining bypasses
of the front process and for a full set of bypasses for each process queued
in front of index `k`. -/
theorem dispatchedWithin_of_count {prio : ProcId → Nat} {p : Nat} (hp : p < maxPrio)
    {x : ProcId} {ops : List SchedOp} :
    ∀ {s t : SchedT} {k : Nat}, Budgeted s → Run (Step (schedStep prio)) s ops t →
      (s.ready p)[k]? = some x →
      bypassLeft s.slot p + k * (bypassBound p + 1) < ops.count .get →
      DispatchedWithin prio s ops p k x
        (bypassLeft s.slot p + k * (bypassBound p + 1) + 1) := by
  induction ops with
  | nil =>
      intro s t k _ _ _ hcount
      simp at hcount
  | cons op ops ih =>
      intro s t k hb hrun hk hcount
      obtain ⟨hlen, -⟩ := List.getElem?_eq_some_iff.mp hk
      cases hrun with
      | @cons _ u _ _ _ hstep hrest =>
      have hbu : Budgeted u := budgeted_step hb hstep
      -- calls other than `get` leave the budgets alone and can only append
      have harrival : ∀ new, op ≠ .get → u.slot = s.slot → u.ready p = s.ready p ++ new →
          DispatchedWithin prio s (op :: ops) p k x
            (bypassLeft s.slot p + k * (bypassBound p + 1) + 1) := by
        intro new hop hslot happ
        rw [List.count_cons_of_ne hop] at hcount
        have hk' : (u.ready p)[k]? = some x := by
          rw [happ, List.getElem?_append_left hlen, hk]
        have := ih hbu hrest hk' (by rw [hslot]; exact hcount)
        rw [hslot] at this
        exact this.cons_arrival hstep hop happ hlen
      cases op with
      | add q =>
          obtain ⟨-, hslot, -, hready, -⟩ := addMlqProc_spec hstep
          by_cases hpq : p = prio q
          · exact harrival [q] (by simp) hslot (by rw [hready, if_pos hpq])
          · exact harrival [] (by simp) hslot (by rw [hready, if_neg hpq, List.append_nil])
      | put q =>
          have hready := ready_putMlqProc hstep p
          have hslot := (prio_lt_of_putMlqProc hstep).2.1
          by_cases hpq : p = prio q
          · exact harrival [q] (by simp) hslot (by rw [hready, if_pos hpq])
          · exact harrival [] (by simp) hslot (by rw [hready, if_neg hpq, List.append_nil])
      | finish q =>
          cases hstep
          exact harrival [] (by simp) rfl (List.append_nil _).symm
      | get =>
          have hu : (getMlqProc s).2 = u := by simpa [Step, schedStep] using hstep
          rw [List.count_cons_self] at hcount
          have hwait : s.ready p ≠ [] := List.length_pos_iff.mp (by omega)
          obtain ⟨hempty, -⟩ | ⟨q, y, hy, hd⟩ := getMlqProc_spec s
          · exact absurd (hempty p hp) hwait
          rw [hu] at hd
          by_cases hqp : q = p
          · subst hqp
            cases k with
            | zero =>
                have hxy : y = x := by
                  rw [hd.head] at hk
                  simpa using hk
                subst hxy
                refine ⟨[], ops, s, [], rfl, by simp, .nil s, by simp, hy, ?_⟩
                rw [hu, hd.head]
                simp
            | succ k =>
                have hk' : (u.ready q)[k]? = some x := by
                  rw [hd.head] at hk
                  simpa using hk
                have hle := bypassLeft_le hbu q
                have hmul : (k + 1) * (bypassBound q + 1) =
                    k * (bypassBound q + 1) + (bypassBound q + 1) := Nat.succ_mul _ _
                obtain ⟨pre, post, v, arrived, rfl, hpre, hrun', hbefore, hget, hafter⟩ :=
                  ih hbu hrest hk' (by omega)
                refine ⟨.get :: pre, post, v, arrived, rfl, ?_, .cons hstep hrun', ?_, hget, ?_⟩
                · rw [List.count_cons_self]
                  omega
                · rw [hbefore, hd.head, List.drop_succ_cons]
                · rw [hafter, hd.head, List.drop_succ_cons]
          · have hlt := bypassLeft_dispatch hp hwait hd hqp
            have hsame := hd.other p (Ne.symm hqp)
            obtain ⟨pre, post, v, arrived, rfl, hpre, hrun', hbefore, hget, hafter⟩ :=
              ih hbu hrest (by rw [hsame]; exact hk) (by omega)
            refine ⟨.get :: pre, post, v, arrived, rfl, ?_, .cons hstep hrun', ?_, hget, ?_⟩
            · rw [List.count_cons_self]
              omega
            · rw [hbefore, hsame]
            · rw [hafter, hsame]

/-- In every scheduler state that calls can lead to, the process at index
`k` of ready queue `p` is dispatched by at most the
`(k + 1) * (bypassBound p + 1)`-th following `get_mlq_proc` call, whatever
the other calls in between add to any queue. -/
theorem getMlqProc_bounded_bypass (prio : ProcId → Nat) {before ops : List SchedOp}
    {s t : SchedT} (hreach : Run (Step (schedStep prio)) initScheduler before s)
    {p k : Nat} {x : ProcId} (hp : p < maxPrio) (hk : (s.ready p)[k]? = some x)
    (hrun : Run (Step (schedStep prio)) s ops t)
    (hcount : (k + 1) * (bypassBound p + 1) ≤ ops.count .get) :
    DispatchedWithin prio s ops p k x ((k + 1) * (bypassBound p + 1)) := by
  have hb : Budgeted s := hreach.invariant (fun _ _ _ h hstep => budgeted_step h hstep)
    budgeted_init
  have hle := bypassLeft_le hb p
  have hmul : (k + 1) * (bypassBound p + 1) = k * (bypassBound p + 1) + (bypassBound p + 1) :=
    Nat.succ_mul _ _
  obtain ⟨pre, post, u, arrived, hops, hpre, hrest⟩ :=
    dispatchedWithin_of_count hp hb hrun hk (by omega)
  exact ⟨pre, post, u, arrived, hops, by omega, hrest⟩

theorem run_replicate_get (prio : ProcId → Nat) (n : Nat) (s : SchedT) :
    ∃ t, Run (Step (schedStep prio)) s (List.replicate n .get) t := by
  induction n generalizing s with
  | zero => exact ⟨s, .nil s⟩
  | succ n ih =>
      obtain ⟨t, ht⟩ := ih (getMlqProc s).2
      exact ⟨t, .cons rfl ht⟩

/-- Process 9 has the highest priority. -/
def nineFirst (x : ProcId) : Nat := if x = 9 then 0 else 5

theorem queuedBehind_isSome :
    (exec (schedStep nineFirst) initScheduler [.add 9, .add 7, .add 8]).isSome = true := by
  decide

/-- Process 8 waits behind process 7 in queue 5, and process 9 in queue 0. -/
def queuedBehind : SchedT :=
  (exec (schedStep nineFirst) initScheduler [.add 9, .add 7, .add 8]).get queuedBehind_isSome

theorem getMlqProc_bounded_bypass_queuedBehind :
    queuedBehind.ready 0 = [9] ∧ DispatchedWithin nineFirst queuedBehind
      (List.replicate ((1 + 1) * (bypassBound 5 + 1)) .get) 5 1 8
      ((1 + 1) * (bypassBound 5 + 1)) := by
  have hreach : Run (Step (schedStep nineFirst)) initScheduler [.add 9, .add 7, .add 8]
      queuedBehind :=
    run_of_exec (Option.some_get queuedBehind_isSome).symm
  have hready : queuedBehind.ready 5 = [7, 8] := by
    decide
  obtain ⟨t, ht⟩ := run_replicate_get nineFirst ((1 + 1) * (bypassBound 5 + 1)) queuedBehind
  refine ⟨by decide, getMlqProc_bounded_bypass nineFirst hreach (by decide) ?_ ht ?_⟩
  · rw [hready]
    rfl
  · rw [List.count_replicate_self]

end Ossim.Sched
