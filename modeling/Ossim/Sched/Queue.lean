import Mathlib.Data.List.Basic
import Mathlib.Data.List.Perm.Basic
import Mathlib.Data.List.Nodup
import Mathlib.Logic.Function.Basic

/-!
The array queues of `queue.c`.

A queue is an array of process pointers with a fill count. The shifting
deletes are modelled as the loops they are; `toList` reads off the live
prefix of the array, and one lemma per operation says what it does to
that list. Everything above this module works with the lists.
-/

namespace Ossim.Sched

/-- `MAX_QUEUE_SIZE` of `queue.h`. -/
def maxQueueSize : Nat := 50

/-- `struct queue_t`. Entries at and above `size` are never read; the
default element stands for the null pointer. -/
structure QueueT (P : Type) where
  proc : Nat → P
  size : Nat

namespace QueueT

variable {P : Type}

/-- The processes in the queue, oldest first. -/
def toList (q : QueueT P) : List P := (List.range q.size).map q.proc

@[simp] theorem length_toList (q : QueueT P) : q.toList.length = q.size := by
  simp [toList]

/-- A queue whose fill count has just been cleared. -/
def init [Inhabited P] : QueueT P := ⟨fun _ => default, 0⟩

@[simp] theorem toList_init [Inhabited P] : (init : QueueT P).toList = [] := rfl

def empty (q : QueueT P) : Bool := q.size == 0

theorem empty_iff (q : QueueT P) : q.empty = true ↔ q.toList = [] := by
  simp [empty, ← List.length_eq_zero_iff]

/-- `enqueue`: `none` is the return code `-1`. -/
def enqueue (q : QueueT P) (p : P) : Option (QueueT P) :=
  if q.size ≥ maxQueueSize then none
  else some ⟨Function.update q.proc q.size p, q.size + 1⟩

/-- The loop `for (j = i; …; j++) proc[j] = proc[j + 1]`, `n` iterations
of it from index `i` on. -/
def shift (proc : Nat → P) (i : Nat) : Nat → Nat → P
  | 0 => proc
  | n + 1 => shift (Function.update proc i (proc (i + 1))) (i + 1) n

theorem shift_apply (proc : Nat → P) (i n j : Nat) :
    shift proc i n j = if i ≤ j ∧ j < i + n then proc (j + 1) else proc j := by
  induction n generalizing proc i with
  | zero => rw [shift, if_neg (by omega)]
  | succ n ih =>
      rw [shift, ih]
      by_cases hj : j = i
      · subst hj
        simp
      · have hne : j + 1 ≠ i ∨ ¬(i + 1 ≤ j ∧ j < i + 1 + n) := by omega
        by_cases hin : i + 1 ≤ j ∧ j < i + 1 + n
        · rw [if_pos hin, if_pos (by omega), Function.update_of_ne (by omega)]
        · rw [if_neg hin, if_neg (by omega), Function.update_of_ne hj]

/-- `dequeue`: the front process, if there is one. -/
def dequeue (q : QueueT P) : Option P × QueueT P :=
  if q.size = 0 then (none, q)
  else (some (q.proc 0), ⟨shift q.proc 0 (q.size - 1), q.size - 1⟩)

/-- Removal at index `i`: the tail moves down by one. -/
def removeAt (q : QueueT P) (i : Nat) : QueueT P :=
  ⟨shift q.proc i (q.size - 1 - i), q.size - 1⟩

theorem toList_enqueue {q q' : QueueT P} {p : P} (h : q.enqueue p = some q') :
    q'.toList = q.toList ++ [p] := by
  unfold enqueue at h
  split at h
  · cases h
  · cases h
    simp only [toList, List.range_succ, List.map_append, List.map_cons, List.map_nil,
      Function.update_self]
    congr 1
    refine List.map_congr_left fun i hi => ?_
    rw [Function.update_of_ne (by have := List.mem_range.mp hi; omega)]

theorem enqueue_isSome_iff (q : QueueT P) (p : P) :
    (q.enqueue p).isSome ↔ q.toList.length < maxQueueSize := by
  unfold enqueue
  split <;> simp <;> omega

theorem toList_removeAt (q : QueueT P) {i : Nat} (hi : i < q.size) :
    (q.removeAt i).toList = q.toList.eraseIdx i := by
  refine List.ext_getElem (by simp [removeAt, List.length_eraseIdx, hi]) fun j h₁ h₂ => ?_
  simp only [length_toList, removeAt] at h₁
  rw [List.getElem_eraseIdx]
  simp only [toList, removeAt, List.getElem_map, List.getElem_range, shift_apply]
  by_cases hji : j < i
  · rw [if_neg (by omega), dif_pos hji]
  · rw [if_pos (by omega), dif_neg hji]

theorem dequeue_of_cons {q : QueueT P} {p : P} {rest : List P} (h : q.toList = p :: rest) :
    q.dequeue.1 = some p ∧ q.dequeue.2.toList = rest := by
  have hsize : 0 < q.size := by rw [← length_toList, h]; simp
  have hhead : q.proc 0 = p := by
    have hget : q.toList[0]? = some p := by rw [h]; rfl
    simpa [toList, hsize] using hget
  have htail : (q.removeAt 0).toList = rest := by
    rw [toList_removeAt q hsize, h]; rfl
  have hdeq : q.dequeue = (some (q.proc 0), q.removeAt 0) := by
    simp [dequeue, removeAt, Nat.pos_iff_ne_zero.mp hsize]
  rw [hdeq]
  exact ⟨congrArg some hhead, htail⟩

/-- `purgequeue`, and the delete loop of `finish_proc`: scan for the first
entry that holds `p` and close the gap; nothing happens if there is none. -/
def purge [DecidableEq P] (q : QueueT P) (p : P) : QueueT P :=
  if q.toList.idxOf p < q.size then q.removeAt (q.toList.idxOf p) else q

theorem toList_purge [DecidableEq P] (q : QueueT P) (p : P) :
    (q.purge p).toList = q.toList.erase p := by
  unfold purge
  split
  next h => rw [toList_removeAt q h, List.eraseIdx_idxOf_eq_erase]
  next h =>
    have hnot : p ∉ q.toList := by
      rw [← List.idxOf_lt_length_iff, length_toList]
      exact h
    exact (List.erase_of_not_mem hnot).symm

end QueueT

end Ossim.Sched
