import Ossim.Mem.Alike
import Ossim.Mem.Flat

/-!
What two runs show a process that differ in what the others write.

Frames are handed on as they are: no route by which one reaches a process
clears it, so a byte that the process has not stored yet may be that of
another process. A byte it has stored with `WRITE` is its own, and whether
an access succeeds never depends on bytes.
-/

namespace Ossim.Mem

open Ossim.Lib

theorem lastStore_same {p : Pid} {l l' : List Store} (h : List.Forall₂ (SameStore p) l l')
    {addr : Nat} {e : Store} (he : lastStore l p addr = some e) :
    ∃ e', lastStore l' p addr = some e' ∧ SameStore p e e' := by
  induction h with
  | nil => cases he
  | @cons x y l l' hxy _ ih =>
      rw [lastStore, List.find?_cons] at he ⊢
      rw [hxy.pid, hxy.addr]
      split at he
      · cases he
        exact ⟨y, rfl, hxy⟩
      · exact ih he

/-- Two runs that differ in what processes other than `p` write. -/
theorem alike_of_runs {ramSz swpSz : Nat} {host : Nat → Bool} {ops ops' : List Op} {s t : Sys}
    {p : Pid} (hops : List.Forall₂ (SameBut p) ops ops')
    (hrun : Run LowStep (boot ramSz swpSz host) ops s)
    (hrun' : Run LowStep (boot ramSz swpSz host) ops' t) : Alike p s t := by
  refine Run.lockstep (Q := Alike p) (fun s t op op' s' t' hst hop hs ht => ?_) hops hrun hrun'
    ⟨_, _, _, rfl, .nil⟩
  have hrel := hst.step hop
  rw [hs.1, ht.1] at hrel
  cases hrel with
  | some hst => exact hst

/-- Reading a byte that `p` last stored with a value of its own. -/
theorem pgGetval_same {ramSz swpSz : Nat} {host : Nat → Bool} {ops ops' : List Op} {s t : Sys}
    {p : Pid} (hops : List.Forall₂ (SameBut p) ops ops')
    (hrun : Run LowStep (boot ramSz swpSz host) ops s)
    (hrun' : Run LowStep (boot ramSz swpSz host) ops' t) (hp : p ∈ s.runningList) {addr : Nat}
    (haddr : addr < 2 ^ 56) {e : Store} (he : lastStore s.stores p addr = some e)
    (hown : e.copied = false) : (pgGetval s p addr).1 = (pgGetval t p addr).1 := by
  have hst := alike_of_runs hops hrun hrun'
  have hbyte := ((inv_of_run hrun).1.pgGetval hp haddr).2
  have hbyte' := ((inv_of_run hrun').1.pgGetval (hst.runningList ▸ hp) haddr).2
  obtain ⟨e', he', hsame⟩ : ∃ e', lastStore t.stores p addr = some e' ∧ SameStore p e e' := by
    obtain ⟨_, _, _, rfl, hstores⟩ := hst
    exact lastStore_same hstores he
  have hpid : e.pid = p := by
    have hfound := List.find?_some he
    simp only [Bool.and_eq_true, beq_iff_eq] at hfound
    exact hfound.1
  have hget := hst.pgGetval p addr
  generalize pgGetval s p addr = r at hbyte hget ⊢
  generalize pgGetval t p addr = r' at hbyte' hget ⊢
  cases hget with
  | none _ => rfl
  | some b b' _ => rw [hbyte b e rfl he, hbyte' b' e' rfl he', hsame.value hpid hown]

/-- A `READ` succeeds in both runs or in neither, and at an address where
the process last stored a byte of its own both yield that byte. -/
theorem read_noninterference {ramSz swpSz : Nat} {host : Nat → Bool} {ops ops' : List Op}
    {s t : Sys} {p : Pid} (hops : List.Forall₂ (SameBut p) ops ops')
    (hrun : Run LowStep (boot ramSz swpSz host) ops s)
    (hrun' : Run LowStep (boot ramSz swpSz host) ops' t) (hp : p ∈ s.runningList)
    (rgid offset : Nat) :
    (read s p rgid offset).1.isSome = (read t p rgid offset).1.isSome ∧
      ∀ addr e, userAccess (s.symrgtbl p rgid) offset = some addr →
        lastStore s.stores p addr = some e → e.copied = false →
        (read s p rgid offset).1 = (read t p rgid offset).1 := by
  have hst := alike_of_runs hops hrun hrun'
  constructor
  · have hread := hst.read p rgid offset
    generalize read s p rgid offset = r at hread ⊢
    generalize read t p rgid offset = r' at hread ⊢
    cases hread with
    | none _ => rfl
    | some b b' _ => rfl
  · intro addr e haddr he hown
    rw [read, read, hst.symrgtbl]
    split
    · rfl
    · rw [haddr]
      exact pgGetval_same hops hrun hrun' hp (userAccess_lt haddr) he hown

/-- Process 1 stores a byte, and process 2 stores the byte 9. -/
def ownByte (v : BitVec 64) : List Op :=
  [.load, .load, .inst 1 { opcode := .alloc, arg0 := 100, arg1 := 0 } ⟨0, 0⟩,
    .inst 1 { opcode := .write, arg0 := v, arg1 := 0, arg2 := 0 } ⟨0, 0⟩,
    .inst 2 { opcode := .alloc, arg0 := 100, arg1 := 0 } ⟨0, 0⟩,
    .inst 2 { opcode := .write, arg0 := 9, arg1 := 0, arg2 := 0 } ⟨0, 0⟩]

theorem ownByte_isSome (v : BitVec 64) (hv : v = 5 ∨ v = 6) :
    (lowExec (boot 8192 0 fun _ => true) (ownByte v)).isSome = true := by
  rcases hv with rfl | rfl <;> decide +kernel

theorem read_noninterference_ownByte : ∃ s t,
    Run LowStep (boot 8192 0 fun _ => true) (ownByte 5) s ∧
    Run LowStep (boot 8192 0 fun _ => true) (ownByte 6) t ∧ 2 ∈ s.runningList ∧
    userAccess (s.symrgtbl 2 0) 0 = some 0 ∧ lastStore s.stores 2 0 = some ⟨2, 0, 9, false⟩ ∧
    (read s 2 0 0).1 = some 9 ∧ (read s 2 0 0).1 = (read t 2 0 0).1 := by
  have hrun := run_of_lowExec (Option.some_get (ownByte_isSome 5 (.inl rfl))).symm
  have hrun' := run_of_lowExec (Option.some_get (ownByte_isSome 6 (.inr rfl))).symm
  have hops : List.Forall₂ (SameBut 2) (ownByte 5) (ownByte 6) :=
    .cons (.same _) (.cons (.same _) (.cons (.same _) (.cons (.write (by decide) ..)
      (.cons (.same _) (.cons (.same _) .nil)))))
  refine ⟨_, _, hrun, hrun', ?_, ?_, ?_, ?_,
    (read_noninterference hops hrun hrun' ?_ 0 0).2 0 ⟨2, 0, 9, false⟩ ?_ ?_ rfl⟩
  all_goals decide +kernel

/-! ### Recycled frames -/

/-- Process 1 stores a byte and exits; process 2 gets its frame. -/
def recycled (v : BitVec 64) : List Op :=
  [.load, .load, .inst 1 { opcode := .alloc, arg0 := 100, arg1 := 0 } ⟨0, 0⟩,
    .inst 1 { opcode := .write, arg0 := v, arg1 := 0, arg2 := 0 } ⟨0, 0⟩, .exit 1,
    .inst 2 { opcode := .alloc, arg0 := 100, arg1 := 0 } ⟨0, 0⟩]

/-- Process 2 gets the frame as kernel memory and copies the byte from
there into a page of its own. -/
def recycledCopy (v : BitVec 64) : List Op :=
  [.load, .load, .inst 1 { opcode := .alloc, arg0 := 100, arg1 := 0 } ⟨0, 0⟩,
    .inst 1 { opcode := .write, arg0 := v, arg1 := 0, arg2 := 0 } ⟨0, 0⟩, .exit 1,
    .inst 2 { opcode := .kmalloc, arg0 := 100, arg1 := 1 } ⟨0, 0⟩,
    .inst 2 { opcode := .alloc, arg0 := 100, arg1 := 0 } ⟨0, 0⟩,
    .inst 2 { opcode := .copyToUser, arg0 := 1, arg1 := 0, arg2 := 0, arg3 := 1 } ⟨0, 0⟩]

theorem recycled_isSome (v : BitVec 64) (hv : v = 5 ∨ v = 6) :
    (lowExec (boot 8192 0 fun _ => true) (recycled v)).isSome = true := by
  rcases hv with rfl | rfl <;> decide +kernel

theorem recycledCopy_isSome (v : BitVec 64) (hv : v = 5 ∨ v = 6) :
    (lowExec (boot 8192 0 fun _ => true) (recycledCopy v)).isSome = true := by
  rcases hv with rfl | rfl <;> decide +kernel

/-- Process 2 reads what process 1 has written: in a byte it never stored,
and in one it copied from kernel memory that it never wrote. -/
theorem recycled_frame_leaks :
    (List.Forall₂ (SameBut 2) (recycled 5) (recycled 6) ∧
      ∃ s t, Run LowStep (boot 8192 0 fun _ => true) (recycled 5) s ∧
        Run LowStep (boot 8192 0 fun _ => true) (recycled 6) t ∧
        lastStore s.stores 2 0 = none ∧
        (read s 2 0 0).1 = some 5 ∧ (read t 2 0 0).1 = some 6) ∧
    (List.Forall₂ (SameBut 2) (recycledCopy 5) (recycledCopy 6) ∧
      ∃ s t, Run LowStep (boot 8192 0 fun _ => true) (recycledCopy 5) s ∧
        Run LowStep (boot 8192 0 fun _ => true) (recycledCopy 6) t ∧
        (read s 2 0 0).1 = some 5 ∧ (read t 2 0 0).1 = some 6) := by
  refine ⟨⟨?_, ?_⟩, ?_, ?_⟩
  · exact .cons (.same _) (.cons (.same _) (.cons (.same _) (.cons (.write (by decide) ..)
      (.cons (.same _) (.cons (.same _) .nil)))))
  · refine ⟨_, _, run_of_lowExec (Option.some_get (recycled_isSome 5 (.inl rfl))).symm,
      run_of_lowExec (Option.some_get (recycled_isSome 6 (.inr rfl))).symm, ?_, ?_, ?_⟩
    all_goals decide +kernel
  · exact .cons (.same _) (.cons (.same _) (.cons (.same _) (.cons (.write (by decide) ..)
      (.cons (.same _) (.cons (.same _) (.cons (.same _) (.cons (.same _) .nil)))))))
  · refine ⟨_, _, run_of_lowExec (Option.some_get (recycledCopy_isSome 5 (.inl rfl))).symm,
      run_of_lowExec (Option.some_get (recycledCopy_isSome 6 (.inr rfl))).symm, ?_, ?_⟩
    all_goals decide +kernel

end Ossim.Mem
