import Ossim.Lib.Scan
import Ossim.Sched.Mlq

/-!
The configuration file: `read_config` of `os.c`.

The first line gives the time slot and the numbers of CPUs and processes. The
line after it may give the sizes of the memories. There is nothing to mark it:
it is taken for one if five numbers can be read from it, and for the line of
the first process otherwise. Every other line is the one of a process.

What can go wrong with a process ends the simulator and names its line, except
for a path that is too long: it is written past the end of its buffer, nothing
is reported, and what the simulator does from there on is not defined.
-/

namespace Ossim.Files

open Lib.Scan

/-- What `ld_processes` holds of a process. -/
structure Entry where
  startTime : Nat
  path : List Char
  prio : Nat
  deriving DecidableEq

/-- The variables that `read_config` sets. -/
structure Settings where
  timeSlot : Int
  numCpus : Int
  numProcesses : Int
  memramsz : Nat
  memswpsz : List Nat
  processes : List Entry
  deriving DecidableEq

/-- What `read_config` reports before it exits. Lines are counted from 1. -/
inductive ConfigError where
  /-- `Cannot find configure file at %s` -/
  | notFound
  /-- `Invalid process config line %d in %s` -/
  | invalidLine (line : Nat)
  /-- `Invalid MLQ priority %lu for process entry %d in %s` -/
  | invalidPriority (prio line : Nat)
  deriving DecidableEq

/-- Why `read_config` does not return. -/
inductive ConfigStop where
  | reported (err : ConfigError)
  /-- `strcat` writes past the buffer of the path of this line. There is no
  message and no defined outcome. -/
  | overflow (line : Nat)
  deriving DecidableEq

/-- `input/proc/` -/
def procDir : List Char := "input/proc/".toList

/-- The format of a process. -/
def entryFormat : List Directive := [.unsigned 64, .space, .word 99, .space, .unsigned 64]

/-- The body of the loop of `read_config` after the scan. The buffer of the
path has 100 bytes. -/
def readEntry (i : Nat) (scanned : List Value) : Except ConfigStop Entry :=
  match scanned with
  | [.nat startTime, .text proc, .nat prio] =>
    if prio < Sched.maxPrio then
      if (procDir ++ cstr proc).length < 100 then .ok ⟨startTime, procDir ++ cstr proc, prio⟩
      else .error (.overflow (i + 1))
    else .error (.reported (.invalidPriority prio (i + 1)))
  | _ => .error (.reported (.invalidLine (i + 1)))

/-- The scan of entry `i`; the first one may have been read already, as
`first_proc_line`. -/
def scanEntry (first : Option (List Char)) (i : Nat) (file : List Char) : List Value × List Char :=
  match i, first with
  | 0, some line => ((scanf entryFormat (cstr line)).1, file)
  | _, _ => scanf (entryFormat ++ [.space]) file

/-- The loop of `read_config`, from entry `i` on. -/
def readEntries (first : Option (List Char)) :
    (n i : Nat) → List Char → Except ConfigStop (List Entry)
  | 0, _, _ => .ok []
  | n + 1, i, file =>
    (readEntry i (scanEntry first i file).1).bind fun e =>
      (readEntries first n (i + 1) (scanEntry first i file).2).map (e :: ·)

def numbersOf (vs : List Value) : List Nat :=
  vs.filterMap fun
    | .nat n => some n
    | _ => none

/-- `memramsz` and `memswpsz` where the file does not give them. -/
def defaultSizes : List Nat := [0x100000000, 0x1000000, 0, 0, 0]

/-- The sizes of the memories (`memramsz` and `memswpsz`), `first_proc_line`
if it is used, and the rest of the file. -/
def readMemory (file : List Char) : List Nat × Option (List Char) × List Char :=
  match fgets 256 file with
  | none => (defaultSizes, none, file)
  | some (line, file) =>
    let vs := (scanf [.unsigned 64, .space, .unsigned 64, .space, .unsigned 64, .space,
      .unsigned 64, .space, .unsigned 64, .space, .char] (cstr line)).1
    if 5 ≤ vs.length then (numbersOf (vs.take 5), none, file)
    else (defaultSizes, some line, file)

/-- A static variable after a call that assigned `vs`. -/
def intAfter (vs : List Value) (i : Nat) : Int :=
  match vs[i]? with
  | some (.int n) => n
  | _ => 0

/-- `read_config` -/
def readConfig (file : Option (List Char)) : Except ConfigStop Settings :=
  match file with
  | none => .error (.reported .notFound)
  | some file =>
    let (vs, file) := scanf [.signed 32, .space, .signed 32, .space, .signed 32, .space] file
    let (sizes, first, file) := readMemory file
    (readEntries first (intAfter vs 2).toNat 0 file).map fun processes =>
      { timeSlot := intAfter vs 0
        numCpus := intAfter vs 1
        numProcesses := intAfter vs 2
        memramsz := sizes.headD 0
        memswpsz := sizes.tail
        processes }

/-! ### What is accepted -/

/-- A process that the scheduler can take. -/
structure Entry.Valid (e : Entry) : Prop where
  startTime : e.startTime < 2 ^ 64
  prio : e.prio < Sched.maxPrio
  path : ∃ name, e.path = procDir ++ name ∧ name.length < 89 ∧ (∀ c ∈ name, isSpace c = false)

def ConfigError.line : ConfigError → Nat
  | .notFound => 0
  | .invalidLine line | .invalidPriority _ line => line

def ConfigStop.line : ConfigStop → Nat
  | .reported err => err.line
  | .overflow line => line

/-- The file after the scans of `n` entries from entry `i` on. -/
def afterEntries (first : Option (List Char)) : (n i : Nat) → List Char → List Char
  | 0, _, file => file
  | n + 1, i, file => afterEntries first n (i + 1) (scanEntry first i file).2

section Accepted

variable {i n : Nat} {e : Entry} {es : List Entry} {stop : ConfigStop} {vs : List Value}
  {first : Option (List Char)} {file cs rest : List Char}

theorem readEntry_ok (h : readEntry i vs = .ok e) :
    ∃ proc, vs = [.nat e.startTime, .text proc, .nat e.prio] ∧ e.prio < Sched.maxPrio ∧
      e.path = procDir ++ cstr proc ∧ e.path.length < 100 := by
  unfold readEntry at h
  split at h
  · rename_i startTime proc prio
    split_ifs at h with hprio hlen
    cases h
    exact ⟨proc, rfl, hprio, rfl, hlen⟩
  · cases h

theorem readEntry_error (h : readEntry i vs = .error stop) : stop.line = i + 1 := by
  unfold readEntry at h
  split at h
  · split_ifs at h
    · cases h
      rfl
    · cases h
      rfl
  · cases h
    rfl

/-- Only a name that does not fit the buffer is written past its end. -/
theorem readEntry_overflow {line : Nat} (h : readEntry i vs = .error (.overflow line)) :
    ∃ startTime proc prio, vs = [.nat startTime, .text proc, .nat prio] ∧ prio < Sched.maxPrio ∧
      89 ≤ (cstr proc).length := by
  unfold readEntry at h
  split at h
  · rename_i startTime proc prio
    split_ifs at h with hprio hlen
    · refine ⟨startTime, proc, prio, rfl, hprio, ?_⟩
      have hdir : procDir.length = 11 := by decide
      rw [List.length_append] at hlen
      omega
    · cases h
  · cases h

theorem from_of_scanEntry {v : Value} (hv : v ∈ (scanEntry first i file).1) :
    ∃ d ∈ entryFormat ++ [.space], v.From d := by
  unfold scanEntry at hv
  split at hv
  · obtain ⟨d, hd, hfrom⟩ := from_of_scanf rfl v hv
    exact ⟨d, List.mem_append_left _ hd, hfrom⟩
  · exact from_of_scanf rfl v hv

theorem valid_of_readEntry (h : readEntry i (scanEntry first i file).1 = .ok e) : e.Valid := by
  obtain ⟨proc, hvs, hprio, hpath, hlen⟩ := readEntry_ok h
  have hfrom (v : Value) (hv : v ∈ [Value.nat e.startTime, .text proc, .nat e.prio]) :
      ∃ d ∈ entryFormat ++ [.space], v.From d := from_of_scanEntry (hvs ▸ hv)
  refine ⟨?_, hprio, cstr proc, hpath, ?_, ?_⟩
  · simpa [entryFormat, Value.From] using hfrom (.nat e.startTime) (by simp)
  · rw [hpath, List.length_append] at hlen
    have hdir : procDir.length = 11 := by decide
    omega
  · have hproc := hfrom (.text proc) (by simp)
    simp only [entryFormat, Value.From, List.cons_append, List.nil_append, List.mem_cons,
      List.not_mem_nil, or_false, exists_eq_or_imp, exists_eq_left, false_or] at hproc
    intro c hc
    exact hproc.2.2 c ((List.takeWhile_sublist _).subset hc)

/-- The entries are as many as they have to be, and all valid. -/
theorem readEntries_ok (h : readEntries first n i file = .ok es) :
    es.length = n ∧ ∀ e ∈ es, e.Valid := by
  induction n generalizing i file es with
  | zero =>
      cases h
      exact ⟨rfl, by simp⟩
  | succ n ih =>
      rw [readEntries] at h
      cases hentry : readEntry i (scanEntry first i file).1 with
      | error err =>
          rw [hentry] at h
          cases h
      | ok e =>
          rw [hentry] at h
          cases hrest : readEntries first n (i + 1) (scanEntry first i file).2 with
          | error err =>
              simp only [Except.bind, hrest, Except.map] at h
              cases h
          | ok es' =>
              simp only [Except.bind, hrest, Except.map] at h
              cases h
              obtain ⟨hlen, hvalid⟩ := ih hrest
              exact ⟨congrArg (· + 1) hlen,
                List.forall_mem_cons.mpr ⟨valid_of_readEntry hentry, hvalid⟩⟩

/-- The loop stops at the line that it is about, and the ones before it have
been read. -/
theorem readEntries_error (h : readEntries first n i file = .error stop) :
    i < stop.line ∧ stop.line ≤ i + n ∧
      (∃ es, readEntries first (stop.line - 1 - i) i file = .ok es) ∧
      readEntry (stop.line - 1) (scanEntry first (stop.line - 1)
        (afterEntries first (stop.line - 1 - i) i file)).1 = .error stop := by
  induction n generalizing i file with
  | zero => cases h
  | succ n ih =>
      rw [readEntries] at h
      cases hentry : readEntry i (scanEntry first i file).1 with
      | error stop' =>
          rw [hentry] at h
          cases h
          have hline := readEntry_error hentry
          have hnone : stop.line - 1 - i = 0 := by omega
          have hlast : stop.line - 1 = i := by omega
          refine ⟨by omega, by omega, ⟨[], ?_⟩, ?_⟩
          · rw [hnone, readEntries]
          · rw [hnone, hlast, afterEntries, hentry]
      | ok e =>
          rw [hentry] at h
          cases hrest : readEntries first n (i + 1) (scanEntry first i file).2 with
          | ok es' =>
              simp only [Except.bind, hrest, Except.map] at h
              cases h
          | error stop' =>
              simp only [Except.bind, hrest, Except.map] at h
              cases h
              obtain ⟨hlt, hle, ⟨es, hes⟩, hstop⟩ := ih hrest
              have hsub : stop.line - 1 - i = (stop.line - 1 - (i + 1)) + 1 := by omega
              refine ⟨by omega, by omega, ⟨e :: es, ?_⟩, ?_⟩
              · rw [hsub, readEntries, hentry]
                simp only [Except.bind, hes, Except.map]
              · rw [hsub, afterEntries]
                exact hstop

/-- The scan of the line after the first one. -/
theorem scanf_memory (cs : List Char) :
    scanf [.unsigned 64, .space, .unsigned 64, .space, .unsigned 64, .space, .unsigned 64, .space,
      .unsigned 64, .space, .char] cs =
    scanf (List.replicate 5 (.unsigned 64) ++ [.space, .char]) cs := by
  refine scanf_cons_congr fun cs => (scanf_space_cons (by decide)).trans ?_
  refine scanf_cons_congr fun cs => (scanf_space_cons (by decide)).trans ?_
  refine scanf_cons_congr fun cs => (scanf_space_cons (by decide)).trans ?_
  exact scanf_cons_congr fun cs => scanf_space_cons (by decide)

theorem numbersOf_map (ns : List Nat) : numbersOf (ns.map .nat) = ns := by
  simp [numbersOf, List.filterMap_map]

/-- The values of a format that begins with numbers begin with numbers. -/
theorem scanf_numbers (k : Nat) (ds : List Directive) (cs : List Char) :
    ∃ (ns : List Nat) (us : List Value),
      (scanf (List.replicate k (.unsigned 64) ++ ds) cs).1 = ns.map .nat ++ us ∧
      (∀ n ∈ ns, n < 2 ^ 64) ∧ ns.length ≤ k ∧ (ns.length < k → us = []) := by
  induction k generalizing cs with
  | zero => exact ⟨[], _, rfl, by simp, Nat.le_refl 0, fun h => absurd h (Nat.lt_irrefl 0)⟩
  | succ k ih =>
      cases hconvert : convert (.unsigned 64) cs with
      | mk vs mid =>
          cases vs with
          | none =>
              exact ⟨[], [], congrArg Prod.fst (scanf_cons_none hconvert), by simp, by simp,
                by simp⟩
          | some vs =>
              obtain ⟨m, -, rfl⟩ := Option.map_eq_some_iff.mp (congrArg Prod.fst hconvert)
              have hm := from_of_convert hconvert _ (List.mem_singleton_self _)
              obtain ⟨ns, us, hvalues, hns, hle, hus⟩ := ih mid
              refine ⟨_ :: ns, us, ?_, List.forall_mem_cons.mpr ⟨hm, hns⟩, Nat.succ_le_succ hle,
                fun hlt => hus (Nat.lt_of_succ_lt_succ hlt)⟩
              rw [List.replicate_succ, List.cons_append, scanf_cons_some hconvert, hvalues]
              rfl

/-- RAM and the four swap devices have a size, given or not. -/
theorem readMemory_length (file : List Char) :
    (readMemory file).1.length = 5 ∧ ∀ n ∈ (readMemory file).1, n < 2 ^ 64 := by
  have hdefault : defaultSizes.length = 5 ∧ ∀ n ∈ defaultSizes, n < 2 ^ 64 := by decide
  unfold readMemory
  split
  · exact hdefault
  · rename_i line rest _
    obtain ⟨ns, us, hvalues, hns, hle, hus⟩ := scanf_numbers 5 [.space, .char] (cstr line)
    simp only [scanf_memory, hvalues]
    split
    · rename_i hcount
      have hlen : ns.length = 5 := by
        by_contra hne
        rw [hus (by omega), List.append_nil, List.length_map] at hcount
        omega
      have htake : (ns.map Value.nat ++ us).take 5 = ns.map .nat := by
        rw [← hlen, ← List.length_map Value.nat, List.take_left]
      rw [htake, numbersOf_map]
      exact ⟨hlen, hns⟩
    · exact hdefault

/-- What the program relies on after `read_config`. -/
structure Settings.WellFormed (s : Settings) : Prop where
  length : s.processes.length = s.numProcesses.toNat
  valid : ∀ e ∈ s.processes, e.Valid
  memramsz : s.memramsz < 2 ^ 64
  memswpsz : s.memswpsz.length = 4 ∧ ∀ n ∈ s.memswpsz, n < 2 ^ 64

theorem readConfig_ok {s : Settings} (h : readConfig (some cs) = .ok s) : s.WellFormed := by
  simp only [readConfig] at h
  generalize scanf _ cs = scanned at h
  obtain ⟨vs, body⟩ := scanned
  have hsizes := readMemory_length body
  generalize readMemory body = memory at h hsizes
  obtain ⟨sizes, first, entries⟩ := memory
  cases hread : readEntries first (intAfter vs 2).toNat 0 entries with
  | error err =>
      simp only [hread, Except.map] at h
      cases h
  | ok es =>
      simp only [hread, Except.map] at h
      cases h
      obtain ⟨hlen, hvalid⟩ := readEntries_ok hread
      match sizes, hsizes with
      | ram :: swps, ⟨hfive, hlt⟩ =>
        exact ⟨hlen, hvalid, hlt ram List.mem_cons_self, Nat.succ.inj hfive,
          fun n hn => hlt n (List.mem_cons_of_mem ram hn)⟩

/-- A text is accepted with valid processes, as many as its first line says,
or the error names a line among these, or a name of at least 89 characters is
written past its buffer. All the lines before have been read as valid
processes. -/
theorem readConfig_sound (cs : List Char) :
    match readConfig (some cs) with
    | .ok s => s.WellFormed
    | .error stop =>
      let (vs, file) := scanf [.signed 32, .space, .signed 32, .space, .signed 32, .space] cs
      let (_, first, file) := readMemory file
      let k := stop.line - 1
      0 < stop.line ∧ stop.line ≤ (intAfter vs 2).toNat ∧
        (∃ es, readEntries first k 0 file = .ok es ∧ ∀ e ∈ es, e.Valid) ∧
        match stop with
        | .reported err => err ≠ .notFound
        | .overflow _ => ∃ startTime proc prio,
          (scanEntry first k (afterEntries first k 0 file)).1 =
            [.nat startTime, .text proc, .nat prio] ∧
          prio < Sched.maxPrio ∧ 89 ≤ (cstr proc).length := by
  cases hconfig : readConfig (some cs) with
  | ok s => exact readConfig_ok hconfig
  | error stop =>
      simp only [readConfig] at hconfig ⊢
      generalize scanf _ cs = scanned at hconfig
      obtain ⟨vs, body⟩ := scanned
      generalize readMemory body = memory at hconfig
      obtain ⟨sizes, first, entries⟩ := memory
      cases hread : readEntries first (intAfter vs 2).toNat 0 entries with
      | ok es =>
          simp only [hread, Except.map] at hconfig
          cases hconfig
      | error stop' =>
          simp only [hread, Except.map] at hconfig
          cases hconfig
          obtain ⟨hlt, hle, ⟨es, hes⟩, hstop⟩ := readEntries_error hread
          rw [Nat.sub_zero] at hes hstop
          rw [Nat.zero_add] at hle
          refine ⟨hlt, hle, ⟨es, hes, (readEntries_ok hes).2⟩, ?_⟩
          cases stop with
          | reported err =>
              rintro rfl
              exact absurd hlt (Nat.lt_irrefl 0)
          | overflow line => exact readEntry_overflow hstop

end Accepted

/-! ### Lines of a configuration -/

/-- A process as a file gives it. -/
structure ProcLine where
  startTime : Nat
  name : List Char
  prio : Nat
  deriving DecidableEq

def ProcLine.entry (l : ProcLine) : Entry := ⟨l.startTime, procDir ++ l.name, l.prio⟩

def ProcLine.values (l : ProcLine) : List Value := [.nat l.startTime, .text l.name, .nat l.prio]

/-- The line is accepted. -/
def ProcLine.Good (l : ProcLine) : Prop := l.prio < Sched.maxPrio ∧ l.name.length < 89

instance (l : ProcLine) : Decidable l.Good := inferInstanceAs (Decidable (_ ∧ _))

/-- The text of a process, with white space of the kind in between. -/
inductive EntryText (p : Char → Bool) : ProcLine → List Char → Prop
  | mk {lead ds₁ ws₁ ws₂ ds₂ startTime name prio} (hlead : ∀ c ∈ lead, p c = true)
      (hds₁ : Numeral ds₁ startTime) (hstart : startTime < 2 ^ 64) (hne₁ : ws₁ ≠ [])
      (hws₁ : ∀ c ∈ ws₁, p c = true) (hname : Word 99 name) (hne₂ : ws₂ ≠ [])
      (hws₂ : ∀ c ∈ ws₂, p c = true) (hds₂ : Numeral ds₂ prio) (hprio : prio < 2 ^ 64) :
      EntryText p ⟨startTime, name, prio⟩ (lead ++ (ds₁ ++ (ws₁ ++ (name ++ (ws₂ ++ ds₂)))))

/-- A text that begins with the processes. -/
inductive EntriesText : List ProcLine → List Char → List Char → Prop
  | nil {rest} : EntriesText [] rest rest
  | cons {l ls cs mid rest} (hl : EntryText isSpace l cs) (hend : EndsAt Char.isDigit mid)
      (hls : EntriesText ls mid rest) : EntriesText (l :: ls) (cs ++ mid) rest

/-- A text that begins with the first line of a configuration. -/
inductive CountsText : (timeSlot numCpus numProcesses : Nat) → List Char → List Char → Prop
  | mk {ws₁ ds₁ ws₂ ds₂ ws₃ ds₃ body timeSlot numCpus numProcesses} (hws₁ : Blank ws₁)
      (hds₁ : Numeral ds₁ timeSlot) (hslot : timeSlot < 2 ^ 31) (hne₂ : ws₂ ≠ []) (hws₂ : Blank ws₂)
      (hds₂ : Numeral ds₂ numCpus) (hcpus : numCpus < 2 ^ 31) (hne₃ : ws₃ ≠ []) (hws₃ : Blank ws₃)
      (hds₃ : Numeral ds₃ numProcesses) (hprocs : numProcesses < 2 ^ 31)
      (hend : EndsAt Char.isDigit body) :
      CountsText timeSlot numCpus numProcesses
        (ws₁ ++ (ds₁ ++ (ws₂ ++ (ds₂ ++ (ws₃ ++ (ds₃ ++ body)))))) body

/-- A text that begins with the line of the memories: RAM, then four swap
devices. What stands behind them on the line does not matter. -/
inductive MemoryText : List Nat → List Char → List Char → Prop
  | mk {ds args tail nl rest ram swps} (hds : Numeral ds ram) (hram : ram < 2 ^ 64)
      (hargs : Numbers isBlank 64 swps args) (hlen : swps.length = 4)
      (hend : EndsAt Char.isDigit (tail ++ nl)) (htail : '\n' ∉ tail) (hnul : '\x00' ∉ tail)
      (hnl : nl = ['\n'] ∨ nl = [] ∧ rest = [])
      (hfits : (ds ++ (args ++ tail) ++ nl).length < 256) :
      MemoryText (ram :: swps) (ds ++ (args ++ tail) ++ (nl ++ rest)) rest

def isSign (c : Char) : Bool := c == '+' || c == '-'

/-- The line of a process that is not one of memories: five numbers cannot be
read from it. They can from `0 1-2-3 7`. -/
def FewNumbers (cs : List Char) : Prop :=
  (scanf (List.replicate 5 (.unsigned 64)) cs).1.length < 5

/-- A text that begins with the line of the first process, where the line of
the memories is left out. -/
inductive FirstText : ProcLine → List Char → List Char → Prop
  | mk {cs trail nl rest l} (hl : EntryText isBlank l cs) (hhead : EndsAt isSpace cs)
      (htrail : ∀ c ∈ trail, isBlank c = true) (hfew : FewNumbers (cs ++ (trail ++ nl)))
      (hnl : nl = ['\n'] ∨ nl = [] ∧ rest = []) (hfits : (cs ++ trail ++ nl).length < 256) :
      FirstText l (cs ++ trail ++ (nl ++ rest)) rest

/-- A text that begins with what stands below the first line: the memories and
the processes, or the processes alone. -/
inductive BodyText : (sizes : List Nat) → List ProcLine → List Char → List Char → Prop
  | sizes {sizes ls memory entries rest} (hmemory : MemoryText sizes memory entries)
      (hentries : EntriesText ls entries rest) : BodyText sizes ls memory rest
  | first {l ls line entries rest} (hline : FirstText l line entries)
      (hentries : EntriesText ls entries rest) : BodyText defaultSizes (l :: ls) line rest
  | none {rest} (hrest : Blank rest) : BodyText defaultSizes [] rest rest

section Lines

variable {l : ProcLine} {ls : List ProcLine} {p : Char → Bool} {cs file text body rest : List Char}
  {ds : List Directive} {first : Option (List Char)} {i n : Nat}

theorem readEntry_good (h : l.Good) (hname : cstr l.name = l.name) :
    readEntry i l.values = .ok l.entry := by
  have hlen : (procDir ++ l.name).length < 100 := by
    have hdir : procDir.length = 11 := by decide
    rw [List.length_append, hdir]
    have := h.2
    omega
  simp only [readEntry, ProcLine.values, hname, if_pos h.1, if_pos hlen, ProcLine.entry]

theorem EntryText.name (h : EntryText p l cs) : Word 99 l.name := by
  cases h with
  | mk _ _ _ _ _ hname => exact hname

theorem EntryText.ne_nil (h : EntryText p l cs) : cs ≠ [] := by
  cases h with
  | mk _ hds₁ => simp [hds₁.ne_nil]

theorem EntryText.not_mem (h : EntryText p l cs) {c : Char} (hp : p c = false)
    (hdigit : c.isDigit = false) (hname : c ∉ l.name) : c ∉ cs := by
  have hnot {q : Char → Bool} {ws : List Char} (hq : q c = false) (hws : ∀ d ∈ ws, q d = true) :
      c ∉ ws := by
    intro hmem
    rw [hws c hmem] at hq
    cases hq
  cases h with
  | mk hlead hds₁ _ _ hws₁ _ _ hws₂ hds₂ =>
      simp only [List.mem_append, not_or]
      exact ⟨hnot hp hlead, hnot hdigit hds₁.isDigit, hnot hp hws₁, hname, hnot hp hws₂,
        hnot hdigit hds₂.isDigit⟩

theorem EntryText.mono {q : Char → Bool} (h : EntryText p l cs)
    (hpq : ∀ c, p c = true → q c = true) : EntryText q l cs := by
  cases h with
  | mk hlead hds₁ hstart hne₁ hws₁ hname hne₂ hws₂ hds₂ hprio =>
      exact .mk (fun c hc => hpq c (hlead c hc)) hds₁ hstart hne₁ (fun c hc => hpq c (hws₁ c hc))
        hname hne₂ (fun c hc => hpq c (hws₂ c hc)) hds₂ hprio

/-- The scan of a process reads it back. -/
theorem scanf_entry (h : EntryText isSpace l cs) (hrest : EndsAt Char.isDigit rest) :
    scanf (entryFormat ++ ds) (cs ++ rest) =
      (l.values ++ (scanf ds rest).1, (scanf ds rest).2) := by
  cases h with
  | @mk lead ds₁ ws₁ ws₂ ds₂ startTime name prio hlead hds₁ hstart hne₁ hws₁ hname hne₂ hws₂ hds₂
      hprio =>
      have hword : EndsAt (fun c => !isSpace c) (ws₂ ++ (ds₂ ++ rest)) := by
        obtain ⟨c, ws, rfl⟩ := List.exists_cons_of_ne_nil hne₂
        exact endsAt_cons.mpr (by simp [hws₂ c List.mem_cons_self])
      simp only [List.append_assoc, entryFormat, List.cons_append, List.nil_append]
      rw [scanf_cons_some (hds₁.convert_unsigned hlead (Nat.le_refl 64) hstart
          (endsAt_isDigit_of_blank hne₁ hws₁)), scanf_space_cons (by decide),
        scanf_cons_some (hname.convert_word hws₁ hword), scanf_space_cons (by decide),
        scanf_cons_some (hds₂.convert_unsigned hws₂ (Nat.le_refl 64) hprio hrest)]
      rfl

theorem scanEntry_file (hi : first = none ∨ 0 < i) :
    scanEntry first i file = scanf (entryFormat ++ [.space]) file := by
  rcases hi with rfl | hi
  · cases i <;> rfl
  · obtain ⟨k, rfl⟩ := Nat.exists_eq_add_of_lt hi
    rfl

/-- The loop reads back the processes, and goes on behind them. -/
theorem readEntries_lines (first : Option (List Char)) (n : Nat) (h : EntriesText ls cs rest)
    (hgood : ∀ l ∈ ls, l.Good) (hfile : skipSpace file = skipSpace cs) (hi : first = none ∨ 0 < i) :
    ∃ file', skipSpace file' = skipSpace rest ∧ readEntries first (ls.length + n) i file =
      (readEntries first n (i + ls.length) file').map (ls.map ProcLine.entry ++ ·) := by
  induction h generalizing file i with
  | nil =>
      refine ⟨file, hfile, ?_⟩
      rw [List.length_nil, Nat.zero_add, Nat.add_zero]
      cases readEntries first n i file <;> rfl
  | @cons l ls cs mid rest hl hend _ ih =>
      obtain ⟨hgood_l, hgood_ls⟩ := List.forall_mem_cons.mp hgood
      have hscanf : scanEntry first i file = (l.values, skipSpace mid) := by
        rw [scanEntry_file hi, entryFormat, List.cons_append, ← scanf_skipSpace (by decide), hfile,
          scanf_skipSpace (by decide), ← List.cons_append, ← entryFormat, scanf_entry hl hend,
          scanf_space, List.append_nil]
      obtain ⟨file', hrest, hread⟩ := ih hgood_ls (skipSpace_skipSpace mid) (i := i + 1)
        (.inr (Nat.succ_pos i))
      refine ⟨file', hrest, ?_⟩
      rw [List.length_cons, Nat.add_right_comm, readEntries, hscanf,
        readEntry_good hgood_l hl.name.cstr_eq]
      simp only [Except.bind, hread, Nat.add_right_comm i 1, Nat.add_assoc i]
      cases readEntries first n (i + (ls.length + 1)) file' <;> rfl

theorem scanf_counts {timeSlot numCpus numProcesses : Nat}
    (h : CountsText timeSlot numCpus numProcesses text body) :
    scanf [.signed 32, .space, .signed 32, .space, .signed 32, .space] text =
      ([.int timeSlot, .int numCpus, .int numProcesses], skipSpace body) := by
  cases h with
  | mk hws₁ hds₁ hslot hne₂ hws₂ hds₂ hcpus hne₃ hws₃ hds₃ hprocs hend =>
      rw [scanf_cons_some (hds₁.convert_signed hws₁ hslot (endsAt_isDigit_of_blank hne₂ hws₂)),
        scanf_space_cons (by decide),
        scanf_cons_some (hds₂.convert_signed hws₂ hcpus (endsAt_isDigit_of_blank hne₃ hws₃)),
        scanf_space_cons (by decide), scanf_cons_some (hds₃.convert_signed hws₃ hprocs hend),
        scanf_space]
      rfl

theorem endsAt_of_blank {q : Char → Bool} (hq : ∀ c, isSpace c = true → q c = false)
    (hcs : Blank cs) : EndsAt q cs :=
  fun c hc => hq c (hcs c (List.mem_of_mem_head? hc))

theorem blank_nl {nl : List Char} (h : nl = ['\n'] ∨ nl = [] ∧ rest = []) : Blank nl := by
  rcases h with rfl | ⟨rfl, -⟩ <;> decide

/-- The sizes of the memories are read back. -/
theorem readMemory_sizes {sizes : List Nat} (h : MemoryText sizes text rest) :
    readMemory text = (sizes, none, rest) := by
  cases h with
  | @mk ds args tail nl _ ram swps hds hram hargs hlen hend htail hnul hnl hfits =>
      have hdigits {c : Char} (hc : c.isDigit = false) : c ∉ ds := by
        intro hmem
        rw [hds.isDigit c hmem] at hc
        cases hc
      have hline : '\n' ∉ ds ++ (args ++ tail) := by
        simp only [List.mem_append, not_or]
        exact ⟨hdigits (by decide), hargs.not_mem (by decide) (by decide), htail⟩
      have hzero : '\x00' ∉ ds ++ (args ++ tail) ++ nl := by
        simp only [List.mem_append, not_or]
        refine ⟨⟨hdigits (by decide), hargs.not_mem (by decide) (by decide), hnul⟩, fun hmem => ?_⟩
        exact absurd (blank_nl hnl _ hmem) (by decide)
      have hne : ds ++ (args ++ tail) ++ nl ≠ [] := by
        simp [hds.ne_nil]
      have hargsEnd : EndsAt Char.isDigit (args ++ (tail ++ nl)) :=
        hargs.endsAt (fun c hc => not_isDigit_of_isSpace (isSpace_of_isBlank hc)) hend
      have hconvert : convert (.unsigned 64) (ds ++ (args ++ (tail ++ nl))) =
          (some [.nat ram], args ++ (tail ++ nl)) :=
        hds.convert_unsigned (show Blank [] by decide) (Nat.le_refl 64) hram hargsEnd
      have hscan : (scanf (List.replicate 5 (.unsigned 64) ++ [.space, .char])
          (ds ++ (args ++ tail) ++ nl)).1 =
          .nat ram :: (swps.map .nat ++ (scanf [.space, .char] (tail ++ nl)).1) := by
        rw [List.append_assoc, List.append_assoc, List.replicate_succ, List.cons_append, ← hlen,
          scanf_cons_some hconvert,
          hargs.scanf (fun _ => isSpace_of_isBlank) (Nat.le_refl 64) hend]
        rfl
      have hcount : 5 ≤ (Value.nat ram ::
          (swps.map .nat ++ (scanf [.space, .char] (tail ++ nl)).1)).length := by
        rw [List.length_cons, List.length_append, List.length_map, hlen]
        omega
      have htake :
          (Value.nat ram :: (swps.map .nat ++ (scanf [.space, .char] (tail ++ nl)).1)).take 5 =
            (ram :: swps).map .nat := by
        have hmap : (swps.map Value.nat).length = 4 := by rw [List.length_map, hlen]
        rw [List.take_succ_cons, ← hmap, List.take_left, List.map_cons]
      simp only [readMemory, fgets_line hline hnl hne hfits, scanf_memory, cstr_of_not_mem hzero,
        hscan, if_pos hcount, htake, numbersOf_map]

theorem length_scanf_none {k : Nat} (h : ∃ mid, convert (.unsigned 64) cs = (none, mid)) :
    (scanf (List.replicate (k + 1) (.unsigned 64)) cs).1.length = 0 := by
  obtain ⟨mid, h⟩ := h
  exact congrArg (fun r => r.1.length) (scanf_cons_none h)

theorem length_scanf_some {k m : Nat} (h : convert (.unsigned 64) cs = (some [.nat m], rest)) :
    (scanf (List.replicate (k + 1) (.unsigned 64)) cs).1.length =
      (scanf (List.replicate k (.unsigned 64)) rest).1.length + 1 :=
  congrArg (fun r => r.1.length) (scanf_cons_some h)

/-- The call stops at the first number that is missing, whatever else the
format asks for behind the numbers. -/
theorem scanf_few {k : Nat} (h : (scanf (List.replicate k (.unsigned 64)) cs).1.length < k) :
    scanf (List.replicate k (.unsigned 64) ++ ds) cs =
      scanf (List.replicate k (.unsigned 64)) cs := by
  induction k generalizing cs with
  | zero => exact absurd h (Nat.not_lt_zero _)
  | succ k ih =>
      cases hconvert : convert (.unsigned 64) cs with
      | mk vs mid =>
          rw [List.replicate_succ, List.cons_append] at *
          cases vs with
          | none => rw [scanf_cons_none hconvert, scanf_cons_none hconvert]
          | some vs =>
              obtain ⟨m, -, rfl⟩ := Option.map_eq_some_iff.mp (congrArg Prod.fst hconvert)
              rw [scanf_cons_some hconvert] at h
              have hfew : (scanf (List.replicate k (.unsigned 64)) mid).1.length < k := by
                simpa using h
              rw [scanf_cons_some hconvert, scanf_cons_some hconvert, ih hfew]

/-- Where no sign stands right behind the digits that the name begins with,
no more than three numbers are read. So it is for every name that begins with a
letter. -/
theorem EntryText.fewNumbers {trail : List Char} (hl : EntryText isSpace l cs)
    (htrail : Blank trail) (hsign : EndsAt isSign (l.name.dropWhile Char.isDigit)) :
    FewNumbers (cs ++ trail) := by
  unfold FewNumbers
  cases hl with
  | @mk lead ds₁ ws₁ ws₂ ds₂ startTime name prio hlead hds₁ hstart hne₁ hws₁ hname hne₂ hws₂ hds₂
      hprio =>
      -- the digits that the name begins with, and the rest of it
      obtain ⟨d, r, rfl, hd, hr, hsign⟩ : ∃ d r, name = d ++ r ∧ (∀ c ∈ d, c.isDigit = true) ∧
          EndsAt Char.isDigit r ∧ EndsAt isSign r :=
        ⟨name.takeWhile Char.isDigit, name.dropWhile Char.isDigit,
          List.takeWhile_append_dropWhile.symm, fun c hc => List.mem_takeWhile_imp hc,
          endsAt_dropWhile Char.isDigit name, hsign⟩
      have hrefuse {ws after : List Char} (hws : Blank ws) (hne : r ≠ []) :
          ∃ mid, convert (.unsigned 64) (ws ++ (r ++ after)) = (none, mid) := by
        obtain ⟨c, cs, rfl⟩ := List.exists_cons_of_ne_nil hne
        have hmem : c ∈ d ++ c :: cs := List.mem_append_right _ List.mem_cons_self
        have hnot : isSign c = false := endsAt_cons.mp hsign
        refine convert_unsigned_none hws (endsAt_cons.mpr (hname.not_isSpace c hmem))
          (endsAt_cons.mpr (endsAt_cons.mp hr)) ?_ ?_
        · intro heq
          rw [Option.some.inj heq] at hnot
          cases hnot
        · intro heq
          rw [Option.some.inj heq] at hnot
          cases hnot
      have hone : convert (.unsigned 64)
          (lead ++ (ds₁ ++ (ws₁ ++ (d ++ (r ++ (ws₂ ++ (ds₂ ++ trail))))))) =
          (some [.nat startTime], ws₁ ++ (d ++ (r ++ (ws₂ ++ (ds₂ ++ trail))))) :=
        hds₁.convert_unsigned hlead (Nat.le_refl 64) hstart (endsAt_isDigit_of_blank hne₁ hws₁)
      simp only [List.append_assoc]
      rw [length_scanf_some hone]
      rcases eq_or_ne d [] with rfl | hdne
      · have hnone : ∃ mid, convert (.unsigned 64) (ws₁ ++ (r ++ (ws₂ ++ (ds₂ ++ trail)))) =
            (none, mid) := hrefuse hws₁ (by simpa using hname.ne_nil)
        rw [List.nil_append, length_scanf_none hnone]
        decide
      have hnumeral : Numeral d (Nat.ofDigitChars 10 d 0) := ⟨hdne, hd, rfl⟩
      rcases eq_or_ne r [] with rfl | hrne
      · have hname₂ : EndsAt Char.isDigit (ws₂ ++ (ds₂ ++ trail)) :=
          endsAt_isDigit_of_blank hne₂ hws₂
        have htwo : convert (.unsigned 64) (ws₁ ++ (d ++ (ws₂ ++ (ds₂ ++ trail)))) = _ :=
          hnumeral.convert_unsigned_strtoul hws₁ hname₂
        have hthree := hds₂.convert_unsigned hws₂ (Nat.le_refl 64) hprio
          (endsAt_of_blank (fun _ => not_isDigit_of_isSpace) htrail)
        rw [List.nil_append, length_scanf_some htwo, length_scanf_some hthree, length_scanf_none
          ⟨[], convert_blank Directive.noConfusion Directive.noConfusion htrail⟩]
        decide
      · have hrend : EndsAt Char.isDigit (r ++ (ws₂ ++ (ds₂ ++ trail))) := by
          obtain ⟨c, cs, rfl⟩ := List.exists_cons_of_ne_nil hrne
          exact endsAt_cons.mpr (endsAt_cons.mp hr)
        have hnone : ∃ mid, convert (.unsigned 64) (r ++ (ws₂ ++ (ds₂ ++ trail))) = (none, mid) :=
          hrefuse (show Blank [] by decide) hrne
        rw [length_scanf_some (hnumeral.convert_unsigned_strtoul hws₁ hrend),
          length_scanf_none hnone]
        decide

/-- The line of the first process is kept, and read back from the buffer. -/
theorem readMemory_first (h : FirstText l text rest) :
    ∃ line, readMemory text = (defaultSizes, some line, rest) ∧
      (scanf entryFormat (cstr line)).1 = l.values := by
  cases h with
  | @mk cs trail nl _ _ hl hhead htrail hfew hnl hfits =>
      have hspaces := hl.mono fun _ => isSpace_of_isBlank
      have hafter : Blank (trail ++ nl) :=
        blank_append.mpr ⟨fun c hc => isSpace_of_isBlank (htrail c hc), blank_nl hnl⟩
      have hnewline : '\n' ∉ cs ++ trail := by
        rw [List.mem_append, not_or]
        refine ⟨hl.not_mem (by decide) (by decide) fun hmem => ?_, fun hmem => ?_⟩
        · exact absurd (hl.name.not_isSpace _ hmem) (by decide)
        · exact absurd (htrail _ hmem) (by decide)
      have hzero : '\x00' ∉ cs ++ (trail ++ nl) := by
        rw [List.mem_append, not_or]
        refine ⟨hl.not_mem (by decide) (by decide) fun hmem => hl.name.not_nul _ hmem rfl,
          fun hmem => ?_⟩
        exact absurd (hafter _ hmem) (by decide)
      have hne : cs ++ trail ++ nl ≠ [] := by
        simp [hl.ne_nil]
      have hcstr : cstr (cs ++ trail ++ nl) = cs ++ (trail ++ nl) := by
        rw [List.append_assoc, cstr_of_not_mem hzero]
      have hcount : ¬5 ≤ (scanf (List.replicate 5 (.unsigned 64) ++ [.space, .char])
          (cs ++ (trail ++ nl))).1.length := by
        rw [scanf_few hfew]
        exact Nat.not_le_of_lt hfew
      refine ⟨cs ++ trail ++ nl, ?_, ?_⟩
      · simp only [readMemory, fgets_line hnewline hnl hne hfits, scanf_memory, hcstr,
          if_neg hcount]
      · have hscanf : scanf (entryFormat ++ []) (cs ++ (trail ++ nl)) = _ :=
          scanf_entry hspaces (endsAt_of_blank (fun _ => not_isDigit_of_isSpace) hafter)
        rw [List.append_nil] at hscanf
        rw [hcstr, hscanf]
        exact List.append_nil _

/-! ### Whole files -/

variable {timeSlot numCpus : Nat} {sizes : List Nat}

theorem readConfig_counts {k : Nat} (h : CountsText timeSlot numCpus k text body) :
    readConfig (some text) =
      let (sizes, first, file) := readMemory (skipSpace body)
      (readEntries first k 0 file).map fun processes =>
        { timeSlot, numCpus, numProcesses := k, memramsz := sizes.headD 0, memswpsz := sizes.tail,
          processes } := by
  simp only [readConfig, scanf_counts h]
  rfl

theorem skipSpace_memory {ws memory entries : List Char} (hws : Blank ws)
    (hmemory : MemoryText sizes memory entries) : skipSpace (ws ++ memory) = memory := by
  rw [skipSpace_append hws]
  cases hmemory with
  | mk hds => rw [List.append_assoc, skipSpace_of_endsAt hds.endsAt_isSpace]

theorem skipSpace_first {ws line entries : List Char} (hws : Blank ws)
    (hline : FirstText l line entries) : skipSpace (ws ++ line) = line := by
  rw [skipSpace_append hws]
  cases hline with
  | mk hl hhead =>
      rw [List.append_assoc]
      exact skipSpace_of_endsAt (hhead.append hl.ne_nil)

/-- Whichever way the body is laid out, its processes come first, and the loop
goes on behind them. -/
theorem readConfig_body {ws : List Char} {n : Nat}
    (hcounts : CountsText timeSlot numCpus (ls.length + n) text (ws ++ body)) (hws : Blank ws)
    (hbody : BodyText sizes ls body rest) (hgood : ∀ l ∈ ls, l.Good) :
    ∃ first file, (first = none ∨ 0 < ls.length) ∧ skipSpace file = skipSpace rest ∧
      readConfig (some text) = (readEntries first n ls.length file).map fun es =>
        { timeSlot, numCpus, numProcesses := ↑(ls.length + n), memramsz := sizes.headD 0,
          memswpsz := sizes.tail, processes := ls.map ProcLine.entry ++ es } := by
  cases hbody with
  | sizes hmemory hentries =>
      obtain ⟨file, hfile, hread⟩ := readEntries_lines (i := 0) none n hentries hgood rfl (.inl rfl)
      refine ⟨none, file, .inl rfl, hfile, ?_⟩
      rw [readConfig_counts hcounts, skipSpace_memory hws hmemory, readMemory_sizes hmemory]
      rw [Nat.zero_add] at hread
      simp only [hread]
      cases readEntries none n ls.length file <;> rfl
  | @first l ls line entries _ hline hentries =>
      obtain ⟨buf, hmemory, hvalues⟩ := readMemory_first hline
      have hname : cstr l.name = l.name := by
        cases hline with
        | mk hl => exact hl.name.cstr_eq
      obtain ⟨hgood_l, hgood_ls⟩ := List.forall_mem_cons.mp hgood
      obtain ⟨file, hfile, hread⟩ := readEntries_lines (i := 1) (some buf) n hentries hgood_ls rfl
        (.inr Nat.zero_lt_one)
      refine ⟨some buf, file, .inr (Nat.succ_pos _), hfile, ?_⟩
      have hscan : scanEntry (some buf) 0 entries = (l.values, entries) :=
        congrArg (fun vs => (vs, entries)) hvalues
      rw [readConfig_counts hcounts, skipSpace_first hws hline, hmemory, List.length_cons,
        Nat.add_right_comm]
      rw [Nat.add_comm 1] at hread
      simp only [readEntries, hscan, readEntry_good hgood_l hname, Except.bind, Nat.zero_add, hread]
      cases readEntries (some buf) n (ls.length + 1) file <;> rfl
  | none hrest =>
      refine ⟨none, [], .inl rfl, (skipSpace_blank hrest).symm, ?_⟩
      rw [readConfig_counts hcounts, skipSpace_append hws, skipSpace_blank hrest, List.length_nil,
        Nat.zero_add]
      rfl

/-- A configuration with the line of the memories is read back, whatever
stands behind it. -/
theorem readConfig_sizes {ws memory entries : List Char}
    (hcounts : CountsText timeSlot numCpus ls.length text (ws ++ memory)) (hws : Blank ws)
    (hmemory : MemoryText sizes memory entries) (hentries : EntriesText ls entries rest)
    (hgood : ∀ l ∈ ls, l.Good) :
    readConfig (some text) = .ok
      { timeSlot, numCpus, numProcesses := ls.length, memramsz := sizes.headD 0,
        memswpsz := sizes.tail, processes := ls.map ProcLine.entry } := by
  rw [← Nat.add_zero ls.length] at hcounts
  obtain ⟨first, file, -, -, hread⟩ :=
    readConfig_body hcounts hws (.sizes hmemory hentries) hgood
  rw [hread, readEntries, Except.map, List.append_nil, Nat.add_zero]

/-- So is one without it, and the memories have their default sizes. -/
theorem readConfig_first {l : ProcLine} {ws line entries : List Char}
    (hcounts : CountsText timeSlot numCpus (ls.length + 1) text (ws ++ line)) (hws : Blank ws)
    (hline : FirstText l line entries) (hentries : EntriesText ls entries rest)
    (hgood : ∀ l' ∈ l :: ls, l'.Good) :
    readConfig (some text) = .ok
      { timeSlot, numCpus, numProcesses := ↑(ls.length + 1), memramsz := 0x100000000,
        memswpsz := [0x1000000, 0, 0, 0], processes := (l :: ls).map ProcLine.entry } := by
  have hcounts' : CountsText timeSlot numCpus ((l :: ls).length + 0) text (ws ++ line) := hcounts
  obtain ⟨first, file, -, -, hread⟩ :=
    readConfig_body hcounts' hws (.first hline hentries) hgood
  rw [hread, readEntries, Except.map, List.append_nil]
  rfl

/-- Where the file has fewer processes than its first line says, the error
names the first one that is missing. -/
theorem readConfig_missing {ws : List Char}
    (hcounts : CountsText timeSlot numCpus (ls.length + (n + 1)) text (ws ++ body))
    (hws : Blank ws) (hbody : BodyText sizes ls body rest) (hgood : ∀ l ∈ ls, l.Good)
    (hrest : Blank rest) :
    readConfig (some text) = .error (.reported (.invalidLine (ls.length + 1))) := by
  obtain ⟨first, file, hfirst, hfile, hread⟩ := readConfig_body hcounts hws hbody hgood
  rw [skipSpace_blank hrest] at hfile
  have hscan : scanf (entryFormat ++ [.space]) file = ([], []) := by
    rw [entryFormat, List.cons_append, ← scanf_skipSpace (by decide), hfile]
    rfl
  have hlast : scanEntry first ls.length file = ([], []) := by
    rw [scanEntry_file hfirst, hscan]
  have hend : readEntries first (n + 1) ls.length file =
      .error (.reported (.invalidLine (ls.length + 1))) := by
    rw [readEntries, hlast]
    rfl
  rw [hread, hend, Except.map]

end Lines

/-! ### Writing a configuration -/

section Render

variable {l : ProcLine} {ls : List ProcLine} {timeSlot numCpus ram : Nat} {swps : List Nat}

def ProcLine.render (l : ProcLine) : List Char :=
  Nat.toDigits 10 l.startTime ++ ([' '] ++ (l.name ++ ([' '] ++ Nat.toDigits 10 l.prio)))

def renderEntries (ls : List ProcLine) : List Char := (ls.map fun l => l.render ++ ['\n']).flatten

def renderCounts (timeSlot numCpus n : Nat) (body : List Char) : List Char :=
  Nat.toDigits 10 timeSlot ++ ([' '] ++ (Nat.toDigits 10 numCpus ++ ([' '] ++
    (Nat.toDigits 10 n ++ body))))

/-- A configuration with the line of the memories. -/
def renderConfig (timeSlot numCpus ram : Nat) (swps : List Nat) (ls : List ProcLine) : List Char :=
  renderCounts timeSlot numCpus ls.length
    (['\n'] ++ (Nat.toDigits 10 ram ++ (spaced swps ++ []) ++ (['\n'] ++ renderEntries ls)))

/-- A line that a configuration can hold. -/
structure ProcLine.Fits (l : ProcLine) : Prop where
  startTime : l.startTime < 2 ^ 64
  name : Word 88 l.name
  prio : l.prio < Sched.maxPrio

theorem ProcLine.Fits.good (h : l.Fits) : l.Good :=
  ⟨h.prio, Nat.lt_succ_of_le h.name.length_le⟩

theorem entryText_render (h : l.Fits) {p : Char → Bool} (hp : p ' ' = true) {lead : List Char}
    (hlead : ∀ c ∈ lead, p c = true) : EntryText p l (lead ++ l.render) := by
  have hspace : ∀ c ∈ [' '], p c = true := by simpa using hp
  have hname : Word 99 l.name :=
    ⟨h.name.ne_nil, Nat.le_trans h.name.length_le (by decide), h.name.not_isSpace, h.name.not_nul⟩
  exact .mk hlead (numeral_toDigits _) h.startTime (by decide) hspace hname (by decide) hspace
    (numeral_toDigits _) (Nat.lt_trans h.prio (by decide))

theorem entriesText_render (h : ∀ l ∈ ls, l.Fits) {lead : List Char} (hlead : Blank lead) :
    ∃ rest, Blank rest ∧ EntriesText ls (lead ++ renderEntries ls) rest := by
  induction ls generalizing lead with
  | nil => exact ⟨lead ++ [], blank_append.mpr ⟨hlead, by decide⟩, .nil⟩
  | cons l ls ih =>
      obtain ⟨hl, hls⟩ := List.forall_mem_cons.mp h
      obtain ⟨rest, hrest, hentries⟩ := ih hls (show Blank ['\n'] by decide)
      have htext : lead ++ renderEntries (l :: ls) =
          (lead ++ l.render) ++ (['\n'] ++ renderEntries ls) := by
        simp [renderEntries]
      rw [htext]
      exact ⟨rest, hrest, .cons (entryText_render hl (by decide) hlead)
        (endsAt_cons.mpr (by decide)) hentries⟩

theorem countsText_render {n : Nat} {body : List Char} (hslot : timeSlot < 2 ^ 31)
    (hcpus : numCpus < 2 ^ 31) (hn : n < 2 ^ 31) (hbody : EndsAt Char.isDigit body) :
    CountsText timeSlot numCpus n (renderCounts timeSlot numCpus n body) body :=
  .mk (show Blank [] by decide) (numeral_toDigits _) hslot (by decide) (by decide)
    (numeral_toDigits _) hcpus (by decide) (by decide) (numeral_toDigits _) hn hbody

theorem memoryText_render (hram : ram < 2 ^ 64) (hswps : ∀ n ∈ swps, n < 2 ^ 64)
    (hlen : swps.length = 4) (rest : List Char) :
    MemoryText (ram :: swps) (Nat.toDigits 10 ram ++ (spaced swps ++ []) ++ (['\n'] ++ rest))
      rest := by
  have hdigits := length_toDigits_le hram
  have hspaced := length_spaced_le hswps
  refine .mk (numeral_toDigits ram) hram (numbers_spaced (by decide) hswps) hlen
    (endsAt_cons.mpr (by decide)) (by simp) (by simp) (.inl rfl) ?_
  simp only [List.length_append, List.length_nil, List.length_singleton]
  omega

theorem firstText_render (h : l.Fits) (hsign : EndsAt isSign (l.name.dropWhile Char.isDigit))
    (rest : List Char) : FirstText l (l.render ++ [] ++ (['\n'] ++ rest)) rest := by
  have hstart := length_toDigits_le h.startTime
  have hprio := length_toDigits_le (Nat.lt_trans h.prio (by decide))
  have hname := h.name.length_le
  have hfew : FewNumbers (l.render ++ ([] ++ ['\n'])) :=
    (entryText_render h (by decide) (List.forall_mem_nil _)).fewNumbers (by decide) hsign
  refine .mk (entryText_render h (by decide) (List.forall_mem_nil _))
    (numeral_toDigits l.startTime).endsAt_isSpace (by simp) hfew (.inl rfl) ?_
  simp only [ProcLine.render, List.length_append, List.length_nil, List.length_singleton]
  omega

/-- A configuration that is written out is read back. -/
theorem readConfig_render (hslot : timeSlot < 2 ^ 31) (hcpus : numCpus < 2 ^ 31)
    (hn : ls.length < 2 ^ 31) (hram : ram < 2 ^ 64) (hswps : ∀ n ∈ swps, n < 2 ^ 64)
    (hlen : swps.length = 4) (h : ∀ l ∈ ls, l.Fits) :
    readConfig (some (renderConfig timeSlot numCpus ram swps ls)) = .ok
      { timeSlot, numCpus, numProcesses := ls.length, memramsz := ram, memswpsz := swps,
        processes := ls.map ProcLine.entry } := by
  obtain ⟨rest, -, hentries⟩ := entriesText_render h (show Blank [] by decide)
  obtain ⟨first, file, -, -, hread⟩ := readConfig_body
    (countsText_render (n := ls.length + 0) hslot hcpus hn (endsAt_cons.mpr (by decide)))
    (show Blank ['\n'] by decide) (.sizes (memoryText_render hram hswps hlen _) hentries)
    fun l hl => (h l hl).good
  refine hread.trans ?_
  rw [readEntries, Except.map, List.append_nil]
  rfl

/-- One process of the two that the first line promises. -/
def oneLine : List ProcLine := [⟨0, "p0s".toList, 139⟩]

theorem oneLine_fits : ∀ l ∈ oneLine, l.Fits := by
  intro l hl
  rw [List.mem_singleton.mp hl]
  exact ⟨by decide, by decide, by decide⟩

theorem oneLine_good : ∀ l ∈ oneLine, l.Good := fun l hl => (oneLine_fits l hl).good

theorem readConfig_sizes_oneLine :
    readConfig (some (renderConfig 2 1 4096 [64, 0, 0, 0] oneLine)) = .ok
      { timeSlot := 2, numCpus := 1, numProcesses := 1, memramsz := 4096, memswpsz := [64, 0, 0, 0],
        processes := [⟨0, "input/proc/p0s".toList, 139⟩] } := by
  obtain ⟨rest, -, hentries⟩ := entriesText_render oneLine_fits (show Blank [] by decide)
  exact readConfig_sizes (countsText_render (by decide) (by decide) (by decide)
    (endsAt_cons.mpr (by decide))) (show Blank ['\n'] by decide)
    (memoryText_render (by decide) (by decide) rfl _) hentries oneLine_good

theorem readConfig_first_oneLine :
    readConfig (some (renderCounts 2 1 2 (['\n'] ++
      ((⟨0, "proc-1".toList, 0⟩ : ProcLine).render ++ [] ++
        (['\n'] ++ renderEntries oneLine))))) = .ok
      { timeSlot := 2, numCpus := 1, numProcesses := 2, memramsz := 0x100000000,
        memswpsz := [0x1000000, 0, 0, 0],
        processes := [⟨0, "input/proc/proc-1".toList, 0⟩, ⟨0, "input/proc/p0s".toList, 139⟩] } := by
  have hfits : (⟨0, "proc-1".toList, 0⟩ : ProcLine).Fits :=
    ⟨by decide, by decide, by decide⟩
  obtain ⟨rest, -, hentries⟩ := entriesText_render oneLine_fits (show Blank [] by decide)
  exact readConfig_first (countsText_render (by decide) (by decide) (by decide)
    (endsAt_cons.mpr (by decide))) (show Blank ['\n'] by decide)
    (firstText_render hfits (by decide) _) hentries
    (List.forall_mem_cons.mpr ⟨hfits.good, oneLine_good⟩)

theorem readConfig_missing_oneLine :
    readConfig (some (renderCounts 2 1 3
      (['\n'] ++ (Nat.toDigits 10 4096 ++ (spaced [64, 0, 0, 0] ++ []) ++
        (['\n'] ++ renderEntries oneLine))))) = .error (.reported (.invalidLine 2)) := by
  obtain ⟨rest, hrest, hentries⟩ := entriesText_render oneLine_fits (show Blank [] by decide)
  exact readConfig_missing (n := 1) (countsText_render (by decide) (by decide) (by decide)
    (endsAt_cons.mpr (by decide))) (show Blank ['\n'] by decide)
    (.sizes (memoryText_render (by decide) (by decide) rfl _) hentries) oneLine_good hrest

end Render

end Ossim.Files
