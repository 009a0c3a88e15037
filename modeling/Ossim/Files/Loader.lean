import Ossim.Lib.Scan
import Ossim.Mem.System

/-!
Program files: `load` of `loader.c`.

The loop reads an opcode and then its arguments, for most opcodes with
`fscanf`, for the copies and the system calls with `sscanf` from what `fgets`
took of the line. Neither call is checked. What it does not assign keeps what
was there before, be it from the round before or from `malloc`, and so the
model takes the contents of that memory as a parameter.

A text is laid out line by line, and `load` reads back the program it was laid
out for, wherever the text goes on. If the text ends too early, the last
opcode is read again until the program has the size that the header gives.
-/

namespace Ossim.Files

open Lib.Scan
open Mem (Inst Opcode)

/-- `OPT_CALC` to `OPT_COPY_TO_USER` -/
def opt : Opcode → List Char
  | .calc => "calc".toList
  | .alloc => "alloc".toList
  | .free => "free".toList
  | .read => "read".toList
  | .write => "write".toList
  | .syscall => "syscall".toList
  | .kmalloc => "kmalloc".toList
  | .kmemCacheCreate => "kmem_cache_create".toList
  | .kmemCacheAlloc => "kmem_cache_alloc".toList
  | .copyFromUser => "copy_from_user".toList
  | .copyToUser => "copy_to_user".toList

/-- `get_opcode`; an unknown name ends the simulator. -/
def getOpcode (name : List Char) : Option Opcode :=
  [Opcode.calc, .alloc, .free, .read, .write, .kmalloc, .kmemCacheCreate, .kmemCacheAlloc,
    .copyFromUser, .copyToUser, .syscall].find? fun op => opt op = cstr name

/-- What the memory holds that `load` has not written yet. -/
structure Garbage where
  priority : Nat
  size : Nat
  opcode : List Char
  buf : List Char
  text : Nat → Inst

/-- The loop of `load`: the rest of the file and the two buffers. -/
structure LoadState where
  file : List Char
  opcode : List Char
  buf : List Char

/-- Argument `i` after a call that assigned `vs`. -/
def argAfter (vs : List Value) (i : Nat) (old : BitVec 64) : BitVec 64 :=
  match vs[i]? with
  | some (.nat n) => BitVec.ofNat 64 n
  | _ => old

def assignArgs (ins : Inst) (vs : List Value) : Inst :=
  { ins with
    arg0 := argAfter vs 0 ins.arg0
    arg1 := argAfter vs 1 ins.arg1
    arg2 := argAfter vs 2 ins.arg2
    arg3 := argAfter vs 3 ins.arg3 }

/-- The `switch` of `load`: the arguments, the file and `buf` after it. -/
def readArgs (op : Opcode) (file buf : List Char) : List Value × List Char × List Char :=
  match op with
  | .calc => ([], file, buf)
  | .kmemCacheAlloc | .kmalloc | .alloc =>
    let (vs, file) := scanf [.unsigned 64, .space, .unsigned 64, .space] file
    (vs, file, buf)
  | .free =>
    let (vs, file) := scanf [.unsigned 64, .space] file
    (vs, file, buf)
  | .kmemCacheCreate | .read | .write =>
    let (vs, file) :=
      scanf [.unsigned 64, .space, .unsigned 64, .space, .unsigned 64, .space] file
    (vs, file, buf)
  | .copyFromUser | .copyToUser | .syscall =>
    let (buf, file) := (fgets 200 file).getD (buf, file)
    ((scanf [.unsigned 64, .unsigned 64, .unsigned 64, .unsigned 64] (cstr buf)).1, file, buf)

/-- The buffer of a `%s` after the call. -/
def wordAfter (vs : List Value) (old : List Char) : List Char :=
  match vs with
  | [.text w] => w
  | _ => old

/-- One round of the loop of `load`. -/
def loadInst (junk : Inst) (s : LoadState) : Option (Inst × LoadState) :=
  let (vs, file) := scanf [.word 31] s.file
  let opcode := wordAfter vs s.opcode
  (getOpcode opcode).map fun op =>
    let (vs, file, buf) := readArgs op file s.buf
    (assignArgs { junk with opcode := op } vs, ⟨file, opcode, buf⟩)

/-- The loop, from instruction `i` on. -/
def loadText (junk : Nat → Inst) : (n i : Nat) → LoadState → Option (List Inst)
  | 0, _, _ => some []
  | n + 1, i, s =>
    (loadInst (junk i) s).bind fun r => (loadText junk n (i + 1) r.2).map (r.1 :: ·)

/-- What `load` makes of a file. -/
structure Program where
  priority : Nat
  code : List Inst

def natAfter (vs : List Value) (i old : Nat) : Nat :=
  match vs[i]? with
  | some (.nat n) => n
  | _ => old

/-- `load`; `none` is the end of the simulator. -/
def load (junk : Garbage) (file : Option (List Char)) : Option Program :=
  file.bind fun file =>
    let (vs, file) := scanf [.unsigned 32, .space, .unsigned 32] file
    (loadText junk.text (natAfter vs 1 junk.size) 0 ⟨file, junk.opcode, junk.buf⟩).map
      (⟨natAfter vs 0 junk.priority, ·⟩)

/-! ### Lines of a program file -/

/-- An instruction as a file gives it. -/
structure Line where
  op : Opcode
  args : List Nat
  deriving DecidableEq

/-- The number of arguments that `fscanf` reads, for the opcodes whose
arguments are not taken from the line. -/
def arity : Opcode → Option Nat
  | .calc => some 0
  | .free => some 1
  | .alloc | .kmalloc | .kmemCacheAlloc => some 2
  | .read | .write | .kmemCacheCreate => some 3
  | .copyFromUser | .copyToUser | .syscall => none

/-- A text that begins with a line. The arguments of `fscanf` may be spread
over several lines. The others stand on the line of their opcode, which may
be the last one of the file and have no newline. -/
inductive LineText : Line → List Char → List Char → Prop
  | scanned {lead args rest op ns} (hlead : Blank lead) (hop : arity op = some ns.length)
      (hargs : Numbers isSpace 64 ns args) (hdigit : EndsAt Char.isDigit rest)
      (hspace : EndsAt (fun c => !isSpace c) (args ++ rest)) :
      LineText ⟨op, ns⟩ (lead ++ (opt op ++ (args ++ rest))) rest
  | line {lead args trail nl rest op ns} (hlead : Blank lead) (hop : arity op = none)
      (hlen : ns.length ≤ 4) (hargs : Numbers isBlank 64 ns args)
      (htrail : ∀ c ∈ trail, isBlank c = true) (hnl : nl = ['\n'] ∨ nl = [] ∧ rest = [])
      (hne : args ++ trail ++ nl ≠ []) (hfits : (args ++ trail ++ nl).length < 200) :
      LineText ⟨op, ns⟩ (lead ++ (opt op ++ (args ++ trail ++ (nl ++ rest)))) rest

/-- A text that begins with the lines. -/
inductive ProgramText : List Line → List Char → List Char → Prop
  | nil {rest} : ProgramText [] rest rest
  | cons {l ls cs mid rest} (hl : LineText l cs mid) (hls : ProgramText ls mid rest) :
      ProgramText (l :: ls) cs rest

/-- The instruction of a line. The arguments it does not give are what was
there before. -/
def Line.inst (junk : Inst) (l : Line) : Inst :=
  assignArgs { junk with opcode := l.op } (l.args.map .nat)

def placed (junk : Nat → Inst) : Nat → List Line → List Inst
  | _, [] => []
  | i, l :: ls => l.inst (junk i) :: placed junk (i + 1) ls

/-- The buffers after a line: the next opcode that cannot be read will be its
opcode, and the arguments from `buf` will be its arguments. -/
def LoadState.Last (s : LoadState) (l : Line) : Prop :=
  s.opcode = opt l.op ∧ (arity l.op = none →
    (scanf (List.replicate 4 (.unsigned 64)) (cstr s.buf)).1 = l.args.map .nat)

section Lines

variable {op : Opcode} {ns : List Nat} {l : Line} {cs args rest : List Char} {s : LoadState}
  {junk : Inst}

theorem word_opt (op : Opcode) : Word 31 (opt op) := by
  cases op <;> decide

theorem getOpcode_opt (op : Opcode) : getOpcode (opt op) = some op := by
  cases op <;> decide

theorem scanf_spaced (k : Nat) :
    scanf ((List.replicate (k + 1) [Directive.unsigned 64, .space]).flatten) cs =
      scanf (List.replicate (k + 1) (.unsigned 64) ++ [.space]) cs := by
  induction k generalizing cs with
  | zero => rfl
  | succ k ih =>
      rw [List.replicate_succ, List.flatten_cons, List.replicate_succ (n := k + 1),
        List.cons_append]
      refine scanf_cons_congr fun cs => ?_
      calc scanf (.space :: (List.replicate (k + 1) [Directive.unsigned 64, .space]).flatten) cs
          = scanf (List.replicate (k + 1) [Directive.unsigned 64, .space]).flatten cs :=
            scanf_space_cons (by decide)
        _ = _ := ih

/-- Where the format gives as many directives as the text has numbers, they
are the arguments, and the file goes on where they end, up to white space. -/
theorem readArgs_scanned (hop : arity op = some ns.length) (hargs : Numbers isSpace 64 ns args)
    (hdigit : EndsAt Char.isDigit rest) (buf : List Char) :
    ∃ file, readArgs op (args ++ rest) buf = (ns.map .nat, file, buf) ∧
      skipSpace file = skipSpace rest := by
  have hscanf (k : Nat) (hk : ns.length = k + 1) :
      scanf ((List.replicate (k + 1) [Directive.unsigned 64, .space]).flatten) (args ++ rest) =
        (ns.map .nat, skipSpace rest) := by
    rw [scanf_spaced, ← hk, hargs.scanf (fun _ h => h) (Nat.le_refl 64) hdigit, scanf_space,
      List.append_nil]
  cases op with
  | copyFromUser | copyToUser | syscall => cases hop
  | «calc» =>
      obtain rfl := List.eq_nil_of_length_eq_zero (Option.some.inj hop).symm
      cases hargs
      exact ⟨rest, rfl, rfl⟩
  | free =>
      have h := hscanf 0 (Option.some.inj hop).symm
      exact ⟨skipSpace rest, congrArg (fun r => (r.1, r.2, buf)) h, skipSpace_skipSpace rest⟩
  | alloc | kmalloc | kmemCacheAlloc =>
      have h := hscanf 1 (Option.some.inj hop).symm
      exact ⟨skipSpace rest, congrArg (fun r => (r.1, r.2, buf)) h, skipSpace_skipSpace rest⟩
  | read | write | kmemCacheCreate =>
      have h := hscanf 2 (Option.some.inj hop).symm
      exact ⟨skipSpace rest, congrArg (fun r => (r.1, r.2, buf)) h, skipSpace_skipSpace rest⟩

theorem readArgs_line (hop : arity op = none) (buf : List Char) :
    readArgs op cs buf =
      let (buf, file) := (fgets 200 cs).getD (buf, cs)
      ((scanf (List.replicate 4 (.unsigned 64)) (cstr buf)).1, file, buf) := by
  cases op with
  | copyFromUser | copyToUser | syscall => rfl
  | «calc» | free | alloc | kmalloc | kmemCacheAlloc | read | write | kmemCacheCreate => cases hop

theorem loadInst_of_word (junk : Inst) {name file : List Char}
    (hscanf : scanf [.word 31] s.file = ([.text name], file)) (hop : getOpcode name = some op) :
    loadInst junk s = some (assignArgs { junk with opcode := op } (readArgs op file s.buf).1,
      ⟨(readArgs op file s.buf).2.1, name, (readArgs op file s.buf).2.2⟩) := by
  simp only [loadInst, hscanf, wordAfter, hop, Option.map_some]

/-- One round reads one line. -/
theorem loadInst_line (junk : Inst) (h : LineText l cs rest)
    (hs : skipSpace s.file = skipSpace cs) :
    ∃ s', loadInst junk s = some (l.inst junk, s') ∧ skipSpace s'.file = skipSpace rest ∧
      s'.Last l := by
  have hword {lead after : List Char} {op : Opcode} (hcs : cs = lead ++ (opt op ++ after))
      (hlead : Blank lead) (hafter : EndsAt (fun c => !isSpace c) after) :
      scanf [.word 31] s.file = ([.text (opt op)], after) := by
    rw [← scanf_skipSpace (by decide), hs, scanf_skipSpace (by decide), hcs,
      scanf_cons_some ((word_opt op).convert_word hlead hafter)]
    rfl
  cases h with
  | @scanned lead args _ op ns hlead hop hargs hdigit hspace =>
      obtain ⟨file, hread, hfile⟩ := readArgs_scanned hop hargs hdigit s.buf
      have hround := loadInst_of_word junk (hword rfl hlead hspace) (getOpcode_opt op)
      rw [hread] at hround
      refine ⟨_, hround, hfile, rfl, fun hnone => ?_⟩
      rw [hop] at hnone
      cases hnone
  | @line lead args trail nl _ op ns hlead hop hlen hargs htrail hnl hne hfits =>
      have hblank : Blank (trail ++ nl) := by
        refine blank_append.mpr ⟨fun c hc => isSpace_of_isBlank (htrail c hc), ?_⟩
        rcases hnl with rfl | ⟨rfl, -⟩
        · decide
        · decide
      have hline : '\n' ∉ args ++ trail := by
        intro hmem
        rcases List.mem_append.mp hmem with hmem | hmem
        · exact hargs.not_mem (by decide) (by decide) hmem
        · exact absurd (htrail _ hmem) (by decide)
      have hnul : '\x00' ∉ args ++ (trail ++ nl) := by
        intro hmem
        rcases List.mem_append.mp hmem with hmem | hmem
        · exact hargs.not_mem (by decide) (by decide) hmem
        · exact absurd (hblank _ hmem) (by decide)
      have hafter : EndsAt (fun c => !isSpace c) (args ++ trail ++ (nl ++ rest)) := by
        rw [List.append_assoc]
        refine hargs.endsAt (fun c hc => by simp [isSpace_of_isBlank hc]) ?_
        rw [← List.append_assoc]
        intro c hc
        cases hcs : trail ++ nl with
        | nil =>
            have hrest : rest = [] := by
              rcases hnl with rfl | ⟨-, hrest⟩
              · simp at hcs
              · exact hrest
            rw [hcs, hrest] at hc
            cases hc
        | cons d ds =>
            rw [hcs] at hc hblank
            obtain rfl : d = c := Option.some.inj hc
            simp [hblank d List.mem_cons_self]
      have hround := loadInst_of_word junk (hword rfl hlead hafter) (getOpcode_opt op)
      have hvalues : (scanf (List.replicate 4 (.unsigned 64)) (cstr (args ++ trail ++ nl))).1 =
          ns.map .nat := by
        rw [List.append_assoc, cstr_of_not_mem hnul]
        exact hargs.scanf_replicate (fun _ => isSpace_of_isBlank) (Nat.le_refl 64) hblank hlen
      rw [readArgs_line hop, fgets_line hline hnl hne hfits] at hround
      simp only [Option.getD_some, hvalues] at hround
      exact ⟨_, hround, rfl, rfl, fun _ => hvalues⟩

/-- What a line becomes when it is read again at the end of the file: only
the arguments that come from `buf` are still there. -/
def Line.again (l : Line) : Line :=
  match arity l.op with
  | none => l
  | some _ => { l with args := [] }

/-- At the end of the file a round reads the last line again. -/
theorem loadInst_again (junk : Inst) (hfile : skipSpace s.file = []) (h : s.Last l) :
    ∃ s', loadInst junk s = some (l.again.inst junk, s') ∧ skipSpace s'.file = [] ∧ s'.Last l := by
  have hscanf : scanf [.word 31] s.file = ([], []) := by
    rw [← scanf_skipSpace (by decide), hfile]
    rfl
  have hround : loadInst junk s = some
      (assignArgs { junk with opcode := l.op } (readArgs l.op [] s.buf).1,
        ⟨(readArgs l.op [] s.buf).2.1, s.opcode, (readArgs l.op [] s.buf).2.2⟩) := by
    simp only [loadInst, hscanf, wordAfter, h.1, getOpcode_opt, Option.map_some]
  cases hop : arity l.op with
  | none =>
      have hread : readArgs l.op [] s.buf = (l.args.map .nat, [], s.buf) := by
        rw [readArgs_line hop]
        exact congrArg (fun vs => (vs, [], s.buf)) (h.2 hop)
      rw [hread] at hround
      refine ⟨⟨[], s.opcode, s.buf⟩, ?_, rfl, h⟩
      rw [Line.again, hop]
      exact hround
  | some k =>
      have hread : readArgs l.op [] s.buf = ([], [], s.buf) := by
        cases hl : l.op with
        | copyFromUser | copyToUser | syscall =>
            rw [hl] at hop
            cases hop
        | «calc» | free | alloc | kmalloc | kmemCacheAlloc | read | write | kmemCacheCreate => rfl
      rw [hread] at hround
      refine ⟨⟨[], s.opcode, s.buf⟩, ?_, rfl, h⟩
      rw [Line.again, hop]
      exact hround

end Lines

/-! ### Whole files -/

section Files

variable {l : Line} {ls : List Line} {cs rest : List Char} {s : LoadState} {junk : Nat → Inst}

theorem placed_append (i : Nat) (ls₁ ls₂ : List Line) :
    placed junk i (ls₁ ++ ls₂) = placed junk i ls₁ ++ placed junk (i + ls₁.length) ls₂ := by
  induction ls₁ generalizing i with
  | nil => rfl
  | cons l ls₁ ih =>
      rw [List.cons_append, placed, placed, ih, List.cons_append, List.length_cons,
        Nat.add_comm ls₁.length, Nat.add_assoc]

/-- The rounds of the lines, and where they leave the loop. -/
theorem loadText_lines (junk : Nat → Inst) (h : ProgramText ls cs rest)
    (hs : skipSpace s.file = skipSpace cs) (n i : Nat) :
    ∃ s', skipSpace s'.file = skipSpace rest ∧
      (∀ l₀, ls ≠ [] ∨ s.Last l₀ → s'.Last (ls.getLastD l₀)) ∧
      loadText junk (ls.length + n) i s =
        (loadText junk n (i + ls.length) s').map (placed junk i ls ++ ·) := by
  induction h generalizing s i with
  | nil =>
      refine ⟨s, hs, fun l₀ hlast => hlast.resolve_left (· rfl), ?_⟩
      simp [placed]
  | @cons l ls cs mid rest hl _ ih =>
      obtain ⟨s₁, hround, hfile, hlast₁⟩ := loadInst_line (junk i) hl hs
      obtain ⟨s', hrest, hlast', htext⟩ := ih hfile (i + 1)
      refine ⟨s', hrest, fun l₀ _ => ?_, ?_⟩
      · rw [List.getLastD_cons]
        exact hlast' l (.inr hlast₁)
      · rw [List.length_cons, Nat.add_right_comm, loadText, hround, Option.bind_some, htext,
          Option.map_map, placed, Nat.add_right_comm i 1, Nat.add_assoc i]
        rfl

/-- The rounds at the end of the file. -/
theorem loadText_again (hfile : skipSpace s.file = []) (h : s.Last l) (n i : Nat) :
    loadText junk n i s = some (placed junk i (List.replicate n l.again)) := by
  induction n generalizing s i with
  | zero => rfl
  | succ n ih =>
      obtain ⟨s₁, hround, hfile₁, h₁⟩ := loadInst_again (junk i) hfile h
      rw [loadText, hround, Option.bind_some, ih hfile₁ h₁]
      rfl

/-- A text that begins with a priority and a size. -/
inductive HeaderText : (priority size : Nat) → List Char → List Char → Prop
  | mk {ws₁ ds₁ ws₂ ds₂ body priority size} (hws₁ : Blank ws₁) (hds₁ : Numeral ds₁ priority)
      (hpriority : priority < 2 ^ 32) (hne : ws₂ ≠ []) (hws₂ : Blank ws₂) (hds₂ : Numeral ds₂ size)
      (hsize : size < 2 ^ 32) (hbody : EndsAt Char.isDigit body) :
      HeaderText priority size (ws₁ ++ (ds₁ ++ (ws₂ ++ (ds₂ ++ body)))) body

theorem load_header {priority size : Nat} {text body : List Char} {junk : Garbage}
    (h : HeaderText priority size text body) :
    load junk (some text) =
      (loadText junk.text size 0 ⟨body, junk.opcode, junk.buf⟩).map (⟨priority, ·⟩) := by
  cases h with
  | @mk ws₁ ds₁ ws₂ ds₂ _ _ _ hws₁ hds₁ hpriority hne hws₂ hds₂ hsize hbody =>
      have hscanf : scanf [.unsigned 32, .space, .unsigned 32]
          (ws₁ ++ (ds₁ ++ (ws₂ ++ (ds₂ ++ body)))) = ([.nat priority, .nat size], body) := by
        rw [scanf_cons_some (hds₁.convert_unsigned hws₁ (by decide) hpriority
            (endsAt_isDigit_of_blank hne hws₂)), scanf_space_cons (by decide),
          scanf_cons_some (hds₂.convert_unsigned hws₂ (by decide) hsize hbody)]
        rfl
      simp only [load, Option.bind_some, hscanf]
      rfl

variable {priority n : Nat} {text body : List Char} {junk : Garbage}

/-- `load` reads back the program that a text is laid out for, whatever stands
behind it. -/
theorem load_lines (hheader : HeaderText priority ls.length text body)
    (hbody : ProgramText ls body rest) :
    load junk (some text) = some ⟨priority, placed junk.text 0 ls⟩ := by
  obtain ⟨s', -, -, htext⟩ := loadText_lines junk.text
    (s := ⟨body, junk.opcode, junk.buf⟩) hbody rfl 0 0
  rw [load_header hheader, ← Nat.add_zero ls.length, htext]
  simp [loadText]

/-- A line that a program file can hold. -/
def Line.Fits (l : Line) : Prop :=
  (∀ n ∈ l.args, n < 2 ^ 64) ∧ l.args.length ≤ 4 ∧ ∀ k ∈ arity l.op, l.args.length = k

instance (l : Line) : Decidable l.Fits := inferInstanceAs (Decidable (_ ∧ _ ∧ ∀ k ∈ arity l.op, _))

theorem LineText.fits (h : LineText l cs rest) : l.Fits := by
  cases h with
  | @scanned _ _ _ op ns _ hop hargs =>
      refine ⟨hargs.lt, ?_, fun k hk => (Option.some.inj (hop.symm.trans hk))⟩
      have hlen : ∀ k ∈ arity op, k ≤ 4 := by
        cases op <;> decide
      exact hlen _ hop
  | line _ hop hlen hargs =>
      refine ⟨hargs.lt, hlen, fun k hk => ?_⟩
      rw [hop] at hk
      cases hk

theorem ProgramText.fits (h : ProgramText ls cs rest) : ∀ l ∈ ls, l.Fits := by
  induction h with
  | nil => simp
  | cons hl _ ih => exact List.forall_mem_cons.mpr ⟨hl.fits, ih⟩

/-- One line for each instruction, as in `input/proc`. -/
def renderLines (ls : List Line) : List Char :=
  (ls.map fun l => opt l.op ++ (spaced l.args ++ ['\n'])).flatten

def renderHeader (priority size : Nat) (body : List Char) : List Char :=
  Nat.toDigits 10 priority ++ ([' '] ++ (Nat.toDigits 10 size ++ body))

def render (priority : Nat) (ls : List Line) : List Char :=
  renderHeader priority ls.length (['\n'] ++ renderLines ls)

theorem programText_render (h : ∀ l ∈ ls, l.Fits) {lead : List Char} (hlead : Blank lead)
    (after : List Char) :
    ∃ rest, skipSpace rest = skipSpace after ∧
      ProgramText ls (lead ++ (renderLines ls ++ after)) rest := by
  induction ls generalizing lead with
  | nil => exact ⟨lead ++ after, skipSpace_append hlead, .nil⟩
  | cons l ls ih =>
      obtain ⟨hfits, hls⟩ := List.forall_mem_cons.mp h
      have htext : lead ++ (renderLines (l :: ls) ++ after) =
          lead ++ (opt l.op ++ (spaced l.args ++ [] ++ (['\n'] ++ (renderLines ls ++ after)))) := by
        simp [renderLines]
      rw [htext]
      obtain ⟨hargs, hlen, harity⟩ := hfits
      cases hop : arity l.op with
      | some k =>
          obtain ⟨rest, hrest, hprog⟩ := ih hls (show Blank ['\n'] by decide)
          have hk := harity k hop
          have hnumbers : Numbers isSpace 64 l.args (spaced l.args) :=
            numbers_spaced (by decide) hargs
          rw [List.append_nil]
          refine ⟨rest, hrest, .cons (.scanned hlead (hop.trans (congrArg some hk.symm)) hnumbers
            ?_ ?_) hprog⟩
          · exact endsAt_cons.mpr (by decide)
          · exact hnumbers.endsAt (fun c hc => by simp [hc]) (endsAt_cons.mpr (by decide))
      | none =>
          obtain ⟨rest, hrest, hprog⟩ := ih hls (show Blank [] by decide)
          have hfits : (spaced l.args ++ [] ++ ['\n']).length < 200 := by
            have hspaced := length_spaced_le hargs
            rw [List.append_nil, List.length_append, List.length_singleton]
            omega
          exact ⟨rest, hrest, .cons (.line hlead hop hlen (numbers_spaced (by decide) hargs)
            (by simp) (.inl rfl) (by simp) hfits) hprog⟩

theorem headerText_render {priority size : Nat} (hpriority : priority < 2 ^ 32)
    (hsize : size < 2 ^ 32)
    {body : List Char} (hbody : EndsAt Char.isDigit body) :
    HeaderText priority size (renderHeader priority size body) body :=
  .mk (show Blank [] by decide) (numeral_toDigits priority) hpriority (by decide) (by decide)
    (numeral_toDigits size) hsize hbody

theorem ProgramText.take (h : ProgramText ls cs rest) (k : Nat) :
    ∃ mid, ProgramText (ls.take k) cs mid := by
  induction h generalizing k with
  | nil =>
      rw [List.take_nil]
      exact ⟨_, .nil⟩
  | cons hl _ ih =>
      cases k with
      | zero => exact ⟨_, .nil⟩
      | succ k =>
          obtain ⟨mid, hmid⟩ := ih k
          exact ⟨mid, .cons hl hmid⟩

/-- The size in the header decides how many lines `load` reads. If the text
has more, the others are not looked at. If it ends before, then the last line
is read again for each missing one, without the arguments that `fscanf` would
have read. -/
theorem load_text {size : Nat} (hheader : HeaderText priority size text body)
    (hbody : ProgramText ls body rest) :
    (size ≤ ls.length →
      load junk (some text) = some ⟨priority, placed junk.text 0 (ls.take size)⟩) ∧
    (ls.length < size → Blank rest → ∀ hne : ls ≠ [],
      load junk (some text) = some ⟨priority, placed junk.text 0
        (ls ++ List.replicate (size - ls.length) (ls.getLast hne).again)⟩) := by
  constructor
  · intro hle
    obtain ⟨mid, hmid⟩ := hbody.take size
    have hlen : (ls.take size).length = size := by
      rw [List.length_take, Nat.min_eq_left hle]
    rw [← hlen] at hheader
    exact load_lines hheader hmid
  · intro hlt hrest hne
    obtain ⟨n, rfl⟩ := Nat.exists_eq_add_of_le (Nat.le_of_lt hlt)
    obtain ⟨s', hfile, hlast, htext⟩ := loadText_lines junk.text
      (s := ⟨body, junk.opcode, junk.buf⟩) hbody rfl n 0
    have hend := hlast (ls.getLast hne) (.inl hne)
    rw [List.getLastD_eq_getLast?, List.getLast?_eq_some_getLast hne, Option.getD_some] at hend
    rw [skipSpace_blank hrest] at hfile
    rw [load_header hheader, htext, loadText_again hfile hend, Nat.add_sub_cancel_left,
      placed_append]
    rfl

def sc : List Line := [⟨.alloc, [300, 0]⟩, ⟨.syscall, [17, 2]⟩]

theorem sc_fits : ∀ l ∈ sc, l.Fits := by
  decide

/-- Memory full of ones. -/
def ones : Garbage := ⟨1, 1, ['1'], ['1'], fun _ => ⟨.calc, 1, 1, 1, 1⟩⟩

/-- A program of two lines in files that promise one and four. -/
theorem load_text_sc :
    load ones (some (renderHeader 1 1 (['\n'] ++ renderLines sc))) =
      some ⟨1, [⟨.alloc, 300, 0, 1, 1⟩]⟩ ∧
    load ones (some (renderHeader 1 4 (['\n'] ++ renderLines sc))) =
      some ⟨1, [⟨.alloc, 300, 0, 1, 1⟩, ⟨.syscall, 17, 2, 1, 1⟩, ⟨.syscall, 17, 2, 1, 1⟩,
        ⟨.syscall, 17, 2, 1, 1⟩]⟩ := by
  obtain ⟨rest, hrest, hprog⟩ := programText_render sc_fits (show Blank ['\n'] by decide) []
  rw [List.append_nil] at hprog
  have hheader {n : Nat} (hn : n < 2 ^ 32) :
      HeaderText 1 n (renderHeader 1 n (['\n'] ++ renderLines sc)) (['\n'] ++ renderLines sc) :=
    headerText_render (by decide) hn (endsAt_cons.mpr (by decide))
  exact ⟨(load_text (hheader (by decide)) hprog).1 (by decide),
    (load_text (hheader (by decide)) hprog).2 (by decide) (skipSpace_eq_nil_iff.mp hrest)
      (by decide)⟩

theorem getOpcode_eq_none {name : List Char} (h : ∀ op, opt op ≠ cstr name) :
    getOpcode name = none :=
  List.find?_eq_none.mpr fun op _ => by simpa using h op

/-- The first word that is not an opcode, where one has to stand, ends the
simulator. -/
theorem load_unknown {mid name after : List Char}
    (hheader : HeaderText priority (ls.length + 1 + n) text body) (hbody : ProgramText ls body mid)
    (hmid : skipSpace mid = name ++ after) (hname : Word name.length name)
    (hafter : EndsAt (fun c => !isSpace c) after) (hunknown : ∀ op, opt op ≠ name) :
    load junk (some text) = none := by
  obtain ⟨s', hfile, -, htext⟩ := loadText_lines junk.text
    (s := ⟨body, junk.opcode, junk.buf⟩) hbody rfl (1 + n) 0
  have htake : ((name ++ after).takeWhile fun c => !isSpace c) = name :=
    takeWhile_of_endsAt (fun c hc => by simp [hname.not_isSpace c hc]) hafter
  have hscanf : scanf [.word 31] s'.file =
      ([.text (name.take 31)], (name ++ after).drop (name.take 31).length) := by
    have hne : name.take 31 ≠ [] := by
      simpa using hname.ne_nil
    have hconvert : convert (.word 31) (name ++ after) =
        (some [.text (name.take 31)], (name ++ after).drop (name.take 31).length) := by
      simp only [convert, skipSpace_of_endsAt hname.endsAt_isSpace, htake, if_neg hne]
    rw [← scanf_skipSpace (by decide), hfile, hmid, scanf_cons_some hconvert]
    rfl
  have hnone : getOpcode (name.take 31) = none := by
    refine getOpcode_eq_none fun op heq => ?_
    have hnul : cstr (name.take 31) = name.take 31 :=
      cstr_of_not_mem fun hmem => hname.not_nul _ (List.mem_of_mem_take hmem) rfl
    rw [hnul] at heq
    -- no opcode is as long as the part that is read of a longer word
    have hlen : (opt op).length < 31 := by
      cases op <;> decide
    rw [heq, List.length_take] at hlen
    rw [List.take_of_length_le (by omega)] at heq
    exact hunknown op heq
  have hround : loadInst (junk.text (0 + ls.length)) s' = none := by
    simp only [loadInst, hscanf, wordAfter, hnone, Option.map_none]
  rw [load_header hheader, Nat.add_assoc, htext, Nat.add_comm 1 n, loadText, hround]
  rfl

/-- The program `sc` and a third line, whose opcode is misspelt. -/
theorem load_unknown_sc :
    load ones (some (renderHeader 1 3 (['\n'] ++ (renderLines sc ++ "aloc 1 2".toList)))) =
      none := by
  obtain ⟨rest, hrest, hprog⟩ := programText_render sc_fits (show Blank ['\n'] by decide)
    "aloc 1 2".toList
  have hbody : EndsAt Char.isDigit (['\n'] ++ (renderLines sc ++ "aloc 1 2".toList)) :=
    endsAt_cons.mpr (by decide)
  have hheader : HeaderText 1 (sc.length + 1 + 0)
      (renderHeader 1 3 (['\n'] ++ (renderLines sc ++ "aloc 1 2".toList)))
      (['\n'] ++ (renderLines sc ++ "aloc 1 2".toList)) :=
    headerText_render (by decide) (by decide) hbody
  have hname : Word "aloc".toList.length "aloc".toList := by decide
  have hafter : EndsAt (fun c => !isSpace c) " 1 2".toList := by decide
  exact load_unknown hheader hprog hrest hname hafter fun op => by cases op <;> decide

end Files

end Ossim.Files
