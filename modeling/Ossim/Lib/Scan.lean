import Mathlib.Algebra.Group.Int.Defs
import Mathlib.Algebra.Group.Nat.Defs
import Mathlib.Data.List.TakeWhile

/-!
Reading text the way `scanf` and `fgets` do.

A stream is the list of the characters still to come. Each directive of a
format takes some of them and may yield a value. The first directive that
fails ends the call, and what it has taken by then is gone.

For the other direction a text is laid out piece by piece, with the characters
that follow it left open: a numeral ends where no digit follows, and a word
ends where a space does.
-/

namespace Ossim.Lib.Scan

/-- `isspace` -/
def isSpace (c : Char) : Bool := c = ' ' || (9 ≤ c.toNat && c.toNat ≤ 13)

/-- White space within a line. -/
def isBlank (c : Char) : Bool := isSpace c && c != '\n'

def skipSpace (cs : List Char) : List Char := cs.dropWhile isSpace

/-- Whether a minus comes next, and what follows the sign, if there is one. -/
def sign : List Char → Bool × List Char
  | '-' :: cs => (true, cs)
  | '+' :: cs => (false, cs)
  | cs => (false, cs)

/-- The digits that come next, as a number. -/
def digits (cs : List Char) : Option Nat × List Char :=
  (if cs.takeWhile Char.isDigit = [] then none
    else some (Nat.ofDigitChars 10 (cs.takeWhile Char.isDigit) 0),
  cs.dropWhile Char.isDigit)

/-- `strtoul` in base ten -/
def strtoul (minus : Bool) (n : Nat) : Nat :=
  if 2 ^ 64 ≤ n then 2 ^ 64 - 1 else if minus then (2 ^ 64 - n) % 2 ^ 64 else n

/-- `strtol` in base ten -/
def strtol (minus : Bool) (n : Nat) : Int :=
  if minus then max (-2 ^ 63) (-n) else min (2 ^ 63 - 1) n

inductive Directive where
  /-- white space in the format -/
  | space
  /-- `%u` and `%lu`, for a target of so many bits -/
  | unsigned (bits : Nat)
  /-- `%d` -/
  | signed (bits : Nat)
  /-- `%s` with a width -/
  | word (width : Nat)
  /-- `%c` -/
  | char
  deriving DecidableEq

inductive Value where
  | nat (n : Nat)
  | int (n : Int)
  | text (cs : List Char)
  deriving DecidableEq

/-- One directive: the values it assigns, unless it fails, and the rest of the
stream. A sign that no digit follows is lost. -/
def convert : Directive → List Char → Option (List Value) × List Char
  | .space, cs => (some [], skipSpace cs)
  | .unsigned bits, cs =>
    let (minus, cs) := sign (skipSpace cs)
    let (n, rest) := digits cs
    (n.map fun n => [.nat (strtoul minus n % 2 ^ bits)], rest)
  | .signed bits, cs =>
    let (minus, cs) := sign (skipSpace cs)
    let (n, rest) := digits cs
    (n.map fun n => [.int ((strtol minus n).bmod (2 ^ bits))], rest)
  | .word width, cs =>
    let cs := skipSpace cs
    let w := (cs.takeWhile fun c => !isSpace c).take width
    (if w = [] then none else some [.text w], cs.drop w.length)
  | .char, [] => (none, [])
  | .char, c :: cs => (some [.text [c]], cs)

/-- The values that a call assigns, in order. -/
def scanf : List Directive → List Char → List Value × List Char
  | [], cs => ([], cs)
  | d :: ds, cs =>
    match convert d cs with
    | (none, rest) => ([], rest)
    | (some vs, rest) => (vs ++ (scanf ds rest).1, (scanf ds rest).2)

/-- The characters up to the end of the line, but not more than the given
number. -/
def getLine : Nat → List Char → List Char × List Char
  | 0, cs => ([], cs)
  | _ + 1, [] => ([], [])
  | n + 1, c :: cs => if c = '\n' then ([c], cs) else (c :: (getLine n cs).1, (getLine n cs).2)

/-- `fgets` into a buffer of the given size, which stays as it is at the end
of the stream. -/
def fgets (size : Nat) (cs : List Char) : Option (List Char × List Char) :=
  if cs = [] then none else some (getLine (size - 1) cs)

/-- The string in a buffer. -/
def cstr (cs : List Char) : List Char := cs.takeWhile (· ≠ '\x00')

/-! ### Where a piece of text ends -/

/-- The text does not go on with a character of the kind. -/
def EndsAt (p : Char → Bool) (cs : List Char) : Prop := ∀ c ∈ cs.head?, p c = false

def Blank (cs : List Char) : Prop := ∀ c ∈ cs, isSpace c = true

theorem endsAt_iff_all {p : Char → Bool} {cs : List Char} :
    cs.head?.all (fun c => !p c) = true ↔ EndsAt p cs := by
  cases cs <;> simp [EndsAt]

instance (p : Char → Bool) (cs : List Char) : Decidable (EndsAt p cs) :=
  decidable_of_iff _ endsAt_iff_all

theorem blank_iff_all {cs : List Char} : cs.all isSpace = true ↔ Blank cs := List.all_eq_true

instance (cs : List Char) : Decidable (Blank cs) := decidable_of_iff _ blank_iff_all

section Ends

variable {p : Char → Bool} {ws cs rest : List Char} {c : Char}

@[simp] theorem endsAt_nil : EndsAt p [] := by
  intro c hc
  cases hc

@[simp] theorem endsAt_cons : EndsAt p (c :: cs) ↔ p c = false := by
  simp [EndsAt]

theorem EndsAt.append (h : EndsAt p cs) (hne : cs ≠ []) : EndsAt p (cs ++ rest) := by
  obtain ⟨c, cs, rfl⟩ := List.exists_cons_of_ne_nil hne
  exact endsAt_cons.mpr (endsAt_cons.mp h)

theorem takeWhile_of_endsAt (hcs : ∀ c ∈ cs, p c = true) (h : EndsAt p rest) :
    (cs ++ rest).takeWhile p = cs := by
  rw [List.takeWhile_append_of_pos hcs]
  cases rest with
  | nil => simp
  | cons c rest => rw [List.takeWhile_cons_of_neg (by simp [endsAt_cons.mp h]), List.append_nil]

theorem dropWhile_of_endsAt (hcs : ∀ c ∈ cs, p c = true) (h : EndsAt p rest) :
    (cs ++ rest).dropWhile p = rest := by
  rw [List.dropWhile_append_of_pos hcs]
  cases rest with
  | nil => rfl
  | cons c rest => rw [List.dropWhile_cons_of_neg (by simp [endsAt_cons.mp h])]

theorem not_isSpace_of_isDigit (h : c.isDigit = true) : isSpace c = false := by
  simp only [Char.isDigit, ge_iff_le, Bool.and_eq_true, decide_eq_true_eq, UInt32.le_iff_toNat_le]
    at h
  have hc : 48 ≤ c.toNat := h.1
  have hne : c ≠ ' ' := by
    intro heq
    rw [heq] at hc
    exact absurd hc (by decide)
  simp only [isSpace, hne, decide_false, Bool.false_or, Bool.and_eq_false_iff,
    decide_eq_false_iff_not]
  omega

theorem not_isDigit_of_isSpace (h : isSpace c = true) : c.isDigit = false := by
  by_contra hnot
  rw [Bool.not_eq_false] at hnot
  rw [not_isSpace_of_isDigit hnot] at h
  exact Bool.false_ne_true h

theorem isSpace_of_isBlank (h : isBlank c = true) : isSpace c = true :=
  (Bool.and_eq_true _ _ ▸ h).1

theorem endsAt_isDigit_of_blank (hne : ws ≠ []) (hws : Blank ws) :
    EndsAt Char.isDigit (ws ++ cs) := by
  obtain ⟨c, ws, rfl⟩ := List.exists_cons_of_ne_nil hne
  exact endsAt_cons.mpr (not_isDigit_of_isSpace (hws c List.mem_cons_self))

theorem blank_append : Blank (ws ++ cs) ↔ Blank ws ∧ Blank cs := List.forall_mem_append

@[simp] theorem skipSpace_nil : skipSpace [] = [] := rfl

theorem skipSpace_append (hws : Blank ws) : skipSpace (ws ++ cs) = skipSpace cs :=
  List.dropWhile_append_of_pos hws

theorem skipSpace_eq_nil_iff : skipSpace cs = [] ↔ Blank cs := List.dropWhile_eq_nil_iff

theorem skipSpace_blank (hws : Blank ws) : skipSpace ws = [] := skipSpace_eq_nil_iff.mpr hws

theorem skipSpace_of_endsAt (h : EndsAt isSpace cs) : skipSpace cs = cs := by
  cases cs with
  | nil => rfl
  | cons c cs => exact List.dropWhile_cons_of_neg (by simp [endsAt_cons.mp h])

theorem endsAt_dropWhile (p : Char → Bool) (cs : List Char) : EndsAt p (cs.dropWhile p) := by
  induction cs with
  | nil => exact endsAt_nil
  | cons c cs ih =>
      rw [List.dropWhile_cons]
      split
      · exact ih
      · rename_i h
        exact endsAt_cons.mpr (by simpa using h)

@[simp] theorem skipSpace_skipSpace (cs : List Char) :
    skipSpace (skipSpace cs) = skipSpace cs :=
  skipSpace_of_endsAt (endsAt_dropWhile isSpace cs)

end Ends

/-! ### Numerals and words -/

/-- A decimal numeral, possibly with zeros in front. -/
structure Numeral (ds : List Char) (n : Nat) : Prop where
  ne_nil : ds ≠ []
  isDigit : ∀ c ∈ ds, c.isDigit = true
  value : Nat.ofDigitChars 10 ds 0 = n

/-- A word as `%s` takes it, which also is the string that is stored. -/
structure Word (width : Nat) (w : List Char) : Prop where
  ne_nil : w ≠ []
  length_le : w.length ≤ width
  not_isSpace : ∀ c ∈ w, isSpace c = false
  not_nul : ∀ c ∈ w, c ≠ '\x00'

theorem word_iff_all {width : Nat} {w : List Char} :
    (w.isEmpty = false ∧ w.length ≤ width ∧ w.all (fun c => !isSpace c) = true ∧
      w.all (fun c => c != '\x00') = true) ↔ Word width w := by
  constructor
  · rintro ⟨hne, hlen, hspace, hnul⟩
    exact ⟨by simpa using hne, hlen, by simpa using hspace, by simpa using hnul⟩
  · intro h
    exact ⟨by simpa using h.ne_nil, h.length_le, by simpa using h.not_isSpace,
      by simpa using h.not_nul⟩

instance (width : Nat) (w : List Char) : Decidable (Word width w) := decidable_of_iff _ word_iff_all

theorem numeral_toDigits (n : Nat) : Numeral (Nat.toDigits 10 n) n where
  ne_nil := Nat.toDigits_ne_nil
  isDigit _ hc := Nat.isDigit_of_mem_toDigits (by decide) (by decide) hc
  value := Nat.ofDigitChars_ten_toDigits

section Pieces

variable {ws ds w cs rest : List Char} {n bits width : Nat}

namespace Numeral

theorem digits_append (h : Numeral ds n) (hrest : EndsAt Char.isDigit rest) :
    digits (ds ++ rest) = (some n, rest) := by
  rw [digits, takeWhile_of_endsAt h.isDigit hrest, dropWhile_of_endsAt h.isDigit hrest,
    if_neg h.ne_nil, h.value]

theorem endsAt_isSpace (h : Numeral ds n) : EndsAt isSpace (ds ++ rest) := by
  obtain ⟨c, cs, rfl⟩ := List.exists_cons_of_ne_nil h.ne_nil
  exact endsAt_cons.mpr (not_isSpace_of_isDigit (h.isDigit c List.mem_cons_self))

theorem sign_append (h : Numeral ds n) : sign (ds ++ rest) = (false, ds ++ rest) := by
  obtain ⟨c, cs, rfl⟩ := List.exists_cons_of_ne_nil h.ne_nil
  have hc := h.isDigit c List.mem_cons_self
  have hne (d : Char) (hd : d.isDigit = false) (us : List Char) : c :: (cs ++ rest) ≠ d :: us := by
    intro heq
    rw [(List.cons.inj heq).1, hd] at hc
    exact Bool.false_ne_true hc
  rw [List.cons_append, sign]
  · exact hne '-' (by decide)
  · exact hne '+' (by decide)

theorem convert_unsigned_strtoul (h : Numeral ds n) (hws : Blank ws)
    (hrest : EndsAt Char.isDigit rest) :
    convert (.unsigned bits) (ws ++ (ds ++ rest)) =
      (some [.nat (strtoul false n % 2 ^ bits)], rest) := by
  simp only [convert, skipSpace_append hws, skipSpace_of_endsAt h.endsAt_isSpace, h.sign_append,
    h.digits_append hrest, Option.map_some]

/-- `%u` reads back a numeral that fits its target. -/
theorem convert_unsigned (h : Numeral ds n) (hws : Blank ws) (hbits : bits ≤ 64)
    (hn : n < 2 ^ bits) (hrest : EndsAt Char.isDigit rest) :
    convert (.unsigned bits) (ws ++ (ds ++ rest)) = (some [.nat n], rest) := by
  have hlt : n < 2 ^ 64 := Nat.lt_of_lt_of_le hn (Nat.pow_le_pow_right (by decide) hbits)
  rw [h.convert_unsigned_strtoul hws hrest, strtoul, if_neg (Nat.not_le_of_lt hlt),
    if_neg Bool.false_ne_true, Nat.mod_eq_of_lt hn]

/-- `%d` reads back a numeral that fits an `int`. -/
theorem convert_signed (h : Numeral ds n) (hws : Blank ws) (hn : n < 2 ^ 31)
    (hrest : EndsAt Char.isDigit rest) :
    convert (.signed 32) (ws ++ (ds ++ rest)) = (some [.int n], rest) := by
  simp only [convert, skipSpace_append hws, skipSpace_of_endsAt h.endsAt_isSpace, h.sign_append,
    h.digits_append hrest, Option.map_some]
  have hmin : strtol false n = n := by
    rw [strtol, if_neg Bool.false_ne_true]
    omega
  rw [hmin, Int.bmod_eq_of_le (by omega) (by omega)]

end Numeral

namespace Word

theorem endsAt_isSpace (h : Word width w) : EndsAt isSpace (w ++ rest) := by
  obtain ⟨c, cs, rfl⟩ := List.exists_cons_of_ne_nil h.ne_nil
  exact endsAt_cons.mpr (h.not_isSpace c List.mem_cons_self)

/-- `%s` reads back a word that fits its width. -/
theorem convert_word (h : Word width w) (hws : Blank ws)
    (hrest : EndsAt (fun c => !isSpace c) rest) :
    convert (.word width) (ws ++ (w ++ rest)) = (some [.text w], rest) := by
  have htake : ((w ++ rest).takeWhile fun c => !isSpace c) = w :=
    takeWhile_of_endsAt (fun c hc => by simp [h.not_isSpace c hc]) hrest
  simp only [convert, skipSpace_append hws, skipSpace_of_endsAt h.endsAt_isSpace, htake,
    List.take_of_length_le h.length_le, if_neg h.ne_nil, List.drop_left]

theorem cstr_eq (h : Word width w) : cstr w = w :=
  List.takeWhile_eq_self_iff.mpr fun c hc => by simpa using h.not_nul c hc

end Word

/-- No number begins with a character that is neither a digit nor a sign. -/
theorem convert_unsigned_none (hws : Blank ws) (hspace : EndsAt isSpace cs)
    (hdigit : EndsAt Char.isDigit cs) (hplus : cs.head? ≠ some '+') (hminus : cs.head? ≠ some '-') :
    ∃ rest, convert (.unsigned bits) (ws ++ cs) = (none, rest) := by
  have hsign : sign cs = (false, cs) := by
    cases cs with
    | nil => rfl
    | cons c cs =>
        rw [sign]
        · intro us heq
          exact hminus (congrArg List.head? heq)
        · intro us heq
          exact hplus (congrArg List.head? heq)
  have hdigits : (digits cs).1 = none := by
    have htake : ([] ++ cs).takeWhile Char.isDigit = [] :=
      takeWhile_of_endsAt (List.forall_mem_nil _) hdigit
    rw [List.nil_append] at htake
    rw [digits, htake, if_pos rfl]
  refine ⟨(digits cs).2, ?_⟩
  simp only [convert, skipSpace_append hws, skipSpace_of_endsAt hspace, hsign, hdigits,
    Option.map_none]

/-- At the end of the stream nothing is read but white space. -/
theorem convert_blank {d : Directive} (hd : d ≠ .space) (hchar : d ≠ .char) (hws : Blank ws) :
    convert d ws = (none, []) := by
  cases d with
  | space => exact absurd rfl hd
  | char => exact absurd rfl hchar
  | unsigned bits => simp [convert, skipSpace_blank hws, sign, digits]
  | signed bits => simp [convert, skipSpace_blank hws, sign, digits]
  | word width => simp [convert, skipSpace_blank hws]

end Pieces

/-! ### Formats -/

section Formats

variable {p : Char → Bool} {bits : Nat} {ns : List Nat} {cs ws rest : List Char}
  {d : Directive} {ds : List Directive} {vs : List Value}

theorem scanf_cons_some {us : List Value} (h : convert d cs = (some us, rest)) :
    scanf (d :: ds) cs = (us ++ (scanf ds rest).1, (scanf ds rest).2) := by
  rw [scanf, h]

theorem scanf_cons_none (h : convert d cs = (none, rest)) : scanf (d :: ds) cs = ([], rest) := by
  rw [scanf, h]

theorem scanf_cons_congr {es : List Directive} (h : ∀ cs, scanf ds cs = scanf es cs) :
    scanf (d :: ds) cs = scanf (d :: es) cs := by
  cases hd : convert d cs with
  | mk vs rest =>
      cases vs with
      | none => rw [scanf_cons_none hd, scanf_cons_none hd]
      | some vs => rw [scanf_cons_some hd, scanf_cons_some hd, h]

@[simp] theorem scanf_space : scanf [.space] cs = ([], skipSpace cs) := rfl

/-- A call that begins with a number or a word skips white space. -/
theorem scanf_skipSpace (hd : d ≠ .char) : scanf (d :: ds) (skipSpace cs) = scanf (d :: ds) cs := by
  have hconvert : convert d (skipSpace cs) = convert d cs := by
    cases d with
    | char => exact absurd rfl hd
    | space | unsigned | signed | word => simp only [convert, skipSpace_skipSpace]
  rw [scanf, scanf, hconvert]

/-- So white space before one need not be in the format. -/
theorem scanf_space_cons (hd : d ≠ .char) : scanf (.space :: d :: ds) cs = scanf (d :: ds) cs :=
  calc scanf (.space :: d :: ds) cs = scanf (d :: ds) (skipSpace cs) := rfl
    _ = scanf (d :: ds) cs := scanf_skipSpace hd

theorem scanf_blank (hd : d ≠ .space) (hchar : d ≠ .char) (hws : Blank ws) :
    scanf (d :: ds) ws = ([], []) :=
  scanf_cons_none (convert_blank hd hchar hws)

/-- Numerals with white space of the kind before each. -/
inductive Numbers (p : Char → Bool) (bits : Nat) : List Nat → List Char → Prop
  | nil : Numbers p bits [] []
  | cons {ws ds cs n ns} (hne : ws ≠ []) (hws : ∀ c ∈ ws, p c = true) (hds : Numeral ds n)
      (hn : n < 2 ^ bits) (hns : Numbers p bits ns cs) :
      Numbers p bits (n :: ns) (ws ++ (ds ++ cs))

namespace Numbers

theorem forall_mem (h : Numbers p bits ns cs) : ∀ c ∈ cs, p c = true ∨ c.isDigit = true := by
  induction h with
  | nil =>
      intro c hc
      cases hc
  | cons _ hws hds _ _ ih =>
      intro c hc
      rcases List.mem_append.mp hc with hc | hc
      · exact .inl (hws c hc)
      rcases List.mem_append.mp hc with hc | hc
      · exact .inr (hds.isDigit c hc)
      · exact ih c hc

theorem lt (h : Numbers p bits ns cs) : ∀ n ∈ ns, n < 2 ^ bits := by
  induction h with
  | nil =>
      intro n hn
      cases hn
  | cons _ _ _ hn _ ih => exact List.forall_mem_cons.mpr ⟨hn, ih⟩

theorem not_mem (h : Numbers p bits ns cs) {c : Char} (hp : p c = false) (hc : c.isDigit = false) :
    c ∉ cs := by
  intro hmem
  rcases h.forall_mem c hmem with hcp | hcd
  · rw [hp] at hcp
    exact Bool.false_ne_true hcp
  · rw [hc] at hcd
    exact Bool.false_ne_true hcd

theorem endsAt (h : Numbers p bits ns cs) {q : Char → Bool} (hq : ∀ c, p c = true → q c = false)
    (hrest : EndsAt q rest) : EndsAt q (cs ++ rest) := by
  cases h with
  | nil => exact hrest
  | @cons ws _ _ _ _ hne hws =>
      obtain ⟨c, ws, rfl⟩ := List.exists_cons_of_ne_nil hne
      exact endsAt_cons.mpr (hq c (hws c List.mem_cons_self))

/-- As many directives as there are numbers read them back, and the format
goes on where they end. -/
theorem scanf (h : Numbers p bits ns cs) (hp : ∀ c, p c = true → isSpace c = true)
    (hbits : bits ≤ 64) (hrest : EndsAt Char.isDigit rest) :
    scanf (List.replicate ns.length (.unsigned bits) ++ ds) (cs ++ rest) =
      (ns.map .nat ++ (scanf ds rest).1, (scanf ds rest).2) := by
  induction h with
  | nil => rfl
  | @cons ws us cs n ns hne hws hds hn hns ih =>
      have hdigit : EndsAt Char.isDigit (cs ++ rest) :=
        hns.endsAt (fun c hc => not_isDigit_of_isSpace (hp c hc)) hrest
      have hconvert := hds.convert_unsigned (fun c hc => hp c (hws c hc)) hbits hn hdigit
      rw [List.length_cons, List.replicate_succ, List.cons_append, List.append_assoc,
        List.append_assoc, scanf_cons_some hconvert, ih]
      rfl

end Numbers

/-- More directives than there are numbers assign the numbers only. -/
theorem Numbers.scanf_replicate (h : Numbers p bits ns cs)
    (hp : ∀ c, p c = true → isSpace c = true) (hbits : bits ≤ 64) (hws : Blank ws) {k : Nat}
    (hk : ns.length ≤ k) :
    (Scan.scanf (List.replicate k (.unsigned bits)) (cs ++ ws)).1 = ns.map .nat := by
  have hdigit : EndsAt Char.isDigit ws := by
    intro c hc
    exact not_isDigit_of_isSpace (hws c (List.mem_of_mem_head? hc))
  obtain ⟨m, rfl⟩ := Nat.exists_eq_add_of_le hk
  rw [← List.replicate_append_replicate, h.scanf hp hbits hdigit]
  cases m with
  | zero => exact List.append_nil _
  | succ m =>
      rw [List.replicate_succ, scanf_blank Directive.noConfusion Directive.noConfusion hws]
      exact List.append_nil _

/-- Numerals as `printf` writes them, with a space before each. -/
def spaced (ns : List Nat) : List Char := (ns.map fun n => ' ' :: Nat.toDigits 10 n).flatten

theorem numbers_spaced (hp : p ' ' = true) (hns : ∀ n ∈ ns, n < 2 ^ bits) :
    Numbers p bits ns (spaced ns) := by
  induction ns with
  | nil => exact .nil
  | cons n ns ih =>
      have hspace : ∀ c ∈ [' '], p c = true := by simpa using hp
      exact .cons (by decide) hspace (numeral_toDigits n) (hns n List.mem_cons_self)
        (ih fun m hm => hns m (List.mem_cons_of_mem n hm))

theorem length_toDigits_le (hn : n < 2 ^ 64) : (Nat.toDigits 10 n).length ≤ 20 :=
  (Nat.length_toDigits_le_iff (by decide) (by decide)).mpr (Nat.lt_trans hn (by decide))

theorem length_spaced_le (hns : ∀ n ∈ ns, n < 2 ^ 64) : (spaced ns).length ≤ 21 * ns.length := by
  induction ns with
  | nil => exact Nat.le_refl 0
  | cons n ns ih =>
      have hn := length_toDigits_le (hns n List.mem_cons_self)
      have htail := ih fun m hm => hns m (List.mem_cons_of_mem n hm)
      have hcons : spaced (n :: ns) = ' ' :: Nat.toDigits 10 n ++ spaced ns := rfl
      rw [hcons, List.length_append, List.length_cons, List.length_cons]
      omega

/-! ### What a value can be -/

/-- The values of one directive. -/
def Value.From : Value → Directive → Prop
  | .nat n, .unsigned bits => n < 2 ^ bits
  | .int _, .signed _ => True
  | .text w, .word width => w ≠ [] ∧ w.length ≤ width ∧ ∀ c ∈ w, isSpace c = false
  | .text w, .char => w.length = 1
  | _, _ => False

theorem from_of_convert (h : convert d cs = (some vs, rest)) : ∀ v ∈ vs, v.From d := by
  intro v hv
  cases d with
  | space =>
      cases h
      cases hv
  | unsigned bits =>
      obtain ⟨n, -, rfl⟩ := Option.map_eq_some_iff.mp (congrArg Prod.fst h)
      rw [List.mem_singleton.mp hv]
      exact Nat.mod_lt _ (Nat.two_pow_pos bits)
  | signed bits =>
      obtain ⟨n, -, rfl⟩ := Option.map_eq_some_iff.mp (congrArg Prod.fst h)
      rw [List.mem_singleton.mp hv]
      exact trivial
  | word width =>
      have hw := congrArg Prod.fst h
      simp only [convert] at hw
      split at hw
      · cases hw
      · rename_i hne
        cases hw
        rw [List.mem_singleton.mp hv]
        refine ⟨hne, List.length_take_le .., fun c hc => ?_⟩
        simpa using List.mem_takeWhile_imp (List.mem_of_mem_take hc)
  | char =>
      cases cs with
      | nil => cases h
      | cons c cs =>
          cases h
          rw [List.mem_singleton.mp hv]
          rfl

/-- Every value comes from a directive of the format. -/
theorem from_of_scanf (h : scanf ds cs = (vs, rest)) : ∀ v ∈ vs, ∃ d ∈ ds, v.From d := by
  induction ds generalizing cs vs rest with
  | nil =>
      cases h
      intro v hv
      cases hv
  | cons d ds ih =>
      intro v hv
      rw [scanf] at h
      split at h
      · cases h
        cases hv
      · rename_i us mid hconvert
        cases h
        rcases List.mem_append.mp hv with hv | hv
        · exact ⟨d, List.mem_cons_self, from_of_convert hconvert v hv⟩
        · obtain ⟨e, he, hfrom⟩ := ih rfl v hv
          exact ⟨e, List.mem_cons_of_mem d he, hfrom⟩

end Formats

/-! ### Lines -/

section Lines

variable {line nl rest : List Char} {size : Nat}

theorem getLine_of_line (hline : '\n' ∉ line) (hnl : nl = ['\n'] ∨ nl = [] ∧ rest = []) {n : Nat}
    (hfits : (line ++ nl).length ≤ n) : getLine n (line ++ (nl ++ rest)) = (line ++ nl, rest) := by
  induction line generalizing n with
  | nil =>
      rcases hnl with rfl | ⟨rfl, rfl⟩
      · obtain ⟨m, rfl⟩ := Nat.exists_eq_add_of_le' hfits
        rfl
      · cases n <;> rfl
  | cons c line ih =>
      obtain ⟨m, rfl⟩ := Nat.exists_eq_add_of_le' (Nat.le_trans (Nat.le_add_left 1 _) hfits)
      obtain ⟨hc, hline⟩ := not_or.mp (mt List.mem_cons.mpr hline)
      rw [List.cons_append, getLine, if_neg (Ne.symm hc),
        ih hline (by simpa using hfits)]
      rfl

/-- A line that fits the buffer is read as a whole, with its newline unless
the text ends before it. -/
theorem fgets_line (hline : '\n' ∉ line) (hnl : nl = ['\n'] ∨ nl = [] ∧ rest = [])
    (hne : line ++ nl ≠ []) (hfits : (line ++ nl).length < size) :
    fgets size (line ++ (nl ++ rest)) = some (line ++ nl, rest) := by
  rw [fgets, if_neg, getLine_of_line hline hnl (Nat.le_sub_one_of_lt hfits)]
  rw [← List.append_assoc]
  exact fun h => hne (List.append_eq_nil_iff.mp h).1

theorem cstr_of_not_mem {cs : List Char} (h : '\x00' ∉ cs) : cstr cs = cs :=
  List.takeWhile_eq_self_iff.mpr fun c hc => by
    simpa using fun heq : c = '\x00' => h (heq ▸ hc)

end Lines

end Ossim.Lib.Scan
