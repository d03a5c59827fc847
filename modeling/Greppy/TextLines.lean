/-
**Line-oriented text and numbers in it.**

A file format that puts one field on a line is read back with two tools: cutting a text into lines
and parsing a line as a number.  A line ends at a line feed, and a carriage return right before the
line feed belongs to the end, not to the line; what follows the last line feed is a line as it
stands, unless it is empty.  Numbers are parsed as machine integers are: an optional sign, at least
one decimal digit, and a value in range.

Main definitions:

* `Text.lines` — the lines of a text;
* `Text.parseUnsigned`, `Text.parseSigned` — integers below a bound, and in a symmetric range;
* `Text.OneLine` — a value that survives being written on a line of its own.
-/

import Mathlib.Data.List.Basic
import Mathlib.Data.Int.Notation

set_option autoImplicit false

namespace Text

/-! ### Lines -/

/-- The lines of a text that end in a line feed, and what follows the last line feed. -/
def splitLines : List Char → List (List Char) × List Char
  | [] => ([], [])
  | c :: rest =>
    let (terminated, last) := splitLines rest
    if c = '\n' then ([] :: terminated, last)
    else
      match terminated with
      | [] => ([], c :: last)
      | line :: more => ((c :: line) :: more, last)

/-- A line without the carriage return that belongs to its end. -/
def dropCr (line : List Char) : List Char :=
  if line.getLast? = some '\r' then line.dropLast else line

def lines (text : List Char) : List (List Char) :=
  let (terminated, last) := splitLines text
  terminated.map dropCr ++ if last = [] then [] else [last]

@[simp] theorem lines_nil : lines [] = [] := rfl

variable {line value : List Char} {n : ℕ}

theorem splitLines_append (h : '\n' ∉ line) (rest : List Char) :
    splitLines (line ++ '\n' :: rest) = (line :: (splitLines rest).1, (splitLines rest).2) := by
  induction line with
  | nil => rfl
  | cons c line ih =>
    rw [List.mem_cons, not_or] at h
    rw [List.cons_append, splitLines, ih h.2]
    simp only [if_neg (Ne.symm h.1)]

theorem lines_append (h : '\n' ∉ line) (rest : List Char) :
    lines (line ++ '\n' :: rest) = dropCr line :: lines rest := by
  simp only [lines, splitLines_append h]
  rfl

theorem newline_not_mem_splitLines (text : List Char) :
    (∀ line ∈ (splitLines text).1, '\n' ∉ line) ∧ '\n' ∉ (splitLines text).2 := by
  induction text with
  | nil => simp [splitLines]
  | cons c rest ih =>
    obtain ⟨hlines, hlast⟩ := ih
    rw [splitLines]
    by_cases hc : c = '\n'
    · simp only [if_pos hc]
      refine ⟨?_, hlast⟩
      intro line hline
      rcases List.mem_cons.1 hline with rfl | hmem
      · exact List.not_mem_nil
      · exact hlines line hmem
    · simp only [if_neg hc]
      cases hterm : (splitLines rest).1 with
      | nil =>
        refine ⟨fun line hline => absurd hline List.not_mem_nil, ?_⟩
        rw [List.mem_cons, not_or]
        exact ⟨Ne.symm hc, hlast⟩
      | cons first more =>
        rw [hterm] at hlines
        refine ⟨?_, hlast⟩
        intro line hline
        rcases List.mem_cons.1 hline with rfl | hmem
        · rw [List.mem_cons, not_or]
          exact ⟨Ne.symm hc, hlines first List.mem_cons_self⟩
        · exact hlines line (List.mem_cons_of_mem _ hmem)

theorem mem_of_mem_dropCr {c : Char} (h : c ∈ dropCr line) : c ∈ line := by
  unfold dropCr at h
  split at h
  · exact List.dropLast_subset line h
  · exact h

theorem dropCr_isPrefix (s : List Char) : dropCr s <+: s := by
  unfold dropCr
  split
  · exact List.dropLast_prefix s
  · exact List.prefix_rfl

theorem dropCr_append {s : List Char} (hs : s ≠ []) (t : List Char) : dropCr (t ++ s) = t ++ dropCr s := by
  rw [dropCr, dropCr, List.getLast?_append_of_ne_nil t hs]
  split
  · rw [List.dropLast_append_of_ne_nil hs]
  · rfl

theorem dropCr_eq_self_iff {s : List Char} : dropCr s = s ↔ s.getLast? ≠ some '\r' := by
  unfold dropCr
  split
  · rename_i hlast
    have hne : s ≠ [] := by
      rintro rfl
      cases hlast
    have hpos := List.length_pos_iff.2 hne
    refine iff_of_false ?_ (not_not_intro hlast)
    intro heq
    have hlen := congrArg List.length heq
    rw [List.length_dropLast] at hlen
    omega
  · rename_i hlast
    exact iff_of_true rfl hlast

theorem newline_not_mem {text : List Char} (h : line ∈ lines text) : '\n' ∉ line := by
  obtain ⟨hlines, hlast⟩ := newline_not_mem_splitLines text
  simp only [lines, List.mem_append, List.mem_map] at h
  rcases h with ⟨raw, hraw, rfl⟩ | h
  · intro hmem
    exact hlines raw hraw (mem_of_mem_dropCr hmem)
  · split at h
    · cases h
    · rw [List.mem_singleton] at h
      rw [h]
      exact hlast

/-! ### Values on lines of their own -/

/-- A value that is read back from a line of its own. -/
structure OneLine (value : List Char) : Prop where
  newline : '\n' ∉ value
  trailing : value.getLast? ≠ some '\r'

theorem OneLine.dropCr (h : OneLine value) : dropCr value = value := by
  rw [Text.dropCr, if_neg h.trailing]

theorem OneLine.lines_append (h : OneLine value) (rest : List Char) :
    lines (value ++ '\n' :: rest) = value :: lines rest := by
  rw [Text.lines_append h.newline, h.dropCr]

/-- A value that is the first line of the text it starts survives there. -/
theorem oneLine_of_head {rest : List Char} {more : List (List Char)}
    (h : lines (value ++ '\n' :: rest) = value :: more) : OneLine value := by
  have hmem : value ∈ lines (value ++ '\n' :: rest) := by
    rw [h]
    exact List.mem_cons_self
  have hnewline := newline_not_mem hmem
  refine ⟨hnewline, ?_⟩
  intro hcr
  rw [Text.lines_append hnewline, List.cons.injEq, Text.dropCr, if_pos hcr] at h
  have hlen := congrArg List.length h.1
  have hpos : 0 < value.length := by
    cases value with
    | nil => cases hcr
    | cons c rest => exact Nat.succ_pos _
  rw [List.length_dropLast] at hlen
  omega

/-! ### Numbers -/

/-- The value of a nonempty sequence of decimal digits. -/
def parseDigits (digits : List Char) : Option ℕ :=
  if digits.isEmpty || !digits.all Char.isDigit then none else some (Nat.ofDigitChars 10 digits 0)

/-- An unsigned integer below `bound`; a plus sign is allowed. -/
def parseUnsigned (bound : ℕ) (text : List Char) : Option ℕ :=
  let digits :=
    match text with
    | '+' :: rest => rest
    | _ => text
  (parseDigits digits).filter (· < bound)

/-- A signed integer in `[-bound, bound)`. -/
def parseSigned (bound : ℕ) (text : List Char) : Option ℤ :=
  match text with
  | '-' :: rest => ((parseDigits rest).filter (· ≤ bound)).map fun n => -(n : ℤ)
  | _ => (parseUnsigned bound text).map fun n => (n : ℤ)

theorem parseDigits_toDigits (n : ℕ) : parseDigits (Nat.toDigits 10 n) = some n := by
  have hne : (Nat.toDigits 10 n).isEmpty = false := by
    rw [List.isEmpty_eq_false_iff]
    exact Nat.toDigits_ne_nil
  have hall : (Nat.toDigits 10 n).all Char.isDigit = true := by
    rw [List.all_eq_true]
    intro c hc
    exact Nat.isDigit_of_mem_toDigits (by decide) (by decide) hc
  rw [parseDigits, hne, hall, Nat.ofDigitChars_ten_toDigits]
  rfl

theorem toDigits_eq_cons (n : ℕ) : ∃ c rest, Nat.toDigits 10 n = c :: rest ∧ c.isDigit = true := by
  cases h : Nat.toDigits 10 n with
  | nil => exact absurd h Nat.toDigits_ne_nil
  | cons c rest =>
    refine ⟨c, rest, rfl, Nat.isDigit_of_mem_toDigits (b := 10) (n := n) (by decide) (by decide) ?_⟩
    rw [h]
    exact List.mem_cons_self

theorem toDigits_append_inj {m : ℕ} {c : Char} (hc : c.isDigit = false) {x y : List Char}
    (h : Nat.toDigits 10 n ++ c :: x = Nat.toDigits 10 m ++ c :: y) : n = m ∧ x = y := by
  have htake (n : ℕ) (rest : List Char) :
      (Nat.toDigits 10 n ++ c :: rest).takeWhile Char.isDigit = Nat.toDigits 10 n := by
    rw [List.takeWhile_append_of_pos]
    · simp [hc]
    · intro d hd
      exact Nat.isDigit_of_mem_toDigits (by omega) (by omega) hd
  have hdigits : Nat.toDigits 10 n = Nat.toDigits 10 m := by rw [← htake n x, h, htake]
  have hn : n = m := by
    calc
      n = Nat.ofDigitChars 10 (Nat.toDigits 10 n) 0 := Nat.ofDigitChars_ten_toDigits.symm
      _ = Nat.ofDigitChars 10 (Nat.toDigits 10 m) 0 := by rw [hdigits]
      _ = m := Nat.ofDigitChars_ten_toDigits
  rw [hdigits] at h
  exact ⟨hn, (List.cons.inj (List.append_cancel_left h)).2⟩

theorem parseUnsigned_toDigits {bound : ℕ} (h : n < bound) :
    parseUnsigned bound (Nat.toDigits 10 n) = some n := by
  obtain ⟨c, rest, hcons, hdigit⟩ := toDigits_eq_cons n
  have hplus : c ≠ '+' := by
    rintro rfl
    cases hdigit
  have hvalue := parseDigits_toDigits n
  rw [hcons] at hvalue ⊢
  have hdigits : parseUnsigned bound (c :: rest) = (parseDigits (c :: rest)).filter (· < bound) := by
    unfold parseUnsigned
    split
    · rename_i heq
      exact absurd (List.cons.inj heq).1 hplus
    · rfl
  rw [hdigits, hvalue]
  simp [h]

theorem parseSigned_toDigits {bound : ℕ} (h : n < bound) :
    parseSigned bound (Nat.toDigits 10 n) = some (n : ℤ) := by
  obtain ⟨c, rest, hcons, hdigit⟩ := toDigits_eq_cons n
  have hminus : c ≠ '-' := by
    rintro rfl
    cases hdigit
  have hvalue := parseUnsigned_toDigits h
  unfold parseSigned
  split
  · rename_i heq
    rw [hcons] at heq
    exact absurd (List.cons.inj heq).1 hminus
  · rw [hvalue]
    rfl

theorem oneLine_of_isDigit (h : ∀ c ∈ value, c.isDigit = true) : OneLine value := by
  constructor
  · intro hmem
    cases h _ hmem
  · intro hlast
    cases h _ (List.mem_of_getLast? hlast)

theorem oneLine_toDigits (n : ℕ) : OneLine (Nat.toDigits 10 n) :=
  oneLine_of_isDigit fun _ hc => Nat.isDigit_of_mem_toDigits (by decide) (by decide) hc

end Text
