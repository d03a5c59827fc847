/-
**Strings and paths, as the Rust standard library treats them.**

The parts of `str` and `std::path` that the modelled code relies on, on lists of characters so that
they compute: splitting, trimming, the components of a Unix path and its file name.
-/

import Mathlib.Algebra.GroupWithZero.Nat
import Mathlib.Data.List.DropRight
import Mathlib.Data.List.Infix
import Mathlib.Data.String.Basic

set_option autoImplicit false

namespace Greppy

/-! ### Splitting and trimming -/

/-- `str::split(sep)` for a character: always at least one part. -/
def splitOnChar (sep : Char) : List Char → List (List Char)
  | [] => [[]]
  | c :: cs =>
    if c = sep then [] :: splitOnChar sep cs
    else
      match splitOnChar sep cs with
      | [] => [[c]]
      | part :: parts => (c :: part) :: parts

theorem splitOnChar_eq_splitOn (sep : Char) (s : List Char) : splitOnChar sep s = s.splitOn sep := by
  induction s with
  | nil => rfl
  | cons c cs ih =>
    rw [splitOnChar, ih, List.splitOn_cons_eq_if_modifyHead]
    by_cases hc : c = sep
    · rw [if_pos hc, if_pos (beq_iff_eq.2 hc)]
    · rw [if_neg hc, if_neg (fun h => hc (beq_iff_eq.1 h))]
      cases hsplit : cs.splitOn sep with
      | nil => exact absurd hsplit (List.splitOn_ne_nil sep cs)
      | cons part parts => rfl

theorem splitOnChar_append_cons (sep : Char) (s t : List Char) :
    splitOnChar sep (s ++ sep :: t) = splitOnChar sep s ++ splitOnChar sep t := by
  simp only [splitOnChar_eq_splitOn]
  exact List.splitOn_append_cons_self s t

variable {sep : Char} {s pre : List Char}

theorem splitOnChar_of_notMem (h : sep ∉ s) : splitOnChar sep s = [s] := by
  rw [splitOnChar_eq_splitOn]
  exact List.splitOn_eq_singleton h

theorem splitOnChar_inj {t : List Char} (h : splitOnChar sep s = splitOnChar sep t) : s = t := by
  have hjoin (u : List Char) : [sep].intercalate (splitOnChar sep u) = u := by
    rw [splitOnChar_eq_splitOn]
    exact List.intercalate_splitOn sep
  rw [← hjoin s, h, hjoin]

/-- Parts put together with the separator between them split into the parts of each. -/
theorem splitOnChar_intercalate (sep : Char) {texts : List (List Char)} (h : texts ≠ []) :
    splitOnChar sep ([sep].intercalate texts) = texts.flatMap (splitOnChar sep) := by
  induction texts with
  | nil => exact absurd rfl h
  | cons text texts ih =>
    cases texts with
    | nil => simp
    | cons next rest =>
      rw [List.intercalate_cons_cons, List.append_assoc, List.singleton_append,
        splitOnChar_append_cons, ih (List.cons_ne_nil _ _)]
      exact List.flatMap_cons.symm

/-- Splitting at another character is splitting after it has been put in the separator's place. -/
theorem splitOnChar_replace {old : Char} (h : sep ∉ s) :
    splitOnChar sep (s.map fun c => if c = old then sep else c) = splitOnChar old s := by
  induction s with
  | nil => rfl
  | cons c cs ih =>
    rw [List.mem_cons, not_or] at h
    rw [List.map_cons, splitOnChar, splitOnChar, ih h.2]
    by_cases hc : c = old
    · rw [if_pos hc, if_pos rfl, if_pos hc]
    · rw [if_neg hc, if_neg (Ne.symm h.1), if_neg hc]

/-- `str::split("::")`; `acc` is the current part, reversed. -/
def splitColonsFrom (acc : List Char) : List Char → List (List Char)
  | [] => [acc.reverse]
  | ':' :: ':' :: rest => acc.reverse :: splitColonsFrom [] rest
  | c :: rest => splitColonsFrom (c :: acc) rest

def splitColons (s : List Char) : List (List Char) := splitColonsFrom [] s

/-- `char::is_whitespace`, the Unicode property `White_Space`. -/
def isWhitespace (c : Char) : Bool :=
  let n := c.toNat
  decide (0x09 ≤ n ∧ n ≤ 0x0D ∨ n = 0x20 ∨ n = 0x85 ∨ n = 0xA0 ∨ n = 0x1680 ∨
    0x2000 ≤ n ∧ n ≤ 0x200A ∨ n = 0x2028 ∨ n = 0x2029 ∨ n = 0x202F ∨ n = 0x205F ∨ n = 0x3000)

/-- `str::trim`. -/
def trimWhitespace (s : List Char) : List Char :=
  ((s.dropWhile isWhitespace).reverse.dropWhile isWhitespace).reverse

theorem trimWhitespace_eq_self (h : ∀ c ∈ s, isWhitespace c = false) : trimWhitespace s = s := by
  have hkeep : ∀ l : List Char, (∀ c ∈ l, isWhitespace c = false) → l.dropWhile isWhitespace = l := by
    intro l hl
    cases l with
    | nil => rfl
    | cons c l => rw [List.dropWhile_cons_of_neg (by rw [hl c (by simp)]; decide)]
  rw [trimWhitespace, hkeep s h, hkeep s.reverse fun c hc => h c (by simpa using hc),
    List.reverse_reverse]

variable {c : Char} {p : Char → Bool} {line a b : List Char}

/-- What stands at the beginning stays, unless it would be dropped itself. -/
theorem rdropWhile_cons (hc : p c = false) (s : List Char) :
    ∃ t, (c :: s).rdropWhile p = c :: t := by
  cases hcase : (c :: s).rdropWhile p with
  | nil =>
    have hall := List.rdropWhile_eq_nil_iff.1 hcase c List.mem_cons_self
    rw [hc] at hall
    cases hall
  | cons d t =>
    have hpre := List.rdropWhile_prefix p (c :: s)
    rw [hcase, List.cons_prefix_cons] at hpre
    exact ⟨t, by rw [hpre.1]⟩

theorem trimWhitespace_eq (s : List Char) :
    trimWhitespace s = (s.dropWhile isWhitespace).rdropWhile isWhitespace := rfl

/-- `str::trim` keeps what begins with something else than a blank. -/
theorem trimWhitespace_cons (hc : isWhitespace c = false) (s : List Char) :
    ∃ t, trimWhitespace (c :: s) = c :: t := by
  rw [trimWhitespace_eq, List.dropWhile_cons_of_neg (by rw [hc]; decide)]
  exact rdropWhile_cons hc s

theorem length_trimWhitespace_le (s : List Char) : (trimWhitespace s).length ≤ s.length := by
  rw [trimWhitespace_eq]
  exact (List.rdropWhile_prefix _ _).length_le.trans (List.dropWhile_suffix _).length_le

/-- `str::trim_matches`, of the characters that `p` picks.  `str::trim_end_matches` is `List.rdropWhile`. -/
def trimMatches (p : Char → Bool) (s : List Char) : List Char := (s.dropWhile p).rdropWhile p

theorem head_trimMatches (h : trimMatches p s ≠ []) :
    ∃ c t, trimMatches p s = c :: t ∧ c ∈ s ∧ p c = false := by
  cases hdrop : s.dropWhile p with
  | nil => exact absurd (by rw [trimMatches, hdrop]; rfl) h
  | cons c rest =>
    have hc : p c = false := by
      have hhead := List.dropWhile_get_zero_not p s (by rw [hdrop, List.length_cons]; omega)
      simpa [hdrop] using hhead
    obtain ⟨t, ht⟩ := rdropWhile_cons hc rest
    refine ⟨c, t, by rw [trimMatches, hdrop, ht], ?_, hc⟩
    exact (List.dropWhile_suffix p).subset (by rw [hdrop]; exact List.mem_cons_self)

/-- `str::strip_prefix`. -/
def stripPrefix (pre line : List Char) : Option (List Char) :=
  if pre <+: line then some (line.drop pre.length) else none

theorem stripPrefix_eq_some_iff {rest : List Char} :
    stripPrefix pre line = some rest ↔ line = pre ++ rest := by
  unfold stripPrefix
  constructor
  · intro h
    split_ifs at h with hpre
    obtain ⟨t, rfl⟩ := hpre
    rw [List.drop_left, Option.some.injEq] at h
    rw [h]
  · rintro rfl
    rw [if_pos (List.prefix_append pre rest), List.drop_left]

theorem stripPrefix_append (pre rest : List Char) : stripPrefix pre (pre ++ rest) = some rest :=
  stripPrefix_eq_some_iff.2 rfl

theorem stripPrefix_eq_none_iff : stripPrefix pre line = none ↔ ¬ pre <+: line := by
  unfold stripPrefix
  split_ifs with hpre
  · simp [hpre]
  · simp [hpre]

/-- `str::contains`. -/
def containsText (text s : List Char) : Bool := decide (text <:+: s)

/-- `&s[n..]`: the text behind `n` bytes, if a character begins there. -/
def sliceFrom : ℕ → List Char → Option (List Char)
  | 0, s => some s
  | _ + 1, [] => none
  | n + 1, c :: s => if c.utf8Size ≤ n + 1 then sliceFrom (n + 1 - c.utf8Size) s else none

theorem sliceFrom_append (h : ∀ c ∈ pre, c.utf8Size = 1) (s : List Char) :
    sliceFrom pre.length (pre ++ s) = some s := by
  induction pre with
  | nil => exact sliceFrom.eq_1 s
  | cons c pre ih =>
    rw [List.length_cons, List.cons_append, sliceFrom, h c List.mem_cons_self, if_pos (by omega),
      Nat.add_sub_cancel]
    exact ih fun d hd => h d (List.mem_cons_of_mem _ hd)

/-- `str::len`. -/
def byteLength (text : List Char) : ℕ := (text.map Char.utf8Size).sum

theorem byteLength_cons (c : Char) (text : List Char) :
    byteLength (c :: text) = c.utf8Size + byteLength text := by
  rw [byteLength, List.map_cons, List.sum_cons, byteLength]

/-- `str::split_once`. -/
def splitOnce (sep : Char) (s : List Char) : Option (List Char × List Char) :=
  match s.dropWhile (· ≠ sep) with
  | [] => none
  | _ :: rest => some (s.takeWhile (· ≠ sep), rest)

theorem splitOnce_cons (sep c : Char) (s : List Char) :
    splitOnce sep (c :: s) =
      if c = sep then some ([], s) else (splitOnce sep s).map fun parts => (c :: parts.1, parts.2) := by
  by_cases hc : c = sep
  · rw [if_pos hc, splitOnce, List.dropWhile_cons_of_neg (by simpa using hc),
      List.takeWhile_cons_of_neg (by simpa using hc)]
  · rw [if_neg hc, splitOnce, List.dropWhile_cons_of_pos (by simpa using hc),
      List.takeWhile_cons_of_pos (by simpa using hc), splitOnce]
    cases s.dropWhile (· ≠ sep) <;> rfl

theorem splitOnce_append (ha : sep ∉ a) (b : List Char) :
    splitOnce sep (a ++ sep :: b) = some (a, b) := by
  induction a with
  | nil => rw [List.nil_append, splitOnce_cons, if_pos rfl]
  | cons c a ih =>
    rw [List.mem_cons, not_or] at ha
    rw [List.cons_append, splitOnce_cons, if_neg (Ne.symm ha.1), ih ha.2]
    rfl

theorem eq_append_of_splitOnce (h : splitOnce sep s = some (a, b)) :
    s = a ++ sep :: b ∧ sep ∉ a := by
  induction s generalizing a with
  | nil => cases h
  | cons c s ih =>
    rw [splitOnce_cons] at h
    by_cases hc : c = sep
    · rw [if_pos hc] at h
      cases h
      exact ⟨by rw [hc, List.nil_append], List.not_mem_nil⟩
    · rw [if_neg hc, Option.map_eq_some_iff] at h
      obtain ⟨⟨before, after⟩, hsplit, heq⟩ := h
      cases heq
      obtain ⟨hs, hmem⟩ := ih hsplit
      refine ⟨by rw [hs, List.cons_append], ?_⟩
      rw [List.mem_cons, not_or]
      exact ⟨Ne.symm hc, hmem⟩

theorem splitOnce_eq_none_iff : splitOnce sep s = none ↔ sep ∉ s := by
  induction s with
  | nil => simp [splitOnce]
  | cons c s ih =>
    rw [splitOnce_cons, List.mem_cons, not_or, ← ih]
    by_cases hc : c = sep
    · simp [hc]
    · simp [hc, Ne.symm hc]

/-- `rsplit_once(sep)`, the part before: `none` when the separator does not occur. -/
def beforeLast (sep : Char) (s : List Char) : Option (List Char) :=
  match s.reverse.dropWhile (· ≠ sep) with
  | [] => none
  | _ :: rest => some rest.reverse

/-- `rsplit_once(sep)`: what stands before and after the last separator. -/
def rsplitOnce (sep : Char) (s : List Char) : Option (List Char × List Char) :=
  (beforeLast sep s).map fun before => (before, s.drop (before.length + 1))

theorem rsplitOnce_append (a : List Char) (hb : sep ∉ b) :
    rsplitOnce sep (a ++ sep :: b) = some (a, b) := by
  have hdrop : (a ++ sep :: b).reverse.dropWhile (· ≠ sep) = sep :: a.reverse := by
    rw [List.reverse_append, List.reverse_cons, List.append_assoc, List.dropWhile_append_of_pos]
    · simp
    · intro c hc
      have hne : c ≠ sep := fun h => hb (by rw [← h]; exact List.mem_reverse.1 hc)
      simpa using hne
  have hbefore : beforeLast sep (a ++ sep :: b) = some a := by
    rw [beforeLast, hdrop]
    exact congrArg some (List.reverse_reverse a)
  rw [rsplitOnce, hbefore, Option.map_some, ← List.singleton_append, ← List.append_assoc,
    List.drop_left' (by simp)]

/-! ### Paths -/

/-- `Path::components`: empty parts and inner `.` parts do not count; a leading `/` does, and so
does a leading `.` of a relative path. -/
def pathComponents (path : String) : Bool × List (List Char) :=
  let inner (ps : List (List Char)) := ps.filter fun p => decide (p ≠ [] ∧ p ≠ ['.'])
  match splitOnChar '/' path.toList with
  | [] :: rest => (!rest.isEmpty, inner rest)
  | ['.'] :: rest => (false, ['.'] :: inner rest)
  | ps => (false, inner ps)

/-- Equality of `Path`s. -/
def samePath (a b : String) : Bool := decide (pathComponents a = pathComponents b)

/-- The file name of a path given by its components: the last one, unless it is `.` or `..`. -/
def lastName (components : List (List Char)) : Option (List Char) :=
  match components.getLast? with
  | some name => if name = ['.'] ∨ name = ['.', '.'] then none else some name
  | none => none

/-- `Path::file_name`. -/
def fileName? (path : String) : Option (List Char) := lastName (pathComponents path).2

/-- `Path::parent` followed by `Path::file_name`. -/
def parentName? (path : String) : Option (List Char) := lastName (pathComponents path).2.dropLast

/-- `Path::file_stem`: the file name before its last dot, or all of it when that would be empty. -/
def fileStem? (path : String) : Option (List Char) :=
  (fileName? path).map fun name =>
    match beforeLast '.' name with
    | some (c :: stem) => c :: stem
    | _ => name

example : fileStem? "src/a.tar.gz" = some "a.tar".toList := by decide

example : fileStem? ".bashrc" = some ".bashrc".toList := by decide

end Greppy
