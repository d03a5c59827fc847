/-
**The changed lines of a diff.**

`impact --since` asks `git diff --unified=0` which lines have changed and reads its output line by line: a
header `+++ b/path` names the file of the hunks that follow, and a hunk header `@@ -a,b +c,d @@` their lines.
The reader goes by how a line begins and does not count the lines of a hunk.  So a header that git writes in
quotes is passed over, a tab behind a path with a space becomes part of the name, and an added line that
looks like a header is taken for one.
-/

import Greppy.LiteralSearch
import Mathlib.Data.Finset.Union

set_option autoImplicit false

namespace Greppy

open Text

/-! ### The reader -/

/-- `str::split_whitespace`. -/
def splitWhitespace (s : List Char) : List (List Char) := (s.splitOnP isWhitespace).filter (· ≠ [])

def parseGitDiffNewRange (hunk : List Char) : Option (ℤ × ℤ) := do
  let token ← (splitWhitespace hunk).find? fun part => decide (['+'] <+: part ∧ 1 < byteLength part)
  let range := token.drop 1
  match splitOnce ',' range with
  | some (start, count) => do
      let start ← parseSigned (2 ^ 63) start
      let count ← parseSigned (2 ^ 63) count
      some (start, count)
  | none => do
      let start ← parseSigned (2 ^ 63) range
      some (start, 1)

/-- The lines of a file, for the files that have an entry. -/
abbrev ChangedLines := List Char → Option (Finset ℤ)

/-- What the loop over the output keeps. -/
structure DiffState where
  currentFile : Option (List Char)
  changed : ChangedLines

/-- `i64` addition, which wraps around in a release build. -/
def addI64 (a b : ℤ) : ℤ := Int.bmod (a + b) (2 ^ 64)

/-- `for offset in 0..count { lines.insert(start + offset); }`. -/
def insertLines (start count : ℤ) (lines : Finset ℤ) : Finset ℤ :=
  lines ∪ (Finset.range count.toNat).image fun offset : ℕ => addI64 start offset

/-- The body of the loop over the output. -/
def diffStep (s : DiffState) (line : List Char) : DiffState :=
  match stripPrefix "+++ b/".toList line with
  | some path => { s with currentFile := some path }
  | none =>
    if "+++ /dev/null".toList <+: line then { s with currentFile := none }
    else if ¬ "@@".toList <+: line then s
    else
      match s.currentFile, parseGitDiffNewRange line with
      | some file, some (start, count) =>
        if count = 0 then s
        else
          { s with
            changed := Function.update s.changed file
              (some (insertLines start count ((s.changed file).getD ∅))) }
      | _, _ => s

/-- `git_diff_changed_lines`; `git` is what running `git` with arguments gives. -/
def gitDiffChangedLines (git : List (List Char) → CommandRun) (diffRev context : List Char) :
    Except SearchError ChangedLines :=
  match git ["diff".toList, "--unified=0".toList, "--diff-filter=ACMR".toList, diffRev, "--".toList] with
  | .notFound | .spawnError => .error (.io ("spawn git diff hunks for ".toList ++ context))
  | .exited code stdout stderr =>
    if code ≠ some 0 then
      .error (.invalid (context ++ " requires a valid git diff base (".toList ++
        trimWhitespace (Utf8.lossy stderr) ++ ")".toList))
    else .ok ((lines (Utf8.lossy stdout)).foldl diffStep ⟨none, fun _ => none⟩).changed

/-! ### What git prints -/

structure DiffHunk where
  oldStart : ℕ
  newStart : ℕ
  removed : List (List UInt8)
  added : List (List UInt8)
  /-- Whether the last removed line, and the last added one, has no line feed. -/
  oldOpen : Bool
  newOpen : Bool
  heading : List UInt8
  oneLine : ∀ line ∈ heading :: (removed ++ added), 10 ∉ line
  fits : newStart + added.length < 2 ^ 63

/-- A file of a diff: its path in the new version, what is printed before `+++`, and its hunks. -/
structure DiffFile where
  path : List Char
  preamble : List (List UInt8)
  hunks : List DiffHunk
  preamble_plain : ∀ line ∈ preamble, 10 ∉ line ∧ line.head? ≠ some 43 ∧ line.head? ≠ some 64

/-- The line numbers that a hunk adds or replaces. -/
def DiffHunk.newLines (h : DiffHunk) : Finset ℤ :=
  (Finset.range h.added.length).image fun i : ℕ => (h.newStart : ℤ) + i

/-- A range of lines; a count of one is left out. -/
def rangeText (start count : ℕ) : List Char :=
  if count = 1 then Nat.toDigits 10 start else Nat.toDigits 10 start ++ ',' :: Nat.toDigits 10 count

/-- `@@ -a,b +c,d @@`. -/
def DiffHunk.header (h : DiffHunk) : List Char :=
  ['@', '@', ' ', '-'] ++ rangeText h.oldStart h.removed.length ++ [' ', '+'] ++
    rangeText h.newStart h.added.length ++ [' ', '@', '@']

/-- `\ No newline at end of file`. -/
def noNewline (isOpen : Bool) : List (List UInt8) :=
  if isOpen then [Utf8.encode "\\ No newline at end of file".toList] else []

def DiffHunk.lines (h : DiffHunk) : List (List UInt8) :=
  (Utf8.encode h.header ++ if h.heading = [] then [] else 32 :: h.heading) ::
    (h.removed.map (45 :: ·) ++ noNewline h.oldOpen ++ h.added.map (43 :: ·) ++ noNewline h.newOpen)

/-- Whether git writes the path in quotes: it holds a control character, a quote, a backslash or a
character that is not ASCII. -/
def needsQuotes (path : List Char) : Bool :=
  path.any fun c => decide (c.toNat < 0x20 ∨ c = '"' ∨ c = '\\' ∨ 0x7F ≤ c.toNat)

def quoteByte (b : UInt8) : List Char :=
  match b.toNat with
  | 7 => ['\\', 'a']
  | 8 => ['\\', 'b']
  | 9 => ['\\', 't']
  | 10 => ['\\', 'n']
  | 11 => ['\\', 'v']
  | 12 => ['\\', 'f']
  | 13 => ['\\', 'r']
  | 34 => ['\\', '"']
  | 92 => ['\\', '\\']
  | n =>
      if n < 0x20 ∨ 0x7F ≤ n then
        ['\\', Char.ofNat (48 + n / 64), Char.ofNat (48 + n / 8 % 8), Char.ofNat (48 + n % 8)]
      else [Char.ofNat n]

/-- `+++ b/path`, in quotes where needed, and a tab behind a path with a space. -/
def fileHeader (path : List Char) : List Char :=
  "+++ ".toList ++
    (if needsQuotes path then '"' :: ((Utf8.encode ("b/".toList ++ path)).flatMap quoteByte ++ ['"'])
      else "b/".toList ++ path) ++
    if ' ' ∈ path then ['\t'] else []

/-- The lines of a file; without a hunk there is no header. -/
def DiffFile.lines (f : DiffFile) : List (List UInt8) :=
  f.preamble ++
    if f.hunks = [] then [] else Utf8.encode (fileHeader f.path) :: f.hunks.flatMap DiffHunk.lines

/-- What `git diff --unified=0` prints. -/
def renderDiff (d : List DiffFile) : List UInt8 := (d.flatMap DiffFile.lines).flatMap (· ++ [10])

/-! ### The path that the reader has in mind -/

/-- What a line that looks like a header does to the current file. -/
def lookAlike (line : List Char) : Option (Option (List Char)) :=
  match stripPrefix "+++ b/".toList line with
  | some path => some (some path)
  | none => if "+++ /dev/null".toList <+: line then some none else none

/-- An added line as the reader sees it. -/
def addedText (line : List UInt8) : List Char := dropCr ('+' :: Utf8.lossy line)

def DiffHunk.leaves (current : Option (List Char)) (h : DiffHunk) : Option (List Char) :=
  h.added.foldl (fun current line => (lookAlike (addedText line)).getD current) current

/-- The current file behind the header of a file: a path in quotes is not recognised, and a tab is part of
the path. -/
def headerLeaves (current : Option (List Char)) (path : List Char) : Option (List Char) :=
  if needsQuotes path then current else some (path ++ if ' ' ∈ path then ['\t'] else [])

/-- A hunk, the file it belongs to and the path that the reader has in mind there. -/
structure Credit where
  own : List Char
  named : Option (List Char)
  hunk : DiffHunk

def hunkCredits (own : List Char) : Option (List Char) → List DiffHunk → List Credit
  | _, [] => []
  | current, h :: hs => ⟨own, current, h⟩ :: hunkCredits own (h.leaves current) hs

def DiffFile.leaves (current : Option (List Char)) (f : DiffFile) : Option (List Char) :=
  if f.hunks = [] then current else f.hunks.foldl DiffHunk.leaves (headerLeaves current f.path)

def creditsFrom : Option (List Char) → List DiffFile → List Credit
  | _, [] => []
  | current, f :: fs =>
    hunkCredits f.path (headerLeaves current f.path) f.hunks ++ creditsFrom (f.leaves current) fs

def credits (d : List DiffFile) : List Credit := creditsFrom none d

/-- Lines are added to an entry; no entry is made for none. -/
def creditLines (m : ChangedLines) (c : Credit) : ChangedLines :=
  match c.named with
  | none => m
  | some path =>
    if c.hunk.newLines = ∅ then m
    else Function.update m path (some ((m path).getD ∅ ∪ c.hunk.newLines))

/-! ### The lines of the output -/

def seenLine (line : List UInt8) : List Char := dropCr (Utf8.lossy line)

variable {line : List UInt8} {text : List Char}

theorem newline_notMem_lossy (h : 10 ∉ line) : '\n' ∉ Utf8.lossy line :=
  fun hmem => h (Utf8.mem_of_mem_lossy (by decide) hmem)

theorem lines_lossy_output {ls : List (List UInt8)} (h : ∀ line ∈ ls, 10 ∉ line) :
    lines (Utf8.lossy (ls.flatMap (· ++ [10]))) = ls.map seenLine := by
  induction ls with
  | nil => rfl
  | cons line ls ih =>
    have hlossy : Utf8.lossy ((line :: ls).flatMap (· ++ [10])) =
        Utf8.lossy line ++ '\n' :: Utf8.lossy (ls.flatMap (· ++ [10])) := by
      rw [List.flatMap_cons, List.append_assoc, List.singleton_append,
        Utf8.lossy_append_ascii (by decide)]
      rfl
    rw [hlossy, lines_append (newline_notMem_lossy (h line List.mem_cons_self)), List.map_cons,
      ih fun l hl => h l (List.mem_cons_of_mem line hl)]
    rfl

theorem newline_notMem_rangeText (start count : ℕ) : '\n' ∉ rangeText start count := by
  have hdigits (n : ℕ) : '\n' ∉ Nat.toDigits 10 n := (oneLine_toDigits n).newline
  unfold rangeText
  split_ifs
  · exact hdigits start
  · simp [hdigits start, hdigits count]

theorem newline_notMem_encode (h : '\n' ∉ text) : 10 ∉ Utf8.encode text :=
  fun hmem => h (Utf8.mem_of_mem_encode (by decide) hmem)

theorem newline_notMem_hunk (h : DiffHunk) : ∀ line ∈ h.lines, 10 ∉ line := by
  have hbody : ∀ line ∈ h.removed ++ h.added, 10 ∉ line := fun line hline =>
    h.oneLine line (List.mem_cons_of_mem _ hline)
  have hheader : 10 ∉ Utf8.encode h.header := by
    refine newline_notMem_encode ?_
    simp [DiffHunk.header, newline_notMem_rangeText]
  have hopen (o : Bool) : ∀ line ∈ noNewline o, 10 ∉ line := by
    intro line hline
    unfold noNewline at hline
    split_ifs at hline
    · rw [List.mem_singleton] at hline
      rw [hline]
      exact newline_notMem_encode (by decide)
    · cases hline
  intro line hline
  rw [DiffHunk.lines, List.mem_cons, List.mem_append, List.mem_append, List.mem_append, List.mem_map,
    List.mem_map] at hline
  rcases hline with rfl | ((⟨body, hmem, rfl⟩ | hmem) | ⟨body, hmem, rfl⟩) | hmem
  · rw [List.mem_append, not_or]
    refine ⟨hheader, ?_⟩
    split_ifs
    · exact List.not_mem_nil
    · simpa using h.oneLine h.heading List.mem_cons_self
  · simpa using hbody body (List.mem_append_left _ hmem)
  · exact hopen _ line hmem
  · simpa using hbody body (List.mem_append_right _ hmem)
  · exact hopen _ line hmem

theorem newline_notMem_quoteByte (b : UInt8) : '\n' ∉ quoteByte b := by
  have hne (n : ℕ) (hn : 0x20 ≤ n) (hlt : n < 0x7F) : '\n' ≠ Char.ofNat n := by
    intro heq
    have hvalid : (Char.ofNat n).toNat = n := Utf8.toNat_ofNat_of_valid (Or.inl (by omega))
    have hten : '\n'.toNat = 10 := rfl
    rw [← heq, hten] at hvalid
    omega
  have hb := b.toNat_lt
  unfold quoteByte
  split
  case h_10 =>
    split_ifs with hn
    · simp [hne (48 + b.toNat / 64) (by omega) (by omega), hne (48 + b.toNat / 8 % 8) (by omega) (by omega),
        hne (48 + b.toNat % 8) (by omega) (by omega)]
    · simpa using hne b.toNat (by omega) (by omega)
  all_goals decide

theorem newline_notMem_fileHeader (path : List Char) : '\n' ∉ fileHeader path := by
  unfold fileHeader
  simp only [List.mem_append, not_or]
  refine ⟨⟨by decide, ?_⟩, by split_ifs <;> decide⟩
  split_ifs with hquotes
  · simp only [List.mem_cons, List.mem_append, List.mem_flatMap, not_or, not_exists, not_and]
    exact ⟨by decide, fun b _ => newline_notMem_quoteByte b, by decide⟩
  · rw [List.mem_append, not_or]
    refine ⟨by decide, ?_⟩
    intro hmem
    refine hquotes (List.any_eq_true.2 ⟨'\n', hmem, ?_⟩)
    decide

theorem newline_notMem_file (f : DiffFile) : ∀ line ∈ f.lines, 10 ∉ line := by
  intro line hline
  rw [DiffFile.lines, List.mem_append] at hline
  rcases hline with hline | hline
  · exact (f.preamble_plain line hline).1
  · split_ifs at hline
    · cases hline
    · rcases List.mem_cons.1 hline with rfl | hline
      · exact newline_notMem_encode (newline_notMem_fileHeader f.path)
      · obtain ⟨h, -, hmem⟩ := List.mem_flatMap.1 hline
        exact newline_notMem_hunk h line hmem

/-! ### What a line does -/

theorem head_of_seenLine {c : Char} (hc : c.toNat < 0x80) (h : (seenLine line).head? = some c) :
    line.head? = some (UInt8.ofNat c.toNat) := by
  have hne : Utf8.replacement ∉ [c] := by
    rw [List.mem_singleton]
    rintro rfl
    revert hc
    decide
  have hpre : [c] <+: Utf8.lossy line := by
    obtain ⟨t, ht⟩ := List.head?_eq_some_iff.1 h
    exact List.IsPrefix.trans ⟨t, by rw [List.singleton_append]; exact ht.symm⟩ (dropCr_isPrefix _)
  have hone : Utf8.encode [c] = [UInt8.ofNat c.toNat] := by
    have hbound : c.val.toNat ≤ 127 := Nat.le_of_lt_succ hc
    rw [Utf8.encode, List.flatMap_cons, String.utf8EncodeChar, if_pos hbound]
    rfl
  rw [Utf8.isPrefix_lossy_iff hne, hone] at hpre
  obtain ⟨t, rfl⟩ := hpre
  rfl

theorem head_of_isPrefix {c : Char} {p s : List Char} (h : c :: p <+: s) : s.head? = some c := by
  obtain ⟨t, rfl⟩ := h
  rfl

/-- A line that begins with neither `+` nor `@` does nothing. -/
theorem diffStep_plain (s : DiffState) (hplus : text.head? ≠ some '+') (hat : text.head? ≠ some '@') :
    diffStep s text = s := by
  have hmark : stripPrefix "+++ b/".toList text = none :=
    stripPrefix_eq_none_iff.2 fun h => hplus (head_of_isPrefix h)
  have hnull : ¬ "+++ /dev/null".toList <+: text := fun h => hplus (head_of_isPrefix h)
  have hhunk : ¬ "@@".toList <+: text := fun h => hat (head_of_isPrefix h)
  rw [diffStep, hmark]
  simp only [if_neg hnull, if_pos hhunk]

/-- A line that begins with `+` may only change the current file. -/
theorem diffStep_plus (s : DiffState) (hplus : text.head? = some '+') :
    diffStep s text = { s with currentFile := (lookAlike text).getD s.currentFile } := by
  have hhunk : ¬ "@@".toList <+: text := by
    intro h
    rw [head_of_isPrefix h] at hplus
    cases hplus
  rw [diffStep, lookAlike]
  cases hmark : stripPrefix "+++ b/".toList text with
  | some path => rfl
  | none =>
    simp only [if_pos hhunk]
    split_ifs <;> rfl

theorem diffStep_seenLine (s : DiffState) (hplus : line.head? ≠ some 43)
    (hat : line.head? ≠ some 64) : diffStep s (seenLine line) = s :=
  diffStep_plain s (fun h => hplus (head_of_seenLine (by decide) h))
    fun h => hat (head_of_seenLine (by decide) h)

theorem foldl_plain (s : DiffState) {ls : List (List UInt8)}
    (h : ∀ line ∈ ls, line.head? ≠ some 43 ∧ line.head? ≠ some 64) :
    (ls.map seenLine).foldl diffStep s = s := by
  induction ls with
  | nil => rfl
  | cons line ls ih =>
    obtain ⟨hplus, hat⟩ := h line List.mem_cons_self
    rw [List.map_cons, List.foldl_cons, diffStep_seenLine s hplus hat,
      ih fun l hl => h l (List.mem_cons_of_mem line hl)]

theorem seenLine_added (line : List UInt8) : seenLine (43 :: line) = addedText line := by
  have hlossy := Utf8.lossy_append_ascii (show (43 : UInt8).toNat < 0x80 by decide) [] line
  rw [List.nil_append] at hlossy
  rw [seenLine, hlossy]
  rfl

theorem head_addedText (line : List UInt8) : (addedText line).head? = some '+' := by
  unfold addedText dropCr
  split_ifs with hlast
  · cases hline : Utf8.lossy line with
    | nil =>
      rw [hline] at hlast
      cases hlast
    | cons c rest => rfl
  · rfl

theorem foldl_added (s : DiffState) (added : List (List UInt8)) :
    ((added.map (43 :: ·)).map seenLine).foldl diffStep s =
      { s with
        currentFile := added.foldl (fun current line => (lookAlike (addedText line)).getD current)
          s.currentFile } := by
  induction added generalizing s with
  | nil => rfl
  | cons line added ih =>
    rw [List.map_cons, List.map_cons, List.foldl_cons, seenLine_added,
      diffStep_plus s (head_addedText line), ih]
    rfl

theorem cr_notMem_of_plain {path : List Char} (h : needsQuotes path = false) : '\r' ∉ path := by
  intro hmem
  rw [needsQuotes, List.any_eq_false] at h
  exact h '\r' hmem (by decide)

theorem dropCr_fileHeader (path : List Char) : dropCr (fileHeader path) = fileHeader path := by
  refine dropCr_eq_self_iff.2 ?_
  intro hlast
  unfold fileHeader at hlast
  by_cases htab : ' ' ∈ path
  · rw [if_pos htab, List.getLast?_append_of_ne_nil _ (List.cons_ne_nil _ _)] at hlast
    cases hlast
  · rw [if_neg htab, List.append_nil] at hlast
    cases hquotes : needsQuotes path with
    | true =>
      rw [hquotes, if_pos rfl, ← List.cons_append, ← List.append_assoc,
        List.getLast?_append_of_ne_nil _ (List.cons_ne_nil _ _)] at hlast
      cases hlast
    | false =>
      rw [hquotes, if_neg Bool.false_ne_true] at hlast
      have hmem := List.mem_of_getLast? hlast
      simp [cr_notMem_of_plain hquotes] at hmem

theorem lookAlike_fileHeader (current : Option (List Char)) (path : List Char) :
    (lookAlike (fileHeader path)).getD current = headerLeaves current path := by
  unfold headerLeaves fileHeader
  cases needsQuotes path with
  | true =>
      rw [if_pos rfl, if_pos rfl, List.append_assoc, List.cons_append]
      generalize ((Utf8.encode ("b/".toList ++ path)).flatMap quoteByte ++ ['"']) ++
        (if ' ' ∈ path then ['\t'] else []) = tail
      have hmark : stripPrefix "+++ b/".toList ("+++ ".toList ++ '"' :: tail) = none :=
        stripPrefix_eq_none_iff.2 (by simp)
      have hnull : ¬ "+++ /dev/null".toList <+: "+++ ".toList ++ '"' :: tail := by simp
      rw [lookAlike, hmark]
      simp only [if_neg hnull]
      rfl
  | false =>
      rw [if_neg Bool.false_ne_true, if_neg Bool.false_ne_true, List.append_assoc, List.append_assoc]
      generalize path ++ (if ' ' ∈ path then ['\t'] else []) = name
      have hmark : stripPrefix "+++ b/".toList ("+++ ".toList ++ ("b/".toList ++ name)) = some name :=
        stripPrefix_append "+++ b/".toList name
      rw [lookAlike, hmark]
      rfl

theorem diffStep_fileHeader (s : DiffState) (path : List Char) :
    diffStep s (seenLine (Utf8.encode (fileHeader path))) =
      { s with currentFile := headerLeaves s.currentFile path } := by
  rw [seenLine, Utf8.lossy_encode, dropCr_fileHeader, diffStep_plus s rfl, lookAlike_fileHeader]

/-! ### The range of a hunk -/

theorem splitWhitespace_append {token : List Char} (hne : token ≠ [])
    (h : ∀ c ∈ token, isWhitespace c = false) (rest : List Char) :
    splitWhitespace (token ++ ' ' :: rest) = token :: splitWhitespace rest := by
  rw [splitWhitespace, List.splitOnP_append_cons_of_forall_mem h ' ' (by decide), List.filter_cons_of_pos]
  · rfl
  · simpa using hne

theorem not_isWhitespace_rangeText (start count : ℕ) :
    ∀ c ∈ rangeText start count, isWhitespace c = false := by
  have hdigits (n : ℕ) : ∀ c ∈ Nat.toDigits 10 n, isWhitespace c = false := by
    intro c hc
    have hdigit := Nat.isDigit_of_mem_toDigits (by decide) (by decide) hc
    have hrange : 48 ≤ c.toNat ∧ c.toNat ≤ 57 := by
      simpa [Char.isDigit, UInt32.le_iff_toNat_le] using hdigit
    simp only [isWhitespace, decide_eq_false_iff_not]
    omega
  unfold rangeText
  split_ifs
  · exact hdigits start
  · intro c hc
    rcases List.mem_append.1 hc with hc | hc
    · exact hdigits start c hc
    · rcases List.mem_cons.1 hc with rfl | hc
      · decide
      · exact hdigits count c hc

theorem rangeText_ne_nil (start count : ℕ) : rangeText start count ≠ [] := by
  unfold rangeText
  split_ifs
  · exact Nat.toDigits_ne_nil
  · simp

theorem parse_rangeText {start count : ℕ} (h : start + count < 2 ^ 63) :
    (match splitOnce ',' (rangeText start count) with
    | some (start, count) => do
        let start ← parseSigned (2 ^ 63) start
        let count ← parseSigned (2 ^ 63) count
        some (start, count)
    | none => do
        let start ← parseSigned (2 ^ 63) (rangeText start count)
        some (start, 1)) = some ((start : ℤ), (count : ℤ)) := by
  have hcomma (n : ℕ) : ',' ∉ Nat.toDigits 10 n := by
    intro hmem
    have hdigit := Nat.isDigit_of_mem_toDigits (by decide) (by decide) hmem
    revert hdigit
    decide
  unfold rangeText
  split_ifs with hone
  · rw [splitOnce_eq_none_iff.2 (hcomma start)]
    simp only [parseSigned_toDigits (show start < 2 ^ 63 by omega), hone]
    rfl
  · rw [splitOnce_append (hcomma start)]
    simp only [parseSigned_toDigits (show start < 2 ^ 63 by omega),
      parseSigned_toDigits (show count < 2 ^ 63 by omega)]
    rfl

/-- **The range of a hunk is read back, whatever stands behind it.** -/
theorem parse_header (h : DiffHunk) (rest : List Char) :
    parseGitDiffNewRange (h.header ++ rest) = some ((h.newStart : ℤ), (h.added.length : ℤ)) := by
  have hsplit : h.header ++ rest = ['@', '@'] ++ ' ' :: (('-' :: rangeText h.oldStart h.removed.length) ++
      ' ' :: (('+' :: rangeText h.newStart h.added.length) ++ ' ' :: ('@' :: '@' :: rest))) := by
    simp [DiffHunk.header]
  have hminus := not_isWhitespace_rangeText h.oldStart h.removed.length
  have hplus := not_isWhitespace_rangeText h.newStart h.added.length
  have hlong : 1 < byteLength ('+' :: rangeText h.newStart h.added.length) := by
    obtain ⟨c, text, htext⟩ := List.exists_cons_of_ne_nil (rangeText_ne_nil h.newStart h.added.length)
    rw [htext, byteLength_cons, byteLength_cons]
    have hc := c.utf8Size_pos
    have hp : '+'.utf8Size = 1 := by decide
    omega
  have hfound : (['@', '@'] :: ('-' :: rangeText h.oldStart h.removed.length) ::
      ('+' :: rangeText h.newStart h.added.length) :: splitWhitespace ('@' :: '@' :: rest)).find?
        (fun part => decide (['+'] <+: part ∧ 1 < byteLength part)) =
          some ('+' :: rangeText h.newStart h.added.length) := by
    rw [List.find?_cons_of_neg (by simp), List.find?_cons_of_neg (by simp), List.find?_cons_of_pos]
    simp [hlong]
  have hat : ∀ c ∈ ['@', '@'], isWhitespace c = false := by
    rw [List.forall_mem_cons, List.forall_mem_singleton]
    decide
  rw [hsplit, parseGitDiffNewRange, splitWhitespace_append (by simp) hat,
    splitWhitespace_append (by simp) (List.forall_mem_cons.2 ⟨by decide, hminus⟩),
    splitWhitespace_append (by simp) (List.forall_mem_cons.2 ⟨by decide, hplus⟩), hfound]
  exact parse_rangeText h.fits

theorem DiffHunk.newLines_eq_empty_iff (h : DiffHunk) : h.newLines = ∅ ↔ h.added.length = 0 := by
  rw [DiffHunk.newLines, Finset.image_eq_empty, Finset.range_eq_empty_iff]

theorem insertLines_newLines (h : DiffHunk) (set : Finset ℤ) :
    insertLines h.newStart h.added.length set = set ∪ h.newLines := by
  rw [insertLines, DiffHunk.newLines, Int.toNat_natCast]
  refine congrArg (set ∪ ·) (Finset.image_congr ?_)
  intro offset hoffset
  have hlt : offset < h.added.length := Finset.mem_range.1 hoffset
  have hfits := h.fits
  exact Int.bmod_eq_of_le_mul_two (by omega) (by omega)

theorem seenLine_hunkHeader (h : DiffHunk) (tail : List UInt8) :
    ∃ rest, seenLine (Utf8.encode h.header ++ tail) = h.header ++ rest := by
  rw [seenLine, Utf8.lossy_encode_append_bytes]
  by_cases hnil : Utf8.lossy tail = []
  · have hlast : h.header.getLast? ≠ some '\r' := by
      rw [DiffHunk.header, List.getLast?_append_of_ne_nil _ (by decide)]
      decide
    exact ⟨[], by rw [hnil, List.append_nil, dropCr_eq_self_iff.2 hlast]⟩
  · exact ⟨dropCr (Utf8.lossy tail), dropCr_append hnil h.header⟩

/-- **The header of a hunk credits its lines to the path that the reader has in mind.** -/
theorem diffStep_hunkHeader (s : DiffState) (own : List Char) (h : DiffHunk) (tail : List UInt8) :
    diffStep s (seenLine (Utf8.encode h.header ++ tail)) =
      { s with changed := creditLines s.changed ⟨own, s.currentFile, h⟩ } := by
  obtain ⟨rest, hrest⟩ := seenLine_hunkHeader h tail
  have hhead : (h.header ++ rest).head? = some '@' := rfl
  have hmark : stripPrefix "+++ b/".toList (h.header ++ rest) = none := by
    refine stripPrefix_eq_none_iff.2 fun hpre => ?_
    rw [head_of_isPrefix hpre] at hhead
    cases hhead
  have hnull : ¬ "+++ /dev/null".toList <+: h.header ++ rest := by
    intro hpre
    rw [head_of_isPrefix hpre] at hhead
    cases hhead
  have hhunk : "@@".toList <+: h.header ++ rest := ⟨_, rfl⟩
  rw [hrest, diffStep, hmark]
  simp only [if_neg hnull, if_neg (not_not_intro hhunk), parse_header]
  obtain ⟨current, changed⟩ := s
  cases current with
  | none => rfl
  | some path =>
    simp only [creditLines]
    by_cases hzero : h.added.length = 0
    · rw [if_pos (by exact_mod_cast hzero), if_pos (h.newLines_eq_empty_iff.2 hzero)]
    · rw [if_neg (by exact_mod_cast hzero), if_neg (mt h.newLines_eq_empty_iff.1 hzero),
        insertLines_newLines]

theorem foldl_hunk (s : DiffState) (own : List Char) (h : DiffHunk) :
    (h.lines.map seenLine).foldl diffStep s =
      ⟨h.leaves s.currentFile, creditLines s.changed ⟨own, s.currentFile, h⟩⟩ := by
  have hopen (o : Bool) : ∀ line ∈ noNewline o, line.head? ≠ some 43 ∧ line.head? ≠ some 64 := by
    cases o <;> decide
  have hremoved : ∀ line ∈ h.removed.map (45 :: ·), line.head? ≠ some 43 ∧ line.head? ≠ some 64 := by
    intro line hline
    obtain ⟨body, -, rfl⟩ := List.mem_map.1 hline
    exact ⟨by simp, by simp⟩
  rw [DiffHunk.lines, List.map_cons, List.foldl_cons, diffStep_hunkHeader s own]
  simp only [List.map_append, List.foldl_append]
  rw [foldl_plain _ hremoved, foldl_plain _ (hopen _), foldl_added, foldl_plain _ (hopen _)]
  rfl

theorem foldl_hunks (s : DiffState) (own : List Char) (hunks : List DiffHunk) :
    ((hunks.flatMap DiffHunk.lines).map seenLine).foldl diffStep s =
      ⟨hunks.foldl DiffHunk.leaves s.currentFile,
        (hunkCredits own s.currentFile hunks).foldl creditLines s.changed⟩ := by
  induction hunks generalizing s with
  | nil => rfl
  | cons h hs ih =>
    rw [List.flatMap_cons, List.map_append, List.foldl_append, foldl_hunk s own, ih]
    rfl

theorem foldl_file (s : DiffState) (f : DiffFile) :
    (f.lines.map seenLine).foldl diffStep s =
      ⟨f.leaves s.currentFile,
        (hunkCredits f.path (headerLeaves s.currentFile f.path) f.hunks).foldl creditLines s.changed⟩ := by
  rw [DiffFile.lines, List.map_append, List.foldl_append,
    foldl_plain s fun line hline => (f.preamble_plain line hline).2, DiffFile.leaves]
  by_cases hnil : f.hunks = []
  · rw [if_pos hnil, if_pos hnil, hnil]
    rfl
  · rw [if_neg hnil, if_neg hnil, List.map_cons, List.foldl_cons, diffStep_fileHeader, foldl_hunks _ f.path]

/-- **The reader credits the lines of each hunk to the path it has in mind there.** -/
theorem foldl_renderDiff (d : List DiffFile) (s : DiffState) :
    ((d.flatMap DiffFile.lines).map seenLine).foldl diffStep s =
      ⟨d.foldl DiffFile.leaves s.currentFile, (creditsFrom s.currentFile d).foldl creditLines s.changed⟩ := by
  induction d generalizing s with
  | nil => rfl
  | cons f fs ih =>
    rw [List.flatMap_cons, List.map_append, List.foldl_append, foldl_file, ih, creditsFrom,
      List.foldl_append]
    rfl

/-! ### When the changed lines are exact -/

theorem mem_foldl_creditLines (cs : List Credit) (m : ChangedLines) (path : List Char) (n : ℤ) :
    n ∈ ((cs.foldl creditLines m) path).getD ∅ ↔
      n ∈ (m path).getD ∅ ∨ ∃ c ∈ cs, c.named = some path ∧ n ∈ c.hunk.newLines := by
  induction cs generalizing m with
  | nil => simp
  | cons c cs ih =>
    have hstep : n ∈ (creditLines m c path).getD ∅ ↔
        n ∈ (m path).getD ∅ ∨ c.named = some path ∧ n ∈ c.hunk.newLines := by
      rw [creditLines]
      cases hnamed : c.named with
      | none => simp
      | some named =>
        by_cases hempty : c.hunk.newLines = ∅
        · simp [hempty]
        · by_cases hpath : path = named
          · simp [hempty, hpath]
          · simp [hempty, Function.update_of_ne hpath, Ne.symm hpath]
    rw [List.foldl_cons, ih, hstep, or_assoc]
    simp only [List.mem_cons, exists_eq_or_imp]

theorem isSome_foldl_creditLines {cs : List Credit} {m : ChangedLines} {path : List Char}
    (h : ((cs.foldl creditLines m) path).isSome = true) :
    (m path).isSome = true ∨ ∃ c ∈ cs, ∃ n, c.named = some path ∧ n ∈ c.hunk.newLines := by
  induction cs generalizing m with
  | nil => exact Or.inl h
  | cons c cs ih =>
    rcases ih h with hstep | ⟨c', hc', n, hn⟩
    · rw [creditLines] at hstep
      cases hnamed : c.named with
      | none => exact Or.inl (by rwa [hnamed] at hstep)
      | some named =>
        simp only [hnamed] at hstep
        split_ifs at hstep with hempty
        · exact Or.inl hstep
        · by_cases hpath : path = named
          · obtain ⟨n, hn⟩ := Finset.nonempty_iff_ne_empty.2 hempty
            exact Or.inr ⟨c, List.mem_cons_self, n, by rw [hnamed, hpath], hn⟩
          · rw [Function.update_of_ne hpath] at hstep
            exact Or.inl hstep
    · exact Or.inr ⟨c', List.mem_cons_of_mem c hc', n, hn⟩

theorem exists_mem_hunkCredits (p : List Char → DiffHunk → Prop) (own : List Char)
    (current : Option (List Char)) (hunks : List DiffHunk) :
    (∃ c ∈ hunkCredits own current hunks, p c.own c.hunk) ↔ ∃ h ∈ hunks, p own h := by
  induction hunks generalizing current with
  | nil => simp [hunkCredits]
  | cons h hs ih => simp only [hunkCredits, List.mem_cons, exists_eq_or_imp, ih]

theorem exists_mem_creditsFrom (p : List Char → DiffHunk → Prop) (current : Option (List Char))
    (d : List DiffFile) :
    (∃ c ∈ creditsFrom current d, p c.own c.hunk) ↔ ∃ f ∈ d, ∃ h ∈ f.hunks, p f.path h := by
  induction d generalizing current with
  | nil => simp [creditsFrom]
  | cons f fs ih =>
    simp only [creditsFrom, List.mem_append, or_and_right, exists_or, exists_mem_hunkCredits, ih,
      List.mem_cons, exists_eq_left]

section Exact

variable (git : List (List Char) → CommandRun) (diffRev context : List Char) (d : List DiffFile)

/-- `git diff` succeeds and prints the diff. -/
def PrintsDiff : Prop :=
  ∃ stderr, git ["diff".toList, "--unified=0".toList, "--diff-filter=ACMR".toList, diffRev, "--".toList] =
    .exited (some 0) (renderDiff d) stderr

/-- Each file has exactly the lines that its hunks add or replace, and nothing else has an entry. -/
def DecodesExactly : Prop :=
  ∃ changed, gitDiffChangedLines git diffRev context = .ok changed ∧
    (∀ path n, n ∈ (changed path).getD ∅ ↔ ∃ f ∈ d, ∃ h ∈ f.hunks, f.path = path ∧ n ∈ h.newLines) ∧
    ∀ path, (changed path).isSome = true → ∃ f ∈ d, f.path = path

/-- For every file, the hunks at which the reader has it in mind have the lines of its own hunks. -/
def CreditsBalance : Prop :=
  ∀ path n, (∃ c ∈ credits d, c.named = some path ∧ n ∈ c.hunk.newLines) ↔
    ∃ c ∈ credits d, c.own = path ∧ n ∈ c.hunk.newLines

variable {git diffRev context d}

theorem gitDiffChangedLines_eq (hgit : PrintsDiff git diffRev d) :
    gitDiffChangedLines git diffRev context = .ok ((credits d).foldl creditLines fun _ => none) := by
  obtain ⟨stderr, hrun⟩ := hgit
  have hlines : ∀ line ∈ d.flatMap DiffFile.lines, 10 ∉ line := by
    intro line hline
    obtain ⟨f, -, hmem⟩ := List.mem_flatMap.1 hline
    exact newline_notMem_file f line hmem
  rw [gitDiffChangedLines, hrun]
  simp only [ne_eq, not_true_eq_false, if_false]
  rw [renderDiff, lines_lossy_output hlines, foldl_renderDiff]
  rfl

/-- **The changed lines are read back exactly when the credits balance.** -/
theorem decodesExactly_iff (hgit : PrintsDiff git diffRev d) :
    DecodesExactly git diffRev context d ↔ CreditsBalance d := by
  have hown (path : List Char) (n : ℤ) :=
    exists_mem_creditsFrom (fun own h => own = path ∧ n ∈ h.newLines) none d
  have hread (path : List Char) (n : ℤ) :
      n ∈ (((credits d).foldl creditLines fun _ => none) path).getD ∅ ↔
        ∃ c ∈ credits d, c.named = some path ∧ n ∈ c.hunk.newLines := by
    rw [mem_foldl_creditLines]
    simp
  rw [DecodesExactly, gitDiffChangedLines_eq hgit]
  constructor
  · rintro ⟨changed, hchanged, hexact, -⟩ path n
    cases hchanged
    rw [← hread, hexact, ← hown]
    rfl
  · intro hbalance
    refine ⟨_, rfl, fun path n => ?_, fun path hkey => ?_⟩
    · rw [hread, hbalance, ← hown]
      rfl
    · rcases isSome_foldl_creditLines hkey with hnone | ⟨c, hc, n, hn⟩
      · cases hnone
      · obtain ⟨f, hf, h, -, hpath, -⟩ := (hown path n).1 ((hbalance path n).1 ⟨c, hc, hn⟩)
        exact ⟨f, hf, hpath⟩

end Exact

/-! ### Plain diffs -/

theorem leaves_of_plain {h : DiffHunk} (hadded : ∀ line ∈ h.added, lookAlike (addedText line) = none)
    (current : Option (List Char)) : h.leaves current = current := by
  have hlines : ∀ added : List (List UInt8), (∀ line ∈ added, lookAlike (addedText line) = none) →
      added.foldl (fun current line => (lookAlike (addedText line)).getD current) current = current := by
    intro added hnone
    induction added with
    | nil => rfl
    | cons line added ih =>
      rw [List.foldl_cons, hnone line List.mem_cons_self]
      exact ih fun l hl => hnone l (List.mem_cons_of_mem line hl)
  exact hlines h.added hadded

/-- In a file without look-alikes the reader has the same path in mind at each hunk. -/
theorem named_of_mem_hunkCredits {own : List Char} {current : Option (List Char)} {hunks : List DiffHunk}
    (h : ∀ h ∈ hunks, ∀ line ∈ h.added, lookAlike (addedText line) = none) :
    ∀ c ∈ hunkCredits own current hunks, c.named = current ∧ c.own = own := by
  induction hunks generalizing current with
  | nil => exact fun c hc => absurd hc List.not_mem_nil
  | cons hunk hunks ih =>
    rw [hunkCredits, leaves_of_plain (h hunk List.mem_cons_self)]
    intro c hc
    rcases List.mem_cons.1 hc with rfl | hc
    · exact ⟨rfl, rfl⟩
    · exact ih (fun h' hh' => h h' (List.mem_cons_of_mem hunk hh')) c hc

/-- **A diff is read back if its headers have neither quotes nor a tab and none of its lines looks like a
header.** -/
theorem creditsBalance_of_plain {d : List DiffFile}
    (hpath : ∀ f ∈ d, needsQuotes f.path = false ∧ ' ' ∉ f.path)
    (hadded : ∀ f ∈ d, ∀ h ∈ f.hunks, ∀ line ∈ h.added, lookAlike (addedText line) = none) :
    CreditsBalance d := by
  have hnamed : ∀ current, ∀ c ∈ creditsFrom current d, c.named = some c.own := by
    induction d with
    | nil => exact fun _ c hc => absurd hc List.not_mem_nil
    | cons f fs ih =>
      intro current c hc
      rcases List.mem_append.1 hc with hc | hc
      · obtain ⟨hquotes, hspace⟩ := hpath f List.mem_cons_self
        obtain ⟨hname, hown⟩ := named_of_mem_hunkCredits (hadded f List.mem_cons_self) c hc
        rw [hname, hown, headerLeaves, hquotes, if_neg Bool.false_ne_true, if_neg hspace, List.append_nil]
      · exact ih (fun g hg => hpath g (List.mem_cons_of_mem f hg))
          (fun g hg => hadded g (List.mem_cons_of_mem f hg)) _ c hc
  intro path n
  refine exists_congr fun c => and_congr_right fun hc => ?_
  rw [hnamed none c hc, Option.some.injEq]

/-! ### A header in quotes -/

/-- A hunk that adds the line `x` at a place. -/
def oneLineHunk (start : ℕ) (h : start + 1 < 2 ^ 63) : DiffHunk :=
  ⟨start - 1, start, [], [[120]], false, false, [], by decide, h⟩

def oneHunkFile (path : List Char) (start : ℕ) (h : start + 1 < 2 ^ 63) : DiffFile :=
  ⟨path, [Utf8.encode "index 0000000..1111111 100644".toList], [oneLineHunk start h], by decide⟩

/-- Git prints the diff, whatever it is asked. -/
def gitPrinting (d : List DiffFile) (_ : List (List Char)) : CommandRun :=
  .exited (some 0) (renderDiff d) []

def plainDiff : List DiffFile := [oneHunkFile ['a', '.', 'r', 's'] 1 (by decide)]

theorem decodesExactly_plainDiff :
    DecodesExactly (gitPrinting plainDiff) "HEAD~1".toList "impact".toList plainDiff :=
  (decodesExactly_iff ⟨[], rfl⟩).2 (creditsBalance_of_plain (by decide) (by decide))

/-- A plain path, and a path that git writes as `"b/\303\251.rs"`. -/
def quotedDiff : List DiffFile :=
  [oneHunkFile ['a', '.', 'r', 's'] 1 (by decide), oneHunkFile ['é', '.', 'r', 's'] 7 (by decide)]

/-- The changed line of the second file is credited to the first. -/
theorem quotedDiff_misread :
    PrintsDiff (gitPrinting quotedDiff) "HEAD~1".toList quotedDiff ∧
      (∃ changed,
        gitDiffChangedLines (gitPrinting quotedDiff) "HEAD~1".toList "impact".toList = .ok changed ∧
        changed ['a', '.', 'r', 's'] = some {1, 7} ∧ changed ['é', '.', 'r', 's'] = none) ∧
        ¬ DecodesExactly (gitPrinting quotedDiff) "HEAD~1".toList "impact".toList quotedDiff := by
  have hgit : PrintsDiff (gitPrinting quotedDiff) "HEAD~1".toList quotedDiff := ⟨[], rfl⟩
  have hread : gitDiffChangedLines (gitPrinting quotedDiff) "HEAD~1".toList "impact".toList = _ :=
    gitDiffChangedLines_eq hgit
  refine ⟨hgit, ⟨_, hread, by decide, by decide⟩, ?_⟩
  rintro ⟨changed, hchanged, hexact, -⟩
  have hmem := (hexact ['é', '.', 'r', 's'] 7).2
    ⟨_, List.mem_cons_of_mem _ List.mem_cons_self, _, List.mem_cons_self, rfl, by decide⟩
  rw [← Except.ok.inj (hread.symm.trans hchanged)] at hmem
  revert hmem
  decide

end Greppy
