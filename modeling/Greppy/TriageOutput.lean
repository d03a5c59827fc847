/-
**The verdict of a triage.**

A language model is asked whether a span of code is worth reading, and answers `READ` or `SKIP` with a
short reason, or something else.  `postprocess_triage_output` takes the first line that is left when code
fences, bullets, known prefixes, quotes and inline markdown are dropped, and reads the verdict at its
beginning.  Whatever is not understood is a verdict to read.

The line is compared in lower case and cut at a number of bytes.  Only ASCII letters change their case and
only ASCII is cut off, and so all cuts are between characters.  But the verdict is any four letters at the
beginning: of `SKIP`, of `Skipping` and of `Skipper` alike.

Which characters are letters and which are numeric is a matter of the Unicode tables, a parameter here.
-/

import Greppy.CamelSplit
import Greppy.Outcome
import Greppy.TextLines
import Greppy.Utf8
import Mathlib

set_option autoImplicit false

namespace Greppy

namespace Triage

/-- What the code asks the Unicode tables: `char::is_alphabetic` and `char::is_numeric`. -/
structure Letters where
  isAlphabetic : Char → Bool
  isNumeric : Char → Bool

structure TriageVerdict where
  read : Bool
  reason : List Char
deriving DecidableEq

def maxTriageReasonChars : ℕ := 48

def toAsciiLowercase (s : List Char) : List Char := s.map Char.toLower

def cut (n : ℕ) (s : List Char) : Outcome Empty (List Char) := Outcome.unwrap (sliceFrom n s)

/-! ### Markers -/

/-- `u8::is_ascii_digit`. -/
def isAsciiDigit (b : UInt8) : Bool := decide (48 ≤ b.toNat ∧ b.toNat ≤ 57)

/-- `u8::is_ascii_whitespace`. -/
def isAsciiWhitespace (b : UInt8) : Bool := decide (b = 9 ∨ b = 10 ∨ b = 12 ∨ b = 13 ∨ b = 32)

/-- `strip_numbered_prefix`, which looks at the bytes. -/
def stripNumberedPrefix (line : List Char) : Outcome Empty (Option (List Char)) :=
  let bytes := Utf8.encode line
  let i := (bytes.takeWhile isAsciiDigit).length
  match bytes.drop i with
  | mark :: space :: _ =>
    if i = 0 then .ok none
    else if (mark = 46 ∨ mark = 41) ∧ isAsciiWhitespace space = true then
      (cut (i + 2) line).bind fun rest => .ok (some (rest.dropWhile isWhitespace))
    else .ok none
  | _ => .ok none

/-- The markers of `strip_bullet_marker`. -/
def bulletMarkers : List (List Char) := [['-', ' '], ['*', ' '], ['+', ' ']]

theorem length_stripPrefix_lt {pre line rest : List Char} (hpre : pre ≠ [])
    (h : stripPrefix pre line = some rest) : rest.length < line.length := by
  unfold stripPrefix at h
  split at h
  · rename_i hstarts
    cases h
    have hpos := List.length_pos_iff.2 hpre
    have hle := hstarts.length_le
    rw [List.length_drop]
    omega
  · cases h

theorem stripNumberedPrefix_cases (line : List Char) :
    stripNumberedPrefix line = .ok none ∨
      ∃ pre rest, line = pre ++ rest ∧ pre ≠ [] ∧
        stripNumberedPrefix line = .ok (some (rest.dropWhile isWhitespace)) := by
  unfold stripNumberedPrefix
  dsimp only
  split
  · rename_i mark space rest hdrop
    split
    · exact .inl rfl
    · split
      · rename_i hmarks
        obtain ⟨hmark, hspace⟩ := hmarks
        -- the digits and the two bytes behind them are ASCII
        have hsplit : Utf8.encode line =
            ((Utf8.encode line).takeWhile isAsciiDigit ++ [mark, space]) ++ rest := by
          rw [List.append_assoc, List.cons_append, List.singleton_append, ← hdrop]
          exact (List.prefix_iff_eq_append.1 (List.takeWhile_prefix _)).symm
        have hascii : ∀ b ∈ (Utf8.encode line).takeWhile isAsciiDigit ++ [mark, space], b.toNat < 0x80 := by
          intro b hb
          rcases List.mem_append.1 hb with hb | hb
          · have hdigit : isAsciiDigit b = true := List.mem_takeWhile_imp hb
            have hrange := of_decide_eq_true hdigit
            omega
          · rcases List.mem_cons.1 hb with rfl | hb
            · rcases hmark with rfl | rfl <;> decide
            · rw [List.mem_singleton.1 hb]
              rcases of_decide_eq_true hspace with rfl | rfl | rfl | rfl | rfl <;> decide
        obtain ⟨pre, s, rfl, hlen, hpre, -⟩ := Utf8.encode_eq_append_ascii hascii hsplit
        rw [List.length_append] at hlen
        refine .inr ⟨pre, s, rfl, List.length_pos_iff.1 (by rw [hlen]; exact Nat.succ_pos _), ?_⟩
        have hcut := sliceFrom_append hpre s
        rw [hlen] at hcut
        rw [cut]
        exact congrArg (fun o => (Outcome.unwrap o).bind _) hcut
      · exact .inl rfl
  · exact .inl rfl

def stripBulletMarker (line : List Char) : Outcome Empty (List Char) :=
  let trimmed := line.dropWhile isWhitespace
  match _hmarker : bulletMarkers.findSome? fun marker => stripPrefix marker trimmed with
  | some rest => stripBulletMarker rest
  | none =>
    match _hnumber : stripNumberedPrefix trimmed with
    | .ok (some rest) => stripBulletMarker rest
    | .ok none => .ok trimmed
    | .error e => .error e
    | .panic => .panic
termination_by line.length
decreasing_by
  all_goals have htrimmed := (List.dropWhile_suffix (l := line) isWhitespace).length_le
  · obtain ⟨marker, hmem, hstrip⟩ := List.exists_of_findSome?_eq_some _hmarker
    have hne : marker ≠ [] := by
      intro hnil
      subst hnil
      revert hmem
      decide
    exact (length_stripPrefix_lt hne hstrip).trans_le htrimmed
  · rcases stripNumberedPrefix_cases trimmed with hnone | ⟨pre, s, happ, hpre, hsome⟩
    · rw [hnone] at _hnumber
      cases _hnumber
    · rw [hsome] at _hnumber
      cases _hnumber
      have hshort := (List.dropWhile_suffix (l := s) isWhitespace).length_le
      have hpos := List.length_pos_iff.2 hpre
      have hlen : trimmed.length = pre.length + s.length := by rw [happ, List.length_append]
      show (s.dropWhile isWhitespace).length < line.length
      have htrim : trimmed.length ≤ line.length := htrimmed
      omega

/-- The prefixes of `strip_triage_prefix`. -/
def triagePrefixes : List (List Char) :=
  ["verdict:".toList, "decision:".toList, "result:".toList, "answer:".toList]

def stripTriagePrefix (line : List Char) : Outcome Empty (List Char) :=
  let lower := toAsciiLowercase line
  match triagePrefixes.find? fun pre => decide (pre <+: lower) with
  | some pre => (cut pre.length line).bind fun rest => .ok (rest.dropWhile isWhitespace)
  | none => .ok line

/-! ### Lines -/

def stripInlineMarkdown (line : List Char) : List Char :=
  joinWords (words (line.filter fun c => !(c == '`' || c == '*')))

def normalizeStatement (line : List Char) : Option (List Char) :=
  let line := trimMatches (· == '\'') (trimMatches (· == '"') (trimWhitespace line))
  let line := trimWhitespace ((trimWhitespace line).rdropWhile fun c => c == ';' || c == ',')
  if line.isEmpty then none else some (stripInlineMarkdown line)

/-- The loop of `first_clean_triage_line`. -/
def firstCleanLineFrom (inCodeFence : Bool) : List (List Char) → Outcome Empty (Option (List Char))
  | [] => .ok none
  | rawLine :: rest =>
    let line := trimWhitespace rawLine
    if "```".toList <+: line then firstCleanLineFrom (!inCodeFence) rest
    else if inCodeFence || line.isEmpty then firstCleanLineFrom inCodeFence rest
    else
      (stripBulletMarker line).bind fun line =>
        (stripTriagePrefix line).bind fun line =>
          match normalizeStatement line with
          | none => firstCleanLineFrom inCodeFence rest
          | some line => if line.isEmpty then firstCleanLineFrom inCodeFence rest else .ok (some line)

def firstCleanTriageLine (raw : List Char) : Outcome Empty (Option (List Char)) :=
  firstCleanLineFrom false (Text.lines raw)

/-! ### Reasons -/

def isLatinLetter (c : Char) : Bool :=
  c.isAlpha || decide (0xC0 ≤ c.toNat ∧ c.toNat ≤ 0x24F ∨ 0x1E00 ≤ c.toNat ∧ c.toNat ≤ 0x1EFF) ||
    c == Char.ofNat 0xB5

/-- `char::is_control`, the general category `Cc`. -/
def isControl (c : Char) : Bool := decide (c.toNat < 0x20 ∨ 0x7F ≤ c.toNat ∧ c.toNat ≤ 0x9F)

section Letters

variable (letters : Letters)

def looksMalformedShortText (text : List Char) : Bool :=
  text.any (· == Char.ofNat 0xFFFD) || (text.any fun c => isControl c && c != '\t') ||
    text.any fun c => letters.isAlphabetic c && !isLatinLetter c

/-- `split_once(" (")`, the part before. -/
def beforeParenthesis : List Char → Option (List Char)
  | [] => none
  | c :: rest => if [' ', '('] <+: c :: rest then some [] else (beforeParenthesis rest).map (c :: ·)

/-- The marks that `cap_line` drops at the end. -/
def isFullStop (c : Char) : Bool := c == '.' || c == ','

def capLine (line : List Char) (maxChars : ℕ) : List Char :=
  if line.length ≤ maxChars then line
  else
    let candidate := ((beforeParenthesis line).filter fun head =>
      !(trimWhitespace head).isEmpty && decide (head.length ≤ maxChars)).getD line
    if candidate.length ≤ maxChars then trimWhitespace (candidate.rdropWhile isFullStop)
    else
      let out := (candidate.take maxChars).rdropWhile fun c => !isWhitespace c
      let out := if (trimWhitespace out).isEmpty then candidate.take maxChars else out
      trimWhitespace (out.rdropWhile isFullStop)

/-- The separators in front of a reason. -/
def isSeparator (c : Char) : Bool :=
  c == '-' || c == ':' || c == '|' || c == Char.ofNat 0x2014 || c == Char.ofNat 0x2013

def isWordMark (c : Char) : Bool := c == ',' || c == '.' || c == ';' || c == ':'

/-- The words of `normalize_triage_reason`, or what stands for them. -/
def reasonWords (raw : List Char) (read : Bool) : List Char :=
  let trimmed := trimWhitespace ((trimWhitespace raw).dropWhile isSeparator)
  let trimmed := trimWhitespace (trimMatches (· == '\'') (trimMatches (· == '"') trimmed))
  let found := joinWords ((((words trimmed).map (trimMatches isWordMark)).filter fun w => !w.isEmpty).take 5)
  if found.isEmpty then
    if read then "possible relevant span".toList else "likely unrelated span".toList
  else found

def normalizeTriageReason (raw : List Char) (read : Bool) : Option (List Char) :=
  let found := reasonWords raw read
  if looksMalformedShortText letters found then none else some (capLine found maxTriageReasonChars)

/-! ### Verdicts -/

def conservativeRead : TriageVerdict := ⟨true, "uncertain relevant span".toList⟩

/-- The verdict of a line that begins with `READ` or `SKIP`, and what stands behind it. -/
def verdictWith (read : Bool) (rest : List Char) : TriageVerdict :=
  match normalizeTriageReason letters rest read with
  | none => conservativeRead
  | some reason => ⟨read, reason⟩

def parseTriageLine (line : List Char) : Outcome Empty (Option TriageVerdict) :=
  let line := trimWhitespace line
  let lower := toAsciiLowercase line
  if "read".toList <+: lower then
    (cut 4 line).bind fun rest => .ok (some (verdictWith letters true rest))
  else if "skip".toList <+: lower then
    (cut 4 line).bind fun rest => .ok (some (verdictWith letters false rest))
  else .ok none

def looksLikeThinkingOutput (raw : List Char) : Bool :=
  let lower := toAsciiLowercase raw
  ["<think>", "</think>", "[start thinking]", "thinking process", "analyze the request",
    "let's analyze"].any fun text => containsText text.toList lower

def looksLikeTriagePromptEcho (statement prompt : List Char) : Bool :=
  let lower := toAsciiLowercase statement
  containsText "given the user's question and one code span".toList lower ||
    containsText "do not answer the question".toList lower ||
    decide (trimWhitespace statement = trimWhitespace ((Text.lines prompt).headD []))

def postprocessTriageOutput (raw prompt : List Char) : Outcome Empty TriageVerdict :=
  if looksLikeThinkingOutput raw then .ok conservativeRead
  else
    (firstCleanTriageLine raw).bind fun line =>
      match line with
      | none => .ok conservativeRead
      | some line =>
        if looksLikeTriagePromptEcho line prompt then .ok conservativeRead
        else (parseTriageLine letters line).bind fun verdict => .ok (verdict.getD conservativeRead)

end Letters

/-! ### No cut is inside a character -/

theorem utf8Size_of_toLower {c : Char} (h : c.toLower.toNat < 0x80) : c.utf8Size = 1 := by
  rw [Char.utf8Size_eq_one_iff, UInt32.le_iff_toNat_le]
  by_cases hupper : c.isUpper = true
  · have hle := UInt32.le_iff_toNat_le.1 (of_decide_eq_true hupper).2
    exact hle.trans (by decide)
  · rw [Char.toLower_eq_of_not_isUpper hupper] at h
    exact Nat.le_of_lt_succ h

variable {pre line s : List Char} {maxChars : ℕ}

theorem cut_of_lower (hpre : pre.all fun c => c.toNat < 0x80) (h : pre <+: toAsciiLowercase line) :
    cut pre.length line = .ok (line.drop pre.length) := by
  have hlen : (line.take pre.length).length = pre.length := by
    have hle := h.length_le
    rw [toAsciiLowercase, List.length_map] at hle
    rw [List.length_take, Nat.min_eq_left hle]
  have hsize : ∀ c ∈ line.take pre.length, c.utf8Size = 1 := by
    intro c hc
    have hmap : (line.take pre.length).map Char.toLower = pre := by
      rw [List.map_take]
      exact (List.prefix_iff_eq_take.1 h).symm
    exact utf8Size_of_toLower (of_decide_eq_true (List.all_eq_true.1 hpre _ (hmap ▸ List.mem_map_of_mem hc)))
  have hcut := sliceFrom_append hsize (line.drop pre.length)
  rw [hlen, List.take_append_drop] at hcut
  rw [cut, hcut]
  rfl

theorem stripTriagePrefix_ok (line : List Char) : ∃ rest, stripTriagePrefix line = .ok rest := by
  unfold stripTriagePrefix
  dsimp only
  cases hfind : triagePrefixes.find? fun pre => decide (pre <+: toAsciiLowercase line) with
  | none => exact ⟨line, rfl⟩
  | some pre =>
    have hmem := List.mem_of_find?_eq_some hfind
    have hstarts : pre <+: toAsciiLowercase line := by simpa using List.find?_some hfind
    have hascii : ∀ pre ∈ triagePrefixes, pre.all fun c => c.toNat < 0x80 := by decide
    refine ⟨(line.drop pre.length).dropWhile isWhitespace, ?_⟩
    simp only [cut_of_lower (hascii pre hmem) hstarts]
    rfl

theorem stripBulletMarker_eq (line : List Char) : stripBulletMarker line =
    match bulletMarkers.findSome? fun marker => stripPrefix marker (line.dropWhile isWhitespace) with
    | some rest => stripBulletMarker rest
    | none => (stripNumberedPrefix (line.dropWhile isWhitespace)).bind fun numbered =>
      match numbered with
      | some rest => stripBulletMarker rest
      | none => .ok (line.dropWhile isWhitespace) := by
  rw [stripBulletMarker]
  split
  · rename_i rest hmarker
    rw [hmarker]
  · rename_i hmarker
    rw [hmarker]
    split
    · rename_i rest hnumber
      rw [hnumber]
      rfl
    · rename_i hnumber
      rw [hnumber]
      rfl
    · rename_i e hnumber
      cases e
    · rename_i hnumber
      rw [hnumber]
      rfl

theorem stripBulletMarker_ok (line : List Char) : ∃ rest, stripBulletMarker line = .ok rest := by
  induction line using stripBulletMarker.induct with
  | case1 line trimmed rest hmarker ih =>
    rw [stripBulletMarker_eq, hmarker]
    exact ih
  | case2 line trimmed hmarker rest hnumber ih =>
    rw [stripBulletMarker_eq, hmarker, hnumber]
    exact ih
  | case3 line trimmed hmarker hnumber =>
    rw [stripBulletMarker_eq, hmarker, hnumber]
    exact ⟨trimmed, rfl⟩
  | case4 line trimmed hmarker e hnumber => cases e
  | case5 line trimmed hmarker hnumber =>
    rcases stripNumberedPrefix_cases trimmed with hnone | ⟨pre, rest, -, -, hsome⟩
    · rw [hnone] at hnumber
      cases hnumber
    · rw [hsome] at hnumber
      cases hnumber

theorem exists_of_normalizeStatement {out : List Char} (h : normalizeStatement line = some out) :
    ∃ inner, stripInlineMarkdown inner = out := by
  unfold normalizeStatement at h
  dsimp only at h
  split at h
  · cases h
  · exact ⟨_, Option.some.inj h⟩

/-- The first line is found without a panic.  It is not empty, and has no blank at an end. -/
theorem firstCleanLineFrom_ok (inCodeFence : Bool) (lines : List (List Char)) :
    ∃ o, firstCleanLineFrom inCodeFence lines = .ok o ∧
      ∀ line, o = some line → line ≠ [] ∧ trimWhitespace line = line := by
  induction lines generalizing inCodeFence with
  | nil => exact ⟨none, rfl, fun line h => by cases h⟩
  | cons rawLine rest ih =>
    rw [firstCleanLineFrom]
    split
    · exact ih _
    · split
      · exact ih _
      · obtain ⟨unmarked, hunmarked⟩ := stripBulletMarker_ok (trimWhitespace rawLine)
        obtain ⟨stripped, hstripped⟩ := stripTriagePrefix_ok unmarked
        simp only [hunmarked, hstripped, Outcome.bind]
        cases hline : normalizeStatement stripped with
        | none => exact ih _
        | some line =>
          simp only
          split
          · exact ih _
          · rename_i hne
            refine ⟨some line, rfl, fun line' h => ?_⟩
            cases h
            refine ⟨fun hnil => hne (by rw [hnil]; rfl), ?_⟩
            obtain ⟨inner, rfl⟩ := exists_of_normalizeStatement hline
            exact trimWhitespace_joinWords (fun w => ne_nil_of_mem_words)
              fun w hw c => not_space_of_mem_words hw

/-- **`first_clean_triage_line` does not panic.** -/
theorem firstCleanTriageLine_ok (raw : List Char) :
    ∃ o, firstCleanTriageLine raw = .ok o ∧ ∀ line, o = some line → line ≠ [] ∧ trimWhitespace line = line :=
  firstCleanLineFrom_ok false (Text.lines raw)

/-! ### Reasons are not empty and not too long -/

/-- A text that begins with a character that is kept by all that is dropped at an end. -/
def BeginsWell (s : List Char) : Prop :=
  ∃ c t, s = c :: t ∧ isWhitespace c = false ∧ isFullStop c = false

theorem beginsWell_reasonWords (raw : List Char) (read : Bool) : BeginsWell (reasonWords raw read) := by
  unfold reasonWords
  dsimp only
  set ws := (((words _).map (trimMatches isWordMark)).filter fun w => !w.isEmpty).take 5 with hws
  split
  · split
    · exact ⟨'p', _, rfl, by decide, by decide⟩
    · exact ⟨'l', _, rfl, by decide, by decide⟩
  · rename_i hne
    cases hcase : ws with
    | nil =>
      rw [hcase] at hne
      exact absurd rfl hne
    | cons w rest =>
      have hw : w ∈ ws := by
        rw [hcase]
        exact List.mem_cons_self
      rw [hws] at hw
      obtain ⟨hmem, hnonempty⟩ := List.mem_filter.1 (List.mem_of_mem_take hw)
      obtain ⟨whole, hwhole, rfl⟩ := List.mem_map.1 hmem
      have hnonnil : trimMatches isWordMark whole ≠ [] := fun hnil => by
        rw [hnil] at hnonempty
        cases hnonempty
      obtain ⟨c, t, ht, hc, hmark⟩ := head_trimMatches hnonnil
      obtain ⟨more, hmore⟩ := joinWords_cons (trimMatches isWordMark whole) rest
      refine ⟨c, t ++ more, ?_, not_space_of_mem_words hwhole hc, ?_⟩
      · rw [hmore, ht]
        rfl
      · simp only [isWordMark, Bool.or_eq_false_iff] at hmark
        simp only [isFullStop, hmark]
        rfl

/-- Dropping full stops and blanks at the ends leaves something, and nothing new. -/
theorem trimmed_of_beginsWell (h : BeginsWell s) :
    trimWhitespace (s.rdropWhile isFullStop) ≠ [] ∧
      (trimWhitespace (s.rdropWhile isFullStop)).length ≤ s.length := by
  obtain ⟨c, t, rfl, hspace, hstop⟩ := h
  obtain ⟨t', ht'⟩ := rdropWhile_cons hstop t
  obtain ⟨t'', ht''⟩ := trimWhitespace_cons hspace t'
  constructor
  · rw [ht', ht'']
    exact List.cons_ne_nil _ _
  · exact (length_trimWhitespace_le _).trans (List.rdropWhile_prefix _ _).length_le

theorem BeginsWell.of_prefix (h : BeginsWell s) (hpre : pre <+: s) (hne : pre ≠ []) :
    BeginsWell pre := by
  obtain ⟨c, t, rfl, hspace, hstop⟩ := h
  cases pre with
  | nil => exact absurd rfl hne
  | cons d pre =>
    obtain ⟨rfl, -⟩ := List.cons_prefix_cons.1 hpre
    exact ⟨d, pre, rfl, hspace, hstop⟩

theorem beforeParenthesis_isPrefix {head : List Char} (h : beforeParenthesis line = some head) :
    head <+: line := by
  induction line generalizing head with
  | nil => cases h
  | cons c rest ih =>
    rw [beforeParenthesis] at h
    split at h
    · cases h
      exact List.nil_prefix
    · obtain ⟨before, hbefore, rfl⟩ := Option.map_eq_some_iff.1 h
      exact List.cons_prefix_cons.2 ⟨rfl, ih hbefore⟩

theorem candidate_cases {candidate : List Char} (hline : BeginsWell line)
    (h : candidate = ((beforeParenthesis line).filter fun head =>
      !(trimWhitespace head).isEmpty && decide (head.length ≤ maxChars)).getD line) :
    BeginsWell candidate := by
  cases hfilter : (beforeParenthesis line).filter fun head =>
      !(trimWhitespace head).isEmpty && decide (head.length ≤ maxChars) with
  | none =>
    rw [h, hfilter]
    exact hline
  | some head =>
    obtain ⟨hbefore, hkeep⟩ := Option.filter_eq_some_iff.1 hfilter
    rw [h, hfilter]
    refine hline.of_prefix (beforeParenthesis_isPrefix hbefore) fun hnil => ?_
    subst hnil
    cases hkeep

/-- **A capped text is not empty, and not too long.** -/
theorem capLine_spec (hline : BeginsWell line) (hmax : 0 < maxChars) :
    capLine line maxChars ≠ [] ∧ (capLine line maxChars).length ≤ maxChars := by
  unfold capLine
  split
  · rename_i hshort
    obtain ⟨c, t, rfl, -⟩ := hline
    exact ⟨List.cons_ne_nil _ _, hshort⟩
  · dsimp only
    set candidate := ((beforeParenthesis line).filter fun head =>
      !(trimWhitespace head).isEmpty && decide (head.length ≤ maxChars)).getD line with hdef
    have hcandidate := candidate_cases hline hdef
    split
    · rename_i hfits
      obtain ⟨hne, hle⟩ := trimmed_of_beginsWell hcandidate
      exact ⟨hne, hle.trans hfits⟩
    · have htake : BeginsWell (candidate.take maxChars) := by
        obtain ⟨c, t, ht, hspace, hstop⟩ := hcandidate
        obtain ⟨n, rfl⟩ := Nat.exists_eq_succ_of_ne_zero hmax.ne'
        rw [ht]
        exact ⟨c, t.take n, rfl, hspace, hstop⟩
      set out := (candidate.take maxChars).rdropWhile fun c => !isWhitespace c with hout
      have hstarts : out <+: candidate.take maxChars := List.rdropWhile_prefix _ _
      have hwell : BeginsWell (if (trimWhitespace out).isEmpty then candidate.take maxChars else out) := by
        split
        · exact htake
        · rename_i hne
          refine htake.of_prefix hstarts fun hnil => hne ?_
          rw [hnil]
          rfl
      have hlen : (if (trimWhitespace out).isEmpty then candidate.take maxChars else out).length ≤ maxChars := by
        split
        · exact List.length_take_le _ _
        · exact hstarts.length_le.trans (List.length_take_le _ _)
      obtain ⟨hne, hle⟩ := trimmed_of_beginsWell hwell
      exact ⟨hne, hle.trans hlen⟩

/-! ### Failing open -/

section FailsOpen

variable (letters : Letters)

def isWordChar (c : Char) : Bool := letters.isAlphabetic c || letters.isNumeric c || c == '_'

/-- The line begins with a word, in any letter case. -/
def BeginsWithWord (word text : List Char) : Prop :=
  word <+: toAsciiLowercase text ∧ ∀ c, text[word.length]? = some c → isWordChar letters c = false

/-- The line that an answer to skip is read from: the answer does not think aloud, it is its first line, it
does not echo the prompt, and what follows the first word is not malformed. -/
structure AnswerLine (raw prompt line : List Char) : Prop where
  thinking : looksLikeThinkingOutput raw = false
  first : firstCleanTriageLine raw = .ok (some line)
  echo : looksLikeTriagePromptEcho line prompt = false
  reason : looksMalformedShortText letters (reasonWords (line.drop 4) false) = false

/-- A verdict fails open: it has a short reason, and it is to skip the span only where the first word of the
answer is `SKIP`, and what follows is the reason. -/
structure FailsOpen (raw prompt : List Char) (verdict : TriageVerdict) : Prop where
  reason_ne_nil : verdict.reason ≠ []
  length_reason : verdict.reason.length ≤ 48
  skip : verdict.read = false → ∃ line, AnswerLine letters raw prompt line ∧
    BeginsWithWord letters "skip".toList line ∧
    verdict.reason = capLine (reasonWords (line.drop 4) false) 48

/-- The first word of the answer is another one that begins with these letters. -/
def NearMiss (raw prompt : List Char) : Prop :=
  ∃ line, AnswerLine letters raw prompt line ∧ "skip".toList <+: toAsciiLowercase line ∧
    ∃ c, (line)[4]? = some c ∧ isWordChar letters c = true

variable {letters}

theorem verdictWith_cases (letters : Letters) (read : Bool) (rest : List Char) :
    (looksMalformedShortText letters (reasonWords rest read) = true ∧
        verdictWith letters read rest = conservativeRead) ∨
      (looksMalformedShortText letters (reasonWords rest read) = false ∧
        verdictWith letters read rest = ⟨read, capLine (reasonWords rest read) 48⟩) := by
  unfold verdictWith normalizeTriageReason
  cases hmalformed : looksMalformedShortText letters (reasonWords rest read) with
  | true => exact .inl ⟨rfl, by simp only [hmalformed, if_true]⟩
  | false =>
    refine .inr ⟨rfl, ?_⟩
    simp only [hmalformed, Bool.false_eq_true, if_false]
    rfl

variable {line raw prompt reason : List Char}

theorem parseTriageLine_cases (letters : Letters) (htrim : trimWhitespace line = line) :
    ("read".toList <+: toAsciiLowercase line ∧
        parseTriageLine letters line = .ok (some (verdictWith letters true (line.drop 4)))) ∨
      ("skip".toList <+: toAsciiLowercase line ∧
        parseTriageLine letters line = .ok (some (verdictWith letters false (line.drop 4)))) ∨
      (¬ "skip".toList <+: toAsciiLowercase line ∧ parseTriageLine letters line = .ok none) := by
  unfold parseTriageLine
  rw [htrim]
  dsimp only
  have hascii : ∀ word ∈ ["read".toList, "skip".toList], word.all fun c => c.toNat < 0x80 := by decide
  split
  · rename_i hread
    have hcut : cut 4 line = .ok (line.drop 4) := cut_of_lower (hascii _ (by simp)) hread
    rw [hcut]
    exact .inl ⟨hread, rfl⟩
  · split
    · rename_i hskip
      have hcut : cut 4 line = .ok (line.drop 4) := cut_of_lower (hascii _ (by simp)) hskip
      rw [hcut]
      exact .inr (.inl ⟨hskip, rfl⟩)
    · rename_i hskip
      exact .inr (.inr ⟨hskip, rfl⟩)

/-- What holds of the verdict: its reason is short, and it is to skip the span exactly where the line begins
with the letters. -/
structure Judged (letters : Letters) (raw prompt : List Char) (verdict : TriageVerdict) : Prop where
  reason_ne_nil : verdict.reason ≠ []
  length_reason : verdict.reason.length ≤ 48
  sound : verdict.read = false → ∃ line, AnswerLine letters raw prompt line ∧
    "skip".toList <+: toAsciiLowercase line ∧ verdict.reason = capLine (reasonWords (line.drop 4) false) 48
  complete : ∀ line, AnswerLine letters raw prompt line → "skip".toList <+: toAsciiLowercase line →
    verdict.read = false

theorem judged_of_read (hreason : reason ≠ [] ∧ reason.length ≤ 48)
    (hno : ∀ line, AnswerLine letters raw prompt line → ¬ "skip".toList <+: toAsciiLowercase line) :
    Judged letters raw prompt ⟨true, reason⟩ where
  reason_ne_nil := hreason.1
  length_reason := hreason.2
  sound := fun h => by cases h
  complete := fun line hline hskip => absurd hskip (hno line hline)

theorem judged_of_skip (hreason : reason ≠ [] ∧ reason.length ≤ 48)
    (hline : AnswerLine letters raw prompt line) (hskip : "skip".toList <+: toAsciiLowercase line)
    (heq : reason = capLine (reasonWords (line.drop 4) false) 48) :
    Judged letters raw prompt ⟨false, reason⟩ where
  reason_ne_nil := hreason.1
  length_reason := hreason.2
  sound := fun _ => ⟨line, hline, hskip, heq⟩
  complete := fun _ _ _ => rfl

theorem reason_conservativeRead : conservativeRead.reason ≠ [] ∧ conservativeRead.reason.length ≤ 48 := by
  decide

theorem AnswerLine.eq {line' : List Char} (h : AnswerLine letters raw prompt line)
    (hfirst : firstCleanTriageLine raw = .ok (some line')) : line = line' :=
  Option.some.inj (Outcome.ok.inj (h.first.symm.trans hfirst))

theorem judged_parseTriageLine (hthinking : looksLikeThinkingOutput raw = false)
    (hfirst : firstCleanTriageLine raw = .ok (some line))
    (hecho : looksLikeTriagePromptEcho line prompt = false) (htrim : trimWhitespace line = line) :
    ∃ found, parseTriageLine letters line = .ok found ∧
      Judged letters raw prompt (found.getD conservativeRead) := by
  have hcapped (yes : Bool) : capLine (reasonWords (line.drop 4) yes) 48 ≠ [] ∧
      (capLine (reasonWords (line.drop 4) yes) 48).length ≤ 48 :=
    capLine_spec (beginsWell_reasonWords (line.drop 4) yes) (by decide)
  rcases parseTriageLine_cases letters htrim with
    ⟨hletters, hparse⟩ | ⟨hletters, hparse⟩ | ⟨hletters, hparse⟩
  · have hno : ∀ line', AnswerLine letters raw prompt line' → ¬ "skip".toList <+: toAsciiLowercase line' := by
      intro line' hline hskip
      rw [hline.eq hfirst] at hskip
      have hsame := List.prefix_of_prefix_length_le hletters hskip (by decide)
      revert hsame
      decide
    refine ⟨_, hparse, ?_⟩
    rcases verdictWith_cases letters true (line.drop 4) with ⟨-, hv⟩ | ⟨-, hv⟩
    · rw [hv, Option.getD_some]
      exact judged_of_read reason_conservativeRead hno
    · rw [hv, Option.getD_some]
      exact judged_of_read (hcapped true) hno
  · refine ⟨_, hparse, ?_⟩
    rcases verdictWith_cases letters false (line.drop 4) with ⟨hbad, hv⟩ | ⟨hgood, hv⟩
    · rw [hv, Option.getD_some]
      refine judged_of_read reason_conservativeRead fun line' hline => ?_
      have hreason := hline.reason
      rw [hline.eq hfirst, hbad] at hreason
      cases hreason
    · rw [hv, Option.getD_some]
      exact judged_of_skip (hcapped false) ⟨hthinking, hfirst, hecho, hgood⟩ hletters rfl
  · refine ⟨_, hparse, judged_of_read reason_conservativeRead fun line' hline => ?_⟩
    rw [hline.eq hfirst]
    exact hletters

/-- **There is a verdict**, whatever the answer is. -/
theorem postprocessTriageOutput_ok (letters : Letters) (raw prompt : List Char) :
    ∃ verdict, postprocessTriageOutput letters raw prompt = .ok verdict ∧
      Judged letters raw prompt verdict := by
  unfold postprocessTriageOutput
  cases hthinking : looksLikeThinkingOutput raw with
  | true =>
    rw [if_pos rfl]
    refine ⟨_, rfl, judged_of_read reason_conservativeRead fun line hline => ?_⟩
    have hno := hline.thinking
    rw [hthinking] at hno
    cases hno
  | false =>
    rw [if_neg Bool.false_ne_true]
    obtain ⟨o, hfirst, htrimmed⟩ := firstCleanTriageLine_ok raw
    rw [hfirst]
    cases o with
    | none =>
      refine ⟨_, rfl, judged_of_read reason_conservativeRead fun line hline => ?_⟩
      cases hline.first.symm.trans hfirst
    | some line =>
      simp only [Outcome.bind]
      cases hecho : looksLikeTriagePromptEcho line prompt with
      | true =>
        rw [if_pos rfl]
        refine ⟨_, rfl, judged_of_read reason_conservativeRead fun line' hline => ?_⟩
        have hno := hline.echo
        rw [hline.eq hfirst, hecho] at hno
        cases hno
      | false =>
        rw [if_neg Bool.false_ne_true]
        obtain ⟨found, hfound, hjudged⟩ :=
          judged_parseTriageLine hthinking hfirst hecho (htrimmed line rfl).2
        rw [hfound]
        exact ⟨_, rfl, hjudged⟩

/-- **The verdict fails open, except for near misses.** -/
theorem postprocessTriageOutput_failsOpen_iff (letters : Letters) (raw prompt : List Char) :
    (∃ verdict, postprocessTriageOutput letters raw prompt = .ok verdict ∧
        FailsOpen letters raw prompt verdict) ↔ ¬ NearMiss letters raw prompt := by
  obtain ⟨verdict, hout, hjudged⟩ := postprocessTriageOutput_ok letters raw prompt
  constructor
  · rintro ⟨verdict', hout', hopen⟩ ⟨line, hline, hstarts, c, hc, hword⟩
    rw [hout] at hout'
    cases hout'
    obtain ⟨line', hline', ⟨-, hend⟩, -⟩ := hopen.skip (hjudged.complete line hline hstarts)
    rw [hline.eq hline'.first] at hc
    rw [hend c hc] at hword
    cases hword
  · intro hno
    refine ⟨verdict, hout, hjudged.reason_ne_nil, hjudged.length_reason, fun hread => ?_⟩
    obtain ⟨line, hline, hstarts, hreason⟩ := hjudged.sound hread
    refine ⟨line, hline, ⟨hstarts, fun c hc => ?_⟩, hreason⟩
    by_contra hword
    exact hno ⟨line, hline, hstarts, c, hc, Bool.of_not_eq_false hword⟩

end FailsOpen

def asciiLetters : Letters := ⟨Char.isAlpha, Char.isDigit⟩

def triagePrompt (query spanLoc spanCode : List Char) : List Char :=
  ("Given the user's question and ONE code span, decide if this span is worth the developer opening. " ++
      "Reply with a verdict \x60READ\x60 or \x60SKIP\x60 and a 3-5 word reason. If unsure, READ. " ++
      "Do NOT answer the question. Do NOT explain the code.\n\nQuestion:\n").toList ++
    query ++ "\n\nSpan: ".toList ++ spanLoc ++ ['\n'] ++ spanCode

/-- An answer that warns against skipping, and hides the span. -/
theorem postprocessTriageOutput_skipping :
    ¬ ∃ verdict, postprocessTriageOutput asciiLetters "Skipping it would miss the handler".toList
        (triagePrompt "who handles it?".toList "x.rs:1".toList "fn f() \x7b\x7d\n".toList) = .ok verdict ∧
      FailsOpen asciiLetters "Skipping it would miss the handler".toList
        (triagePrompt "who handles it?".toList "x.rs:1".toList "fn f() \x7b\x7d\n".toList) verdict := by
  rintro ⟨verdict, hout, hopen⟩
  have hverdict : postprocessTriageOutput asciiLetters "Skipping it would miss the handler".toList
      (triagePrompt "who handles it?".toList "x.rs:1".toList "fn f() \x7b\x7d\n".toList) =
        .ok ⟨false, "ping it would miss the".toList⟩ := by decide +kernel
  rw [hverdict] at hout
  cases hout
  obtain ⟨line, hline, ⟨-, hend⟩, -⟩ := hopen.skip rfl
  have hfirst : firstCleanTriageLine "Skipping it would miss the handler".toList =
      .ok (some "Skipping it would miss the handler".toList) := by decide +kernel
  rw [hline.eq hfirst] at hend
  have hletter := hend 'p' (by decide)
  revert hletter
  decide

end Triage

end Greppy
