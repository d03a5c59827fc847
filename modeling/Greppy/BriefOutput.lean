/-
**The statements of a brief.**

A language model is asked what a function is for.  `postprocess_brief_output` makes statements of its
answer: from each line outside of code fences it drops bullets, known prefixes, quotes, inline markdown,
phrases that lead in and what follows certain phrases; it passes over what looks like code or is malformed,
and gives up where the prompt is echoed; and it cuts what is too long.  The phrases are found in lower case,
and the line is cut at the bytes where they are found.
-/

import Greppy.ByteSlices
import Greppy.TriageOutput

set_option autoImplicit false

namespace Greppy

namespace Triage

def maxBriefBulletChars : ℕ := 140

/-! ### Phrases -/

/-- `PREFIXES`. -/
def knownPrefixes : List String :=
  ["summary:", "purpose:", "function:", "the function:", "this function:", "answer:"]

def stripKnownPrefix (line : List Char) : Outcome Empty (List Char) :=
  let lower := toAsciiLowercase line
  match knownPrefixes.find? fun pre => decide (pre.toList <+: lower) with
  | some pre => (cut pre.toList.length line).bind fun rest => .ok (rest.dropWhile isWhitespace)
  | none => .ok line

/-- `str::find`: the byte at which a text occurs first. -/
def findText (text : List Char) : List Char → Option ℕ
  | [] => if text = [] then some 0 else none
  | c :: s => if text <+: c :: s then some 0 else (findText text s).map (c.utf8Size + ·)

/-- The markers of `trim_discourse_tail`. -/
def discourseMarkers : List String :=
  [" specifically,", " the logic is as follows", " here is a breakdown", " when you ", " in short:"]

/-- The loop of `trim_discourse_tail`: the end that is left after some of the markers. -/
def discourseEnd (lower : List Char) (markers : List String) (stop : ℕ) : ℕ :=
  markers.foldl (fun stop marker => ((findText marker.toList lower).map (min stop)).getD stop) stop

def trimDiscourseTail (line : List Char) : Outcome Empty (List Char) :=
  let lower := toAsciiLowercase line
  (Outcome.unwrap (sliceTo (discourseEnd lower discourseMarkers (byteLength line)) line)).bind fun head =>
    .ok (trimWhitespace head)

def cleanRewrittenBrief (line : List Char) : List Char :=
  trimWhitespace (((beforeParenthesis line).getD line).rdropWhile (· == ','))

/-- The prefixes of `rewrite_brief_statement`. -/
def leadIns : List String :=
  ["this code snippet describes a logic that ", "this code snippet describes that ",
    "this code snippet describes ", "this code describes a logic that ", "this code describes that ",
    "this code describes ", "this function is a helper utility designed to ",
    "this function is primarily designed to ", "this function is designed to ", "this function is used to ",
    "this function is primarily for ", "this function is for "]

def rewriteBriefStatement (line : List Char) : Outcome Empty (Option (List Char)) :=
  (trimDiscourseTail line).bind fun line =>
    let line := trimWhitespace line
    if line.isEmpty then .ok none
    else
      let lower := toAsciiLowercase line
      if containsText "known as".toList lower then .ok none
      else
        match leadIns.find? fun pre => decide (pre.toList <+: lower) with
        | some pre =>
          (cut pre.toList.length line).bind fun rest =>
            let rest := cleanRewrittenBrief (trimWhitespace rest)
            .ok (if rest.isEmpty then none else some rest)
        | none =>
          match findText " designed to ".toList lower with
          | some idx =>
            (cut (idx + " designed to ".toList.length) line).bind fun rest =>
              let rest := cleanRewrittenBrief (trimWhitespace rest)
              .ok (some (if rest.isEmpty then cleanRewrittenBrief line else rest))
          | none => .ok (some (cleanRewrittenBrief line))

/-- What the loop of `postprocess_brief_output` makes of a line before it looks at it. -/
def cleanBriefLine (line : List Char) : Outcome Empty (Option (List Char)) :=
  (stripBulletMarker line).bind fun line =>
    (stripKnownPrefix line).bind fun line =>
      match normalizeStatement line with
      | none => .ok none
      | some line => rewriteBriefStatement line

/-! ### What is passed over -/

def looksLikePromptEcho (statement prompt : List Char) : Bool :=
  let lower := toAsciiLowercase statement
  let promptFirstCodeLine := (((Text.lines prompt).find? fun line =>
    decide ("fn ".toList <+: line.dropWhile isWhitespace)).map trimWhitespace).getD []
  containsText "summarize: what is this function for?".toList lower ||
    (!promptFirstCodeLine.isEmpty && decide (trimWhitespace statement = promptFirstCodeLine))

def looksLikeCode (statement : List Char) : Bool :=
  let s := statement.dropWhile isWhitespace
  (["fn ", "pub fn ", "async fn ", "impl ", "class "].any fun start => decide (start.toList <+: s)) ||
    containsText " \x7b".toList s || decide (['{'] <:+ s) || containsText ");".toList s ||
    containsText "->".toList s

section Letters

variable (letters : Letters)

/-- `word.chars().filter(|c| c.is_alphabetic()).count()`. -/
def letterCount (word : List Char) : ℕ := word.countP letters.isAlphabetic

def looksLikeNoiseWord (word : List Char) : Bool :=
  let count := letterCount letters word
  let vowels := word.countP fun c => ['a', 'e', 'i', 'o', 'u', 'y'].contains c.toLower
  !decide (count < 24) && decide (vowels * 8 < count)

def looksMalformedBriefStatement (statement : List Char) : Bool :=
  let s := trimWhitespace statement
  let lower := toAsciiLowercase s
  if containsText "here is a breakdown".toList lower || decide ("in short:".toList <+: lower) then true
  else if looksMalformedShortText letters s then true
  else
    let ws := words s
    if (ws.countP fun word => word.any letters.isAlphabetic) = 0 then true
    else
      let tinyWords := ws.countP fun word =>
        decide (0 < letterCount letters word ∧ letterCount letters word ≤ 2)
      if 8 ≤ ws.length ∧ ws.length < tinyWords * 2 then true
      else ws.any (looksLikeNoiseWord letters)

/-! ### The whole -/

/-- The loop of `postprocess_brief_output`. -/
def briefFrom (prompt : List Char) (inCodeFence : Bool) (out : List (List Char)) :
    List (List Char) → Outcome Empty (List (List Char))
  | [] => .ok out
  | rawLine :: rest =>
    let line := trimWhitespace rawLine
    if ['`', '`', '`'] <+: line then briefFrom prompt (!inCodeFence) out rest
    else if inCodeFence || line.isEmpty then briefFrom prompt inCodeFence out rest
    else
      (cleanBriefLine line).bind fun cleaned =>
        match cleaned with
        | none => briefFrom prompt inCodeFence out rest
        | some line =>
          if looksLikePromptEcho line prompt then .ok []
          else if looksLikeCode line then briefFrom prompt inCodeFence out rest
          else if looksMalformedBriefStatement letters line then briefFrom prompt inCodeFence out rest
          else
            let line := capLine line maxBriefBulletChars
            let out := if !line.isEmpty && !out.contains line then out ++ [line] else out
            if out.length = 2 then .ok out else briefFrom prompt inCodeFence out rest

def postprocessBriefOutput (raw prompt : List Char) : Outcome Empty (List (List Char)) :=
  if looksLikeThinkingOutput raw then .ok [] else briefFrom letters prompt false [] (Text.lines raw)

end Letters

/-! ### No cut is inside a character -/

theorem cut_append (pre s : List Char) : cut (byteLength pre) (pre ++ s) = .ok s := by
  have hslice : sliceFrom (byteLength pre) (pre ++ s) = some s := by
    induction pre with
    | nil => exact sliceFrom.eq_1 s
    | cons c pre ih =>
      have hpos := c.utf8Size_pos
      obtain ⟨n, hn⟩ : ∃ n, c.utf8Size + byteLength pre = n + 1 := ⟨c.utf8Size + byteLength pre - 1, by omega⟩
      rw [byteLength_cons, hn, List.cons_append, sliceFrom, if_pos (by omega),
        show n + 1 - c.utf8Size = byteLength pre by omega, ih]
  rw [cut, hslice]
  rfl

theorem utf8Size_toLower (c : Char) : c.toLower.utf8Size = c.utf8Size := by
  by_cases hupper : c.isUpper = true
  · have hle : c.toNat ≤ 90 := UInt32.le_iff_toNat_le.1 (of_decide_eq_true hupper).2
    have hlower : c.toLower.toNat < 0x80 := by
      rw [Char.toLower_eq_of_isUpper hupper, Char.toNat_ofNat, if_pos (.inl (by omega))]
      omega
    rw [utf8Size_of_toLower hlower, Char.utf8Size_eq_one_iff, UInt32.le_iff_toNat_le]
    exact Nat.le_of_lt_succ hlower
  · rw [Char.toLower_eq_of_not_isUpper hupper]

theorem byteLength_toAsciiLowercase (s : List Char) : byteLength (toAsciiLowercase s) = byteLength s := by
  induction s with
  | nil => rfl
  | cons c s ih =>
    have hcons : toAsciiLowercase (c :: s) = c.toLower :: toAsciiLowercase s := rfl
    rw [hcons, byteLength_cons, byteLength_cons, utf8Size_toLower, ih]

variable {s line : List Char}

theorem findText_eq_some {text : List Char} {idx : ℕ} (h : findText text s = some idx) :
    ∃ before after, s = before ++ text ++ after ∧ byteLength before = idx := by
  induction s generalizing idx with
  | nil =>
    rw [findText] at h
    split at h
    · rename_i hempty
      cases h
      exact ⟨[], [], by rw [hempty]; rfl, rfl⟩
    · cases h
  | cons c s ih =>
    rw [findText] at h
    split at h
    · rename_i hpre
      cases h
      obtain ⟨after, hafter⟩ := hpre
      exact ⟨[], after, by rw [List.nil_append, hafter], rfl⟩
    · obtain ⟨n, hn, rfl⟩ := Option.map_eq_some_iff.1 h
      obtain ⟨before, after, rfl, hbefore⟩ := ih hn
      exact ⟨c :: before, after, rfl, by rw [byteLength_cons, hbefore]⟩

/-- Where a text is found in lower case, the line falls into three parts. -/
theorem split_of_findText {text : List Char} {idx : ℕ}
    (h : findText text (toAsciiLowercase line) = some idx) :
    ∃ before found after, line = before ++ found ++ after ∧ toAsciiLowercase found = text ∧
      byteLength before = idx := by
  obtain ⟨before, after, hline, hidx⟩ := findText_eq_some h
  obtain ⟨front, after', rfl, hfront, -⟩ := List.map_eq_append_iff.1 hline
  obtain ⟨before', found, rfl, hbefore, hfound⟩ := List.map_eq_append_iff.1 hfront
  refine ⟨before', found, after', rfl, hfound, ?_⟩
  rw [← hidx, ← hbefore]
  exact (byteLength_toAsciiLowercase before').symm

/-- A place at which the line can be cut. -/
def IsCut (line : List Char) (n : ℕ) : Prop := ∃ p, p <+: line ∧ byteLength p = n

theorem isCut_discourseEnd (markers : List String) {stop : ℕ} (h : IsCut line stop) :
    IsCut line (discourseEnd (toAsciiLowercase line) markers stop) := by
  induction markers generalizing stop with
  | nil => exact h
  | cons marker markers ih =>
    rw [discourseEnd, List.foldl_cons]
    refine ih ?_
    cases hfind : findText marker.toList (toAsciiLowercase line) with
    | none => exact h
    | some idx =>
      obtain ⟨before, found, after, rfl, -, hidx⟩ := split_of_findText hfind
      rcases min_choice stop idx with hmin | hmin
      · rw [Option.map_some, Option.getD_some, hmin]
        exact h
      · rw [Option.map_some, Option.getD_some, hmin]
        exact ⟨before, by rw [List.append_assoc]; exact List.prefix_append _ _, hidx⟩

/-- `trim_discourse_tail` leaves a beginning of the line, trimmed. -/
theorem trimDiscourseTail_ok (line : List Char) :
    ∃ head, head <+: line ∧ trimDiscourseTail line = .ok (trimWhitespace head) := by
  obtain ⟨head, hpre, hlen⟩ := isCut_discourseEnd discourseMarkers ⟨line, List.prefix_refl line, rfl⟩
  refine ⟨head, hpre, ?_⟩
  rw [trimDiscourseTail, sliceTo_eq_some_iff.2 ⟨hpre, hlen⟩]
  rfl

theorem stripKnownPrefix_ok (line : List Char) : ∃ rest, stripKnownPrefix line = .ok rest := by
  have hascii : ∀ pre ∈ knownPrefixes, pre.toList.all fun c => c.toNat < 0x80 := by decide
  unfold stripKnownPrefix
  dsimp only
  cases hfind : knownPrefixes.find? fun pre => decide (pre.toList <+: toAsciiLowercase line) with
  | none => exact ⟨line, rfl⟩
  | some pre =>
    have hmem := List.mem_of_find?_eq_some hfind
    have hstarts : pre.toList <+: toAsciiLowercase line := by simpa using List.find?_some hfind
    refine ⟨(line.drop pre.toList.length).dropWhile isWhitespace, ?_⟩
    simp only [cut_of_lower (hascii pre hmem) hstarts]
    rfl

/-! ### The cleaned line -/

/-- A line without blanks at its ends, and with no blank in it but the space. -/
structure IsClean (s : List Char) : Prop where
  trimmed : trimWhitespace s = s
  spaces : ∀ c ∈ s, isWhitespace c = true → c = ' '

theorem mem_of_mem_trimWhitespace {c : Char} (h : c ∈ trimWhitespace s) : c ∈ s := by
  rw [trimWhitespace_eq] at h
  exact (List.dropWhile_suffix _).mem ((List.rdropWhile_prefix _ _).mem h)

theorem trimWhitespace_trimWhitespace (s : List Char) : trimWhitespace (trimWhitespace s) = trimWhitespace s := by
  rw [trimWhitespace_eq s]
  cases hs : s.dropWhile isWhitespace with
  | nil => rfl
  | cons c t =>
    have hc : isWhitespace c = false := by
      have hhead := List.head?_dropWhile_not isWhitespace s
      rw [hs] at hhead
      simpa using hhead
    obtain ⟨t', ht'⟩ := rdropWhile_cons hc t
    rw [trimWhitespace_eq, ht', List.dropWhile_cons_of_neg (by rw [hc]; decide), ← ht',
      List.rdropWhile_idempotent]

theorem isClean_trimWhitespace (hline : ∀ c ∈ line, isWhitespace c = true → c = ' ')
    (hsub : ∀ c ∈ s, c ∈ line) : IsClean (trimWhitespace s) :=
  ⟨trimWhitespace_trimWhitespace s, fun c hc => hline c (hsub c (mem_of_mem_trimWhitespace hc))⟩

theorem mem_joinWords {ws : List (List Char)} {c : Char} (h : c ∈ joinWords ws) : c = ' ' ∨ ∃ w ∈ ws, c ∈ w := by
  induction ws with
  | nil => cases h
  | cons w ws ih =>
    cases ws with
    | nil =>
      rw [joinWords, List.intercalate_singleton] at h
      exact .inr ⟨w, List.mem_cons_self, h⟩
    | cons v ws =>
      rw [joinWords, List.intercalate_cons_cons, List.mem_append, List.mem_append, List.mem_singleton] at h
      rcases h with (h | h) | h
      · exact .inr ⟨w, List.mem_cons_self, h⟩
      · exact .inl h
      · rcases ih h with h | ⟨u, hu, hc⟩
        · exact .inl h
        · exact .inr ⟨u, List.mem_cons_of_mem _ hu, hc⟩

theorem spaces_of_normalizeStatement {out : List Char} (h : normalizeStatement line = some out) :
    ∀ c ∈ out, isWhitespace c = true → c = ' ' := by
  obtain ⟨inner, rfl⟩ := exists_of_normalizeStatement h
  intro c hc hspace
  rcases mem_joinWords hc with hc | ⟨w, hw, hc⟩
  · exact hc
  · rw [not_space_of_mem_words hw hc] at hspace
    cases hspace

theorem isClean_cleanRewrittenBrief (hline : ∀ c ∈ line, isWhitespace c = true → c = ' ')
    (hsub : ∀ c ∈ s, c ∈ line) : IsClean (cleanRewrittenBrief s) := by
  refine isClean_trimWhitespace hline fun c hc => hsub c ?_
  have hmem := (List.rdropWhile_prefix _ _).mem hc
  cases hbefore : beforeParenthesis s with
  | none =>
    rw [hbefore] at hmem
    exact hmem
  | some head =>
    rw [hbefore] at hmem
    exact (beforeParenthesis_isPrefix hbefore).mem hmem

theorem rewriteBriefStatement_ok (hline : ∀ c ∈ line, isWhitespace c = true → c = ' ') :
    ∃ o, rewriteBriefStatement line = .ok o ∧ ∀ s, o = some s → IsClean s := by
  obtain ⟨head, hpre, htail⟩ := trimDiscourseTail_ok line
  unfold rewriteBriefStatement
  rw [htail]
  dsimp only [Outcome.bind]
  set trimmed := trimWhitespace (trimWhitespace head) with htrimmed
  have hsub (c : Char) (hc : c ∈ trimmed) : c ∈ line :=
    hpre.mem (mem_of_mem_trimWhitespace (mem_of_mem_trimWhitespace hc))
  have hdrop (n : ℕ) (c : Char) (hc : c ∈ trimWhitespace (trimmed.drop n)) : c ∈ line :=
    hsub c (List.mem_of_mem_drop (mem_of_mem_trimWhitespace hc))
  split
  · exact ⟨none, rfl, fun s h => nomatch h⟩
  · split
    · exact ⟨none, rfl, fun s h => nomatch h⟩
    · split
      · rename_i pre hfind
        have hascii : ∀ pre ∈ leadIns, pre.toList.all fun c => c.toNat < 0x80 := by decide
        have hstarts : pre.toList <+: toAsciiLowercase trimmed := by simpa using List.find?_some hfind
        rw [cut_of_lower (hascii pre (List.mem_of_find?_eq_some hfind)) hstarts]
        refine ⟨_, rfl, fun s hs => ?_⟩
        split at hs
        · cases hs
        · rw [← Option.some.inj hs]
          exact isClean_cleanRewrittenBrief hline (hdrop _)
      · split
        · rename_i idx hidx
          obtain ⟨before, found, after, hsplit, hfound, hbefore⟩ := split_of_findText hidx
          have hbytes : idx + " designed to ".toList.length = byteLength (before ++ found) := by
            rw [byteLength_append, hbefore, ← byteLength_toAsciiLowercase found, hfound]
            rfl
          have hcut : cut (idx + " designed to ".toList.length) trimmed = .ok after := by
            rw [hbytes, hsplit]
            exact cut_append _ after
          rw [hcut]
          refine ⟨_, rfl, fun s hs => ?_⟩
          rw [← Option.some.inj hs]
          split
          · exact isClean_cleanRewrittenBrief hline hsub
          · refine isClean_cleanRewrittenBrief hline fun c hc => hsub c ?_
            rw [hsplit]
            exact List.mem_append_right _ (mem_of_mem_trimWhitespace hc)
        · refine ⟨_, rfl, fun s hs => ?_⟩
          rw [← Option.some.inj hs]
          exact isClean_cleanRewrittenBrief hline hsub

/-- **The line is cleaned without a panic.** -/
theorem cleanBriefLine_ok (line : List Char) :
    ∃ o, cleanBriefLine line = .ok o ∧ ∀ s, o = some s → IsClean s := by
  obtain ⟨unmarked, hunmarked⟩ := stripBulletMarker_ok line
  obtain ⟨stripped, hstripped⟩ := stripKnownPrefix_ok unmarked
  rw [cleanBriefLine, hunmarked]
  dsimp only [Outcome.bind]
  rw [hstripped]
  dsimp only
  cases hnormal : normalizeStatement stripped with
  | none => exact ⟨none, rfl, fun s h => nomatch h⟩
  | some normal => exact rewriteBriefStatement_ok (spaces_of_normalizeStatement hnormal)

/-! ### Cutting a statement -/

/-- What is left of a line that is cut: the line up to the cut, without full stops, commas and spaces at its
end.  The cut is before or behind a space if there is one to be found. -/
def Shortened (line s : List Char) : Prop :=
  ∃ tail rest, line = s ++ tail ++ rest ∧ (∀ c ∈ tail, c = '.' ∨ c = ',' ∨ c = ' ') ∧
    (' ' ∈ line.take maxBriefBulletChars →
      (∃ front, s ++ tail = front ++ [' ']) ∨ ∃ behind, rest = ' ' :: behind)

theorem eq_append_of_beforeParenthesis {line head : List Char} (h : beforeParenthesis line = some head) :
    ∃ behind, line = head ++ ' ' :: behind := by
  induction line generalizing head with
  | nil => cases h
  | cons c rest ih =>
    rw [beforeParenthesis] at h
    split at h
    · rename_i hpre
      cases h
      obtain ⟨behind, hbehind⟩ := hpre
      exact ⟨'(' :: behind, hbehind.symm⟩
    · obtain ⟨before, hbefore, rfl⟩ := Option.map_eq_some_iff.1 h
      obtain ⟨behind, rfl⟩ := ih hbefore
      exact ⟨behind, rfl⟩

theorem IsClean.head {c : Char} {t : List Char} (h : IsClean (c :: t)) : isWhitespace c = false := by
  by_contra hspace
  rw [Bool.not_eq_false] at hspace
  have hlength := congrArg List.length h.trimmed
  rw [trimWhitespace_eq, List.dropWhile_cons_of_pos hspace] at hlength
  have hle := ((List.rdropWhile_prefix isWhitespace (t.dropWhile isWhitespace)).length_le).trans
    (List.dropWhile_suffix isWhitespace (l := t)).length_le
  rw [hlength, List.length_cons] at hle
  omega

theorem trim_marks {line cutLine : List Char} (hline : IsClean line) (hpre : cutLine <+: line) :
    ∃ tail, cutLine = trimWhitespace (cutLine.rdropWhile isFullStop) ++ tail ∧
      ∀ c ∈ tail, c = '.' ∨ c = ',' ∨ c = ' ' := by
  set kept := cutLine.rdropWhile isFullStop with hkept
  have hkeptPre : kept <+: line := (List.rdropWhile_prefix _ _).trans hpre
  have htrim : trimWhitespace kept = kept.rdropWhile isWhitespace := by
    rw [trimWhitespace_eq]
    cases hk : kept with
    | nil => rfl
    | cons c t =>
      obtain ⟨rest, hrest⟩ := hkeptPre
      rw [hk, List.cons_append] at hrest
      have hc := (hrest.symm ▸ hline : IsClean (c :: (t ++ rest))).head
      rw [List.dropWhile_cons_of_neg (by rw [hc]; decide)]
  refine ⟨kept.rtakeWhile isWhitespace ++ cutLine.rtakeWhile isFullStop, ?_, fun c hc => ?_⟩
  · rw [htrim, ← List.append_assoc, List.rdropWhile_append_rtakeWhile, hkept,
      List.rdropWhile_append_rtakeWhile]
  · rcases List.mem_append.1 hc with hc | hc
    · have hspace := List.mem_rtakeWhile_imp hc
      exact .inr (.inr (hline.spaces c (hkeptPre.mem ((List.rtakeWhile_suffix _ _).mem hc)) hspace))
    · have hmark := List.mem_rtakeWhile_imp hc
      rw [isFullStop, Bool.or_eq_true, beq_iff_eq, beq_iff_eq] at hmark
      rcases hmark with hmark | hmark
      · exact .inl hmark
      · exact .inr (.inl hmark)

/-- **A line that is too long is shortened.** -/
theorem capLine_shortened {line : List Char} (hline : IsClean line) (hlong : maxBriefBulletChars < line.length) :
    Shortened line (capLine line maxBriefBulletChars) ∧
      (capLine line maxBriefBulletChars).length ≤ maxBriefBulletChars ∧
      IsClean (capLine line maxBriefBulletChars) := by
  -- what is proved of a cut
  have hcut (cutLine : List Char) (hpre : cutLine <+: line) (hle : cutLine.length ≤ maxBriefBulletChars)
      (hboundary : ∀ rest, line = cutLine ++ rest → ' ' ∈ line.take maxBriefBulletChars →
        (∃ front, cutLine = front ++ [' ']) ∨ ∃ behind, rest = ' ' :: behind) :
      Shortened line (trimWhitespace (cutLine.rdropWhile isFullStop)) ∧
        (trimWhitespace (cutLine.rdropWhile isFullStop)).length ≤ maxBriefBulletChars ∧
        IsClean (trimWhitespace (cutLine.rdropWhile isFullStop)) := by
    obtain ⟨tail, htail, hmarks⟩ := trim_marks hline hpre
    obtain ⟨rest, hrest⟩ := hpre
    refine ⟨⟨tail, rest, by rw [← htail, hrest], hmarks, ?_⟩, ?_, ?_⟩
    · rw [← htail]
      exact hboundary rest hrest.symm
    · exact (length_trimWhitespace_le _).trans ((List.rdropWhile_prefix _ _).length_le.trans hle)
    · refine isClean_trimWhitespace hline.spaces fun c hc => ?_
      rw [← hrest]
      exact List.mem_append_left _ ((List.rdropWhile_prefix _ _).mem hc)
  unfold capLine
  rw [if_neg (by omega)]
  dsimp only
  cases hfilter : (beforeParenthesis line).filter fun head =>
      !(trimWhitespace head).isEmpty && decide (head.length ≤ maxBriefBulletChars) with
  | some head =>
    obtain ⟨hbefore, hkeep⟩ := Option.filter_eq_some_iff.1 hfilter
    rw [Bool.and_eq_true, decide_eq_true_eq] at hkeep
    rw [Option.getD_some, if_pos hkeep.2]
    refine hcut head (beforeParenthesis_isPrefix hbefore) hkeep.2 fun rest hrest _ => ?_
    obtain ⟨behind, hbehind⟩ := eq_append_of_beforeParenthesis hbefore
    exact .inr ⟨behind, List.append_cancel_left (hrest.symm.trans hbehind)⟩
  | none =>
    rw [Option.getD_none, if_neg (by omega)]
    have htake : (line.take maxBriefBulletChars) <+: line := List.take_prefix _ _
    set out := (line.take maxBriefBulletChars).rdropWhile fun c => !isWhitespace c with hout
    have houtPre : out <+: line.take maxBriefBulletChars := List.rdropWhile_prefix _ _
    have hne (hspace : ' ' ∈ line.take maxBriefBulletChars) : out ≠ [] := fun hnil => by
      have hall := List.rdropWhile_eq_nil_iff.1 hnil ' ' hspace
      revert hall
      decide
    split
    · rename_i hempty
      refine hcut _ htake (List.length_take_le _ _) fun rest hrest hspace => ?_
      -- a line that begins with a word has one before its last space
      obtain ⟨c, t, hct⟩ := List.exists_cons_of_ne_nil (hne hspace)
      obtain ⟨rest', hrest'⟩ := houtPre.trans htake
      rw [hct, List.cons_append] at hrest'
      obtain ⟨t', ht'⟩ := trimWhitespace_cons (hrest'.symm ▸ hline : IsClean (c :: (t ++ rest'))).head t
      rw [hct, ht'] at hempty
      cases hempty
    · refine hcut out (houtPre.trans htake) (houtPre.length_le.trans (List.length_take_le _ _))
        fun rest hrest hspace => .inl ?_
      have hlast := List.rdropWhile_last_not (fun c => !isWhitespace c) _ (hne hspace)
      rw [Bool.not_eq_true, Bool.not_eq_false'] at hlast
      have hmem : out.getLast (hne hspace) ∈ line := (houtPre.trans htake).mem (List.getLast_mem _)
      refine ⟨out.dropLast, ?_⟩
      rw [← hline.spaces _ hmem hlast, List.dropLast_append_getLast]

/-! ### Fences -/

/-- The lines outside of code fences, without the lines that open and close them. -/
def outsideFences (inCodeFence : Bool) : List (List Char) → List (List Char)
  | [] => []
  | rawLine :: rest =>
    if ['`', '`', '`'] <+: trimWhitespace rawLine then outsideFences (!inCodeFence) rest
    else if inCodeFence then outsideFences inCodeFence rest
    else rawLine :: outsideFences inCodeFence rest

theorem not_fence_of_mem_outsideFences {inCodeFence : Bool} {lines : List (List Char)} {line : List Char}
    (h : line ∈ outsideFences inCodeFence lines) : ¬ ['`', '`', '`'] <+: trimWhitespace line := by
  induction lines generalizing inCodeFence with
  | nil => cases h
  | cons rawLine rest ih =>
    rw [outsideFences] at h
    split at h
    · exact ih h
    · rename_i hfence
      split at h
      · exact ih h
      · rcases List.mem_cons.1 h with rfl | h
        · exact hfence
        · exact ih h

section Loop

variable (letters : Letters) (prompt : List Char)

/-- **What stands in code fences makes no difference to the loop.** -/
theorem briefFrom_outside (inCodeFence : Bool) (out lines : List (List Char)) :
    briefFrom letters prompt inCodeFence out lines =
      briefFrom letters prompt false out (outsideFences inCodeFence lines) := by
  induction lines generalizing inCodeFence out with
  | nil => rfl
  | cons rawLine rest ih =>
    by_cases hfence : ['`', '`', '`'] <+: trimWhitespace rawLine
    · rw [briefFrom, outsideFences]
      dsimp only
      rw [if_pos hfence, if_pos hfence, ih]
    · cases inCodeFence with
      | true =>
        rw [briefFrom, outsideFences]
        dsimp only
        rw [if_neg hfence, if_neg hfence, if_pos (by simp), if_pos rfl, ih]
      | false =>
        rw [outsideFences, if_neg hfence, if_neg Bool.false_ne_true, briefFrom, briefFrom]
        dsimp only
        rw [if_neg hfence, if_neg hfence]
        simp only [ih false]

/-- What is known of a statement: it was made of one of the lines. -/
structure IsStatement (lines : List (List Char)) (s : List Char) : Prop where
  nonempty : s ≠ []
  clean : IsClean s
  short : s.length ≤ maxBriefBulletChars
  printable : ∀ c ∈ s, isControl c = false
  origin : ∃ line ∈ lines, ∃ cleaned, cleanBriefLine (trimWhitespace line) = .ok (some cleaned) ∧
    (s = cleaned ∨ Shortened cleaned s)

theorem isStatement_capLine {lines : List (List Char)} {line cleaned : List Char} (hmem : line ∈ lines)
    (hclean : cleanBriefLine (trimWhitespace line) = .ok (some cleaned)) (htidy : IsClean cleaned)
    (hsound : looksMalformedBriefStatement letters cleaned = false)
    (hne : capLine cleaned maxBriefBulletChars ≠ []) :
    IsStatement lines (capLine cleaned maxBriefBulletChars) := by
  have hprintable (c : Char) (hc : c ∈ cleaned) : isControl c = false := by
    have hshort : looksMalformedShortText letters cleaned = false := by
      unfold looksMalformedBriefStatement at hsound
      rw [htidy.trimmed] at hsound
      dsimp only at hsound
      split at hsound
      · cases hsound
      · split at hsound
        · cases hsound
        · rename_i hshort
          exact Bool.eq_false_iff.2 hshort
    rw [looksMalformedShortText, Bool.or_eq_false_iff, Bool.or_eq_false_iff] at hshort
    by_contra hcontrol
    rw [Bool.not_eq_false] at hcontrol
    have htab := List.any_eq_false.1 hshort.1.2 c hc
    rw [hcontrol, Bool.true_and, bne_iff_ne, not_not] at htab
    have hspace := htidy.spaces c hc (by rw [htab]; decide)
    rw [htab] at hspace
    exact absurd hspace (by decide)
  by_cases hlong : cleaned.length ≤ maxBriefBulletChars
  · have hcap : capLine cleaned maxBriefBulletChars = cleaned := by rw [capLine, if_pos hlong]
    rw [hcap] at hne ⊢
    exact ⟨hne, htidy, hlong, hprintable, line, hmem, cleaned, hclean, .inl rfl⟩
  · obtain ⟨hcut, hle, htidy'⟩ := capLine_shortened htidy (by omega)
    refine ⟨hne, htidy', hle, fun c hc => hprintable c ?_, line, hmem, cleaned, hclean, .inr hcut⟩
    obtain ⟨tail, rest, hsplit, -⟩ := hcut
    rw [hsplit, List.append_assoc]
    exact List.mem_append_left _ hc

/-- What is known of the statements found so far. -/
structure IsBrief (lines out : List (List Char)) : Prop where
  atMostTwo : out.length ≤ 2
  distinct : out.Nodup
  statements : ∀ s ∈ out, IsStatement lines s

theorem isBrief_nil (lines : List (List Char)) : IsBrief lines [] :=
  ⟨Nat.zero_le 2, List.nodup_nil, fun _ hs => nomatch hs⟩

theorem isBrief_add {lines out : List (List Char)} {s : List Char} (hout : IsBrief lines out) (hlt : out.length < 2)
    (hs : s ≠ [] → IsStatement lines s) :
    IsBrief lines (if !s.isEmpty && !out.contains s then out ++ [s] else out) := by
  split
  · rename_i hnew
    rw [Bool.and_eq_true, Bool.not_eq_true', Bool.not_eq_true', List.isEmpty_eq_false_iff, ← Bool.not_eq_true,
      List.contains_iff_mem] at hnew
    refine ⟨?_, ?_, fun t ht => ?_⟩
    · rw [List.length_append, List.length_singleton]
      omega
    · exact List.nodup_append.2 ⟨hout.distinct, List.pairwise_singleton _ s, fun t ht u hu htu => hnew.2 (by
        rw [← List.mem_singleton.1 hu, ← htu]
        exact ht)⟩
    · rcases List.mem_append.1 ht with ht | ht
      · exact hout.statements t ht
      · rw [List.mem_singleton.1 ht]
        exact hs hnew.1
  · exact hout

/-- The loop finds a brief.  The induction is on the lines that are left: each of them adds one statement at
most, and the loop is left with the second. -/
theorem briefFrom_spec {lines : List (List Char)} (left out : List (List Char)) (hleft : ∀ line ∈ left, line ∈ lines)
    (hfences : ∀ line ∈ left, ¬ ['`', '`', '`'] <+: trimWhitespace line) (hout : IsBrief lines out)
    (hlt : out.length < 2) : ∃ found, briefFrom letters prompt false out left = .ok found ∧ IsBrief lines found := by
  induction left generalizing out with
  | nil => exact ⟨out, rfl, hout⟩
  | cons rawLine rest ih =>
    have hgo (out : List (List Char)) := ih out (fun line hline => hleft line (List.mem_cons_of_mem _ hline))
      fun line hline => hfences line (List.mem_cons_of_mem _ hline)
    have hskip := hgo out hout hlt
    rw [briefFrom]
    dsimp only
    rw [if_neg (hfences rawLine List.mem_cons_self)]
    split
    · exact hskip
    · obtain ⟨o, hclean, htidy⟩ := cleanBriefLine_ok (trimWhitespace rawLine)
      rw [hclean]
      dsimp only [Outcome.bind]
      cases o with
      | none => exact hskip
      | some cleaned =>
        dsimp only
        by_cases hecho : looksLikePromptEcho cleaned prompt
        · rw [if_pos hecho]
          exact ⟨[], rfl, isBrief_nil lines⟩
        · rw [if_neg hecho]
          by_cases hcode : looksLikeCode cleaned
          · rw [if_pos hcode]
            exact hskip
          · rw [if_neg hcode]
            by_cases hmalformed : looksMalformedBriefStatement letters cleaned
            · rw [if_pos hmalformed]
              exact hskip
            · rw [if_neg hmalformed]
              have hbrief := isBrief_add hout hlt fun hne => isStatement_capLine letters
                (hleft rawLine List.mem_cons_self) hclean (htidy cleaned rfl) (Bool.eq_false_iff.2 hmalformed) hne
              by_cases hlen : (if !(capLine cleaned maxBriefBulletChars).isEmpty &&
                  !out.contains (capLine cleaned maxBriefBulletChars) then
                    out ++ [capLine cleaned maxBriefBulletChars] else out).length = 2
              · rw [if_pos hlen]
                exact ⟨_, rfl, hbrief⟩
              · rw [if_neg hlen]
                exact hgo _ hbrief (lt_of_le_of_ne hbrief.atMostTwo hlen)

end Loop

/-! ### The output -/

/-- A well formed brief: two statements at most, pairwise different, each made of a line outside of code
fences, and nothing in them but what these lines give. -/
structure WellFormedBrief (letters : Letters) (prompt raw : List Char) (out : List (List Char)) : Prop
    extends IsBrief (outsideFences false (Text.lines raw)) out where
  fences : ∀ raw' out', outsideFences false (Text.lines raw') = outsideFences false (Text.lines raw) →
    postprocessBriefOutput letters raw' prompt = .ok out' → out ≠ [] → out' ≠ [] → out' = out

/-- The filter for thinking output aside, the output is what the loop finds outside of code fences. -/
theorem postprocessBriefOutput_eq (letters : Letters) (raw prompt : List Char) :
    postprocessBriefOutput letters raw prompt =
      if looksLikeThinkingOutput raw then .ok []
      else briefFrom letters prompt false [] (outsideFences false (Text.lines raw)) := by
  rw [postprocessBriefOutput, briefFrom_outside]

theorem eq_of_postprocessBriefOutput {letters : Letters} {raw prompt : List Char} {out : List (List Char)}
    (h : postprocessBriefOutput letters raw prompt = .ok out) (hne : out ≠ []) :
    briefFrom letters prompt false [] (outsideFences false (Text.lines raw)) = .ok out := by
  rw [postprocessBriefOutput_eq] at h
  split at h
  · cases h
    exact absurd rfl hne
  · exact h

/-- **The statements of a brief are well formed**, whatever the model answers. -/
theorem postprocessBriefOutput_wellFormed (letters : Letters) (raw prompt : List Char) :
    ∃ out, postprocessBriefOutput letters raw prompt = .ok out ∧ WellFormedBrief letters prompt raw out := by
  obtain ⟨out, hout, hbrief⟩ : ∃ out, postprocessBriefOutput letters raw prompt = .ok out ∧
      IsBrief (outsideFences false (Text.lines raw)) out := by
    rw [postprocessBriefOutput_eq]
    split
    · exact ⟨[], rfl, isBrief_nil _⟩
    · exact briefFrom_spec letters prompt _ [] (fun line hline => hline)
        (fun line hline => not_fence_of_mem_outsideFences hline) (isBrief_nil _) Nat.zero_lt_two
  refine ⟨out, hout, hbrief, fun raw' out' hlines hout' hne hne' => ?_⟩
  have hfound := eq_of_postprocessBriefOutput hout hne
  rw [← hlines, eq_of_postprocessBriefOutput hout' hne'] at hfound
  exact Outcome.ok.inj hfound

end Triage

end Greppy
