/-
**Clipping displayed source text.**

Four helpers of the command line shorten source text before they print it.  `read_source_line` and
`truncate_utf8_bytes` walk back from a byte offset to a boundary between characters, and `clamp_snippet`
counts characters.  `print_textual_call_candidates` truncates its lines at byte 120 wherever that is, and so
panics when a character stands across that offset.
-/

import Greppy.ByteSlices
import Greppy.GraphEdges
import Greppy.LiteralSearch

set_option autoImplicit false

namespace Greppy

/-! ### The helpers -/

/-- `read_source_line`; `readToString` is what reading a file of the root as text gives. -/
def readSourceLine (readToString : String → Option (List Char)) (filePath : String) (line : ℕ) :
    Outcome Empty (Option (List Char)) :=
  if line = 0 then .ok none
  else
    match (readToString filePath).bind fun text => (Text.lines text)[line - 1]? with
    | none => .ok none
    | some found =>
      let raw := trimWhitespace found
      if raw = [] then .ok none
      else if 160 < byteLength raw then do
        let s ← truncate raw (floorBoundary raw 160)
        .ok (some (s ++ ['…']))
      else .ok (some raw)

def snippetWidth : ℕ := 200

def clampSnippet (snippet : List Char) : List Char :=
  let count := snippet.length
  if count ≤ snippetWidth then snippet
  else snippet.take snippetWidth ++ "… (+".toList ++ Nat.toDigits 10 (count - snippetWidth) ++ " chars)".toList

def truncateUtf8Bytes (s : List Char) (maxBytes : ℕ) : Outcome Empty (List Char) :=
  if byteLength s ≤ maxBytes then .ok s
  else do
    let out ← Outcome.unwrap (sliceTo (floorBoundary s (maxBytes - 3)) s)
    .ok (out ++ "...".toList)

/-- What `print_textual_call_candidates` is given and asks: the symbol, its target nodes and the resolved
callers, and what the content search and the scan of the source tree answer (`none` is an error). -/
structure CandidateQuery where
  graph : Graph
  symbol : List Char
  targetIds : List ℕ
  resolved : List Node
  searchCode : Option (List CodeHit)
  rootPath : Option String
  liveGrep : Option (List CodeHit)

namespace CandidateQuery

variable (q : CandidateQuery)

def name : List Char :=
  trimWhitespace (q.symbol.rtakeWhile fun c => !decide (c = '.' ∨ c = ':' ∨ c = '#'))

def defLocs : List (List Char) :=
  q.targetIds.filterMap fun id =>
    (q.graph.getNode id).map fun n => n.filePath.toList ++ ':' :: (toString n.startLine).toList

/-- The hits that are looked through: those of the content search, or else of the source tree. -/
def hits : List CodeHit :=
  match q.searchCode with
  | none => []
  | some [] => if q.rootPath.isSome then (q.liveGrep.getD []).take 80 else []
  | some hits => hits

def definitionWords : List (List Char) :=
  ["fn ".toList, "def ".toList, "function ".toList, "class ".toList, "async def ".toList]

/-- A hit that may be shown: a call, no definition, and in a file without a resolved caller. -/
def isCandidate (h : CodeHit) : Bool :=
  let snippet := trimWhitespace h.snippet
  let isDef := definitionWords.any fun kw => containsText (kw ++ q.name) snippet
  let file := (beforeLast ':' h.location).getD []
  containsText (q.name ++ ['(']) snippet && !(isDef || q.defLocs.contains h.location) &&
    !(q.resolved.map fun n => n.filePath.toList).contains file

def firstsFrom (seen : List (List Char)) : List CodeHit → List CodeHit
  | [] => []
  | h :: rest => if h.location ∈ seen then firstsFrom seen rest else h :: firstsFrom (h.location :: seen) rest

theorem firstsFrom_cons (seen : List (List Char)) (h : CodeHit) (rest : List CodeHit) :
    firstsFrom seen (h :: rest) =
      if h.location ∈ seen then firstsFrom seen rest else h :: firstsFrom (h.location :: seen) rest := rfl

def kept : List CodeHit := if byteLength q.name < 4 then [] else firstsFrom [] (q.hits.filter q.isCandidate)

end CandidateQuery

/-- How `print_textual_call_candidates` cuts a snippet. -/
def cutCandidate (snippet : List Char) : Outcome Empty (List Char) :=
  if 120 < byteLength snippet then do
    let line ← truncate snippet 120
    .ok (line ++ ['…'])
  else .ok snippet

/-- The loop of `print_textual_call_candidates` over the hits still to come. -/
def candidatesFrom (q : CandidateQuery) (seen : List (List Char)) :
    List CodeHit → Outcome Empty (List (List Char × List Char))
  | [] => .ok []
  | h :: rest =>
    if q.isCandidate h = false then candidatesFrom q seen rest
    else if h.location ∈ seen then candidatesFrom q seen rest
    else do
      let line ← cutCandidate (trimWhitespace h.snippet)
      let out ← candidatesFrom q (h.location :: seen) rest
      .ok ((h.location, line) :: out)

theorem candidatesFrom_cons (q : CandidateQuery) (seen : List (List Char)) (h : CodeHit) (rest : List CodeHit) :
    candidatesFrom q seen (h :: rest) =
      if q.isCandidate h = false then candidatesFrom q seen rest
      else if h.location ∈ seen then candidatesFrom q seen rest
      else (do
        let line ← cutCandidate (trimWhitespace h.snippet)
        let out ← candidatesFrom q (h.location :: seen) rest
        .ok ((h.location, line) :: out)) := rfl

/-- The candidates of `print_textual_call_candidates`, with their locations. -/
def textualCandidates (q : CandidateQuery) : Outcome Empty (List (List Char × List Char)) :=
  if byteLength q.name < 4 then .ok [] else candidatesFrom q [] q.hits

/-- `print_textual_call_candidates`: the lines that it prints. -/
def printTextualCallCandidates (q : CandidateQuery) : Outcome Empty (List (List Char)) := do
  let out ← textualCandidates q
  let total := out.length
  let shown := min total 10
  .ok (if total = 0 then [] else
    ("unresolved textual candidates: ".toList ++ Nat.toDigits 10 total) ::
      ((out.take shown).map fun c => "  ".toList ++ c.1 ++ ": ".toList ++ c.2) ++
      if shown < total then ["  … and ".toList ++ Nat.toDigits 10 (total - shown) ++ " more candidates".toList]
      else [])

/-! ### Clipped texts -/

/-- The text itself, or a beginning of it within a limit with a marker behind. -/
def Clipped (within : List Char → Prop) (marker text out : List Char) : Prop :=
  out = text ∨ ∃ front, front <+: text ∧ within front ∧ out = front ++ marker

theorem readSourceLine_clips (readToString : String → Option (List Char)) (filePath : String) (line : ℕ) :
    ∃ result, readSourceLine readToString filePath line = .ok result ∧
      ∀ out, result = some out → ∃ text found, readToString filePath = some text ∧
        (Text.lines text)[line - 1]? = some found ∧
        Clipped (fun front => byteLength front ≤ 160) ['…'] (trimWhitespace found) out := by
  unfold readSourceLine
  split
  · exact ⟨none, rfl, nofun⟩
  split
  · exact ⟨none, rfl, nofun⟩
  · rename_i found hfound
    obtain ⟨text, htext, hline⟩ := Option.bind_eq_some_iff.1 hfound
    dsimp only
    split_ifs with hempty hlong
    · exact ⟨none, rfl, nofun⟩
    · obtain ⟨front, hslice, hpre, hlen⟩ := floorBoundary_spec (trimWhitespace found) 160
      have hcut : truncate (trimWhitespace found) (floorBoundary (trimWhitespace found) 160) = .ok front := by
        obtain ⟨-, hfloor⟩ := sliceTo_eq_some_iff.1 hslice
        exact (truncate_eq_ok_iff (by omega)).2 ⟨hpre, hfloor⟩
      refine ⟨some (front ++ ['…']), by rw [hcut]; rfl, fun out hout => ?_⟩
      cases hout
      exact ⟨text, found, htext, hline, .inr ⟨front, hpre, hlen, rfl⟩⟩
    · refine ⟨some (trimWhitespace found), rfl, fun out hout => ?_⟩
      cases hout
      exact ⟨text, found, htext, hline, .inl rfl⟩

theorem clampSnippet_clips (snippet : List Char) :
    Clipped (fun front => front.length ≤ snippetWidth)
      ("… (+".toList ++ Nat.toDigits 10 (snippet.length - snippetWidth) ++ " chars)".toList)
      snippet (clampSnippet snippet) := by
  unfold clampSnippet
  dsimp only
  split
  · exact .inl rfl
  · refine .inr ⟨snippet.take snippetWidth, List.take_prefix _ _, List.length_take_le _ _, ?_⟩
    rw [List.append_assoc, List.append_assoc, List.append_assoc]

theorem truncateUtf8Bytes_clips (s : List Char) (maxBytes : ℕ) :
    ∃ out, truncateUtf8Bytes s maxBytes = .ok out ∧
      Clipped (fun front => byteLength front ≤ maxBytes) "...".toList s out := by
  unfold truncateUtf8Bytes
  split
  · exact ⟨s, rfl, .inl rfl⟩
  · obtain ⟨front, hslice, hpre, hlen⟩ := floorBoundary_spec s (maxBytes - 3)
    refine ⟨front ++ "...".toList, ?_, .inr ⟨front, hpre, by omega, rfl⟩⟩
    rw [hslice]
    rfl

/-! ### Textual candidates -/

/-- Byte 120 of a longer snippet is not inside a character. -/
def CutsCleanly (snippet : List Char) : Prop := 120 < byteLength snippet → isCharBoundary snippet 120 = true

instance (snippet : List Char) : Decidable (CutsCleanly snippet) := inferInstanceAs (Decidable (_ → _))

theorem cutCandidate_ok {snippet : List Char} (h : CutsCleanly snippet) :
    ∃ line, cutCandidate snippet = .ok line ∧
      Clipped (fun front => byteLength front ≤ 120) ['…'] snippet line := by
  unfold cutCandidate
  split
  · rename_i hlong
    obtain ⟨front, hfront⟩ := Option.isSome_iff_exists.1 (h hlong)
    obtain ⟨hpre, hlen⟩ := sliceTo_eq_some_iff.1 hfront
    refine ⟨front ++ ['…'], ?_, .inr ⟨front, hpre, hlen.le, rfl⟩⟩
    rw [(truncate_eq_ok_iff hlong.le).2 ⟨hpre, hlen⟩]
    rfl
  · exact ⟨snippet, rfl, .inl rfl⟩

theorem cutCandidate_panics {snippet : List Char} (h : ¬CutsCleanly snippet) : cutCandidate snippet = .panic := by
  rw [CutsCleanly, Classical.not_imp, Bool.not_eq_true] at h
  obtain ⟨hlong, hinside⟩ := h
  rw [cutCandidate, if_pos hlong, (truncate_panics_iff hlong.le).2 hinside]
  rfl

def ShownAs (h : CodeHit) (c : List Char × List Char) : Prop :=
  c.1 = h.location ∧ Clipped (fun front => byteLength front ≤ 120) ['…'] (trimWhitespace h.snippet) c.2

section Candidates

variable (q : CandidateQuery)

theorem candidatesFrom_ok (seen : List (List Char)) (hits : List CodeHit)
    (h : ∀ hit ∈ CandidateQuery.firstsFrom seen (hits.filter q.isCandidate), CutsCleanly (trimWhitespace hit.snippet)) :
    ∃ out, candidatesFrom q seen hits = .ok out ∧
      List.Forall₂ ShownAs (CandidateQuery.firstsFrom seen (hits.filter q.isCandidate)) out := by
  induction hits generalizing seen with
  | nil => exact ⟨[], rfl, .nil⟩
  | cons hit rest ih =>
    rw [candidatesFrom_cons]
    cases hcandidate : q.isCandidate hit with
    | false =>
      rw [if_pos rfl]
      rw [List.filter_cons_of_neg (by rw [hcandidate]; decide)] at h ⊢
      exact ih seen h
    | true =>
      rw [if_neg (by decide)]
      rw [List.filter_cons_of_pos hcandidate, CandidateQuery.firstsFrom_cons] at h ⊢
      split
      · rename_i hseen
        rw [if_pos hseen] at h
        exact ih seen h
      · rename_i hnew
        rw [if_neg hnew] at h
        obtain ⟨line, hline, hclipped⟩ := cutCandidate_ok (h hit List.mem_cons_self)
        obtain ⟨out, hout, hshown⟩ := ih _ fun other ho => h other (List.mem_cons_of_mem _ ho)
        exact ⟨(hit.location, line) :: out, by rw [hline, Outcome.bind_ok, hout]; rfl,
          .cons ⟨rfl, hclipped⟩ hshown⟩

theorem candidatesFrom_panics (seen : List (List Char)) (hits : List CodeHit)
    (h : ∃ hit ∈ CandidateQuery.firstsFrom seen (hits.filter q.isCandidate),
      ¬CutsCleanly (trimWhitespace hit.snippet)) : candidatesFrom q seen hits = .panic := by
  induction hits generalizing seen with
  | nil =>
    obtain ⟨hit, hmem, -⟩ := h
    cases hmem
  | cons hit rest ih =>
    rw [candidatesFrom_cons]
    cases hcandidate : q.isCandidate hit with
    | false =>
      rw [List.filter_cons_of_neg (by rw [hcandidate]; decide)] at h
      rw [if_pos rfl]
      exact ih seen h
    | true =>
      rw [List.filter_cons_of_pos hcandidate, CandidateQuery.firstsFrom_cons] at h
      rw [if_neg (by decide)]
      split
      · rename_i hseen
        rw [if_pos hseen] at h
        exact ih seen h
      · rename_i hnew
        rw [if_neg hnew] at h
        by_cases hclean : CutsCleanly (trimWhitespace hit.snippet)
        · obtain ⟨line, hline, -⟩ := cutCandidate_ok hclean
          obtain ⟨other, hother, hinside⟩ := h
          rcases List.mem_cons.1 hother with rfl | hother
          · exact absurd hclean hinside
          · rw [hline, Outcome.bind_ok, ih _ ⟨other, hother, hinside⟩]
            rfl
        · rw [cutCandidate_panics hclean]
          rfl

/-- No panic, and every hit that is kept is shown clipped. -/
def ShowsCandidates : Prop :=
  ∃ out, textualCandidates q = .ok out ∧ printTextualCallCandidates q ≠ .panic ∧ List.Forall₂ ShownAs q.kept out

/-- **The candidates are shown** if and only if all the cuts are clean. -/
theorem showsCandidates_iff : ShowsCandidates q ↔ ∀ h ∈ q.kept, CutsCleanly (trimWhitespace h.snippet) := by
  unfold ShowsCandidates printTextualCallCandidates textualCandidates CandidateQuery.kept
  split
  · exact ⟨fun _ _ hmem => absurd hmem List.not_mem_nil, fun _ => ⟨[], rfl, nofun, .nil⟩⟩
  constructor
  · rintro ⟨out, hout, -, -⟩ hit hmem
    by_contra hinside
    rw [candidatesFrom_panics q [] q.hits ⟨hit, hmem, hinside⟩] at hout
    cases hout
  · intro h
    obtain ⟨out, hout, hshown⟩ := candidatesFrom_ok q [] q.hits h
    exact ⟨out, hout, by rw [hout, Outcome.bind_ok]; exact nofun, hshown⟩

end Candidates

/-! ### All four -/

/-- None of the four helpers panics, and what each returns is clipped. -/
def ClippedSafely (readToString : String → Option (List Char)) (filePath : String) (line : ℕ)
    (snippet text : List Char) (maxBytes : ℕ) (q : CandidateQuery) : Prop :=
  (∃ result, readSourceLine readToString filePath line = .ok result ∧
    ∀ out, result = some out → ∃ text found, readToString filePath = some text ∧
      (Text.lines text)[line - 1]? = some found ∧
      Clipped (fun front => byteLength front ≤ 160) ['…'] (trimWhitespace found) out) ∧
  Clipped (fun front => front.length ≤ snippetWidth)
    ("… (+".toList ++ Nat.toDigits 10 (snippet.length - snippetWidth) ++ " chars)".toList)
    snippet (clampSnippet snippet) ∧
  (∃ out, truncateUtf8Bytes text maxBytes = .ok out ∧
    Clipped (fun front => byteLength front ≤ maxBytes) "...".toList text out) ∧
  ShowsCandidates q

/-- **When the clipping is safe**: when no candidate that is shown has a character across byte 120. -/
theorem clippedSafely_iff (readToString : String → Option (List Char)) (filePath : String) (line : ℕ)
    (snippet text : List Char) (maxBytes : ℕ) (q : CandidateQuery) :
    ClippedSafely readToString filePath line snippet text maxBytes q ↔
      ∀ h ∈ q.kept, CutsCleanly (trimWhitespace h.snippet) := by
  rw [← showsCandidates_iff]
  exact ⟨fun h => h.2.2.2, fun h => ⟨readSourceLine_clips readToString filePath line,
    clampSnippet_clips snippet, truncateUtf8Bytes_clips text maxBytes, h⟩⟩

/-- A call of `load` in a file without a resolved caller; `é` stands at the bytes 119 and 120 of its line. -/
def wideCandidate : CandidateQuery where
  graph := Graph.ofInserts ⟨"p", "2026-06-29T00:00:00Z", "/p"⟩ [] []
  symbol := "load".toList
  targetIds := []
  resolved := []
  searchCode := some [⟨"a.py:7".toList, "load(".toList ++ List.replicate 114 'x' ++ ['é', ')']⟩]
  rootPath := none
  liveGrep := none

/-- Showing it is a panic. -/
theorem wideCandidate_panics :
    printTextualCallCandidates wideCandidate = .panic ∧
      ¬ClippedSafely (fun _ => none) "a.py" 7 [] [] 0 wideCandidate := by
  have hpanic : printTextualCallCandidates wideCandidate = .panic := by decide +kernel
  exact ⟨hpanic, fun h => h.2.2.2.elim fun _ hshows => hshows.2.1 hpanic⟩

end Greppy
