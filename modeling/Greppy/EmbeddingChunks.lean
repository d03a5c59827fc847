/-
**The documents of a definition.**

`embedding_chunks` cuts the lines of a definition into documents whose prompt is within the budget of the
model.  A definition that fits is one document.  Otherwise each document begins with the header, and the
lines behind it are gone through with windows of lines that overlap; a line that does not fit is cut into
segments.  Where the header leaves no room, the whole text is cut, behind as much of the header as leaves
room.

How many tokens a prompt has only the model knows.  Nothing is assumed of it: a longer prompt may have
fewer tokens, and the model may fail.  All searches are binary.  They find something that fits, but not the
longest that does, nor do they need it for the documents to cover the definition.
-/

import Greppy.Bisect
import Greppy.DefinitionSpan
import Greppy.EmbeddingIndex

set_option autoImplicit false

namespace Greppy

/-! ### Texts -/

def joinLines (lines : List (List Char)) : List Char := lines.flatMap fun line => line ++ ['\n']

def chunkText (header : List Char) (body : List (List Char)) : List Char := header ++ joinLines body

/-- The text, with a line feed unless it ends with one. -/
def endLine (text : List Char) : List Char := if text.getLast? = some '\n' then text else text ++ ['\n']

/-- `str::len` up to a boundary: how many characters the shortest beginning has that comes to so many
bytes, or the text, if it does not. -/
def charsOfBytes : List Char → ℕ → ℕ
  | [], _ => 0
  | c :: rest, bytes => if bytes = 0 then 0 else charsOfBytes rest (bytes - c.utf8Size) + 1

theorem charsOfBytes_le (text : List Char) (bytes : ℕ) : charsOfBytes text bytes ≤ text.length := by
  induction text generalizing bytes with
  | nil => exact Nat.le_refl _
  | cons c rest ih =>
    rw [charsOfBytes, List.length_cons]
    split
    · omega
    · exact Nat.succ_le_succ (ih _)

theorem charsOfBytes_pos {text : List Char} {bytes : ℕ} (htext : text ≠ []) (hbytes : 0 < bytes) :
    0 < charsOfBytes text bytes := by
  cases text with
  | nil => exact absurd rfl htext
  | cons c rest =>
    rw [charsOfBytes, if_neg (by omega)]
    omega

/-- A text that does not end within so many bytes has more of them. -/
theorem lt_byteLength_of_charsOfBytes_lt {text : List Char} {bytes : ℕ}
    (h : charsOfBytes text bytes < text.length) : bytes < byteLength text := by
  induction text generalizing bytes with
  | nil => cases h
  | cons c rest ih =>
    have hsize := c.utf8Size_pos
    rw [byteLength_cons]
    rw [charsOfBytes] at h
    split at h
    · omega
    · rw [List.length_cons] at h
      have := ih (Nat.lt_of_succ_lt_succ h)
      omega

/-! ### Searches -/

section Provider

variable (p : CodeEmbeddingProvider) (title : String) (maxTokens : ℕ)

def promptFits (content : List Char) : Except String Bool :=
  (p.documentTokenLen title (String.ofList content)).map fun n => decide (n ≤ maxTokens)

/-- `max_fitting_segment_len` with a window of so many bytes, in characters.  A window that is doubled is
shorter than the text, and so its double is a `usize`. -/
def segmentLenIn (pre text : List Char) (window : ℕ) : Except String (Option ℕ) :=
  let cap := charsOfBytes text window
  match Bisect.halfOpen (fun mid => promptFits p title maxTokens (endLine (pre ++ text.take (mid + 1))))
      0 cap none with
  | .error e => .error e
  | .ok best =>
    let best := best.map (· + 1)
    if best = some cap ∧ cap < text.length then segmentLenIn pre text (window * 2) else .ok best
termination_by byteLength text - window
decreasing_by
  rename_i h
  have hlt : window < byteLength text := lt_byteLength_of_charsOfBytes_lt h.2
  have hpos : window ≠ 0 := by
    rintro rfl
    obtain ⟨k, -, hk⟩ := Option.map_eq_some_iff.1 h.1
    have hzero : charsOfBytes text 0 = 0 := by cases text <;> rfl
    omega
  omega

/-- `max_fitting_segment_len`, in characters. -/
def maxFittingSegmentLen (pre text : List Char) : Except String (Option ℕ) :=
  if text = [] then .ok (some 0)
  else segmentLenIn p title maxTokens pre text (max (usizeSaturatingMul maxTokens 64) 1)

def maxFittingBodyEnd (lines : List (List Char)) (header : List Char) (bodyStartIdx defEndIdx : ℕ) :
    Except String (Option ℕ) :=
  Bisect.closed (fun mid => promptFits p title maxTokens
    (chunkText header (linesBetween lines bodyStartIdx mid))) 0 bodyStartIdx defEndIdx none

def bodyTokenCount (lines : List (List Char)) (header : List Char) (bodyStartIdx bodyEndIdx : ℕ) :
    Except String ℕ := do
  let whole ← p.documentTokenLen title
    (String.ofList (chunkText header (linesBetween lines bodyStartIdx bodyEndIdx)))
  let headerOnly ← p.documentTokenLen title (String.ofList header)
  return whole - headerOnly

/-- `((body_tokens as f64) * 0.15).ceil().max(1.0) as usize`. -/
def overlapTarget (bodyTokens : ℕ) : ℕ := (max (Float.ofNat bodyTokens * 0.15).ceil 1.0).toUInt64.toNat

def overlappedNextBodyIdx (lines : List (List Char)) (header : List Char)
    (bodyStartIdx bodyEndIdx : ℕ) : Except String ℕ :=
  if bodyEndIdx ≤ bodyStartIdx then .ok (bodyEndIdx + 1)
  else do
    let bodyTokens ← bodyTokenCount p title lines header bodyStartIdx bodyEndIdx
    let target := overlapTarget bodyTokens
    let ans ← Bisect.closed (fun mid => (bodyTokenCount p title lines header mid bodyEndIdx).map
      fun overlapTokens => decide (target ≤ overlapTokens)) 0 (bodyStartIdx + 1) bodyEndIdx none
    return ans.getD (bodyEndIdx + 1)

/-- `max_header_prefix_len_for_progress`, in characters. -/
def maxHeaderPrefixLen (header text : List Char) : Except String (Option ℕ) :=
  if header = [] then .ok (some 0)
  else
    Bisect.closed (fun mid => (maxFittingSegmentLen p title maxTokens (header.take mid)
      (text.drop mid)).map fun n => n.any fun n => decide (0 < n)) 1 1 header.length none

/-! ### Documents -/

/-- The loop of `append_oversize_body_line_chunks` and of `split_oversize_text_with_header`: the segments
of a text, each in a document behind `pre`.  `mk` is the document of a number and a segment. -/
def appendSegments (pre : List Char) (mk : ℕ → List Char → EmbeddingChunk) (out : List EmbeddingChunk)
    (text : List Char) : Except String (List EmbeddingChunk) :=
  if _htext : text = [] then .ok out
  else
    match maxFittingSegmentLen p title maxTokens pre text with
    | .error e => .error e
    | .ok none => .ok out
    | .ok (some take) =>
      if 0 < take then
        appendSegments pre mk (out ++ [mk out.length (text.take take)]) (text.drop take)
      else .ok out
termination_by text.length
decreasing_by
  have hpos : text.length ≠ 0 := fun h => _htext (List.length_eq_zero_iff.1 h)
  rw [List.length_drop]
  omega

def appendOversizeBodyLineChunks (out : List EmbeddingChunk) (header line : List Char) (lineIdx : ℕ) :
    Except String (List EmbeddingChunk) :=
  appendSegments p title maxTokens header
    (fun k segment =>
      { chunkIdx := k, startLine := lineIdx + 1, endLine := lineIdx + 1,
        text := String.ofList (header ++ segment ++ ['\n']) }) out line

def splitOversizeTextWithHeader (text header : List Char) (startLine : ℤ) (defEndIdx : ℕ) :
    Except String (List EmbeddingChunk) :=
  match maxHeaderPrefixLen p title maxTokens header text with
  | .error e => .error e
  | .ok none => .ok []
  | .ok (some headerPrefixLen) =>
    let headerPrefix := header.take headerPrefixLen
    appendSegments p title maxTokens headerPrefix
      (fun k segment =>
        { chunkIdx := k, startLine := startLine, endLine := defEndIdx + 1,
          text := String.ofList (endLine (headerPrefix ++ segment)) }) [] (text.drop headerPrefixLen)

theorem le_of_maxFittingBodyEnd {lines : List (List Char)} {header : List Char}
    {bodyStartIdx defEndIdx bodyEndIdx : ℕ}
    (h : maxFittingBodyEnd p title maxTokens lines header bodyStartIdx defEndIdx = .ok (some bodyEndIdx)) :
    bodyStartIdx ≤ bodyEndIdx ∧ bodyEndIdx ≤ defEndIdx := by
  rcases Bisect.closed_spec h (Nat.zero_le _) with ⟨k, hk, hlo, hhi, -⟩ | ⟨hnone, -⟩
  · cases hk
    exact ⟨hlo, hhi⟩
  · cases hnone

/-- The loop of `embedding_chunks`. -/
def bodyWindows (lines : List (List Char)) (header : List Char) (startLine : ℤ) (defEndIdx : ℕ)
    (bodyIdx : ℕ) (out : List EmbeddingChunk) : Except String (List EmbeddingChunk) :=
  if bodyIdx ≤ defEndIdx then
    match _hend : maxFittingBodyEnd p title maxTokens lines header bodyIdx defEndIdx with
    | .error e => .error e
    | .ok none =>
      match appendOversizeBodyLineChunks p title maxTokens out header (lines.getD bodyIdx []) bodyIdx with
      | .error e => .error e
      | .ok out => bodyWindows lines header startLine defEndIdx (bodyIdx + 1) out
    | .ok (some bodyEndIdx) =>
      let chunk : EmbeddingChunk :=
        { chunkIdx := out.length
          startLine := if out.isEmpty then startLine else bodyIdx + 1
          endLine := bodyEndIdx + 1
          text := String.ofList (chunkText header (linesBetween lines bodyIdx bodyEndIdx)) }
      if defEndIdx ≤ bodyEndIdx then .ok (out ++ [chunk])
      else
        match overlappedNextBodyIdx p title lines header bodyIdx bodyEndIdx with
        | .error e => .error e
        | .ok nextIdx =>
          bodyWindows lines header startLine defEndIdx
            (if nextIdx ≤ bodyIdx then bodyEndIdx + 1 else nextIdx) (out ++ [chunk])
  else .ok out
termination_by defEndIdx + 1 - bodyIdx
decreasing_by
  · omega
  · have hle := le_of_maxFittingBodyEnd p title maxTokens _hend
    split <;> omega

end Provider

/-- Whether the header leaves no room: it does not fit, there is nothing behind it, or nothing of the line
behind it fits. -/
def headerLeavesNoRoom (p : CodeEmbeddingProvider) (title : String) (maxTokens : ℕ) (d : DefinitionSpan)
    (header : List Char) : Except String Bool := do
  if !(← promptFits p title maxTokens header) then return true
  if d.defEndIdx < d.headerEndIdx + 1 then return true
  let n ← maxFittingSegmentLen p title maxTokens header (d.lines.getD (d.headerEndIdx + 1) [])
  return !n.any fun n => decide (0 < n)

def DefinitionSpan.header (d : DefinitionSpan) : List Char :=
  joinLines (linesBetween d.lines d.startIdx d.headerEndIdx)

def DefinitionSpan.full (d : DefinitionSpan) : List Char :=
  joinLines (linesBetween d.lines d.startIdx d.defEndIdx)

def embeddingChunks : Chunker := fun source startLine endLine title p maxBytes =>
  match definitionSpan source startLine endLine maxBytes with
  | none => .ok []
  | some d => do
      let maxTokens := max p.maxInputTokens 1
      if ← promptFits p title maxTokens d.full then
        return [{ chunkIdx := 0, startLine := startLine, endLine := d.defEndIdx + 1,
                  text := String.ofList d.full }]
      if ← headerLeavesNoRoom p title maxTokens d d.header then
        splitOversizeTextWithHeader p title maxTokens d.full d.header startLine d.defEndIdx
      else
        bodyWindows p title maxTokens d.lines d.header startLine d.defEndIdx (d.headerEndIdx + 1) []

/-! ### What the searches find -/

section Specs

variable {p : CodeEmbeddingProvider} {title : String} {maxTokens : ℕ}

/-- The content, as the code would complete it, is within the budget. -/
def SegmentFits (p : CodeEmbeddingProvider) (title : String) (maxTokens : ℕ) (content : List Char) : Prop :=
  promptFits p title maxTokens (endLine content) = .ok true

/-- Any one character fits behind some text. -/
def RoomBehind (p : CodeEmbeddingProvider) (title : String) (maxTokens : ℕ) (pre : List Char) : Prop :=
  ∀ c, SegmentFits p title maxTokens (pre ++ [c])

variable {pre text : List Char} {r : Option ℕ} {lines : List (List Char)}

theorem segmentLenIn_spec {window : ℕ} (h : segmentLenIn p title maxTokens pre text window = .ok r)
    (htext : text ≠ []) (hwindow : 0 < window) :
    (∃ k, r = some k ∧ 0 < k ∧ k ≤ text.length ∧ SegmentFits p title maxTokens (pre ++ text.take k)) ∨
      r = none ∧ promptFits p title maxTokens (endLine (pre ++ text.take 1)) = .ok false := by
  fun_induction segmentLenIn p title maxTokens pre text window with
  | case1 window cap e hsearch => cases h
  | case2 window cap best hsearch best' hmore ih => exact ih h (by omega)
  | case3 window cap best hsearch best' hdone =>
    have hr : best.map (· + 1) = r := Except.ok.inj h
    subst hr
    have hcap : cap ≤ text.length := charsOfBytes_le text window
    rcases Bisect.halfOpen_spec hsearch with ⟨k, rfl, -, hlt, hfits⟩ | ⟨rfl, hfirst⟩
    · exact .inl ⟨k + 1, rfl, by omega, by omega, hfits⟩
    · exact .inr ⟨rfl, hfirst (charsOfBytes_pos htext hwindow)⟩

/-- **A segment that is found fits**; when none is found, the first character does not fit. -/
theorem maxFittingSegmentLen_spec (h : maxFittingSegmentLen p title maxTokens pre text = .ok r)
    (htext : text ≠ []) :
    (∃ k, r = some k ∧ 0 < k ∧ k ≤ text.length ∧ SegmentFits p title maxTokens (pre ++ text.take k)) ∨
      r = none ∧ promptFits p title maxTokens (endLine (pre ++ text.take 1)) = .ok false := by
  rw [maxFittingSegmentLen, if_neg htext] at h
  exact segmentLenIn_spec h htext (by omega)

theorem maxFittingSegmentLen_of_room (h : maxFittingSegmentLen p title maxTokens pre text = .ok r)
    (htext : text ≠ []) (hroom : RoomBehind p title maxTokens pre) : ∃ k, r = some k ∧ 0 < k := by
  rcases maxFittingSegmentLen_spec h htext with ⟨k, hk, hpos, -⟩ | ⟨-, hfirst⟩
  · exact ⟨k, hk, hpos⟩
  · obtain ⟨c, rest, rfl⟩ := List.exists_cons_of_ne_nil htext
    have hfits := hroom c
    rw [SegmentFits] at hfits
    rw [List.take_one, List.head?_cons, Option.toList_some, hfits] at hfirst
    cases hfirst

variable {bodyStartIdx defEndIdx bodyEndIdx : ℕ} {out out' : List EmbeddingChunk}

theorem promptFits_of_maxFittingBodyEnd {header : List Char}
    (h : maxFittingBodyEnd p title maxTokens lines header bodyStartIdx defEndIdx = .ok (some bodyEndIdx)) :
    promptFits p title maxTokens (chunkText header (linesBetween lines bodyStartIdx bodyEndIdx)) =
      .ok true := by
  rcases Bisect.closed_spec h (Nat.zero_le _) with ⟨k, hk, -, -, hfits⟩ | ⟨hnone, -⟩
  · cases hk
    exact hfits
  · cases hnone

/-- The next window of lines begins behind the beginning of the last one, and leaves out no line. -/
theorem overlappedNextBodyIdx_le {header : List Char} {next : ℕ}
    (h : overlappedNextBodyIdx p title lines header bodyStartIdx bodyEndIdx = .ok next) :
    next ≤ bodyEndIdx + 1 := by
  rw [overlappedNextBodyIdx] at h
  split at h
  · cases h
    exact Nat.le_refl _
  · cases hbody : bodyTokenCount p title lines header bodyStartIdx bodyEndIdx with
    | error e =>
      rw [hbody] at h
      cases h
    | ok bodyTokens =>
      simp only [hbody, bind, Except.bind] at h
      split at h
      · cases h
      · rename_i ans hans
        cases h
        rcases Bisect.closed_spec hans (Nat.zero_le _) with ⟨k, rfl, -, hhi, -⟩ | ⟨rfl, -⟩
        · exact Nat.le_succ_of_le hhi
        · exact Nat.le_refl _

/-! ### The rules of the loops -/

/-- The rule of the loop over the segments of a text: `P` tells of the documents so far and of the text
that is left.  Where there is room behind `pre`, nothing is left in the end. -/
theorem appendSegments_rule {mk : ℕ → List Char → EmbeddingChunk}
    {P : List EmbeddingChunk → List Char → Prop}
    (hstep : ∀ out text k, P out text → 0 < k → k ≤ text.length →
      SegmentFits p title maxTokens (pre ++ text.take k) →
      P (out ++ [mk out.length (text.take k)]) (text.drop k))
    (h : appendSegments p title maxTokens pre mk out text = .ok out') (hP : P out text) :
    ∃ rest, P out' rest ∧ (RoomBehind p title maxTokens pre → rest = []) := by
  fun_induction appendSegments p title maxTokens pre mk out text with
  | case1 out =>
    cases h
    exact ⟨[], hP, fun _ => rfl⟩
  | case2 out text htext e hsearch => cases h
  | case3 out text htext hsearch =>
    cases h
    refine ⟨text, hP, fun hroom => ?_⟩
    obtain ⟨k, hk, -⟩ := maxFittingSegmentLen_of_room hsearch htext hroom
    cases hk
  | case4 out text htext take hsearch hpos ih =>
    rcases maxFittingSegmentLen_spec hsearch htext with ⟨k, hk, -, hle, hfits⟩ | ⟨hnone, -⟩
    · cases hk
      exact ih h (hstep out text take hP hpos hle hfits)
    · cases hnone
  | case5 out text htext take hsearch hzero =>
    cases h
    refine ⟨text, hP, fun hroom => ?_⟩
    obtain ⟨k, hk, hpos⟩ := maxFittingSegmentLen_of_room hsearch htext hroom
    cases hk
    exact absurd hpos hzero

/-- The rule of the loop over the body: `P` tells of the line that is next and of the documents so far. -/
theorem bodyWindows_rule {header : List Char} {startLine : ℤ} {P : ℕ → List EmbeddingChunk → Prop}
    (hwindow : ∀ bodyIdx out bodyEndIdx next c, P bodyIdx out → bodyIdx ≤ bodyEndIdx →
      bodyEndIdx ≤ defEndIdx → c.chunkIdx = (out.length : ℤ) →
      c.text = String.ofList (chunkText header (linesBetween lines bodyIdx bodyEndIdx)) →
      promptFits p title maxTokens (chunkText header (linesBetween lines bodyIdx bodyEndIdx)) = .ok true →
      bodyIdx < next → next ≤ bodyEndIdx + 1 → P next (out ++ [c]))
    (hline : ∀ bodyIdx out out', P bodyIdx out → bodyIdx ≤ defEndIdx →
      promptFits p title maxTokens (chunkText header (linesBetween lines bodyIdx bodyIdx)) = .ok false →
      appendOversizeBodyLineChunks p title maxTokens out header (lines.getD bodyIdx []) bodyIdx = .ok out' →
      P (bodyIdx + 1) out') {bodyIdx : ℕ} (hle : bodyIdx ≤ defEndIdx + 1)
    (h : bodyWindows p title maxTokens lines header startLine defEndIdx bodyIdx out = .ok out')
    (hP : P bodyIdx out) : P (defEndIdx + 1) out' := by
  fun_induction bodyWindows p title maxTokens lines header startLine defEndIdx bodyIdx out with
  | case1 => cases h
  | case2 => cases h
  | case3 bodyIdx out hin hnone out₁ hsegments ih =>
    refine ih (by omega) h (hline bodyIdx out out₁ hP hin ?_ hsegments)
    rcases Bisect.closed_spec hnone (Nat.zero_le _) with ⟨k, hk, -⟩ | ⟨-, hfirst⟩
    · cases hk
    · exact hfirst hin
  | case4 bodyIdx out hin bodyEndIdx hend chunk hlast =>
    cases h
    obtain ⟨hlo, hhi⟩ := le_of_maxFittingBodyEnd p title maxTokens hend
    have hlast : bodyEndIdx = defEndIdx := by omega
    subst hlast
    exact hwindow bodyIdx out bodyEndIdx (bodyEndIdx + 1) chunk hP hlo hhi rfl rfl
      (promptFits_of_maxFittingBodyEnd hend) (by omega) (Nat.le_refl _)
  | case5 => cases h
  | case6 bodyIdx out hin bodyEndIdx hend chunk hnot next hnext ih =>
    obtain ⟨hlo, hhi⟩ := le_of_maxFittingBodyEnd p title maxTokens hend
    have hnextLe := overlappedNextBodyIdx_le hnext
    refine ih (by split <;> omega) h (hwindow bodyIdx out bodyEndIdx _ chunk hP hlo hhi rfl rfl
      (promptFits_of_maxFittingBodyEnd hend) ?_ ?_)
    · split <;> omega
    · split <;> omega
  | case7 bodyIdx out hout =>
    cases h
    have hend : bodyIdx = defEndIdx + 1 := by omega
    rw [← hend]
    exact hP

end Specs

end Greppy
