/-
**The documents of a definition cover it.**

Each document shows its header and, behind it, a window of the rest of the definition.  Where there is room
for one more character behind the header, and behind every beginning of it, the windows are in order and
leave nothing out: a window begins right where the part that is covered ends, or before, but behind the
beginning of the last window.

A line feed belongs to the line that it ends.  The last segment of a line that was cut shows it, since a
document that does not end with a line feed is given one.
-/

import Greppy.Coverage
import Greppy.EmbeddingChunks

set_option autoImplicit false

namespace Greppy

variable {p : CodeEmbeddingProvider} {title : String} {maxTokens : ℕ}

/-! ### The documents are found -/

/-- The model counts the tokens of every prompt with the title. -/
def CountsTokens (p : CodeEmbeddingProvider) (title : String) : Prop :=
  ∀ content, ∃ n, p.documentTokenLen title content = .ok n

section Total

variable (maxTokens) (hp : CountsTokens p title)
include hp

theorem promptFits_ok (content : List Char) : ∃ b, promptFits p title maxTokens content = .ok b := by
  obtain ⟨n, hn⟩ := hp (String.ofList content)
  exact ⟨decide (n ≤ maxTokens), by rw [promptFits, hn]; rfl⟩

theorem maxFittingSegmentLen_ok (pre text : List Char) :
    ∃ r, maxFittingSegmentLen p title maxTokens pre text = .ok r := by
  rw [maxFittingSegmentLen]
  split
  · exact ⟨some 0, rfl⟩
  generalize max (usizeSaturatingMul maxTokens 64) 1 = window
  fun_induction segmentLenIn p title maxTokens pre text window with
  | case1 window cap e hsearch =>
    obtain ⟨r, hr⟩ : ∃ r, Bisect.halfOpen (fun mid =>
        promptFits p title maxTokens (endLine (pre ++ text.take (mid + 1)))) 0 cap none = .ok r :=
      Bisect.halfOpen_ok fun mid => promptFits_ok maxTokens hp _
    rw [hr] at hsearch
    cases hsearch
  | case2 window cap best hsearch best' hmore ih => exact ih
  | case3 window cap best hsearch best' hdone => exact ⟨_, rfl⟩

theorem maxFittingBodyEnd_ok (lines : List (List Char)) (header : List Char) (bodyStartIdx defEndIdx : ℕ) :
    ∃ r, maxFittingBodyEnd p title maxTokens lines header bodyStartIdx defEndIdx = .ok r :=
  Bisect.closed_ok fun _ => promptFits_ok maxTokens hp _

theorem bodyTokenCount_ok (lines : List (List Char)) (header : List Char) (bodyStartIdx bodyEndIdx : ℕ) :
    ∃ n, bodyTokenCount p title lines header bodyStartIdx bodyEndIdx = .ok n := by
  obtain ⟨whole, hwhole⟩ :=
    hp (String.ofList (chunkText header (linesBetween lines bodyStartIdx bodyEndIdx)))
  obtain ⟨headerOnly, hheader⟩ := hp (String.ofList header)
  exact ⟨whole - headerOnly, by rw [bodyTokenCount, hwhole, hheader]; rfl⟩

theorem overlappedNextBodyIdx_ok (lines : List (List Char)) (header : List Char)
    (bodyStartIdx bodyEndIdx : ℕ) :
    ∃ next, overlappedNextBodyIdx p title lines header bodyStartIdx bodyEndIdx = .ok next := by
  rw [overlappedNextBodyIdx]
  split
  · exact ⟨bodyEndIdx + 1, rfl⟩
  · obtain ⟨bodyTokens, hbody⟩ := bodyTokenCount_ok hp lines header bodyStartIdx bodyEndIdx
    obtain ⟨ans, hans⟩ : ∃ ans, Bisect.closed (fun mid =>
        (bodyTokenCount p title lines header mid bodyEndIdx).map fun overlapTokens =>
          decide (overlapTarget bodyTokens ≤ overlapTokens)) 0 (bodyStartIdx + 1) bodyEndIdx none =
        .ok ans := by
      refine Bisect.closed_ok fun mid => ?_
      obtain ⟨n, hn⟩ := bodyTokenCount_ok hp lines header mid bodyEndIdx
      exact ⟨_, by rw [hn]; rfl⟩
    exact ⟨ans.getD (bodyEndIdx + 1), by simp only [hbody, bind, Except.bind, hans]; rfl⟩

theorem maxHeaderPrefixLen_ok (header text : List Char) :
    ∃ r, maxHeaderPrefixLen p title maxTokens header text = .ok r := by
  rw [maxHeaderPrefixLen]
  split
  · exact ⟨some 0, rfl⟩
  · refine Bisect.closed_ok fun mid => ?_
    obtain ⟨r, hr⟩ := maxFittingSegmentLen_ok maxTokens hp (header.take mid) (text.drop mid)
    exact ⟨_, by rw [hr]; rfl⟩

theorem appendSegments_ok (pre : List Char) (mk : ℕ → List Char → EmbeddingChunk)
    (out : List EmbeddingChunk) (text : List Char) :
    ∃ out', appendSegments p title maxTokens pre mk out text = .ok out' := by
  fun_induction appendSegments p title maxTokens pre mk out text with
  | case1 out => exact ⟨out, rfl⟩
  | case2 out text htext e hsearch =>
    obtain ⟨r, hr⟩ := maxFittingSegmentLen_ok maxTokens hp pre text
    rw [hr] at hsearch
    cases hsearch
  | case3 out text htext hsearch => exact ⟨out, rfl⟩
  | case4 out text htext take hsearch hpos ih => exact ih
  | case5 out text htext take hsearch hzero => exact ⟨out, rfl⟩

theorem bodyWindows_ok (lines : List (List Char)) (header : List Char) (startLine : ℤ)
    (defEndIdx bodyIdx : ℕ) (out : List EmbeddingChunk) :
    ∃ out', bodyWindows p title maxTokens lines header startLine defEndIdx bodyIdx out = .ok out' := by
  fun_induction bodyWindows p title maxTokens lines header startLine defEndIdx bodyIdx out with
  | case1 bodyIdx out hin e hend =>
    obtain ⟨r, hr⟩ := maxFittingBodyEnd_ok maxTokens hp lines header bodyIdx defEndIdx
    rw [hr] at hend
    cases hend
  | case2 bodyIdx out hin hnone e hsegments =>
    obtain ⟨r, hr⟩ := appendSegments_ok maxTokens hp header
      (fun k segment =>
        { chunkIdx := k, startLine := bodyIdx + 1, endLine := bodyIdx + 1,
          text := String.ofList (header ++ segment ++ ['\n']) }) out (lines.getD bodyIdx [])
    rw [appendOversizeBodyLineChunks, hr] at hsegments
    cases hsegments
  | case3 bodyIdx out hin hnone out₁ hsegments ih => exact ih
  | case4 bodyIdx out hin bodyEndIdx hend chunk hlast => exact ⟨_, rfl⟩
  | case5 bodyIdx out hin bodyEndIdx hend hnot e hnext =>
    obtain ⟨r, hr⟩ := overlappedNextBodyIdx_ok hp lines header bodyIdx bodyEndIdx
    rw [hr] at hnext
    cases hnext
  | case6 bodyIdx out hin bodyEndIdx hend chunk hnot next hnext ih => exact ih
  | case7 bodyIdx out hout => exact ⟨out, rfl⟩

theorem headerLeavesNoRoom_ok (d : DefinitionSpan) (header : List Char) :
    ∃ b, headerLeavesNoRoom p title maxTokens d header = .ok b := by
  obtain ⟨fits, hfits⟩ := promptFits_ok maxTokens hp header
  obtain ⟨r, hr⟩ := maxFittingSegmentLen_ok maxTokens hp header
    (d.lines.getD (d.headerEndIdx + 1) [])
  rw [headerLeavesNoRoom]
  simp only [hfits, hr, bind, Except.bind]
  cases fits with
  | false => exact ⟨true, rfl⟩
  | true =>
    by_cases hbody : d.defEndIdx < d.headerEndIdx + 1
    · exact ⟨true, by simp only [Bool.not_true, Bool.false_eq_true, if_false, if_pos hbody]; rfl⟩
    · exact ⟨_, by simp only [Bool.not_true, Bool.false_eq_true, if_false, if_neg hbody]; rfl⟩

end Total

/-! ### The paths -/

variable {startLine : ℤ} {chunks : List EmbeddingChunk} {header : List Char}

/-- What `embedding_chunks` does with a span. -/
theorem embeddingChunks_cases {source : String} {endLine : ℤ} {maxBytes : ℕ}
    (h : embeddingChunks source startLine endLine title p maxBytes = .ok chunks)
    {d : DefinitionSpan} (hd : definitionSpan source startLine endLine maxBytes = some d) :
    promptFits p title (max p.maxInputTokens 1) d.full = .ok true ∧
        chunks = [⟨0, startLine, d.defEndIdx + 1, String.ofList d.full⟩] ∨
      promptFits p title (max p.maxInputTokens 1) d.full = .ok false ∧
        splitOversizeTextWithHeader p title (max p.maxInputTokens 1) d.full d.header startLine
          d.defEndIdx = .ok chunks ∨
      promptFits p title (max p.maxInputTokens 1) d.full = .ok false ∧
        bodyWindows p title (max p.maxInputTokens 1) d.lines d.header startLine d.defEndIdx
          (d.headerEndIdx + 1) [] = .ok chunks := by
  rw [embeddingChunks, hd] at h
  dsimp only at h
  cases hfull : promptFits p title (max p.maxInputTokens 1) d.full with
  | error e =>
    rw [hfull] at h
    cases h
  | ok fits =>
    simp only [hfull, bind, Except.bind] at h
    cases fits with
    | true =>
      cases h
      exact .inl ⟨rfl, rfl⟩
    | false =>
      simp only [Bool.false_eq_true, if_false] at h
      obtain ⟨noRoom, hroom, h⟩ := Except.bind_eq_ok_iff.1 h
      cases noRoom with
      | true => exact .inr (.inl ⟨rfl, h⟩)
      | false => exact .inr (.inr ⟨rfl, h⟩)

theorem embeddingChunks_ok (hp : CountsTokens p title) (source : String) (startLine endLine : ℤ)
    (maxBytes : ℕ) : ∃ chunks, embeddingChunks source startLine endLine title p maxBytes = .ok chunks := by
  rw [embeddingChunks]
  cases definitionSpan source startLine endLine maxBytes with
  | none => exact ⟨[], rfl⟩
  | some d =>
    obtain ⟨fits, hfits⟩ := promptFits_ok (max p.maxInputTokens 1) hp d.full
    obtain ⟨noRoom, hroom⟩ := headerLeavesNoRoom_ok (max p.maxInputTokens 1) hp d d.header
    simp only [hfits, hroom, bind, Except.bind]
    cases fits with
    | true => exact ⟨_, rfl⟩
    | false =>
      cases noRoom with
      | false => exact bodyWindows_ok _ hp ..
      | true =>
        obtain ⟨r, hr⟩ := maxHeaderPrefixLen_ok (max p.maxInputTokens 1) hp d.header d.full
        simp only [Bool.false_eq_true, if_false, if_true, splitOversizeTextWithHeader, hr]
        cases r with
        | none => exact ⟨[], rfl⟩
        | some k => exact appendSegments_ok _ hp ..

/-! ### Numbers and budget -/

/-- The documents are numbered in order, and their prompts are within the budget. -/
structure Numbered (p : CodeEmbeddingProvider) (title : String) (maxTokens : ℕ)
    (chunks : List EmbeddingChunk) : Prop where
  chunkIdx : chunks.map (·.chunkIdx) = (List.range chunks.length).map fun k : ℕ => (k : ℤ)
  fits : ∀ c ∈ chunks, promptFits p title maxTokens c.text.toList = .ok true

theorem le_of_promptFits {text : String} (h : promptFits p title maxTokens text.toList = .ok true) :
    ∃ n ≤ maxTokens, p.documentTokenLen title text = .ok n := by
  rw [promptFits, String.ofList_toList] at h
  cases hlen : p.documentTokenLen title text with
  | error e =>
    rw [hlen] at h
    cases h
  | ok n =>
    rw [hlen] at h
    exact ⟨n, of_decide_eq_true (Except.ok.inj h), rfl⟩

theorem Numbered.nil : Numbered p title maxTokens [] := ⟨rfl, by simp⟩

theorem Numbered.snoc {chunks : List EmbeddingChunk} (h : Numbered p title maxTokens chunks)
    {c : EmbeddingChunk} (hidx : c.chunkIdx = (chunks.length : ℤ)) {content : List Char}
    (htext : c.text = String.ofList content) (hfits : promptFits p title maxTokens content = .ok true) :
    Numbered p title maxTokens (chunks ++ [c]) where
  chunkIdx := by
    rw [List.map_append, h.chunkIdx, List.length_append, List.length_singleton, List.range_succ,
      List.map_append, List.map_singleton, List.map_singleton, hidx]
  fits := by
    intro c' hc'
    rcases List.mem_append.1 hc' with hc' | hc'
    · exact h.fits c' hc'
    · rw [List.mem_singleton.1 hc', htext, String.toList_ofList]
      exact hfits

/-- The segments of a line of text have no line feed, and so are given one. -/
theorem endLine_append_segment {segment : List Char} (hne : segment ≠ [])
    (hsegment : '\n' ∉ segment) : endLine (header ++ segment) = header ++ segment ++ ['\n'] := by
  rw [endLine, if_neg]
  intro hlast
  rw [List.getLast?_append_of_ne_nil _ hne] at hlast
  exact hsegment (List.mem_of_getLast? hlast)

theorem numbered_appendOversizeBodyLineChunks {line : List Char} {lineIdx : ℕ}
    {out out' : List EmbeddingChunk} (hline : '\n' ∉ line)
    (h : appendOversizeBodyLineChunks p title maxTokens out header line lineIdx = .ok out')
    (hout : Numbered p title maxTokens out) : Numbered p title maxTokens out' := by
  obtain ⟨rest, ⟨hnumbered, -⟩, -⟩ := appendSegments_rule
    (P := fun out text => Numbered p title maxTokens out ∧ '\n' ∉ text)
    (fun out text k hP hpos hle hfits => by
      have hsegment : '\n' ∉ text.take k := fun hmem => hP.2 (List.mem_of_mem_take hmem)
      have hne : text.take k ≠ [] := List.ne_nil_of_length_pos (by rw [List.length_take]; omega)
      rw [SegmentFits, endLine_append_segment hne hsegment] at hfits
      exact ⟨hP.1.snoc rfl rfl hfits, fun hmem => hP.2 (List.mem_of_mem_drop hmem)⟩)
    h ⟨hout, hline⟩
  exact hnumbered

theorem numbered_splitOversizeTextWithHeader {text : List Char} {defEndIdx : ℕ}
    (h : splitOversizeTextWithHeader p title maxTokens text header startLine defEndIdx = .ok chunks) :
    Numbered p title maxTokens chunks := by
  rw [splitOversizeTextWithHeader] at h
  split at h
  · cases h
  · cases h
    exact .nil
  · obtain ⟨rest, hnumbered, -⟩ := appendSegments_rule
      (P := fun out _ => Numbered p title maxTokens out)
      (fun out text k hP hpos hle hfits => hP.snoc rfl rfl hfits) h .nil
    exact hnumbered

theorem numbered_bodyWindows {lines : List (List Char)} {defEndIdx bodyIdx : ℕ}
    (hlines : ∀ line ∈ lines, '\n' ∉ line) (hle : bodyIdx ≤ defEndIdx + 1)
    (h : bodyWindows p title maxTokens lines header startLine defEndIdx bodyIdx [] = .ok chunks) :
    Numbered p title maxTokens chunks := by
  refine bodyWindows_rule (P := fun _ out => Numbered p title maxTokens out) ?_ ?_ hle h .nil
  · intro bodyIdx out bodyEndIdx next c hout hlo hhi hidx htext hfits hnext hnextLe
    exact hout.snoc hidx htext hfits
  · intro bodyIdx out out' hout hin hfits hsegments
    refine numbered_appendOversizeBodyLineChunks ?_ hsegments hout
    rw [List.getD_eq_getElem?_getD]
    cases hget : lines[bodyIdx]? with
    | none => simp
    | some line => exact hlines line (List.mem_of_getElem? hget)

/-- **The documents are numbered and within the budget.** -/
theorem numbered_embeddingChunks {source : String} {endLine : ℤ} {maxBytes : ℕ}
    (h : embeddingChunks source startLine endLine title p maxBytes = .ok chunks) :
    Numbered p title (max p.maxInputTokens 1) chunks := by
  cases hd : definitionSpan source startLine endLine maxBytes with
  | none =>
    rw [embeddingChunks, hd] at h
    cases h
    exact .nil
  | some d =>
    obtain ⟨hlines, -, hbody, -⟩ := definitionSpan_spec hd
    rcases embeddingChunks_cases h hd with ⟨hfits, rfl⟩ | ⟨-, hsplit⟩ | ⟨-, hwindows⟩
    · exact Numbered.snoc .nil rfl rfl hfits
    · exact numbered_splitOversizeTextWithHeader hsplit
    · refine numbered_bodyWindows (fun line hline => ?_) (by omega) hwindows
      rw [hlines] at hline
      exact Text.newline_not_mem hline

/-! ### The rest of a definition -/

theorem joinLines_append (a b : List (List Char)) : joinLines (a ++ b) = joinLines a ++ joinLines b :=
  List.flatMap_append

theorem length_le_joinLines (lines : List (List Char)) : lines.length ≤ (joinLines lines).length := by
  induction lines with
  | nil => exact Nat.le_refl _
  | cons line rest ih =>
    have hcons : joinLines (line :: rest) = line ++ ['\n'] ++ joinLines rest := rfl
    rw [hcons, List.length_append, List.length_append, List.length_singleton, List.length_cons]
    omega

theorem joinLines_eq_append_newline {lines : List (List Char)} (h : lines ≠ []) :
    ∃ beg, joinLines lines = beg ++ ['\n'] := by
  obtain ⟨init, last, rfl⟩ := (List.eq_nil_or_concat' lines).resolve_left h
  refine ⟨joinLines init ++ last, ?_⟩
  rw [joinLines_append, List.append_assoc]
  exact congrArg (joinLines init ++ ·) (List.flatMap_singleton ..)

theorem take_drop_append {α : Type} (l : List α) {a b c : ℕ} (hab : a ≤ b) (hbc : b ≤ c) :
    (l.take b).drop a ++ (l.take c).drop b = (l.take c).drop a := by
  have htake : l.take b = (l.take c).take b := by rw [List.take_take, Nat.min_eq_left hbc]
  have hdrop : (l.take c).drop b = ((l.take c).drop a).drop (b - a) := by
    rw [List.drop_drop, Nat.add_sub_cancel' hab]
  rw [htake, hdrop, List.drop_take, List.take_append_drop]

namespace DefinitionSpan

/-- The text of a definition behind its header. -/
def rest (d : DefinitionSpan) : List Char := joinLines (linesBetween d.lines (d.headerEndIdx + 1) d.defEndIdx)

/-- How much of it lies before a line. -/
def offset (d : DefinitionSpan) (i : ℕ) : ℕ :=
  (joinLines ((d.lines.take i).drop (d.headerEndIdx + 1))).length

/-- The lines are lines, and the header is at their beginning. -/
structure Valid (d : DefinitionSpan) : Prop where
  oneLine : ∀ line ∈ d.lines, '\n' ∉ line
  start_le : d.startIdx ≤ d.headerEndIdx
  header_le : d.headerEndIdx ≤ d.defEndIdx
  end_lt : d.defEndIdx < d.lines.length

variable {d : DefinitionSpan}

theorem Valid.full_eq (hd : d.Valid) : d.full = d.header ++ d.rest := by
  rw [full, header, rest, ← joinLines_append, linesBetween, linesBetween, linesBetween, take_drop_append]
  · exact Nat.le_succ_of_le hd.start_le
  · exact Nat.succ_le_succ hd.header_le

theorem Valid.headerLines_ne_nil (hd : d.Valid) : linesBetween d.lines d.startIdx d.headerEndIdx ≠ [] := by
  have hlt : d.headerEndIdx < d.lines.length := Nat.lt_of_le_of_lt hd.header_le hd.end_lt
  have hstart := hd.start_le
  refine List.ne_nil_of_length_pos ?_
  rw [length_linesBetween hlt]
  omega

theorem Valid.header_eq (hd : d.Valid) : ∃ beg, d.header = beg ++ ['\n'] :=
  joinLines_eq_append_newline hd.headerLines_ne_nil

variable {i j : ℕ} {chunks : List EmbeddingChunk} {startLine : ℤ}

theorem offset_add (d : DefinitionSpan) (hi : d.headerEndIdx < i) (hij : i ≤ j) :
    d.offset j = d.offset i + (joinLines ((d.lines.take j).drop i)).length := by
  rw [offset, offset, ← List.length_append, ← joinLines_append, take_drop_append _ hi hij]

theorem offset_le (d : DefinitionSpan) (hi : d.headerEndIdx < i) (hij : i ≤ j) :
    d.offset i ≤ d.offset j := by
  rw [d.offset_add hi hij]
  exact Nat.le_add_right _ _

theorem Valid.offset_lt (hd : d.Valid) (hi : d.headerEndIdx < i) (hij : i < j)
    (hj : j ≤ d.defEndIdx + 1) : d.offset i < d.offset j := by
  have hlt := hd.end_lt
  have hlines := length_le_joinLines ((d.lines.take j).drop i)
  rw [List.length_drop, List.length_take] at hlines
  rw [d.offset_add hi (Nat.le_of_lt hij)]
  omega

theorem take_drop_line {lines : List (List Char)} (hi : i < lines.length) :
    (lines.take (i + 1)).drop i = [lines[i]] := by
  rw [List.drop_take, Nat.add_sub_cancel_left, List.drop_eq_getElem_cons hi]
  rfl

theorem offset_end (d : DefinitionSpan) : d.offset (d.defEndIdx + 1) = d.rest.length := rfl

theorem offset_start (d : DefinitionSpan) : d.offset (d.headerEndIdx + 1) = 0 := by
  have hnil : (d.lines.take (d.headerEndIdx + 1)).drop (d.headerEndIdx + 1) = [] :=
    List.drop_eq_nil_of_le (List.length_take_le _ _)
  rw [offset, hnil]
  rfl

theorem rest_eq (d : DefinitionSpan) (hi : d.headerEndIdx < i) (hij : i ≤ j)
    (hj : j ≤ d.defEndIdx + 1) :
    d.rest = joinLines ((d.lines.take i).drop (d.headerEndIdx + 1)) ++
      (joinLines ((d.lines.take j).drop i) ++ joinLines ((d.lines.take (d.defEndIdx + 1)).drop j)) := by
  rw [← joinLines_append, take_drop_append _ hij hj, ← joinLines_append,
    take_drop_append _ hi (Nat.le_trans hij hj), rest, linesBetween]

theorem window_rest (d : DefinitionSpan) (hi : d.headerEndIdx < i) (hij : i ≤ j)
    (hj : j ≤ d.defEndIdx + 1) :
    Coverage.window d.rest (d.offset i, d.offset j) = joinLines ((d.lines.take j).drop i) := by
  rw [d.rest_eq hi hij hj, d.offset_add hi hij, offset, Coverage.window_middle]

/-! ### What the documents show -/

/-- The text of a document with a window of the rest. -/
def shownText (d : DefinitionSpan) (w : ℕ × ℕ) : String :=
  String.ofList (endLine (d.header ++ Coverage.window d.rest w))

/-- The documents show windows of the rest, which cover it up to a position. -/
def Shown (d : DefinitionSpan) (m : ℕ) (chunks : List EmbeddingChunk) : Prop :=
  ∃ ws, chunks.map (·.text) = ws.map d.shownText ∧ Coverage.CoversTo d.rest.length m ws

theorem Shown.nil (d : DefinitionSpan) : d.Shown 0 [] := ⟨[], rfl, .nil _⟩

theorem Shown.snoc {m e : ℕ} {chunks : List EmbeddingChunk} (h : d.Shown m chunks) {c : EmbeddingChunk}
    (htext : c.text = d.shownText (m, e)) {next : ℕ} (hlt : m < next) (hle : next ≤ e)
    (he : e ≤ d.rest.length) : d.Shown next (chunks ++ [c]) := by
  obtain ⟨ws, htexts, hcovers⟩ := h
  exact ⟨ws ++ [(m, e)],
    by rw [List.map_append, List.map_append, htexts, List.map_singleton, List.map_singleton, htext],
    hcovers.snoc hlt hle he⟩

/-! ### The loops -/

theorem endLine_append_newline (text : List Char) : endLine (text ++ ['\n']) = text ++ ['\n'] := by
  rw [endLine, if_pos (by simp)]

theorem window_line (hi : d.headerEndIdx < i) (hle : i ≤ d.defEndIdx) (hlt : i < d.lines.length)
    {before middle after : List Char} (hline : d.lines[i] ++ ['\n'] = before ++ (middle ++ after)) :
    Coverage.window d.rest (d.offset i + before.length, d.offset i + before.length + middle.length) =
      middle := by
  have hjoin : joinLines ((d.lines.take (i + 1)).drop i) = before ++ (middle ++ after) := by
    rw [take_drop_line hlt, ← hline]
    exact List.flatMap_singleton ..
  rw [d.rest_eq hi (Nat.le_succ i) (Nat.succ_le_succ hle), hjoin, List.append_assoc, List.append_assoc,
    ← List.append_assoc, offset, ← List.length_append, Coverage.window_middle]

theorem Valid.endLine_chunkText (hd : d.Valid) (body : List (List Char)) :
    endLine (d.header ++ joinLines body) = chunkText d.header body := by
  have hne : linesBetween d.lines d.startIdx d.headerEndIdx ++ body ≠ [] :=
    List.append_ne_nil_of_left_ne_nil hd.headerLines_ne_nil _
  obtain ⟨beg, hbeg⟩ := joinLines_eq_append_newline hne
  rw [joinLines_append] at hbeg
  rw [chunkText, header, hbeg, endLine_append_newline]

/-- The documents show the rest up to a line, and of this line what comes before `text`.  When nothing of
the line is left, its line feed is shown as well. -/
def ShownBefore (d : DefinitionSpan) (line : List Char) (i : ℕ) (chunks : List EmbeddingChunk)
    (text : List Char) : Prop :=
  ∃ before, line = before ++ text ∧
    d.Shown (if text = [] then d.offset (i + 1) else d.offset i + before.length) chunks

theorem offset_succ (d : DefinitionSpan) (hi : d.headerEndIdx < i) (hlt : i < d.lines.length) :
    d.offset (i + 1) = d.offset i + (d.lines[i].length + 1) := by
  rw [d.offset_add hi (Nat.le_succ i), take_drop_line hlt]
  simp [joinLines]

theorem Valid.shownBefore_segment (hd : d.Valid) (hi : d.headerEndIdx < i) (hle : i ≤ d.defEndIdx)
    (hlt : i < d.lines.length) {text : List Char} (h : d.ShownBefore d.lines[i] i chunks text)
    {k : ℕ} (hpos : 0 < k) (hk : k ≤ text.length) {c : EmbeddingChunk}
    (htext : c.text = String.ofList (d.header ++ text.take k ++ ['\n'])) :
    d.ShownBefore d.lines[i] i (chunks ++ [c]) (text.drop k) := by
  obtain ⟨before, hline, hshown⟩ := h
  have hne : text ≠ [] := List.ne_nil_of_length_pos (by omega)
  rw [if_neg hne] at hshown
  have hlength : d.lines[i].length = before.length + text.length := by rw [hline, List.length_append]
  have htake : (text.take k).length = k := List.length_take_of_le hk
  have hsplit : d.lines[i] = before ++ text.take k ++ text.drop k := by
    rw [List.append_assoc, List.take_append_drop, hline]
  have hnext := d.offset_succ hi hlt
  have hend : d.offset (i + 1) ≤ d.rest.length := by
    rw [← d.offset_end]
    exact d.offset_le (Nat.lt_succ_of_lt hi) (Nat.succ_le_succ hle)
  refine ⟨before ++ text.take k, hsplit, ?_⟩
  by_cases hdrop : text.drop k = []
  · -- the last segment, with the line feed
    rw [if_pos hdrop]
    rw [hdrop, List.append_nil] at hsplit
    have hline' : d.lines[i] ++ ['\n'] = before ++ (text.take k ++ ['\n'] ++ []) := by
      rw [hsplit, List.append_nil, List.append_assoc]
    have hwindow := window_line hi hle hlt hline'
    have hk : k = text.length := by
      have := List.drop_eq_nil_iff.1 hdrop
      omega
    refine hshown.snoc (e := d.offset (i + 1)) ?_ (by omega) (Nat.le_refl _) hend
    have hwidth : d.offset (i + 1) = d.offset i + before.length + (text.take k ++ ['\n']).length := by
      rw [hnext, hlength, List.length_append, htake, List.length_singleton]
      omega
    rw [htext, shownText, hwidth, hwindow, ← List.append_assoc, endLine_append_newline]
  · rw [if_neg hdrop, List.length_append, ← Nat.add_assoc]
    have hline' : d.lines[i] ++ ['\n'] = before ++ (text.take k ++ (text.drop k ++ ['\n'])) := by
      rw [hsplit, List.append_assoc, List.append_assoc]
    have hwindow := window_line hi hle hlt hline'
    have hsegment : '\n' ∉ text.take k := by
      intro hmem
      have hnewline := hd.oneLine _ (List.getElem_mem hlt)
      rw [hsplit] at hnewline
      exact hnewline (List.mem_append_left _ (List.mem_append_right _ hmem))
    refine hshown.snoc ?_ (by omega) (Nat.le_refl _) (by omega)
    rw [htext, shownText, hwindow,
      endLine_append_segment (List.ne_nil_of_length_pos (by omega)) hsegment]

theorem ne_nil_of_not_fits (hlt : i < d.lines.length)
    (hroom : RoomBehind p title maxTokens d.header)
    (hfits : promptFits p title maxTokens (chunkText d.header (linesBetween d.lines i i)) = .ok false) :
    d.lines[i] ≠ [] := by
  intro hblank
  have hone := hroom '\n'
  rw [SegmentFits, endLine_append_newline] at hone
  have hjoin : joinLines (linesBetween d.lines i i) = ['\n'] := by
    rw [linesBetween, take_drop_line hlt, hblank]
    rfl
  rw [chunkText, hjoin, hone] at hfits
  cases hfits

theorem Valid.shown_oversize (hd : d.Valid) (hi : d.headerEndIdx < i) (hle : i ≤ d.defEndIdx)
    (hroom : RoomBehind p title maxTokens d.header)
    (hfits : promptFits p title maxTokens (chunkText d.header (linesBetween d.lines i i)) = .ok false)
    {out out' : List EmbeddingChunk}
    (h : appendOversizeBodyLineChunks p title maxTokens out d.header (d.lines.getD i []) i = .ok out')
    (hout : d.Shown (d.offset i) out) : d.Shown (d.offset (i + 1)) out' := by
  have hlt : i < d.lines.length := Nat.lt_of_le_of_lt hle hd.end_lt
  have hget : d.lines.getD i [] = d.lines[i] := (List.getElem_eq_getD []).symm
  have hne := ne_nil_of_not_fits hlt hroom hfits
  rw [hget] at h
  obtain ⟨text, ⟨before, -, hshown⟩, hdone⟩ := appendSegments_rule
    (P := fun out text => d.ShownBefore d.lines[i] i out text)
    (fun out text k hP hpos hk _ => hd.shownBefore_segment hi hle hlt hP hpos hk rfl)
    h ⟨[], rfl, by rw [if_neg hne]; exact hout⟩
  rwa [if_pos (hdone hroom)] at hshown

/-- **The loop over the body** covers it. -/
theorem Valid.shown_bodyWindows (hd : d.Valid) (hroom : RoomBehind p title maxTokens d.header)
    (h : bodyWindows p title maxTokens d.lines d.header startLine d.defEndIdx (d.headerEndIdx + 1) [] =
      .ok chunks) : d.Shown d.rest.length chunks := by
  have hheader : d.headerEndIdx + 1 ≤ d.defEndIdx + 1 := Nat.succ_le_succ hd.header_le
  obtain ⟨-, hshown⟩ := bodyWindows_rule
    (P := fun bodyIdx out => d.headerEndIdx < bodyIdx ∧ d.Shown (d.offset bodyIdx) out)
    (fun bodyIdx out bodyEndIdx next c hP hlo hhi _ htext _ hnext hnextLe => by
      obtain ⟨hbody, hshown⟩ := hP
      have hbodyEnd : d.headerEndIdx < bodyEndIdx + 1 := by omega
      refine ⟨Nat.lt_trans hbody hnext, hshown.snoc (e := d.offset (bodyEndIdx + 1)) ?_ ?_ ?_ ?_⟩
      · rw [htext, shownText, d.window_rest hbody (Nat.le_succ_of_le hlo) (Nat.succ_le_succ hhi),
          hd.endLine_chunkText, linesBetween]
      · exact hd.offset_lt hbody hnext (by omega)
      · exact d.offset_le (Nat.lt_trans hbody hnext) hnextLe
      · rw [← d.offset_end]
        exact d.offset_le hbodyEnd (Nat.succ_le_succ hhi))
    (fun bodyIdx out out' hP hin hfits hsegments =>
      ⟨Nat.lt_succ_of_lt hP.1, hd.shown_oversize hP.1 hin hroom hfits hsegments hP.2⟩)
    hheader h ⟨Nat.lt_succ_self _, by rw [d.offset_start]; exact .nil d⟩
  rwa [d.offset_end] at hshown

/-- There is room for one more character behind every beginning of the header, but the empty one. -/
def Roomy (d : DefinitionSpan) (p : CodeEmbeddingProvider) (title : String) (maxTokens : ℕ) : Prop :=
  ∀ beg, beg <+: d.header → beg ≠ [] → RoomBehind p title maxTokens beg

theorem Valid.header_ne_nil (hd : d.Valid) : d.header ≠ [] := by
  obtain ⟨beg, hbeg⟩ := hd.header_eq
  rw [hbeg]
  exact List.append_ne_nil_of_right_ne_nil _ (List.cons_ne_nil _ _)

/-- The search for the header keeps all of it, when something is behind it. -/
theorem Valid.maxHeaderPrefixLen_eq (hd : d.Valid) (hroom : d.Roomy p title maxTokens)
    (hrest : d.rest ≠ []) {r : Option ℕ}
    (h : maxHeaderPrefixLen p title maxTokens d.header d.full = .ok r) : r = some d.header.length := by
  have hpos : 1 ≤ d.header.length := List.length_pos_iff.2 hd.header_ne_nil
  rw [maxHeaderPrefixLen, if_neg hd.header_ne_nil] at h
  have hlast := Bisect.closed_of_forall h fun k hk hle hfalse => by
    have htake : d.header.take k ≠ [] := List.ne_nil_of_length_pos (by rw [List.length_take]; omega)
    have hdrop : d.full.drop k ≠ [] := by
      rw [hd.full_eq, List.drop_append_of_le_length hle]
      exact List.append_ne_nil_of_right_ne_nil _ hrest
    cases hsearch : maxFittingSegmentLen p title maxTokens (d.header.take k) (d.full.drop k) with
    | error e =>
      rw [hsearch] at hfalse
      cases hfalse
    | ok n =>
      obtain ⟨m, rfl, hm⟩ := maxFittingSegmentLen_of_room hsearch hdrop
        (hroom _ (List.take_prefix _ _) htake)
      rw [hsearch] at hfalse
      simp [Except.map, hm] at hfalse
  rwa [if_pos hpos] at hlast

theorem shown_segment {before text : List Char} (hrest : d.rest = before ++ text)
    (h : d.Shown before.length chunks) {k : ℕ} (hpos : 0 < k) (hk : k ≤ text.length)
    {c : EmbeddingChunk} (htext : c.text = String.ofList (endLine (d.header ++ text.take k))) :
    d.Shown (before ++ text.take k).length (chunks ++ [c]) := by
  have htake : (text.take k).length = k := List.length_take_of_le hk
  have hlength : d.rest.length = before.length + text.length := by rw [hrest, List.length_append]
  rw [List.length_append]
  refine h.snoc ?_ (by omega) (Nat.le_refl _) (by omega)
  have hsplit : d.rest = before ++ (text.take k ++ text.drop k) := by
    rw [List.take_append_drop, hrest]
  rw [htext, shownText, hsplit, Coverage.window_middle]

/-- **The path of the header that leaves no room** covers the rest, if there is any. -/
theorem Valid.shown_split (hd : d.Valid) (hroom : d.Roomy p title maxTokens) (hrest : d.rest ≠ [])
    (h : splitOversizeTextWithHeader p title maxTokens d.full d.header startLine d.defEndIdx =
      .ok chunks) : d.Shown d.rest.length chunks := by
  rw [splitOversizeTextWithHeader] at h
  split at h
  · cases h
  · rename_i hsearch
    cases hd.maxHeaderPrefixLen_eq hroom hrest hsearch
  · rename_i k hsearch
    cases hd.maxHeaderPrefixLen_eq hroom hrest hsearch
    rw [hd.full_eq, List.take_length, List.drop_left] at h
    obtain ⟨text, ⟨before, htext, hshown⟩, hdone⟩ := appendSegments_rule
      (P := fun out text => ∃ before, d.rest = before ++ text ∧ d.Shown before.length out)
      (fun out text k hP hpos hk _ => by
        obtain ⟨before, htext, hshown⟩ := hP
        exact ⟨before ++ text.take k, by rw [List.append_assoc, List.take_append_drop, htext],
          shown_segment htext hshown hpos hk rfl⟩)
      h ⟨[], rfl, .nil d⟩
    rw [hdone (hroom _ (List.prefix_refl _) hd.header_ne_nil), List.append_nil] at htext
    rwa [htext]

/-- Where the header is all there is, either it fits, or it is a blank line and there is no document. -/
theorem Valid.split_header (hd : d.Valid) (hroom : d.Roomy p title maxTokens) (hrest : d.rest = [])
    (hfull : promptFits p title maxTokens d.full = .ok false)
    (h : splitOversizeTextWithHeader p title maxTokens d.full d.header startLine d.defEndIdx =
      .ok chunks) : chunks = [] := by
  obtain ⟨beg, hbeg⟩ := hd.header_eq
  have hall : d.full = d.header := by rw [hd.full_eq, hrest, List.append_nil]
  cases beg with
  | cons c beg =>
    have hone := hroom (c :: beg) (by rw [hbeg]; exact List.prefix_append _ _) (List.cons_ne_nil _ _) '\n'
    rw [SegmentFits, endLine_append_newline, ← hbeg, ← hall, hfull] at hone
    cases hone
  | nil =>
    rw [List.nil_append] at hbeg
    rw [hall, hbeg] at h
    have hsearch : maxHeaderPrefixLen p title maxTokens ['\n'] ['\n'] = .ok none := by
      rw [maxHeaderPrefixLen, if_neg (List.cons_ne_nil _ _), Bisect.closed]
      rfl
    rw [splitOversizeTextWithHeader, hsearch] at h
    cases h
    rfl

end DefinitionSpan

theorem definitionSpan_valid {source : String} {startLine endLine : ℤ} {maxBytes : ℕ} {d : DefinitionSpan}
    (h : definitionSpan source startLine endLine maxBytes = some d) : d.Valid := by
  obtain ⟨hlines, hstart, hheader, hend⟩ := definitionSpan_spec h
  refine ⟨fun line hline => ?_, hstart, hheader, hend⟩
  rw [hlines] at hline
  exact Text.newline_not_mem hline

/-- Where there is room, the documents cover the rest of the definition. -/
theorem shown_embeddingChunks {source : String} {startLine endLine : ℤ} {maxBytes : ℕ}
    {chunks : List EmbeddingChunk} {d : DefinitionSpan}
    (h : embeddingChunks source startLine endLine title p maxBytes = .ok chunks)
    (hspan : definitionSpan source startLine endLine maxBytes = some d)
    (hroom : d.Roomy p title (max p.maxInputTokens 1)) :
    ∃ ws, chunks.map (·.text) = ws.map d.shownText ∧ Coverage.Covers d.rest.length ws := by
  have hd := definitionSpan_valid hspan
  rcases embeddingChunks_cases h hspan with ⟨-, rfl⟩ | ⟨hfull, hsplit⟩ | ⟨-, hwindows⟩
  · refine ⟨[(0, d.rest.length)], ?_, Coverage.covers_singleton _⟩
    have hshown : Greppy.endLine (d.header ++ d.rest) = d.full := by
      rw [hd.full_eq, DefinitionSpan.rest, hd.endLine_chunkText, chunkText]
    rw [List.map_singleton, List.map_singleton, DefinitionSpan.shownText, Coverage.window, List.take_length,
      List.drop_zero, hshown]
  · by_cases hrest : d.rest = []
    · rw [hd.split_header hroom hrest hfull hsplit, hrest]
      exact ⟨[], rfl, (Coverage.CoversTo.nil 0).covers⟩
    · obtain ⟨ws, htexts, hcovers⟩ := hd.shown_split hroom hrest hsplit
      exact ⟨ws, htexts, hcovers.covers⟩
  · obtain ⟨ws, htexts, hcovers⟩ :=
      hd.shown_bodyWindows (hroom _ (List.prefix_refl _) hd.header_ne_nil) hwindows
    exact ⟨ws, htexts, hcovers.covers⟩

/-- **The documents of a definition.**  They are found if the model counts tokens at all.  Their numbers
are 0, 1, …, their prompts are within the budget, which is at least one token, and, where any one character
fits behind every beginning of the header, what they show behind the header covers the rest of the
definition in order. -/
theorem embeddingChunks_spec (source : String) (startLine endLine : ℤ) (title : String)
    (p : CodeEmbeddingProvider) (maxBytes : ℕ) :
    (CountsTokens p title →
        ∃ chunks, embeddingChunks source startLine endLine title p maxBytes = .ok chunks) ∧
      ∀ chunks, embeddingChunks source startLine endLine title p maxBytes = .ok chunks →
        chunks.map (·.chunkIdx) = ((List.range chunks.length).map fun k : ℕ => (k : ℤ)) ∧
          (∀ c ∈ chunks, ∃ n ≤ max p.maxInputTokens 1, p.documentTokenLen title c.text = .ok n) ∧
          ∀ d, definitionSpan source startLine endLine maxBytes = some d →
            d.Roomy p title (max p.maxInputTokens 1) →
            ∃ ws, chunks.map (·.text) = ws.map d.shownText ∧ Coverage.Covers d.rest.length ws := by
  refine ⟨fun hp => embeddingChunks_ok hp source startLine endLine maxBytes, fun chunks h => ?_⟩
  have hnumbered := numbered_embeddingChunks h
  exact ⟨hnumbered.chunkIdx, fun c hc => le_of_promptFits (hnumbered.fits c hc),
    fun d hspan hroom => shown_embeddingChunks h hspan hroom⟩

theorem length_endLine_le (text : List Char) : (endLine text).length ≤ text.length + 1 := by
  rw [endLine]
  split
  · exact Nat.le_succ _
  · rw [List.length_append, List.length_singleton]

def charModel (maxInputTokens : ℕ) : CodeEmbeddingProvider where
  modelId := "chars"
  promptVersion := "v1"
  taskProfile := "code"
  maxInputTokens := maxInputTokens
  documentTokenLen := fun _ content => .ok content.length

/-- A definition with a line of eight characters and a blank one, of which twelve characters fit in a
document with its header of seven. -/
theorem embeddingChunks_spec_chars :
    ∃ chunks, embeddingChunks "def f:\nreturn 1\n\ng\n" 1 4 "a" (charModel 12) 0 = .ok chunks ∧
      chunks.map (·.text) = ["def f:\nretu\n", "def f:\nrn 1\n", "def f:\n\ng\n"] ∧
      ∃ ws, chunks.map (·.text) =
          ws.map (DefinitionSpan.shownText
            ⟨["def f:".toList, "return 1".toList, [], "g".toList], 0, 0, 3⟩) ∧
        Coverage.Covers 12 ws := by
  obtain ⟨hfound, hspec⟩ :=
    embeddingChunks_spec "def f:\nreturn 1\n\ng\n" 1 4 "a" (charModel 12) 0
  obtain ⟨chunks, hchunks⟩ := hfound fun content => ⟨content.length, rfl⟩
  obtain ⟨-, -, hcovers⟩ := hspec chunks hchunks
  have hroom : DefinitionSpan.Roomy ⟨["def f:".toList, "return 1".toList, [], "g".toList], 0, 0, 3⟩
      (charModel 12) "a" 12 := by
    intro beg hbeg _ c
    have hle : beg.length ≤ 7 := hbeg.length_le
    have hend : (endLine (beg ++ [c])).length ≤ 12 := by
      have hone := length_endLine_le (beg ++ [c])
      rw [List.length_append, List.length_singleton] at hone
      omega
    rw [SegmentFits, promptFits]
    simpa [charModel, Except.map] using hend
  have htexts : (embeddingChunks "def f:\nreturn 1\n\ng\n" 1 4 "a" (charModel 12) 0).map
      (fun chunks => chunks.map (·.text)) =
        .ok ["def f:\nretu\n", "def f:\nrn 1\n", "def f:\n\ng\n"] := by decide +kernel
  rw [hchunks] at htexts
  exact ⟨chunks, hchunks, Except.ok.inj htexts, hcovers _ rfl hroom⟩

/-- A model to which everything is too long but the header `def f:` with one more character. -/
def oneBehind : CodeEmbeddingProvider where
  modelId := "one"
  promptVersion := "v1"
  taskProfile := "code"
  maxInputTokens := 1
  documentTokenLen := fun _ content =>
    if content = "def f:\n\n" ∨ "def f:\n".toList <+: content.toList ∧ content.length = 9 then .ok 1
    else .ok 2

/-- A budget of no token counts as one.  With a model whose prompts do not get longer with their texts, all
searches may miss what fits, although any one character fits behind the header. -/
theorem embeddingChunks_misses :
    (∃ c, embeddingChunks "a;\n" 1 1 "a" { charModel 0 with documentTokenLen := fun _ _ => .ok 1 } 0 =
      .ok [c]) ∧
      embeddingChunks "def f:\ng(1, 2)\n" 1 2 "a" oneBehind 0 = .ok [] ∧
      ∃ d, definitionSpan "def f:\ng(1, 2)\n" 1 2 0 = some d ∧ RoomBehind oneBehind "a" 1 d.header ∧
        ¬ ∃ ws, ([] : List EmbeddingChunk).map (·.text) = ws.map d.shownText ∧
          Coverage.Covers d.rest.length ws := by
  refine ⟨⟨_, rfl⟩, by decide +kernel, ⟨["def f:".toList, "g(1, 2)".toList], 0, 0, 1⟩, rfl, ?_, ?_⟩
  · intro c
    have hheader : DefinitionSpan.header ⟨["def f:".toList, "g(1, 2)".toList], 0, 0, 1⟩ =
        "def f:\n".toList := rfl
    rw [hheader]
    by_cases hc : c = '\n'
    · subst hc
      rfl
    · have hend : endLine ("def f:\n".toList ++ [c]) = "def f:\n".toList ++ [c, '\n'] := by
        rw [endLine_append_segment (List.cons_ne_nil _ _) (by simpa using Ne.symm hc), List.append_assoc]
        rfl
      have hlength : (String.ofList ("def f:\n".toList ++ [c, '\n'])).length = 9 := by
        rw [String.length_ofList, List.length_append]
        rfl
      have hbegins : "def f:\n".toList <+: (String.ofList ("def f:\n".toList ++ [c, '\n'])).toList := by
        have htoList : (String.ofList ("def f:\n".toList ++ [c, '\n'])).toList =
            "def f:\n".toList ++ [c, '\n'] := String.toList_ofList ..
        rw [htoList]
        exact List.prefix_append _ _
      have hone : oneBehind.documentTokenLen "a" (String.ofList ("def f:\n".toList ++ [c, '\n'])) =
          .ok 1 := if_pos (.inr ⟨hbegins, hlength⟩)
      rw [SegmentFits, promptFits, hend, hone]
      rfl
  · rintro ⟨ws, htexts, hcovers⟩
    have hws : ws = [] := List.map_eq_nil_iff.1 htexts.symm
    subst hws
    obtain ⟨w, hw, -⟩ := hcovers.covered 0 (by decide +kernel)
    cases hw

end Greppy
