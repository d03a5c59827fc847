/-
**Where a definition ends, and where its header does.**

The graph knows the line on which a definition starts, and sometimes the one on which it ends.  Where it
does not, braces are counted, from the first line on: the definition ends where the first brace that was
opened is closed, or where another definition starts at the same indentation.  A text in quotes and a line
comment do not count, as far as one line goes.
-/

import Greppy.CacheManifest
import Greppy.Usize

set_option autoImplicit false

namespace Greppy

/-! ### Braces -/

/-- The characters of a line, from the depth, whether a brace has been opened, the quote of the text that
the scan is in, and the character before: `none` where the definition ends. -/
def scanChars : List Char → ℤ → Bool → Option Char → Char → Option (ℤ × Bool)
  | [], depth, opened, _, _ => some (depth, opened)
  | c :: rest, depth, opened, some quote, prev =>
      scanChars rest depth opened (if c = quote ∧ prev ≠ '\\' then none else some quote) c
  | c :: rest, depth, opened, none, _ =>
      if c = '/' ∧ rest.head? = some '/' then some (depth, opened)
      else if c = '"' ∨ c = '\'' then scanChars rest depth opened (some c) c
      else if c = '{' then scanChars rest (depth + 1) true none c
      else if c = '}' ∧ opened = true then
        if depth - 1 ≤ 0 then none else scanChars rest (depth - 1) opened none c
      else if c = ';' ∧ opened = false then none
      else scanChars rest depth opened none c

/-- Some lines, from a number on: the line that ends the definition, or whether a brace has been opened.
`stop` is asked at the beginning of each line, with the depth and whether a brace has been opened. -/
def scanLines (stop : ℕ → List Char → ℤ → Bool → Option ℕ) : List (List Char) → ℕ → ℤ → Bool → ℕ ⊕ Bool
  | [], _, _, opened => .inr opened
  | raw :: rest, idx, depth, opened =>
    match stop idx raw depth opened with
    | some last => .inl last
    | none =>
      match scanChars raw depth opened none '\x00' with
      | none => .inl idx
      | some (depth, opened) => scanLines stop rest (idx + 1) depth opened

/-- `&lines[a..=b]`. -/
def linesBetween (lines : List (List Char)) (a b : ℕ) : List (List Char) := (lines.take (b + 1)).drop a

/-- `greppy_core::spans::definition_end_idx`. -/
def definitionEndIdx (lines : List (List Char)) (startIdx : ℕ) : ℕ :=
  let scanEnd := min (lines.length - 1) (startIdx + 400)
  match scanLines (fun _ _ _ _ => none) (linesBetween lines startIdx scanEnd) startIdx 0 false with
  | .inl idx => idx
  | .inr opened => if opened then scanEnd else startIdx

def leadingWhitespaceLen (line : List Char) : ℕ := (line.takeWhile isWhitespace).length

/-- `str::strip_prefix`, or the text as it is. -/
def stripPrefix? (pre line : List Char) : Option (List Char) :=
  if pre.isPrefixOf line then some (line.drop pre.length) else none

def looksLikeDefinitionStart (line : List Char) : Bool :=
  let trimmed := line.dropWhile isWhitespace
  let withoutVisibility :=
    (((stripPrefix? "pub ".toList trimmed).or (stripPrefix? "pub(crate) ".toList trimmed)).or
      ((stripPrefix? "public ".toList trimmed).or ((stripPrefix? "private ".toList trimmed).or
        (stripPrefix? "protected ".toList trimmed)))).getD trimmed
  let withoutAsync := (stripPrefix? "async ".toList withoutVisibility).getD withoutVisibility
  ["fn ", "def ", "class ", "struct ", "enum ", "trait ", "interface ", "function ", "export function ",
    "export class "].any fun word => word.toList.isPrefixOf withoutAsync

def previousNonblankIdx (lines : List (List Char)) (startIdx : ℕ) : ℕ → ℕ
  | 0 => 0
  | idx + 1 =>
    if startIdx < idx + 1 ∧ trimWhitespace (lines.getD (idx + 1) []) = [] then
      previousNonblankIdx lines startIdx idx
    else idx + 1

/-- The lines of `derived_definition_scan_end_idx`, as far as they fit: the last one. -/
def derivedScanEnd (maxBytes startIdx : ℕ) : List (List Char) → ℕ → ℕ → ℕ → ℕ
  | [], _, _, last => last
  | line :: rest, idx, bytes, last =>
    let next := usizeSaturatingAdd (usizeSaturatingAdd bytes (byteLength line)) 1
    if startIdx < idx ∧ maxBytes < next then last
    else derivedScanEnd maxBytes startIdx rest (idx + 1) next idx

def derivedDefinitionScanEndIdx (lines : List (List Char)) (startIdx maxBytes : ℕ) : ℕ :=
  let last := lines.length - 1
  let lineCap := min (usizeSaturatingAdd startIdx 400) last
  if maxBytes = 0 then min startIdx last
  else derivedScanEnd maxBytes startIdx (linesBetween lines startIdx lineCap) startIdx 0 (min startIdx last)

def definitionEndIdxFull (lines : List (List Char)) (startIdx maxBytes : ℕ) : ℕ :=
  let scanEnd := derivedDefinitionScanEndIdx lines startIdx maxBytes
  let startIndent := leadingWhitespaceLen (lines.getD startIdx [])
  let stop idx raw (depth : ℤ) opened :=
    if startIdx < idx ∧ opened = true ∧ 0 < depth ∧ leadingWhitespaceLen raw ≤ startIndent ∧
        looksLikeDefinitionStart raw = true then
      some (previousNonblankIdx lines startIdx (idx - 1))
    else none
  match scanLines stop (linesBetween lines startIdx scanEnd) startIdx 0 false with
  | .inl idx => idx
  | .inr opened => if opened then scanEnd else definitionEndIdx (lines.take (scanEnd + 1)) startIdx

/-! ### The header -/

def endsSignature (line : List Char) : Bool :=
  let trimmed := (line.reverse.dropWhile isWhitespace).reverse
  decide ('{' ∈ trimmed) || decide (['=', '>'] <:+: trimmed) || decide (trimmed.getLast? = some ':')

def signatureEndIdx (lines : List (List Char)) (startIdx defEndIdx : ℕ) : ℕ :=
  match (linesBetween lines startIdx defEndIdx).findIdx? endsSignature with
  | some k => startIdx + k
  | none => startIdx

/-! ### The span of a definition -/

/-- What `embedding_chunks` cuts: some lines of the source, of which the first ones are the header. -/
structure DefinitionSpan where
  lines : List (List Char)
  startIdx : ℕ
  headerEndIdx : ℕ
  defEndIdx : ℕ

/-- The beginning of `embedding_chunks`: `none` where there is nothing to cut. -/
def definitionSpan (source : String) (startLine endLine : ℤ) (maxBytes : ℕ) : Option DefinitionSpan :=
  if startLine ≤ 0 ∨ endLine < startLine then none
  else
    let lines := Text.lines source.toList
    let startIdx := startLine.toNat - 1
    if lines.length ≤ startIdx then none
    else
      let defEndIdx :=
        if startLine < endLine then min (endLine.toNat - 1) (lines.length - 1)
        else definitionEndIdxFull lines startIdx maxBytes
      if defEndIdx < startIdx then none
      else some ⟨lines, startIdx, signatureEndIdx lines startIdx defEndIdx, defEndIdx⟩

/-! ### Lines of the source -/

variable {lines : List (List Char)} {idx maxBytes startIdx : ℕ}

theorem length_linesBetween {a b : ℕ} (h : b < lines.length) :
    (linesBetween lines a b).length = b + 1 - a := by
  rw [linesBetween, List.length_drop, List.length_take]
  omega

variable {stop : ℕ → List Char → ℤ → Bool → Option ℕ} {depth : ℤ} {opened : Bool} {e bytes last : ℕ}

/-- A scan ends on one of its lines, if `stop` only names lines up to the one it is asked about. -/
theorem scanLines_le
    (hstop : ∀ idx raw depth opened e, stop idx raw depth opened = some e → e ≤ idx)
    (h : scanLines stop lines idx depth opened = .inl e) : e < idx + lines.length := by
  induction lines generalizing idx depth opened with
  | nil => cases h
  | cons raw rest ih =>
    rw [scanLines] at h
    rw [List.length_cons]
    cases hnow : stop idx raw depth opened with
    | some last =>
      rw [hnow] at h
      cases h
      have := hstop idx raw depth opened e hnow
      omega
    | none =>
      simp only [hnow] at h
      cases hscan : scanChars raw depth opened none '\x00' with
      | none =>
        rw [hscan] at h
        cases h
        omega
      | some s =>
        rw [hscan] at h
        have := ih h
        omega

theorem previousNonblankIdx_le (lines : List (List Char)) (startIdx idx : ℕ) :
    previousNonblankIdx lines startIdx idx ≤ idx := by
  induction idx with
  | zero => exact Nat.le_refl _
  | succ idx ih =>
    rw [previousNonblankIdx]
    split
    · omega
    · exact Nat.le_refl _

theorem derivedScanEnd_lt {bound : ℕ} (hlast : last < bound) (hlines : idx + lines.length ≤ bound) :
    derivedScanEnd maxBytes startIdx lines idx bytes last < bound := by
  induction lines generalizing idx bytes last with
  | nil => exact hlast
  | cons line rest ih =>
    rw [List.length_cons] at hlines
    rw [derivedScanEnd]
    split
    · exact hlast
    · exact ih (by omega) (by omega)

theorem le_derivedScanEnd (hlast : startIdx ≤ last) (hidx : startIdx ≤ idx) :
    startIdx ≤ derivedScanEnd maxBytes startIdx lines idx bytes last := by
  induction lines generalizing idx bytes last with
  | nil => exact hlast
  | cons line rest ih =>
    rw [derivedScanEnd]
    split
    · exact hlast
    · exact ih hidx (by omega)

theorem le_derivedDefinitionScanEndIdx (h : startIdx < lines.length) (maxBytes : ℕ) :
    startIdx ≤ derivedDefinitionScanEndIdx lines startIdx maxBytes := by
  unfold derivedDefinitionScanEndIdx
  dsimp only
  split
  · omega
  · exact le_derivedScanEnd (by omega) (Nat.le_refl _)

theorem derivedDefinitionScanEndIdx_lt (h : startIdx < lines.length) (maxBytes : ℕ) :
    derivedDefinitionScanEndIdx lines startIdx maxBytes < lines.length := by
  unfold derivedDefinitionScanEndIdx
  dsimp only
  split
  · omega
  · have hcap : min (usizeSaturatingAdd startIdx 400) (lines.length - 1) < lines.length := by omega
    refine derivedScanEnd_lt (by omega) ?_
    rw [length_linesBetween hcap]
    omega

theorem derivedDefinitionScanEndIdx_le (lines : List (List Char)) (startIdx maxBytes : ℕ) :
    derivedDefinitionScanEndIdx lines startIdx maxBytes ≤ startIdx + 400 := by
  have hsat : usizeSaturatingAdd startIdx 400 ≤ startIdx + 400 := Nat.min_le_left _ _
  unfold derivedDefinitionScanEndIdx
  dsimp only
  split
  · omega
  · refine Nat.lt_succ_iff.1 (derivedScanEnd_lt (by omega) ?_)
    rw [linesBetween, List.length_drop, List.length_take]
    omega

theorem definitionEndIdx_lt (h : startIdx < lines.length) :
    definitionEndIdx lines startIdx < lines.length := by
  unfold definitionEndIdx
  dsimp only
  have hscanEnd : min (lines.length - 1) (startIdx + 400) < lines.length := by omega
  split
  · rename_i idx hscan
    have hlt := scanLines_le (by simp) hscan
    rw [length_linesBetween hscanEnd] at hlt
    omega
  · split
    · exact hscanEnd
    · exact h

theorem definitionEndIdxFull_le (h : startIdx < lines.length) :
    definitionEndIdxFull lines startIdx maxBytes ≤ derivedDefinitionScanEndIdx lines startIdx maxBytes := by
  have hscanEnd := derivedDefinitionScanEndIdx_lt h maxBytes
  have hstart := le_derivedDefinitionScanEndIdx h maxBytes
  unfold definitionEndIdxFull
  dsimp only
  split
  · rename_i idx hscan
    have hlt := scanLines_le (fun idx raw depth opened e hstop => ?_) hscan
    · rw [length_linesBetween hscanEnd] at hlt
      omega
    · split at hstop
      · cases hstop
        have := previousNonblankIdx_le lines startIdx (idx - 1)
        omega
      · cases hstop
  · split
    · exact Nat.le_refl _
    · have hcut : startIdx <
          (lines.take (derivedDefinitionScanEndIdx lines startIdx maxBytes + 1)).length := by
        rw [List.length_take]
        omega
      have hlt := definitionEndIdx_lt hcut
      rw [List.length_take] at hlt
      omega

theorem definitionEndIdxFull_lt (h : startIdx < lines.length) :
    definitionEndIdxFull lines startIdx maxBytes < lines.length :=
  Nat.lt_of_le_of_lt (definitionEndIdxFull_le h) (derivedDefinitionScanEndIdx_lt h maxBytes)

/-! ### Not before its first line -/

/-- A scan ends on no line before `low`, if `stop` names none. -/
theorem le_scanLines {low : ℕ}
    (hstop : ∀ idx raw depth opened e, stop idx raw depth opened = some e → low ≤ e)
    (hidx : low ≤ idx) (h : scanLines stop lines idx depth opened = .inl e) : low ≤ e := by
  induction lines generalizing idx depth opened with
  | nil => cases h
  | cons raw rest ih =>
    rw [scanLines] at h
    cases hnow : stop idx raw depth opened with
    | some last =>
      rw [hnow] at h
      cases h
      exact hstop idx raw depth opened e hnow
    | none =>
      simp only [hnow] at h
      cases hscan : scanChars raw depth opened none '\x00' with
      | none =>
        rw [hscan] at h
        cases h
        exact hidx
      | some s =>
        rw [hscan] at h
        exact ih (by omega) h

theorem le_previousNonblankIdx (lines : List (List Char)) (h : startIdx ≤ idx) :
    startIdx ≤ previousNonblankIdx lines startIdx idx := by
  induction idx with
  | zero => exact h
  | succ idx ih =>
    rw [previousNonblankIdx]
    split
    · exact ih (by omega)
    · exact h

theorem le_definitionEndIdx (h : startIdx < lines.length) :
    startIdx ≤ definitionEndIdx lines startIdx := by
  unfold definitionEndIdx
  dsimp only
  split
  · rename_i idx hscan
    exact le_scanLines (by simp) (Nat.le_refl _) hscan
  · split
    · omega
    · exact Nat.le_refl _

theorem le_definitionEndIdxFull (h : startIdx < lines.length) :
    startIdx ≤ definitionEndIdxFull lines startIdx maxBytes := by
  have hstart := le_derivedDefinitionScanEndIdx h maxBytes
  unfold definitionEndIdxFull
  dsimp only
  split
  · rename_i idx hscan
    refine le_scanLines (fun idx raw depth opened e hstop => ?_) (Nat.le_refl _) hscan
    split at hstop
    · rename_i hguard
      cases hstop
      exact le_previousNonblankIdx lines (by omega)
    · cases hstop
  · split
    · exact hstart
    · refine le_definitionEndIdx ?_
      rw [List.length_take]
      omega

/-! ### The header of a definition -/

theorem signatureEndIdx_mem {defEndIdx : ℕ} (hle : startIdx ≤ defEndIdx)
    (hlt : defEndIdx < lines.length) :
    startIdx ≤ signatureEndIdx lines startIdx defEndIdx ∧
      signatureEndIdx lines startIdx defEndIdx ≤ defEndIdx := by
  unfold signatureEndIdx
  cases hfind : (linesBetween lines startIdx defEndIdx).findIdx? endsSignature with
  | none => exact ⟨Nat.le_refl _, hle⟩
  | some k =>
    have hk := (List.findIdx?_eq_some_iff_findIdx_eq.1 hfind).1
    rw [length_linesBetween hlt] at hk
    dsimp only
    omega

/-- **The span consists of lines of the source**, its header first. -/
theorem definitionSpan_spec {source : String} {startLine endLine : ℤ} {d : DefinitionSpan}
    (h : definitionSpan source startLine endLine maxBytes = some d) :
    d.lines = Text.lines source.toList ∧ d.startIdx ≤ d.headerEndIdx ∧ d.headerEndIdx ≤ d.defEndIdx ∧
      d.defEndIdx < d.lines.length := by
  unfold definitionSpan at h
  dsimp only at h
  by_cases hguard : startLine ≤ 0 ∨ endLine < startLine
  · rw [if_pos hguard] at h
    cases h
  rw [if_neg hguard] at h
  by_cases hstart : (Text.lines source.toList).length ≤ startLine.toNat - 1
  · rw [if_pos hstart] at h
    cases h
  rw [if_neg hstart] at h
  have hlt : (if startLine < endLine then
      min (endLine.toNat - 1) ((Text.lines source.toList).length - 1)
      else definitionEndIdxFull (Text.lines source.toList) (startLine.toNat - 1) maxBytes) <
        (Text.lines source.toList).length := by
    split
    · omega
    · exact definitionEndIdxFull_lt (by omega)
  generalize (if startLine < endLine then
    min (endLine.toNat - 1) ((Text.lines source.toList).length - 1)
    else definitionEndIdxFull (Text.lines source.toList) (startLine.toNat - 1) maxBytes) = last at h hlt
  by_cases hend : last < startLine.toNat - 1
  · rw [if_pos hend] at h
    cases h
  rw [if_neg hend] at h
  cases h
  obtain ⟨hheader, hbody⟩ := signatureEndIdx_mem (Nat.not_lt.1 hend) hlt
  exact ⟨rfl, hheader, hbody, hlt⟩

end Greppy
