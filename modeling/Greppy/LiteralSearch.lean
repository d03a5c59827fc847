/-
**Two back ends of a literal search.**

The content search looks for a text in the lines of the source files, with the system's `grep` where there
is one and by itself otherwise.  The output of `grep` is text: a line `path:number:line` for each hit, which
is split at its first colons.  The built-in search makes the hits from the lines themselves.  Whoever reads
a hit splits its location at the last colon.
-/

import Greppy.Chunks
import Greppy.RustStr
import Greppy.TextLines
import Greppy.Utf8Prefix

set_option autoImplicit false

namespace Greppy

open Text

/-! ### Which files are text -/

def sniffPrefixBytes : ℕ := 8 * 1024

def isBinaryBytes (bytes : List UInt8) : Bool :=
  let start := bytes.take (min bytes.length sniffPrefixBytes)
  if start = [] then false
  else if 0 ∈ start then true
  else
    match Utf8.firstError start with
    | none => false
    | some errorLen => !(errorLen.isNone && decide (start.length < bytes.length))

/-! ### The searches -/

/-- `CodeHit`; its rank is not used here. -/
structure CodeHit where
  location : List Char
  snippet : List Char
  deriving DecidableEq

inductive ReadError
  | notFound
  | other

/-- `Error::io` with its context, and `Error::Invalid`. -/
inductive SearchError
  | io (context : List Char)
  | invalid (message : List Char)
  deriving DecidableEq

inductive CommandRun
  | notFound
  | spawnError
  | exited (code : Option ℤ) (stdout stderr : List UInt8)

def lineHits (query path : List Char) (text : List (List Char)) : List CodeHit :=
  text.zipIdx.filterMap fun (line, index) =>
    if containsText query line then some ⟨path ++ ':' :: Nat.toDigits 10 (index + 1), line⟩ else none

section Searches

/- What reading a path below the root gives, and what running `grep` with arguments gives. -/
variable (read : List Char → Except ReadError (List UInt8)) (grep : List (List Char) → CommandRun)

/-- The loop of the built-in search over the paths. -/
def internalHits (query : List Char) : List (List Char) → Except SearchError (List CodeHit)
  | [] => .ok []
  | path :: paths =>
    match read path with
    | .error .notFound => internalHits query paths
    | .error .other => .error (.io ("read source file ".toList ++ path))
    | .ok bytes =>
      if isBinaryBytes bytes then internalHits query paths
      else do
        let more ← internalHits query paths
        .ok (lineHits query path (lines (Utf8.lossy bytes)) ++ more)

def internalLiteralSearchCodePaths (query : List Char) (paths : List (List Char)) :
    Except SearchError (List CodeHit) :=
  if query = [] then .ok [] else internalHits read query paths

def parseGrepCodeHit (line : List Char) : Option CodeHit := do
  let cleaned := (stripPrefix ['.', '/'] line).getD line
  let (file, rest) ← splitOnce ':' cleaned
  let (lineNo, content) ← splitOnce ':' rest
  some ⟨file ++ ':' :: lineNo, content⟩

/-- The arguments of `grep`. -/
def grepArgs (query : List Char) (chunk : List (List Char)) : List (List Char) :=
  "-HnIF".toList :: "--".toList :: query :: chunk

/-- The loop of `live_grep_search_code_paths` over the chunks; without a `grep` all the paths are searched
by the built-in search. -/
def liveHits (query : List Char) (paths : List (List Char)) (hits : List CodeHit) :
    List (List (List Char)) → Except SearchError (List CodeHit)
  | [] => .ok hits
  | chunk :: chunks =>
    match grep (grepArgs query chunk) with
    | .notFound => internalLiteralSearchCodePaths read query paths
    | .spawnError => .error (.io "spawn grep for search-code source scan".toList)
    | .exited code stdout stderr =>
      if code ≠ some 0 ∧ code ≠ some 1 then
        .error (.invalid ("grep source scan failed: ".toList ++ trimWhitespace (Utf8.lossy stderr)))
      else
        liveHits query paths (hits ++ (lines (Utf8.lossy stdout)).filterMap parseGrepCodeHit) chunks

def liveGrepSearchCodePaths (query : List Char) (paths : List (List Char)) :
    Except SearchError (List CodeHit) :=
  if paths = [] then .ok [] else liveHits read grep query paths [] (chunksOf 128 paths)

end Searches

/-! ### What `grep` prints -/

/-- A line of a file as `grep` sees it: with its carriage return, and whether a line feed ends it. -/
structure SourceLine where
  path : List Char
  index : ℕ
  raw : List Char
  terminated : Bool

def SourceLine.number (l : SourceLine) : List Char := Nat.toDigits 10 (l.index + 1)

/-- The line as `str::lines` gives it. -/
def SourceLine.shown (l : SourceLine) : List Char := if l.terminated then dropCr l.raw else l.raw

/-- The lines of a text, with their line feeds or without. -/
def rawLines (text : List Char) : List (List Char × Bool) :=
  let (terminated, last) := splitLines text
  terminated.map (·, true) ++ if last = [] then [] else [(last, false)]

def fileLines (path text : List Char) : List SourceLine :=
  (rawLines text).zipIdx.map fun (line, index) => ⟨path, index, line.1, line.2⟩

section Content

variable (content : List Char → List Char)

def sourceLines (paths : List (List Char)) : List SourceLine :=
  paths.flatMap fun path => fileLines path (content path)

/-- `path:number:line`. -/
def SourceLine.printed (l : SourceLine) : List Char := l.path ++ ':' :: (l.number ++ ':' :: l.raw)

/-- What `grep -HnIF -- query` prints of the files. -/
def grepOutput (query : List Char) (paths : List (List Char)) : List Char :=
  (sourceLines content paths).flatMap fun l =>
    if containsText query l.raw then l.printed ++ ['\n'] else []

/-- `grep` prints the lines that contain the query and says whether there are any. -/
def PrintsMatches (grep : List (List Char) → CommandRun) (query : List Char)
    (paths : List (List Char)) : Prop :=
  ∀ chunk, chunk ≠ [] → chunk ⊆ paths →
    ∃ code stderr, (code = 0 ∨ code = 1) ∧
      grep (grepArgs query chunk) =
        .exited (some code) (Utf8.encode (grepOutput content query chunk)) stderr

def ReadsText (read : List Char → Except ReadError (List UInt8)) (paths : List (List Char)) : Prop :=
  ∀ path ∈ paths, read path = .ok (Utf8.encode (content path)) ∧ Char.ofNat 0 ∉ content path

/-! ### Both searches go through the same lines -/

/-- The hit of the built-in search in a line. -/
def shownHit (query : List Char) (l : SourceLine) : Option CodeHit :=
  if containsText query l.shown then some ⟨l.path ++ ':' :: l.number, l.shown⟩ else none

/-- The hit that is read back from the line that `grep` prints. -/
def printedHit (query : List Char) (l : SourceLine) : Option CodeHit :=
  if containsText query l.raw then parseGrepCodeHit (dropCr l.printed) else none

theorem lines_eq_map_rawLines (text : List Char) :
    lines text = (rawLines text).map fun line => if line.2 then dropCr line.1 else line.1 := by
  simp only [lines, rawLines]
  by_cases hlast : (splitLines text).2 = []
  · simp [hlast]
  · simp [hlast]

theorem lineHits_eq (query path text : List Char) :
    lineHits query path (lines text) = (fileLines path text).filterMap (shownHit query) := by
  rw [lineHits, fileLines, lines_eq_map_rawLines, List.zipIdx_map, List.filterMap_map, List.filterMap_map]
  rfl

variable {text query : List Char} {read : List Char → Except ReadError (List UInt8)}
  {paths : List (List Char)}

theorem zero_notMem_encode (h : Char.ofNat 0 ∉ text) : 0 ∉ Utf8.encode text :=
  fun hmem => h (Utf8.mem_of_mem_encode (by decide) hmem)

/-- A text without NUL is no binary file, wherever the sniffed beginning ends. -/
theorem isBinaryBytes_encode (h : Char.ofNat 0 ∉ text) :
    isBinaryBytes (Utf8.encode text) = false := by
  simp only [isBinaryBytes]
  set n := min (Utf8.encode text).length sniffPrefixBytes
  have hnul : 0 ∉ (Utf8.encode text).take n := fun hmem =>
    zero_notMem_encode h (List.take_subset _ _ hmem)
  rw [if_neg hnul]
  rcases Utf8.firstError_take_encode n text with herror | ⟨herror, hn⟩
  · rw [herror]
    exact ite_self false
  · have hlen : ((Utf8.encode text).take n).length < (Utf8.encode text).length := by
      rw [List.length_take]
      omega
    rw [herror]
    simp only [Option.isNone_none, decide_eq_true hlen, Bool.and_self, Bool.not_true, ite_self]

theorem internal_eq (hquery : query ≠ []) (hread : ReadsText content read paths) :
    internalLiteralSearchCodePaths read query paths =
      .ok ((sourceLines content paths).filterMap (shownHit query)) := by
  rw [internalLiteralSearchCodePaths, if_neg hquery]
  induction paths with
  | nil => rfl
  | cons path paths ih =>
    obtain ⟨hpath, hnul⟩ := hread path List.mem_cons_self
    have hrest := ih fun p hp => hread p (List.mem_cons_of_mem _ hp)
    rw [internalHits, hpath, sourceLines, List.flatMap_cons, List.filterMap_append]
    simp only [isBinaryBytes_encode hnul, hrest, Utf8.lossy_encode, lineHits_eq]
    rfl

theorem filterMap_lines_output (query : List Char) {ls : List SourceLine}
    (h : ∀ l ∈ ls, '\n' ∉ l.printed) :
    (lines (ls.flatMap fun l => if containsText query l.raw then l.printed ++ ['\n'] else [])).filterMap
      parseGrepCodeHit = ls.filterMap (printedHit query) := by
  induction ls with
  | nil => rfl
  | cons l ls ih =>
    have hrest := ih fun m hm => h m (List.mem_cons_of_mem _ hm)
    rw [List.flatMap_cons, List.filterMap_cons, printedHit]
    by_cases hmatch : containsText query l.raw = true
    · rw [if_pos hmatch, if_pos hmatch, List.append_assoc, List.singleton_append,
        lines_append (h l List.mem_cons_self), List.filterMap_cons, hrest]
    · rw [if_neg hmatch, if_neg hmatch, List.nil_append, hrest]

theorem newline_notMem_rawLines {line : List Char × Bool} (h : line ∈ rawLines text) :
    '\n' ∉ line.1 := by
  obtain ⟨hlines, hlast⟩ := newline_not_mem_splitLines text
  rw [rawLines, List.mem_append, List.mem_map] at h
  rcases h with ⟨raw, hraw, rfl⟩ | h
  · exact hlines raw hraw
  · split_ifs at h
    · cases h
    · rw [List.mem_singleton] at h
      rw [h]
      exact hlast

theorem mem_sourceLines {content : List Char → List Char} {l : SourceLine}
    (h : l ∈ sourceLines content paths) :
    l.path ∈ paths ∧ (l.raw, l.terminated) ∈ rawLines (content l.path) := by
  rw [sourceLines, List.mem_flatMap] at h
  obtain ⟨path, hpath, hl⟩ := h
  rw [fileLines, List.mem_map] at hl
  obtain ⟨⟨line, index⟩, hline, rfl⟩ := hl
  exact ⟨hpath, List.fst_mem_of_mem_zipIdx hline⟩

theorem newline_notMem_printed (hpaths : ∀ path ∈ paths, '\n' ∉ path) {l : SourceLine}
    (h : l ∈ sourceLines content paths) : '\n' ∉ l.printed := by
  obtain ⟨hpath, hline⟩ := mem_sourceLines h
  have hpath' := hpaths l.path hpath
  have hnumber : '\n' ∉ l.number := (oneLine_toDigits _).newline
  have hraw : '\n' ∉ l.raw := newline_notMem_rawLines hline
  simp [SourceLine.printed, hpath', hnumber, hraw]

theorem liveHits_eq {grep : List (List Char) → CommandRun} (hpaths : ∀ path ∈ paths, '\n' ∉ path)
    (hgrep : PrintsMatches content grep query paths) (hits : List CodeHit)
    {chunks : List (List (List Char))} (hchunks : ∀ chunk ∈ chunks, chunk ≠ [] ∧ chunk ⊆ paths) :
    liveHits read grep query paths hits chunks =
      .ok (hits ++ (sourceLines content chunks.flatten).filterMap (printedHit query)) := by
  induction chunks generalizing hits with
  | nil => rw [liveHits, List.flatten_nil]; simp [sourceLines]
  | cons chunk chunks ih =>
    obtain ⟨hne, hsub⟩ := hchunks chunk List.mem_cons_self
    obtain ⟨code, stderr, hcode, hrun⟩ := hgrep chunk hne hsub
    have hok : ¬ (some code ≠ some 0 ∧ some code ≠ some 1) := by
      rcases hcode with rfl | rfl <;> decide
    have hprinted : ∀ l ∈ sourceLines content chunk, '\n' ∉ l.printed := fun l hl =>
      newline_notMem_printed content (fun path hpath => hpaths path (hsub hpath)) hl
    rw [liveHits, hrun]
    simp only [if_neg hok]
    rw [Utf8.lossy_encode, grepOutput, filterMap_lines_output query hprinted,
      ih _ fun c hc => hchunks c (List.mem_cons_of_mem _ hc), List.flatten_cons, sourceLines, sourceLines,
      sourceLines, List.flatMap_append, List.filterMap_append, List.append_assoc]

theorem live_eq {grep : List (List Char) → CommandRun} (hpaths : ∀ path ∈ paths, '\n' ∉ path)
    (hgrep : PrintsMatches content grep query paths) :
    liveGrepSearchCodePaths read grep query paths =
      .ok ((sourceLines content paths).filterMap (printedHit query)) := by
  rw [liveGrepSearchCodePaths]
  by_cases hnil : paths = []
  · rw [if_pos hnil, hnil]
    rfl
  · rw [if_neg hnil, liveHits_eq content hpaths hgrep [] fun chunk hchunk =>
      ⟨chunk_ne_nil (by decide) hchunk, subset_of_mem_chunksOf hchunk⟩, flatten_chunksOf (by decide),
      List.nil_append]

end Content

/-! ### When a printed hit is read back -/

/-- A hit in the line is read back from what `grep` prints: its path holds no colon and does not begin
with `./`, and a carriage return is no part of the line or of the match. -/
structure SurvivesPrinting (query : List Char) (l : SourceLine) : Prop where
  colon : ':' ∉ l.path
  dot : ¬ ['.', '/'] <+: l.path
  feed : l.terminated = false → l.raw.getLast? ≠ some '\r'
  kept : query <:+: dropCr l.raw

theorem SourceLine.shown_infix (l : SourceLine) : l.shown <:+: l.raw := by
  unfold SourceLine.shown
  split_ifs
  · exact (dropCr_isPrefix l.raw).isInfix
  · exact List.infix_rfl

theorem SourceLine.dropCr_eq_shown_iff (l : SourceLine) :
    dropCr l.raw = l.shown ↔ (l.terminated = false → l.raw.getLast? ≠ some '\r') := by
  unfold SourceLine.shown
  cases hterm : l.terminated with
  | true => simp
  | false => simp [dropCr_eq_self_iff]

theorem SourceLine.colon_notMem_number (l : SourceLine) : ':' ∉ l.number := by
  intro hmem
  have hdigit := Nat.isDigit_of_mem_toDigits (by decide) (by decide) hmem
  revert hdigit
  decide

/-- A location that is read has one colon, which stands before the number. -/
theorem count_of_parse {line : List Char} {h : CodeHit} (hparse : parseGrepCodeHit line = some h) :
    h.location.count ':' = 1 := by
  simp only [parseGrepCodeHit, Option.bind_eq_bind, Option.bind_eq_some_iff, Option.some.injEq,
    Prod.exists] at hparse
  obtain ⟨file, rest, hfile, lineNo, content, hline, rfl⟩ := hparse
  have hf := List.count_eq_zero.2 (eq_append_of_splitOnce hfile).2
  have hl := List.count_eq_zero.2 (eq_append_of_splitOnce hline).2
  rw [List.count_append, List.count_cons_self, hf, hl]

theorem splitOnce_of_count {s : List Char} {n : ℕ} (h : s.count ':' = n + 1) :
    ∃ a b, splitOnce ':' s = some (a, b) ∧ b.count ':' = n := by
  cases hsplit : splitOnce ':' s with
  | none =>
    rw [List.count_eq_zero.2 (splitOnce_eq_none_iff.1 hsplit)] at h
    omega
  | some parts =>
    obtain ⟨hs, ha⟩ := eq_append_of_splitOnce hsplit
    rw [hs, List.count_append, List.count_eq_zero.2 ha, List.count_cons_self] at h
    exact ⟨parts.1, parts.2, rfl, by omega⟩

theorem parse_isSome {line : List Char} (h : 2 ≤ line.count ':') :
    (parseGrepCodeHit line).isSome = true := by
  have hcleaned : ((stripPrefix ['.', '/'] line).getD line).count ':' = line.count ':' := by
    cases hstrip : stripPrefix ['.', '/'] line with
    | none => rfl
    | some rest =>
      rw [stripPrefix_eq_some_iff.1 hstrip, List.count_append]
      exact (Nat.zero_add _).symm
  obtain ⟨n, hn⟩ := Nat.exists_eq_add_of_le h
  obtain ⟨file, rest, hfile, hrest⟩ := splitOnce_of_count (n := n + 1) (by rw [hcleaned, hn]; omega)
  obtain ⟨lineNo, content, hline, -⟩ := splitOnce_of_count hrest
  simp [parseGrepCodeHit, hfile, hline]

theorem dotSlash_isPrefix_append_colon {path : List Char} (x : List Char) :
    ['.', '/'] <+: path ++ ':' :: x ↔ ['.', '/'] <+: path := by
  match path with
  | [] => simp
  | [c] => simp
  | c :: d :: rest => simp

/-- A path without a colon is read back, less a leading `./`. -/
theorem parse_printed {path number : List Char} (hpath : ':' ∉ path) (hnumber : ':' ∉ number)
    (s : List Char) :
    parseGrepCodeHit (path ++ ':' :: (number ++ ':' :: s)) =
      some ⟨(stripPrefix ['.', '/'] path).getD path ++ ':' :: number, s⟩ := by
  cases hstrip : stripPrefix ['.', '/'] path with
  | none =>
    have hline : stripPrefix ['.', '/'] (path ++ ':' :: (number ++ ':' :: s)) = none := by
      rw [stripPrefix_eq_none_iff, dotSlash_isPrefix_append_colon]
      exact stripPrefix_eq_none_iff.1 hstrip
    simp [parseGrepCodeHit, hline, splitOnce_append hpath, splitOnce_append hnumber]
  | some rest =>
    rw [stripPrefix_eq_some_iff] at hstrip
    subst hstrip
    have hrest : ':' ∉ rest := fun hmem => hpath (List.mem_append_right _ hmem)
    rw [parseGrepCodeHit, List.append_assoc, stripPrefix_append]
    simp [splitOnce_append hrest, splitOnce_append hnumber]

variable {query : List Char} {l : SourceLine}

theorem printedHit_of_match (hquery : query ≠ []) (hmatch : query <:+: l.raw) :
    printedHit query l = parseGrepCodeHit (l.path ++ ':' :: (l.number ++ ':' :: dropCr l.raw)) := by
  have hraw : l.raw ≠ [] := by
    intro hnil
    rw [hnil] at hmatch
    exact hquery (List.eq_nil_of_infix_nil hmatch)
  have hfront : l.printed = (l.path ++ ':' :: (l.number ++ [':'])) ++ l.raw := by simp [SourceLine.printed]
  rw [printedHit, containsText, if_pos (decide_eq_true hmatch), hfront, dropCr_append hraw]
  simp

theorem match_of_shownHit (h : (shownHit query l).isSome = true) : query <:+: l.shown := by
  by_contra hno
  rw [shownHit, containsText, if_neg (by simpa using hno)] at h
  cases h

/-- What the built-in search finds, `grep` finds. -/
theorem printedHit_isSome (hquery : query ≠ []) (h : (shownHit query l).isSome = true) :
    (printedHit query l).isSome = true := by
  rw [printedHit_of_match hquery ((match_of_shownHit h).trans l.shown_infix)]
  exact parse_isSome (by simp; omega)

/-- When the hit of a line is read back as the built-in search makes it. -/
theorem printedHit_eq_iff (hquery : query ≠ []) (l : SourceLine) :
    printedHit query l = shownHit query l ↔ (query <:+: l.raw → SurvivesPrinting query l) := by
  by_cases hmatch : query <:+: l.raw
  · have hread := printedHit_of_match hquery hmatch
    have hnumber := l.colon_notMem_number
    rw [hread]
    constructor
    · intro heq _
      have hsome : (shownHit query l).isSome = true := by
        rw [← heq]
        exact parse_isSome (by simp; omega)
      have hshown := match_of_shownHit hsome
      rw [shownHit, containsText, if_pos (decide_eq_true hshown)] at heq
      have hcolon : ':' ∉ l.path := by
        have hcount := count_of_parse heq
        rw [List.count_append, List.count_cons_self] at hcount
        exact List.count_eq_zero.1 (by omega)
      rw [parse_printed hcolon hnumber, Option.some.injEq, CodeHit.mk.injEq] at heq
      obtain ⟨hlocation, hsnippet⟩ := heq
      refine ⟨hcolon, ?_, l.dropCr_eq_shown_iff.1 hsnippet, by rw [hsnippet]; exact hshown⟩
      intro hdot
      obtain ⟨rest, hrest⟩ := hdot
      rw [← hrest, stripPrefix_append] at hlocation
      have hlen := congrArg List.length hlocation
      simp at hlen
      omega
    · intro hsurvives
      obtain ⟨hcolon, hdot, hfeed, hkept⟩ := hsurvives hmatch
      have hsnippet := l.dropCr_eq_shown_iff.2 hfeed
      rw [parse_printed hcolon hnumber, stripPrefix_eq_none_iff.2 hdot, shownHit, containsText,
        if_pos (decide_eq_true (by rw [← hsnippet]; exact hkept)), hsnippet]
      rfl
  · have hshown : ¬ query <:+: l.shown := fun h => hmatch (h.trans l.shown_infix)
    rw [printedHit, shownHit, containsText, containsText, if_neg (by simpa using hmatch),
      if_neg (by simpa using hshown)]
    exact iff_of_true rfl fun h => absurd h hmatch

/-! ### When the searches agree -/

/-- Two searches of which one finds at least where the other does agree exactly if they agree at each
place. -/
theorem filterMap_eq_filterMap_iff {α β : Type} {f g : α → Option β} {l : List α}
    (h : ∀ x ∈ l, (g x).isSome = true → (f x).isSome = true) :
    l.filterMap f = l.filterMap g ↔ ∀ x ∈ l, f x = g x := by
  refine ⟨?_, List.filterMap_congr⟩
  induction l with
  | nil => exact fun _ x hx => absurd hx List.not_mem_nil
  | cons x l ih =>
    have hrest := fun y hy => h y (List.mem_cons_of_mem x hy)
    have hle : (l.filterMap g).length ≤ (l.filterMap f).length := by
      rw [List.length_filterMap_eq_countP, List.length_filterMap_eq_countP]
      exact List.countP_mono_left hrest
    intro heq
    have hhead : f x = g x ∧ l.filterMap f = l.filterMap g := by
      rw [List.filterMap_cons, List.filterMap_cons] at heq
      have hx := h x List.mem_cons_self
      cases hf : f x with
      | none =>
        cases hg : g x with
        | none =>
          rw [hf, hg] at heq
          exact ⟨rfl, heq⟩
        | some b =>
          rw [hf, hg] at hx
          cases hx rfl
      | some a =>
        cases hg : g x with
        | none =>
          rw [hf, hg] at heq
          have hlen : (l.filterMap f).length + 1 = (l.filterMap g).length := congrArg List.length heq
          omega
        | some b =>
          rw [hf, hg] at heq
          simp only [List.cons.injEq] at heq
          exact ⟨by rw [heq.1], heq.2⟩
    intro y hy
    rcases List.mem_cons.1 hy with rfl | hy
    · exact hhead.1
    · exact ih hrest hhead.2 y hy

section Agreement

variable (content : List Char → List Char) (read : List Char → Except ReadError (List UInt8))
  (grep : List (List Char) → CommandRun) (query : List Char) (paths : List (List Char))

/-- Both searches give the same hits, and the location of each, split at its last colon, is the file and
the number of the line that is shown. -/
def BackEndsAgree : Prop :=
  ∃ hits, liveGrepSearchCodePaths read grep query paths = .ok hits ∧
    internalLiteralSearchCodePaths read query paths = .ok hits ∧
      ∀ h ∈ hits, ∃ l ∈ sourceLines content paths,
        rsplitOnce ':' h.location = some (l.path, l.number) ∧ h.snippet = l.shown

theorem location_of_shownHit {query : List Char} {paths : List (List Char)} {h : CodeHit}
    (hh : h ∈ (sourceLines content paths).filterMap (shownHit query)) :
    ∃ l ∈ sourceLines content paths, rsplitOnce ':' h.location = some (l.path, l.number) ∧
      h.snippet = l.shown := by
  rw [List.mem_filterMap] at hh
  obtain ⟨l, hl, hhit⟩ := hh
  unfold shownHit at hhit
  split_ifs at hhit
  cases hhit
  exact ⟨l, hl, rsplitOnce_append l.path l.colon_notMem_number, rfl⟩

variable {content read grep query paths}

/-- **The two searches agree exactly when every line that contains the query survives being printed.** -/
theorem backEndsAgree_iff (hquery : query ≠ []) (hpaths : ∀ path ∈ paths, '\n' ∉ path)
    (hread : ReadsText content read paths) (hgrep : PrintsMatches content grep query paths) :
    BackEndsAgree content read grep query paths ↔
      ∀ l ∈ sourceLines content paths, query <:+: l.raw → SurvivesPrinting query l := by
  have hlive : liveGrepSearchCodePaths read grep query paths = _ := live_eq content hpaths hgrep
  have hinternal := internal_eq content hquery hread
  have hiff : (sourceLines content paths).filterMap (printedHit query) =
      (sourceLines content paths).filterMap (shownHit query) ↔
        ∀ l ∈ sourceLines content paths, query <:+: l.raw → SurvivesPrinting query l := by
    rw [filterMap_eq_filterMap_iff]
    · exact forall₂_congr fun l _ => printedHit_eq_iff hquery l
    · exact fun l _ => printedHit_isSome hquery
  rw [← hiff, BackEndsAgree, hlive, hinternal]
  constructor
  · rintro ⟨hits, hl, hi, -⟩
    exact Except.ok.inj (hl.trans hi.symm)
  · intro heq
    exact ⟨_, rfl, by rw [heq], by rw [heq]; exact fun h hh => location_of_shownHit content hh⟩

end Agreement

/-! ### A path with a colon -/

/-- What `grep -HnIF` does with its arguments. -/
def grepHnIF (content : List Char → List Char) (args : List (List Char)) : CommandRun :=
  match args with
  | _ :: _ :: query :: paths =>
    let out := grepOutput content query paths
    .exited (some (if out = [] then 1 else 0)) (Utf8.encode out) []
  | _ => .exited (some 2) [] []

theorem grepHnIF_prints (content : List Char → List Char) (query : List Char) (paths : List (List Char)) :
    PrintsMatches content (grepHnIF content) query paths := by
  intro chunk _ _
  by_cases hout : grepOutput content query chunk = []
  · exact ⟨1, [], Or.inr rfl, by simp only [grepHnIF, grepArgs, if_pos hout]⟩
  · exact ⟨0, [], Or.inl rfl, by simp only [grepHnIF, grepArgs, if_neg hout]⟩

/-- A file that holds `fn x` on a line. -/
def oneDefinition (_ : List Char) : List Char := ['f', 'n', ' ', 'x', '\n']

def readDefinition (path : List Char) : Except ReadError (List UInt8) :=
  .ok (Utf8.encode (oneDefinition path))

theorem readDefinition_reads (paths : List (List Char)) : ReadsText oneDefinition readDefinition paths := by
  intro path _
  refine ⟨rfl, ?_⟩
  rw [oneDefinition]
  decide

theorem sourceLines_oneDefinition (path : List Char) :
    sourceLines oneDefinition [path] = [⟨path, 0, ['f', 'n', ' ', 'x'], true⟩] := rfl

/-- In a file with a plain path the searches agree. -/
theorem backEndsAgree_plain :
    BackEndsAgree oneDefinition readDefinition (grepHnIF oneDefinition) ['x'] [['a', '.', 'r', 's']] :=
  (backEndsAgree_iff (by decide) (by decide) (readDefinition_reads _) (grepHnIF_prints _ _ _)).2 (by
    intro l hl _
    rw [sourceLines_oneDefinition, List.mem_singleton] at hl
    rw [hl]
    exact ⟨by decide, by decide, by decide, by decide⟩)

/-- A path with a colon is split in the middle, and the hit is attributed to a file that does not exist. -/
theorem colonPath_disagrees :
    ReadsText oneDefinition readDefinition [['a', ':', 'b']] ∧
      PrintsMatches oneDefinition (grepHnIF oneDefinition) ['x'] [['a', ':', 'b']] ∧
        liveGrepSearchCodePaths readDefinition (grepHnIF oneDefinition) ['x'] [['a', ':', 'b']] =
          .ok [⟨['a', ':', 'b'], ['1', ':', 'f', 'n', ' ', 'x']⟩] ∧
        internalLiteralSearchCodePaths readDefinition ['x'] [['a', ':', 'b']] =
          .ok [⟨['a', ':', 'b', ':', '1'], ['f', 'n', ' ', 'x']⟩] ∧
        ¬ BackEndsAgree oneDefinition readDefinition (grepHnIF oneDefinition) ['x'] [['a', ':', 'b']] := by
  have hread := readDefinition_reads [['a', ':', 'b']]
  have hgrep := grepHnIF_prints oneDefinition ['x'] [['a', ':', 'b']]
  have hlive : liveGrepSearchCodePaths readDefinition (grepHnIF oneDefinition) ['x'] [['a', ':', 'b']] =
      .ok [⟨['a', ':', 'b'], ['1', ':', 'f', 'n', ' ', 'x']⟩] := by
    rw [live_eq oneDefinition (by decide) hgrep]
    exact congrArg Except.ok (by decide)
  have hinternal : internalLiteralSearchCodePaths readDefinition ['x'] [['a', ':', 'b']] =
      .ok [⟨['a', ':', 'b', ':', '1'], ['f', 'n', ' ', 'x']⟩] := by
    rw [internal_eq oneDefinition (by decide) hread]
    exact congrArg Except.ok (by decide)
  refine ⟨hread, hgrep, hlive, hinternal, ?_⟩
  rintro ⟨hits, hl, hi, -⟩
  rw [hlive] at hl
  rw [hinternal] at hi
  have heq := Except.ok.inj (hl.trans hi.symm)
  revert heq
  decide

end Greppy
