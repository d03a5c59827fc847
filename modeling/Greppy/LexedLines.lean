/-
**The contents of literals and the end of a definition.**

`definition_end_idx` and `definition_end_idx_full` balance the braces of a definition and skip what stands
in quotes and behind `//`.  Whether a quote closes a literal they decide by the one character before it.
A line is taken here as what it lexes into, so that one line can be compared with another that differs in
the contents of its literals and its comment only.

An escaped backslash before the closing quote is the exception: the quote has a backslash before it and is
taken for an escaped one, and what follows on the line is skipped.
-/

import Greppy.DefinitionSpan

set_option autoImplicit false

namespace Greppy

/-! ### Lines and what they lex into -/

inductive Quote
  | double
  | single

def Quote.char : Quote → Char
  | .double => '"'
  | .single => '\''

abbrev CodeChar : Type := {c : Char // c ≠ '"' ∧ c ≠ '\''}

/-- What stands in a literal: a character that is neither the quote nor a backslash, or any behind a
backslash. -/
inductive LiteralChar (q : Quote) : Type
  | plain (c : Char) (h : c ≠ q.char ∧ c ≠ '\\')
  | escaped (c : Char)
  deriving DecidableEq

def LiteralChar.text {q : Quote} : LiteralChar q → List Char
  | .plain c _ => [c]
  | .escaped c => ['\\', c]

def LiteralChar.last {q : Quote} : LiteralChar q → Char
  | .plain c _ => c
  | .escaped c => c

inductive Lexeme
  | code (c : CodeChar)
  | literal (q : Quote) (contents : List (LiteralChar q))

def literalText (q : Quote) (contents : List (LiteralChar q)) : List Char :=
  q.char :: (contents.flatMap LiteralChar.text ++ [q.char])

def Lexeme.text : Lexeme → List Char
  | .code c => [c.val]
  | .literal q contents => literalText q contents

def commentText : Option (List Char) → List Char
  | none => []
  | some comment => '/' :: '/' :: comment

/-- Lexemes with a comment behind them. -/
def textOf (lexemes : List Lexeme) (comment : Option (List Char)) : List Char :=
  lexemes.flatMap Lexeme.text ++ commentText comment

/-- The comment begins where two slashes stand in the code for the first time. -/
def CommentFirst : List Lexeme → Option (List Char) → Prop
  | [], _ => True
  | .code c :: rest, comment =>
    (c.val = '/' → (textOf rest comment).head? ≠ some '/') ∧ CommentFirst rest comment
  | .literal _ _ :: rest, comment => CommentFirst rest comment

/-- A line that lexes into code, literals and perhaps a comment. -/
structure LexedLine where
  lexemes : List Lexeme
  comment : Option (List Char)
  first : CommentFirst lexemes comment

def LexedLine.text (line : LexedLine) : List Char := textOf line.lexemes line.comment

inductive Mark
  | code (c : CodeChar)
  | literal (q : Quote)

def Lexeme.mark : Lexeme → Mark
  | .code c => .code c
  | .literal q _ => .literal q

/-- **What is left of a line when the contents of its literals and its comment are forgotten.** -/
def LexedLine.shape (line : LexedLine) : List Mark × Bool :=
  (line.lexemes.map Lexeme.mark, line.comment.isSome)

/-- Contents that end with an escaped backslash. -/
def EndsInBackslash {q : Quote} (contents : List (LiteralChar q)) : Prop :=
  contents.getLast? = some (.escaped '\\')

instance {q : Quote} (contents : List (LiteralChar q)) : Decidable (EndsInBackslash contents) :=
  inferInstanceAs (Decidable (contents.getLast? = some (.escaped '\\')))

/-- No literal among the lexemes ends with an escaped backslash. -/
def Clean (lexemes : List Lexeme) : Prop :=
  ∀ q contents, .literal q contents ∈ lexemes → ¬ EndsInBackslash contents

/-! ### A literal -/

theorem scanChars_contents {q : Quote} (contents : List (LiteralChar q)) (rest : List Char) (depth : ℤ)
    (opened : Bool) (prev : Char) :
    scanChars (contents.flatMap LiteralChar.text ++ rest) depth opened (some q.char) prev =
      scanChars rest depth opened (some q.char) ((contents.getLast?.map LiteralChar.last).getD prev) := by
  induction contents generalizing prev with
  | nil => rfl
  | cons item contents ih =>
    have hlast : ((item :: contents).getLast?.map LiteralChar.last).getD prev =
        (contents.getLast?.map LiteralChar.last).getD item.last := by
      cases contents with
      | nil => rfl
      | cons next rest => rw [List.getLast?_cons_cons, List.getLast?_cons]; rfl
    rw [hlast, List.flatMap_cons, List.append_assoc]
    cases item with
    | plain c h =>
      rw [LiteralChar.text, List.singleton_append, scanChars, if_neg fun hc => h.1 hc.1]
      exact ih c
    | escaped c =>
      have hslash : ¬ ('\\' = q.char ∧ prev ≠ '\\') := by
        rintro ⟨heq, -⟩
        cases q <;> cases heq
      rw [LiteralChar.text, List.cons_append, List.singleton_append, scanChars, if_neg hslash,
        scanChars, if_neg fun hc => hc.2 rfl]
      exact ih c

theorem last_eq_backslash_iff {q : Quote} (contents : List (LiteralChar q)) :
    (contents.getLast?.map LiteralChar.last).getD q.char = '\\' ↔ EndsInBackslash contents := by
  rw [EndsInBackslash]
  cases contents.getLast? with
  | none => cases q <;> simp [Quote.char]
  | some item =>
    cases item with
    | plain c h => simpa [LiteralChar.last] using h.2
    | escaped c => simp [LiteralChar.last]

/-- **A literal is skipped, unless it ends with an escaped backslash**: then the scan stays in it. -/
theorem scanChars_literal {q : Quote} (contents : List (LiteralChar q)) (rest : List Char) (depth : ℤ)
    (opened : Bool) (prev : Char) :
    scanChars (literalText q contents ++ rest) depth opened none prev =
      scanChars rest depth opened (if EndsInBackslash contents then some q.char else none) q.char := by
  have hquote : q.char = '"' ∨ q.char = '\'' := by
    cases q
    · exact Or.inl rfl
    · exact Or.inr rfl
  have hslash : ¬ (q.char = '/' ∧
      (contents.flatMap LiteralChar.text ++ [q.char] ++ rest).head? = some '/') := by
    rintro ⟨heq, -⟩
    cases q <;> cases heq
  rw [literalText, List.cons_append, scanChars, if_neg hslash, if_pos hquote, List.append_assoc,
    scanChars_contents, List.singleton_append, scanChars]
  by_cases hends : EndsInBackslash contents
  · rw [if_pos hends, if_neg fun h => h.2 ((last_eq_backslash_iff contents).2 hends)]
  · rw [if_neg hends, if_pos ⟨rfl, fun h => hends ((last_eq_backslash_iff contents).1 h)⟩]

/-! ### A line -/

def scanCode : List Mark → ℤ → Bool → Option (ℤ × Bool)
  | [], depth, opened => some (depth, opened)
  | .literal _ :: rest, depth, opened => scanCode rest depth opened
  | .code c :: rest, depth, opened =>
    if c.val = '{' then scanCode rest (depth + 1) true
    else if c.val = '}' ∧ opened = true then
      if depth - 1 ≤ 0 then none else scanCode rest (depth - 1) opened
    else if c.val = ';' ∧ opened = false then none
    else scanCode rest depth opened

theorem scanChars_textOf {lexemes : List Lexeme} {comment : Option (List Char)}
    (hfirst : CommentFirst lexemes comment) (hclean : Clean lexemes) (depth : ℤ) (opened : Bool)
    (prev : Char) :
    scanChars (textOf lexemes comment) depth opened none prev =
      scanCode (lexemes.map Lexeme.mark) depth opened := by
  induction lexemes generalizing depth opened prev with
  | nil =>
      cases comment with
      | none => rfl
      | some comment =>
          rw [textOf, List.flatMap_nil, List.nil_append, commentText, scanChars, if_pos ⟨rfl, rfl⟩]
          rfl
  | cons lexeme rest ih =>
      have hrest : Clean rest := fun q contents hmem => hclean q contents (List.mem_cons_of_mem _ hmem)
      have htext : textOf (lexeme :: rest) comment = lexeme.text ++ textOf rest comment := by
        rw [textOf, textOf, List.flatMap_cons, List.append_assoc]
      rw [htext, List.map_cons]
      cases lexeme with
      | code c =>
          have hslash : ¬ (c.val = '/' ∧ (textOf rest comment).head? = some '/') :=
            fun h => hfirst.1 h.1 h.2
          have hquote : ¬ (c.val = '"' ∨ c.val = '\'') := not_or.2 c.property
          rw [Lexeme.text, List.singleton_append, scanChars, if_neg hslash, if_neg hquote, Lexeme.mark,
            scanCode]
          simp only [ih hfirst.2 hrest]
      | literal q contents =>
          have hends := hclean q contents List.mem_cons_self
          rw [Lexeme.text, scanChars_literal, if_neg hends, Lexeme.mark, scanCode]
          exact ih hfirst hrest depth opened q.char

/-- **What a line without such literals does to the depth, its code alone does.** -/
theorem scanChars_text {line : LexedLine} (hclean : Clean line.lexemes) (depth : ℤ) (opened : Bool)
    (prev : Char) :
    scanChars line.text depth opened none prev = scanCode line.shape.1 depth opened :=
  scanChars_textOf line.first hclean depth opened prev

/-! ### The front of a line -/

/-- The code before the first literal. -/
def frontOf : List Mark → List Char
  | .code c :: rest => c.val :: frontOf rest
  | _ => []

/-- What follows the front is empty, or begins with a quote or a slash. -/
def Fenced (tail : List Char) : Prop := ∀ c ∈ tail.head?, c = '"' ∨ c = '\'' ∨ c = '/'

/-- A line that is code and nothing else. -/
def OnlyCode (shape : List Mark × Bool) : Prop := (∀ mark ∈ shape.1, ∃ c, mark = .code c) ∧ shape.2 = false

theorem textOf_eq_front (lexemes : List Lexeme) (comment : Option (List Char)) :
    ∃ tail, textOf lexemes comment = frontOf (lexemes.map Lexeme.mark) ++ tail ∧ Fenced tail ∧
      (tail = [] ↔ OnlyCode (lexemes.map Lexeme.mark, comment.isSome)) := by
  induction lexemes with
  | nil =>
    refine ⟨commentText comment, rfl, ?_, ?_⟩
    · cases comment with
      | none => intro c hc; cases hc
      | some comment =>
        intro c hc
        cases hc
        exact Or.inr (Or.inr rfl)
    · cases comment <;> simp [commentText, OnlyCode]
  | cons lexeme rest ih =>
    have htext : textOf (lexeme :: rest) comment = lexeme.text ++ textOf rest comment := by
      rw [textOf, textOf, List.flatMap_cons, List.append_assoc]
    cases lexeme with
    | code c =>
      obtain ⟨tail, heq, hfence, hempty⟩ := ih
      refine ⟨tail, ?_, hfence, ?_⟩
      · rw [htext, heq]
        rfl
      · rw [hempty, OnlyCode, OnlyCode, List.map_cons, List.forall_mem_cons]
        exact and_congr_left' ⟨fun h => ⟨⟨c, rfl⟩, h⟩, fun h => h.2⟩
    | literal q contents =>
      refine ⟨literalText q contents ++ textOf rest comment, htext, ?_, ?_⟩
      · intro c hc
        cases hc
        cases q
        · exact Or.inl rfl
        · exact Or.inr (Or.inl rfl)
      · simp [OnlyCode, Lexeme.mark, literalText]

/-- A line is its front and what is fenced off from it; its shape says whether there is such a rest. -/
theorem text_eq_front (line : LexedLine) :
    ∃ tail, line.text = frontOf line.shape.1 ++ tail ∧ Fenced tail ∧ (tail = [] ↔ OnlyCode line.shape) :=
  textOf_eq_front line.lexemes line.comment

theorem trimWhitespace_eq_nil_iff (text : List Char) :
    trimWhitespace text = [] ↔ ∀ c ∈ text, isWhitespace c = true := by
  constructor
  · intro h
    rw [trimWhitespace, List.reverse_eq_nil_iff, List.dropWhile_eq_nil_iff] at h
    rw [← List.dropWhile_eq_nil_iff]
    by_contra hne
    have hhead := h _ (List.mem_reverse.2 (List.head_mem hne))
    rw [List.head_dropWhile_not isWhitespace hne] at hhead
    cases hhead
  · intro h
    rw [trimWhitespace, List.dropWhile_eq_nil_iff.2 h]
    rfl

/-- A word without quotes and slashes. -/
def isPlainWord (word : List Char) : Bool := word.all fun c => c != '"' && c != '\'' && c != '/'

section Fence

variable {tail : List Char} (hfence : Fenced tail)

include hfence

theorem dropWhile_fenced (front : List Char) :
    (front ++ tail).dropWhile isWhitespace = front.dropWhile isWhitespace ++ tail := by
  induction front with
  | nil =>
    cases tail with
    | nil => rfl
    | cons c rest =>
      have hc : isWhitespace c = false := by
        obtain rfl | rfl | rfl := hfence c rfl <;> decide
      rw [List.nil_append, List.dropWhile_cons, hc]
      rfl
  | cons c front ih =>
    rw [List.cons_append, List.dropWhile_cons, List.dropWhile_cons]
    split
    · exact ih
    · rfl

theorem leadingWhitespaceLen_fenced (front : List Char) :
    leadingWhitespaceLen (front ++ tail) = leadingWhitespaceLen front := by
  induction front with
  | nil =>
    cases tail with
    | nil => rfl
    | cons c rest =>
      have hc : isWhitespace c = false := by
        obtain rfl | rfl | rfl := hfence c rfl <;> decide
      rw [List.nil_append, leadingWhitespaceLen, List.takeWhile_cons, hc]
      rfl
  | cons c front ih =>
    rw [leadingWhitespaceLen] at ih ⊢
    rw [leadingWhitespaceLen, List.cons_append, List.takeWhile_cons, List.takeWhile_cons]
    split
    · rw [List.length_cons, List.length_cons, ih]
      rfl
    · rfl

/-- A word without quotes and slashes begins a line if it begins the front. -/
theorem isPrefixOf_fenced {word : List Char} (hword : isPlainWord word = true) (front : List Char) :
    word.isPrefixOf (front ++ tail) = word.isPrefixOf front := by
  induction word generalizing front with
  | nil => simp
  | cons w word ih =>
    rw [isPlainWord, List.all_cons, Bool.and_eq_true] at hword
    obtain ⟨hw, hrest⟩ := hword
    cases front with
    | nil =>
      cases tail with
      | nil => rfl
      | cons c rest =>
        have hne : (w == c) = false := by
          rw [beq_eq_false_iff_ne]
          rintro rfl
          obtain rfl | rfl | rfl := hfence w rfl
          · exact absurd hw (by decide)
          · exact absurd hw (by decide)
          · exact absurd hw (by decide)
        rw [List.nil_append, List.isPrefixOf_cons_cons, hne]
        rfl
    | cons c front =>
      rw [List.cons_append, List.isPrefixOf_cons_cons, List.isPrefixOf_cons_cons, ih hrest]

theorem stripPrefix?_fenced {word : List Char} (hword : isPlainWord word = true) (front : List Char) :
    stripPrefix? word (front ++ tail) = (stripPrefix? word front).map (· ++ tail) := by
  rw [stripPrefix?, stripPrefix?, isPrefixOf_fenced hfence hword]
  cases hpre : word.isPrefixOf front with
  | false => rfl
  | true =>
    have hle : word.length ≤ front.length := (List.isPrefixOf_iff_prefix.1 hpre).length_le
    rw [if_pos rfl, if_pos rfl, Option.map_some, List.drop_append_of_le_length hle]

theorem looksLikeDefinitionStart_fenced (front : List Char) :
    looksLikeDefinitionStart (front ++ tail) = looksLikeDefinitionStart front := by
  have hstrip (word : String) (hword : isPlainWord word.toList = true) (text : List Char) :=
    stripPrefix?_fenced hfence hword text
  have hword (word : String) (hword : isPlainWord word.toList = true) (text : List Char) :=
    isPrefixOf_fenced hfence hword text
  have hgetD (o : Option (List Char)) (text : List Char) :
      (o.map (· ++ tail)).getD (text ++ tail) = o.getD text ++ tail := by
    cases o <;> rfl
  unfold looksLikeDefinitionStart
  dsimp only
  rw [dropWhile_fenced hfence, hstrip "pub " (by decide), hstrip "pub(crate) " (by decide),
    hstrip "public " (by decide), hstrip "private " (by decide), hstrip "protected " (by decide)]
  simp only [← Option.map_or]
  rw [hgetD, hstrip "async " (by decide), hgetD]
  simp only [List.any_cons, List.any_nil]
  rw [hword "fn " (by decide), hword "def " (by decide), hword "class " (by decide),
    hword "struct " (by decide), hword "enum " (by decide), hword "trait " (by decide),
    hword "interface " (by decide), hword "function " (by decide), hword "export function " (by decide),
    hword "export class " (by decide)]

theorem blank_fenced (front : List Char) :
    trimWhitespace (front ++ tail) = [] ↔ trimWhitespace front = [] ∧ tail = [] := by
  rw [trimWhitespace_eq_nil_iff, trimWhitespace_eq_nil_iff, List.forall_mem_append]
  refine and_congr_right fun _ => ⟨fun h => ?_, fun h => by rw [h]; exact List.forall_mem_nil _⟩
  cases tail with
  | nil => rfl
  | cons c rest =>
    have hc : isWhitespace c = false := by
      obtain rfl | rfl | rfl := hfence c rfl <;> decide
    rw [h c List.mem_cons_self] at hc
    cases hc

end Fence

section Shape

variable {line line' : LexedLine} (h : line.shape = line'.shape)

include h

theorem leadingWhitespaceLen_text : leadingWhitespaceLen line.text = leadingWhitespaceLen line'.text := by
  obtain ⟨tail, heq, hfence, -⟩ := text_eq_front line
  obtain ⟨tail', heq', hfence', -⟩ := text_eq_front line'
  rw [heq, heq', leadingWhitespaceLen_fenced hfence, leadingWhitespaceLen_fenced hfence', h]

theorem looksLikeDefinitionStart_text :
    looksLikeDefinitionStart line.text = looksLikeDefinitionStart line'.text := by
  obtain ⟨tail, heq, hfence, -⟩ := text_eq_front line
  obtain ⟨tail', heq', hfence', -⟩ := text_eq_front line'
  rw [heq, heq', looksLikeDefinitionStart_fenced hfence, looksLikeDefinitionStart_fenced hfence', h]

theorem blank_text : trimWhitespace line.text = [] ↔ trimWhitespace line'.text = [] := by
  obtain ⟨tail, heq, hfence, hempty⟩ := text_eq_front line
  obtain ⟨tail', heq', hfence', hempty'⟩ := text_eq_front line'
  rw [heq, heq', blank_fenced hfence, blank_fenced hfence', hempty, hempty', h]

end Shape

/-! ### Some lines -/

def texts (lines : List LexedLine) : List (List Char) := lines.map LexedLine.text

/-- The lines that a scan from a line on ever looks at. -/
def scanWindow (lines : List LexedLine) (startIdx : ℕ) : List LexedLine := (lines.drop startIdx).take 401

def emptyLine : LexedLine := ⟨[], none, trivial⟩

theorem texts_getD (lines : List LexedLine) (k : ℕ) : (texts lines).getD k [] = (lines.getD k emptyLine).text := by
  have hempty : ([] : List Char) = emptyLine.text := rfl
  rw [texts, hempty, List.getD_eq_getElem?_getD, List.getElem?_map, Option.getD_map,
    List.getD_eq_getElem?_getD]

theorem texts_take (lines : List LexedLine) (n : ℕ) : (texts lines).take n = texts (lines.take n) :=
  List.map_take.symm

theorem linesBetween_texts (lines : List LexedLine) (a b : ℕ) :
    linesBetween (texts lines) a b = texts ((lines.take (b + 1)).drop a) := by
  rw [linesBetween, texts, texts, ← List.map_take, ← List.map_drop]

theorem mem_scanWindow {lines : List LexedLine} {startIdx last : ℕ} (hlast : last ≤ startIdx + 400)
    {line : LexedLine} (h : line ∈ (lines.take (last + 1)).drop startIdx) :
    line ∈ scanWindow lines startIdx := by
  rw [List.drop_take] at h
  exact (List.take_prefix_take_left (by omega)).subset h

theorem scanWindow_take {lines : List LexedLine} {startIdx n : ℕ} {line : LexedLine}
    (h : line ∈ scanWindow (lines.take n) startIdx) : line ∈ scanWindow lines startIdx := by
  rw [scanWindow, List.drop_take, List.take_take] at h
  exact (List.take_prefix_take_left (Nat.min_le_left _ _)).subset h

/-- The test of `definition_end_idx_full` at the beginning of a line: whether another definition starts on
it, at the indentation of the first one. -/
def nextStart (lines : List (List Char)) (startIdx idx : ℕ) (raw : List Char) (depth : ℤ) (opened : Bool) :
    Option ℕ :=
  if startIdx < idx ∧ opened = true ∧ 0 < depth ∧
      leadingWhitespaceLen raw ≤ leadingWhitespaceLen (lines.getD startIdx []) ∧
        looksLikeDefinitionStart raw = true then
    some (previousNonblankIdx lines startIdx (idx - 1))
  else none

theorem definitionEndIdxFull_eq (lines : List (List Char)) (startIdx maxBytes : ℕ) :
    definitionEndIdxFull lines startIdx maxBytes =
      match scanLines (nextStart lines startIdx)
          (linesBetween lines startIdx (derivedDefinitionScanEndIdx lines startIdx maxBytes)) startIdx 0
          false with
      | .inl idx => idx
      | .inr opened =>
        if opened then derivedDefinitionScanEndIdx lines startIdx maxBytes
        else definitionEndIdx (lines.take (derivedDefinitionScanEndIdx lines startIdx maxBytes + 1))
          startIdx := rfl

section Shapes

variable {lines lines' : List LexedLine} (hshape : lines.map LexedLine.shape = lines'.map LexedLine.shape)

include hshape

theorem length_eq_of_shape : lines.length = lines'.length := by
  have hlen := congrArg List.length hshape
  rwa [List.length_map, List.length_map] at hlen

theorem getD_shape (k : ℕ) : (lines.getD k emptyLine).shape = (lines'.getD k emptyLine).shape := by
  have hat := congrArg (fun shapes => (shapes[k]?).getD emptyLine.shape) hshape
  rw [List.getElem?_map, List.getElem?_map, Option.getD_map, Option.getD_map] at hat
  rw [List.getD_eq_getElem?_getD, List.getD_eq_getElem?_getD, hat]

theorem previousNonblankIdx_texts (startIdx idx : ℕ) :
    previousNonblankIdx (texts lines) startIdx idx = previousNonblankIdx (texts lines') startIdx idx := by
  induction idx with
  | zero => rfl
  | succ idx ih =>
    rw [previousNonblankIdx, previousNonblankIdx, ih, texts_getD, texts_getD]
    simp only [blank_text (getD_shape hshape (idx + 1))]

theorem nextStart_texts (startIdx idx : ℕ) (depth : ℤ) (opened : Bool) {line line' : LexedLine}
    (hline : line.shape = line'.shape) :
    nextStart (texts lines) startIdx idx line.text depth opened =
      nextStart (texts lines') startIdx idx line'.text depth opened := by
  have hindent : leadingWhitespaceLen ((texts lines).getD startIdx []) =
      leadingWhitespaceLen ((texts lines').getD startIdx []) := by
    rw [texts_getD, texts_getD]
    exact leadingWhitespaceLen_text (getD_shape hshape startIdx)
  rw [nextStart, nextStart, hindent, leadingWhitespaceLen_text hline, looksLikeDefinitionStart_text hline,
    previousNonblankIdx_texts hshape]

omit hshape in
/-- **Lines of one shape are scanned alike**, where the tests at their beginnings agree. -/
theorem scanLines_texts {stop stop' : ℕ → List Char → ℤ → Bool → Option ℕ}
    (hstop : ∀ idx depth opened (line line' : LexedLine), line.shape = line'.shape →
      stop idx line.text depth opened = stop' idx line'.text depth opened)
    {lines lines' : List LexedLine} (hshape : lines.map LexedLine.shape = lines'.map LexedLine.shape)
    (hclean : ∀ line ∈ lines, Clean line.lexemes) (hclean' : ∀ line ∈ lines', Clean line.lexemes)
    (idx : ℕ) (depth : ℤ) (opened : Bool) :
    scanLines stop (texts lines) idx depth opened = scanLines stop' (texts lines') idx depth opened := by
  induction lines generalizing lines' idx depth opened with
  | nil =>
    rw [List.map_nil, eq_comm, List.map_eq_nil_iff] at hshape
    rw [hshape]
    rfl
  | cons line rest ih =>
    obtain ⟨line', rest', rfl, hline, hrest⟩ := List.map_eq_cons_iff.1 hshape.symm
    have hscan : scanChars line.text depth opened none '\x00' =
        scanChars line'.text depth opened none '\x00' := by
      rw [scanChars_text (hclean line List.mem_cons_self),
        scanChars_text (hclean' line' List.mem_cons_self), hline]
    rw [texts, texts, List.map_cons, List.map_cons, scanLines, scanLines,
      hstop idx depth opened line line' hline.symm, hscan]
    have hnext := ih hrest.symm (fun l hl => hclean l (List.mem_cons_of_mem _ hl))
      (fun l hl => hclean' l (List.mem_cons_of_mem _ hl))
    rw [texts, texts] at hnext
    simp only [hnext]

variable {startIdx : ℕ} (hclean : ∀ line ∈ scanWindow lines startIdx, Clean line.lexemes)
  (hclean' : ∀ line ∈ scanWindow lines' startIdx, Clean line.lexemes)

include hclean hclean'

theorem scanLines_window (stop stop' : ℕ → List Char → ℤ → Bool → Option ℕ)
    (hstop : ∀ idx depth opened (line line' : LexedLine), line.shape = line'.shape →
      stop idx line.text depth opened = stop' idx line'.text depth opened)
    {last : ℕ} (hlast : last ≤ startIdx + 400) :
    scanLines stop (linesBetween (texts lines) startIdx last) startIdx 0 false =
      scanLines stop' (linesBetween (texts lines') startIdx last) startIdx 0 false := by
  rw [linesBetween_texts, linesBetween_texts]
  refine scanLines_texts hstop ?_ (fun line hline => hclean line (mem_scanWindow hlast hline))
    (fun line hline => hclean' line (mem_scanWindow hlast hline)) startIdx 0 false
  rw [List.map_drop, List.map_take, hshape, List.map_drop, List.map_take]

/-- `definition_end_idx` sees the shape of the lines alone. -/
theorem definitionEndIdx_texts :
    definitionEndIdx (texts lines) startIdx = definitionEndIdx (texts lines') startIdx := by
  have hlen : (texts lines).length = (texts lines').length := by
    rw [texts, texts, List.length_map, List.length_map, length_eq_of_shape hshape]
  have hlast : min ((texts lines).length - 1) (startIdx + 400) ≤ startIdx + 400 := by omega
  have hscan := scanLines_window hshape hclean hclean' (fun _ _ _ _ => none) (fun _ _ _ _ => none)
    (fun _ _ _ _ _ _ => rfl) hlast
  unfold definitionEndIdx
  rw [← hlen]
  simp only [hscan]

/-- `definition_end_idx_full` sees the shape of the lines alone, as far as it scans equally many. -/
theorem definitionEndIdxFull_texts {maxBytes : ℕ}
    (hwindow : derivedDefinitionScanEndIdx (texts lines) startIdx maxBytes =
      derivedDefinitionScanEndIdx (texts lines') startIdx maxBytes) :
    definitionEndIdxFull (texts lines) startIdx maxBytes =
      definitionEndIdxFull (texts lines') startIdx maxBytes := by
  have hlast := derivedDefinitionScanEndIdx_le (texts lines) startIdx maxBytes
  have hscan := scanLines_window hshape hclean hclean' (nextStart (texts lines) startIdx)
    (nextStart (texts lines') startIdx) (fun idx depth opened _ _ hline =>
      nextStart_texts hshape startIdx idx depth opened hline) hlast
  have hshort : definitionEndIdx
        ((texts lines).take (derivedDefinitionScanEndIdx (texts lines) startIdx maxBytes + 1)) startIdx =
      definitionEndIdx
        ((texts lines').take (derivedDefinitionScanEndIdx (texts lines) startIdx maxBytes + 1)) startIdx := by
    rw [texts_take, texts_take]
    refine definitionEndIdx_texts ?_ (fun line hline => hclean line (scanWindow_take hline))
      fun line hline => hclean' line (scanWindow_take hline)
    rw [List.map_take, hshape, List.map_take]
  rw [definitionEndIdxFull_eq, definitionEndIdxFull_eq, ← hwindow, hscan, hshort]

end Shapes

/-! ### When contents move no end -/

/-- **What other contents must not change**: the end of a definition lies between its first and the last
line, and it stays the same; so does the end within the window of `definition_end_idx_full`, where both
have the same window. -/
structure EndsAlike (lines lines' : List LexedLine) (startIdx maxBytes : ℕ) : Prop where
  first_le : startIdx ≤ definitionEndIdx (texts lines) startIdx
  le_last : definitionEndIdx (texts lines) startIdx ≤ lines.length - 1
  same : definitionEndIdx (texts lines) startIdx = definitionEndIdx (texts lines') startIdx
  first_le_full : startIdx ≤ definitionEndIdxFull (texts lines) startIdx maxBytes
  full_le_window : definitionEndIdxFull (texts lines) startIdx maxBytes ≤
    derivedDefinitionScanEndIdx (texts lines) startIdx maxBytes
  same_full : derivedDefinitionScanEndIdx (texts lines) startIdx maxBytes =
      derivedDefinitionScanEndIdx (texts lines') startIdx maxBytes →
    definitionEndIdxFull (texts lines) startIdx maxBytes =
      definitionEndIdxFull (texts lines') startIdx maxBytes

/-- Contents do not move the end if no literal that is scanned ends with an escaped backslash. -/
theorem endsAlike_of_clean {lines lines' : List LexedLine}
    (hshape : lines.map LexedLine.shape = lines'.map LexedLine.shape) {startIdx : ℕ}
    (hstart : startIdx < lines.length) (maxBytes : ℕ)
    (hclean : ∀ line ∈ scanWindow lines startIdx, Clean line.lexemes)
    (hclean' : ∀ line ∈ scanWindow lines' startIdx, Clean line.lexemes) :
    EndsAlike lines lines' startIdx maxBytes := by
  have hlen : (texts lines).length = lines.length := List.length_map _
  have hin : startIdx < (texts lines).length := by rwa [hlen]
  have hlt := definitionEndIdx_lt hin
  exact
    { first_le := le_definitionEndIdx hin
      le_last := by omega
      same := definitionEndIdx_texts hshape hclean hclean'
      first_le_full := le_definitionEndIdxFull hin
      full_le_window := definitionEndIdxFull_le hin
      same_full := definitionEndIdxFull_texts hshape hclean hclean' }

/-- A block on one line with a literal in it, and a closing brace on the next. -/
def bracedLiteral (q : Quote) (contents : List (LiteralChar q)) : List LexedLine :=
  [{ lexemes := [.code ⟨'{', by decide⟩, .literal q contents, .code ⟨'}', by decide⟩]
     comment := none
     first := by simp [CommentFirst] },
    { lexemes := [.code ⟨'}', by decide⟩]
      comment := none
      first := by simp [CommentFirst] }]

/-- The block ends on its line, unless the literal ends with an escaped backslash. -/
theorem definitionEndIdx_bracedLiteral (q : Quote) (contents : List (LiteralChar q)) :
    definitionEndIdx (texts (bracedLiteral q contents)) 0 = if EndsInBackslash contents then 1 else 0 := by
  have htexts : texts (bracedLiteral q contents) =
      ['{' :: (literalText q contents ++ ['}']), ['}']] := by
    simp [texts, bracedLiteral, LexedLine.text, textOf, Lexeme.text, commentText]
  have hline : scanChars ('{' :: (literalText q contents ++ ['}'])) 0 false none '\x00' =
      if EndsInBackslash contents then some (1, true) else none := by
    have hopen : scanChars ('{' :: (literalText q contents ++ ['}'])) 0 false none '\x00' =
        scanChars (literalText q contents ++ ['}']) 1 true none '{' := rfl
    rw [hopen, scanChars_literal]
    by_cases hends : EndsInBackslash contents
    · rw [if_pos hends, if_pos hends]
      cases q <;> rfl
    · rw [if_neg hends, if_neg hends]
      rfl
  have hwindow : linesBetween ['{' :: (literalText q contents ++ ['}']), ['}']] 0 1 =
      ['{' :: (literalText q contents ++ ['}']), ['}']] := rfl
  have hscan : definitionEndIdx ['{' :: (literalText q contents ++ ['}']), ['}']] 0 =
      match scanLines (fun _ _ _ _ => none) ['{' :: (literalText q contents ++ ['}']), ['}']] 0 0 false with
      | .inl idx => idx
      | .inr opened => if opened then 1 else 0 := rfl
  rw [htexts, hscan, scanLines]
  simp only [hline]
  by_cases hends : EndsInBackslash contents
  · rw [if_pos hends, if_pos hends]
    rfl
  · rw [if_neg hends, if_neg hends]

/-- Every literal on a line is empty or of a kind. -/
def LiteralsOf (kind : (q : Quote) → List (LiteralChar q) → Prop) (line : LexedLine) : Prop :=
  ∀ q contents, .literal q contents ∈ line.lexemes → contents = [] ∨ kind q contents

end Greppy
