/-
**Splitting identifiers into words.**

`camel_split` (`crates/store/src/fts.rs`) breaks identifiers of every casing convention into lower
case words separated by spaces; the search code takes the words of what it returns.  It reads one
character at a time, with the neighbours and three flags about what came before.  Whitespace resets
everything it remembers, so splitting a text is splitting its words one by one.

Which characters are alphanumeric is a matter of the Unicode tables, which are a parameter here.
-/

import Greppy.RustStr

set_option autoImplicit false

namespace Greppy

/-! ### The words of a text -/

/-- `str::split_whitespace`. -/
def words (s : List Char) : List (List Char) :=
  (s.splitOnP isWhitespace).filter fun w => !w.isEmpty

@[simp] theorem words_nil : words [] = [] := rfl

variable {c : Char} {s : List Char} {p : Char → Bool}

/-- **Whitespace separates words.** -/
theorem words_append_space (hc : isWhitespace c = true) (s t : List Char) :
    words (s ++ c :: t) = words s ++ words t := by
  rw [words, List.splitOnP_append_cons s t hc, List.filter_append]
  rfl

theorem words_cons_space (hc : isWhitespace c = true) (t : List Char) :
    words (c :: t) = words t := words_append_space hc [] t

theorem words_concat_space (hc : isWhitespace c = true) (s : List Char) :
    words (s ++ [c]) = words s := by
  rw [words_append_space hc, words_nil, List.append_nil]

theorem words_eq_singleton (hne : s ≠ []) (h : ∀ c ∈ s, isWhitespace c = false) :
    words s = [s] := by
  rw [words, List.splitOnP_eq_singleton h, List.filter_singleton]
  cases s with
  | nil => exact absurd rfl hne
  | cons c s => rfl

theorem words_dropWhile (hp : ∀ c, p c = true → isWhitespace c = true) (s : List Char) :
    words (s.dropWhile p) = words s := by
  induction s with
  | nil => rfl
  | cons c s ih =>
    cases hc : p c with
    | true => rw [List.dropWhile_cons_of_pos hc, ih, words_cons_space (hp c hc)]
    | false => rw [List.dropWhile_cons_of_neg (by simp [hc])]

theorem words_reverse_dropWhile (hp : ∀ c, p c = true → isWhitespace c = true) (s : List Char) :
    words (s.dropWhile p).reverse = words s.reverse := by
  induction s with
  | nil => rfl
  | cons c s ih =>
    cases hc : p c with
    | true =>
      rw [List.dropWhile_cons_of_pos hc, ih, List.reverse_cons, words_concat_space (hp c hc)]
    | false => rw [List.dropWhile_cons_of_neg (by simp [hc])]

theorem ne_nil_of_mem_words {w : List Char} (h : w ∈ words s) : w ≠ [] := by
  rw [words, List.mem_filter] at h
  simpa using h.2

theorem eq_false_of_mem_splitOnP : ∀ part ∈ s.splitOnP p, ∀ d ∈ part, p d = false := by
  induction s with
  | nil =>
    intro part hpart d hd
    rw [List.splitOnP_nil, List.mem_singleton] at hpart
    rw [hpart] at hd
    cases hd
  | cons a s ih =>
    obtain ⟨first, rest, hsplit⟩ := List.exists_cons_of_ne_nil (List.splitOnP_ne_nil p s)
    rw [hsplit] at ih
    intro part hpart d hd
    rw [List.splitOnP_cons_eq_if_modifyHead, hsplit] at hpart
    cases ha : p a with
    | true =>
      rw [if_pos ha] at hpart
      rcases List.mem_cons.1 hpart with rfl | hpart
      · cases hd
      · exact ih part hpart d hd
    | false =>
      rw [if_neg (by rw [ha]; decide), List.modifyHead_cons] at hpart
      rcases List.mem_cons.1 hpart with rfl | hpart
      · rcases List.mem_cons.1 hd with rfl | hd
        · exact ha
        · exact ih first List.mem_cons_self d hd
      · exact ih part (List.mem_cons_of_mem _ hpart) d hd

theorem not_space_of_mem_words {w : List Char} (h : w ∈ words s) (hc : c ∈ w) :
    isWhitespace c = false :=
  eq_false_of_mem_splitOnP w (List.mem_of_mem_filter h) c hc

def joinWords (ws : List (List Char)) : List Char := [' '].intercalate ws

theorem joinWords_concat {ws : List (List Char)} (h : ws ≠ []) (w : List Char) :
    joinWords (ws ++ [w]) = joinWords ws ++ ' ' :: w := by
  induction ws with
  | nil => exact absurd rfl h
  | cons v ws ih =>
    cases ws with
    | nil => simp [joinWords, List.intercalate]
    | cons v' ws =>
      have hrest := ih (List.cons_ne_nil v' ws)
      simp only [joinWords, List.intercalate, List.cons_append, List.intersperse_cons_cons,
        List.flatten_cons, List.append_assoc] at hrest ⊢
      rw [hrest]

theorem joinWords_cons (w : List Char) (ws : List (List Char)) : ∃ rest, joinWords (w :: ws) = w ++ rest := by
  cases ws with
  | nil => exact ⟨[], by rw [joinWords, List.intercalate_singleton, List.append_nil]⟩
  | cons v ws => exact ⟨[' '] ++ joinWords (v :: ws), by
      rw [joinWords, List.intercalate_cons_cons, List.append_assoc]
      rfl⟩

theorem trimWhitespace_joinWords {ws : List (List Char)} (hne : ∀ w ∈ ws, w ≠ [])
    (hspace : ∀ w ∈ ws, ∀ c ∈ w, isWhitespace c = false) : trimWhitespace (joinWords ws) = joinWords ws := by
  cases ws with
  | nil => rfl
  | cons w ws =>
    have hfront : (joinWords (w :: ws)).dropWhile isWhitespace = joinWords (w :: ws) := by
      obtain ⟨rest, hrest⟩ := joinWords_cons w ws
      obtain ⟨c, w', rfl⟩ := List.exists_cons_of_ne_nil (hne w List.mem_cons_self)
      have hc := hspace _ List.mem_cons_self c List.mem_cons_self
      rw [hrest, List.cons_append, List.dropWhile_cons_of_neg (by rw [hc]; decide)]
    rw [trimWhitespace_eq, hfront, List.rdropWhile_eq_self_iff]
    intro hjoin
    -- the last character is that of the last word
    have hlast : ∃ front v, joinWords (w :: ws) = front ++ v ∧ v ∈ w :: ws := by
      cases hws : (w :: ws).dropLast with
      | nil =>
        have hone := List.dropLast_append_getLast (List.cons_ne_nil w ws)
        rw [hws, List.nil_append] at hone
        refine ⟨[], _, ?_, List.getLast_mem (List.cons_ne_nil w ws)⟩
        conv_lhs => rw [← hone]
        rw [joinWords, List.intercalate_singleton, List.nil_append]
      | cons v front =>
        have hmany := List.dropLast_append_getLast (List.cons_ne_nil w ws)
        refine ⟨joinWords (w :: ws).dropLast ++ [' '], _, ?_, List.getLast_mem (List.cons_ne_nil w ws)⟩
        conv_lhs => rw [← hmany]
        rw [joinWords_concat (by rw [hws]; exact List.cons_ne_nil _ _), List.append_assoc]
        rfl
    obtain ⟨front, v, happ, hv⟩ := hlast
    have hvne := hne v hv
    have hgetLast : (joinWords (w :: ws)).getLast hjoin = v.getLast hvne := by
      simp only [happ, List.getLast_append_of_ne_nil _ hvne]
    rw [hgetLast, hspace v hv _ (List.getLast_mem hvne)]
    decide

/-! ### `camel_split` -/

section Tokens

-- `char::is_alphanumeric`, the Unicode property; nothing below depends on its table.
variable (isAlphanumeric : Char → Bool)

/-- `if !out.is_empty() && !out.ends_with(' ') { out.push(' ') }`; `out` is kept reversed. -/
def pushBoundary (out : List Char) : List Char :=
  match out with
  | [] => []
  | c :: _ => if c = ' ' then out else ' ' :: out

/-- The loop of `camel_split` over the characters still to come.  `prev` is the character before
them and the flags are `prev_lower`, `prev_digit` and `prev_boundary`. -/
def camelSplitLoop (out : List Char) (prev : Option Char) (prevLower prevDigit prevBoundary : Bool) :
    List Char → List Char
  | [] => out
  | c :: rest =>
    if c = '_' ∨ c = '-' ∨ c = '.' ∨ c = '/' then
      camelSplitLoop (pushBoundary out) (some c) false false true rest
    else if c.isUpper then
      let nextLower := (rest.head?.map Char.isLower).getD false
      let split := !prevBoundary &&
        (prevLower || ((prev.map Char.isUpper).getD false && nextLower) || prevDigit)
      let out := if split then ' ' :: out else out
      camelSplitLoop (c.toLower :: out) (some c) false false false rest
    else if isAlphanumeric c then
      camelSplitLoop (c.toLower :: out) (some c) c.isLower c.isDigit false rest
    else
      camelSplitLoop (pushBoundary out) (some c) false false true rest

/-- `camel_split`.  Blanks are the only white space the loop emits, so `trim` drops blanks. -/
def camelSplit (input : String) : String :=
  let out := camelSplitLoop isAlphanumeric [] none false false true input.toList
  String.ofList ((out.dropWhile (· = ' ')).reverse.dropWhile (· = ' '))

/-- `fts_tokens`: the two derived columns of a posting. -/
def ftsTokens (name qualifiedName : String) : String × String :=
  let tokens := camelSplit isAlphanumeric name
  let qtokens := camelSplit isAlphanumeric qualifiedName
  (tokens ++ " " ++ qtokens, qtokens)

end Tokens

example : camelSplit Char.isAlphanum "XMLParser_v2Loader" = "xml parser v2 loader" := by decide

/-- What the code asks the Unicode tables: `char::is_alphanumeric` and `str::to_lowercase`.  No
whitespace is alphanumeric. -/
structure Unicode where
  isAlphanumeric : Char → Bool
  toLowercase : List Char → List Char
  not_alphanumeric_of_space : ∀ c, isWhitespace c = true → isAlphanumeric c = false

/-- The words of what `camel_split` returns. -/
def tokens (u : Unicode) (s : List Char) : List (List Char) :=
  words (camelSplit u.isAlphanumeric (String.ofList s)).toList

/-- The tokens of the words of a text. -/
def expandTokens (u : Unicode) (s : List Char) : List (List Char) := (words s).flatMap (tokens u)

/-- What the loop of `camel_split` puts out for a text, reversed. -/
def splitOut (u : Unicode) (s : List Char) : List Char :=
  camelSplitLoop u.isAlphanumeric [] none false false true s

theorem tokens_eq_words (u : Unicode) (s : List Char) :
    tokens u s = words (splitOut u s).reverse := by
  have hblank : ∀ c : Char, decide (c = ' ') = true → isWhitespace c = true := by
    intro c hc
    rw [of_decide_eq_true hc]
    decide
  rw [tokens, camelSplit, String.toList_ofList, String.toList_ofList, words_dropWhile hblank,
    words_reverse_dropWhile hblank]
  rfl

/-! ### Whitespace separates -/

/-- Reversed output that a word can follow: there is none yet, or it ends in a space. -/
def EndsWord (out : List Char) : Prop := out = [] ∨ ∃ s, out = ' ' :: s

theorem endsWord_pushBoundary (out : List Char) : EndsWord (pushBoundary out) := by
  cases out with
  | nil => exact Or.inl rfl
  | cons c out =>
    rw [pushBoundary]
    split
    · rename_i hc
      exact Or.inr ⟨out, by rw [hc]⟩
    · exact Or.inr ⟨c :: out, rfl⟩

theorem words_pushBoundary (out : List Char) :
    words (pushBoundary out).reverse = words out.reverse := by
  cases out with
  | nil => rfl
  | cons c out =>
    rw [pushBoundary]
    split
    · rfl
    · rw [List.reverse_cons (a := ' '), words_concat_space (by decide)]

variable {old : List Char} {c : Char}

/-- What was put out before a word began has no influence on the space pushed after it. -/
theorem pushBoundary_append (h : EndsWord old) (out : List Char) :
    pushBoundary (out ++ old) = pushBoundary out ++ old := by
  cases out with
  | nil =>
    rcases h with rfl | ⟨s, rfl⟩
    · rfl
    · rfl
  | cons c out =>
    rw [List.cons_append, pushBoundary, pushBoundary]
    split
    · rfl
    · rfl

/-- **The loop does not look at the words put out before.** -/
theorem camelSplitLoop_append (isAlphanumeric : Char → Bool) (h : EndsWord old)
    (input out : List Char) (prev : Option Char) (prevLower prevDigit prevBoundary : Bool) :
    camelSplitLoop isAlphanumeric (out ++ old) prev prevLower prevDigit prevBoundary input =
      camelSplitLoop isAlphanumeric out prev prevLower prevDigit prevBoundary input ++ old := by
  induction input generalizing out prev prevLower prevDigit prevBoundary with
  | nil => rfl
  | cons c rest ih =>
    rw [camelSplitLoop, camelSplitLoop]
    split
    · rw [pushBoundary_append h, ih]
    split
    · by_cases hsplit : (!prevBoundary && (prevLower || ((prev.map Char.isUpper).getD false &&
          (rest.head?.map Char.isLower).getD false) || prevDigit)) = true
      · simp only [hsplit, if_true, ← List.cons_append, ih]
      · simp only [hsplit, Bool.false_eq_true, if_false, ← List.cons_append, ih]
    split
    · rw [← List.cons_append, ih]
    · rw [pushBoundary_append h, ih]

/-- At the beginning of a word the loop does not look at the character before it. -/
theorem camelSplitLoop_prev (isAlphanumeric : Char → Bool) (input out : List Char)
    (prev : Option Char) :
    camelSplitLoop isAlphanumeric out prev false false true input =
      camelSplitLoop isAlphanumeric out none false false true input := by
  cases input with
  | nil => rfl
  | cons c rest => simp only [camelSplitLoop, Bool.not_true, Bool.false_and]

theorem toNat_of_isUpper (h : c.isUpper = true) : 65 ≤ c.toNat ∧ c.toNat ≤ 90 :=
  of_decide_eq_true (p := 'A'.val ≤ c.val ∧ c.val ≤ 'Z'.val) h

theorem toNat_of_isLower (h : c.isLower = true) : 97 ≤ c.toNat ∧ c.toNat ≤ 122 := by
  have hboth : (decide ('a'.val ≤ c.val) && decide (c.val ≤ 'z'.val)) = true := h
  rw [Bool.and_eq_true, decide_eq_true_eq, decide_eq_true_eq] at hboth
  exact hboth

theorem isWhitespace_of_letter (h : c.isUpper = true ∨ c.isLower = true) :
    isWhitespace c = false := by
  have hrange : 65 ≤ c.toNat ∧ c.toNat ≤ 122 := by
    rcases h with hupper | hlower
    · have := toNat_of_isUpper hupper
      omega
    · have := toNat_of_isLower hlower
      omega
  rw [isWhitespace, decide_eq_false_iff_not]
  omega

theorem camelSplitLoop_space (u : Unicode) (hc : isWhitespace c = true) (rest out : List Char)
    (prev : Option Char) (prevLower prevDigit prevBoundary : Bool) :
    camelSplitLoop u.isAlphanumeric out prev prevLower prevDigit prevBoundary (c :: rest) =
      splitOut u rest ++ pushBoundary out := by
  have hupper : ¬ c.isUpper = true := by
    intro h
    rw [isWhitespace_of_letter (Or.inl h)] at hc
    cases hc
  have halnum : ¬ u.isAlphanumeric c = true := by
    rw [u.not_alphanumeric_of_space c hc]
    exact nofun
  rw [camelSplitLoop, if_neg hupper, if_neg halnum, ite_self, camelSplitLoop_prev]
  exact camelSplitLoop_append _ (endsWord_pushBoundary out) rest [] none false false true

theorem head?_isLower_space (hc : isWhitespace c = true) (input rest : List Char) :
    ((input ++ c :: rest).head?.map Char.isLower).getD false =
      (input.head?.map Char.isLower).getD false := by
  cases input with
  | nil =>
    cases h : c.isLower with
    | false => simp [h]
    | true =>
      rw [isWhitespace_of_letter (Or.inr h)] at hc
      cases hc
  | cons d input => rfl

theorem camelSplitLoop_append_space (u : Unicode) (hc : isWhitespace c = true)
    (input rest out : List Char) (prev : Option Char) (prevLower prevDigit prevBoundary : Bool) :
    camelSplitLoop u.isAlphanumeric out prev prevLower prevDigit prevBoundary (input ++ c :: rest) =
      splitOut u rest ++ pushBoundary
        (camelSplitLoop u.isAlphanumeric out prev prevLower prevDigit prevBoundary input) := by
  induction input generalizing out prev prevLower prevDigit prevBoundary with
  | nil => exact camelSplitLoop_space u hc rest out prev prevLower prevDigit prevBoundary
  | cons d input ih =>
    simp only [List.cons_append, camelSplitLoop, head?_isLower_space hc, ih]
    split
    · rfl
    split
    · rfl
    split
    · rfl
    · rfl

theorem words_append_endsWord (h : EndsWord old) (out : List Char) :
    words (old.reverse ++ out) = words old.reverse ++ words out := by
  rcases h with rfl | ⟨s, rfl⟩
  · rfl
  · rw [List.reverse_cons, List.append_assoc, List.singleton_append, words_append_space (by decide),
      words_concat_space (by decide)]

/-- **Whitespace separates what `camel_split` makes of a text.** -/
theorem tokens_append_space (u : Unicode) (hc : isWhitespace c = true) (s t : List Char) :
    tokens u (s ++ c :: t) = tokens u s ++ tokens u t := by
  rw [tokens_eq_words, tokens_eq_words, tokens_eq_words, splitOut, camelSplitLoop_append_space u hc,
    List.reverse_append, words_append_endsWord (endsWord_pushBoundary _), words_pushBoundary]
  rfl

@[simp] theorem tokens_nil (u : Unicode) : tokens u [] = [] := rfl

/-- **Splitting a text word by word gives the tokens of the text.** -/
theorem expandTokens_eq_tokens (u : Unicode) (s : List Char) : expandTokens u s = tokens u s := by
  induction hlen : s.length using Nat.strongRecOn generalizing s with
  | _ n ih =>
    by_cases h : ∀ c ∈ s, isWhitespace c = false
    · -- a single word, or nothing
      cases s with
      | nil => rfl
      | cons c s =>
        rw [expandTokens, words_eq_singleton (List.cons_ne_nil c s) h, List.flatMap_singleton]
    · push Not at h
      obtain ⟨c, hmem, hc⟩ := h
      obtain ⟨before, after, rfl⟩ := List.append_of_mem hmem
      have hspace : isWhitespace c = true := by simpa using hc
      rw [List.length_append, List.length_cons] at hlen
      have hbefore := ih _ (by omega) before rfl
      have hafter := ih _ (by omega) after rfl
      rw [expandTokens] at hbefore hafter
      rw [expandTokens, words_append_space hspace, List.flatMap_append, hbefore, hafter,
        tokens_append_space u hspace]

def Unicode.ascii : Unicode where
  isAlphanumeric := Char.isAlphanum
  toLowercase := List.map Char.toLower
  not_alphanumeric_of_space := by
    intro c hc
    have hletter : ¬ (c.isUpper = true ∨ c.isLower = true) := by
      intro h
      rw [isWhitespace_of_letter h] at hc
      cases hc
    have hdigit : c.isDigit = false := by
      rw [isWhitespace, decide_eq_true_eq] at hc
      rw [Char.isDigit, Bool.and_eq_false_iff]
      have hval : c.toNat = c.val.toNat := rfl
      simp only [ge_iff_le, decide_eq_false_iff_not, UInt32.le_iff_toNat_le]
      have h0 : '0'.val.toNat = 48 := rfl
      have h9 : '9'.val.toNat = 57 := rfl
      omega
    have hnone : (c.isUpper || c.isLower) = false := by simpa using hletter
    change ((c.isUpper || c.isLower) || c.isDigit) = false
    rw [hnone, hdigit, Bool.or_false]

end Greppy
