/-
**The `LIKE` operator.**

`text LIKE pattern ESCAPE '\'` matches a text against a pattern in which `%` stands for any characters, `_`
for any one character, and a character behind the escape character for itself.  Letters of the ASCII
alphabet match in either case.  A text that is to be found literally is quoted: each of the three
characters gets the escape character in front.  What such a pattern matches is then what contains the text,
or starts with it, when the case of letters is disregarded.

Main definitions:

* `SqlLike.like` — the operator;
* `SqlLike.quote` — a text as a pattern for itself;
* `SqlLike.fold` — a text without the case of its letters.

Main results:

* `SqlLike.like_quote_append` — a quoted text matches itself, but for case;
* `SqlLike.like_contains`, `SqlLike.like_startsWith` — **what the patterns of a search match**.
-/

import Mathlib.Data.List.Infix

set_option autoImplicit false

namespace SqlLike

/-! ### The operator -/

def sameLetter (c x : Char) : Bool := decide (c.toLower = x.toLower)

/-- The operator; a pattern that ends in the escape character matches nothing. -/
def like : List Char → List Char → Bool
  | [], text => text.isEmpty
  | '%' :: pattern, text => text.tails.any fun rest => like pattern rest
  | ['\\'], _ => false
  | '\\' :: _ :: _, [] => false
  | '\\' :: c :: pattern, x :: text => sameLetter c x && like pattern text
  | _ :: _, [] => false
  | '_' :: pattern, _ :: text => like pattern text
  | c :: pattern, x :: text => sameLetter c x && like pattern text

/-- The characters with a meaning of their own. -/
def isSpecial (c : Char) : Bool := c == '\\' || c == '%' || c == '_'

def quote (text : List Char) : List Char :=
  text.flatMap fun c => if isSpecial c then ['\\', c] else [c]

/-- A text without the case of its letters. -/
def fold (text : List Char) : List Char := text.map Char.toLower

/-! ### Quoted texts -/

section Quoted

variable {pattern text : List Char}

@[simp] theorem fold_nil : fold [] = [] := rfl

@[simp] theorem fold_cons (c : Char) : fold (c :: text) = c.toLower :: fold text := rfl

@[simp] theorem fold_append (a b : List Char) : fold (a ++ b) = fold a ++ fold b := List.map_append

@[simp] theorem quote_cons (c : Char) :
    quote (c :: text) = (if isSpecial c then ['\\', c] else [c]) ++ quote text := rfl

/-- A character that has no meaning of its own matches itself, but for case. -/
theorem like_cons_of_not_special {c : Char} (hc : isSpecial c = false) :
    like (c :: pattern) text = true ↔
      ∃ x rest, text = x :: rest ∧ c.toLower = x.toLower ∧ like pattern rest = true := by
  simp only [isSpecial, Bool.or_eq_false_iff, beq_eq_false_iff_ne] at hc
  obtain ⟨⟨hescape, hpercent⟩, hunderscore⟩ := hc
  cases text with
  | nil => simp [like, hescape]
  | cons x rest => simp [like, sameLetter, hescape]

theorem like_escape {c : Char} : like ('\\' :: c :: pattern) text = true ↔
    ∃ x rest, text = x :: rest ∧ c.toLower = x.toLower ∧ like pattern rest = true := by
  cases text with
  | nil => simp [like]
  | cons x rest => simp [like, sameLetter]

/-- **A quoted text matches itself, but for case.** -/
theorem like_quote_append (s : List Char) : like (quote s ++ pattern) text = true ↔
    ∃ front rest, text = front ++ rest ∧ fold front = fold s ∧ like pattern rest = true := by
  induction s generalizing text with
  | nil => simp [quote, fold]
  | cons c s ih =>
    have hstep : like (quote (c :: s) ++ pattern) text = true ↔
        ∃ x rest, text = x :: rest ∧ c.toLower = x.toLower ∧
          like (quote s ++ pattern) rest = true := by
      rw [quote_cons]
      cases hc : isSpecial c with
      | true => exact like_escape
      | false => exact like_cons_of_not_special hc
    rw [hstep]
    constructor
    · rintro ⟨x, rest, rfl, hx, hlike⟩
      obtain ⟨front, rest, rfl, hfront, hlike⟩ := ih.1 hlike
      exact ⟨x :: front, rest, rfl, by rw [fold_cons, fold_cons, hx, hfront], hlike⟩
    · rintro ⟨front, rest, rfl, hfront, hlike⟩
      cases front with
      | nil => cases hfront
      | cons x front =>
        rw [fold_cons, fold_cons, List.cons.injEq] at hfront
        exact ⟨x, front ++ rest, rfl, hfront.1.symm, ih.2 ⟨front, rest, rfl, hfront.2, hlike⟩⟩

/-- Behind `%` the pattern may match any end of the text. -/
theorem like_percent : like ('%' :: pattern) text = true ↔
    ∃ rest, rest <:+ text ∧ like pattern rest = true := by
  simp only [like, List.any_eq_true, List.mem_tails]

theorem like_percent_nil : like ['%'] text = true :=
  like_percent.2 ⟨[], List.nil_suffix, rfl⟩

end Quoted

/-! ### Searches -/

section Searches

variable (s text : List Char)

/-- **A quoted text before `%` matches what starts with it**, but for case. -/
theorem like_startsWith : like (quote s ++ ['%']) text = true ↔ fold s <+: fold text := by
  rw [like_quote_append]
  constructor
  · rintro ⟨front, rest, rfl, hfront, -⟩
    rw [fold_append, hfront]
    exact List.prefix_append _ _
  · rintro ⟨tail, htail⟩
    obtain ⟨front, rest, rfl, hfront, -⟩ := List.map_eq_append_iff.1 htail.symm
    exact ⟨front, rest, rfl, hfront, like_percent_nil⟩

/-- **A quoted text between two `%` matches what contains it**, but for case. -/
theorem like_contains : like ('%' :: (quote s ++ ['%'])) text = true ↔ fold s <:+: fold text := by
  rw [like_percent]
  constructor
  · rintro ⟨rest, hrest, hlike⟩
    rw [like_startsWith] at hlike
    exact hlike.isInfix.trans (hrest.map Char.toLower).isInfix
  · rintro ⟨front, tail, h⟩
    rw [List.append_assoc] at h
    obtain ⟨a, b, rfl, -, hb⟩ := List.map_eq_append_iff.1 h.symm
    refine ⟨b, List.suffix_append a b, (like_startsWith s b).2 ?_⟩
    exact ⟨tail, hb.symm⟩

end Searches

end SqlLike
