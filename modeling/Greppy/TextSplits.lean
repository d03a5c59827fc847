/-
**Splitting a text at a separator.**

A program that reads back a sentence with values in it looks for the fixed texts between them, and takes the
first occurrence of each.  Where the separator cannot overlap itself, because its first character does not
occur in it again, two occurrences are apart or the same.  The first occurrence is then the intended one
exactly if the value in front does not contain the separator.

Main definitions:

* `splitOnceText` — what stands before and after the first occurrence of a separator;
* `Unbordered` — the first character of the separator does not occur in it again.

Main results:

* `splitOnceText_eq_some_iff`, `splitOnceText_eq_none_iff` — **the first occurrence**;
* `Unbordered.apart` — two occurrences are apart or the same;
* `splitOnceText_append` — a text without the separator is read back from in front of one;
* `infix_append_cons_iff` — a text does not reach across a character that it does not hold.
-/

import Mathlib.Data.List.Infix

set_option autoImplicit false

namespace Text

variable {α : Type}

/-! ### Occurrences -/

/-- The first character of the separator does not occur in it again. -/
def Unbordered (sep : List α) : Prop := ∃ c t, sep = c :: t ∧ c ∉ t

/-- **Two occurrences** of a separator that cannot overlap itself are apart. -/
theorem Unbordered.apart {sep p q a b : List α} (hsep : Unbordered sep) (h : p ++ sep ++ q = a ++ sep ++ b)
    (hlt : p.length < a.length) : ∃ r, a = p ++ sep ++ r ∧ q = r ++ sep ++ b := by
  obtain ⟨c, t, rfl, hc⟩ := hsep
  rw [List.append_assoc, List.append_assoc] at h
  obtain ⟨m, rfl, hm⟩ := (List.append_eq_append_iff.1 h).resolve_right fun ⟨m, hp, _⟩ => by
    rw [hp, List.length_append] at hlt
    omega
  cases m with
  | nil => simp at hlt
  | cons d m =>
    rw [List.cons_append, List.cons_append, List.cons.injEq] at hm
    obtain ⟨rfl, hm⟩ := hm
    obtain ⟨r, rfl, hr⟩ | ⟨n, hn, hq⟩ := List.append_eq_append_iff.1 hm
    · exact ⟨r, by rw [List.append_assoc, List.cons_append], by rw [hr, List.append_assoc]⟩
    · -- the second occurrence would begin inside the first
      cases n with
      | nil =>
        rw [List.append_nil] at hn
        rw [List.nil_append] at hq
        exact ⟨[], by simp [hn], by simpa using hq.symm⟩
      | cons e n =>
        obtain ⟨rfl, -⟩ := List.cons.inj (hq : c :: (t ++ b) = e :: (n ++ q))
        rw [hn] at hc
        exact absurd (List.mem_append_right m List.mem_cons_self) hc

/-- A text does not reach across a character that it does not hold. -/
theorem infix_append_cons_iff {t a b : List α} {c : α} (hc : c ∉ t) :
    t <:+: a ++ c :: b ↔ t <:+: a ∨ t <:+: b := by
  constructor
  · rintro ⟨p, q, h⟩
    rw [List.append_assoc] at h
    obtain ⟨m, rfl, hm⟩ | ⟨m, rfl, hm⟩ := List.append_eq_append_iff.1 h
    · obtain ⟨n, rfl, hn⟩ | ⟨n, ht, hn⟩ := List.append_eq_append_iff.1 hm
      · exact .inl ⟨p, n, by rw [List.append_assoc]⟩
      · cases n with
        | nil =>
          rw [List.append_nil] at ht
          exact .inl ⟨p, [], by rw [ht, List.append_nil]⟩
        | cons d n =>
          rw [List.cons_append, List.cons.injEq] at hn
          rw [ht, ← hn.1] at hc
          exact absurd (List.mem_append_right m List.mem_cons_self) hc
    · cases m with
      | nil =>
        rw [List.nil_append] at hm
        cases t with
        | nil => exact .inl (List.nil_infix)
        | cons d t =>
          rw [List.cons_append, List.cons.injEq] at hm
          rw [hm.1] at hc
          exact absurd List.mem_cons_self hc
      | cons d m =>
        rw [List.cons_append, List.cons.injEq] at hm
        exact .inr ⟨m, q, by rw [List.append_assoc, ← hm.2]⟩
  · rintro (⟨p, q, rfl⟩ | ⟨p, q, rfl⟩)
    · exact ⟨p, q ++ c :: b, by simp⟩
    · exact ⟨a ++ c :: p, q, by simp⟩

/-! ### Splitting -/

section Split

variable [DecidableEq α]

/-- `str::split_once`: what stands before and after the first occurrence of a separator. -/
def splitOnceText (sep : List α) : List α → Option (List α × List α)
  | [] => if sep = [] then some ([], []) else none
  | c :: s =>
    if sep <+: c :: s then some ([], (c :: s).drop sep.length)
    else (splitOnceText sep s).map fun parts => (c :: parts.1, parts.2)

/-- **The first occurrence** of the separator. -/
theorem splitOnceText_eq_some_iff {sep s a b : List α} :
    splitOnceText sep s = some (a, b) ↔
      s = a ++ sep ++ b ∧ ∀ p q, s = p ++ sep ++ q → a.length ≤ p.length := by
  induction s generalizing a with
  | nil =>
    rw [splitOnceText]
    constructor
    · intro h
      split at h
      · rename_i hsep
        cases h
        exact ⟨by rw [hsep]; rfl, fun _ _ _ => Nat.zero_le _⟩
      · cases h
    · rintro ⟨happ, -⟩
      obtain ⟨hfront, rfl⟩ := List.append_eq_nil_iff.1 happ.symm
      obtain ⟨rfl, rfl⟩ := List.append_eq_nil_iff.1 hfront
      rw [if_pos rfl]
  | cons c s ih =>
    rw [splitOnceText]
    split
    · rename_i hsep
      obtain ⟨rest, hrest⟩ := hsep
      rw [← hrest, List.drop_left, Option.some.injEq, Prod.mk.injEq]
      constructor
      · rintro ⟨rfl, rfl⟩
        exact ⟨rfl, fun _ _ _ => Nat.zero_le _⟩
      · rintro ⟨happ, hfirst⟩
        have ha := List.length_eq_zero_iff.1 (Nat.le_zero.1 (hfirst [] rest rfl))
        rw [ha, List.nil_append] at happ
        exact ⟨ha.symm, List.append_cancel_left happ⟩
    · rename_i hsep
      rw [Option.map_eq_some_iff]
      constructor
      · rintro ⟨⟨a', b'⟩, hparts, heq⟩
        cases heq
        obtain ⟨happ, hfirst⟩ := ih.1 hparts
        refine ⟨by rw [happ]; rfl, fun p q hpq => ?_⟩
        cases p with
        | nil => exact absurd ⟨q, hpq.symm⟩ hsep
        | cons d p =>
          rw [List.cons_append, List.cons_append, List.cons.injEq] at hpq
          exact Nat.succ_le_succ (hfirst p q hpq.2)
      · rintro ⟨happ, hfirst⟩
        cases a with
        | nil => exact absurd ⟨b, happ.symm⟩ hsep
        | cons d a =>
          rw [List.cons_append, List.cons_append, List.cons.injEq] at happ
          obtain ⟨rfl, hs⟩ := happ
          refine ⟨(a, b), ih.2 ⟨hs, fun p q hpq => ?_⟩, rfl⟩
          exact Nat.le_of_succ_le_succ (hfirst (c :: p) q (by rw [hpq]; rfl))

theorem splitOnceText_eq_none_iff {sep s : List α} : splitOnceText sep s = none ↔ ¬ sep <:+: s := by
  constructor
  · intro hnone hinfix
    induction s with
    | nil =>
      rw [splitOnceText, if_pos (List.infix_nil.1 hinfix)] at hnone
      cases hnone
    | cons c s ih =>
      rw [splitOnceText] at hnone
      split at hnone
      · cases hnone
      · rename_i hsep
        exact ih (Option.map_eq_none_iff.1 hnone) ((List.infix_cons_iff.1 hinfix).resolve_left hsep)
  · intro hno
    cases h : splitOnceText sep s with
    | none => rfl
    | some parts =>
      obtain ⟨happ, -⟩ := splitOnceText_eq_some_iff.1 h
      exact absurd ⟨parts.1, parts.2, happ.symm⟩ hno

/-- **A text without the separator** is read back. -/
theorem splitOnceText_append {sep a : List α} (hsep : Unbordered sep) (ha : ¬ sep <:+: a) (b : List α) :
    splitOnceText sep (a ++ sep ++ b) = some (a, b) := by
  refine splitOnceText_eq_some_iff.2 ⟨rfl, fun p q hpq => ?_⟩
  by_contra hlt
  obtain ⟨r, hr, -⟩ := hsep.apart hpq.symm (by omega)
  exact ha ⟨p, r, hr.symm⟩

end Split

end Text
