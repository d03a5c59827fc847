/-
**So many of each group.**

A list is gone through from the front.  An element is kept as long as not so many of its group have been
kept already.  What is kept of a group are its first elements, in their order, and what is kept of the
beginning of a list is the beginning of what is kept of it.

* `PerGroup.cut` — what is kept, by what was kept before; `PerGroup.cutFrom` — the same, with counters;
* `PerGroup.take_cut_take_eq_iff` — **when the beginning of a list is enough**.
-/

import Mathlib.Data.List.Basic
import Mathlib.Data.List.Induction
import Mathlib.Data.List.TakeDrop

set_option autoImplicit false

namespace PerGroup

variable {α κ : Type} [DecidableEq κ] (key : α → κ) (cap : ℕ)

/-- An element is kept unless `cap` of its group have been. -/
def keepStep (kept : List α) (a : α) : List α :=
  if kept.countP (fun b => decide (key b = key a)) < cap then kept ++ [a] else kept

/-- At most `cap` elements of each group. -/
def cut (l : List α) : List α := l.foldl (keepStep key cap) []

/-- The same, with a counter for each group. -/
def cutFrom : (κ → ℕ) → List α → List α
  | _, [] => []
  | count, a :: l =>
    if count (key a) < cap then
      a :: cutFrom (Function.update count (key a) (count (key a) + 1)) l
    else cutFrom count l

variable {key cap} {l : List α}

theorem foldl_keepStep_eq (kept : List α) : l.foldl (keepStep key cap) kept =
    kept ++ cutFrom key cap (fun k => kept.countP fun b => decide (key b = k)) l := by
  induction l generalizing kept with
  | nil => rw [cutFrom, List.append_nil, List.foldl_nil]
  | cons a l ih =>
    rw [List.foldl_cons, keepStep, cutFrom]
    split
    · have hcount : (fun k => (kept ++ [a]).countP fun b => decide (key b = k)) =
          Function.update (fun k => kept.countP fun b => decide (key b = k)) (key a)
            ((kept.countP fun b => decide (key b = key a)) + 1) := by
        funext k
        rw [List.countP_append]
        by_cases hk : k = key a
        · rw [hk, Function.update_self]
          simp
        · rw [Function.update_of_ne hk]
          simp [Ne.symm hk]
      rw [ih, hcount, List.append_assoc, List.singleton_append]
    · exact ih kept

theorem cut_eq_cutFrom (l : List α) : cut key cap l = cutFrom key cap (fun _ => 0) l := by
  rw [cut, foldl_keepStep_eq, List.nil_append]
  rfl

theorem cut_append_singleton (a : α) : cut key cap (l ++ [a]) = keepStep key cap (cut key cap l) a := by
  rw [cut, List.foldl_append]
  rfl

theorem cut_map {β : Type} (f : β → α) (l : List β) :
    cut key cap (l.map f) = (cut (fun b => key (f b)) cap l).map f := by
  induction l using List.reverseRecOn with
  | nil => rfl
  | append_singleton l b ih =>
    rw [List.map_append, List.map_singleton, cut_append_singleton, cut_append_singleton, ih, keepStep,
      keepStep, List.countP_map, apply_ite (List.map f), List.map_append, List.map_singleton]
    rfl

theorem cut_prefix_append (l' : List α) : cut key cap l <+: cut key cap (l ++ l') := by
  rw [cut, cut, List.foldl_append, foldl_keepStep_eq (l.foldl (keepStep key cap) [])]
  exact List.prefix_append _ _

theorem cut_take_isPrefix (n : ℕ) : cut key cap (l.take n) <+: cut key cap l := by
  conv_rhs => rw [← List.take_append_drop n l]
  exact cut_prefix_append _

/-- A list begins as one that it is the beginning of, as far as it goes. -/
theorem take_eq_take_iff_of_prefix {l l' : List α} (h : l <+: l') (limit : ℕ) :
    l.take limit = l'.take limit ↔ min limit l'.length ≤ l.length := by
  obtain ⟨rest, rfl⟩ := h
  rw [List.length_append]
  constructor
  · intro heq
    have hlen := congrArg List.length heq
    rw [List.length_take, List.length_take, List.length_append] at hlen
    omega
  · intro hle
    rcases Nat.le_total limit l.length with hlimit | hlimit
    · rw [List.take_append_of_le_length hlimit]
    · have hrest : limit = l.length ∨ rest = [] := by
        by_cases hnil : rest = []
        · exact Or.inr hnil
        · have := List.length_pos_iff.2 hnil
          omega
      rcases hrest with rfl | rfl
      · rw [List.take_left, List.take_length]
      · rw [List.append_nil]

/-- **When the beginning of a list is enough**: when as much of it is kept as is asked for, or as much as is
kept of the whole list. -/
theorem take_cut_take_eq_iff (n limit : ℕ) :
    (cut key cap (l.take n)).take limit = (cut key cap l).take limit ↔
      min limit (cut key cap l).length ≤ (cut key cap (l.take n)).length :=
  take_eq_take_iff_of_prefix (cut_take_isPrefix n) limit

end PerGroup
