/-
**Reclaiming down to a low-water mark.**

A collector that has too much to keep goes through a list of candidates and gives them up one after
the other until what remains is at most the low-water mark.  Candidates that turn out to be held by
someone else are passed over and free nothing.

Main definitions:

* `reclaim weight low remaining l` — the candidates of `l` that are given up, in order.

Main results:

* `reclaim_prefix`, `lt_of_proper_prefix_reclaim`, `reclaim_reaches` — they are a prefix of the list,
  the shortest that reaches the mark, or all of it;
* `filter_reclaim` — passing over candidates that free nothing is reclaiming without them.
-/

import Mathlib.Algebra.BigOperators.Group.List.Basic
import Mathlib.Algebra.GroupWithZero.Nat
import Mathlib.Data.List.Infix

set_option autoImplicit false

section Reclaim

variable {α : Type}

def totalWeight (weight : α → ℕ) (l : List α) : ℕ := (l.map weight).sum

@[simp] theorem totalWeight_nil (weight : α → ℕ) : totalWeight weight [] = 0 := rfl

@[simp] theorem totalWeight_cons (weight : α → ℕ) (a : α) (l : List α) :
    totalWeight weight (a :: l) = weight a + totalWeight weight l := by
  simp [totalWeight]

theorem totalWeight_append (weight : α → ℕ) (l l' : List α) :
    totalWeight weight (l ++ l') = totalWeight weight l + totalWeight weight l' := by
  simp [totalWeight]

theorem totalWeight_perm (weight : α → ℕ) {l l' : List α} (h : l.Perm l') :
    totalWeight weight l = totalWeight weight l' :=
  (h.map weight).sum_eq

theorem totalWeight_filter_add (weight : α → ℕ) (p : α → Bool) (l : List α) :
    totalWeight weight (l.filter p) + totalWeight weight (l.filter fun a => !p a) =
      totalWeight weight l := by
  induction l with
  | nil => rfl
  | cons a l ih =>
    cases hp : p a with
    | true =>
      rw [List.filter_cons_of_pos hp, List.filter_cons_of_neg (by simp [hp]), totalWeight_cons,
        totalWeight_cons]
      omega
    | false =>
      rw [List.filter_cons_of_neg (by simp [hp]), List.filter_cons_of_pos (by simp [hp]),
        totalWeight_cons, totalWeight_cons]
      omega

/-- Two selections that exclude each other weigh no more than everything. -/
theorem totalWeight_filter_add_le (weight : α → ℕ) {p q : α → Bool} (l : List α)
    (h : ∀ a ∈ l, p a = true → q a = false) :
    totalWeight weight (l.filter p) + totalWeight weight (l.filter q) ≤ totalWeight weight l := by
  induction l with
  | nil => exact le_rfl
  | cons a l ih =>
    have ih := ih fun b hb => h b (List.mem_cons_of_mem _ hb)
    rw [totalWeight_cons]
    cases hp : p a with
    | true =>
      rw [List.filter_cons_of_pos hp, totalWeight_cons,
        List.filter_cons_of_neg (by simp [h a List.mem_cons_self hp])]
      omega
    | false =>
      rw [List.filter_cons_of_neg (by simp [hp])]
      cases hq : q a with
      | true =>
        rw [List.filter_cons_of_pos hq, totalWeight_cons]
        omega
      | false =>
        rw [List.filter_cons_of_neg (by simp [hq])]
        omega

theorem totalWeight_prefix_le (weight : α → ℕ) {l l' : List α} (h : l <+: l') :
    totalWeight weight l ≤ totalWeight weight l' := by
  obtain ⟨more, rfl⟩ := h
  rw [totalWeight_append]
  omega

/-- The candidates that are given up, starting from `remaining`. -/
def reclaim (weight : α → ℕ) (low : ℕ) : ℕ → List α → List α
  | _, [] => []
  | remaining, a :: rest =>
    if remaining ≤ low then [] else a :: reclaim weight low (remaining - weight a) rest

variable {weight : α → ℕ} {low : ℕ}

theorem reclaim_prefix (remaining : ℕ) (l : List α) : reclaim weight low remaining l <+: l := by
  induction l generalizing remaining with
  | nil => exact List.prefix_rfl
  | cons a rest ih =>
    rw [reclaim]
    split
    · exact List.nil_prefix
    · exact (List.prefix_cons_inj a).2 (ih (remaining - weight a))

/-- Nothing is given up once the mark is reached: before each of them more than the mark remained. -/
theorem lt_of_proper_prefix_reclaim {remaining : ℕ} {l given : List α}
    (h : given <+: reclaim weight low remaining l) (hne : given ≠ reclaim weight low remaining l) :
    low < remaining - totalWeight weight given := by
  induction l generalizing remaining given with
  | nil =>
    rw [reclaim, List.prefix_nil] at h
    exact absurd h hne
  | cons a rest ih =>
    rw [reclaim] at h hne
    by_cases hle : remaining ≤ low
    · rw [if_pos hle, List.prefix_nil] at h
      rw [if_pos hle] at hne
      exact absurd h hne
    · rw [if_neg hle] at h hne
      cases given with
      | nil =>
        rw [totalWeight_nil]
        omega
      | cons b given =>
        obtain ⟨rfl, htail⟩ := List.cons_prefix_cons.1 h
        have hlt := ih htail fun heq => hne (by rw [heq])
        rw [totalWeight_cons]
        omega

/-- In the end the mark is reached, or everything has been given up. -/
theorem reclaim_reaches (remaining : ℕ) (l : List α) :
    remaining - totalWeight weight (reclaim weight low remaining l) ≤ low ∨
      reclaim weight low remaining l = l := by
  induction l generalizing remaining with
  | nil => exact Or.inr rfl
  | cons a rest ih =>
    rw [reclaim]
    split
    · rename_i hle
      exact Or.inl (by rw [totalWeight_nil]; omega)
    · rcases ih (remaining - weight a) with hle | heq
      · refine Or.inl ?_
        rw [totalWeight_cons]
        omega
      · exact Or.inr (by rw [heq])

/-- Passing over candidates that free nothing is reclaiming without them. -/
theorem filter_reclaim (p : α → Bool) (remaining : ℕ) (l : List α) :
    (reclaim (fun a => if p a then weight a else 0) low remaining l).filter p =
      reclaim weight low remaining (l.filter p) := by
  induction l generalizing remaining with
  | nil => rfl
  | cons a rest ih =>
    rw [reclaim]
    cases hp : p a with
    | true =>
      rw [List.filter_cons_of_pos hp, reclaim]
      by_cases hle : remaining ≤ low
      · rw [if_pos hle, if_pos hle]
        rfl
      · rw [if_neg hle, if_neg hle, List.filter_cons_of_pos hp, if_pos rfl, ih]
    | false =>
      rw [List.filter_cons_of_neg (by simp [hp])]
      by_cases hle : remaining ≤ low
      · rw [if_pos hle]
        cases rest.filter p with
        | nil => rfl
        | cons b more => rw [reclaim, if_pos hle]; rfl
      · rw [if_neg hle, List.filter_cons_of_neg (by simp [hp]), if_neg (by decide), Nat.sub_zero,
          ih]

theorem reclaim_map {β : Type} {weight' : β → ℕ} (f : α → β) (hf : ∀ a, weight' (f a) = weight a)
    (remaining : ℕ) (l : List α) :
    reclaim weight' low remaining (l.map f) = (reclaim weight low remaining l).map f := by
  induction l generalizing remaining with
  | nil => rfl
  | cons a rest ih =>
    rw [List.map_cons, reclaim, reclaim, hf, ih]
    split
    · rfl
    · rfl

theorem totalWeight_map {β : Type} {weight' : β → ℕ} (f : α → β)
    (hf : ∀ a, weight' (f a) = weight a) (l : List α) :
    totalWeight weight' (l.map f) = totalWeight weight l := by
  rw [totalWeight, List.map_map, totalWeight]
  congr 1
  exact List.map_congr_left fun a _ => hf a

end Reclaim
