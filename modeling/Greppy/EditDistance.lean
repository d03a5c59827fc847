/-
**The edit distance of two lists.**

An edit inserts an element somewhere, deletes one, or puts another in its place.  The distance of two
lists is the length of a shortest sequence of edits from one to the other.  It is the recursion over the
first elements that Levenshtein's algorithm tabulates: an edit changes what the recursion says by one at
most, and the recursion itself describes a sequence of edits.

Edits do not care about the direction in which a list is read.  The same recursion therefore runs over
the last elements, which is how it is used on initial segments that grow.

Main definitions:

* `Edit` — one insertion, deletion or substitution;
* `lev s t` — the recursion.

Main results:

* `lev_distance` — **the recursion finds the length of a shortest sequence of edits**;
* `lev_comm`, `lev_eq_zero`, `lev_triangle`, `lev_le_max` — it is a metric, bounded by the longer length;
* `lev_concat` — the recursion over the last elements.
-/

import Greppy.BreadthFirst

set_option autoImplicit false

namespace EditDistance

variable {α : Type}

/-- A single insertion, deletion or substitution. -/
inductive Edit : List α → List α → Prop
  | insert (p : List α) (c : α) (q : List α) : Edit (p ++ q) (p ++ c :: q)
  | delete (p : List α) (c : α) (q : List α) : Edit (p ++ c :: q) (p ++ q)
  | substitute (p : List α) (c d : α) (q : List α) : Edit (p ++ c :: q) (p ++ d :: q)

theorem Edit.symm {s t : List α} (h : Edit s t) : Edit t s := by
  cases h with
  | insert p c q => exact .delete p c q
  | delete p c q => exact .insert p c q
  | substitute p c d q => exact .substitute p d c q

theorem Edit.cons {s t : List α} (x : α) (h : Edit s t) : Edit (x :: s) (x :: t) := by
  cases h with
  | insert p c q => exact .insert (x :: p) c q
  | delete p c q => exact .delete (x :: p) c q
  | substitute p c d q => exact .substitute (x :: p) c d q

theorem Edit.reverse {s t : List α} (h : Edit s t) : Edit s.reverse t.reverse := by
  cases h with
  | insert p c q => simpa using Edit.insert q.reverse c p.reverse
  | delete p c q => simpa using Edit.delete q.reverse c p.reverse
  | substitute p c d q => simpa using Edit.substitute q.reverse c d p.reverse

theorem walk_cons {n : ℕ} {s t : List α} (x : α) (h : Walk Edit n s t) :
    Walk Edit n (x :: s) (x :: t) :=
  h.map fun _ _ => Edit.cons x

theorem walk_nil_left (t : List α) : Walk Edit t.length [] t := by
  induction t with
  | nil => exact .nil []
  | cons y t ih => exact .snoc ih (.insert [] y t)

theorem walk_nil_right (s : List α) : Walk Edit s.length s [] :=
  (walk_nil_left s).symm fun _ _ => Edit.symm

/-! ### The recursion over the first elements -/

variable [DecidableEq α]

/-- `0` for an element that stays, `1` for one that is replaced. -/
def cost (x y : α) : ℕ := if x = y then 0 else 1

theorem cost_le_one (x y : α) : cost x y ≤ 1 := by
  rw [cost]
  split <;> omega

/-- Levenshtein's recursion. -/
def lev : List α → List α → ℕ
  | [], t => t.length
  | s, [] => s.length
  | x :: s, y :: t => min (min (lev (x :: s) t + 1) (lev s (y :: t) + 1)) (lev s t + cost x y)

@[simp] theorem lev_nil_left (t : List α) : lev [] t = t.length := by
  rw [lev]

@[simp] theorem lev_nil_right (s : List α) : lev s [] = s.length := by
  cases s with
  | nil => rw [lev_nil_left]
  | cons x s =>
    rw [lev]
    exact List.cons_ne_nil x s

theorem lev_cons (x y : α) (s t : List α) :
    lev (x :: s) (y :: t) =
      min (min (lev (x :: s) t + 1) (lev s (y :: t) + 1)) (lev s t + cost x y) := by
  rw [lev]

theorem lev_le_max (s t : List α) : lev s t ≤ max s.length t.length := by
  induction s generalizing t with
  | nil => simp
  | cons x s ih =>
    cases t with
    | nil => simp
    | cons y t =>
      have hst := ih t
      have hcost := cost_le_one x y
      rw [lev_cons]
      simp only [List.length_cons]
      omega

/-! ### Sequences of edits of that length -/

variable {n : ℕ} {s t u : List α}

theorem walk_head (x y : α) (h : Walk Edit n s t) : Walk Edit (n + cost x y) (x :: s) (y :: t) := by
  rw [cost]
  split
  · next heq =>
      subst heq
      exact walk_cons x h
  · exact .snoc (walk_cons x h) (.substitute [] x y t)

/-- The recursion describes a sequence of edits. -/
theorem walk_lev (s t : List α) : Walk Edit (lev s t) s t := by
  induction s generalizing t with
  | nil =>
    rw [lev_nil_left]
    exact walk_nil_left t
  | cons x s ihs =>
    induction t with
    | nil =>
      rw [lev_nil_right]
      exact walk_nil_right (x :: s)
    | cons y t iht =>
      rw [lev_cons]
      -- the least of the three ways ends with an insertion, starts with a deletion, or keeps the heads together
      rcases min_choice (min (lev (x :: s) t + 1) (lev s (y :: t) + 1)) (lev s t + cost x y)
        with h | h
      · rw [h]
        rcases min_choice (lev (x :: s) t + 1) (lev s (y :: t) + 1) with h' | h'
        · rw [h']
          exact .snoc iht (.insert [] y t)
        · rw [h', Nat.add_comm]
          exact (Walk.one_iff.2 (.delete [] x s)).trans (ihs (y :: t))
      · rw [h]
        exact walk_head x y (ihs t)

/-! ### No sequence of edits is shorter -/

theorem lev_cons_left_le (x : α) (s t : List α) : lev (x :: s) t ≤ lev s t + 1 := by
  cases t with
  | nil => simp
  | cons y t =>
    rw [lev_cons]
    omega

theorem lev_cons_right_le (y : α) (s t : List α) : lev s (y :: t) ≤ lev s t + 1 := by
  cases s with
  | nil => simp
  | cons x s =>
    rw [lev_cons]
    omega

theorem lev_cons_cons_le (x y : α) (s t : List α) : lev (x :: s) (y :: t) ≤ lev s t + 1 := by
  have hcost := cost_le_one x y
  rw [lev_cons]
  omega

theorem lev_le_cons_right (y : α) (s t : List α) : lev s t ≤ lev s (y :: t) + 1 := by
  induction s with
  | nil =>
    simp only [lev_nil_left, List.length_cons]
    omega
  | cons x s ih =>
    have hleft := lev_cons_left_le x s t
    rw [lev_cons]
    omega

theorem lev_substitute_le (c d : α) (s t : List α) : lev s (d :: t) ≤ lev s (c :: t) + 1 := by
  induction s with
  | nil => simp
  | cons x s ih =>
    have hright := lev_cons_right_le d (x :: s) t
    have hleft := lev_cons_left_le x s (d :: t)
    have hboth := lev_cons_cons_le x d s t
    rw [lev_cons x c]
    omega

/-- What an edit costs does not grow with what stands before it. -/
theorem lev_cons_le_of_le (h : ∀ s, lev s u ≤ lev s t + 1) (y : α) (s : List α) :
    lev s (y :: u) ≤ lev s (y :: t) + 1 := by
  induction s with
  | nil => simpa using h []
  | cons x s ih =>
    have hins := h (x :: s)
    have hkeep := h s
    rw [lev_cons, lev_cons]
    omega

theorem lev_append_le_of_le (h : ∀ s, lev s u ≤ lev s t + 1) (p s : List α) :
    lev s (p ++ u) ≤ lev s (p ++ t) + 1 := by
  induction p generalizing s with
  | nil => exact h s
  | cons y p ih => exact lev_cons_le_of_le ih y s

/-- An edit changes the recursion's value by one at most. -/
theorem lev_le_of_edit (h : Edit t u) (s : List α) : lev s u ≤ lev s t + 1 := by
  cases h with
  | insert p c q => exact lev_append_le_of_le (fun s => lev_cons_right_le c s q) p s
  | delete p c q => exact lev_append_le_of_le (fun s => lev_le_cons_right c s q) p s
  | substitute p c d q => exact lev_append_le_of_le (fun s => lev_substitute_le c d s q) p s

theorem lev_self (s : List α) : lev s s = 0 := by
  induction s with
  | nil => simp
  | cons x s ih => simp [lev_cons, cost, ih]

theorem lev_le_of_walk (h : Walk Edit n s t) : lev s t ≤ n := by
  induction h with
  | nil s => exact (lev_self s).le
  | @snoc n s t u _ htu ih =>
    have hstep := lev_le_of_edit htu s
    omega

/-- **The recursion finds the length of a shortest sequence of edits.** -/
theorem lev_distance (s t : List α) : Distance Edit s t (lev s t) :=
  ⟨walk_lev s t, fun _ h => lev_le_of_walk h⟩

/-! ### A metric -/

theorem lev_comm (s t : List α) : lev s t = lev t s := by
  have hle : ∀ s t : List α, lev s t ≤ lev t s := fun s t =>
    lev_le_of_walk ((walk_lev t s).symm fun _ _ => Edit.symm)
  exact le_antisymm (hle s t) (hle t s)

theorem lev_eq_zero (s t : List α) : lev s t = 0 ↔ s = t := by
  constructor
  · intro h
    have hwalk := walk_lev s t
    rw [h] at hwalk
    exact hwalk.of_zero
  · rintro rfl
    exact lev_self s

theorem lev_triangle (s t u : List α) : lev s u ≤ lev s t + lev t u :=
  lev_le_of_walk ((walk_lev s t).trans (walk_lev t u))

/-! ### The recursion over the last elements -/

theorem lev_reverse (s t : List α) : lev s.reverse t.reverse = lev s t := by
  have hle : ∀ s t : List α, lev s.reverse t.reverse ≤ lev s t := fun s t =>
    lev_le_of_walk ((walk_lev s t).map fun _ _ => Edit.reverse)
  refine le_antisymm (hle s t) ?_
  simpa using hle s.reverse t.reverse

theorem lev_concat (x y : α) (s t : List α) :
    lev (s ++ [x]) (t ++ [y]) =
      min (min (lev (s ++ [x]) t + 1) (lev s (t ++ [y]) + 1)) (lev s t + cost x y) := by
  have hcons := lev_cons x y s.reverse t.reverse
  simp only [← List.reverse_concat, lev_reverse] at hcons
  exact hcons

end EditDistance
