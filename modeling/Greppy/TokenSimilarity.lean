/-
**The distance of two tokens.**

A token of the query and one of a name are similar when few edits lead from one to the other.  Their
distance is computed with two rows of the table instead of the whole of it.  A round of the outer loop
overwrites the row that holds what the round before last has left, and then the rows change places; a
cell is read in a round only after that round has written it, so the stale values do no harm.

`plus_levenshtein` has no value here when one of its indices is out of range.
-/

import Greppy.CellWrites
import Greppy.EditDistance

set_option autoImplicit false

namespace Greppy

open Cells Checked EditDistance

/-! ### The two rows -/

/-- The round of the inner loop for a character `cb` of `b` and its position. -/
def levenshteinCell {n : ℕ} (ca : Char) (prev curr : Vector ℕ n) (cb : Char × ℕ) :
    Option (Vector ℕ n) := do
  let cost := if ca ≠ cb.1 then 1 else 0
  let left ← curr[cb.2]?
  let above ← prev[cb.2 + 1]?
  let diagonal ← prev[cb.2]?
  setCell curr (cb.2 + 1) (min (min (left + 1) (above + 1)) (diagonal + cost))

/-- The round of the outer loop for a character `ca` of `a` and its position, on `prev` and `curr`. -/
def levenshteinRow {n : ℕ} (bChars : List Char) (rows : Vector ℕ n × Vector ℕ n)
    (ca : Char × ℕ) : Option (Vector ℕ n × Vector ℕ n) := do
  let curr ← setCell rows.2 0 (ca.2 + 1)
  let curr ← bChars.zipIdx.foldlM (levenshteinCell ca.1 rows.1) curr
  return (curr, rows.1)

def plusLevenshtein (a b : List Char) : Option ℕ := do
  let prev : Vector ℕ (b.length + 1) := Vector.ofFn fun i => i
  let curr : Vector ℕ (b.length + 1) := Vector.replicate (b.length + 1) 0
  let rows ← a.zipIdx.foldlM (levenshteinRow b) (prev, curr)
  rows.1[b.length]?

/-! ### What the rows hold -/

/-- The cells up to `j` hold the distances of `p` from the beginnings of `b`. -/
def HoldsUpTo {n : ℕ} (p b : List Char) (j : ℕ) (row : Vector ℕ n) : Prop :=
  ∀ k ≤ j, row[k]? = some (lev p (b.take k))

section Rows

variable {n j : ℕ} {p b : List Char} {prev : Vector ℕ n}

/-- A write behind the cells that hold the distances leaves them as they are. -/
theorem HoldsUpTo.succ {curr : Vector ℕ n} {d : ℕ} (h : HoldsUpTo p b j curr) (hj : j + 1 < n)
    (hd : d = lev p (b.take (j + 1))) :
    ∃ curr', setCell curr (j + 1) d = some curr' ∧ HoldsUpTo p b (j + 1) curr' := by
  refine ⟨curr.set (j + 1) d, dif_pos hj, fun k hk => ?_⟩
  rcases Nat.eq_or_lt_of_le hk with rfl | hlt
  · simp [hd]
  · have hne : j + 1 ≠ k := by omega
    rw [Vector.getElem?_set_ne hj hne]
    exact h k (by omega)

/-- A cell is computed from the three beside it, which are written by then. -/
theorem levenshteinCell_spec {ca : Char} {curr : Vector ℕ n} (hprev : HoldsUpTo p b b.length prev)
    (hcurr : HoldsUpTo (p ++ [ca]) b j curr) (hj : j < b.length) (hn : n = b.length + 1) :
    ∃ curr', levenshteinCell ca prev curr (b[j], j) = some curr' ∧
      HoldsUpTo (p ++ [ca]) b (j + 1) curr' := by
  have hnext : b.take (j + 1) = b.take j ++ [b[j]] := List.take_succ_eq_append_getElem hj
  have hcost : (if ca ≠ b[j] then 1 else 0) = cost ca b[j] := by
    rw [cost]
    split <;> simp_all
  have hcell := (lev_concat ca b[j] p (b.take j)).symm
  rw [← hnext, ← hcost] at hcell
  obtain ⟨curr', hset, hholds⟩ := hcurr.succ (by omega) hcell
  refine ⟨curr', ?_, hholds⟩
  simp only [levenshteinCell, hcurr j le_rfl, hprev (j + 1) hj, hprev j hj.le]
  exact hset

/-- A round of the outer loop fills the row for one more character, whatever the row held before. -/
theorem levenshteinRow_spec (ca : Char) (hprev : HoldsUpTo p b b.length prev)
    (hn : n = b.length + 1) (curr : Vector ℕ n) :
    ∃ rows, levenshteinRow b (prev, curr) (ca, p.length) = some rows ∧
      HoldsUpTo (p ++ [ca]) b b.length rows.1 := by
  have hzero : HoldsUpTo (p ++ [ca]) b 0 (curr.set 0 (p.length + 1) (by omega)) := by
    intro k hk
    obtain rfl : k = 0 := by omega
    simp
  obtain ⟨curr', hloop, hholds⟩ := zipIdx_spec (HoldsUpTo (p ++ [ca]) b) hzero
    fun j hj row hrow => levenshteinCell_spec hprev hrow hj hn
  refine ⟨(curr', prev), ?_, hholds⟩
  simp only [levenshteinRow, setCell, dif_pos (show 0 < n by omega)]
  simp only [Option.bind_eq_bind, Option.bind_some, hloop]
  rfl

end Rows

/-! ### The distance -/

theorem plusLevenshtein_eq_lev (a b : List Char) : plusLevenshtein a b = some (lev a b) := by
  -- before any round the rows are those of the empty beginning of `a`
  have hfirst : HoldsUpTo (a.take 0) b b.length
      (Vector.ofFn fun i : Fin (b.length + 1) => (i : ℕ)) := by
    intro k hk
    have hlt : k < b.length + 1 := by omega
    simp [hlt, hk]
  have hround : ∀ (i : ℕ) (hi : i < a.length)
      (rows : Vector ℕ (b.length + 1) × Vector ℕ (b.length + 1)),
      HoldsUpTo (a.take i) b b.length rows.1 →
      ∃ rows', levenshteinRow b rows (a[i], i) = some rows' ∧
        HoldsUpTo (a.take (i + 1)) b b.length rows'.1 := by
    intro i hi rows hrows
    have hstep := levenshteinRow_spec a[i] hrows rfl rows.2
    rwa [← List.take_succ_eq_append_getElem hi, List.length_take_of_le hi.le] at hstep
  obtain ⟨rows, hloop, hholds⟩ := zipIdx_spec
    (fun i rows => HoldsUpTo (a.take i) b b.length rows.1)
    (s := (Vector.ofFn fun i => (i : ℕ), Vector.replicate (b.length + 1) 0)) hfirst hround
  have hlast := hholds b.length le_rfl
  rw [List.take_length, List.take_length] at hlast
  simp only [plusLevenshtein, hloop]
  exact hlast

/-- **The function finds the length of a shortest sequence of edits.** -/
theorem plusLevenshtein_spec :
    ∃ distance : List Char → List Char → ℕ,
      (∀ a b, plusLevenshtein a b = some (distance a b)) ∧
      (∀ a b, Distance Edit a b (distance a b)) ∧
      (∀ a b, distance a b = distance b a) ∧
      (∀ a b, distance a b = 0 ↔ a = b) ∧
      (∀ a b c, distance a c ≤ distance a b + distance b c) ∧
      ∀ a b, distance a b ≤ max a.length b.length :=
  ⟨lev, plusLevenshtein_eq_lev, lev_distance, lev_comm, lev_eq_zero, lev_triangle, lev_le_max⟩

end Greppy
