/-
**Slices cut into chunks.**

`chunks(size)` cuts a slice into parts of `size` elements, of which the last may be shorter.  No part is
empty, and put together they are the slice.

Main definitions:

* `chunksOf` — `[T]::chunks`.

Main results:

* `chunksOf_length`, `chunksOf_getElem?` — the chunks of a slice that is cut without a rest;
* `flatten_chunksOf`, `chunk_ne_nil` — nothing is lost, and no chunk is empty.
-/

import Mathlib.Algebra.Order.Group.Nat
import Mathlib.Data.List.GetD

set_option autoImplicit false

namespace Greppy

/-- `slice.chunks(size)`. -/
def chunksOf {α : Type} (size : ℕ) (xs : List α) : List (List α) :=
  (List.range ((xs.length + (size - 1)) / size)).map fun i => (xs.drop (i * size)).take size

variable {α : Type} {size n : ℕ} {xs : List α}

theorem chunksOf_length (hsize : 0 < size) (hlen : xs.length = n * size) :
    (chunksOf size xs).length = n := by
  rw [chunksOf, List.length_map, List.length_range, hlen, mul_comm, Nat.mul_add_div hsize,
    Nat.div_eq_of_lt (by omega), Nat.add_zero]

theorem chunksOf_getElem? (hsize : 0 < size) (hlen : xs.length = n * size) {i : ℕ} (hi : i < n) :
    (chunksOf size xs)[i]? = some ((xs.drop (i * size)).take size) := by
  have hlt : i < (chunksOf size xs).length := by rwa [chunksOf_length hsize hlen]
  rw [List.getElem?_eq_getElem hlt]
  simp [chunksOf]

theorem chunk_length (hlen : xs.length = n * size) {i : ℕ} (hi : i < n) :
    ((xs.drop (i * size)).take size).length = size := by
  have hle : (i + 1) * size ≤ n * size := Nat.mul_le_mul_right size hi
  rw [Nat.succ_mul] at hle
  rw [List.length_take, List.length_drop]
  omega

theorem flatten_chunks_upTo (size n : ℕ) (xs : List α) :
    ((List.range n).map fun i => (xs.drop (i * size)).take size).flatten = xs.take (n * size) := by
  induction n with
  | zero => simp
  | succ n ih =>
    rw [List.range_succ, List.map_append, List.flatten_append, ih, Nat.succ_mul, List.take_add]
    simp

theorem flatten_chunksOf (hsize : 0 < size) (xs : List α) : (chunksOf size xs).flatten = xs := by
  rw [chunksOf, flatten_chunks_upTo]
  refine List.take_of_length_le ?_
  have hdiv := Nat.div_add_mod (xs.length + (size - 1)) size
  have hmod := Nat.mod_lt (xs.length + (size - 1)) hsize
  rw [mul_comm]
  omega

theorem subset_of_mem_chunksOf {chunk : List α} (h : chunk ∈ chunksOf size xs) : chunk ⊆ xs := by
  rw [chunksOf, List.mem_map] at h
  obtain ⟨i, -, rfl⟩ := h
  exact fun x hx => List.drop_subset _ _ (List.take_subset _ _ hx)

theorem chunk_ne_nil (hsize : 0 < size) {chunk : List α} (h : chunk ∈ chunksOf size xs) : chunk ≠ [] := by
  rw [chunksOf, List.mem_map] at h
  obtain ⟨i, hi, rfl⟩ := h
  rw [List.mem_range, Nat.lt_div_iff_mul_lt hsize] at hi
  intro hnil
  have hlen := congrArg List.length hnil
  rw [List.length_take, List.length_drop, List.length_nil] at hlen
  omega

end Greppy
