/-
**Arrays that are filled chunk by chunk.**

A large array is cut into chunks of one size, of which the last may be shorter, and each chunk is filled
on its own, by whichever thread comes first.  The chunks do not overlap, so the order does not matter and
here they are taken one after the other.  A routine that fills a chunk knows only the chunk's own cells;
what it writes there stands in the array at the chunk's offset.

Main definitions:

* `onSlice d len f` — `f(&mut a[d..d + len])`;
* `chunksMut size f`, `chunksExactMut size f` — `a.chunks_mut(size).enumerate().for_each(f)`, with the
  shorter last chunk and without it;
* `stepBy lo hi step f` — `for i in (lo..hi).step_by(step)`.

Main results:

* `writes_onSlice`, `writes_chunksMut`, `writes_chunksExactMut` — what is written to the chunks is written
  to the array;
* `writes_stepBy` — a loop by steps writes the runs of its turns, which join up.
-/

import Greppy.CellWrites

set_option autoImplicit false

namespace Cells

open Checked

section Chunks

variable {α : Type} [Inhabited α] {n : ℕ}

/-- `f(&mut a[d..d + len])`. -/
def onSlice (d len : ℕ) (f : Vector α len → Option (Vector α len)) (a : Vector α n) :
    Option (Vector α n) :=
  if d + len ≤ n then do
    let part ← f (Vector.ofFn fun i => cell a (d + i))
    some (Vector.ofFn fun i => if d ≤ i ∧ i < d + len then cell part (i - d) else cell a i)
  else none

/-- `a.par_chunks_mut(size).enumerate().for_each(f)`. -/
def chunksMut (size : ℕ) (f : ℕ → (len : ℕ) → Vector α len → Option (Vector α len)) (a : Vector α n) :
    Option (Vector α n) :=
  if size = 0 then none
  else loop ((n + (size - 1)) / size)
    (fun c => onSlice (c * size) (min size (n - c * size)) (f c (min size (n - c * size)))) a

/-- `a.chunks_exact_mut(size).enumerate().for_each(f)`. -/
def chunksExactMut (size : ℕ) (f : ℕ → Vector α size → Option (Vector α size)) (a : Vector α n) :
    Option (Vector α n) :=
  if size = 0 then none else loop (n / size) (fun c => onSlice (c * size) size (f c)) a

theorem writes_onSlice {d len : ℕ} {f : Vector α len → Option (Vector α len)} {A : ℕ → Prop} {v : ℕ → α}
    (hd : d + len ≤ n) (hf : Writes cell f A fun i => v (d + i)) :
    Writes (cell (α := α) (n := n)) (onSlice d len f) (fun j => d ≤ j ∧ j < d + len ∧ A (j - d)) v := by
  intro a
  obtain ⟨part, hpart, hA, hA'⟩ := hf (Vector.ofFn fun i => cell a (d + i))
  refine ⟨_, by rw [onSlice, if_pos hd, hpart]; rfl, ?_, fun j hj => ?_⟩
  · rintro j ⟨hlo, hhi, hj⟩
    rw [cell_ofFn _ (by omega : j < n), if_pos ⟨hlo, hhi⟩, hA _ hj]
    exact congrArg v (by omega)
  · by_cases hjn : j < n
    · rw [cell_ofFn _ hjn]
      dsimp only
      split_ifs with hin
      · -- a cell of the chunk that `f` left as it was
        rw [hA' _ fun h => hj ⟨hin.1, hin.2, h⟩, cell_ofFn _ (by omega : j - d < len)]
        exact congrArg (cell a) (by simp only; omega)
      · rfl
    · simp [cell, hjn]

theorem writes_chunksMut {size : ℕ} {f : ℕ → (len : ℕ) → Vector α len → Option (Vector α len)}
    {v : ℕ → α} (hsize : 0 < size)
    (hf : ∀ c, c * size < n → Writes cell (f c (min size (n - c * size)))
      (fun i => i < min size (n - c * size)) fun i => v (c * size + i)) :
    Writes (cell (α := α) (n := n)) (chunksMut size f) (fun j => j < n) v := by
  have hlast (c : ℕ) (hc : c < (n + (size - 1)) / size) : c * size < n := by
    have h := (Nat.le_div_iff_mul_le hsize).mp hc
    rw [Nat.succ_mul] at h
    omega
  have hrun : chunksMut (n := n) size f = loop ((n + (size - 1)) / size) fun c =>
      onSlice (c * size) (min size (n - c * size)) (f c (min size (n - c * size))) :=
    funext fun a => if_neg (by omega)
  rw [hrun]
  refine (Writes.forLoop fun c hc =>
    writes_onSlice (by have := hlast c hc; omega) (hf c (hlast c hc))).congr fun j => ⟨?_, fun hj => ?_⟩
  · rintro ⟨c, hc, -, hj, -⟩
    have := hlast c hc
    omega
  · have hdiv := Nat.div_add_mod j size
    have hmod := Nat.mod_lt j hsize
    rw [mul_comm] at hdiv
    refine ⟨j / size, (Nat.lt_div_iff_mul_lt hsize).mpr ?_, by omega, by omega, by omega⟩
    rw [Nat.add_sub_cancel]
    omega

theorem writes_chunksExactMut {size : ℕ} {f : ℕ → Vector α size → Option (Vector α size)} {v : ℕ → α}
    (hsize : 0 < size)
    (hf : ∀ c, (c + 1) * size ≤ n → Writes cell (f c) (fun i => i < size) fun i => v (c * size + i)) :
    Writes (cell (α := α) (n := n)) (chunksExactMut size f) (fun j => j < n / size * size) v := by
  have hlast (c : ℕ) (hc : c < n / size) : (c + 1) * size ≤ n :=
    (Nat.le_div_iff_mul_le hsize).mp hc
  have hrun : chunksExactMut (n := n) size f = loop (n / size) fun c =>
      onSlice (c * size) size (f c) := funext fun a => if_neg (by omega)
  rw [hrun]
  refine (Writes.forLoop fun c hc =>
    writes_onSlice (by have := hlast c hc; rw [Nat.succ_mul] at this; omega)
      (hf c (hlast c hc))).congr fun j => ⟨?_, fun hj => ?_⟩
  · rintro ⟨c, hc, -, hj, -⟩
    have hle := Nat.mul_le_mul_right size hc
    rw [Nat.succ_mul] at hle
    omega
  · have hdiv := Nat.div_add_mod j size
    have hmod := Nat.mod_lt j hsize
    rw [mul_comm] at hdiv
    exact ⟨j / size, Nat.div_lt_of_lt_mul (by rwa [mul_comm]), by omega, by omega, by omega⟩

end Chunks

/-! ### Loops by steps -/

section Steps

variable {σ κ α : Type} {get : σ → κ → α} {v : κ → α}

/-- `for i in (lo..hi).step_by(step) { s = f i s }`. -/
def stepBy (lo hi step : ℕ) (f : ℕ → σ → Option σ) : σ → Option σ :=
  loop ((hi - lo + (step - 1)) / step) fun i => f (lo + i * step)

/-- The turns write the runs of cells of a place `p`, one after the other. -/
theorem writes_stepBy {lo hi step m : ℕ} {f : ℕ → σ → Option σ} (p : κ → ℕ) (P : κ → Prop)
    (hstep : 0 < step) (hhi : hi = lo + m * step)
    (hf : ∀ i < m, Writes get (f (lo + i * step))
      (fun k => P k ∧ lo + i * step ≤ p k ∧ p k < lo + (i + 1) * step) v) :
    Writes get (stepBy lo hi step f) (fun k => P k ∧ lo ≤ p k ∧ p k < hi) v := by
  subst hhi
  have hturns : (lo + m * step - lo + (step - 1)) / step = m := by
    rw [Nat.add_sub_cancel_left, mul_comm, Nat.mul_add_div hstep, Nat.div_eq_of_lt (by omega), Nat.add_zero]
  unfold stepBy
  rw [hturns]
  refine (Writes.forLoop hf).congr fun k => ⟨?_, ?_⟩
  · rintro ⟨i, him, hk, hlo, hhi⟩
    have hle : (i + 1) * step ≤ m * step := Nat.mul_le_mul_right step him
    exact ⟨hk, by omega, by omega⟩
  · rintro ⟨hk, hlo, hhi⟩
    have hdiv := Nat.div_add_mod (p k - lo) step
    have hmod := Nat.mod_lt (p k - lo) hstep
    rw [mul_comm] at hdiv
    refine ⟨(p k - lo) / step, Nat.div_lt_of_lt_mul (by rw [mul_comm]; omega), hk, by omega, ?_⟩
    rw [Nat.succ_mul]
    omega

end Steps

end Cells
