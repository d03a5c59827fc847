/-
**Arithmetic on a 64-bit `usize`.**

Lengths, positions and counts are natural numbers.  Where an operation of the code can leave the range
of a `usize`, it is one of these: checked (`none` for an overflow, which the code turns into an error
or which aborts it), or saturating.
-/

import Mathlib.Algebra.Order.Ring.Nat
import Mathlib.Data.List.Basic

set_option autoImplicit false

namespace Greppy

/-- `a + b` on a 64-bit `usize`. -/
def usizeAdd (a b : ℕ) : Option ℕ := if a + b < 2 ^ 64 then some (a + b) else none

/-- `a * b` on a 64-bit `usize`. -/
def usizeMul (a b : ℕ) : Option ℕ := if a * b < 2 ^ 64 then some (a * b) else none

/-- `a.saturating_add(b)` on a 64-bit `usize`. -/
def usizeSaturatingAdd (a b : ℕ) : ℕ := min (a + b) (2 ^ 64 - 1)

/-- `a.saturating_mul(b)` on a 64-bit `usize`. -/
def usizeSaturatingMul (a b : ℕ) : ℕ := min (a * b) (2 ^ 64 - 1)

/-- `a.div_ceil(b)`; there is no value for a division by zero. -/
def usizeDivCeil (a b : ℕ) : Option ℕ :=
  if b = 0 then none else some (if 0 < a % b then a / b + 1 else a / b)

/-- `&l[lo..hi]`. -/
def slice {α : Type} (lo hi : ℕ) (l : List α) : Option (List α) :=
  if lo ≤ hi ∧ hi ≤ l.length then some ((l.take hi).drop lo) else none

theorem usizeAdd_eq_some_iff {a b c : ℕ} : usizeAdd a b = some c ↔ c = a + b ∧ c < 2 ^ 64 := by
  unfold usizeAdd
  split
  · rw [Option.some.injEq]
    omega
  · simp only [reduceCtorEq, false_iff, not_and]
    omega

theorem usizeMul_eq_some_iff {a b c : ℕ} : usizeMul a b = some c ↔ c = a * b ∧ c < 2 ^ 64 := by
  unfold usizeMul
  split
  · rw [Option.some.injEq]
    omega
  · simp only [reduceCtorEq, false_iff, not_and]
    omega

theorem usizeSaturatingAdd_le (a b : ℕ) : usizeSaturatingAdd a b ≤ a + b := Nat.min_le_left _ _

/-- A saturated sum is the greatest `usize`. -/
theorem usizeSaturatingAdd_eq_or (a b : ℕ) :
    usizeSaturatingAdd a b = a + b ∨ usizeSaturatingAdd a b = 2 ^ 64 - 1 := by
  unfold usizeSaturatingAdd
  omega

/-- Rounding up to a multiple of `b` is the identity on multiples, and else goes past `a` by less
than `b`. -/
theorem usizeDivCeil_mul {a b q : ℕ} (h : usizeDivCeil a b = some q) :
    a ≤ q * b ∧ q * b < a + b := by
  unfold usizeDivCeil at h
  split at h
  · cases h
  · rename_i hb
    have hmod : a % b < b := Nat.mod_lt a (Nat.pos_of_ne_zero hb)
    have hdiv : a / b * b + a % b = a := by
      rw [Nat.mul_comm]
      exact Nat.div_add_mod a b
    cases h
    split
    · rw [Nat.succ_mul]
      omega
    · omega

theorem slice_eq_some {α : Type} {lo hi : ℕ} {l : List α} (hlo : lo ≤ hi)
    (hhi : hi ≤ l.length) : slice lo hi l = some ((l.take hi).drop lo) :=
  if_pos ⟨hlo, hhi⟩

theorem length_slice {α : Type} {lo hi : ℕ} {l part : List α} (h : slice lo hi l = some part) :
    part.length = hi - lo := by
  unfold slice at h
  split at h
  · rename_i hrange
    cases h
    rw [List.length_drop, List.length_take]
    omega
  · cases h

end Greppy
