/-
**Clock readings and lengths of time.**

`std::time::SystemTime` counts seconds and nanoseconds from the Unix epoch, the seconds being an
`i64`; `std::time::Duration` has a `u64` of seconds.  Both are kept here in nanoseconds, with the
range of the type as a field.
-/

import Mathlib.Algebra.Group.Int.Defs
import Mathlib.Algebra.Group.Nat.Defs

set_option autoImplicit false

namespace Greppy

/-- A reading of the system clock, in nanoseconds from the Unix epoch. -/
structure SystemTime where
  ns : ℤ
  lower : -(2 ^ 63 * 10 ^ 9) ≤ ns
  upper : ns < 2 ^ 63 * 10 ^ 9
  deriving DecidableEq

structure Duration where
  ns : ℕ
  upper : ns < 2 ^ 64 * 10 ^ 9
  deriving DecidableEq

/-- `UNIX_EPOCH`. -/
def epoch : SystemTime := ⟨0, by decide, by decide⟩

/-- `Duration::ZERO`. -/
def noTime : Duration := ⟨0, by decide⟩

/-- `duration_since(UNIX_EPOCH)` in nanoseconds, or 0 when the clock stands before the epoch. -/
def SystemTime.unixNanos (t : SystemTime) : ℕ := t.ns.toNat

/-- The same in seconds: `unix_now_secs`. -/
def SystemTime.unixSecs (t : SystemTime) : ℕ := t.unixNanos / 10 ^ 9

theorem unixNanos_lt (t : SystemTime) : t.unixNanos < 2 ^ 127 := by
  have := t.upper
  unfold SystemTime.unixNanos
  omega

theorem unixSecs_lt (t : SystemTime) : t.unixSecs < 2 ^ 63 := by
  have := t.upper
  unfold SystemTime.unixSecs SystemTime.unixNanos
  omega

/-- `UNIX_EPOCH + Duration::from_secs(secs)`; it panics when the seconds leave the `i64`. -/
def SystemTime.ofUnixSecs (secs : ℕ) : Option SystemTime :=
  if h : secs < 2 ^ 63 then some ⟨secs * 10 ^ 9, by omega, by omega⟩ else none

/-- `duration_since`: `none` when the other time is later. -/
def SystemTime.since (t earlier : SystemTime) : Option Duration :=
  if 0 ≤ t.ns - earlier.ns then
    some ⟨(t.ns - earlier.ns).toNat, by
      have := t.upper
      have := earlier.lower
      omega⟩
  else none

theorem ofUnixSecs_eq_none_iff {secs : ℕ} : SystemTime.ofUnixSecs secs = none ↔ 2 ^ 63 ≤ secs := by
  unfold SystemTime.ofUnixSecs
  split
  · simp only [reduceCtorEq, false_iff]
    omega
  · simp only [true_iff]
    omega

end Greppy
