/-
**Binary search with a test that may be anything.**

A binary search looks for the last number of a range that passes a test.  When the test is passed by a
beginning of the range, it finds the end of this beginning.  Here nothing is known of the test: it need not
be monotone, and it may fail with an error.  What the search returns has then passed the test all the same,
and when it returns nothing, the first number of the range has not passed it.

There are two of them, with a closed and with a half-open range.  They test different numbers.

Main definitions:

* `Bisect.closed`, `Bisect.halfOpen` — the two searches.

Main results:

* `Bisect.closed_spec`, `Bisect.halfOpen_spec` — **what a search returns**;
* `Bisect.closed_of_forall` — no number fails to pass;
* `Bisect.closed_ok`, `Bisect.halfOpen_ok` — the searches fail with the test only.
-/

import Mathlib.Data.List.Basic

set_option autoImplicit false

namespace Bisect

variable {ε : Type}

/-- The search in `lo ..= hi`.  It also stops when it has tested `floor`, below which the range never
goes. -/
def closed (test : ℕ → Except ε Bool) (floor lo hi : ℕ) (best : Option ℕ) : Except ε (Option ℕ) :=
  if lo ≤ hi then
    let mid := lo + (hi - lo) / 2
    match test mid with
    | .error e => .error e
    | .ok true => closed test floor (mid + 1) hi (some mid)
    | .ok false => if mid ≤ floor then .ok best else closed test floor lo (mid - 1) best
  else .ok best
termination_by hi + 1 - lo

/-- The search in `lo .. hi`. -/
def halfOpen (test : ℕ → Except ε Bool) (lo hi : ℕ) (best : Option ℕ) : Except ε (Option ℕ) :=
  if lo < hi then
    let mid := lo + (hi - lo) / 2
    match test mid with
    | .error e => .error e
    | .ok true => halfOpen test (mid + 1) hi (some mid)
    | .ok false => halfOpen test lo mid best
  else .ok best
termination_by hi - lo

variable {test : ℕ → Except ε Bool} {floor lo hi : ℕ} {best r : Option ℕ}

/-- **What is returned has passed the test**, or it is what was there before, and the first number has not
passed. -/
theorem closed_spec (h : closed test floor lo hi best = .ok r) (hfloor : floor ≤ lo) :
    (∃ k, r = some k ∧ lo ≤ k ∧ k ≤ hi ∧ test k = .ok true) ∨
      r = best ∧ (lo ≤ hi → test lo = .ok false) := by
  fun_induction closed test floor lo hi best with
  | case1 lo hi best hle mid e htest => cases h
  | case2 lo hi best hle mid htest ih =>
    have hmid : mid = lo + (hi - lo) / 2 := rfl
    rcases ih h (by omega) with ⟨k, hk, hlo, hhi, hpass⟩ | ⟨rfl, -⟩
    · exact .inl ⟨k, hk, by omega, hhi, hpass⟩
    · exact .inl ⟨mid, rfl, by omega, by omega, htest⟩
  | case3 lo hi best hle mid htest hstop =>
    have hmid : mid = lo + (hi - lo) / 2 := rfl
    cases h
    have hlo : lo = mid := by omega
    exact .inr ⟨rfl, fun _ => hlo ▸ htest⟩
  | case4 lo hi best hle mid htest hgo ih =>
    have hmid : mid = lo + (hi - lo) / 2 := rfl
    rcases ih h hfloor with ⟨k, hk, hlo, hhi, hpass⟩ | ⟨hr, hfirst⟩
    · exact .inl ⟨k, hk, hlo, by omega, hpass⟩
    · refine .inr ⟨hr, fun _ => ?_⟩
      by_cases hlow : lo ≤ mid - 1
      · exact hfirst hlow
      · have hlo : lo = mid := by omega
        rw [hlo]
        exact htest
  | case5 lo hi best hgt =>
    cases h
    exact .inr ⟨rfl, fun hle => absurd hle hgt⟩

theorem closed_of_forall (h : closed test floor lo hi best = .ok r)
    (hpass : ∀ k, lo ≤ k → k ≤ hi → test k ≠ .ok false) : r = if lo ≤ hi then some hi else best := by
  fun_induction closed test floor lo hi best with
  | case1 lo hi best hle mid e htest => cases h
  | case2 lo hi best hle mid htest ih =>
    have hmid : mid = lo + (hi - lo) / 2 := rfl
    rw [ih h fun k hlo hhi => hpass k (by omega) hhi, if_pos hle]
    split
    · rfl
    · have hlast : mid = hi := by omega
      rw [hlast]
  | case3 lo hi best hle mid htest hstop =>
    have hmid : mid = lo + (hi - lo) / 2 := rfl
    exact absurd htest (hpass mid (by omega) (by omega))
  | case4 lo hi best hle mid htest hgo ih =>
    have hmid : mid = lo + (hi - lo) / 2 := rfl
    exact absurd htest (hpass mid (by omega) (by omega))
  | case5 lo hi best hgt =>
    cases h
    rw [if_neg hgt]

theorem closed_ok (htest : ∀ k, ∃ b, test k = .ok b) : ∃ r, closed test floor lo hi best = .ok r := by
  fun_induction closed test floor lo hi best with
  | case1 lo hi best hle mid e herror =>
    obtain ⟨b, hb⟩ := htest mid
    rw [hb] at herror
    cases herror
  | case2 lo hi best hle mid _ ih => exact ih
  | case3 lo hi best hle mid _ hstop => exact ⟨best, rfl⟩
  | case4 lo hi best hle mid _ hgo ih => exact ih
  | case5 lo hi best hgt => exact ⟨best, rfl⟩

/-- **What is returned has passed the test**, or it is what was there before, and the first number has not
passed. -/
theorem halfOpen_spec (h : halfOpen test lo hi best = .ok r) :
    (∃ k, r = some k ∧ lo ≤ k ∧ k < hi ∧ test k = .ok true) ∨
      r = best ∧ (lo < hi → test lo = .ok false) := by
  fun_induction halfOpen test lo hi best with
  | case1 lo hi best hlt mid e htest => cases h
  | case2 lo hi best hlt mid htest ih =>
    have hmid : mid = lo + (hi - lo) / 2 := rfl
    rcases ih h with ⟨k, hk, hlo, hhi, hpass⟩ | ⟨rfl, -⟩
    · exact .inl ⟨k, hk, by omega, hhi, hpass⟩
    · exact .inl ⟨mid, rfl, by omega, by omega, htest⟩
  | case3 lo hi best hlt mid htest ih =>
    have hmid : mid = lo + (hi - lo) / 2 := rfl
    rcases ih h with ⟨k, hk, hlo, hhi, hpass⟩ | ⟨hr, hfirst⟩
    · exact .inl ⟨k, hk, hlo, by omega, hpass⟩
    · refine .inr ⟨hr, fun _ => ?_⟩
      by_cases hlow : lo < mid
      · exact hfirst hlow
      · have hlo : lo = mid := by omega
        rw [hlo]
        exact htest
  | case4 lo hi best hge =>
    cases h
    exact .inr ⟨rfl, fun hlt => absurd hlt hge⟩

theorem halfOpen_ok (htest : ∀ k, ∃ b, test k = .ok b) : ∃ r, halfOpen test lo hi best = .ok r := by
  fun_induction halfOpen test lo hi best with
  | case1 lo hi best hlt mid e herror =>
    obtain ⟨b, hb⟩ := htest mid
    rw [hb] at herror
    cases herror
  | case2 lo hi best hlt mid _ ih => exact ih
  | case3 lo hi best hlt mid _ ih => exact ih
  | case4 lo hi best hge => exact ⟨best, rfl⟩

end Bisect
