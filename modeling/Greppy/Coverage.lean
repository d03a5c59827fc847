/-
**Windows over a text.**

A text is cut into windows that may overlap.  They cover it when every position is in one of them; they are
in order when each begins after the one before.  Such windows are found one after the other: what lies
before some position is covered, and the next window begins right there.

Main definitions:

* `Coverage.window l w` — what a window shows of a list;
* `Coverage.CoversTo n m ws` — windows over a text of length `n` that cover all before position `m`;
* `Coverage.Covers n ws` — windows that cover the whole text.

Main results:

* `Coverage.CoversTo.snoc` — **the next window**;
* `Coverage.window_middle` — what a window shows.
-/

import Mathlib.Data.List.Basic

set_option autoImplicit false

namespace Coverage

variable {α : Type}

def window (l : List α) (w : ℕ × ℕ) : List α := (l.take w.2).drop w.1

/-- Windows over a text of length `n`, in order, that begin before position `m` and cover all before it. -/
structure CoversTo (n m : ℕ) (ws : List (ℕ × ℕ)) : Prop where
  inside : ∀ w ∈ ws, w.1 ≤ w.2 ∧ w.2 ≤ n
  begun : ∀ w ∈ ws, w.1 < m
  ordered : ws.Pairwise fun a b => a.1 < b.1
  covered : ∀ k < m, ∃ w ∈ ws, w.1 ≤ k ∧ k < w.2

variable {n m m' : ℕ} {ws : List (ℕ × ℕ)}

theorem CoversTo.nil (n : ℕ) : CoversTo n 0 [] where
  inside := by simp
  begun := by simp
  ordered := .nil
  covered := by
    intro k hk
    omega

/-- **The next window** begins where the covered part ends. -/
theorem CoversTo.snoc (h : CoversTo n m ws) {e : ℕ} (hlt : m < m') (hle : m' ≤ e) (hn : e ≤ n) :
    CoversTo n m' (ws ++ [(m, e)]) where
  inside := by
    intro w hw
    rcases List.mem_append.1 hw with hw | hw
    · exact h.inside w hw
    · rw [List.mem_singleton.1 hw]
      exact ⟨by omega, hn⟩
  begun := by
    intro w hw
    rcases List.mem_append.1 hw with hw | hw
    · exact Nat.lt_trans (h.begun w hw) hlt
    · rw [List.mem_singleton.1 hw]
      exact hlt
  ordered := by
    refine List.pairwise_append.2 ⟨h.ordered, List.pairwise_singleton _ _, fun a ha b hb => ?_⟩
    rw [List.mem_singleton.1 hb]
    exact h.begun a ha
  covered := by
    intro k hk
    by_cases hkm : k < m
    · obtain ⟨w, hw, hin⟩ := h.covered k hkm
      exact ⟨w, List.mem_append_left _ hw, hin⟩
    · exact ⟨(m, e), by simp, by omega, by omega⟩

structure Covers (n : ℕ) (ws : List (ℕ × ℕ)) : Prop where
  inside : ∀ w ∈ ws, w.1 ≤ w.2 ∧ w.2 ≤ n
  ordered : ws.Pairwise fun a b => a.1 < b.1
  covered : ∀ k < n, ∃ w ∈ ws, w.1 ≤ k ∧ k < w.2

theorem CoversTo.covers (h : CoversTo n n ws) : Covers n ws := ⟨h.inside, h.ordered, h.covered⟩

theorem covers_singleton (n : ℕ) : Covers n [(0, n)] where
  inside := by simp
  ordered := List.pairwise_singleton _ _
  covered := fun k hk => ⟨(0, n), by simp, Nat.zero_le k, hk⟩

theorem window_middle (before middle after : List α) :
    window (before ++ (middle ++ after)) (before.length, before.length + middle.length) = middle := by
  rw [window, ← List.append_assoc, List.take_left' (by rw [List.length_append]), List.drop_left]

end Coverage
