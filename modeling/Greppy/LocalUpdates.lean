/-
**Loops whose turns touch different keys.**

A loop works through a list of items, each of which has a key and changes a state only at that key.
What the state shows at a key afterwards is then what the one item with that key made of it: the
order of the turns does not matter, and neither do the other items.

The state is seen through a `view`, a value at each key; an item may do anything to the state that
the view does not show.  Values are compared by a preorder `r`: with equality the view is known
exactly, with an order it is known up to a bound.

Main definitions:

* `Local` — every turn updates the view at its own key, by a function of the value there.

Main results:

* `Local.view_foldl`, `Local.view_foldl_of_not_mem` — **what a loop over distinct keys leaves at a
  key**, and what it leaves at a key it never meets.
-/

import Mathlib.Data.List.Nodup

set_option autoImplicit false

variable {σ ι κ β : Type} [DecidableEq κ]

/-- On good states, applying an item changes the view at the item's key only, and there by
`update`. -/
structure Local (r : β → β → Prop) (good : σ → Prop) (view : σ → κ → β) (apply : σ → ι → σ)
    (key : ι → κ) (update : ι → β → β) : Prop where
  refl : ∀ b, r b b
  trans : ∀ {a b c}, r a b → r b c → r a c
  mono : ∀ i {a b}, r a b → r (update i a) (update i b)
  good_apply : ∀ {s} i, good s → good (apply s i)
  view_apply : ∀ {s} i k, good s →
    r (view (apply s i) k) (if key i = k then update i (view s k) else view s k)

namespace Local

variable {r : β → β → Prop} {good : σ → Prop} {view : σ → κ → β} {apply : σ → ι → σ} {key : ι → κ}
  {update : ι → β → β}

theorem good_foldl (h : Local r good view apply key update) (l : List ι) {s : σ} (hs : good s) :
    good (l.foldl apply s) := by
  induction l generalizing s with
  | nil => exact hs
  | cons i l ih => exact ih (h.good_apply i hs)

theorem view_foldl_of_not_mem (h : Local r good view apply key update) {l : List ι} {k : κ}
    (hk : k ∉ l.map key) {s : σ} (hs : good s) : r (view (l.foldl apply s) k) (view s k) := by
  induction l generalizing s with
  | nil => exact h.refl _
  | cons i l ih =>
    rw [List.map_cons, List.mem_cons, not_or] at hk
    have hturn := h.view_apply i k hs
    rw [if_neg (Ne.symm hk.1)] at hturn
    exact h.trans (ih hk.2 (h.good_apply i hs)) hturn

/-- **What a loop over distinct keys leaves at a key**: the work of the one item with that key. -/
theorem view_foldl (h : Local r good view apply key update) {l : List ι} (hl : (l.map key).Nodup)
    {i : ι} (hi : i ∈ l) {s : σ} (hs : good s) :
    r (view (l.foldl apply s) (key i)) (update i (view s (key i))) := by
  induction l generalizing s with
  | nil => cases hi
  | cons j l ih =>
    rw [List.map_cons, List.nodup_cons] at hl
    have hturn := h.view_apply j (key i) hs
    rw [List.foldl_cons]
    rcases List.mem_cons.1 hi with rfl | hi
    · rw [if_pos rfl] at hturn
      exact h.trans (h.view_foldl_of_not_mem hl.1 (h.good_apply i hs)) hturn
    · have hne : key j ≠ key i := fun heq => hl.1 (heq ▸ List.mem_map_of_mem hi)
      rw [if_neg hne] at hturn
      exact h.trans (ih hl.2 hi (h.good_apply j hs)) (h.mono i hturn)

end Local
