/-
**Runs of a state machine and the invariants they keep.**

A system is a function `step : σ → ε → σ` that takes a state and an event to the next state; a run
is a list of events, and the states it visits are `List.scanl step s es`.  An invariant that every
step preserves holds in every state visited.  Often a step only preserves it under a side condition
on the state it is taken from, the *guard*.  When the guard is exactly what the step needs, a run
visits only good states precisely when each of its steps is taken under the guard.

Main definitions:

* `Guarded step guard s es` — in the run of `es` from `s`, every step is taken under the guard.

Main results:

* `forall_mem_scanl_of_guarded` — a guarded run keeps the invariant (`forall_mem_scanl`: any run, if
  every step keeps it);
* `forall_mem_scanl_iff_guarded` — **the guard is exact**: if one step keeps the invariant exactly
  under the guard, then a run keeps it exactly when the run is guarded.
-/

import Mathlib.Data.List.Basic

set_option autoImplicit false

section Runs

variable {σ ε : Type} {step : σ → ε → σ} {guard : σ → ε → Prop} {Inv : σ → Prop}

/-- Every step of the run of `es` from `s` is taken under the guard. -/
def Guarded (step : σ → ε → σ) (guard : σ → ε → Prop) : σ → List ε → Prop
  | _, [] => True
  | s, e :: es => guard s e ∧ Guarded step guard (step s e) es

/-- Whether a run is guarded can be decided if the guard can. -/
instance Guarded.decidable [∀ s e, Decidable (guard s e)] :
    (s : σ) → (es : List ε) → Decidable (Guarded step guard s es)
  | _, [] => isTrue trivial
  | s, e :: es =>
    have := Guarded.decidable (step s e) es
    inferInstanceAs (Decidable (guard s e ∧ Guarded step guard (step s e) es))

variable {guard' : σ → ε → Prop} {s : σ} {es : List ε}

theorem Guarded.and (h : Guarded step guard s es) (h' : Guarded step guard' s es) :
    Guarded step (fun s e => guard s e ∧ guard' s e) s es := by
  induction es generalizing s with
  | nil => trivial
  | cons e es ih => exact ⟨⟨h.1, h'.1⟩, ih h.2 h'.2⟩

/-- A guard that follows from another one, in the states with an invariant that the other one keeps. -/
theorem Guarded.of_invariant (hstep : ∀ s e, Inv s → guard s e → Inv (step s e))
    (himp : ∀ s e, Inv s → guard s e → guard' s e) (hs : Inv s) (h : Guarded step guard s es) :
    Guarded step guard' s es := by
  induction es generalizing s with
  | nil => trivial
  | cons e es ih => exact ⟨himp s e hs h.1, ih (hstep s e hs h.1) h.2⟩

/-- The invariant rule: a step under the guard preserves `Inv`, so a guarded run visits only states
with `Inv`. -/
theorem forall_mem_scanl_of_guarded (hstep : ∀ s e, Inv s → guard s e → Inv (step s e)) {s : σ}
    {es : List ε} (hs : Inv s) (h : Guarded step guard s es) :
    ∀ t ∈ es.scanl step s, Inv t := by
  induction es generalizing s with
  | nil => simpa using hs
  | cons e es ih =>
    obtain ⟨he, hes⟩ := h
    rw [List.scanl_cons]
    intro t ht
    rcases List.mem_cons.1 ht with rfl | ht
    · exact hs
    · exact ih (hstep s e hs he) hes t ht

theorem forall_mem_scanl (hstep : ∀ s e, Inv s → Inv (step s e)) {s : σ} (hs : Inv s) (es : List ε) :
    ∀ t ∈ es.scanl step s, Inv t := by
  have htrue : Guarded step (fun _ _ => True) s es := by
    clear hs
    induction es generalizing s with
    | nil => trivial
    | cons e es ih => exact ⟨trivial, ih⟩
  exact forall_mem_scanl_of_guarded (fun t e h _ => hstep t e h) hs htrue

/-- **The guard is exact.**  If from a state with `Inv` one step preserves `Inv` exactly under the
guard, a run visits only states with `Inv` exactly when it is guarded. -/
theorem forall_mem_scanl_iff_guarded (hstep : ∀ s e, Inv s → (Inv (step s e) ↔ guard s e))
    (hs : Inv s) : (∀ t ∈ es.scanl step s, Inv t) ↔ Guarded step guard s es := by
  constructor
  · intro h
    induction es generalizing s with
    | nil => trivial
    | cons e es ih =>
      rw [List.scanl_cons] at h
      have hnext : Inv (step s e) := h _ (List.mem_cons_of_mem _ (by cases es <;> simp))
      exact ⟨(hstep s e hs).1 hnext,
        ih hnext fun t ht => h t (List.mem_cons_of_mem _ ht)⟩
  · exact forall_mem_scanl_of_guarded (fun s e hs he => (hstep s e hs).2 he) hs

end Runs
