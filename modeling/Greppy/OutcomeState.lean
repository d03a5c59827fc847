/-
**Safe computations that only move forward.**

A parser is a stateful computation, `StateT σ (Outcome ε) α`: from a state it gives a value and the
next state, or an error, or it panics.  Over a preorder on the states we ask two things of it at once:
it never panics, and when it returns, it has only moved forward and its value has some property.  Both
are closed under sequencing and under loops, so a parser is verified by naming, for each of its parts,
the property of its value.

Main definitions:

* `Forward m Q` — `m` does not panic, and returns only in a later state with a value in `Q`;
* `failWith`, `check`, `liftOutcome`, `repeatFrom` — an error, a condition, a stateless step, and a
  loop of a given number of rounds.

Main results:

* `Forward.bind`, `Forward.mono` — sequencing and consequence;
* `Forward.of_repeatFrom` — the rule of the loop invariant.
-/

import Greppy.Outcome
import Mathlib.Data.Nat.Notation
import Mathlib.Order.Defs.PartialOrder

set_option autoImplicit false

section Forward

variable {σ ε α β : Type}

/-- Stop with an error. -/
def failWith (e : ε) : StateT σ (Outcome ε) α := fun _ => .error e

/-- A step that does not look at the state. -/
def liftOutcome (x : Outcome ε α) : StateT σ (Outcome ε) α := fun s =>
  match x with
  | .ok a => .ok (a, s)
  | .error e => .error e
  | .panic => .panic

/-- An error unless the condition holds. -/
def check (e : ε) (condition : Bool) : StateT σ (Outcome ε) Unit :=
  liftOutcome (Outcome.ensure e condition)

/-- `for _ in 0..n`, with the value that the rounds update. -/
def repeatFrom (body : α → StateT σ (Outcome ε) α) : ℕ → α → StateT σ (Outcome ε) α
  | 0, a => pure a
  | n + 1, a => body a >>= repeatFrom body n

/-! ### Running a computation from a state -/

@[simp] theorem run_pure (a : α) (s : σ) : (pure a : StateT σ (Outcome ε) α) s = .ok (a, s) := rfl

@[simp] theorem run_get (s : σ) : (get : StateT σ (Outcome ε) σ) s = .ok (s, s) := rfl

@[simp] theorem run_set (t s : σ) : (set t : StateT σ (Outcome ε) PUnit) s = .ok (⟨⟩, t) := rfl

@[simp] theorem run_bind (m : StateT σ (Outcome ε) α) (f : α → StateT σ (Outcome ε) β) (s : σ) :
    (m >>= f) s = (m s >>= fun p => f p.1 p.2) := rfl

@[simp] theorem run_liftOutcome (x : Outcome ε α) (s : σ) :
    (liftOutcome x : StateT σ (Outcome ε) α) s = (x >>= fun a => .ok (a, s)) := by
  cases x with
  | ok a => rfl
  | error e => rfl
  | panic => rfl

@[simp] theorem run_check (e : ε) (condition : Bool) (s : σ) :
    (check e condition : StateT σ (Outcome ε) Unit) s =
      (Outcome.ensure e condition >>= fun u => .ok (u, s)) :=
  run_liftOutcome _ s

/-! ### Moving forward -/

variable [Preorder σ]

/-- The computation does not panic, and when it returns, it does so in a later state and with a value
that has the property `Q`. -/
def Forward (m : StateT σ (Outcome ε) α) (Q : α → Prop) : Prop :=
  ∀ s, m s ≠ .panic ∧ ∀ a t, m s = .ok (a, t) → s ≤ t ∧ Q a

namespace Forward

variable {m : StateT σ (Outcome ε) α} {Q Q' : α → Prop} {R : β → Prop}

/-- The rule of consequence. -/
theorem mono (h : Forward m Q) (hQ : ∀ a, Q a → Q' a) : Forward m Q' := by
  intro s
  obtain ⟨hsafe, hreturns⟩ := h s
  refine ⟨hsafe, fun a t hrun => ?_⟩
  obtain ⟨hle, ha⟩ := hreturns a t hrun
  exact ⟨hle, hQ a ha⟩

theorem of_pure {a : α} (h : Q a) : Forward (pure a : StateT σ (Outcome ε) α) Q := by
  intro s
  refine ⟨fun hpanic => (by cases hpanic), fun b t hrun => ?_⟩
  cases hrun
  exact ⟨le_refl s, h⟩

theorem of_fail (e : ε) : Forward (failWith e : StateT σ (Outcome ε) α) Q := by
  intro s
  refine ⟨fun hpanic => (by cases hpanic), fun b t hrun => (by cases hrun)⟩

theorem of_lift {x : Outcome ε α} (hsafe : x.Safe) (h : ∀ a, x = .ok a → Q a) :
    Forward (liftOutcome x : StateT σ (Outcome ε) α) Q := by
  intro s
  cases x with
  | ok a =>
    refine ⟨fun hpanic => (by cases hpanic), fun b t hrun => ?_⟩
    cases hrun
    exact ⟨le_refl s, h a rfl⟩
  | error e => exact of_fail e s
  | panic => exact absurd rfl hsafe

theorem of_check (e : ε) (condition : Bool) :
    Forward (check e condition : StateT σ (Outcome ε) Unit) fun _ => condition = true :=
  of_lift (Outcome.safe_ensure e condition) fun _ h => Outcome.ensure_eq_ok_iff.1 h

theorem of_get : Forward (get : StateT σ (Outcome ε) σ) fun _ => True := by
  intro s
  refine ⟨fun hpanic => (by cases hpanic), fun b t hrun => ?_⟩
  cases hrun
  exact ⟨le_refl s, trivial⟩

/-- The rule of sequencing. -/
theorem bind {f : α → StateT σ (Outcome ε) β} (hm : Forward m Q)
    (hf : ∀ a, Q a → Forward (f a) R) : Forward (m >>= f) R := by
  intro s
  obtain ⟨hsafe, hreturns⟩ := hm s
  rw [run_bind]
  cases hfirst : m s with
  | panic => exact absurd hfirst hsafe
  | error e => exact ⟨fun hpanic => (by cases hpanic), fun b t h => (by cases h)⟩
  | ok p =>
    obtain ⟨a, t⟩ := p
    obtain ⟨hle, ha⟩ := hreturns a t hfirst
    obtain ⟨hsafe', hreturns'⟩ := hf a ha t
    refine ⟨hsafe', fun b u h => ?_⟩
    obtain ⟨hle', hb⟩ := hreturns' b u h
    exact ⟨le_trans hle hle', hb⟩

/-- **The rule of the loop invariant.** -/
theorem of_repeatFrom {body : α → StateT σ (Outcome ε) α} (hbody : ∀ a, Q a → Forward (body a) Q)
    (n : ℕ) {a : α} (ha : Q a) : Forward (repeatFrom body n a) Q := by
  induction n generalizing a with
  | zero => exact of_pure ha
  | succ n ih => exact (hbody a ha).bind fun b hb => ih hb

end Forward

end Forward
