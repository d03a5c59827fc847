/-
**Computations that return, fail, or panic.**

A function of a systems language has three ways to end: it returns a value, it returns an error, or
it aborts.  `Outcome ε α` tells them apart, so that the absence of aborts can be stated and proved.
A computation is *safe* when it does not panic; safety of a sequence follows from safety of its first
step and, whatever that returns, of the rest.

Main definitions:

* `Outcome` — a value, an error or a panic, with its monad;
* `Outcome.Safe` — no panic.

Main results:

* `Outcome.bind_eq_ok_iff`, `Outcome.bind_eq_panic_iff` — what a sequence does;
* `Outcome.Safe.bind` — sequences of safe steps are safe.
-/

import Mathlib.Data.Option.Defs

set_option autoImplicit false

/-- How a computation ends. -/
inductive Outcome (ε α : Type) where
  | ok (a : α)
  | error (e : ε)
  | panic
  deriving DecidableEq

namespace Outcome

variable {ε α β : Type}

/-- Go on with the value, if there is one. -/
def bind (x : Outcome ε α) (f : α → Outcome ε β) : Outcome ε β :=
  match x with
  | ok a => f a
  | error e => error e
  | panic => panic

instance : Monad (Outcome ε) where
  pure := ok
  bind := bind

/-- `ok_or`: a missing value is an error. -/
def ofOption (e : ε) : Option α → Outcome ε α
  | some a => ok a
  | none => error e

/-- `unwrap`: a missing value is a panic. -/
def unwrap : Option α → Outcome ε α
  | some a => ok a
  | none => panic

/-- An error unless the condition holds. -/
def ensure (e : ε) (condition : Bool) : Outcome ε Unit := if condition then ok () else error e

/-- The computation does not panic. -/
def Safe (x : Outcome ε α) : Prop := x ≠ panic

@[simp] theorem bind_ok (a : α) (f : α → Outcome ε β) : (ok a >>= f) = f a := rfl

@[simp] theorem bind_error (e : ε) (f : α → Outcome ε β) : (error e >>= f) = error e := rfl

@[simp] theorem bind_panic (f : α → Outcome ε β) : (panic >>= f) = panic := rfl

@[simp] theorem pure_eq_ok (a : α) : (pure a : Outcome ε α) = ok a := rfl

@[simp] theorem ofOption_some (e : ε) (a : α) : ofOption e (some a) = ok a := rfl

@[simp] theorem ensure_true (e : ε) : ensure e true = ok () := rfl

variable {x : Outcome ε α} {f : α → Outcome ε β}

theorem bind_eq_ok_iff {b : β} : (x >>= f) = ok b ↔ ∃ a, x = ok a ∧ f a = ok b := by
  cases x with
  | ok a => simp
  | error e => simp
  | panic => simp

theorem bind_eq_panic_iff : (x >>= f) = panic ↔ x = panic ∨ ∃ a, x = ok a ∧ f a = panic := by
  cases x with
  | ok a => simp
  | error e => simp
  | panic => simp

theorem ofOption_eq_ok_iff {e : ε} {o : Option α} {a : α} : ofOption e o = ok a ↔ o = some a := by
  cases o with
  | none => simp [ofOption]
  | some b => simp [ofOption]

theorem ensure_eq_ok_iff {e : ε} {condition : Bool} {u : Unit} :
    ensure e condition = ok u ↔ condition = true := by
  cases condition with
  | false => simp [ensure]
  | true => simp [ensure]

theorem unwrap_eq_ok_iff {o : Option α} {a : α} : (unwrap o : Outcome ε α) = ok a ↔ o = some a := by
  cases o with
  | none => simp [unwrap]
  | some b => simp [unwrap]

theorem safe_ok (a : α) : (ok a : Outcome ε α).Safe := by
  intro h
  cases h

theorem safe_error (e : ε) : (error e : Outcome ε α).Safe := by
  intro h
  cases h

theorem safe_ofOption (e : ε) (o : Option α) : (ofOption e o).Safe := by
  cases o with
  | none => exact safe_error e
  | some a => exact safe_ok a

theorem safe_ensure (e : ε) (condition : Bool) : (ensure e condition).Safe := by
  cases condition with
  | false => exact safe_error e
  | true => exact safe_ok ()

/-- A sequence is safe if its first step is and, on every value that gives, so is the rest. -/
theorem Safe.bind (hx : x.Safe) (hf : ∀ a, x = ok a → (f a).Safe) : (x >>= f).Safe := by
  intro hpanic
  rcases bind_eq_panic_iff.1 hpanic with h | ⟨a, ha, h⟩
  · exact hx h
  · exact hf a ha h

/-- A fold of safe steps is safe. -/
theorem safe_foldlM {f : β → α → Outcome ε β} (hf : ∀ b a, (f b a).Safe) (l : List α) (b : β) :
    (l.foldlM f b).Safe := by
  induction l generalizing b with
  | nil => exact safe_ok b
  | cons a l ih =>
    rw [List.foldlM_cons]
    exact (hf b a).bind fun c _ => ih c

end Outcome
