/-
**Sequences of atomic steps that may be interrupted and resumed.**

A maintenance job applies a list of steps in order and stops at the first one that fails.  Each step
has an intended effect `apply : μ → σ → Except ε σ` on a state, and an implementation that works on
a richer state (a connection with an open transaction, say) of which `view` is the durable part.
The implementation is *atomic* when every call either has the whole intended effect on the durable
part or none of it.

Main definitions:

* `applyAll` — the intended effect of a list of steps;
* `AtomicFor` — every call of the implementation has its whole effect or none;
* `runSteps` — the job: call the implementation in order, count the successes, stop at a failure.

Main results:

* `runSteps_eq_prefix` — **an interrupted job leaves a prefix of the steps applied**, and stops
  early exactly when it reports a failure;
* `runSteps_resume` — a job that does not fail of its own accord can be **resumed** where a prefix
  of it ended, with the same outcome.
-/

import Mathlib.Data.List.Basic

set_option autoImplicit false

section AtomicSteps

variable {μ σ γ ε : Type} {apply : μ → σ → Except ε σ} {view : γ → σ}
  {impl : μ → γ → Except ε Unit × γ}

/-- The intended effect of all the steps, in order. -/
def applyAll (apply : μ → σ → Except ε σ) : List μ → σ → Except ε σ
  | [], s => .ok s
  | m :: ms, s =>
    match apply m s with
    | .ok t => applyAll apply ms t
    | .error e => .error e

/-- Every call of `impl` has the whole effect of its step on the durable part, or none of it. -/
def AtomicFor (apply : μ → σ → Except ε σ) (view : γ → σ) (impl : μ → γ → Except ε Unit × γ) :
    Prop :=
  ∀ m c, ((impl m c).1 = .ok () ∧ apply m (view c) = .ok (view (impl m c).2)) ∨
    ((∃ e, (impl m c).1 = .error e) ∧ view (impl m c).2 = view c)

/-- Call `impl` on the steps in order, counting from `n`, up to the first failure. -/
def runSteps (impl : μ → γ → Except ε Unit × γ) : List μ → ℕ → γ → Except ε ℕ × γ
  | [], n, c => (.ok n, c)
  | m :: ms, n, c =>
    match impl m c with
    | (.ok (), c') => runSteps impl ms (n + 1) c'
    | (.error e, c') => (.error e, c')

/-- **An interrupted job leaves a prefix of the steps applied.**  It reports the number of steps
when the prefix is the whole list, and a failure when it is not. -/
theorem runSteps_eq_prefix (h : AtomicFor apply view impl) (ms : List μ) (n : ℕ) (c : γ) :
    ∃ k ≤ ms.length,
      applyAll apply (ms.take k) (view c) = .ok (view (runSteps impl ms n c).2) ∧
      ((runSteps impl ms n c).1 = .ok (n + k) ∧ k = ms.length ∨
        (∃ e, (runSteps impl ms n c).1 = .error e) ∧ k < ms.length) := by
  induction ms generalizing n c with
  | nil => exact ⟨0, Nat.le_refl _, rfl, Or.inl ⟨rfl, rfl⟩⟩
  | cons m ms ih =>
    rcases hm : impl m c with ⟨r, c'⟩
    rcases h m c with ⟨hok, happ⟩ | ⟨⟨e, herr⟩, hview⟩
    · simp only [hm] at hok happ
      subst hok
      obtain ⟨k, hk, hpre, hres⟩ := ih (n + 1) c'
      refine ⟨k + 1, by simpa using hk, ?_, ?_⟩
      · simpa [applyAll, happ, runSteps, hm] using hpre
      · simp only [runSteps, hm, List.length_cons]
        rcases hres with ⟨hr, hlen⟩ | ⟨hr, hlen⟩
        · exact Or.inl ⟨by rw [hr]; congr 1; omega, by omega⟩
        · exact Or.inr ⟨hr, by omega⟩
    · simp only [hm] at herr hview
      subst herr
      refine ⟨0, Nat.zero_le _, ?_, ?_⟩
      · simp [applyAll, runSteps, hm, hview]
      · exact Or.inr ⟨⟨e, by simp [runSteps, hm]⟩, by simp⟩

theorem runSteps_shift (impl : μ → γ → Except ε Unit × γ) (ms : List μ) (n : ℕ) (c : γ) :
    runSteps impl ms n c =
      ((runSteps impl ms 0 c).1.map (n + ·), (runSteps impl ms 0 c).2) := by
  induction ms generalizing n c with
  | nil => simp [runSteps, Except.map]
  | cons m ms ih =>
    rcases hm : impl m c with ⟨r, c'⟩
    cases r with
    | error e => simp [runSteps, hm, Except.map]
    | ok u =>
      simp only [runSteps, hm]
      rw [ih (n + 1), ih (0 + 1)]
      cases (runSteps impl ms 0 c').1 with
      | error e => rfl
      | ok k => simp [Except.map, Nat.add_assoc]

/-- **Resuming.**  Where the implementation succeeds exactly when the step can be applied, and its
result depends on the durable part only through `make`, running the rest of the steps from where a
prefix ended is running all of them. -/
theorem runSteps_resume {make : σ → γ}
    (himpl : ∀ m s t, apply m s = .ok t → impl m (make s) = (.ok (), make t))
    (ms : List μ) (n k : ℕ) (s t : σ) (hk : k ≤ ms.length)
    (h : applyAll apply (ms.take k) s = .ok t) :
    runSteps impl ms n (make s) = runSteps impl (ms.drop k) (n + k) (make t) := by
  induction k generalizing ms n s with
  | zero =>
    simp only [List.take_zero, applyAll, Except.ok.injEq] at h
    rw [h, List.drop_zero, Nat.add_zero]
  | succ k ih =>
    cases ms with
    | nil => simp at hk
    | cons m ms =>
      simp only [List.take_succ_cons, applyAll] at h
      cases hm : apply m s with
      | error e => simp [hm] at h
      | ok u =>
        rw [hm] at h
        simp only [runSteps, himpl m s u hm, List.drop_succ_cons]
        rw [ih ms (n + 1) u (by simpa using hk) h]
        congr 1
        omega

end AtomicSteps
