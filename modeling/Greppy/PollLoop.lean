/-
**Loops that poll their surroundings until they return.**

A loop such as `loop { match stream.read(..) { .. } }` keeps a state, takes one answer from outside in
each round, and either goes on or returns.  One round is a function `step : σ → ι → σ × Option ρ`:
from the state and the answer to the next state and, when the round returns, the result.  What the
outside does is a list of answers, one for each round; on a list that ends before the loop returns
the loop is still running.

Main definitions:

* `PollLoop.run step s answers` — the state after the rounds and the result, if the loop returned.

Main results:

* `PollLoop.run_rule` — **the rule of the loop invariant**: an invariant of the answers so far and the
  state holds of a loop that is still running, and whatever every returning round establishes holds
  of a loop that returned, for the answers it took;
* `PollLoop.run_isSome_of_mem` — a loop that returns on some answer whatever its state, returns on
  every list with that answer in it.
-/

import Mathlib.Data.List.Basic

set_option autoImplicit false

namespace PollLoop

section Run

variable {σ ι ρ : Type} {step : σ → ι → σ × Option ρ}

/-- The rounds of a loop, one for each answer, up to the round that returns. -/
def run (step : σ → ι → σ × Option ρ) : σ → List ι → σ × Option ρ
  | s, [] => (s, none)
  | s, i :: answers =>
    match step s i with
    | (t, none) => run step t answers
    | (t, some r) => (t, some r)

variable {s t : σ} {i : ι} {Inv : List ι → σ → Prop} {Post : List ι → σ → ρ → Prop}

/-- One round: either it goes on with the rest of the answers, or the loop returned. -/
theorem run_cons_of_none (h : step s i = (t, none)) (answers : List ι) :
    run step s (i :: answers) = run step t answers := by
  rw [run, h]

theorem run_cons_of_some {r : ρ} (h : step s i = (t, some r)) (answers : List ι) :
    run step s (i :: answers) = (t, some r) := by
  rw [run, h]

/-- What a round has to establish: the invariant when the loop goes on, and the postcondition when it
returns. -/
def Keeps (step : σ → ι → σ × Option ρ) (Inv : List ι → σ → Prop)
    (Post : List ι → σ → ρ → Prop) : Prop :=
  ∀ seen s i, Inv seen s →
    (∀ t, step s i = (t, none) → Inv (seen ++ [i]) t) ∧
      ∀ t r, step s i = (t, some r) → Post (seen ++ [i]) t r

/-- The rule of the loop invariant, for a loop that has already taken the answers `seen`. -/
theorem run_rule_from (hkeeps : Keeps step Inv Post) {seen : List ι} (hs : Inv seen s)
    (answers : List ι) :
    (∀ t, run step s answers = (t, none) → Inv (seen ++ answers) t) ∧
      ∀ t r, run step s answers = (t, some r) →
        ∃ taken rest, answers = taken ++ rest ∧ Post (seen ++ taken) t r := by
  -- the answers taken so far grow by one in each round
  induction answers generalizing seen s with
  | nil =>
    refine ⟨fun t h => ?_, fun t r h => ?_⟩
    · rw [run, Prod.mk.injEq] at h
      rw [List.append_nil, ← h.1]
      exact hs
    · rw [run, Prod.mk.injEq] at h
      exact absurd h.2 (by simp)
  | cons i answers ih =>
    obtain ⟨hgoes, hreturns⟩ := hkeeps seen s i hs
    rcases hround : step s i with ⟨t, _ | r⟩
    · rw [run_cons_of_none hround]
      obtain ⟨hgo, hret⟩ := ih (hgoes t hround)
      refine ⟨fun t' h => ?_, fun t' r h => ?_⟩
      · have hinv := hgo t' h
        rwa [List.append_assoc, List.singleton_append] at hinv
      · obtain ⟨taken, rest, rfl, hpost⟩ := hret t' r h
        rw [List.append_assoc, List.singleton_append] at hpost
        exact ⟨i :: taken, rest, rfl, hpost⟩
    · rw [run_cons_of_some hround]
      refine ⟨fun t' h => ?_, fun t' r' h => ?_⟩
      · exact absurd (congrArg Prod.snd h) (by simp)
      · cases h
        exact ⟨[i], answers, rfl, hreturns t r hround⟩

/-- **The rule of the loop invariant.** -/
theorem run_rule (hkeeps : Keeps step Inv Post) (hs : Inv [] s) (answers : List ι) :
    (∀ t, run step s answers = (t, none) → Inv answers t) ∧
      ∀ t r, run step s answers = (t, some r) →
        ∃ taken rest, answers = taken ++ rest ∧ Post taken t r :=
  run_rule_from hkeeps hs answers

/-- A loop that returns on the answer `i` in every state returns on every list of answers that has
`i` in it. -/
theorem run_isSome_of_mem (hi : ∀ s, (step s i).2.isSome = true) {answers : List ι}
    (hmem : i ∈ answers) (s : σ) : (run step s answers).2.isSome = true := by
  induction answers generalizing s with
  | nil => exact absurd hmem List.not_mem_nil
  | cons j answers ih =>
    rcases hround : step s j with ⟨t, _ | r⟩
    · rw [run_cons_of_none hround]
      rcases List.mem_cons.1 hmem with rfl | hrest
      · have hreturns := hi s
        rw [hround] at hreturns
        exact absurd hreturns (by simp)
      · exact ih hrest t
    · rw [run_cons_of_some hround]
      rfl

end Run

end PollLoop
