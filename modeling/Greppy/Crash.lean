/-
**Processes that may fail or be cut off.**

A process changes a state that outlives it, such as a directory, in steps that are atomic.  Each step
may fail, which the process sees and handles, and the process may be killed between two steps, which it
does not see.  Whoever looks at the state later, or at the same time, finds one of the states that the
process went through.  So we let the process record these states, and ask of it, next to what holds
when it returns or fails, what holds in all of them.

Main definitions:

* `History`, `Process` — the states gone through, and computations with errors over them;
* `current`, `enter`, `ask` — look at the state, change it, and take the number of the next answer
  from outside;
* `Guards I P m Q E` — from a state in `P`, the process goes through states in `I` only, and ends in
  `Q` if it returns and in `E` if it fails.

Main results:

* `Guards.of_bind`, `Guards.of_rescue`, `Guards.of_enter` — the rules of the constructs;
* `Guards.of_foldEach` — the rule of the loop over a list.
-/

import Mathlib.Data.List.Basic

set_option autoImplicit false

/-- The state of a process, the states it went through, and the number of answers it took. -/
structure History (σ : Type) where
  now : σ
  past : List σ
  asked : ℕ

/-- A process over states `σ` that returns `α` or fails with `ε`. -/
abbrev Process (ε σ α : Type) : Type := ExceptT ε (StateM (History σ)) α

namespace Process

variable {ε σ α β : Type}

/-- The state. -/
def current : Process ε σ σ := fun h => (.ok h.now, h)

/-- An atomic step to a state. -/
def enter (s : σ) : Process ε σ Unit := fun h => (.ok (), { h with now := s, past := s :: h.past })

/-- The number of the next answer from outside. -/
def ask : Process ε σ ℕ := fun h => (.ok h.asked, { h with asked := h.asked + 1 })

def fail (e : ε) : Process ε σ α := fun h => (.error e, h)

/-- Go on after a failure. -/
def rescue (m : Process ε σ α) (handler : ε → Process ε σ α) : Process ε σ α := fun h =>
  match m h with
  | (.ok a, h') => (.ok a, h')
  | (.error e, h') => handler e h'

/-- A process whose failure does not matter. -/
def ignore (m : Process ε σ Unit) : Process ε σ Unit := rescue m fun _ => pure ()

/-- A loop over a list, with the value that the rounds update. -/
def foldEach (body : β → α → Process ε σ β) : List α → β → Process ε σ β
  | [], b => pure b
  | a :: items, b => body b a >>= fun b => foldEach body items b

/-- A process that has gone through no other state than the one it starts in. -/
def start (s : σ) : History σ := ⟨s, [s], 0⟩

@[simp] theorem run_pure (a : α) (h : History σ) :
    (pure a : Process ε σ α) h = (.ok a, h) := rfl

theorem run_bind (m : Process ε σ α) (f : α → Process ε σ β) (h : History σ) :
    (m >>= f) h = match m h with
      | (.ok a, h') => f a h'
      | (.error e, h') => (.error e, h') := by
  have hcont : (m >>= f) h = ExceptT.bindCont f (m h).1 (m h).2 := rfl
  rw [hcont]
  cases m h with
  | mk r after => cases r with
    | ok a => rfl
    | error e => rfl

end Process

/-- From a state in `P` and a past in `I`, the process goes through states in `I` only, and ends in a
state in `Q` if it returns and in `E` if it fails. -/
def Guards {ε σ α : Type} (I P : σ → Prop) (m : Process ε σ α) (Q : α → σ → Prop)
    (E : ε → σ → Prop) : Prop :=
  ∀ h : History σ, P h.now → (∀ s ∈ h.past, I s) →
    (∀ s ∈ (m h).2.past, I s) ∧
      match (m h).1 with
      | .ok a => Q a (m h).2.now
      | .error e => E e (m h).2.now

namespace Guards

open Process

variable {ε σ α β : Type} {I P P' : σ → Prop} {m : Process ε σ α} {Q Q' : α → σ → Prop}
  {R : β → σ → Prop} {E E' : ε → σ → Prop}

/-- The rule of consequence. -/
theorem mono (h : Guards I P m Q E) (hP : ∀ s, P' s → P s) (hQ : ∀ a s, Q a s → Q' a s)
    (hE : ∀ e s, E e s → E' e s) : Guards I P' m Q' E' := by
  intro start hstart hpast
  obtain ⟨hstates, hend⟩ := h start (hP _ hstart) hpast
  refine ⟨hstates, ?_⟩
  cases hrun : (m start).1 with
  | ok a =>
    rw [hrun] at hend
    exact hQ a _ hend
  | error e =>
    rw [hrun] at hend
    exact hE e _ hend

/-- One may argue about each state that the process can start in. -/
theorem of_forall (h : ∀ s, P s → Guards I (fun t => t = s) m Q E) : Guards I P m Q E := by
  intro start hstart hpast
  exact h start.now hstart start rfl hpast

theorem of_pure {a : α} (h : ∀ s, P s → Q a s) : Guards I P (pure a : Process ε σ α) Q E := by
  intro start hstart hpast
  exact ⟨hpast, h _ hstart⟩

theorem of_fail {e : ε} (h : ∀ s, P s → E e s) : Guards I P (fail e : Process ε σ α) Q E := by
  intro start hstart hpast
  exact ⟨hpast, h _ hstart⟩

/-- The rule of sequencing. -/
theorem of_bind {f : α → Process ε σ β} (hm : Guards I P m Q E)
    (hf : ∀ a, Guards I (Q a) (f a) R E) : Guards I P (m >>= f) R E := by
  intro start hstart hpast
  obtain ⟨hstates, hend⟩ := hm start hstart hpast
  rw [run_bind]
  cases hrun : m start with
  | mk r after =>
    rw [hrun] at hstates hend
    cases r with
    | ok a => exact hf a after hend hstates
    | error e => exact ⟨hstates, hend⟩

/-- The rule of the handler. -/
theorem of_rescue {handler : ε → Process ε σ α} (hm : Guards I P m Q E)
    (hh : ∀ e, Guards I (E e) (handler e) Q E') : Guards I P (rescue m handler) Q E' := by
  intro start hstart hpast
  obtain ⟨hstates, hend⟩ := hm start hstart hpast
  unfold rescue
  cases hrun : m start with
  | mk r after =>
    rw [hrun] at hstates hend
    cases r with
    | ok a => exact ⟨hstates, hend⟩
    | error e => exact hh e after hend hstates

/-- A step to a state. -/
theorem of_enter {s : σ} {Q : Unit → σ → Prop} (h : ∀ t, P t → I s ∧ Q () s) :
    Guards I P (enter s : Process ε σ Unit) Q E := by
  intro start hstart hpast
  obtain ⟨hguard, hend⟩ := h _ hstart
  refine ⟨fun t ht => ?_, hend⟩
  rcases List.mem_cons.1 ht with rfl | hold
  · exact hguard
  · exact hpast t hold

theorem of_current {f : σ → Process ε σ β} (h : ∀ s, P s → Guards I (fun t => t = s) (f s) R E) :
    Guards I P (current >>= f) R E := by
  intro start hstart hpast
  exact h start.now hstart start rfl hpast

theorem of_ask {f : ℕ → Process ε σ β} (h : ∀ n, Guards I P (f n) R E) :
    Guards I P (ask >>= f) R E := by
  intro start hstart hpast
  exact h start.asked ⟨start.now, start.past, start.asked + 1⟩ hstart hpast

/-- **The rule of the loop**: an invariant of the body is an invariant of the loop. -/
theorem of_foldEach {γ : Type} {body : β → γ → Process ε σ β} {items : List γ}
    (h : ∀ b, ∀ item ∈ items, Guards I P (body b item) (fun _ => P) E) (b : β) :
    Guards I P (foldEach body items b) (fun _ => P) E := by
  induction items generalizing b with
  | nil => exact of_pure fun _ hs => hs
  | cons item items ih =>
    exact (h b item List.mem_cons_self).of_bind fun b =>
      ih (fun b other hother => h b other (List.mem_cons_of_mem _ hother)) b

/-- What a process that is run from a state goes through, and where it ends. -/
theorem of_start (h : Guards I P m Q E) {s : σ} (hP : P s) (hI : I s) :
    (∀ t ∈ (m (start s)).2.past, I t) ∧
      match (m (start s)).1 with
      | .ok a => Q a (m (start s)).2.now
      | .error e => E e (m (start s)).2.now := by
  refine h (start s) hP fun t ht => ?_
  rw [List.mem_singleton.1 ht]
  exact hI

end Guards
