/-
**Fallible functions over a list.**

`List.mapM` in `Except` stops at the first failure.  Two facts about it are all the later modules need: it
only depends on the values of the function at the elements of the list, and it succeeds exactly when
the function does at every element, with the list of its values as the result.

Main results:

* `Except.bind_eq_ok_iff`, `Except.map_eq_ok_iff` — what a step that succeeds is made of;
* `List.mapM_except_congr` — the values at the elements decide the outcome, failures included;
* `List.mapM_eq_ok_iff` — **success is success everywhere**;
* `List.foldlM_ok_induction`, `List.foldlM_ok_invariant` — what every successful step of a loop keeps,
  a successful loop keeps;
* `List.eventsM`, `List.foldlM_ok_events` — what the steps of a loop tell, and the rule with it;
* `List.foldlM_flatMap` — a loop over the lists of a list;
* `List.foldlM_map_eq_ok_iff` — a loop that fails with the items, and does not fail otherwise.
-/

import Mathlib.Data.List.Basic

set_option autoImplicit false

/-! ### A single step -/

/-- A sequence succeeds when its first step does, and then the rest. -/
theorem Except.bind_eq_ok_iff {α β ε : Type} {x : Except ε α} {f : α → Except ε β} {b : β} :
    x >>= f = .ok b ↔ ∃ a, x = .ok a ∧ f a = .ok b := by
  cases x with
  | error e => simp [bind, Except.bind]
  | ok a => simp [bind, Except.bind]

theorem Except.map_eq_ok_iff {α β ε : Type} {x : Except ε α} {f : α → β} {b : β} :
    x.map f = .ok b ↔ ∃ a, x = .ok a ∧ f a = b := by
  cases x with
  | error e => simp [Except.map]
  | ok a => simp [Except.map]

/-! ### Lists -/

namespace List

variable {α β ε : Type}

variable {f : α → Except ε β} {l : List α} {σ : Type} {s s' : σ}

theorem mapM_except_congr {g : α → Except ε β} (h : ∀ a ∈ l, f a = g a) : l.mapM f = l.mapM g := by
  induction l with
  | nil => rfl
  | cons a l ih =>
    rw [mapM_cons, mapM_cons, h a (by simp), ih fun b hb => h b (by simp [hb])]

/-- **Success is success everywhere.**  The default `d` is not used then. -/
theorem mapM_eq_ok_iff {bs : List β} (d : β) :
    l.mapM f = .ok bs ↔
      (∀ a ∈ l, ∃ b, f a = .ok b) ∧ bs = l.map fun a => (f a).toOption.getD d := by
  induction l generalizing bs with
  | nil => simp [pure, Except.pure, eq_comm]
  | cons a l ih =>
    rw [mapM_cons]
    cases hf : f a with
    | error e => simp [bind, Except.bind, hf]
    | ok b =>
      cases hl : l.mapM f with
      | error e =>
        have hnot : ¬ ∀ a ∈ l, ∃ b, f a = .ok b := by
          intro hall
          have := (@ih (l.map fun a => (f a).toOption.getD d)).2 ⟨hall, rfl⟩
          rw [hl] at this
          cases this
        simp only [bind, Except.bind, reduceCtorEq, mem_cons, forall_eq_or_imp, false_iff]
        exact fun h => hnot h.1.2
      | ok bs' =>
        obtain ⟨hall, hbs'⟩ := ih.1 hl
        simp only [bind, Except.bind, pure, Except.pure, Except.ok.injEq, mem_cons,
          forall_eq_or_imp, map_cons, hf, Except.toOption, Option.getD_some, exists_eq',
          true_and]
        rw [hbs']
        constructor
        · rintro rfl
          exact ⟨hall, rfl⟩
        · rintro ⟨_, rfl⟩
          rfl

theorem foldlM_ok_of_fixed {f : σ → α → Except ε σ} (h : ∀ a ∈ l, f s a = .ok s) :
    l.foldlM f s = .ok s := by
  induction l with
  | nil => rfl
  | cons a l ih =>
    rw [foldlM_cons, h a mem_cons_self]
    exact ih fun b hb => h b (mem_cons_of_mem _ hb)

/-- The rule of a fallible loop: `P` tells of each state which items it has dealt with. -/
theorem foldlM_ok_induction {f : σ → α → Except ε σ} {P : List α → σ → Prop}
    (hstep : ∀ done a s s', P done s → f s a = .ok s' → P (done ++ [a]) s') (hinit : P [] s)
    (h : l.foldlM f s = .ok s') : P l s' := by
  have hgen : ∀ (l done : List α) (s : σ), P done s → l.foldlM f s = .ok s' → P (done ++ l) s' := by
    intro l
    induction l with
    | nil =>
      intro done s hP hs
      cases hs
      rw [append_nil]
      exact hP
    | cons a l ih =>
      intro done s hP hs
      rw [foldlM_cons] at hs
      cases hf : f s a with
      | error e =>
        rw [hf] at hs
        cases hs
      | ok t =>
        rw [hf] at hs
        have hall := ih (done ++ [a]) t (hstep done a s t hP hf) hs
        rw [append_assoc, singleton_append] at hall
        exact hall
  exact hgen l [] s hinit h

/-- The same with an invariant, and with the items known to be of the list. -/
theorem foldlM_ok_invariant {f : σ → α → Except ε σ} {P : σ → Prop}
    (hstep : ∀ a ∈ l, ∀ s s', P s → f s a = .ok s' → P s') (hinit : P s) (h : l.foldlM f s = .ok s') :
    P s' := by
  induction l generalizing s with
  | nil =>
    cases h
    exact hinit
  | cons a l ih =>
    rw [foldlM_cons] at h
    cases hf : f s a with
    | error e =>
      rw [hf] at h
      cases h
    | ok t =>
      rw [hf] at h
      exact ih (fun b hb => hstep b (mem_cons_of_mem _ hb)) (hstep a mem_cons_self s t hinit hf) h

theorem exists_foldlM_ok {f : σ → α → Except ε σ} (h : ∀ a ∈ l, ∀ s, ∃ t, f s a = .ok t) (s : σ) :
    ∃ t, l.foldlM f s = .ok t := by
  induction l generalizing s with
  | nil => exact ⟨s, rfl⟩
  | cons a l ih =>
    obtain ⟨t, ht⟩ := h a mem_cons_self s
    rw [foldlM_cons, ht]
    exact ih (fun b hb => h b (mem_cons_of_mem _ hb)) t

/-- What the steps of a loop tell: `events` of each item and of the state that it came to. -/
def eventsM {σ ι : Type} (f : σ → α → Except ε σ) (events : σ → α → List ι) : σ → List α → List ι
  | _, [] => []
  | s, a :: l =>
    events s a ++
      match f s a with
      | .ok t => eventsM f events t l
      | .error _ => []

theorem foldlM_ok_events {ι : Type} {f : σ → α → Except ε σ} {events : σ → α → List ι}
    {P : List α → List ι → σ → Prop}
    (hstep : ∀ done log a s s', P done log s → f s a = .ok s' → P (done ++ [a]) (log ++ events s a) s')
    (done : List α) {log : List ι} (hinit : P done log s) (h : l.foldlM f s = .ok s') :
    P (done ++ l) (log ++ eventsM f events s l) s' := by
  induction l generalizing done log s with
  | nil =>
    cases h
    rw [eventsM, append_nil, append_nil]
    exact hinit
  | cons a l ih =>
    rw [foldlM_cons] at h
    cases hf : f s a with
    | error e =>
      rw [hf] at h
      cases h
    | ok t =>
      rw [hf] at h
      have hrest := ih (done ++ [a]) (hstep done log a s t hinit hf) h
      rw [append_assoc, singleton_append, append_assoc] at hrest
      rw [eventsM, hf]
      exact hrest

/-- A loop whose steps only fail with the item they read is a loop over what was read. -/
theorem foldlM_map_eq_ok_iff {step : σ → β → σ} :
    l.foldlM (fun s a => (f a).map (step s)) s = .ok s' ↔
      (∀ a ∈ l, ∃ b, f a = .ok b) ∧ s' = (l.filterMap fun a => (f a).toOption).foldl step s := by
  induction l generalizing s with
  | nil => simp [pure, Except.pure, eq_comm]
  | cons a l ih =>
    rw [foldlM_cons]
    cases hf : f a with
    | error e =>
      simp only [Except.map, bind, Except.bind, reduceCtorEq, mem_cons, forall_eq_or_imp, hf,
        exists_false, false_and]
    | ok b =>
      have hread : (a :: l).filterMap (fun a => (f a).toOption) =
          b :: l.filterMap fun a => (f a).toOption :=
        filterMap_cons_some (by simp only [hf, Except.toOption])
      rw [hread]
      simp only [Except.map, bind, Except.bind, mem_cons, forall_eq_or_imp, hf, Except.ok.injEq,
        exists_eq', true_and, foldl_cons]
      exact ih

theorem map_foldlM_map_eq_ok_iff {γ : Type} {step : σ → β → σ} {g : σ → γ} {x : γ} :
    (l.foldlM (fun s a => (f a).map (step s)) s).map g = .ok x ↔
      (∀ a ∈ l, ∃ b, f a = .ok b) ∧
        x = g ((l.filterMap fun a => (f a).toOption).foldl step s) := by
  cases hfold : l.foldlM (fun s a => (f a).map (step s)) s with
  | error e =>
    simp only [Except.map, reduceCtorEq, false_iff]
    rintro ⟨hall, -⟩
    have hok : l.foldlM (fun s a => (f a).map (step s)) s =
        .ok ((l.filterMap fun a => (f a).toOption).foldl step s) :=
      foldlM_map_eq_ok_iff.2 ⟨hall, rfl⟩
    rw [hfold] at hok
    cases hok
  | ok s' =>
    obtain ⟨hall, rfl⟩ := foldlM_map_eq_ok_iff.1 hfold
    simp only [Except.map, Except.ok.injEq]
    constructor
    · intro h
      exact ⟨hall, h.symm⟩
    · intro h
      exact h.2.symm

theorem mem_filterMap_toOption {b : β} :
    b ∈ l.filterMap (fun a => (f a).toOption) ↔ ∃ a ∈ l, f a = .ok b := by
  rw [mem_filterMap]
  refine exists_congr fun a => and_congr_right fun _ => ?_
  cases f a <;> simp [Except.toOption]

theorem filterMap_filter_comm {f : α → Option β} {p : α → Bool} {p' : β → Bool}
    (h : ∀ a b, f a = some b → p a = p' b) (l : List α) :
    (l.filter p).filterMap f = (l.filterMap f).filter p' := by
  induction l with
  | nil => rfl
  | cons a l ih =>
    cases hf : f a with
    | none =>
      rw [filterMap_cons_none hf, ← ih, filter_cons]
      split
      · rw [filterMap_cons_none hf]
      · rfl
    | some b =>
      rw [filterMap_cons_some hf, filter_cons, filter_cons, ← h a b hf]
      split
      · rw [filterMap_cons_some hf, ih]
      · exact ih

theorem foldlM_flatMap {g : σ → β → Except ε σ} {f : α → List β} :
    (l.flatMap f).foldlM g s = l.foldlM (fun s a => (f a).foldlM g s) s := by
  induction l generalizing s with
  | nil => rfl
  | cons a l ih =>
    rw [flatMap_cons, foldlM_append, foldlM_cons]
    exact bind_congr fun t => ih

end List
