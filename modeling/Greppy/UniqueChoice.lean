/-
**Choosing only when there is no choice.**

A cautious search through a list of candidates answers with a candidate only when it is the only
one.  `List.only` is that answer; `firstOnly` tries several lists, the more trusted first, and
answers from the first of them that leaves no choice.  Neither depends on the order within a list.

Main definitions:

* `List.only` — the element of a one-element list;
* `firstOnly` — the answer of the first list that has exactly one element.

Main results:

* `List.only_eq_some_iff`, `List.Perm.only_eq`, `List.only_map` — what `only` depends on;
* `firstOnly_eq_of_perm` — **order does not matter**.
-/

import Mathlib.Data.List.Perm.Basic

set_option autoImplicit false

variable {α β : Type}

/-- The element of a list that has exactly one. -/
def List.only : List α → Option α
  | [a] => some a
  | _ => none

@[simp] theorem List.only_nil : ([] : List α).only = none := rfl

@[simp] theorem List.only_singleton (a : α) : [a].only = some a := rfl

theorem List.only_eq_some_iff {l : List α} {a : α} : l.only = some a ↔ l = [a] := by
  cases l with
  | nil => simp
  | cons b l =>
    cases l with
    | nil => simp
    | cons c l => simp [List.only]

theorem List.mem_of_only {l : List α} {a : α} (h : l.only = some a) : a ∈ l := by
  rw [List.only_eq_some_iff.1 h]
  exact List.mem_singleton_self a

theorem List.Perm.only_eq {l l' : List α} (h : l.Perm l') : l.only = l'.only := by
  ext a
  rw [List.only_eq_some_iff, List.only_eq_some_iff]
  constructor
  · rintro rfl
    exact List.perm_singleton.1 h.symm
  · rintro rfl
    exact List.perm_singleton.1 h

theorem List.only_map (f : α → β) (l : List α) : (l.map f).only = l.only.map f := by
  cases l with
  | nil => rfl
  | cons b l =>
    cases l with
    | nil => rfl
    | cons c l => rfl

/-- The only element of the first list that has exactly one. -/
def firstOnly (stages : List (List α)) : Option α := stages.findSome? List.only

@[simp] theorem firstOnly_nil : firstOnly ([] : List (List α)) = none := rfl

theorem firstOnly_cons (stage : List α) (stages : List (List α)) :
    firstOnly (stage :: stages) = stage.only.or (firstOnly stages) := by
  unfold firstOnly
  rw [List.findSome?_cons]
  cases stage.only <;> rfl

theorem exists_mem_of_firstOnly {stages : List (List α)} {a : α} (h : firstOnly stages = some a) :
    ∃ stage ∈ stages, a ∈ stage := by
  obtain ⟨stage, hstage, ha⟩ := List.exists_of_findSome?_eq_some h
  exact ⟨stage, hstage, List.mem_of_only ha⟩

/-- **Order does not matter**: permuting within the lists leaves the answer alone. -/
theorem firstOnly_eq_of_perm {stages stages' : List (List α)}
    (h : List.Forall₂ List.Perm stages stages') : firstOnly stages = firstOnly stages' := by
  induction h with
  | nil => rfl
  | cons hperm _ ih => rw [firstOnly_cons, firstOnly_cons, hperm.only_eq, ih]
