/-
**Parsers that read back a layout.**

A layout writes a value as a sequence of symbols; the parser of the layout must give the value back
and stop right behind it, whatever follows.  `Consumes` says this of a stateful computation with
errors and aborts: `left s rest` means that `rest` is the input left in the state `s`, and a
computation consumes a part of the input when from every state where the part comes first it returns
the expected value in a state with only the rest left.

A layout is a concatenation, and its parser is a sequence: each rule here splits the part that is
consumed in the same way as the parser is built.

Main definitions:

* `Consumes left m part a` — the computation `m` consumes `part` and returns `a`.

Main results:

* `Consumes.of_bind` — a sequence consumes one part after the other;
* `Consumes.of_get` — a step that looks at the state may use that the part is still to come;
* `Consumes.of_repeatFrom` — a loop consumes one part in each round.
-/

import Greppy.OutcomeState
import Mathlib.Data.List.Basic

set_option autoImplicit false

section Consumes

variable {σ ε α β ι γ : Type} (left : σ → List γ → Prop)

/-- From every state in which `part` comes first, the computation returns `a`, in a state in which
only what follows is left. -/
def Consumes (m : StateT σ (Outcome ε) α) (part : List γ) (a : α) : Prop :=
  ∀ s rest, left s (part ++ rest) → ∃ t, m s = .ok (a, t) ∧ left t rest

namespace Consumes

variable {left}

theorem of_pure (a : α) : Consumes left (pure a : StateT σ (Outcome ε) α) [] a := by
  intro s rest h
  exact ⟨s, rfl, h⟩

variable {m : StateT σ (Outcome ε) α} {part : List γ} {a : α} {b : β}

/-- The rule of sequencing. -/
theorem of_bind {f : α → StateT σ (Outcome ε) β} {part' : List γ} (hm : Consumes left m part a)
    (hf : Consumes left (f a) part' b) : Consumes left (m >>= f) (part ++ part') b := by
  intro s rest h
  rw [List.append_assoc] at h
  obtain ⟨t, hfirst, ht⟩ := hm s (part' ++ rest) h
  obtain ⟨u, hsecond, hu⟩ := hf t rest ht
  refine ⟨u, ?_, hu⟩
  rw [run_bind, hfirst]
  exact hsecond

theorem of_map (hm : Consumes left m part a) (f : α → β) :
    Consumes left (do return f (← m)) part (f a) := by
  have h : Consumes left (do return f (← m)) (part ++ []) (f a) := hm.of_bind (of_pure (f a))
  rwa [List.append_nil] at h

theorem of_lift {x : Outcome ε α} (h : x = .ok a) :
    Consumes left (liftOutcome x : StateT σ (Outcome ε) α) [] a := by
  intro s rest hs
  refine ⟨s, ?_, hs⟩
  rw [h]
  rfl

theorem of_check (e : ε) {condition : Bool} (h : condition = true) :
    Consumes left (check e condition : StateT σ (Outcome ε) Unit) [] () := by
  rw [h]
  exact of_lift rfl

theorem of_bind_nil {f : α → StateT σ (Outcome ε) β} (hm : Consumes left m [] a)
    (hf : Consumes left (f a) part b) : Consumes left (m >>= f) part b :=
  hm.of_bind hf

/-- A first step that looks at the state: the part is still to come there. -/
theorem of_get {f : σ → StateT σ (Outcome ε) β}
    (h : ∀ s rest, left s (part ++ rest) → Consumes left (f s) part b) :
    Consumes left (get >>= f) part b := by
  intro s rest hs
  obtain ⟨t, hrun, ht⟩ := h s rest hs s rest hs
  exact ⟨t, hrun, ht⟩

/-- **The rule of the loop**: round by round, the body consumes the part of one item and updates the
value by it. -/
theorem of_repeatFrom {body : α → StateT σ (Outcome ε) α} {write : ι → List γ} {step : α → ι → α}
    (items : List ι)
    (hbody : ∀ a, ∀ item ∈ items, Consumes left (body a) (write item) (step a item)) (a : α) :
    Consumes left (repeatFrom body items.length a) (items.flatMap write) (items.foldl step a) := by
  induction items generalizing a with
  | nil => exact of_pure a
  | cons item items ih =>
    have hfirst := hbody a item List.mem_cons_self
    have hrest := ih (fun a other hother => hbody a other (List.mem_cons_of_mem _ hother))
      (step a item)
    exact hfirst.of_bind hrest

/-- A loop that pushes one more value in each round. -/
theorem of_pushes {write : ι → List γ} {value : ι → α} (items : List ι)
    (hm : ∀ item ∈ items, Consumes left m (write item) (value item)) :
    Consumes left (repeatFrom (fun values => do return values ++ [← m]) items.length [])
      (items.flatMap write) (items.map value) := by
  have hfold : ∀ values : List α,
      items.foldl (fun values item => values ++ [value item]) values = values ++ items.map value := by
    intro values
    induction items generalizing values with
    | nil => rw [List.foldl_nil, List.map_nil, List.append_nil]
    | cons item items ih =>
      rw [List.foldl_cons, ih (fun other hother => hm other (List.mem_cons_of_mem _ hother)),
        List.append_assoc, List.map_cons]
      rfl
  have hrun : Consumes left (repeatFrom (fun values => do return values ++ [← m]) items.length [])
      (items.flatMap write) (items.foldl (fun values item => values ++ [value item]) []) :=
    of_repeatFrom items (fun values item hitem => (hm item hitem).of_map fun v => values ++ [v]) []
  rwa [hfold] at hrun

end Consumes

end Consumes
