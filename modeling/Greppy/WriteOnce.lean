/-
**Arrays that are filled by single assignments.**

A routine that fills an array and does not read what it has written makes a list of assignments, one after
the other.  The list says all there is to know about the routine, whatever an assignment does: on an array
it sets a cell, and in a record of the run it leaves an entry.  So it also says how often a cell is
assigned.  The routine may carry counters along, which do not depend on the array.

Main definitions:

* `assign put ws` — the assignments `ws`, each made by `put`;
* `Puts put f ws`, `PutsTo put f c c' ws` — `f` makes the assignments `ws`, and takes its counters from `c`
  to `c'`;
* `FillsOnce base len v ws` — each of the cells `base, …, base + len - 1` is assigned once, its value of `v`;
* `WritesOnce base len run v` — a routine fills these cells, each once.

Main results:

* `Puts.andThen`, `Puts.forLoop`, `PutsTo.forLoop` — sequences and loops;
* `FillsOnce.append`, `FillsOnce.flatMap`, `FillsOnce.ofPerm` — cells in parts and in another order;
* `WritesOnce.forLoop`, `WritesOnce.setCell` — loops, and the array that is left.
-/

import Greppy.CellWrites

set_option autoImplicit false

namespace Cells

open Checked

/-! ### Assignments -/

section Puts

variable {σ γ α : Type} {put : σ → ℕ → α → Option σ}

/-- The assignments one after the other. -/
def assign (put : σ → ℕ → α → Option σ) (ws : List (ℕ × α)) (s : σ) : Option σ :=
  ws.foldlM (fun s w => put s w.1 w.2) s

@[simp] theorem assign_nil (s : σ) : assign put [] s = some s := rfl

theorem assign_cons (w : ℕ × α) (ws : List (ℕ × α)) (s : σ) :
    assign put (w :: ws) s = put s w.1 w.2 >>= assign put ws := rfl

theorem assign_singleton (w : ℕ × α) (s : σ) : assign put [w] s = put s w.1 w.2 := by
  rw [assign, List.foldlM_cons]
  exact bind_pure (put s w.1 w.2)

theorem assign_append (ws ws' : List (ℕ × α)) (s : σ) :
    assign put (ws ++ ws') s = assign put ws s >>= assign put ws' := by
  rw [assign, List.foldlM_append]
  rfl

/-- `f` makes the assignments `ws`. -/
def Puts (put : σ → ℕ → α → Option σ) (f : σ → Option σ) (ws : List (ℕ × α)) : Prop :=
  ∀ s, f s = assign put ws s

namespace Puts

variable {f g : σ → Option σ} {ws ws' : List (ℕ × α)}

theorem single (idx : ℕ) (x : α) : Puts put (fun s => put s idx x) [(idx, x)] :=
  fun s => (assign_singleton (idx, x) s).symm

theorem andThen (hf : Puts put f ws) (hg : Puts put g ws') : Puts put (fun s => f s >>= g) (ws ++ ws') := by
  intro s
  change f s >>= g = _
  rw [hf s, assign_append]
  exact congrArg (assign put ws s >>= ·) (funext hg)

theorem forLoop {n : ℕ} {f : ℕ → σ → Option σ} {ws : ℕ → List (ℕ × α)} (h : ∀ i < n, Puts put (f i) (ws i)) :
    Puts put (loop n f) ((List.range n).flatMap ws) := by
  induction n with
  | zero => exact fun _ => rfl
  | succ n ih =>
    have hstep := (ih fun i hi => h i (by omega)).andThen (h n (by omega))
    rw [List.range_succ, List.flatMap_append, List.flatMap_singleton]
    intro s
    rw [loop_succ]
    exact hstep s

end Puts

/-- `f` makes the assignments `ws` and takes its counters from `c` to `c'`. -/
def PutsTo (put : σ → ℕ → α → Option σ) (f : γ × σ → Option (γ × σ)) (c c' : γ) (ws : List (ℕ × α)) :
    Prop :=
  ∀ s, f (c, s) = (assign put ws s).map fun s => (c', s)

namespace PutsTo

/-- A loop whose rounds take the counters from `c i` to `c (i + 1)`. -/
theorem forLoop {n : ℕ} {f : ℕ → γ × σ → Option (γ × σ)} {c : ℕ → γ} {ws : ℕ → List (ℕ × α)}
    (h : ∀ i < n, PutsTo put (f i) (c i) (c (i + 1)) (ws i)) :
    PutsTo put (loop n f) (c 0) (c n) ((List.range n).flatMap ws) := by
  induction n with
  | zero => exact fun _ => rfl
  | succ n ih =>
    intro s
    rw [loop_succ, ih (fun i hi => h i (by omega)) s, List.range_succ, List.flatMap_append,
      List.flatMap_singleton, assign_append]
    cases assign put ((List.range n).flatMap ws) s with
    | none => rfl
    | some s' => exact h n (by omega) s'

end PutsTo

end Puts

/-! ### Cells that are assigned once -/

section Fills

variable {α : Type}

/-- Each of the cells `base, …, base + len - 1` is assigned once, with its value of `v`. -/
structure FillsOnce (base len : ℕ) (v : ℕ → α) (ws : List (ℕ × α)) : Prop where
  cells : (ws.map Prod.fst).Perm (List.range' base len)
  values : ∀ w ∈ ws, w.2 = v w.1

namespace FillsOnce

variable {base len len' : ℕ} {v : ℕ → α} {ws ws' : List (ℕ × α)}

theorem nil : FillsOnce base 0 v [] := ⟨by simp, fun _ hw => absurd hw List.not_mem_nil⟩

theorem single {x : α} (hx : x = v base) : FillsOnce base 1 v [(base, x)] :=
  ⟨by simp, fun w hw => by rw [List.mem_singleton.1 hw]; exact hx⟩

theorem append (h : FillsOnce base len v ws) (h' : FillsOnce (base + len) len' v ws') :
    FillsOnce base (len + len') v (ws ++ ws') := by
  refine ⟨?_, fun w hw => ?_⟩
  · rw [List.map_append, ← List.range'_append_1]
    exact h.cells.append h'.cells
  · rcases List.mem_append.1 hw with hw | hw
    · exact h.values w hw
    · exact h'.values w hw

/-- The order of the assignments does not matter. -/
theorem ofPerm (h : FillsOnce base len v ws') (hperm : ws.Perm ws') : FillsOnce base len v ws :=
  ⟨(hperm.map _).trans h.cells, fun w hw => h.values w (hperm.subset hw)⟩

theorem flatMap {n m : ℕ} {ws : ℕ → List (ℕ × α)} (h : ∀ i < n, FillsOnce (base + m * i) m v (ws i)) :
    FillsOnce base (m * n) v ((List.range n).flatMap ws) := by
  induction n with
  | zero => exact nil
  | succ n ih =>
    rw [List.range_succ, List.flatMap_append, List.flatMap_singleton, Nat.mul_succ]
    exact (ih fun i hi => h i (by omega)).append (h n (by omega))

/-- Cells one behind the other. -/
theorem cellByCell {n : ℕ} {idx : ℕ → ℕ} {x : ℕ → α} (hidx : ∀ i < n, idx i = base + i)
    (h : ∀ i < n, x i = v (base + i)) :
    FillsOnce base n v ((List.range n).flatMap fun i => [(idx i, x i)]) := by
  induction n with
  | zero => exact nil
  | succ n ih =>
    rw [List.range_succ, List.flatMap_append, List.flatMap_singleton, hidx n (by omega)]
    exact (ih (fun i hi => hidx i (by omega)) fun i hi => h i (by omega)).append (single (h n (by omega)))

end FillsOnce

/-- A routine fills the cells `base, …, base + len - 1`, each once, whatever an assignment is. -/
def WritesOnce (base len : ℕ) (run : ∀ {σ : Type}, (σ → ℕ → α → Option σ) → σ → Option σ) (v : ℕ → α) :
    Prop :=
  ∃ ws, FillsOnce base len v ws ∧ ∀ {σ : Type} (put : σ → ℕ → α → Option σ), Puts put (run put) ws

theorem WritesOnce.congr {base len : ℕ} {run : ∀ {σ : Type}, (σ → ℕ → α → Option σ) → σ → Option σ}
    {v v' : ℕ → α} (h : WritesOnce base len run v) (hv : ∀ k < len, v (base + k) = v' (base + k)) :
    WritesOnce base len run v' := by
  obtain ⟨ws, hfills, hrun⟩ := h
  refine ⟨ws, ⟨hfills.cells, fun w hw => ?_⟩, hrun⟩
  have hcell : w.1 ∈ List.range' base len := hfills.cells.subset (List.mem_map_of_mem hw)
  rw [List.mem_range'_1] at hcell
  have hvalue := hv (w.1 - base) (by omega)
  rw [Nat.add_sub_cancel' hcell.1] at hvalue
  exact (hfills.values w hw).trans hvalue

/-- A loop over parts of one length. -/
theorem WritesOnce.forLoop {base n m : ℕ} {run : ∀ {σ : Type}, (σ → ℕ → α → Option σ) → ℕ → σ → Option σ}
    {v : ℕ → α} (h : ∀ i < n, WritesOnce (base + m * i) m (fun put s => run put i s) v) :
    WritesOnce base (m * n) (fun put s => loop n (run put) s) v := by
  have hall (i : ℕ) : ∃ ws, i < n → FillsOnce (base + m * i) m v ws ∧
      ∀ {σ : Type} (put : σ → ℕ → α → Option σ), Puts put (run put i) ws := by
    by_cases hi : i < n
    · obtain ⟨ws, hws⟩ := h i hi
      exact ⟨ws, fun _ => hws⟩
    · exact ⟨[], fun hlt => absurd hlt hi⟩
  choose ws hws using hall
  exact ⟨_, FillsOnce.flatMap fun i hi => (hws i hi).1, fun put => Puts.forLoop fun i hi => (hws i hi).2 put⟩

variable [Inhabited α]

/-- Assignments to an array. -/
theorem writes_assign {N : ℕ} {v : ℕ → α} {ws : List (ℕ × α)} (h : ∀ w ∈ ws, w.1 < N ∧ w.2 = v w.1) :
    Writes (cell (α := α) (n := N)) (assign setCell ws) (fun k => k ∈ ws.map Prod.fst) v := by
  induction ws with
  | nil => exact Writes.skip.congr fun k => by simp
  | cons w ws ih =>
    obtain ⟨hlt, hvalue⟩ := h w List.mem_cons_self
    have hrest := ih fun w' hw' => h w' (List.mem_cons_of_mem w hw')
    refine ((writes_setCell hlt hvalue).andThen hrest).congr fun k => ?_
    rw [List.map_cons, List.mem_cons]

/-- The array that is left. -/
theorem WritesOnce.setCell {N : ℕ} {run : ∀ {σ : Type}, (σ → ℕ → α → Option σ) → σ → Option σ} {v : ℕ → α}
    (h : WritesOnce 0 N run v) (a : Vector α N) : run setCell a = some (Vector.ofFn fun j => v j) := by
  obtain ⟨ws, hfills, hrun⟩ := h
  have hmem (k : ℕ) : k ∈ ws.map Prod.fst ↔ k < N := by
    rw [hfills.cells.mem_iff, List.mem_range'_1]
    omega
  have hwrites := writes_assign fun w hw =>
    ⟨(hmem w.1).1 (List.mem_map_of_mem hw), hfills.values w hw⟩
  exact (hrun Cells.setCell a).trans ((hwrites.congr hmem).eq_ofFn a)

end Fills

end Cells
