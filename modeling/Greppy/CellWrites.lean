/-
**Arrays that are filled cell by cell.**

Arrays have a fixed number of cells.  Reading or writing past the end has no value, as in a program that
stops there.  A routine that lays out data fills an array through nested loops and copies of short runs,
in whatever order; `Writes get f A v` says that `f` leaves `v k` in every cell `k` of `A` and nothing
else changes.  When all the parts of a routine write values of one function `v`, it does not matter
whether they overlap, and a loop writes what its rounds write.

The state may be more than one array: `get` reads a cell of it.

Main definitions:

* `cell a i` — the cell `i` of an array;
* `fromFn n f` — an array made from a function;
* `setCell a i x`, `copySlice dst d src s len` — `a[i] = x`, and
  `dst[d..d + len].copy_from_slice(&src[s..s + len])`;
* `Writes get f A v` — what `f` writes.

Main results:

* `Writes.andThen`, `Writes.forLoop` — sequences and loops;
* `writes_setCell`, `writes_copySlice` — the single writes.
-/

import Greppy.CheckedTables

set_option autoImplicit false

namespace Cells

open Checked

section Arrays

variable {α : Type} [Inhabited α] {n m : ℕ}

/-- The cell `i`. -/
def cell (a : Vector α n) (i : ℕ) : α := a[i]?.getD default

theorem getElem?_eq_cell (a : Vector α n) {i : ℕ} (h : i < n) : a[i]? = some (cell a i) := by
  simp [cell, h]

theorem cell_eq_getElem (a : Vector α n) {i : ℕ} (h : i < n) : cell a i = a[i] := by
  simp [cell, h]

theorem cell_replicate (x : α) {i : ℕ} (h : i < n) : cell (Vector.replicate n x) i = x := by
  simp [cell_eq_getElem _ h]

theorem cell_ofFn (f : Fin n → α) {i : ℕ} (h : i < n) : cell (Vector.ofFn f) i = f ⟨i, h⟩ := by
  simp [cell_eq_getElem _ h]

/-- `a[i] = x`. -/
def setCell (a : Vector α n) (i : ℕ) (x : α) : Option (Vector α n) :=
  if h : i < n then some (a.set i x) else none

/-- The cell `k.2` of the row `k.1`. -/
def cell₂ (a : Vector (Vector α m) n) (k : ℕ × ℕ) : α := cell (cell a k.1) k.2

/-- `a[i][j]`. -/
def get₂ (a : Vector (Vector α m) n) (i j : ℕ) : Option α := a[i]? >>= fun row => row[j]?

theorem get₂_eq_cell₂ (a : Vector (Vector α m) n) {i j : ℕ} (hi : i < n) (hj : j < m) :
    get₂ a i j = some (cell₂ a (i, j)) := by
  rw [get₂, getElem?_eq_cell a hi]
  exact getElem?_eq_cell _ hj

/-- `std::array::from_fn`, with a function that may fail. -/
def fromFn (n : ℕ) (f : ℕ → Option α) : Option (Vector α n) :=
  if ∀ i < n, (f i).isSome then some (Vector.ofFn fun i => (f i).getD default) else none

theorem fromFn_spec {f : ℕ → Option α} {v : ℕ → α} (h : ∀ i < n, f i = some (v i)) :
    ∃ a, fromFn n f = some a ∧ ∀ i < n, cell a i = v i := by
  refine ⟨_, if_pos fun i hi => by rw [h i hi]; rfl, fun i hi => ?_⟩
  rw [cell_ofFn _ hi, h i hi]
  rfl

/-- `a[i][j] = x`. -/
def setCell₂ (a : Vector (Vector α m) n) (i j : ℕ) (x : α) : Option (Vector (Vector α m) n) :=
  if i < n ∧ j < m then some (a.setIfInBounds i ((cell a i).setIfInBounds j x)) else none

/-- `dst[d..d + len].copy_from_slice(&src[s..s + len])`. -/
def copySlice (dst : Vector α n) (d : ℕ) (src : Vector α m) (s len : ℕ) : Option (Vector α n) :=
  if d + len ≤ n ∧ s + len ≤ m then
    some (Vector.ofFn fun i => if d ≤ i ∧ i < d + len then cell src (s + (i - d)) else cell dst i)
  else none

end Arrays

/-! ### What a routine writes -/

section Writes

variable {σ κ α : Type}

/-- `f` leaves `v k` in the cells `k` of `A`, and the others as they are. -/
def Writes (get : σ → κ → α) (f : σ → Option σ) (A : κ → Prop) (v : κ → α) : Prop :=
  ∀ s, ∃ s', f s = some s' ∧ (∀ k, A k → get s' k = v k) ∧ ∀ k, ¬A k → get s' k = get s k

/-- The cells of two arrays. -/
def readPair {τ ι : Type} (get : σ → κ → α) (get' : τ → ι → α) (s : σ × τ) : κ ⊕ ι → α :=
  Sum.elim (get s.1) (get' s.2)

/-- A change of the first of two arrays. -/
def onFst {τ : Type} (f : σ → Option σ) (s : σ × τ) : Option (σ × τ) :=
  (f s.1).map fun a => (a, s.2)

/-- A change of the second of two arrays. -/
def onSnd {τ : Type} (f : σ → Option σ) (s : τ × σ) : Option (τ × σ) :=
  (f s.2).map fun a => (s.1, a)

namespace Writes

variable {get : σ → κ → α} {f g : σ → Option σ} {A B : κ → Prop} {v : κ → α}

/-- The same cells may be described another way. -/
theorem congr (h : Writes get f A v) (hAB : ∀ k, A k ↔ B k) : Writes get f B v := by
  obtain rfl : A = B := funext fun k => propext (hAB k)
  exact h

/-- Only the values of the cells that are written matter. -/
theorem congrValue {v' : κ → α} (h : Writes get f A v) (hv : ∀ k, A k → v k = v' k) :
    Writes get f A v' := by
  intro s
  obtain ⟨s', hs', hA, hA'⟩ := h s
  exact ⟨s', hs', fun k hk => (hA k hk).trans (hv k hk), hA'⟩

theorem skip : Writes get some (fun _ => False) v :=
  fun s => ⟨s, rfl, fun _ h => h.elim, fun _ _ => rfl⟩

theorem andThen (hf : Writes get f A v) (hg : Writes get g B v) :
    Writes get (fun s => f s >>= g) (fun k => A k ∨ B k) v := by
  intro s
  obtain ⟨s₁, h₁, hA, hA'⟩ := hf s
  obtain ⟨s₂, h₂, hB, hB'⟩ := hg s₁
  refine ⟨s₂, by simp only [h₁]; exact h₂, fun k hk => ?_, fun k hk => ?_⟩
  · -- what the first part wrote is kept, or written again with the same value
    by_cases hkB : B k
    · exact hB k hkB
    · rw [hB' k hkB]
      exact hA k (hk.resolve_right hkB)
  · rw [hB' k fun h => hk (.inr h), hA' k fun h => hk (.inl h)]

/-- What a part computes before it writes. -/
theorem bind {β : Type} {m : Option β} {b : β} {f : β → σ → Option σ} (hm : m = some b)
    (hf : Writes get (f b) A v) : Writes get (fun s => m >>= fun b => f b s) A v := by
  subst hm
  exact hf

/-- A part that may be left out. -/
theorem guarded {p : Prop} [Decidable p] (hf : p → Writes get f A v) :
    Writes get (fun s => if p then f s else some s) (fun k => p ∧ A k) v := by
  by_cases hp : p
  · simp only [if_pos hp]
    exact (hf hp).congr fun k => ⟨fun h => ⟨hp, h⟩, fun h => h.2⟩
  · simp only [if_neg hp]
    exact skip.congr fun k => ⟨fun h => h.elim, fun h => hp h.1⟩

/-- A loop writes what its rounds write. -/
theorem forLoop {n : ℕ} {f : ℕ → σ → Option σ} {A : ℕ → κ → Prop}
    (h : ∀ i < n, Writes get (f i) (A i) v) :
    Writes get (loop n f) (fun k => ∃ i < n, A i k) v := by
  induction n with
  | zero => exact skip.congr fun k => by simp
  | succ n ih =>
    have hstep := (ih fun i hi => h i (by omega)).andThen (h n (by omega))
    have hrun : (fun s => loop n f s >>= f n) = loop (n + 1) f :=
      funext fun s => (loop_succ n f s).symm
    rw [hrun] at hstep
    refine hstep.congr fun k => ⟨?_, ?_⟩
    · rintro (⟨i, hi, hk⟩ | hk)
      · exact ⟨i, by omega, hk⟩
      · exact ⟨n, by omega, hk⟩
    · rintro ⟨i, hi, hk⟩
      by_cases hin : i < n
      · exact .inl ⟨i, hin, hk⟩
      · obtain rfl : i = n := by omega
        exact .inr hk

theorem onFst {τ ι : Type} (get' : τ → ι → α) (v' : ι → α) (hf : Writes get f A v) :
    Writes (readPair get get') (onFst f) (Sum.elim A fun _ => False) (Sum.elim v v') := by
  rintro ⟨s, t⟩
  obtain ⟨s', hs', hA, hA'⟩ := hf s
  refine ⟨(s', t), by simp [Cells.onFst, hs'], ?_, ?_⟩
  · rintro (k | i) hk
    · exact hA k hk
    · exact hk.elim
  · rintro (k | i) hk
    · exact hA' k hk
    · rfl

theorem onSnd {τ ι : Type} (get' : τ → ι → α) (v' : ι → α) (hf : Writes get f A v) :
    Writes (readPair get' get) (onSnd f) (Sum.elim (fun _ => False) A) (Sum.elim v' v) := by
  rintro ⟨t, s⟩
  obtain ⟨s', hs', hA, hA'⟩ := hf s
  refine ⟨(t, s'), by simp [Cells.onSnd, hs'], ?_, ?_⟩
  · rintro (i | k) hk
    · exact hk.elim
    · exact hA k hk
  · rintro (i | k) hk
    · rfl
    · exact hA' k hk

end Writes

/-! ### Single writes -/

theorem writes_update [DecidableEq κ] (k : κ) (v : κ → α) :
    Writes (fun (t : κ → α) k => t k) (fun t => some (Function.update t k (v k))) (fun j => j = k)
      v := by
  refine fun t => ⟨_, rfl, fun j hj => ?_, fun j hj => ?_⟩
  · subst hj
    exact Function.update_self j _ t
  · exact Function.update_of_ne hj _ t

variable {n m : ℕ} [Inhabited α]

/-- What fills an array has the values it writes. -/
theorem Writes.eq_ofFn {f : Vector α n → Option (Vector α n)} {v : ℕ → α}
    (h : Writes cell f (fun j => j < n) v) (a : Vector α n) : f a = some (Vector.ofFn fun j => v j) := by
  obtain ⟨a', ha, hcells, -⟩ := h a
  rw [ha]
  refine congrArg some (Vector.ext fun i hi => ?_)
  rw [← cell_eq_getElem a' hi, hcells i hi, Vector.getElem_ofFn]

theorem writes_setCell {i : ℕ} (hi : i < n) {x : α} {v : ℕ → α} (hx : x = v i) :
    Writes (cell (α := α) (n := n)) (fun a => setCell a i x) (fun j => j = i) v := by
  subst hx
  refine fun a => ⟨a.set i (v i), dif_pos hi, fun j hj => ?_, fun j hj => ?_⟩
  · subst hj
    simp [cell, hi]
  · have hne : i ≠ j := fun h => hj h.symm
    simp [cell, hne]

theorem writes_setCell₂ {i j : ℕ} (hi : i < n) (hj : j < m) {x : α} {v : ℕ × ℕ → α}
    (hx : x = v (i, j)) :
    Writes (cell₂ (α := α) (n := n) (m := m)) (fun a => setCell₂ a i j x) (fun k => k = (i, j))
      v := by
  subst hx
  refine fun a => ⟨_, if_pos ⟨hi, hj⟩, fun k hk => ?_, ?_⟩
  · subst hk
    simp [cell₂, cell, hi, hj]
  · rintro ⟨i', j'⟩ hk
    by_cases hii : i' = i
    · subst hii
      have hjj : j ≠ j' := fun h => hk (by rw [h])
      simp [cell₂, cell, hi, hjj]
    · have hne : i ≠ i' := fun h => hii h.symm
      simp [cell₂, cell, hne]

theorem writes_copySlice {d s len : ℕ} {src : Vector α m} {v : ℕ → α} (hd : d + len ≤ n)
    (hs : s + len ≤ m) (hv : ∀ t < len, cell src (s + t) = v (d + t)) :
    Writes (cell (α := α) (n := n)) (fun a => copySlice a d src s len)
      (fun j => d ≤ j ∧ j < d + len) v := by
  refine fun a => ⟨_, if_pos ⟨hd, hs⟩, fun j hj => ?_, fun j hj => ?_⟩
  · rw [cell_ofFn _ (by omega : j < n), if_pos hj, hv (j - d) (by omega)]
    congr 1
    omega
  · by_cases hjn : j < n
    · rw [cell_ofFn _ hjn, if_neg hj]
    · simp [cell, hjn]

end Writes

end Cells
