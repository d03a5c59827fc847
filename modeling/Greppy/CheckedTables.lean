/-
**Loops that add to the cells of a table.**

A numeric kernel keeps its running sums in a table and adds to the cells in nested loops.  The cells are
machine numbers that stand for integers: 32-bit integers, whose additions have no value when the sum
leaves the range, or floats, which are exact only up to a bound.  To show that a kernel has a value and
which one, it is enough to know for each part of it how much it adds to each cell and a bound on what it
adds on the way; both are summed over a loop.

Main definitions:

* `checkInt bits z` — the integer `z` in a machine word of so many bits;
* `loop n f` — a loop of `n` rounds that may fail;
* `addTo add k v` — the addition of `v` to the cell `k`;
* `Adds R cap f δ w` — on cells that stand for integers by `R`, and as long as these are at most `cap`,
  `f` adds `δ`, and no cell changes by more than `w` on the way;
* `AddsOn R cap f A v b` — the same, when `f` adds to the cells of `A` only.

Main results:

* `Adds.andThen`, `Adds.forLoop` — a sequence and a loop add the sums of what their parts add;
* `Adds.toCell`, `Adds.forCells`, `Adds.toRow` — a single cell, the cells of an array one after the
  other, and a row of the table on its own;
* `AddsOn.forLoop`, `AddsOn.rounds` — loops whose rounds add to different cells, and to the same;
* `AddsOn.fromZero` — what a run that starts with zeros ends with.
-/

import Mathlib.Algebra.BigOperators.Group.Finset.Indicator
import Mathlib.Algebra.BigOperators.Group.Finset.Piecewise
import Mathlib.Algebra.Order.BigOperators.Group.Finset
import Mathlib.Algebra.Order.Ring.Abs
import Mathlib.Order.CompletePartialOrder
import Mathlib.Tactic.Linarith

set_option autoImplicit false

open Finset

namespace Checked

/-! ### Machine integers -/

/-- The signed integer `z` in a word of `bits` bits; no value when it does not fit. -/
def checkInt (bits : ℕ) (z : ℤ) : Option ℤ :=
  if -2 ^ (bits - 1) ≤ z ∧ z < 2 ^ (bits - 1) then some z else none

theorem checkInt_eq {bits : ℕ} {z : ℤ} (h : |z| < 2 ^ (bits - 1)) : checkInt bits z = some z := by
  have hz := abs_lt.mp h
  exact if_pos ⟨hz.1.le, hz.2⟩

/-- The sum of two 32-bit integers. -/
def addI32 (a b : ℤ) : Option ℤ := checkInt 32 (a + b)

/-- The product of two 32-bit integers. -/
def mulI32 (a b : ℤ) : Option ℤ := checkInt 32 (a * b)

/-- The largest 32-bit integer. -/
def maxI32 : ℤ := 2 ^ 31 - 1

theorem addI32_eq {a b : ℤ} (h : |a| + |b| ≤ maxI32) : addI32 a b = some (a + b) := by
  have hab := abs_add_le a b
  refine checkInt_eq ?_
  simp only [maxI32] at h
  norm_num at h ⊢
  omega

theorem mulI32_eq {a b : ℤ} (h : |a * b| ≤ maxI32) : mulI32 a b = some (a * b) := by
  refine checkInt_eq ?_
  simp only [maxI32] at h
  norm_num at h ⊢
  omega

/-! ### Loops and tables -/

section Tables

variable {σ κ ι : Type}

/-- `for i in 0..n { s = f i s }`, where a round may fail. -/
def loop (n : ℕ) (f : ℕ → σ → Option σ) (s : σ) : Option σ :=
  (List.range n).foldlM (fun s i => f i s) s

@[simp] theorem loop_zero (f : ℕ → σ → Option σ) (s : σ) : loop 0 f s = some s := rfl

theorem loop_succ (n : ℕ) (f : ℕ → σ → Option σ) (s : σ) :
    loop (n + 1) f s = loop n f s >>= f n := by
  simp [loop, List.range_succ, List.foldlM_append]

/-- What every round keeps holds after the loop. -/
theorem loop_spec {n : ℕ} {f : ℕ → σ → Option σ} {s : σ} (I : ℕ → σ → Prop) (h0 : I 0 s)
    (hstep : ∀ i < n, ∀ s, I i s → ∃ s', f i s = some s' ∧ I (i + 1) s') :
    ∃ s', loop n f s = some s' ∧ I n s' := by
  induction n with
  | zero => exact ⟨s, rfl, h0⟩
  | succ n ih =>
    obtain ⟨s', hs', hI⟩ := ih fun i hi => hstep i (by omega)
    obtain ⟨s'', hs'', hI'⟩ := hstep n (by omega) s' hI
    exact ⟨s'', by rw [loop_succ, hs']; exact hs'', hI'⟩

/-- The same for a loop over a list, whose rounds know the position of their element. -/
theorem zipIdx_spec {α : Type} {xs : List α} {f : σ → α × ℕ → Option σ} {s : σ} (I : ℕ → σ → Prop)
    (h0 : I 0 s)
    (hstep : ∀ (i : ℕ) (hi : i < xs.length) (s : σ), I i s →
      ∃ s', f s (xs[i], i) = some s' ∧ I (i + 1) s') :
    ∃ s', xs.zipIdx.foldlM f s = some s' ∧ I xs.length s' := by
  induction xs using List.reverseRecOn with
  | nil => exact ⟨s, rfl, h0⟩
  | append_singleton xs x ih =>
    obtain ⟨s', hs', hI⟩ := ih fun i hi s hs => by
      have hround := hstep i (by rw [List.length_append]; omega) s hs
      rwa [List.getElem_append_left hi] at hround
    obtain ⟨s'', hs'', hI'⟩ := hstep xs.length (by simp) s' hI
    rw [List.getElem_concat_length rfl] at hs''
    refine ⟨s'', ?_, by simpa using hI'⟩
    rw [List.zipIdx_append, List.foldlM_append, hs']
    simpa using hs''

theorem loop_isSome {n : ℕ} {f : ℕ → σ → Option σ} (h : ∀ i < n, ∀ s, (f i s).isSome) (s : σ) :
    (loop n f s).isSome := by
  obtain ⟨s', hs', -⟩ := loop_spec (s := s) (fun _ _ => True) trivial fun i hi s _ => by
    obtain ⟨s', hs'⟩ := Option.isSome_iff_exists.mp (h i hi s)
    exact ⟨s', hs', trivial⟩
  rw [hs']
  rfl

variable [DecidableEq κ] [DecidableEq ι]

/-- `t[k] += v`, with the addition of the numbers in the table. -/
def addTo (add : σ → σ → Option σ) (k : κ) (v : σ) (t : κ → σ) : Option (κ → σ) := do
  let x ← add (t k) v
  return Function.update t k x

/-- A change of one row of a table of rows. -/
def onRow (i : ι) (f : (κ → σ) → Option (κ → σ)) (t : ι × κ → σ) : Option (ι × κ → σ) := do
  let row ← f fun k => t (i, k)
  return fun p => if p.1 = i then row p.2 else t p

/-- `f` adds `δ k` to every cell `k`, if the cells have room for `w k` more up to `cap`.  `R x z` says
that the number `x` of a cell stands for `z`. -/
structure Adds (R : σ → ℤ → Prop) (cap : ℤ) (f : (κ → σ) → Option (κ → σ)) (δ w : κ → ℤ) : Prop where
  le : ∀ k, |δ k| ≤ w k
  run : ∀ (t : κ → σ) (s : κ → ℤ), (∀ k, R (t k) (s k)) → (∀ k, |s k| + w k ≤ cap) →
    ∃ t', f t = some t' ∧ ∀ k, R (t' k) (s k + δ k)

end Tables

namespace Adds

variable {σ κ ι : Type} {R : σ → ℤ → Prop} {cap : ℤ} {f g : (κ → σ) → Option (κ → σ)}
variable {δ δ' w w' : κ → ℤ}

theorem nonneg (h : Adds R cap f δ w) (k : κ) : 0 ≤ w k := (abs_nonneg _).trans (h.le k)

/-- The amounts may be written another way, and the bounds may grow. -/
theorem congr (h : Adds R cap f δ w) (hδ : ∀ k, δ k = δ' k) (hw : ∀ k, w k ≤ w' k) :
    Adds R cap f δ' w' := by
  obtain rfl : δ = δ' := funext hδ
  refine ⟨fun k => (h.le k).trans (hw k), fun t s hR hs => h.run t s hR fun k => ?_⟩
  have := hs k
  have := hw k
  omega

/-- A run that starts with zeros ends with the amounts. -/
theorem fromZero (h : Adds R cap f δ w) (zero : σ) (hzero : R zero 0) (hw : ∀ k, w k ≤ cap) :
    ∃ t, f (fun _ => zero) = some t ∧ ∀ k, R (t k) (δ k) := by
  obtain ⟨t, ht, hR⟩ := h.run (fun _ => zero) 0 (fun _ => hzero) fun k => by simpa using hw k
  exact ⟨t, ht, fun k => by simpa using hR k⟩

theorem skip : Adds R cap (some : (κ → σ) → Option (κ → σ)) (fun _ => 0) (fun _ => 0) :=
  ⟨fun k => by simp, fun t s hR _ => ⟨t, rfl, fun k => by simpa using hR k⟩⟩

theorem andThen (hf : Adds R cap f δ w) (hg : Adds R cap g δ' w') :
    Adds R cap (fun t => f t >>= g) (fun k => δ k + δ' k) (fun k => w k + w' k) := by
  refine ⟨fun k => (abs_add_le _ _).trans (add_le_add (hf.le k) (hg.le k)), fun t s hR hs => ?_⟩
  obtain ⟨t₁, ht₁, hR₁⟩ := hf.run t s hR fun k => by
    have := hs k
    have := hg.nonneg k
    omega
  obtain ⟨t₂, ht₂, hR₂⟩ := hg.run t₁ (s + δ) hR₁ fun k => by
    have h1 := hs k
    have h2 := hf.le k
    have h3 : |(s + δ) k| ≤ |s k| + |δ k| := abs_add_le _ _
    omega
  refine ⟨t₂, by simp only [ht₁]; exact ht₂, fun k => ?_⟩
  rw [← add_assoc]
  exact hR₂ k

/-- What a part computes before it comes to the table. -/
theorem bind {α : Type} {m : Option α} {a : α} {f : α → (κ → σ) → Option (κ → σ)} (hm : m = some a)
    (hf : Adds R cap (f a) δ w) : Adds R cap (fun t => m >>= fun a => f a t) δ w := by
  subst hm
  exact hf

/-- A loop adds what its rounds add. -/
theorem forLoop {n : ℕ} {f : ℕ → (κ → σ) → Option (κ → σ)} {δ w : ℕ → κ → ℤ}
    (h : ∀ i < n, Adds R cap (f i) (δ i) (w i)) :
    Adds R cap (loop n f) (fun k => ∑ i ∈ range n, δ i k) (fun k => ∑ i ∈ range n, w i k) := by
  induction n with
  | zero => exact skip
  | succ n ih =>
    have hstep := (ih fun i hi => h i (by omega)).andThen (h n (by omega))
    have hrun : (fun t => loop n f t >>= f n) = loop (n + 1) f :=
      funext fun t => (loop_succ n f t).symm
    rw [hrun] at hstep
    simpa only [sum_range_succ] using hstep

/-- A loop whose rounds are all within the same bounds. -/
theorem forLoop_const {n : ℕ} {f : ℕ → (κ → σ) → Option (κ → σ)} {δ : ℕ → κ → ℤ} {w : κ → ℤ}
    (h : ∀ i < n, Adds R cap (f i) (δ i) w) :
    Adds R cap (loop n f) (fun k => ∑ i ∈ range n, δ i k) (fun k => n * w k) :=
  (forLoop h).congr (fun _ => rfl) fun k => by simp

variable [DecidableEq κ] [DecidableEq ι]

/-- One cell, with an addition that is exact up to the bound. -/
theorem toCell {add : σ → σ → Option σ}
    (hadd : ∀ {x y a b}, R x a → R y b → |a| + |b| ≤ cap → ∃ z, add x y = some z ∧ R z (a + b))
    {k : κ} {x : σ} {v b : ℤ} (hx : R x v) (hv : |v| ≤ b) :
    Adds R cap (addTo add k x) (fun j => if j = k then v else 0)
      (fun j => if j = k then b else 0) := by
  refine ⟨fun j => ?_, fun t s hR hs => ?_⟩
  · by_cases hj : j = k
    · simpa [hj] using hv
    · simp [hj]
  · have hk := hs k
    rw [if_pos rfl] at hk
    obtain ⟨z, hz, hRz⟩ := hadd (hR k) hx (by omega)
    refine ⟨Function.update t k z, by simp [addTo, hz], fun j => ?_⟩
    by_cases hj : j = k
    · subst hj
      simpa using hRz
    · simpa [hj] using hR j

theorem forCells {n : ℕ} {f : ℕ → (ℕ → σ) → Option (ℕ → σ)} {v : ℕ → ℤ} {b : ℤ} (hb : 0 ≤ b)
    (h : ∀ i < n, Adds R cap (f i) (fun j => if j = i then v i else 0)
      (fun j => if j = i then b else 0)) :
    Adds R cap (loop n f) (fun j => if j < n then v j else 0) (fun _ => b) := by
  refine (forLoop h).congr (fun j => ?_) fun j => ?_
  · simp only [sum_ite_eq, mem_range]
  · rw [sum_ite_eq]
    split
    · exact le_rfl
    · exact hb

omit [DecidableEq κ] in
theorem toRow (i : ι) (h : Adds R cap f δ w) :
    Adds R cap (onRow i f) (fun p => if p.1 = i then δ p.2 else 0)
      (fun p => if p.1 = i then w p.2 else 0) := by
  refine ⟨fun p => ?_, fun t s hR hs => ?_⟩
  · by_cases hp : p.1 = i
    · simpa [hp] using h.le p.2
    · simp [hp]
  · obtain ⟨row, hrow, hRrow⟩ := h.run (fun k => t (i, k)) (fun k => s (i, k)) (fun k => hR _)
      fun k => by simpa using hs (i, k)
    refine ⟨_, by simp only [onRow, hrow]; rfl, fun p => ?_⟩
    obtain ⟨j, k⟩ := p
    by_cases hj : j = i
    · subst hj
      simpa using hRrow k
    · simpa [hj] using hR (j, k)

end Adds

theorem addI32_exact {x y a b : ℤ} (hx : x = a) (hy : y = b) (h : |a| + |b| ≤ maxI32) :
    ∃ z, addI32 x y = some z ∧ z = a + b := by
  subst hx hy
  exact ⟨x + y, addI32_eq h, rfl⟩

/-! ### Some of the cells -/

/-- `f` adds `v k` to the cells `k` of `A`, each within `b`, and leaves the others as they are. -/
def AddsOn {σ κ : Type} (R : σ → ℤ → Prop) (cap : ℤ) (f : (κ → σ) → Option (κ → σ)) (A : Set κ)
    (v : κ → ℤ) (b : ℤ) : Prop :=
  Adds R cap f (A.indicator v) (A.indicator fun _ => b)

namespace AddsOn

variable {σ κ : Type} {R : σ → ℤ → Prop} {cap : ℤ} {f g : (κ → σ) → Option (κ → σ)}
variable {A B : Set κ} {v : κ → ℤ} {b : ℤ}

/-- The same cells may be described another way. -/
theorem congr (h : AddsOn R cap f A v b) (hAB : ∀ k, k ∈ A ↔ k ∈ B) : AddsOn R cap f B v b := by
  obtain rfl : A = B := Set.ext hAB
  exact h

theorem skip : AddsOn R cap (some : (κ → σ) → Option (κ → σ)) ∅ v b :=
  Adds.skip.congr (fun k => by simp) fun k => by simp

/-- Two parts that add to different cells. -/
theorem andThen (hf : AddsOn R cap f A v b) (hg : AddsOn R cap g B v b) (h : Disjoint A B) :
    AddsOn R cap (fun t => f t >>= g) (A ∪ B) v b := by
  refine (Adds.andThen hf hg).congr (fun k => ?_) fun k => le_of_eq ?_
  · rw [Set.indicator_union_of_disjoint h]
  · rw [Set.indicator_union_of_disjoint h]

/-- What a part computes before it comes to the table. -/
theorem bind {α : Type} {m : Option α} {a : α} {f : α → (κ → σ) → Option (κ → σ)} (hm : m = some a)
    (hf : AddsOn R cap (f a) A v b) : AddsOn R cap (fun t => m >>= fun a => f a t) A v b :=
  Adds.bind hm hf

/-- A loop whose rounds add to different cells: `key` tells the round from the cell. -/
theorem forLoop {n : ℕ} {f : ℕ → (κ → σ) → Option (κ → σ)} {A : ℕ → Set κ} (key : κ → ℕ)
    (h : ∀ i < n, AddsOn R cap (f i) (A i) v b) (hkey : ∀ i < n, ∀ k ∈ A i, key k = i) :
    AddsOn R cap (loop n f) {k | ∃ i < n, k ∈ A i} v b := by
  induction n with
  | zero => exact skip.congr fun k => by simp
  | succ n ih =>
    have hdisjoint : Disjoint {k | ∃ i < n, k ∈ A i} (A n) := by
      refine Set.disjoint_left.2 ?_
      rintro k ⟨i, hi, hk⟩ hkn
      have h1 := hkey i (by omega) k hk
      have h2 := hkey n (by omega) k hkn
      omega
    have hstep := (ih (fun i hi => h i (by omega)) fun i hi => hkey i (by omega)).andThen
      (h n (by omega)) hdisjoint
    have hrun : (fun t => loop n f t >>= f n) = loop (n + 1) f :=
      funext fun t => (loop_succ n f t).symm
    rw [hrun] at hstep
    refine hstep.congr fun k => ⟨?_, ?_⟩
    · rintro (⟨i, hi, hk⟩ | hk)
      · exact ⟨i, by omega, hk⟩
      · exact ⟨n, by omega, hk⟩
    · rintro ⟨i, hi, hk⟩
      by_cases hin : i < n
      · exact .inl ⟨i, hin, hk⟩
      · obtain rfl : i = n := by omega
        exact .inr hk

/-- One cell, with an addition that is exact up to the bound. -/
theorem toCell [DecidableEq κ] {add : σ → σ → Option σ}
    (hadd : ∀ {x y a b}, R x a → R y b → |a| + |b| ≤ cap → ∃ z, add x y = some z ∧ R z (a + b))
    {k : κ} {x : σ} (hx : R x (v k)) (hv : |v k| ≤ b) : AddsOn R cap (addTo add k x) {k} v b := by
  refine (Adds.toCell hadd hx hv).congr (fun j => ?_) fun j => le_of_eq ?_
  · by_cases hj : j = k
    · simp [hj]
    · simp [hj]
  · by_cases hj : j = k
    · simp [hj]
    · simp [hj]

theorem toRow {ι : Type} [DecidableEq ι] {i : ι} {v : ι × κ → ℤ}
    (h : Adds R cap f (fun k => v (i, k)) fun _ => b) :
    AddsOn R cap (onRow i f) {p | p.1 = i} v b := by
  refine (Adds.toRow i h).congr (fun p => ?_) fun p => le_of_eq ?_
  · by_cases hp : p.1 = i
    · simp [← hp]
    · simp [hp]
  · by_cases hp : p.1 = i
    · simp [hp]
    · simp [hp]

/-- Rounds that all add to the same cells. -/
theorem rounds {n : ℕ} {f : ℕ → (κ → σ) → Option (κ → σ)} {v : ℕ → κ → ℤ}
    (h : ∀ i < n, AddsOn R cap (f i) A (v i) b) :
    AddsOn R cap (loop n f) A (fun k => ∑ i ∈ range n, v i k) (n * b) := by
  refine (Adds.forLoop h).congr (fun k => ?_) fun k => le_of_eq ?_
  · by_cases hk : k ∈ A
    · simp [hk]
    · simp [hk]
  · by_cases hk : k ∈ A
    · simp [hk]
    · simp [hk]

/-- A run that starts with zeros ends with the amounts. -/
theorem fromZero (h : AddsOn R cap f A v b) (zero : σ) (hzero : R zero 0) (hb : 0 ≤ b) (hcap : b ≤ cap) :
    ∃ t, f (fun _ => zero) = some t ∧ ∀ k ∈ A, R (t k) (v k) := by
  obtain ⟨t, ht, hR⟩ := Adds.fromZero h zero hzero fun k => by
    by_cases hk : k ∈ A
    · simpa [hk] using hcap
    · simpa [hk] using hb.trans hcap
  exact ⟨t, ht, fun k hk => by simpa [hk] using hR k⟩

end AddsOn

/-! ### Sums over the cells -/

theorem sum_range_blocks {M : Type} [AddCommMonoid M] (f : ℕ → M) (n m : ℕ) :
    ∑ i ∈ range n, ∑ j ∈ range m, f (i * m + j) = ∑ k ∈ range (n * m), f k := by
  induction n with
  | zero => simp
  | succ n ih => rw [sum_range_succ, ih, Nat.succ_mul, sum_range_add]

theorem abs_sum_range_le {f : ℕ → ℤ} {n : ℕ} {b : ℤ} (h : ∀ i < n, |f i| ≤ b) :
    |∑ i ∈ range n, f i| ≤ n * b := by
  calc |∑ i ∈ range n, f i| ≤ ∑ i ∈ range n, |f i| := abs_sum_le_sum_abs _ _
    _ ≤ ∑ _i ∈ range n, b := sum_le_sum fun i hi => h i (mem_range.mp hi)
    _ = n * b := by simp

theorem abs_mul_le {a b m n : ℤ} (ha : |a| ≤ m) (hb : |b| ≤ n) : |a * b| ≤ m * n := by
  rw [abs_mul]
  exact mul_le_mul ha hb (abs_nonneg b) ((abs_nonneg a).trans ha)

end Checked
