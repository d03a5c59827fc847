/-
**The scalar dot products of quantized rows.**

The dot product of two rows goes through their blocks.  For each pair of blocks the weights are unpacked
and multiplied with the activations in 16 bits; the products, times the scale of their group, are added
to eight lanes, which are 32-bit integers for `Q4_K` and floats for `Q6_K`.  For `Q4_K` there is also the
sum of the minimums times the sums of the activations.  What a pair of blocks contributes is then scaled
to floats.

The arithmetic of integers is checked here: a run that has a value is one without an overflow.
-/

import Greppy.KQuants
import Mathlib.Algebra.BigOperators.Ring.Finset

set_option autoImplicit false

open Finset

namespace Matmul

open Checked Cells F32

/-! ### The loops -/

/-- `aux16[l] = q8[l] as i16 * a[l] as i16`, for eight values; every cell of `aux16` is written. -/
def products16 (aux8 : Vector Int8 256) (y : BlockQ8K) (offset : ℕ) : Option (ℕ → ℤ) :=
  loop 8 (fun l aux16 => do
    let q ← y.qs[offset + l]?
    let a ← aux8[offset + l]?
    let product ← checkInt 16 (q.toInt * a.toInt)
    some (Function.update aux16 l product)) fun _ => 0

/-- `aux32[l] += scale * aux16[l]`, for eight values. -/
def addProducts {σ : Type} (mul : ℤ → Option σ) (add : σ → σ → Option σ) (aux8 : Vector Int8 256)
    (y : BlockQ8K) (offset : ℕ) (aux32 : ℕ → σ) : Option (ℕ → σ) := do
  let aux16 ← products16 aux8 y offset
  loop 8 (fun l aux32 => do
    let product ← mul (aux16 l)
    addTo add l product aux32) aux32

/-- `sumi` of `dot_q4k_q8k_scalar`. -/
def scalarMinsQ4K (mins : Vector UInt8 8) (y : BlockQ8K) : Option ℤ :=
  loop 16 (fun j sumi => do
    let bsum ← y.bsums[j]?
    let min ← mins[j / 2]?
    let product ← mulI32 bsum.toInt min.toNat
    addI32 sumi product) 0

/-- `aux32` and `sumi` of `dot_q4k_q8k_scalar`, for two blocks. -/
def scalarSumsQ4K (x : BlockQ4K) (y : BlockQ8K) : Option ((ℕ → ℤ) × ℤ) := do
  let aux8 ← unpackQ4K x
  let (scales, mins) := decodeQ4KScalesMins x.scales
  let sumi ← scalarMinsQ4K mins y
  let aux32 ← loop 8 (fun group aux32 => do
    let scale ← scales[group]?
    loop 4 (fun chunk => addProducts (mulI32 scale.toNat) addI32 aux8 y (group * 32 + chunk * 8)) aux32)
    fun _ => 0
  some (aux32, sumi)

def addF32 (a b : Float32) : Option Float32 := some (a + b)

/-- `scale * product as f32`. -/
def scaleF32 (scale : Int8) (product : ℤ) : Option Float32 := some (ofI32 scale.toInt * ofI32 product)

/-- `aux32` of `dot_q6k_q8k`, for two blocks. -/
def scalarSumsQ6K (x : BlockQ6K) (y : BlockQ8K) : Option (ℕ → Float32) := do
  let aux8 ← decodeQ6K (fun code => Int8.ofInt (code.toNat - 32)) x
  loop 16 (fun j aux32 => do
    let scale ← x.scales[j]?
    let aux32 ← addProducts (scaleF32 scale) addF32 aux8 y (16 * j) aux32
    addProducts (scaleF32 scale) addF32 aux8 y (16 * j + 8) aux32) fun _ => ofI32 0

/-- `iter().sum::<f32>()` over eight lanes, which starts with the negative zero. -/
def sumF32 (sums : ℕ → Float32) : Float32 := (List.range 8).foldl (fun s l => s + sums l) (-ofI32 0)

/-- One round of `dot_q4k_q8k_scalar`: `sums` and `sumf`. -/
def stepQ4K (toF32 : F16 → Float32) (acc : (ℕ → Float32) × Float32) (xy : BlockQ4K × BlockQ8K) :
    Option ((ℕ → Float32) × Float32) := do
  let (aux32, sumi) ← scalarSumsQ4K xy.1 xy.2
  let d := toF32 xy.1.d * xy.2.d
  let dmin := toF32 xy.1.dmin * xy.2.d
  some (fun l => acc.1 l + d * ofI32 (aux32 l), acc.2 - dmin * ofI32 sumi)

def dotQ4KQ8KScalar (toF32 : F16 → Float32) (xs : List BlockQ4K) (ys : List BlockQ8K) :
    Option Float32 := do
  let acc ← (xs.zip ys).foldlM (stepQ4K toF32) (fun _ => ofI32 0, ofI32 0)
  some (acc.2 + sumF32 acc.1)

/-- One round of `dot_q6k_q8k`: `sums`. -/
def stepQ6K (toF32 : F16 → Float32) (sums : ℕ → Float32) (xy : BlockQ6K × BlockQ8K) :
    Option (ℕ → Float32) := do
  let aux32 ← scalarSumsQ6K xy.1 xy.2
  let d := toF32 xy.1.d * xy.2.d
  some fun l => sums l + aux32 l * d

/-- The scalar path of `dot_q6k_q8k`. -/
def dotQ6KQ8K (toF32 : F16 → Float32) (xs : List BlockQ6K) (ys : List BlockQ8K) : Option Float32 := do
  let sums ← (xs.zip ys).foldlM (stepQ6K toF32) fun _ => ofI32 0
  some (sumF32 sums)

/-! ### The sums in the integers -/

def BlockQ4K.weight (x : BlockQ4K) (k : ℕ) : ℤ := (x.code k).toNat

def BlockQ6K.weight (x : BlockQ6K) (k : ℕ) : ℤ := (x.code k).toNat - 32

def BlockQ6K.scale (x : BlockQ6K) (g : ℕ) : ℤ := (cell x.scales g).toInt

/-- The sum of scale, weight and activation. -/
def BlockQ4K.dot (x : BlockQ4K) (y : BlockQ8K) : ℤ :=
  ∑ g ∈ range 8, x.scale g * ∑ i ∈ range 32, x.weight (g * 32 + i) * y.activation (g * 32 + i)

def BlockQ4K.minDot (x : BlockQ4K) (y : BlockQ8K) : ℤ := ∑ j ∈ range 16, y.bsum j * x.min (j / 2)

/-- The sum of scale, weight and activation. -/
def BlockQ6K.dot (x : BlockQ6K) (y : BlockQ8K) : ℤ :=
  ∑ g ∈ range 16, x.scale g * ∑ i ∈ range 16, x.weight (g * 16 + i) * y.activation (g * 16 + i)

theorem BlockQ4K.abs_weight_le (x : BlockQ4K) (k : ℕ) : |x.weight k| ≤ 15 := by
  have h := x.code_lt k
  rw [weight, Nat.abs_cast]
  omega

theorem BlockQ6K.abs_weight_le (x : BlockQ6K) (k : ℕ) : |x.weight k| ≤ 32 := by
  have h := x.code_lt k
  rw [weight, abs_le]
  omega

theorem BlockQ6K.abs_scale_le (x : BlockQ6K) (g : ℕ) : |x.scale g| ≤ 128 := by
  have h1 := (cell x.scales g).le_toInt
  have h2 := (cell x.scales g).toInt_lt
  rw [scale, abs_le]
  omega

theorem BlockQ4K.abs_scale_le (x : BlockQ4K) {g : ℕ} (hg : g < 8) : |x.scale g| ≤ 63 := by
  obtain ⟨h0, h63⟩ := x.scale_bounds hg
  rwa [abs_of_nonneg h0]

theorem BlockQ4K.abs_min_le (x : BlockQ4K) {g : ℕ} (hg : g < 8) : |x.min g| ≤ 63 := by
  obtain ⟨h0, h63⟩ := x.min_bounds hg
  rwa [abs_of_nonneg h0]

/-! ### The products of eight values -/

section Products

variable {aux8 : Vector Int8 256} {y : BlockQ8K} {weight : ℕ → ℤ}

theorem products16_spec (haux : ∀ k < 256, (cell aux8 k).toInt = weight k)
    (hweight : ∀ k, |weight k| ≤ 32) {offset : ℕ} (ho : offset + 8 ≤ 256) :
    ∃ aux16, products16 aux8 y offset = some aux16 ∧
      ∀ l < 8, aux16 l = weight (offset + l) * y.activation (offset + l) := by
  have hwrite : Writes (fun (t : ℕ → ℤ) k => t k) (loop 8 fun l (aux16 : ℕ → ℤ) => do
      let q ← y.qs[offset + l]?
      let a ← aux8[offset + l]?
      let product ← checkInt 16 (q.toInt * a.toInt)
      some (Function.update aux16 l product)) (fun k => ∃ l < 8, k = l)
      fun l => weight (offset + l) * y.activation (offset + l) := by
    refine Writes.forLoop fun l hl => Writes.bind (getElem?_eq_cell _ (by omega))
      (Writes.bind (getElem?_eq_cell _ (by omega)) ?_)
    have hproduct : (cell y.qs (offset + l)).toInt * (cell aux8 (offset + l)).toInt =
        weight (offset + l) * y.activation (offset + l) := by
      rw [haux _ (by omega), mul_comm]
      rfl
    have hbound := abs_mul_le (hweight (offset + l)) (y.abs_activation_le (offset + l))
    rw [hproduct]
    exact Writes.bind (checkInt_eq (hbound.trans_lt (by norm_num)))
      (writes_update l fun l => weight (offset + l) * y.activation (offset + l))
  obtain ⟨aux16, hrun, hcells, -⟩ := hwrite fun _ => 0
  exact ⟨aux16, hrun, fun l hl => hcells l ⟨l, hl, rfl⟩⟩

theorem adds_addProducts {σ : Type} {R : σ → ℤ → Prop} {cap : ℤ} {mul : ℤ → Option σ}
    {add : σ → σ → Option σ} {scale b : ℤ}
    (hadd : ∀ {x y a b}, R x a → R y b → |a| + |b| ≤ cap → ∃ z, add x y = some z ∧ R z (a + b))
    (hmul : ∀ p, |p| ≤ 32 * 128 → ∃ v, mul p = some v ∧ R v (scale * p))
    (haux : ∀ k < 256, (cell aux8 k).toInt = weight k) (hweight : ∀ k, |weight k| ≤ 32)
    (hb : ∀ k, |scale * (weight k * y.activation k)| ≤ b) {offset : ℕ} (ho : offset + 8 ≤ 256) :
    Adds R cap (addProducts mul add aux8 y offset)
      (fun l => if l < 8 then scale * (weight (offset + l) * y.activation (offset + l)) else 0)
      fun _ => b := by
  obtain ⟨aux16, hrun, haux16⟩ := products16_spec (y := y) haux hweight ho
  refine Adds.bind hrun (Adds.forCells
    (v := fun l => scale * (weight (offset + l) * y.activation (offset + l)))
    ((abs_nonneg _).trans (hb 0)) fun l hl => ?_)
  obtain ⟨v, hv, hRv⟩ := hmul (weight (offset + l) * y.activation (offset + l))
    (abs_mul_le (hweight _) (y.abs_activation_le _))
  rw [haux16 l hl]
  exact Adds.bind hv (Adds.toCell hadd hRv (hb _))

end Products

/-! ### `Q4_K` -/

theorem toInt_toInt8 {c : UInt8} (h : c.toNat < 128) : c.toInt8.toInt = c.toNat := by
  change c.toBitVec.toInt = c.toNat
  rw [BitVec.toInt_eq_toNat_of_lt (by change 2 * c.toNat < 2 ^ 8; omega)]
  rfl

theorem scalarMinsQ4K_spec (x : BlockQ4K) (y : BlockQ8K) :
    scalarMinsQ4K (decodeQ4KScalesMins x.scales).2 y = some (x.minDot y) := by
  obtain ⟨sumi, hrun, rfl, -⟩ := loop_spec (n := 16) (f := fun j sumi => do
      let bsum ← y.bsums[j]?
      let min ← (decodeQ4KScalesMins x.scales).2[j / 2]?
      let product ← mulI32 bsum.toInt min.toNat
      addI32 sumi product) (s := 0)
    (fun n sumi => sumi = ∑ j ∈ range n, y.bsum j * x.min (j / 2) ∧ |sumi| ≤ n * (2 ^ 15 * 63))
    ⟨rfl, by simp⟩ fun j hj sumi hI => by
      obtain ⟨hsum, hle⟩ := hI
      have hterm : |y.bsum j * x.min (j / 2)| ≤ 2 ^ 15 * 63 :=
        abs_mul_le (y.abs_bsum_le j) (x.abs_min_le (by omega))
      have hmul : mulI32 (cell y.bsums j).toInt (cell (decodeQ4KScalesMins x.scales).2 (j / 2)).toNat =
          some (y.bsum j * x.min (j / 2)) := mulI32_eq (hterm.trans (by simp [maxI32]))
      have hj' : (j : ℤ) ≤ 15 := by omega
      refine ⟨sumi + y.bsum j * x.min (j / 2), ?_, ?_, ?_⟩
      · rw [getElem?_eq_cell _ hj, getElem?_eq_cell _ (by omega : j / 2 < 8)]
        simp only [Option.bind_eq_bind, Option.bind_some, hmul]
        refine addI32_eq ?_
        simp only [maxI32]
        omega
      · rw [sum_range_succ, hsum]
      · refine (abs_add_le _ _).trans ?_
        push_cast
        omega
  exact hrun

theorem aux8_toInt {x : BlockQ4K} {aux8 : Vector Int8 256}
    (haux : ∀ k < 256, cell aux8 k = (x.code k).toInt8) {k : ℕ} (hk : k < 256) :
    (cell aux8 k).toInt = x.weight k := by
  have h := x.code_lt k
  rw [haux k hk, toInt_toInt8 (by omega), BlockQ4K.weight]

/-- The four chunks of a group that a lane adds up, and the eight lanes, are the whole group. -/
theorem sum_lanes (groups chunks : ℕ) (scale : ℕ → ℤ) (f : ℕ → ℤ) :
    ∑ l ∈ range 8, ∑ g ∈ range groups, ∑ c ∈ range chunks,
      scale g * f (g * (chunks * 8) + c * 8 + l) =
    ∑ g ∈ range groups, scale g * ∑ i ∈ range (chunks * 8), f (g * (chunks * 8) + i) := by
  rw [sum_comm]
  refine sum_congr rfl fun g _ => ?_
  rw [sum_comm, ← sum_range_blocks (fun i => f (g * (chunks * 8) + i)), mul_sum]
  refine sum_congr rfl fun c _ => ?_
  rw [mul_sum]
  exact sum_congr rfl fun l _ => by rw [Nat.add_assoc]

/-- **The lanes of `Q4_K`** add up to the sum of scale, weight and activation, and `sumi` is the sum of
minimum and group sum. -/
theorem scalarSumsQ4K_spec (x : BlockQ4K) (y : BlockQ8K) :
    ∃ aux32, scalarSumsQ4K x y = some (aux32, x.minDot y) ∧ ∑ l ∈ range 8, aux32 l = x.dot y := by
  obtain ⟨aux8, hunpack, haux⟩ := unpackQ4K_spec x
  have hgroup (g : ℕ) (hg : g < 8) : Adds Eq maxI32 (fun aux32 => do
      let scale ← (decodeQ4KScalesMins x.scales).1[g]?
      loop 4 (fun chunk => addProducts (mulI32 scale.toNat) addI32 aux8 y (g * 32 + chunk * 8)) aux32)
      (fun l => ∑ c ∈ range 4, if l < 8 then
        x.scale g * (x.weight (g * 32 + c * 8 + l) * y.activation (g * 32 + c * 8 + l)) else 0)
      fun _ => 4 * (63 * (15 * 128)) := by
    refine Adds.bind (getElem?_eq_cell _ hg) (Adds.forLoop_const fun c hc => ?_)
    have hb (k : ℕ) : |x.scale g * (x.weight k * y.activation k)| ≤ 63 * (15 * 128) :=
      abs_mul_le (x.abs_scale_le hg) (abs_mul_le (x.abs_weight_le k) (y.abs_activation_le k))
    refine adds_addProducts addI32_exact (fun p hp => ⟨_, mulI32_eq ?_, rfl⟩)
      (fun k hk => aux8_toInt haux hk) (fun k => (x.abs_weight_le k).trans (by norm_num)) hb (by omega)
    exact (abs_mul_le (x.abs_scale_le hg) hp).trans (by norm_num [maxI32])
  obtain ⟨aux32, hrun, hcells⟩ := (Adds.forLoop_const hgroup).fromZero 0 rfl
    fun _ => by norm_num [maxI32]
  refine ⟨aux32, ?_, ?_⟩
  · simp only [Option.bind_eq_bind] at hrun
    simp only [scalarSumsQ4K, hunpack, Option.bind_eq_bind, Option.bind_some, scalarMinsQ4K_spec, hrun]
  · refine Eq.trans ?_ (sum_lanes 8 4 x.scale fun k => x.weight k * y.activation k)
    refine sum_congr rfl fun l hl => ?_
    rw [hcells l]
    simp only [if_pos (mem_range.mp hl)]

/-! ### `Q6_K` -/

theorem addF32_exact {x y : Float32} {a b : ℤ} (hx : Holds x a) (hy : Holds y b)
    (h : |a| + |b| ≤ 2 ^ 24) : ∃ z, addF32 x y = some z ∧ Holds z (a + b) :=
  ⟨x + y, rfl, hx.add hy ((abs_add_le a b).trans h)⟩

theorem scaleF32_exact {x : BlockQ6K} {g : ℕ} {p : ℤ} (hp : |p| ≤ 32 * 128) :
    ∃ v, scaleF32 (cell x.scales g) p = some v ∧ Holds v (x.scale g * p) := by
  have hscale := x.abs_scale_le g
  refine ⟨_, rfl, Holds.mul (holds_ofI32 ?_) (holds_ofI32 ?_) ?_⟩
  · exact hscale.trans (by norm_num)
  · exact hp.trans (by norm_num)
  · exact (abs_mul_le hscale hp).trans (by norm_num)

theorem toInt_ofInt_code (x : BlockQ6K) (k : ℕ) :
    (Int8.ofInt ((x.code k).toNat - 32)).toInt = x.weight k := by
  have h := x.abs_weight_le k
  rw [abs_le, BlockQ6K.weight] at h
  exact Int8.toInt_ofInt_of_le (by omega) (by omega)

theorem adds_scaleF32 {x : BlockQ6K} {y : BlockQ8K} {aux8 : Vector Int8 256}
    (haux : ∀ k < 256, cell aux8 k = Int8.ofInt ((x.code k).toNat - 32)) (g : ℕ) {offset : ℕ}
    (ho : offset + 8 ≤ 256) : Adds Holds (2 ^ 24)
      (addProducts (scaleF32 (cell x.scales g)) addF32 aux8 y offset)
      (fun l => if l < 8 then x.scale g * (x.weight (offset + l) * y.activation (offset + l)) else 0)
      fun _ => 128 * (32 * 128) := by
  have hb (k : ℕ) : |x.scale g * (x.weight k * y.activation k)| ≤ 128 * (32 * 128) :=
    abs_mul_le (x.abs_scale_le g) (abs_mul_le (x.abs_weight_le k) (y.abs_activation_le k))
  have haux' (k : ℕ) (hk : k < 256) : (cell aux8 k).toInt = x.weight k := by
    rw [haux k hk, toInt_ofInt_code]
  refine adds_addProducts (R := Holds) ?_ ?_ haux'
    x.abs_weight_le hb ho
  · exact addF32_exact
  · exact fun p hp => scaleF32_exact hp

/-- **The lanes of `Q6_K`** hold integers that add up to the sum of scale, weight and activation. -/
theorem scalarSumsQ6K_spec (x : BlockQ6K) (y : BlockQ8K) :
    ∃ (aux32 : ℕ → Float32) (z : ℕ → ℤ), scalarSumsQ6K x y = some aux32 ∧
      (∀ l, Holds (aux32 l) (z l)) ∧ ∑ l ∈ range 8, z l = x.dot y := by
  obtain ⟨aux8, hdecode, haux⟩ := decodeQ6K_spec (fun code => Int8.ofInt (code.toNat - 32)) x
  have hgroup (g : ℕ) (hg : g < 16) : Adds Holds (2 ^ 24) (fun aux32 => do
      let scale ← x.scales[g]?
      let aux32 ← addProducts (scaleF32 scale) addF32 aux8 y (16 * g) aux32
      addProducts (scaleF32 scale) addF32 aux8 y (16 * g + 8) aux32)
      (fun l => ∑ c ∈ range 2, if l < 8 then
        x.scale g * (x.weight (g * 16 + c * 8 + l) * y.activation (g * 16 + c * 8 + l)) else 0)
      fun _ => 2 * (128 * (32 * 128)) := by
    have hfirst := adds_scaleF32 (y := y) haux g (show 16 * g + 8 ≤ 256 by omega)
    have hsecond := adds_scaleF32 (y := y) haux g (show 16 * g + 8 + 8 ≤ 256 by omega)
    refine Adds.bind (getElem?_eq_cell _ hg) ((hfirst.andThen hsecond).congr (fun l => ?_) fun _ => ?_)
    · rw [sum_range_succ, sum_range_one, Nat.mul_comm 16 g]
      simp only [Nat.zero_mul, Nat.one_mul, Nat.add_zero]
    · norm_num
  obtain ⟨aux32, hrun, hcells⟩ := (Adds.forLoop_const hgroup).fromZero _
    (holds_ofI32 (z := 0) (by norm_num)) fun _ => by norm_num
  refine ⟨aux32, _, ?_, hcells, ?_⟩
  · simp only [scalarSumsQ6K, hdecode, Option.bind_eq_bind, Option.bind_some]
    exact hrun
  · refine Eq.trans ?_ (sum_lanes 16 2 x.scale fun k => x.weight k * y.activation k)
    refine sum_congr rfl fun l hl => ?_
    simp only [if_pos (mem_range.mp hl)]

/-! ### Rows of blocks -/

theorem foldlM_isSome {α β : Type} {f : β → α → Option β} {l : List α}
    (h : ∀ a ∈ l, ∀ b, (f b a).isSome) : ∀ b, (l.foldlM f b).isSome := by
  induction l with
  | nil => exact fun b => rfl
  | cons a l ih =>
    intro b
    obtain ⟨b', hb'⟩ := Option.isSome_iff_exists.mp (h a List.mem_cons_self b)
    rw [List.foldlM_cons, hb']
    exact ih (fun a' ha' => h a' (List.mem_cons_of_mem a ha')) b'

theorem stepQ4K_isSome (toF32 : F16 → Float32) (acc : (ℕ → Float32) × Float32)
    (xy : BlockQ4K × BlockQ8K) : (stepQ4K toF32 acc xy).isSome := by
  obtain ⟨aux32, hsums, -⟩ := scalarSumsQ4K_spec xy.1 xy.2
  rw [stepQ4K, hsums]
  rfl

theorem stepQ6K_isSome (toF32 : F16 → Float32) (sums : ℕ → Float32) (xy : BlockQ6K × BlockQ8K) :
    (stepQ6K toF32 sums xy).isSome := by
  obtain ⟨aux32, z, hsums, -⟩ := scalarSumsQ6K_spec xy.1 xy.2
  rw [stepQ6K, hsums]
  rfl

/-- **Nothing overflows** in the dot product of two rows, however long they are. -/
theorem dots_isSome (toF32 : F16 → Float32) (ys : List BlockQ8K) :
    (∀ xs : List BlockQ4K, (dotQ4KQ8KScalar toF32 xs ys).isSome) ∧
    ∀ xs : List BlockQ6K, (dotQ6KQ8K toF32 xs ys).isSome := by
  constructor
  · intro xs
    obtain ⟨acc, hacc⟩ := Option.isSome_iff_exists.mp
      (foldlM_isSome (l := xs.zip ys) (fun xy _ acc => stepQ4K_isSome toF32 acc xy)
        (fun _ => ofI32 0, ofI32 0))
    rw [dotQ4KQ8KScalar, hacc]
    rfl
  · intro xs
    obtain ⟨sums, hsums⟩ := Option.isSome_iff_exists.mp
      (foldlM_isSome (l := xs.zip ys) (fun xy _ sums => stepQ6K_isSome toF32 sums xy) fun _ => ofI32 0)
    rw [dotQ6KQ8K, hsums]
    rfl

end Matmul
