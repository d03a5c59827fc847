/-
**The vector dot products of quantized rows.**

For each pair of packed blocks the kernels form the integer sums and the bias sums (or corrections) of all
the rows, group by group; the sums are then scaled to floats and added to the outputs.
-/

import Greppy.VnniKernels

set_option autoImplicit false

open Finset

namespace Matmul

open Checked Cells F32 Simd

/-! ### The kernels for `Q4_K` -/

/-- A scale or a minimum of a packed block. -/
def byteFactor (factors : Vector (Vector UInt8 8) 8) (quantGroup col : ℕ) : Option ℤ :=
  (get₂ factors quantGroup col).map fun factor => factor.toNat

/-- `q8.bsums[base] as i32 + q8.bsums[base + 1] as i32`. -/
def bsumQ4K (q8 : BlockQ8Kx4) (quantGroup inputRow : ℕ) : Option ℤ := do
  let bsumQuarter := quantGroup / 2
  let bsumOffset := quantGroup % 2 * 2
  let base := bsumQuarter * 16 + inputRow * 4 + bsumOffset
  let bsum0 ← q8.bsums[base]?
  let bsum1 ← q8.bsums[base + 1]?
  addI32 bsum0.toInt bsum1.toInt

/-- `integer_sums` and `bias_sums` of `dot8x4n_q4k_q8k_avxvnni`. -/
def sums8x4nQ4K (tiles : ℕ) (q4 : BlockQ4Kx8Vnni) (q8 : ℕ → BlockQ8Kx4) : Option Sums8x4n :=
  loop 4 (fun superBlock => loop 2 fun half sums => do
    let quantGroup := superBlock * 2 + half
    let sums ← groupSums8x4n 4 tiles (quantizedWeightsQ4K q4 superBlock half)
      (fun inputTile chunk inputPair => quantizedInputs (q8 inputTile)
        (superBlock * 256 + (chunk + half * 4) * 32 + inputPair * 16)) (byteFactor q4.scales quantGroup) sums
    biasSums8x4n tiles (fun inputTile inputRow => bsumQ4K (q8 inputTile) quantGroup inputRow)
      (byteFactor q4.mins quantGroup) sums) fun _ => 0

/-- `integer_sums` and `bias_sums` of `dot8x1_q4k_q8k_avxvnni`; the row is the first of its tile. -/
def sums8x1Q4K (q4 : BlockQ4Kx8Vnni) (q8 : BlockQ8Kx4) : Option Sums8x1 :=
  loop 4 (fun superBlock => loop 2 fun half sums => do
    let quantGroup := superBlock * 2 + half
    let sums ← groupSums8x1 4 (quantizedWeightsQ4K q4 superBlock half)
      (fun chunk => quantizedInputs q8 (superBlock * 256 + (chunk + half * 4) * 32))
      (byteFactor q4.scales quantGroup) sums
    biasSums8x1 (bsumQ4K q8 quantGroup 0) (byteFactor q4.mins quantGroup) sums) fun _ => 0

/-- What a block adds to an output: first the bias, then the integer sum. -/
def addOutputQ4K (q4 : BlockQ4Kx8Vnni) (d : Float32) (col : ℕ) (integerSum biasSum : ℤ)
    (output : Float32) : Float32 :=
  output - cell q4.dmin col * d * ofI32 biasSum + cell q4.d col * d * ofI32 integerSum

/-- `dot8x4n_q4k_q8k_avxvnni`. -/
def dot8x4nQ4K (tiles : ℕ) (weights : List BlockQ4Kx8Vnni) (inputs : ℕ → List BlockQ8Kx4) :
    Option (ℕ × ℕ × ℕ → Float32) :=
  loop weights.length (fun block output => do
    let q4 ← weights[block]?
    let q8 ← fromFn tiles fun inputTile => (inputs inputTile)[block]?
    let sums ← sums8x4nQ4K tiles q4 (cell q8)
    some fun k => addOutputQ4K q4 (cell (cell q8 k.1).d k.2.1) k.2.2 (sums (.integer, k)) (sums (.bias, k))
      (output k)) fun _ => ofI32 0

/-- `dot8x1_q4k_q8k_avxvnni`. -/
def dot8x1Q4K (weights : List BlockQ4Kx8Vnni) (inputs : List BlockQ8Kx4) : Option (ℕ → Float32) :=
  (weights.zip inputs).foldlM (fun output q => do
    let sums ← sums8x1Q4K q.1 q.2
    some fun col => addOutputQ4K q.1 (cell q.2.d 0) col (sums (.integer, col)) (sums (.bias, col))
      (output col)) fun _ => ofI32 0

/-! ### The kernels for `Q6_K` -/

def scaleQ6K (q6 : BlockQ6Kx8) (quantGroup col : ℕ) : Option ℤ :=
  (get₂ q6.scales quantGroup col).map Int8.toInt

/-- `32 * bsum`. -/
def bsumQ6K (q8 : BlockQ8Kx4) (quantGroup inputRow : ℕ) : Option ℤ := do
  let bsumQuarter := quantGroup / 4
  let bsumOffset := quantGroup % 4
  let bsum ← q8.bsums[bsumQuarter * 16 + inputRow * 4 + bsumOffset]?
  mulI32 32 bsum.toInt

/-- `integer_sums` and `corrections` of `dot8x4n_q6k_q8k_avxvnni`. -/
def sums8x4nQ6K (tiles : ℕ) (q6 : BlockQ6Kx8) (q8 : ℕ → BlockQ8Kx4) : Option Sums8x4n :=
  loop 16 (fun quantGroup sums => do
    let sums ← groupSums8x4n 2 tiles (quantizedWeightsQ6K q6 quantGroup)
      (fun inputTile chunk inputPair => quantizedInputs (q8 inputTile)
        (quantGroup * 64 + chunk * 32 + inputPair * 16)) (scaleQ6K q6 quantGroup) sums
    biasSums8x4n tiles (fun inputTile inputRow => bsumQ6K (q8 inputTile) quantGroup inputRow)
      (scaleQ6K q6 quantGroup) sums) fun _ => 0

/-- `integer_sums` and `corrections` of `dot8x1_q6k_q8k_avxvnni`. -/
def sums8x1Q6K (q6 : BlockQ6Kx8) (q8 : BlockQ8Kx4) : Option Sums8x1 :=
  loop 16 (fun quantGroup sums => do
    let sums ← groupSums8x1 2 (quantizedWeightsQ6K q6 quantGroup)
      (fun chunk => quantizedInputs q8 (quantGroup * 64 + chunk * 32)) (scaleQ6K q6 quantGroup) sums
    biasSums8x1 (bsumQ6K q8 quantGroup 0) (scaleQ6K q6 quantGroup) sums) fun _ => 0

/-- What a block adds to an output: the integer sum without its correction. -/
def addOutputQ6K {κ : Type} [DecidableEq κ] (q6 : BlockQ6Kx8) (d : Float32) (col : ℕ)
    (integerSum correction : ℤ) (k : κ) (output : κ → Float32) : Option (κ → Float32) := do
  let integerSum ← checkInt 32 (integerSum - correction)
  some (Function.update output k (output k + cell q6.d col * d * ofI32 integerSum))

/-- `dot8x4n_q6k_q8k_avxvnni`. -/
def dot8x4nQ6K (tiles : ℕ) (weights : List BlockQ6Kx8) (inputs : ℕ → List BlockQ8Kx4) :
    Option (ℕ × ℕ × ℕ → Float32) :=
  loop weights.length (fun block output => do
    let q6 ← weights[block]?
    let q8 ← fromFn tiles fun inputTile => (inputs inputTile)[block]?
    let sums ← sums8x4nQ6K tiles q6 (cell q8)
    loop tiles (fun inputTile => loop 4 fun inputRow => loop 8 fun outputCol =>
      addOutputQ6K q6 (cell (cell q8 inputTile).d inputRow) outputCol
        (sums (.integer, inputTile, inputRow, outputCol)) (sums (.bias, inputTile, inputRow, outputCol))
        (inputTile, inputRow, outputCol)) output) fun _ => ofI32 0

/-- `dot8x1_q6k_q8k_avxvnni`. -/
def dot8x1Q6K (weights : List BlockQ6Kx8) (inputs : List BlockQ8Kx4) : Option (ℕ → Float32) :=
  (weights.zip inputs).foldlM (fun output q => do
    let sums ← sums8x1Q6K q.1 q.2
    loop 8 (fun outputCol => addOutputQ6K q.1 (cell q.2.d 0) outputCol (sums (.integer, outputCol))
      (sums (.bias, outputCol)) outputCol) output) fun _ => ofI32 0

/-! ### What the registers read -/

theorem spread_weightOrder (raw : Reg) {j t : ℕ} (hj : j < 8) (ht : t < 4) :
    spread raw weightOrder (j * 4 + t) = raw (j % 2 * 8 + j / 4 * 4 + t) :=
  spread_apply (fun j => j) (fun _ h => weightOrder_eq h) raw hj ht

theorem spread_inputOrder (raw : Reg) {j t : ℕ} (hj : j < 8) (ht : t < 4) :
    spread raw inputOrder (j * 4 + t) = raw (j / 2 % 2 * 8 + j / 4 * 4 + t) :=
  spread_apply (fun j => j / 2) (fun _ h => inputOrder_eq h) raw hj ht

theorem loadu128_eq {α : Type} [Inhabited α] {n : ℕ} (byte : α → UInt8) (a : Vector α n) {offset : ℕ}
    (h : offset + 16 ≤ n) : loadu128 byte a offset = some fun i => byte (cell a (offset + i)) := if_pos h

section Reads

variable {toF32 : F16 → Float32}

variable {outputPair chunk g : ℕ} {q8 : BlockQ8Kx4} {ys : ℕ → BlockQ8K}

variable {offset first col row : ℕ} {src : ℕ → BlockQ6K} {q6 : BlockQ6Kx8}

/-- Where a byte of a run stands: in which row, and where in the row. -/
theorem run_position {j t : ℕ} (hoffset : offset = first * 64) (ho : outputPair < 4) (hj : j < 8)
    (ht : t < 4) (chunk : ℕ) :
    (offset + outputPair * 16 + chunk * 64 + (j % 2 * 8 + j / 4 * 4 + t)) / 8 % 8 =
        outputPair * 2 + j % 2 ∧
      (offset + outputPair * 16 + chunk * 64 + (j % 2 * 8 + j / 4 * 4 + t)) / 64 * 8 +
        (offset + outputPair * 16 + chunk * 64 + (j % 2 * 8 + j / 4 * 4 + t)) % 8 =
        first * 8 + (chunk * 8 + j / 4 * 4 + t) := by
  have hrun : (offset + outputPair * 16 + chunk * 64 + (j % 2 * 8 + j / 4 * 4 + t)) / 8 =
      (first + chunk) * 8 + (outputPair * 2 + j % 2) := by omega
  have hbyte : (offset + outputPair * 16 + chunk * 64 + (j % 2 * 8 + j / 4 * 4 + t)) % 8 =
      j / 4 * 4 + t := by omega
  have hchunk : (offset + outputPair * 16 + chunk * 64 + (j % 2 * 8 + j / 4 * 4 + t)) / 64 =
      first + chunk := by
    rw [show 64 = 8 * 8 from rfl, ← Nat.div_div_eq_div_mul, hrun]
    omega
  rw [hrun, hbyte, hchunk]
  omega

theorem quantizedWeightsQ4K_spec {q4 : BlockQ4Kx8Vnni} {src : ℕ → BlockQ4K} (h : q4.Packs toF32 src)
    {superBlock half : ℕ} (hs : superBlock < 4) (hh : half < 2) (ho : outputPair < 4)
    (hc : chunk < 4) :
    ∃ w, quantizedWeightsQ4K q4 superBlock half outputPair chunk = some w ∧
      ReadsWeights w (fun r i => (src r).weight ((superBlock * 2 + half) * 32 + i)) outputPair chunk := by
  refine ⟨_, by rw [quantizedWeightsQ4K, loadu128_eq _ _ (by omega)]; rfl, fun j hj t ht => ?_⟩
  obtain ⟨hrow, hoff⟩ := run_position (show superBlock * 256 = superBlock * 4 * 64 by omega) ho hj ht chunk
  have hrun : chunk * 8 + j / 4 * 4 + t < 32 := by omega
  have hcode : ((superBlock * 2 + half) * 32 + (chunk * 8 + j / 4 * 4 + t)) / 64 * 32 +
      ((superBlock * 2 + half) * 32 + (chunk * 8 + j / 4 * 4 + t)) % 32 =
      superBlock * 4 * 8 + (chunk * 8 + j / 4 * 4 + t) := by omega
  have hgroup : ((superBlock * 2 + half) * 32 + (chunk * 8 + j / 4 * 4 + t)) / 32 = superBlock * 2 + half := by
    omega
  have hhalf : ((superBlock * 2 + half) * 32 + (chunk * 8 + j / 4 * 4 + t)) / 32 % 2 = half := by
    rw [hgroup]
    omega
  have hbyte := h.qs (superBlock * 256 + outputPair * 16 + chunk * 64 + (j % 2 * 8 + j / 4 * 4 + t))
    (by omega)
  rw [hrow, hoff] at hbyte
  simp only [BlockQ4K.weight, BlockQ4K.code, hcode, hhalf]
  by_cases hlow : half = 0
  · rw [if_pos hlow, if_pos hlow, lowNibble, and_set1_fifteen, spread_weightOrder _ hj ht, id, hbyte]
  · rw [if_neg hlow, if_neg hlow, lowNibble, and_srliEpi16_four, spread_weightOrder _ hj ht, id, hbyte]

theorem quantizedWeightsQ6K_spec (h : q6.Packs toF32 src) {quantGroup : ℕ} (hg : quantGroup < 16)
    (ho : outputPair < 4) (hc : chunk < 2) :
    ∃ w, quantizedWeightsQ6K q6 quantGroup outputPair chunk = some w ∧
      ReadsWeights w (fun r i => ((src r).code (quantGroup * 16 + i)).toNat) outputPair chunk := by
  refine ⟨_, by rw [quantizedWeightsQ6K, loadu128_eq _ _ (by omega)]; rfl, fun j hj t ht => ?_⟩
  obtain ⟨hrow, hoff⟩ := run_position (show quantGroup * 128 = quantGroup * 2 * 64 by omega) ho hj ht chunk
  have hgroup : quantGroup * 2 * 8 + (chunk * 8 + j / 4 * 4 + t) =
      quantGroup * 16 + (chunk * 8 + j / 4 * 4 + t) := by omega
  have hbyte := h.qs (quantGroup * 128 + outputPair * 16 + chunk * 64 + (j % 2 * 8 + j / 4 * 4 + t))
    (by omega)
  rw [hrow, hoff, hgroup] at hbyte
  rw [spread_weightOrder _ hj ht, id, hbyte]

theorem quantizedInputs_spec (h : q8.Packs ys) {run inputPair : ℕ}
    (hoffset : offset = run * 32 + inputPair * 16) (hrun : run < 32) (hp : inputPair < 2)
    (hfirst : run * 8 = first + chunk * 8) :
    ∃ x, quantizedInputs q8 offset = some x ∧
      ReadsInputs x (fun r i => (ys r).activation (first + i)) inputPair chunk := by
  refine ⟨_, by rw [quantizedInputs, loadu128_eq _ _ (by omega)]; rfl, fun j hj t ht => ?_⟩
  have hdiv : (offset + (j / 2 % 2 * 8 + j / 4 * 4 + t)) / 8 = run * 4 + (inputPair * 2 + j / 2 % 2) := by
    omega
  have hmod : (offset + (j / 2 % 2 * 8 + j / 4 * 4 + t)) % 8 = j / 4 * 4 + t := by omega
  have hchunk : (offset + (j / 2 % 2 * 8 + j / 4 * 4 + t)) / 32 = run := by
    rw [show 32 = 8 * 4 from rfl, ← Nat.div_div_eq_div_mul, hdiv]
    omega
  have hrow : (offset + (j / 2 % 2 * 8 + j / 4 * 4 + t)) / 8 % 4 = inputPair * 2 + j / 2 % 2 := by
    rw [hdiv]
    omega
  have hoff : (offset + (j / 2 % 2 * 8 + j / 4 * 4 + t)) / 32 * 8 +
      (offset + (j / 2 % 2 * 8 + j / 4 * 4 + t)) % 8 = first + (chunk * 8 + j / 4 * 4 + t) := by
    rw [hchunk, hmod]
    omega
  have hbyte := h.qs (offset + (j / 2 % 2 * 8 + j / 4 * 4 + t)) (by omega)
  rw [hrow, hoff] at hbyte
  rw [spread_inputOrder _ hj ht, hbyte]
  rfl

theorem byteFactor_eq {factors : Vector (Vector UInt8 8) 8} (hg : g < 8) (hcol : col < 8) :
    byteFactor factors g col = some ((cell₂ factors (g, col)).toNat : ℤ) := by
  rw [byteFactor, get₂_eq_cell₂ _ hg hcol]
  rfl

theorem bsumQ4K_eq (h : q8.Packs ys) (hg : g < 8) (hrow : row < 4) :
    bsumQ4K q8 g row = some ((ys row).bsum (g * 2) + (ys row).bsum (g * 2 + 1)) := by
  have h0 := h.bsums (g / 2 * 16 + row * 4 + g % 2 * 2) (by omega)
  have h1 := h.bsums (g / 2 * 16 + row * 4 + g % 2 * 2 + 1) (by omega)
  have hrow0 : (g / 2 * 16 + row * 4 + g % 2 * 2) / 4 % 4 = row := by omega
  have hrow1 : (g / 2 * 16 + row * 4 + g % 2 * 2 + 1) / 4 % 4 = row := by omega
  have hoff0 : (g / 2 * 16 + row * 4 + g % 2 * 2) / 16 * 4 + (g / 2 * 16 + row * 4 + g % 2 * 2) % 4 =
      g * 2 := by omega
  have hoff1 : (g / 2 * 16 + row * 4 + g % 2 * 2 + 1) / 16 * 4 +
      (g / 2 * 16 + row * 4 + g % 2 * 2 + 1) % 4 = g * 2 + 1 := by omega
  rw [hrow0, hoff0] at h0
  rw [hrow1, hoff1] at h1
  have hle0 := (ys row).abs_bsum_le (g * 2)
  have hle1 := (ys row).abs_bsum_le (g * 2 + 1)
  rw [bsumQ4K]
  simp only [Option.bind_eq_bind]
  rw [getElem?_eq_cell _ (by omega), Option.bind_some, getElem?_eq_cell _ (by omega), Option.bind_some, h0,
    h1]
  refine addI32_eq ?_
  simp only [BlockQ8K.bsum] at hle0 hle1
  simp only [maxI32]
  omega

theorem scaleQ6K_eq (h : q6.Packs toF32 src) (hg : g < 16) (hcol : col < 8) :
    scaleQ6K q6 g col = some ((src col).scale g) := by
  rw [scaleQ6K, get₂_eq_cell₂ _ hg hcol, h.scales g hg col hcol]
  rfl

theorem bsumQ6K_eq (h : q8.Packs ys) (hg : g < 16) (hrow : row < 4) :
    bsumQ6K q8 g row = some (32 * (ys row).bsum g) := by
  have h0 := h.bsums (g / 4 * 16 + row * 4 + g % 4) (by omega)
  have hrow0 : (g / 4 * 16 + row * 4 + g % 4) / 4 % 4 = row := by omega
  have hoff0 : (g / 4 * 16 + row * 4 + g % 4) / 16 * 4 + (g / 4 * 16 + row * 4 + g % 4) % 4 = g := by omega
  rw [hrow0, hoff0] at h0
  have hle : |32 * (ys row).bsum g| ≤ 32 * 2 ^ 15 := abs_mul_le (by norm_num) ((ys row).abs_bsum_le g)
  rw [bsumQ6K]
  simp only [Option.bind_eq_bind]
  rw [getElem?_eq_cell _ (by omega), Option.bind_some, h0]
  exact mulI32_eq (hle.trans (by norm_num [maxI32]))

end Reads

/-! ### The sums of packed blocks of `Q4_K` -/

/-- What a group adds to the sums of two rows. -/
def groupValueQ4K (x : BlockQ4K) (y : BlockQ8K) (g : ℕ) : SumTable → ℤ
  | .integer => x.scale g * ∑ i ∈ range 32, x.weight (g * 32 + i) * y.activation (g * 32 + i)
  | .bias => (y.bsum (g * 2) + y.bsum (g * 2 + 1)) * x.min g

theorem sum_groupValueQ4K_integer (x : BlockQ4K) (y : BlockQ8K) :
    ∑ s ∈ range 4, ∑ h ∈ range 2, groupValueQ4K x y (s * 2 + h) .integer = x.dot y :=
  sum_range_blocks (fun g => groupValueQ4K x y g .integer) 4 2

theorem sum_groupValueQ4K_bias (x : BlockQ4K) (y : BlockQ8K) :
    ∑ s ∈ range 4, ∑ h ∈ range 2, groupValueQ4K x y (s * 2 + h) .bias = x.minDot y := by
  refine (sum_range_blocks (fun g => groupValueQ4K x y g .bias) 4 2).trans ?_
  refine Eq.trans ?_ (sum_range_blocks (fun j => y.bsum j * x.min (j / 2)) 8 2)
  refine sum_congr rfl fun g _ => ?_
  have h0 : (g * 2 + 0) / 2 = g := by omega
  have h1 : (g * 2 + 1) / 2 = g := by omega
  rw [sum_range_succ, sum_range_one, h0, h1, Nat.add_zero]
  exact add_mul _ _ _

theorem abs_bsumPair_mul_min_le (x : BlockQ4K) (y : BlockQ8K) {g : ℕ} (hg : g < 8) :
    |(y.bsum (g * 2) + y.bsum (g * 2 + 1)) * x.min g| ≤ 2 ^ 25 := by
  have hpair : |y.bsum (g * 2) + y.bsum (g * 2 + 1)| ≤ 2 ^ 15 + 2 ^ 15 :=
    (abs_add_le _ _).trans (add_le_add (y.abs_bsum_le _) (y.abs_bsum_le _))
  exact (abs_mul_le hpair (x.abs_min_le hg)).trans (by norm_num)

section SumsQ4K

variable {toF32 : F16 → Float32} {q4 : BlockQ4Kx8Vnni} {src : ℕ → BlockQ4K}

theorem byteFactor_scales (h : q4.Packs toF32 src) {g col : ℕ} (hg : g < 8) (hcol : col < 8) :
    byteFactor q4.scales g col = some ((src col).scale g) := by
  rw [byteFactor_eq hg hcol, h.scales g hg col hcol]

theorem byteFactor_mins (h : q4.Packs toF32 src) {g col : ℕ} (hg : g < 8) (hcol : col < 8) :
    byteFactor q4.mins g col = some ((src col).min g) := by
  rw [byteFactor_eq hg hcol, h.mins g hg col hcol]

/-- **The sums of `dot8x4n`** over a pair of blocks. -/
theorem sums8x4nQ4K_spec {tiles : ℕ} {q8 : ℕ → BlockQ8Kx4} {ys : ℕ → ℕ → BlockQ8K}
    (h : q4.Packs toF32 src) (hq8 : ∀ tile < tiles, (q8 tile).Packs (ys tile)) :
    ∃ sums, sums8x4nQ4K tiles q4 q8 = some sums ∧ ∀ tile < tiles, ∀ row < 4, ∀ col < 8,
      sums (.integer, tile, row, col) = (src col).dot (ys tile row) ∧
      sums (.bias, tile, row, col) = (src col).minDot (ys tile row) := by
  have hgroup (s : ℕ) (hs : s < 4) (half : ℕ) (hh : half < 2) := addsOn_bothTables
    (P := fun k : ℕ × ℕ × ℕ => k.1 < tiles ∧ k.2.1 < 4 ∧ k.2.2 < 8)
    (v := fun k => groupValueQ4K (src k.2.2.2) (ys k.2.1 k.2.2.1) (s * 2 + half) k.1)
    (addsOn_groupSums8x4n (W := fun r i => (src r).weight ((s * 2 + half) * 32 + i))
      (A := fun tile r i => (ys tile r).activation ((s * 2 + half) * 32 + i))
      (S := fun col => (src col).scale (s * 2 + half)) (show 4 ≤ 4 from le_rfl)
      (fun r i => ((src r).abs_weight_le _).trans (by norm_num)) (fun tile r i => (ys tile r).abs_activation_le _)
      (fun outputPair ho c hc => quantizedWeightsQ4K_spec h hs hh ho hc)
      (fun tile htile c hc inputPair hp => quantizedInputs_spec (hq8 tile htile)
        (show s * 256 + (c + half * 4) * 32 + inputPair * 16 =
          (s * 8 + (c + half * 4)) * 32 + inputPair * 16 by omega) (by omega) hp (by omega))
      (fun col hcol => byteFactor_scales h (by omega) hcol)
      (fun col _ => ((src col).abs_scale_le (by omega)).trans (by norm_num)) fun _ _ _ => rfl)
    (addsOn_biasSums8x4n
      (B := fun tile row => (ys tile row).bsum ((s * 2 + half) * 2) + (ys tile row).bsum ((s * 2 + half) * 2 + 1))
      (F := fun col => (src col).min (s * 2 + half))
      (fun tile htile row hrow => bsumQ4K_eq (hq8 tile htile) (by omega) hrow)
      (fun col hcol => byteFactor_mins h (by omega) hcol)
      (fun tile _ row _ col _ => abs_bsumPair_mul_min_le _ _ (by omega)) fun _ _ _ => rfl)
  obtain ⟨sums, hrun, hcells⟩ := (AddsOn.rounds fun s hs => AddsOn.rounds fun half hh =>
    hgroup s hs half hh).fromZero 0 rfl (by norm_num) (by norm_num [maxI32])
  refine ⟨sums, hrun, fun tile htile row hrow col hcol => ⟨?_, ?_⟩⟩
  · rw [hcells (.integer, tile, row, col) ⟨htile, hrow, hcol⟩]
    exact sum_groupValueQ4K_integer _ _
  · rw [hcells (.bias, tile, row, col) ⟨htile, hrow, hcol⟩]
    exact sum_groupValueQ4K_bias _ _

/-- **The sums of `dot8x1`** over a pair of blocks. -/
theorem sums8x1Q4K_spec {q8 : BlockQ8Kx4} {ys : ℕ → BlockQ8K} (h : q4.Packs toF32 src)
    (hq8 : q8.Packs ys) :
    ∃ sums, sums8x1Q4K q4 q8 = some sums ∧ ∀ col < 8,
      sums (.integer, col) = (src col).dot (ys 0) ∧ sums (.bias, col) = (src col).minDot (ys 0) := by
  have hgroup (s : ℕ) (hs : s < 4) (half : ℕ) (hh : half < 2) := addsOn_bothTables
    (P := fun k : ℕ => k < 8) (v := fun k => groupValueQ4K (src k.2) (ys 0) (s * 2 + half) k.1)
    (addsOn_groupSums8x1 (W := fun r i => (src r).weight ((s * 2 + half) * 32 + i))
      (A := fun r i => (ys r).activation ((s * 2 + half) * 32 + i))
      (S := fun col => (src col).scale (s * 2 + half)) (show 4 ≤ 4 from le_rfl)
      (fun r i => ((src r).abs_weight_le _).trans (by norm_num)) (fun r i => (ys r).abs_activation_le _)
      (fun outputPair ho c hc => quantizedWeightsQ4K_spec h hs hh ho hc)
      (fun c hc => quantizedInputs_spec hq8
        (show s * 256 + (c + half * 4) * 32 = (s * 8 + (c + half * 4)) * 32 + 0 * 16 by omega) (by omega)
        (by omega) (by omega))
      (fun col hcol => byteFactor_scales h (by omega) hcol)
      (fun col _ => ((src col).abs_scale_le (by omega)).trans (by norm_num)) fun _ => rfl)
    (addsOn_biasSums8x1 (F := fun col => (src col).min (s * 2 + half))
      (bsumQ4K_eq hq8 (by omega) (by omega)) (fun col hcol => byteFactor_mins h (by omega) hcol)
      (fun col _ => abs_bsumPair_mul_min_le _ _ (by omega)) fun _ => rfl)
  obtain ⟨sums, hrun, hcells⟩ := (AddsOn.rounds fun s hs => AddsOn.rounds fun half hh =>
    hgroup s hs half hh).fromZero 0 rfl (by norm_num) (by norm_num [maxI32])
  refine ⟨sums, hrun, fun col hcol => ⟨?_, ?_⟩⟩
  · rw [hcells (.integer, col) hcol]
    exact sum_groupValueQ4K_integer _ _
  · rw [hcells (.bias, col) hcol]
    exact sum_groupValueQ4K_bias _ _

end SumsQ4K

/-! ### The sums of packed blocks of `Q6_K` -/

/-- What a group adds to the sums of two rows. -/
def groupValueQ6K (x : BlockQ6K) (y : BlockQ8K) (g : ℕ) : SumTable → ℤ
  | .integer => x.scale g * ∑ i ∈ range 16, (x.code (g * 16 + i)).toNat * y.activation (g * 16 + i)
  | .bias => 32 * y.bsum g * x.scale g

def BlockQ6K.correction (x : BlockQ6K) (y : BlockQ8K) : ℤ :=
  ∑ g ∈ range 16, 32 * y.bsum g * x.scale g

theorem sum_groupValueQ6K (x : BlockQ6K) {y : BlockQ8K} (hy : y.SumsOk) :
    ∑ g ∈ range 16, groupValueQ6K x y g .integer - ∑ g ∈ range 16, groupValueQ6K x y g .bias =
      x.dot y := by
  rw [← sum_sub_distrib]
  refine sum_congr rfl fun g hg => ?_
  have hsplit : ∑ i ∈ range 16, x.weight (g * 16 + i) * y.activation (g * 16 + i) =
      ∑ i ∈ range 16, (x.code (g * 16 + i)).toNat * y.activation (g * 16 + i) - 32 * y.bsum g := by
    rw [hy g (mem_range.mp hg), mul_sum, ← sum_sub_distrib]
    exact sum_congr rfl fun i _ => sub_mul _ _ _
  rw [hsplit, mul_sub, mul_comm (x.scale g) (32 * y.bsum g)]
  rfl

theorem abs_bsum_mul_scale_le (x : BlockQ6K) {y : BlockQ8K} (hy : y.SumsOk) {g : ℕ} (hg : g < 16) :
    |32 * y.bsum g * x.scale g| ≤ 2 ^ 25 := by
  have hbsum : |y.bsum g| ≤ 16 * 128 := by
    rw [hy g hg]
    exact abs_sum_range_le fun i _ => y.abs_activation_le _
  exact (abs_mul_le (abs_mul_le (le_refl |(32 : ℤ)|) hbsum) (x.abs_scale_le g)).trans (by norm_num)

theorem abs_code_le (x : BlockQ6K) (k : ℕ) : |((x.code k).toNat : ℤ)| ≤ 63 := by
  have h := x.code_lt k
  rw [Nat.abs_cast]
  omega

section SumsQ6K

variable {toF32 : F16 → Float32} {q6 : BlockQ6Kx8} {src : ℕ → BlockQ6K}

/-- **The sums of `dot8x4n`** over a pair of blocks. -/
theorem sums8x4nQ6K_spec {tiles : ℕ} {q8 : ℕ → BlockQ8Kx4} {ys : ℕ → ℕ → BlockQ8K}
    (h : q6.Packs toF32 src) (hq8 : ∀ tile < tiles, (q8 tile).Packs (ys tile))
    (hys : ∀ tile < tiles, ∀ row < 4, (ys tile row).SumsOk) :
    ∃ sums, sums8x4nQ6K tiles q6 q8 = some sums ∧ ∀ tile < tiles, ∀ row < 4, ∀ col < 8,
      sums (.integer, tile, row, col) - sums (.bias, tile, row, col) = (src col).dot (ys tile row) ∧
      sums (.bias, tile, row, col) = (src col).correction (ys tile row) := by
  have hgroup (g : ℕ) (hg : g < 16) := addsOn_bothTables
    (P := fun k : ℕ × ℕ × ℕ => k.1 < tiles ∧ k.2.1 < 4 ∧ k.2.2 < 8)
    (v := fun k => groupValueQ6K (src k.2.2.2) (ys k.2.1 k.2.2.1) g k.1)
    (addsOn_groupSums8x4n (W := fun r i => ((src r).code (g * 16 + i)).toNat)
      (A := fun tile r i => (ys tile r).activation (g * 16 + i)) (S := fun col => (src col).scale g)
      (show 2 ≤ 4 by omega) (fun r i => abs_code_le _ _) (fun tile r i => (ys tile r).abs_activation_le _)
      (fun outputPair ho c hc => quantizedWeightsQ6K_spec h hg ho hc)
      (fun tile htile c hc inputPair hp => quantizedInputs_spec (hq8 tile htile)
        (show g * 64 + c * 32 + inputPair * 16 = (g * 2 + c) * 32 + inputPair * 16 by omega) (by omega) hp
        (by omega))
      (fun col hcol => scaleQ6K_eq h hg hcol) (fun col _ => (src col).abs_scale_le g) fun _ _ _ => rfl)
    (addsOn_biasSums8x4n (B := fun tile row => 32 * (ys tile row).bsum g) (F := fun col => (src col).scale g)
      (fun tile htile row hrow => bsumQ6K_eq (hq8 tile htile) hg hrow)
      (fun col hcol => scaleQ6K_eq h hg hcol)
      (fun tile htile row hrow col _ => abs_bsum_mul_scale_le _ (hys tile htile row hrow) hg)
      fun _ _ _ => rfl)
  obtain ⟨sums, hrun, hcells⟩ := (AddsOn.rounds hgroup).fromZero 0 rfl (by norm_num)
    (by norm_num [maxI32])
  refine ⟨sums, hrun, fun tile htile row hrow col hcol => ?_⟩
  rw [hcells (.integer, tile, row, col) ⟨htile, hrow, hcol⟩, hcells (.bias, tile, row, col)
    ⟨htile, hrow, hcol⟩]
  exact ⟨sum_groupValueQ6K _ (hys tile htile row hrow), rfl⟩

/-- **The sums of `dot8x1`** over a pair of blocks. -/
theorem sums8x1Q6K_spec {q8 : BlockQ8Kx4} {ys : ℕ → BlockQ8K} (h : q6.Packs toF32 src)
    (hq8 : q8.Packs ys) (hys : (ys 0).SumsOk) :
    ∃ sums, sums8x1Q6K q6 q8 = some sums ∧ ∀ col < 8,
      sums (.integer, col) - sums (.bias, col) = (src col).dot (ys 0) ∧
      sums (.bias, col) = (src col).correction (ys 0) := by
  have hgroup (g : ℕ) (hg : g < 16) := addsOn_bothTables
    (P := fun k : ℕ => k < 8) (v := fun k => groupValueQ6K (src k.2) (ys 0) g k.1)
    (addsOn_groupSums8x1 (W := fun r i => ((src r).code (g * 16 + i)).toNat)
      (A := fun r i => (ys r).activation (g * 16 + i)) (S := fun col => (src col).scale g)
      (show 2 ≤ 4 by omega) (fun r i => abs_code_le _ _) (fun r i => (ys r).abs_activation_le _)
      (fun outputPair ho c hc => quantizedWeightsQ6K_spec h hg ho hc)
      (fun c hc => quantizedInputs_spec hq8
        (show g * 64 + c * 32 = (g * 2 + c) * 32 + 0 * 16 by omega) (by omega) (by omega) (by omega))
      (fun col hcol => scaleQ6K_eq h hg hcol) (fun col _ => (src col).abs_scale_le g) fun _ => rfl)
    (addsOn_biasSums8x1 (F := fun col => (src col).scale g) (bsumQ6K_eq hq8 hg (by omega))
      (fun col hcol => scaleQ6K_eq h hg hcol) (fun col _ => abs_bsum_mul_scale_le _ hys hg) fun _ => rfl)
  obtain ⟨sums, hrun, hcells⟩ := (AddsOn.rounds hgroup).fromZero 0 rfl (by norm_num)
    (by norm_num [maxI32])
  refine ⟨sums, hrun, fun col hcol => ?_⟩
  rw [hcells (.integer, col) hcol, hcells (.bias, col) hcol]
  exact ⟨sum_groupValueQ6K _ hys, rfl⟩

theorem BlockQ6K.abs_dot_le (x : BlockQ6K) (y : BlockQ8K) : |x.dot y| ≤ 2 ^ 27 := by
  refine (abs_sum_range_le (b := 128 * (16 * (32 * 128))) fun g _ => abs_mul_le (x.abs_scale_le g)
    (abs_sum_range_le fun i _ => abs_mul_le (x.abs_weight_le _) (y.abs_activation_le _))).trans ?_
  norm_num

end SumsQ6K

end Matmul
