/-
**The vector kernels for packed rows.**

A kernel multiplies eight weight rows with the activation rows of some tiles of four, or with one.  The
values of a group come in runs of eight.  A register holds a run of two rows, spread over its lanes so
that the lanes `j` and `j + 4` of a product belong to the weight row `j % 2` and the activation row
`j / 2 % 2`; the two lanes are added, scaled, and added to the sum of the two rows.  The weights are
unsigned, so for `Q6_K` a correction takes the offset of the weights away again; for `Q4_K` there is a sum
of minimums instead.
-/

import Greppy.ByteRegisters
import Greppy.PackedBlocks
import Greppy.ScalarDots

set_option autoImplicit false

open Finset

namespace Matmul

open Checked Cells Simd

/-! ### Registers -/

def lowNibble : Reg := set1Epi8 0x0f

def weightOrder : ℕ → ℕ := setrEpi32 [0, 2, 0, 2, 1, 3, 1, 3]

def inputOrder : ℕ → ℕ := setrEpi32 [0, 0, 2, 2, 1, 1, 3, 3]

/-- `_mm256_permutevar8x32_epi32(_mm256_broadcastsi128_si256(raw), order)`. -/
def spread (raw : Reg) (order : ℕ → ℕ) : Reg := permutevar8x32 (broadcast128 raw) order

/-- `quantized_weights` of the kernels for `Q4_K`. -/
def quantizedWeightsQ4K (q4 : BlockQ4Kx8Vnni) (superBlock half outputPair chunk : ℕ) : Option Reg := do
  let rawWeights ← loadu128 id q4.qs (superBlock * 256 + outputPair * 16 + chunk * 64)
  let packedWeights := spread rawWeights weightOrder
  some (if half = 0 then and256 packedWeights lowNibble
    else and256 (srliEpi16 4 packedWeights) lowNibble)

/-- `quantized_weights` of the kernels for `Q6_K`. -/
def quantizedWeightsQ6K (q6 : BlockQ6Kx8) (quantGroup outputPair chunk : ℕ) : Option Reg := do
  let rawWeights ← loadu128 id q6.qs (quantGroup * 128 + outputPair * 16 + chunk * 64)
  some (spread rawWeights weightOrder)

def quantizedInputs (q8 : BlockQ8Kx4) (offset : ℕ) : Option Reg := do
  let rawInputs ← loadu128 Int8.toUInt8 q8.qs offset
  some (spread rawInputs inputOrder)

/-! ### The sums of a group -/

/-- `integer_sums`, and `bias_sums` or `corrections`. -/
inductive SumTable where
  | integer
  | bias
deriving DecidableEq

/-- The sums for each tile, activation row and weight row. -/
abbrev Sums8x4n := SumTable × ℕ × ℕ × ℕ → ℤ

abbrev Sums8x1 := SumTable × ℕ → ℤ

/-- `sums[k] += (partial[lane] + partial[lane + 4]) * scale`. -/
def addLanes {κ : Type} [DecidableEq κ] (lanes : ℕ → ℤ) (lane : ℕ) (scale : Option ℤ) (k : κ)
    (sums : κ → ℤ) : Option (κ → ℤ) := do
  let sum ← addI32 (lanes lane) (lanes (lane + 4))
  let scale ← scale
  let product ← mulI32 sum scale
  addTo addI32 k product sums

/-- `pair_acc` of `dot8x4n`. -/
def pairAcc8x4n (chunks tiles : ℕ) (weights : ℕ → Option Reg) (inputs : ℕ → ℕ → ℕ → Option Reg) :
    Option ((ℕ × ℕ) × ℕ → ℤ) :=
  loop chunks (fun chunk pairAcc => do
    let quantizedWeights ← weights chunk
    loop tiles (fun inputTile => loop 2 fun inputPair pairAcc => do
      let quantizedInputs ← inputs inputTile chunk inputPair
      onRow (inputTile, inputPair) (dpbusd quantizedWeights quantizedInputs) pairAcc) pairAcc)
    fun _ => 0

/-- What the loop over the output pairs of `dot8x4n` does. -/
def groupSums8x4n (chunks tiles : ℕ) (weights : ℕ → ℕ → Option Reg)
    (inputs : ℕ → ℕ → ℕ → Option Reg) (scale : ℕ → Option ℤ) (sums : Sums8x4n) : Option Sums8x4n :=
  loop 4 (fun outputPair sums => do
    let pairAcc ← pairAcc8x4n chunks tiles (weights outputPair) inputs
    loop tiles (fun inputTile => loop 2 fun inputPair sums => do
      let lanes := fun lane => pairAcc ((inputTile, inputPair), lane)
      let output0 := outputPair * 2
      let output1 := output0 + 1
      let input0 := inputPair * 2
      let input1 := input0 + 1
      let sums ← addLanes lanes 0 (scale output0) (.integer, inputTile, input0, output0) sums
      let sums ← addLanes lanes 1 (scale output1) (.integer, inputTile, input0, output1) sums
      let sums ← addLanes lanes 2 (scale output0) (.integer, inputTile, input1, output0) sums
      addLanes lanes 3 (scale output1) (.integer, inputTile, input1, output1) sums) sums) sums

/-- What the loops over the sums of the activations of `dot8x4n` do. -/
def biasSums8x4n (tiles : ℕ) (bsum : ℕ → ℕ → Option ℤ) (factor : ℕ → Option ℤ) (sums : Sums8x4n) :
    Option Sums8x4n :=
  loop tiles (fun inputTile => loop 4 fun inputRow sums => do
    let bsum ← bsum inputTile inputRow
    loop 8 (fun outputCol sums => do
      let factor ← factor outputCol
      let product ← mulI32 bsum factor
      addTo addI32 (.bias, inputTile, inputRow, outputCol) product sums) sums) sums

/-- `accumulator` of `dot8x1`. -/
def accumulator8x1 (chunks : ℕ) (weights inputs : ℕ → Option Reg) : Option (ℕ → ℤ) :=
  loop chunks (fun chunk accumulator => do
    let quantizedWeights ← weights chunk
    let quantizedInputs ← inputs chunk
    dpbusd quantizedWeights quantizedInputs accumulator) fun _ => 0

/-- What the loop over the output pairs of `dot8x1` does. -/
def groupSums8x1 (chunks : ℕ) (weights : ℕ → ℕ → Option Reg) (inputs : ℕ → Option Reg)
    (scale : ℕ → Option ℤ) (sums : Sums8x1) : Option Sums8x1 :=
  loop 4 (fun outputPair sums => do
    let lanes ← accumulator8x1 chunks (weights outputPair) inputs
    let output0 := outputPair * 2
    let output1 := output0 + 1
    let sums ← addLanes lanes 0 (scale output0) (.integer, output0) sums
    addLanes lanes 1 (scale output1) (.integer, output1) sums) sums

/-- What the loop over the sums of the activations of `dot8x1` does. -/
def biasSums8x1 (bsum : Option ℤ) (factor : ℕ → Option ℤ) (sums : Sums8x1) : Option Sums8x1 := do
  let bsum ← bsum
  loop 8 (fun outputCol sums => do
    let factor ← factor outputCol
    let product ← mulI32 bsum factor
    addTo addI32 (.bias, outputCol) product sums) sums

/-! ### The lanes -/

theorem weightOrder_eq {j : ℕ} (hj : j < 8) : weightOrder j = j % 2 * 2 + j / 4 := by
  interval_cases j <;> rfl

theorem inputOrder_eq {j : ℕ} (hj : j < 8) : inputOrder j = j / 2 % 2 * 2 + j / 4 := by
  interval_cases j <;> rfl

theorem spread_apply {order : ℕ → ℕ} (row : ℕ → ℕ) (horder : ∀ j < 8, order j = row j % 2 * 2 + j / 4)
    (raw : Reg) {j t : ℕ} (hj : j < 8) (ht : t < 4) :
    spread raw order (j * 4 + t) = raw (row j % 2 * 8 + j / 4 * 4 + t) := by
  have hlane : (j * 4 + t) / 4 = j := by omega
  have hbyte : (order j % 8 * 4 + (j * 4 + t) % 4) % 16 = row j % 2 * 8 + j / 4 * 4 + t := by
    rw [horder j hj]
    omega
  rw [spread, permutevar8x32, broadcast128, hlane, hbyte]

def ReadsWeights (reg : Reg) (W : ℕ → ℕ → ℤ) (outputPair chunk : ℕ) : Prop :=
  ∀ j < 8, ∀ t < 4, ((reg (j * 4 + t)).toNat : ℤ) = W (outputPair * 2 + j % 2) (chunk * 8 + j / 4 * 4 + t)

def ReadsInputs (reg : Reg) (A : ℕ → ℕ → ℤ) (inputPair chunk : ℕ) : Prop :=
  ∀ j < 8, ∀ t < 4,
    (reg (j * 4 + t)).toInt8.toInt = A (inputPair * 2 + j / 2 % 2) (chunk * 8 + j / 4 * 4 + t)

/-- What the run `c` of two rows adds to the lane `j`. -/
def laneValue (W A : ℕ → ℕ → ℤ) (outputPair inputPair c j : ℕ) : ℤ :=
  ∑ t ∈ range 4, W (outputPair * 2 + j % 2) (c * 8 + j / 4 * 4 + t) *
    A (inputPair * 2 + j / 2 % 2) (c * 8 + j / 4 * 4 + t)

section Lanes

variable {W A : ℕ → ℕ → ℤ} {outputPair inputPair : ℕ}

theorem laneProduct_eq {w x : Reg} {c : ℕ} (hw : ReadsWeights w W outputPair c)
    (hx : ReadsInputs x A inputPair c) {j : ℕ} (hj : j < 8) :
    laneProduct w x j = laneValue W A outputPair inputPair c j :=
  sum_congr rfl fun t ht => by rw [hw j hj t (mem_range.mp ht), hx j hj t (mem_range.mp ht)]

/-- **A lane and its other half** add up to the product of two rows. -/
theorem sum_laneValue (chunks : ℕ) {j : ℕ} (hj : j < 4) :
    ∑ c ∈ range chunks, laneValue W A outputPair inputPair c j +
        ∑ c ∈ range chunks, laneValue W A outputPair inputPair c (j + 4) =
      ∑ i ∈ range (chunks * 8), W (outputPair * 2 + j % 2) i * A (inputPair * 2 + j / 2 % 2) i := by
  have h0 : j / 4 = 0 := by omega
  have h1 : (j + 4) / 4 = 1 := by omega
  have hrow : (j + 4) % 2 = j % 2 := by omega
  have hcol : (j + 4) / 2 % 2 = j / 2 % 2 := by omega
  rw [← sum_add_distrib, ← sum_range_blocks]
  refine sum_congr rfl fun c _ => ?_
  rw [show 8 = 4 + 4 from rfl, sum_range_add]
  simp only [laneValue, h0, h1, hrow, hcol, Nat.zero_mul, Nat.one_mul, Nat.add_zero, Nat.add_assoc]

variable (hW : ∀ r i, |W r i| ≤ 63) (hA : ∀ r i, |A r i| ≤ 128)
include hW hA

theorem abs_laneValue_le (c j : ℕ) : |laneValue W A outputPair inputPair c j| ≤ 4 * (63 * 128) :=
  abs_sum_range_le fun _ _ => abs_mul_le (hW _ _) (hA _ _)

theorem adds_dpbusd_lanes {w x : Reg} {c : ℕ} (hw : ReadsWeights w W outputPair c)
    (hx : ReadsInputs x A inputPair c) :
    Adds Eq maxI32 (dpbusd w x)
      (fun j => if j < 8 then laneValue W A outputPair inputPair c j else 0) fun _ => 4 * (63 * 128) := by
  have hbound : ∀ i < 32, |((w i).toNat : ℤ) * (x i).toInt8.toInt| ≤ 63 * 128 := fun i hi => by
    have hi' : i / 4 * 4 + i % 4 = i := by omega
    have hwi := hw (i / 4) (by omega) (i % 4) (by omega)
    have hxi := hx (i / 4) (by omega) (i % 4) (by omega)
    rw [hi'] at hwi hxi
    rw [hwi, hxi]
    exact abs_mul_le (hW _ _) (hA _ _)
  refine (adds_dpbusd (by norm_num) hbound).congr (fun j => ?_) fun _ => le_rfl
  by_cases hj : j < 8
  · rw [if_pos hj, if_pos hj, laneProduct_eq hw hx hj]
  · rw [if_neg hj, if_neg hj]

theorem addI32_lanes {chunks : ℕ} (hchunks : chunks ≤ 4) {lanes : ℕ → ℤ}
    (hlanes : ∀ j < 8, lanes j = ∑ c ∈ range chunks, laneValue W A outputPair inputPair c j) {j : ℕ}
    (hj : j < 4) :
    addI32 (lanes j) (lanes (j + 4)) = some
      (∑ i ∈ range (chunks * 8), W (outputPair * 2 + j % 2) i * A (inputPair * 2 + j / 2 % 2) i) := by
  have hbound (l : ℕ) (hl : l < 8) : |lanes l| ≤ 4 * (4 * (63 * 128)) := by
    rw [hlanes l hl]
    refine (abs_sum_range_le fun c _ => abs_laneValue_le hW hA c l).trans ?_
    have : (chunks : ℤ) ≤ 4 := by omega
    omega
  have hlow := hbound j (by omega)
  have hhigh := hbound (j + 4) (by omega)
  rw [addI32_eq (by simp only [maxI32]; omega), hlanes j (by omega), hlanes (j + 4) (by omega),
    sum_laneValue chunks hj]

theorem abs_rowProduct_le {chunks : ℕ} (hchunks : chunks ≤ 4) (r s : ℕ) :
    |∑ i ∈ range (chunks * 8), W r i * A s i| ≤ 32 * (63 * 128) := by
  refine (abs_sum_range_le fun i _ => abs_mul_le (hW r i) (hA s i)).trans ?_
  push_cast
  have : (chunks : ℤ) ≤ 4 := by omega
  omega

end Lanes

theorem addsOn_addLanes {κ : Type} [DecidableEq κ] {lanes : ℕ → ℤ} {lane : ℕ} {sum factor : ℤ} {k : κ}
    {v : κ → ℤ} (hsum : addI32 (lanes lane) (lanes (lane + 4)) = some sum) (hv : v k = factor * sum)
    (hle : |sum| ≤ 32 * (63 * 128)) (hfactor : |factor| ≤ 128) :
    AddsOn Eq maxI32 (addLanes lanes lane (some factor) k) {k} v (2 ^ 25) := by
  have hproduct : |sum * factor| ≤ 32 * (63 * 128) * 128 := abs_mul_le hle hfactor
  have hvk : v k = sum * factor := by rw [hv, mul_comm]
  refine AddsOn.bind hsum (AddsOn.bind rfl (AddsOn.bind (mulI32_eq ?_) (AddsOn.toCell addI32_exact
    hvk.symm ?_)))
  · exact hproduct.trans (by norm_num [maxI32])
  · rw [hvk]
    exact hproduct.trans (by norm_num)

theorem addsOn_bothTables {κ : Type} {f g : (SumTable × κ → ℤ) → Option (SumTable × κ → ℤ)} {P : κ → Prop}
    {v : SumTable × κ → ℤ} {b : ℤ} (hf : AddsOn Eq maxI32 f {k | k.1 = .integer ∧ P k.2} v b)
    (hg : AddsOn Eq maxI32 g {k | k.1 = .bias ∧ P k.2} v b) :
    AddsOn Eq maxI32 (fun t => f t >>= g) {k | P k.2} v b := by
  refine (hf.andThen hg ?_).congr fun k => ⟨?_, fun hk => ?_⟩
  · refine Set.disjoint_left.2 ?_
    rintro ⟨kind, k⟩ ⟨rfl, -⟩ ⟨hkind, -⟩
    cases hkind
  · rintro (⟨-, hk⟩ | ⟨-, hk⟩)
    · exact hk
    · exact hk
  · obtain ⟨kind, k⟩ := k
    cases kind with
    | integer => exact .inl ⟨rfl, hk⟩
    | bias => exact .inr ⟨rfl, hk⟩

/-! ### `dot8x4n` -/

section Dot8x4n

variable {chunks tiles : ℕ} {W : ℕ → ℕ → ℤ} {A : ℕ → ℕ → ℕ → ℤ}

variable {inputs : ℕ → ℕ → ℕ → Option Reg} {v : SumTable × ℕ × ℕ × ℕ → ℤ}

/-- **The accumulators** of an output pair. -/
theorem pairAcc8x4n_spec {weights : ℕ → Option Reg} {outputPair : ℕ} (hchunks : chunks ≤ 4)
    (hW : ∀ r i, |W r i| ≤ 63) (hA : ∀ tile r i, |A tile r i| ≤ 128)
    (hweights : ∀ c < chunks, ∃ w, weights c = some w ∧ ReadsWeights w W outputPair c)
    (hinputs : ∀ tile < tiles, ∀ c < chunks, ∀ inputPair < 2, ∃ x, inputs tile c inputPair = some x ∧
      ReadsInputs x (A tile) inputPair c) :
    ∃ pairAcc, pairAcc8x4n chunks tiles weights inputs = some pairAcc ∧
      ∀ tile < tiles, ∀ inputPair < 2, ∀ j < 8, pairAcc ((tile, inputPair), j) =
        ∑ c ∈ range chunks, laneValue W (A tile) outputPair inputPair c j := by
  have hchunk (c : ℕ) (hc : c < chunks) : AddsOn Eq maxI32 (fun pairAcc => do
      let quantizedWeights ← weights c
      loop tiles (fun inputTile => loop 2 fun inputPair pairAcc => do
        let quantizedInputs ← inputs inputTile c inputPair
        onRow (inputTile, inputPair) (dpbusd quantizedWeights quantizedInputs) pairAcc) pairAcc)
      {k : (ℕ × ℕ) × ℕ | k.1.1 < tiles ∧ k.1.2 < 2}
      (fun k => if k.2 < 8 then laneValue W (A k.1.1) outputPair k.1.2 c k.2 else 0)
      (4 * (63 * 128)) := by
    obtain ⟨w, hw, hread⟩ := hweights c hc
    refine AddsOn.bind hw ((AddsOn.forLoop (fun k => k.1.1)
      (A := fun tile => {k : (ℕ × ℕ) × ℕ | ∃ inputPair < 2, k.1 = (tile, inputPair)})
      (fun tile htile => AddsOn.forLoop (fun k => k.1.2) (fun inputPair hpair => ?_) ?_) ?_).congr ?_)
    · obtain ⟨x, hx, hreadx⟩ := hinputs tile htile c hc inputPair hpair
      exact AddsOn.bind hx (AddsOn.toRow (adds_dpbusd_lanes hW (hA tile) hread hreadx))
    · rintro inputPair - ⟨pair, j⟩ rfl
      rfl
    · rintro tile - k ⟨inputPair, -, hk⟩
      rw [hk]
    · rintro ⟨⟨tile, inputPair⟩, j⟩
      constructor
      · rintro ⟨tile', htile, inputPair', hpair, heq⟩
        obtain ⟨rfl, rfl⟩ := Prod.mk.inj heq
        exact ⟨htile, hpair⟩
      · rintro ⟨htile, hpair⟩
        exact ⟨tile, htile, inputPair, hpair, rfl⟩
  obtain ⟨pairAcc, hrun, hcells⟩ := (AddsOn.rounds hchunk).fromZero 0 rfl (by positivity)
    (by
      have : (chunks : ℤ) ≤ 4 := by omega
      simp only [maxI32]
      omega)
  refine ⟨pairAcc, hrun, fun tile htile inputPair hpair j hj => ?_⟩
  rw [hcells ((tile, inputPair), j) ⟨htile, hpair⟩]
  exact sum_congr rfl fun c _ => if_pos hj

/-- **What a group adds** to the sum of each pair of rows. -/
theorem addsOn_groupSums8x4n {weights : ℕ → ℕ → Option Reg} {scale : ℕ → Option ℤ} {S : ℕ → ℤ}
    (hchunks : chunks ≤ 4) (hW : ∀ r i, |W r i| ≤ 63) (hA : ∀ tile r i, |A tile r i| ≤ 128)
    (hweights : ∀ outputPair < 4, ∀ c < chunks, ∃ w, weights outputPair c = some w ∧
      ReadsWeights w W outputPair c)
    (hinputs : ∀ tile < tiles, ∀ c < chunks, ∀ inputPair < 2, ∃ x, inputs tile c inputPair = some x ∧
      ReadsInputs x (A tile) inputPair c) (hscale : ∀ col < 8, scale col = some (S col))
    (hS : ∀ col < 8, |S col| ≤ 128)
    (hv : ∀ tile row col, v (.integer, tile, row, col) =
      S col * ∑ i ∈ range (chunks * 8), W col i * A tile row i) :
    AddsOn Eq maxI32 (groupSums8x4n chunks tiles weights inputs scale)
      {k | k.1 = .integer ∧ k.2.1 < tiles ∧ k.2.2.1 < 4 ∧ k.2.2.2 < 8} v (2 ^ 25) := by
  refine (AddsOn.forLoop (fun k => k.2.2.2 / 2)
    (A := fun outputPair => {k : SumTable × ℕ × ℕ × ℕ | k.1 = .integer ∧ k.2.1 < tiles ∧ k.2.2.1 < 4 ∧
      k.2.2.2 / 2 = outputPair}) (fun outputPair houtput => ?_) fun outputPair _ k hk => hk.2.2.2).congr
    fun k => ?_
  · obtain ⟨pairAcc, hrun, hlanes⟩ := pairAcc8x4n_spec hchunks hW hA (hweights outputPair houtput) hinputs
    refine AddsOn.bind hrun ((AddsOn.forLoop (fun k => k.2.1)
      (A := fun tile => {k : SumTable × ℕ × ℕ × ℕ | k.1 = .integer ∧ k.2.1 = tile ∧ k.2.2.1 < 4 ∧
        k.2.2.2 / 2 = outputPair}) (fun tile htile => ?_) fun tile _ k hk => hk.2.1).congr fun k => ?_)
    · refine (AddsOn.forLoop (fun k => k.2.2.1 / 2)
        (A := fun inputPair => {k : SumTable × ℕ × ℕ × ℕ | k.1 = .integer ∧ k.2.1 = tile ∧
          k.2.2.1 / 2 = inputPair ∧ k.2.2.2 / 2 = outputPair}) (fun inputPair hinput => ?_)
        fun inputPair _ k hk => hk.2.2.1).congr fun k => ?_
      · -- the four cells of an output pair and an input pair
        have hcell (j : ℕ) (hj : j < 4) : AddsOn Eq maxI32
            (addLanes (fun lane => pairAcc ((tile, inputPair), lane)) j
              (scale (outputPair * 2 + j % 2))
              (SumTable.integer, tile, inputPair * 2 + j / 2 % 2, outputPair * 2 + j % 2))
            {(SumTable.integer, tile, inputPair * 2 + j / 2 % 2, outputPair * 2 + j % 2)} v (2 ^ 25) := by
          rw [hscale _ (by omega)]
          exact addsOn_addLanes
            (addI32_lanes hW (hA tile) hchunks (hlanes tile htile inputPair hinput) hj)
            (hv tile _ _) (abs_rowProduct_le hW (hA tile) hchunks _ _) (hS _ (by omega))
        have hfour := (hcell 0 (by omega)).andThen ((hcell 1 (by omega)).andThen
          ((hcell 2 (by omega)).andThen (hcell 3 (by omega)) ?_) ?_) ?_
        · refine hfour.congr fun k => ?_
          obtain ⟨kind, tile', row, col⟩ := k
          simp only [Set.mem_union, Set.mem_singleton_iff, Prod.mk.injEq, Set.mem_ofPred_eq]
          constructor
          · rintro (⟨rfl, rfl, rfl, rfl⟩ | ⟨rfl, rfl, rfl, rfl⟩ | ⟨rfl, rfl, rfl, rfl⟩ | ⟨rfl, rfl, rfl, rfl⟩)
            all_goals exact ⟨rfl, rfl, by omega, by omega⟩
          · rintro ⟨rfl, rfl, hrow, hcol⟩
            simp only [true_and]
            omega
        all_goals simp
      · constructor
        · rintro ⟨inputPair, hinput, hkind, htile', hrow, hcol⟩
          exact ⟨hkind, htile', by omega, hcol⟩
        · rintro ⟨hkind, htile', hrow, hcol⟩
          exact ⟨k.2.2.1 / 2, by omega, hkind, htile', rfl, hcol⟩
    · constructor
      · rintro ⟨tile, htile, hkind, rfl, hrow, hcol⟩
        exact ⟨hkind, htile, hrow, hcol⟩
      · rintro ⟨hkind, htile, hrow, hcol⟩
        exact ⟨k.2.1, htile, hkind, rfl, hrow, hcol⟩
  · constructor
    · rintro ⟨outputPair, houtput, hkind, htile, hrow, hcol⟩
      exact ⟨hkind, htile, hrow, by omega⟩
    · rintro ⟨hkind, htile, hrow, hcol⟩
      exact ⟨k.2.2.2 / 2, by omega, hkind, htile, hrow, rfl⟩

/-- **What the sums of the activations add** to the sum of each pair of rows. -/
theorem addsOn_biasSums8x4n {bsum : ℕ → ℕ → Option ℤ} {factor : ℕ → Option ℤ} {B : ℕ → ℕ → ℤ}
    {F : ℕ → ℤ} (hbsum : ∀ tile < tiles, ∀ row < 4, bsum tile row = some (B tile row))
    (hfactor : ∀ col < 8, factor col = some (F col))
    (hle : ∀ tile < tiles, ∀ row < 4, ∀ col < 8, |B tile row * F col| ≤ 2 ^ 25)
    (hv : ∀ tile row col, v (.bias, tile, row, col) = B tile row * F col) :
    AddsOn Eq maxI32 (biasSums8x4n tiles bsum factor)
      {k | k.1 = .bias ∧ k.2.1 < tiles ∧ k.2.2.1 < 4 ∧ k.2.2.2 < 8} v (2 ^ 25) := by
  refine (AddsOn.forLoop (fun k => k.2.1)
    (A := fun tile => {k : SumTable × ℕ × ℕ × ℕ | k.1 = .bias ∧ k.2.1 = tile ∧ k.2.2.1 < 4 ∧
      k.2.2.2 < 8}) (fun tile htile => ?_) fun tile _ k hk => hk.2.1).congr fun k => ?_
  · refine (AddsOn.forLoop (fun k => k.2.2.1)
      (A := fun row => {k : SumTable × ℕ × ℕ × ℕ | k.1 = .bias ∧ k.2.1 = tile ∧ k.2.2.1 = row ∧
        k.2.2.2 < 8}) (fun row hrow => ?_) fun row _ k hk => hk.2.2.1).congr fun k => ?_
    · refine AddsOn.bind (hbsum tile htile row hrow) ((AddsOn.forLoop (fun k => k.2.2.2)
        (A := fun col => {(SumTable.bias, tile, row, col)}) (fun col hcol => ?_) ?_).congr fun k => ?_)
      · have hproduct := hle tile htile row hrow col hcol
        refine AddsOn.bind (hfactor col hcol) (AddsOn.bind (mulI32_eq ?_)
          (AddsOn.toCell addI32_exact (hv tile row col).symm ?_))
        · exact hproduct.trans (by norm_num [maxI32])
        · rwa [hv]
      · rintro col - k rfl
        rfl
      · constructor
        · rintro ⟨col, hcol, rfl⟩
          exact ⟨rfl, rfl, rfl, hcol⟩
        · obtain ⟨kind, tile', row', col⟩ := k
          rintro ⟨rfl, rfl, rfl, hcol⟩
          exact ⟨col, hcol, rfl⟩
    · constructor
      · rintro ⟨row, hrow, hkind, htile', rfl, hcol⟩
        exact ⟨hkind, htile', hrow, hcol⟩
      · rintro ⟨hkind, htile', hrow, hcol⟩
        exact ⟨k.2.2.1, hrow, hkind, htile', rfl, hcol⟩
  · constructor
    · rintro ⟨tile, htile, hkind, rfl, hrow, hcol⟩
      exact ⟨hkind, htile, hrow, hcol⟩
    · rintro ⟨hkind, htile, hrow, hcol⟩
      exact ⟨k.2.1, htile, hkind, rfl, hrow, hcol⟩

end Dot8x4n

/-! ### `dot8x1` -/

section Dot8x1

variable {chunks : ℕ} {W A : ℕ → ℕ → ℤ}

/-- **The accumulator** of an output pair. -/
theorem accumulator8x1_spec {weights inputs : ℕ → Option Reg} {outputPair : ℕ} (hchunks : chunks ≤ 4)
    (hW : ∀ r i, |W r i| ≤ 63) (hA : ∀ r i, |A r i| ≤ 128)
    (hweights : ∀ c < chunks, ∃ w, weights c = some w ∧ ReadsWeights w W outputPair c)
    (hinputs : ∀ c < chunks, ∃ x, inputs c = some x ∧ ReadsInputs x A 0 c) :
    ∃ lanes, accumulator8x1 chunks weights inputs = some lanes ∧
      ∀ j < 8, lanes j = ∑ c ∈ range chunks, laneValue W A outputPair 0 c j := by
  have hchunk (c : ℕ) (hc : c < chunks) : Adds Eq maxI32 (fun accumulator => do
      let quantizedWeights ← weights c
      let quantizedInputs ← inputs c
      dpbusd quantizedWeights quantizedInputs accumulator)
      (fun j => if j < 8 then laneValue W A outputPair 0 c j else 0) fun _ => 4 * (63 * 128) := by
    obtain ⟨w, hw, hread⟩ := hweights c hc
    obtain ⟨x, hx, hreadx⟩ := hinputs c hc
    exact Adds.bind hw (Adds.bind hx (adds_dpbusd_lanes hW hA hread hreadx))
  obtain ⟨lanes, hrun, hcells⟩ := (Adds.forLoop_const hchunk).fromZero 0 rfl fun _ => by
    have : (chunks : ℤ) ≤ 4 := by omega
    simp only [maxI32]
    omega
  refine ⟨lanes, hrun, fun j hj => ?_⟩
  rw [hcells j]
  exact sum_congr rfl fun c _ => if_pos hj

/-- **What a group adds** to the sum of each weight row. -/
theorem addsOn_groupSums8x1 {weights : ℕ → ℕ → Option Reg} {inputs : ℕ → Option Reg}
    {scale : ℕ → Option ℤ} {S : ℕ → ℤ} {v : SumTable × ℕ → ℤ}
    (hchunks : chunks ≤ 4) (hW : ∀ r i, |W r i| ≤ 63) (hA : ∀ r i, |A r i| ≤ 128)
    (hweights : ∀ outputPair < 4, ∀ c < chunks, ∃ w, weights outputPair c = some w ∧
      ReadsWeights w W outputPair c)
    (hinputs : ∀ c < chunks, ∃ x, inputs c = some x ∧ ReadsInputs x A 0 c)
    (hscale : ∀ col < 8, scale col = some (S col)) (hS : ∀ col < 8, |S col| ≤ 128)
    (hv : ∀ col, v (.integer, col) = S col * ∑ i ∈ range (chunks * 8), W col i * A 0 i) :
    AddsOn Eq maxI32 (groupSums8x1 chunks weights inputs scale) {k | k.1 = .integer ∧ k.2 < 8} v
      (2 ^ 25) := by
  refine (AddsOn.forLoop (fun k => k.2 / 2)
    (A := fun outputPair => {k : SumTable × ℕ | k.1 = .integer ∧ k.2 / 2 = outputPair})
    (fun outputPair houtput => ?_) fun outputPair _ k hk => hk.2).congr fun k => ?_
  · obtain ⟨lanes, hrun, hlanes⟩ := accumulator8x1_spec hchunks hW hA (hweights outputPair houtput) hinputs
    have hcell (j : ℕ) (hj : j < 2) : AddsOn Eq maxI32
        (addLanes lanes j (scale (outputPair * 2 + j)) (SumTable.integer, outputPair * 2 + j))
        {(SumTable.integer, outputPair * 2 + j)} v (2 ^ 25) := by
      have hadd := addI32_lanes hW hA hchunks hlanes (show j < 4 by omega)
      have hrow : j % 2 = j := by omega
      have hinput : j / 2 % 2 = 0 := by omega
      rw [hrow, hinput] at hadd
      rw [hscale _ (by omega)]
      exact addsOn_addLanes hadd (hv _) (abs_rowProduct_le hW hA hchunks _ _) (hS _ (by omega))
    refine AddsOn.bind hrun (((hcell 0 (by omega)).andThen (hcell 1 (by omega)) ?_).congr fun k => ?_)
    · simp
    · obtain ⟨kind, col⟩ := k
      simp only [Set.mem_union, Set.mem_singleton_iff, Prod.mk.injEq, Set.mem_ofPred_eq]
      constructor
      · rintro (⟨rfl, rfl⟩ | ⟨rfl, rfl⟩)
        all_goals exact ⟨rfl, by omega⟩
      · rintro ⟨rfl, hcol⟩
        simp only [true_and]
        omega
  · constructor
    · rintro ⟨outputPair, houtput, hkind, hcol⟩
      exact ⟨hkind, by omega⟩
    · rintro ⟨hkind, hcol⟩
      exact ⟨k.2 / 2, by omega, hkind, rfl⟩

/-- **What the sums of the activations add** to the sum of each weight row. -/
theorem addsOn_biasSums8x1 {bsum : Option ℤ} {factor : ℕ → Option ℤ} {B : ℤ} {F : ℕ → ℤ}
    {v : SumTable × ℕ → ℤ} (hbsum : bsum = some B) (hfactor : ∀ col < 8, factor col = some (F col))
    (hle : ∀ col < 8, |B * F col| ≤ 2 ^ 25) (hv : ∀ col, v (.bias, col) = B * F col) :
    AddsOn Eq maxI32 (biasSums8x1 bsum factor) {k | k.1 = .bias ∧ k.2 < 8} v (2 ^ 25) := by
  refine AddsOn.bind hbsum ((AddsOn.forLoop (fun k => k.2) (A := fun col => {(SumTable.bias, col)})
    (fun col hcol => ?_) ?_).congr fun k => ?_)
  · have hproduct := hle col hcol
    refine AddsOn.bind (hfactor col hcol) (AddsOn.bind (mulI32_eq ?_)
      (AddsOn.toCell addI32_exact (hv col).symm ?_))
    · exact hproduct.trans (by norm_num [maxI32])
    · rwa [hv]
  · rintro col - k rfl
    rfl
  · constructor
    · rintro ⟨col, hcol, rfl⟩
      exact ⟨rfl, hcol⟩
    · obtain ⟨kind, col⟩ := k
      rintro ⟨rfl, hcol⟩
      exact ⟨col, hcol, rfl⟩

end Dot8x1

end Matmul
