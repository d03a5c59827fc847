/-
**Prepared activation rows.**

The activation rows of a batched product are quantized once and shared by several projections.  The vector
kernels read four rows at a time, so the rows are packed into tiles of four; the rows that are left over
make a last tile, which is filled up with copies of the last row and knows how many of its rows count.

How one block of 256 values is quantized is left open: it is a function of these values.
-/

import Greppy.Chunks
import Greppy.Gguf
import Greppy.PackedBlocks

set_option autoImplicit false

namespace Matmul

open Checked Cells Greppy

/-! ### The matrix and the rows -/

inductive QuantStorage where
  | f32
  | q4k
  | q5k
  | q6k
  | q8_0
  | q5_0
deriving DecidableEq

/-- A matrix of weights, with what the preparation reads of it. -/
structure QuantMatrix where
  name : String
  cols : ℕ
  storage : QuantStorage

/-- Rows that are ready for the kernels. -/
structure PreparedQ8KRows where
  rows : ℕ
  cols : ℕ
  activations : List (List BlockQ8K)
  tilesX4 : List (List BlockQ8Kx4)
  tailX4 : Option (List BlockQ8Kx4 × ℕ)

section Prepare

variable (quantizeBlock : Vector Float32 256 → BlockQ8K)

/-- `quantize_q8k`, block by block. -/
def quantizeQ8K (xs : List Float32) : List BlockQ8K :=
  (List.range (xs.length / 256)).map fun i => quantizeBlock (Vector.ofFn fun j => xs.getD (i * 256 + j) 0)

/-- The rows `&rows[0], …, &rows[3]` of a chunk. -/
def tileRows (rows : List (List BlockQ8K)) : Option (List BlockQ8Kx4) :=
  fromFn 4 (fun lane => rows[lane]?) >>= packQ8Kx4Rows

/-- The tile of the rows that are left over. -/
def tailTile (tail : List (List BlockQ8K)) : Option (Option (List BlockQ8Kx4 × ℕ)) :=
  match tail.getLast? with
  | none => some none
  | some last => do
      let packed ← packQ8Kx4Rows (Vector.ofFn fun lane : Fin 4 => tail[(lane : ℕ)]?.getD last)
      some (some (packed, tail.length))

/-- What `prepare_q8k_rows` does after its checks. -/
def prepareRows (cols : ℕ) (lhs : List Float32) (rows : ℕ) : Option PreparedQ8KRows :=
  if cols = 0 then none
  else do
    let activations := (chunksOf cols lhs).map (quantizeQ8K quantizeBlock)
    let tiled ← slice 0 (rows / 4 * 4) activations
    let tilesX4 ← (chunksOf 4 tiled).mapM tileRows
    let tail ← slice (rows / 4 * 4) activations.length activations
    let tailX4 ← tailTile tail
    some ⟨rows, cols, activations, tilesX4, tailX4⟩

def QuantMatrix.prepareQ8KRows (self : QuantMatrix) (lhs : List Float32) (rows : ℕ) :
    Outcome GgufError PreparedQ8KRows :=
  if lhs.length ≠ rows * self.cols then
    .error (.invalidGguf
      s!"{self.name} prepared matmul lhs len {lhs.length}, expected {rows}x{self.cols}")
  else if self.storage ∉ [.q4k, .q5k, .q6k] then
    .error (.invalidGguf s!"{self.name} cannot use prepared Q8_K rows with this weight dtype")
  else .unwrap (prepareRows quantizeBlock self.cols lhs rows)

theorem prepareQ8KRows_eq_ok_iff (self : QuantMatrix) (lhs : List Float32) (rows : ℕ)
    (input : PreparedQ8KRows) :
    self.prepareQ8KRows quantizeBlock lhs rows = .ok input ↔
      lhs.length = rows * self.cols ∧ self.storage ∈ [.q4k, .q5k, .q6k] ∧
        prepareRows quantizeBlock self.cols lhs rows = some input := by
  unfold QuantMatrix.prepareQ8KRows
  by_cases hlen : lhs.length = rows * self.cols
  · by_cases hkind : self.storage ∈ [.q4k, .q5k, .q6k]
    · rw [if_neg (not_not.mpr hlen), if_neg (not_not.mpr hkind)]
      cases prepareRows quantizeBlock self.cols lhs rows <;> simp [Outcome.unwrap, hlen, hkind]
    · rw [if_neg (not_not.mpr hlen), if_pos hkind]
      simp [hkind]
  · rw [if_pos hlen]
    simp [hlen]

end Prepare

/-! ### The tiles -/

/-- Four rows of `n` blocks and their tile. -/
def TileOf (n : ℕ) (rows : ℕ → List BlockQ8K) (tile : List BlockQ8Kx4) : Prop :=
  (∀ lane < 4, (rows lane).length = n) ∧
    ∃ v : Vector (List BlockQ8K) 4, (∀ lane < 4, cell v lane = rows lane) ∧ packQ8Kx4Rows v = some tile

namespace PreparedQ8KRows

variable (input : PreparedQ8KRows)

def rowBlocks : ℕ := input.cols / 256

def activation (row : ℕ) : List BlockQ8K := input.activations.getD row []

/-- The tiles hold the rows, four by four, and the last tile the rows that are left over. -/
structure Tiled : Prop where
  activations_length : input.activations.length = input.rows
  tiles_length : input.tilesX4.length = input.rows / 4
  tile : ∀ i < input.rows / 4, ∃ t, input.tilesX4[i]? = some t ∧
    TileOf input.rowBlocks (fun lane => input.activation (i * 4 + lane)) t
  tail_none : input.rows % 4 = 0 → input.tailX4 = none
  tail_some : input.rows % 4 ≠ 0 → ∃ t, input.tailX4 = some (t, input.rows % 4) ∧
    TileOf input.rowBlocks
      (fun lane => input.activation (input.rows / 4 * 4 + min lane (input.rows % 4 - 1))) t

end PreparedQ8KRows

/-! ### What is prepared -/

section Spec

variable {quantizeBlock : Vector Float32 256 → BlockQ8K}

theorem quantizeQ8K_length (xs : List Float32) :
    (quantizeQ8K quantizeBlock xs).length = xs.length / 256 := by
  simp [quantizeQ8K]

theorem packQ8Kx4Rows_isSome {n : ℕ} (v : Vector (List BlockQ8K) 4)
    (hlen : ∀ lane < 4, (cell v lane).length = n) : ∃ tile, packQ8Kx4Rows v = some tile := by
  obtain ⟨tile, htile, -⟩ := (ActivationTile.ofRows v).pack_spec hlen
  exact ⟨tile, htile⟩

theorem tileRows_spec {rows : List (List BlockQ8K)} {row : ℕ → List BlockQ8K} {n : ℕ}
    (hrows : ∀ lane < 4, rows[lane]? = some (row lane)) (hlen : ∀ lane < 4, (row lane).length = n) :
    ∃ tile, tileRows rows = some tile ∧ TileOf n row tile := by
  obtain ⟨v, hv, hcell⟩ := fromFn_spec hrows
  obtain ⟨tile, htile⟩ := packQ8Kx4Rows_isSome v fun lane hlane => by rw [hcell lane hlane, hlen lane hlane]
  refine ⟨tile, ?_, hlen, v, hcell, htile⟩
  rw [tileRows, hv]
  exact htile

theorem tailTile_nil : tailTile [] = some none := rfl

/-- The rows that are left over make a tile with copies of the last one. -/
theorem tailTile_spec {tail : List (List BlockQ8K)} {n : ℕ} (hne : tail ≠ [])
    (hlen : ∀ row ∈ tail, row.length = n) :
    ∃ tile, tailTile tail = some (some (tile, tail.length)) ∧
      TileOf n (fun lane => tail.getD (min lane (tail.length - 1)) []) tile := by
  have hpos : 0 < tail.length := List.length_pos_of_ne_nil hne
  have hlast : tail.getLast? = some (tail.getD (tail.length - 1) []) := by
    rw [List.getLast?_eq_getElem?, List.getD_eq_getElem?_getD, List.getElem?_eq_getElem (by omega)]
    rfl
  have hcell (lane : ℕ) (hlane : lane < 4) :
      cell (Vector.ofFn fun lane : Fin 4 => tail[(lane : ℕ)]?.getD (tail.getD (tail.length - 1) [])) lane =
        tail.getD (min lane (tail.length - 1)) [] := by
    rw [cell_ofFn _ hlane]
    dsimp only
    by_cases hin : lane < tail.length
    · rw [min_eq_left (by omega), List.getElem?_eq_getElem hin, List.getD_eq_getElem _ _ hin, Option.getD_some]
    · rw [min_eq_right (by omega), List.getElem?_eq_none (by omega), Option.getD_none]
  have hrow (lane : ℕ) (_ : lane < 4) : (tail.getD (min lane (tail.length - 1)) []).length = n := by
    rw [List.getD_eq_getElem _ _ (by omega)]
    exact hlen _ (List.getElem_mem _)
  obtain ⟨tile, htile⟩ := packQ8Kx4Rows_isSome _ fun lane hlane => by rw [hcell lane hlane, hrow lane hlane]
  refine ⟨tile, ?_, hrow, _, hcell, htile⟩
  rw [tailTile, hlast]
  simp only [htile, Option.bind_eq_bind, Option.bind_some]

/-- Rows of the right length can be prepared, and what is prepared is tiled. -/
theorem prepareRows_spec {cols : ℕ} (hcols : cols ≠ 0) {lhs : List Float32} {rows : ℕ}
    (hlen : lhs.length = rows * cols) :
    ∃ input, prepareRows quantizeBlock cols lhs rows = some input ∧ input.rows = rows ∧
      input.cols = cols ∧ input.Tiled := by
  set activations := (chunksOf cols lhs).map (quantizeQ8K quantizeBlock) with hact
  have hn : activations.length = rows := by
    rw [hact, List.length_map, chunksOf_length (by omega) hlen]
  have hblocks : ∀ row ∈ activations, row.length = cols / 256 := by
    intro row hrow
    obtain ⟨i, hi⟩ := List.mem_iff_getElem?.mp hrow
    have hlt : i < rows := hn ▸ (List.getElem?_eq_some_iff.mp hi).1
    rw [hact, List.getElem?_map, chunksOf_getElem? (by omega) hlen hlt] at hi
    rw [← Option.some.inj hi, quantizeQ8K_length, chunk_length hlen hlt]
  have hslice : slice 0 (rows / 4 * 4) activations = some (activations.take (rows / 4 * 4)) := by
    rw [slice, if_pos ⟨Nat.zero_le _, by omega⟩, List.drop_zero]
  have htailSlice : slice (rows / 4 * 4) activations.length activations =
      some (activations.drop (rows / 4 * 4)) := by
    rw [slice, if_pos ⟨by omega, le_rfl⟩, List.take_length]
  have hrow (i : ℕ) (hi : i < rows) : activations[i]? = some (activations.getD i []) := by
    rw [List.getD_eq_getElem _ _ (by omega), List.getElem?_eq_getElem (by omega)]
  have hrowLen (i : ℕ) (hi : i < rows) : (activations.getD i []).length = cols / 256 :=
    hblocks _ (List.mem_of_getElem? (hrow i hi))
  -- the full tiles
  have htaken : (activations.take (rows / 4 * 4)).length = rows / 4 * 4 := by
    rw [List.length_take]
    omega
  have htile (i : ℕ) (hi : i < rows / 4) :
      ∃ tile, tileRows (((activations.take (rows / 4 * 4)).drop (i * 4)).take 4) = some tile ∧
        TileOf (cols / 256) (fun lane => activations.getD (i * 4 + lane) []) tile := by
    refine tileRows_spec (fun lane hlane => ?_) fun lane hlane => hrowLen _ (by omega)
    rw [List.getElem?_take_of_lt hlane, List.getElem?_drop, List.getElem?_take_of_lt (by omega),
      hrow _ (by omega)]
  obtain ⟨tiles, htiles, htilesLen, htilesGet⟩ :=
    mapM_spec (f := tileRows) (l := chunksOf 4 (activations.take (rows / 4 * 4))) fun chunk hchunk => by
      obtain ⟨i, hi⟩ := List.mem_iff_getElem?.mp hchunk
      have hlt : i < rows / 4 := by
        rw [← chunksOf_length (by omega) htaken]
        exact (List.getElem?_eq_some_iff.mp hi).1
      rw [chunksOf_getElem? (by omega) htaken hlt] at hi
      obtain ⟨tile, htile, -⟩ := htile i hlt
      exact ⟨tile, Option.some.inj hi ▸ htile⟩
  -- the rows that are left over
  obtain ⟨tailX4, htailX4, hnone, hsome⟩ : ∃ tailX4, tailTile (activations.drop (rows / 4 * 4)) = some tailX4 ∧
      (rows % 4 = 0 → tailX4 = none) ∧ (rows % 4 ≠ 0 → ∃ t, tailX4 = some (t, rows % 4) ∧
        TileOf (cols / 256)
          (fun lane => activations.getD (rows / 4 * 4 + min lane (rows % 4 - 1)) []) t) := by
    have htailLen : (activations.drop (rows / 4 * 4)).length = rows % 4 := by
      rw [List.length_drop]
      omega
    by_cases hmod : rows % 4 = 0
    · refine ⟨none, ?_, fun _ => rfl, fun h => absurd hmod h⟩
      rw [List.eq_nil_of_length_eq_zero (htailLen.trans hmod), tailTile_nil]
    · obtain ⟨tile, htile, hof⟩ := tailTile_spec (n := cols / 256)
        (fun h => hmod (by rw [← htailLen, h]; rfl))
        fun row hrow => hblocks row (List.mem_of_mem_drop hrow)
      rw [htailLen] at htile hof
      refine ⟨_, htile, fun h => absurd h hmod, fun _ => ⟨tile, rfl, ?_⟩⟩
      convert hof using 2
      simp [List.getD_eq_getElem?_getD]
  refine ⟨⟨rows, cols, activations, tiles, tailX4⟩, ?_, rfl, rfl, hn, ?_, fun i hi => ?_, hnone, hsome⟩
  · rw [prepareRows, if_neg hcols, ← hact]
    simp only [hslice, htailSlice, htiles, htailX4, Option.bind_eq_bind, Option.bind_some]
  · rw [htilesLen, chunksOf_length (by omega) htaken]
  · obtain ⟨tile, hget, hof⟩ := htile i hi
    refine ⟨tile, ?_, hof⟩
    rw [htilesGet, chunksOf_getElem? (by omega) htaken hi, Option.bind_some, hget]

end Spec

end Matmul
