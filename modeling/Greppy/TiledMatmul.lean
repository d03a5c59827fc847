/-
**The batched products of prepared rows.**

The kernels take a group of eight weight rows and one, two or four tiles of four activation rows, and give
a value for every weight row of the group and every activation row of the tiles.  Two drivers lay these
values out.  The first goes through the groups, for each group through the tiles sixteen, eight and four
rows at a time and then the tail, fills a transposed matrix, and transposes it at the end.  The second cuts
the result into chunks of sixteen rows and writes it as it is: a full chunk takes four tiles at once, and
the last one takes two tiles, one tile and the tail, as far as they are there.

The kernels are parameters, and so is the type of the values.
-/

import Greppy.ChunkWrites
import Greppy.PreparedRows

set_option autoImplicit false

namespace Matmul

open Checked Cells Greppy

/-- The kernels: for a tile, for two and for four. -/
structure TileKernels (T α : Type) where
  x4 : List T → List BlockQ8Kx4 → Vector (Vector α 8) 4
  x8 : List T → Vector (List BlockQ8Kx4) 2 → Vector (Vector (Vector α 8) 4) 2
  x16 : List T → Vector (List BlockQ8Kx4) 4 → Vector (Vector (Vector α 8) 4) 4

section Drivers

variable {T α : Type} [Inhabited α] (k : TileKernels T α) (zero : α) (rhs : List T) (input : PreparedQ8KRows)

/-- `&rhs[group * row_blocks..(group + 1) * row_blocks]`. -/
def weightsOf (group : ℕ) : Option (List T) :=
  slice (group * input.rowBlocks) ((group + 1) * input.rowBlocks) rhs

/-- `[&input.tiles_x4[input_tile], …]`. -/
def tilesAt (count inputTile : ℕ) : Option (Vector (List BlockQ8Kx4) count) :=
  fromFn count fun tile => input.tilesX4[inputTile + tile]?

/-! ### The transposed driver -/

/-- `group_dst[output_lane * lhs_rows + input_row] = values[input_lane][output_lane]`, over the lanes. -/
def scatterTile {n : ℕ} (lhsRows firstRow lanes : ℕ) (values : Vector (Vector α 8) 4) :
    Vector α n → Option (Vector α n) :=
  loop lanes fun inputLane => loop 8 fun outputLane dst => do
    let value ← get₂ values inputLane outputLane
    setCell dst (outputLane * lhsRows + (firstRow + inputLane)) value

/-- The loop over the tiles of one value of a kernel. -/
def scatterTiles {n : ℕ} (lhsRows count inputTile : ℕ) (values : Vector (Vector (Vector α 8) 4) count) :
    Vector α n → Option (Vector α n) :=
  loop count fun tile dst => do
    let rows ← values[tile]?
    scatterTile lhsRows ((inputTile + tile) * 4) 4 rows dst

/-- The turn of one group of weight rows. -/
def fillGroup {n : ℕ} (group : ℕ) (dst : Vector α n) : Option (Vector α n) := do
  let weights ← weightsOf rhs input group
  let tiledX16 := input.tilesX4.length / 4 * 4
  let dst ← stepBy 0 tiledX16 4 (fun inputTile dst => do
    let tiles ← tilesAt input 4 inputTile
    scatterTiles input.rows 4 inputTile (k.x16 weights tiles) dst) dst
  let tiledX8 := tiledX16 + (input.tilesX4.length - tiledX16) / 2 * 2
  let dst ← stepBy tiledX16 tiledX8 2 (fun inputTile dst => do
    let tiles ← tilesAt input 2 inputTile
    scatterTiles input.rows 2 inputTile (k.x8 weights tiles) dst) dst
  let dst ← stepBy tiledX8 input.tilesX4.length 1 (fun inputTile dst => do
    let tile ← input.tilesX4[inputTile]?
    scatterTile input.rows (inputTile * 4) 4 (k.x4 weights tile) dst) dst
  match input.tailX4 with
  | none => some dst
  | some (tail, tailRows) =>
    scatterTile input.rows (input.rows / 4 * 4) tailRows (k.x4 weights tail) dst

def transposeBatchedOutput {n : ℕ} (transposed : Vector α n) (lhsRows matrixRows : ℕ) :
    Option (Vector α (lhsRows * matrixRows)) :=
  chunksMut matrixRows (fun inputRow _ => loop matrixRows fun outputRow dst => do
    let value ← transposed[outputRow * lhsRows + inputRow]?
    setCell dst outputRow value) (Vector.replicate (lhsRows * matrixRows) zero)

def matmulX8BatchedAvxvnniPrepared (matrixRows : ℕ) : Option (Vector α (input.rows * matrixRows)) := do
  let transposed ← chunksMut (16 * input.rows) (fun chunkIdx _ =>
    chunksExactMut (8 * input.rows) fun localGroup => fillGroup k rhs input (chunkIdx * 2 + localGroup))
    (Vector.replicate (matrixRows * input.rows) zero)
  transposeBatchedOutput zero transposed input.rows matrixRows

/-! ### The driver in the final layout -/

/-- `chunk[dst..dst + 8].copy_from_slice(&values[input_lane])`, over the lanes. -/
def copyTile {n : ℕ} (matrixRows group firstRow lanes : ℕ) (values : Vector (Vector α 8) 4) :
    Vector α n → Option (Vector α n) :=
  loop lanes fun inputLane chunk => do
    let row ← values[inputLane]?
    copySlice chunk ((firstRow + inputLane) * matrixRows + group * 8) row 0 8

/-- The loop over the tiles of one value of a kernel. -/
def copyTiles {n : ℕ} (matrixRows group firstRow count : ℕ)
    (values : Vector (Vector (Vector α 8) 4) count) : Vector α n → Option (Vector α n) :=
  loop count fun tile chunk => do
    let rows ← values[tile]?
    copyTile matrixRows group (firstRow + tile * 4) 4 rows chunk

/-- The turn of one group in the chunk of at most sixteen rows that starts with the tile
`firstInputTile`. -/
def fillChunkGroup {n : ℕ} (matrixRows firstInputTile group : ℕ) (chunk : Vector α n) :
    Option (Vector α n) := do
  let inputRows := n / matrixRows
  let weights ← weightsOf rhs input group
  if 16 ≤ inputRows then
    let tiles ← tilesAt input 4 firstInputTile
    copyTiles matrixRows group 0 4 (k.x16 weights tiles) chunk
  else
    let (chunk, localRow, inputTile) ←
      if 8 ≤ inputRows then do
        let tiles ← tilesAt input 2 firstInputTile
        let chunk ← copyTiles matrixRows group 0 2 (k.x8 weights tiles) chunk
        some (chunk, 8, firstInputTile + 2)
      else some (chunk, 0, firstInputTile)
    let (chunk, localRow) ←
      if 4 ≤ inputRows - localRow then do
        let tile ← input.tilesX4[inputTile]?
        let chunk ← copyTile matrixRows group localRow 4 (k.x4 weights tile) chunk
        some (chunk, localRow + 4)
      else some (chunk, localRow)
    if localRow < inputRows then do
      let (tail, tailRows) ← input.tailX4
      if tailRows = inputRows - localRow then
        copyTile matrixRows group localRow tailRows (k.x4 weights tail) chunk
      else none
    else some chunk

def matmulQ4Kx8BatchedAvxvnniPrepared (matrixRows : ℕ) : Option (Vector α (input.rows * matrixRows)) :=
  if matrixRows % 8 = 0 then
    chunksMut (16 * matrixRows) (fun inputChunk _ => loop (matrixRows / 8) fun group =>
      fillChunkGroup k rhs input matrixRows (inputChunk * 4) group)
      (Vector.replicate (input.rows * matrixRows) zero)
  else none

end Drivers

/-! ### The kernels -/

section Kernels

variable {T α : Type} [Inhabited α]

/-- The value of a kernel for `count` tiles is that of the single-row function `f`, row by row, on weights
and rows of `n` blocks. -/
def RowWise (f : List T → List BlockQ8K → Vector α 8) (n count : ℕ) (weights : List T)
    (tiles : ℕ → List BlockQ8Kx4) (values : ℕ → Vector (Vector α 8) 4) : Prop :=
  ∀ rows : ℕ → ℕ → List BlockQ8K, weights.length = n → (∀ t < count, TileOf n (rows t) (tiles t)) →
    ∀ t < count, ∀ lane < 4, cell (values t) lane = f weights (rows t lane)

/-- All the kernels are `f` row by row. -/
structure TileKernels.Computes (k : TileKernels T α) (f : List T → List BlockQ8K → Vector α 8) (n : ℕ) :
    Prop where
  x4 : ∀ weights tile, RowWise f n 1 weights (fun _ => tile) fun _ => k.x4 weights tile
  x8 : ∀ weights tiles, RowWise f n 2 weights (cell tiles) (cell (k.x8 weights tiles))
  x16 : ∀ weights tiles, RowWise f n 4 weights (cell tiles) (cell (k.x16 weights tiles))

/-- The value of every pair of rows: the entry of an activation row and a weight row is that of the
row's group, at its lane. -/
def rowWiseProduct (f : List T → List BlockQ8K → Vector α 8) (rhs : List T) (input : PreparedQ8KRows)
    (matrixRows : ℕ) : Vector α (input.rows * matrixRows) :=
  Vector.ofFn fun j => cell (f (groupBlocks rhs input.rowBlocks (j % matrixRows / 8))
    (input.activation (j / matrixRows))) (j % matrixRows % 8)

end Kernels

/-! ### What is read -/

section Reads

variable {T α : Type} {rhs : List T} {input : PreparedQ8KRows}

theorem weightsOf_eq {group : ℕ} (h : (group + 1) * input.rowBlocks ≤ rhs.length) :
    weightsOf rhs input group = some (groupBlocks rhs input.rowBlocks group) := by
  rw [Nat.succ_mul] at h
  rw [weightsOf, slice, if_pos ⟨Nat.mul_le_mul_right _ (by omega), by rwa [Nat.succ_mul]⟩, groupBlocks,
    List.drop_take, Nat.succ_mul, Nat.add_sub_cancel_left]

theorem groupBlocks_length {group : ℕ} (h : (group + 1) * input.rowBlocks ≤ rhs.length) :
    (groupBlocks rhs input.rowBlocks group).length = input.rowBlocks := by
  rw [Nat.succ_mul] at h
  rw [groupBlocks, List.length_take, List.length_drop]
  omega

theorem PreparedQ8KRows.Tiled.getTile (h : input.Tiled) {i : ℕ} (hi : i < input.rows / 4) :
    input.tilesX4[i]? = some (input.tilesX4.getD i []) ∧
      TileOf input.rowBlocks (fun lane => input.activation (i * 4 + lane)) (input.tilesX4.getD i []) := by
  obtain ⟨tile, htile, hof⟩ := h.tile i hi
  have hget : input.tilesX4.getD i [] = tile := by rw [List.getD_eq_getElem?_getD, htile, Option.getD_some]
  rw [hget]
  exact ⟨htile, hof⟩

theorem PreparedQ8KRows.Tiled.tilesAt_spec (h : input.Tiled) (count inputTile : ℕ)
    (hcount : inputTile + count ≤ input.rows / 4) :
    ∃ tiles, tilesAt input count inputTile = some tiles ∧ ∀ t < count,
      TileOf input.rowBlocks (fun lane => input.activation ((inputTile + t) * 4 + lane)) (cell tiles t) := by
  obtain ⟨tiles, htiles, hcell⟩ := fromFn_spec (n := count)
    (f := fun tile => input.tilesX4[inputTile + tile]?) fun t ht => (h.getTile (by omega)).1
  exact ⟨tiles, htiles, fun t ht => by rw [hcell t ht]; exact (h.getTile (by omega)).2⟩

end Reads

/-! ### What the transposed driver writes -/

section Transposed

variable {T α : Type} [Inhabited α] {k : TileKernels T α} {rhs : List T} {input : PreparedQ8KRows}
  {f : List T → List BlockQ8K → Vector α 8}

/-- The value of row `j % rows` in lane `j / rows`. -/
theorem writes_scatterTile {n lhsRows firstRow lanes : ℕ} (hn : 8 * lhsRows ≤ n) (hlanes : lanes ≤ 4)
    (hrows : firstRow + lanes ≤ lhsRows) {values : Vector (Vector α 8) 4} (value : ℕ → Vector α 8)
    (hv : ∀ lane < lanes, cell values lane = value (firstRow + lane)) :
    Writes (cell (α := α) (n := n)) (scatterTile lhsRows firstRow lanes values)
      (fun j => j < 8 * lhsRows ∧ firstRow ≤ j % lhsRows ∧ j % lhsRows < firstRow + lanes)
      (fun j => cell (value (j % lhsRows)) (j / lhsRows)) := by
  refine (Writes.forLoop (A := fun lane j => ∃ o < 8, j = o * lhsRows + (firstRow + lane)) fun lane hlane =>
    Writes.forLoop fun o ho => ?_).congr fun j => ⟨?_, ?_⟩
  · have hlt : o * lhsRows + (firstRow + lane) < n := by
      have hle : (o + 1) * lhsRows ≤ 8 * lhsRows := Nat.mul_le_mul_right _ ho
      rw [Nat.succ_mul] at hle
      omega
    refine Writes.bind (get₂_eq_cell₂ values (by omega) ho) (writes_setCell hlt ?_)
    rw [mul_comm, Nat.mul_add_mod, Nat.mod_eq_of_lt (by omega), Nat.mul_add_div (by omega),
      Nat.div_eq_of_lt (by omega), Nat.add_zero, ← hv lane hlane]
    rfl
  · rintro ⟨lane, hlane, o, ho, rfl⟩
    have hle : (o + 1) * lhsRows ≤ 8 * lhsRows := Nat.mul_le_mul_right _ ho
    rw [Nat.succ_mul] at hle
    have hmod : (o * lhsRows + (firstRow + lane)) % lhsRows = firstRow + lane := by
      rw [mul_comm, Nat.mul_add_mod, Nat.mod_eq_of_lt (by omega)]
    exact ⟨by omega, by omega, by omega⟩
  · rintro ⟨hj, hlo, hhi⟩
    have hdiv := Nat.div_add_mod j lhsRows
    rw [mul_comm] at hdiv
    exact ⟨j % lhsRows - firstRow, by omega, j / lhsRows, Nat.div_lt_of_lt_mul (by rwa [mul_comm]), by omega⟩

theorem writes_scatterTiles {n lhsRows count inputTile : ℕ} (hn : 8 * lhsRows ≤ n)
    (hrows : (inputTile + count) * 4 ≤ lhsRows) {values : Vector (Vector (Vector α 8) 4) count}
    (value : ℕ → Vector α 8)
    (hv : ∀ t < count, ∀ lane < 4, cell (cell values t) lane = value ((inputTile + t) * 4 + lane)) :
    Writes (cell (α := α) (n := n)) (scatterTiles lhsRows count inputTile values)
      (fun j => j < 8 * lhsRows ∧ inputTile ≤ j % lhsRows / 4 ∧ j % lhsRows / 4 < inputTile + count)
      (fun j => cell (value (j % lhsRows)) (j / lhsRows)) := by
  refine (Writes.forLoop fun t ht => Writes.bind (getElem?_eq_cell values ht)
    (writes_scatterTile hn le_rfl (by omega) value (hv t ht))).congr fun j => ⟨?_, ?_⟩
  · rintro ⟨t, ht, hj, hlo, hhi⟩
    exact ⟨hj, by omega, by omega⟩
  · rintro ⟨hj, hlo, hhi⟩
    exact ⟨j % lhsRows / 4 - inputTile, by omega, hj, by omega, by omega⟩

theorem writes_tileLoop {lhsRows count : ℕ} (lo hi m : ℕ) (hT : input.Tiled) (hcount : 0 < count)
    (hhi : hi = lo + m * count) (hrows : hi ≤ input.rows / 4) (hlhs : lhsRows = input.rows)
    {kernel : Vector (List BlockQ8Kx4) count → Vector (Vector (Vector α 8) 4) count}
    {value : List BlockQ8K → Vector α 8}
    (hk : ∀ (tiles : Vector _ count) (rows : ℕ → ℕ → List BlockQ8K),
      (∀ t < count, TileOf input.rowBlocks (rows t) (cell tiles t)) →
        ∀ t < count, ∀ lane < 4, cell (cell (kernel tiles) t) lane = value (rows t lane)) :
    Writes (cell (α := α) (n := 8 * lhsRows))
      (stepBy lo hi count fun inputTile dst => do
        let tiles ← tilesAt input count inputTile
        scatterTiles lhsRows count inputTile (kernel tiles) dst)
      (fun j => j < 8 * lhsRows ∧ lo ≤ j % lhsRows / 4 ∧ j % lhsRows / 4 < hi)
      (fun j => cell (value (input.activation (j % lhsRows))) (j / lhsRows)) := by
  refine writes_stepBy (m := m) (fun j => j % lhsRows / 4) (fun j => j < 8 * lhsRows) hcount hhi fun i hi => ?_
  have hle : (i + 1) * count ≤ m * count := Nat.mul_le_mul_right count hi
  rw [Nat.succ_mul] at hle
  obtain ⟨tiles, htiles, hof⟩ := hT.tilesAt_spec count (lo + i * count) (by omega)
  refine Writes.bind htiles ((writes_scatterTiles le_rfl (by omega) (fun row => value (input.activation row))
    fun t ht lane hlane => hk tiles _ hof t ht lane hlane).congr fun j => ?_)
  rw [Nat.add_assoc, ← Nat.succ_mul]

section OneTile

variable {kernel : List BlockQ8Kx4 → Vector (Vector α 8) 4} {value : List BlockQ8K → Vector α 8}

theorem writes_singleTiles {lo hi : ℕ} (hT : input.Tiled) (hlo : lo ≤ hi) (hhi : hi ≤ input.rows / 4)
    (hk : ∀ tile row, TileOf input.rowBlocks row tile → ∀ lane < 4, cell (kernel tile) lane = value (row lane)) :
    Writes (cell (α := α) (n := 8 * input.rows))
      (stepBy lo hi 1 fun inputTile dst => do
        let tile ← input.tilesX4[inputTile]?
        scatterTile input.rows (inputTile * 4) 4 (kernel tile) dst)
      (fun j => j < 8 * input.rows ∧ lo ≤ j % input.rows / 4 ∧ j % input.rows / 4 < hi)
      (fun j => cell (value (input.activation (j % input.rows))) (j / input.rows)) := by
  refine writes_stepBy (m := hi - lo) (fun j => j % input.rows / 4) (fun j => j < 8 * input.rows) (by omega)
    (by omega) fun i hi => ?_
  obtain ⟨htile, hof⟩ := hT.getTile (i := lo + i * 1) (by omega)
  exact Writes.bind htile ((writes_scatterTile le_rfl le_rfl (by omega)
    (fun row => value (input.activation row)) (hk _ _ hof)).congr fun j => by omega)

theorem writes_tailTile (hT : input.Tiled)
    (hk : ∀ tile row, TileOf input.rowBlocks row tile → ∀ lane < 4, cell (kernel tile) lane = value (row lane)) :
    Writes (cell (α := α) (n := 8 * input.rows)) (fun dst => match input.tailX4 with
      | none => some dst
      | some (tail, tailRows) => scatterTile input.rows (input.rows / 4 * 4) tailRows (kernel tail) dst)
      (fun j => j < 8 * input.rows ∧ input.rows / 4 * 4 ≤ j % input.rows ∧ j % input.rows < input.rows)
      (fun j => cell (value (input.activation (j % input.rows))) (j / input.rows)) := by
  by_cases hmod : input.rows % 4 = 0
  · rw [hT.tail_none hmod]
    exact Writes.skip.congr fun j => ⟨fun h => h.elim, fun ⟨_, hlo, hhi⟩ => by omega⟩
  · obtain ⟨tile, htile, hof⟩ := hT.tail_some hmod
    rw [htile]
    refine (writes_scatterTile le_rfl (by omega) (by omega) (fun row => value (input.activation row))
      fun lane hlane => ?_).congr fun j => by omega
    rw [hk _ _ hof lane (by omega), min_eq_left (by omega)]

end OneTile

/-- **The turn of a group** writes the values of all the rows. -/
theorem writes_fillGroup (hT : input.Tiled) (hk : k.Computes f input.rowBlocks) {group : ℕ}
    (hgroup : (group + 1) * input.rowBlocks ≤ rhs.length) :
    Writes (cell (α := α) (n := 8 * input.rows)) (fillGroup k rhs input group) (fun j => j < 8 * input.rows)
      (fun j => cell (f (groupBlocks rhs input.rowBlocks group) (input.activation (j % input.rows)))
        (j / input.rows)) := by
  have hw := groupBlocks_length hgroup
  have hweights := weightsOf_eq hgroup
  have hlen := hT.tiles_length
  generalize groupBlocks rhs input.rowBlocks group = weights at *
  generalize hn : input.tilesX4.length = n at *
  have hx16 := writes_tileLoop 0 (n / 4 * 4) (n / 4) hT (by omega) (by omega) (by omega) rfl
    fun tiles rows => hk.x16 weights tiles rows hw
  have hx8 := writes_tileLoop (n / 4 * 4) (n / 4 * 4 + (n - n / 4 * 4) / 2 * 2) ((n - n / 4 * 4) / 2) hT
    (by omega) rfl (by omega) rfl fun tiles rows => hk.x8 weights tiles rows hw
  have hone (tile : List BlockQ8Kx4) (row : ℕ → List BlockQ8K) (hof : TileOf input.rowBlocks row tile) :
      ∀ lane < 4, cell (k.x4 weights tile) lane = f weights (row lane) :=
    hk.x4 weights tile (fun _ => row) hw (fun _ _ => hof) 0 (by omega)
  subst hn
  refine (Writes.bind hweights (hx16.andThen (hx8.andThen ((writes_singleTiles hT (by omega) (by omega)
    hone).andThen (writes_tailTile hT hone))))).congr fun j => ⟨?_, fun hj => ?_⟩
  · rintro (h | h | h | h) <;> exact h.1
  · have hmod := Nat.mod_lt j (by omega : 0 < input.rows)
    omega

theorem group_le {groups group : ℕ} (hrhs : rhs.length = groups * input.rowBlocks) (hgroup : group < groups) :
    (group + 1) * input.rowBlocks ≤ rhs.length := by
  rw [hrhs]
  exact Nat.mul_le_mul_right _ hgroup

theorem writes_transposed (hT : input.Tiled) (hk : k.Computes f input.rowBlocks) (hrows : 0 < input.rows)
    (groups : ℕ) (hrhs : rhs.length = groups * input.rowBlocks) :
    Writes (cell (α := α) (n := 8 * groups * input.rows))
      (chunksMut (16 * input.rows) fun chunkIdx _ =>
        chunksExactMut (8 * input.rows) fun localGroup => fillGroup k rhs input (chunkIdx * 2 + localGroup))
      (fun j => j < 8 * groups * input.rows)
      (fun j => cell (f (groupBlocks rhs input.rowBlocks (j / input.rows / 8))
        (input.activation (j % input.rows))) (j / input.rows % 8)) := by
  refine writes_chunksMut (by omega) fun c hc => ?_
  -- a chunk holds two groups, or the last one
  have hlen : min (16 * input.rows) (8 * groups * input.rows - c * (16 * input.rows)) =
      min 2 (groups - c * 2) * (8 * input.rows) := by
    rw [← Nat.mul_min_mul_right, Nat.sub_mul]
    congr 1
    · ring
    · congr 1 <;> ring
  generalize min (16 * input.rows) (8 * groups * input.rows - c * (16 * input.rows)) = len at *
  subst hlen
  refine ((writes_chunksExactMut (by omega) fun l hl => ?_).congr fun j => ?_)
  · have hlt : l + 1 ≤ min 2 (groups - c * 2) := Nat.le_of_mul_le_mul_right hl (by omega)
    refine (writes_fillGroup hT hk (group_le hrhs (by omega : c * 2 + l < groups))).congrValue fun i hi => ?_
    have hpos : c * (16 * input.rows) + (l * (8 * input.rows) + i) =
        input.rows * (c * 16 + l * 8) + i := by ring
    have hlane : i / input.rows < 8 := Nat.div_lt_of_lt_mul (by rwa [mul_comm])
    rw [hpos, Nat.mul_add_mod, Nat.mul_add_div hrows]
    generalize i / input.rows = lane at *
    have hgroup : (c * 16 + l * 8 + lane) / 8 = c * 2 + l := by omega
    have hrest : (c * 16 + l * 8 + lane) % 8 = lane := by omega
    rw [hgroup, hrest]
  · rw [Nat.mul_div_cancel _ (by omega : 0 < 8 * input.rows)]

theorem writes_transposeBatchedOutput {n lhsRows matrixRows : ℕ} (transposed : Vector α n)
    (hn : matrixRows * lhsRows ≤ n) (hm : 0 < matrixRows) :
    Writes (cell (α := α) (n := lhsRows * matrixRows))
      (chunksMut matrixRows fun inputRow _ => loop matrixRows fun outputRow dst => do
        let value ← transposed[outputRow * lhsRows + inputRow]?
        setCell dst outputRow value)
      (fun j => j < lhsRows * matrixRows)
      (fun j => cell transposed (j % matrixRows * lhsRows + j / matrixRows)) := by
  refine writes_chunksMut hm fun inputRow hc => ?_
  have hrow : inputRow < lhsRows := Nat.lt_of_mul_lt_mul_right hc
  have hle : (inputRow + 1) * matrixRows ≤ lhsRows * matrixRows := Nat.mul_le_mul_right _ hrow
  rw [Nat.succ_mul] at hle
  have hlen : min matrixRows (lhsRows * matrixRows - inputRow * matrixRows) = matrixRows := by omega
  generalize min matrixRows (lhsRows * matrixRows - inputRow * matrixRows) = len at *
  subst hlen
  refine (Writes.forLoop (A := fun outputRow j => j = outputRow) fun outputRow ho => ?_).congr fun j =>
    ⟨fun ⟨i, hi, hj⟩ => hj ▸ hi, fun hj => ⟨j, hj, rfl⟩⟩
  have hread : outputRow * lhsRows + inputRow < n := by
    have hbelow : (outputRow + 1) * lhsRows ≤ len * lhsRows := Nat.mul_le_mul_right _ ho
    rw [Nat.succ_mul] at hbelow
    omega
  refine Writes.bind (getElem?_eq_cell transposed hread) (writes_setCell ho ?_)
  rw [mul_comm inputRow, Nat.mul_add_mod, Nat.mod_eq_of_lt ho, Nat.mul_add_div hm, Nat.div_eq_of_lt ho,
    Nat.add_zero]

/-- **The transposed driver** returns the value of every pair of rows, whatever the array held before. -/
theorem matmulX8_spec (hT : input.Tiled) (hk : k.Computes f input.rowBlocks) (hrows : 0 < input.rows)
    {matrixRows : ℕ} (hm : 0 < matrixRows) (h8 : matrixRows % 8 = 0)
    (hrhs : rhs.length = matrixRows / 8 * input.rowBlocks) (zero : α) :
    matmulX8BatchedAvxvnniPrepared k zero rhs input matrixRows = some (rowWiseProduct f rhs input matrixRows) := by
  obtain ⟨groups, rfl⟩ : ∃ groups, matrixRows = 8 * groups := ⟨matrixRows / 8, by omega⟩
  have htransposed := (writes_transposed hT hk hrows groups (by
    rw [hrhs, Nat.mul_div_cancel_left _ (by omega)])).eq_ofFn
  simp only [matmulX8BatchedAvxvnniPrepared, htransposed, Option.bind_eq_bind, Option.bind_some,
    transposeBatchedOutput]
  refine ((writes_transposeBatchedOutput _ le_rfl hm).eq_ofFn _).trans (congrArg some ?_)
  refine Vector.ext fun j hj => ?_
  have hrow : j / (8 * groups) < input.rows := Nat.div_lt_of_lt_mul (by rwa [mul_comm])
  have hcol : j % (8 * groups) < 8 * groups := Nat.mod_lt j hm
  have hlt : j % (8 * groups) * input.rows + j / (8 * groups) < 8 * groups * input.rows := by
    have hle : (j % (8 * groups) + 1) * input.rows ≤ 8 * groups * input.rows := Nat.mul_le_mul_right _ hcol
    rw [Nat.succ_mul] at hle
    omega
  rw [Vector.getElem_ofFn, rowWiseProduct, Vector.getElem_ofFn, cell_ofFn _ hlt]
  dsimp only
  rw [mul_comm (j % (8 * groups)), Nat.mul_add_mod, Nat.mod_eq_of_lt hrow, Nat.mul_add_div hrows,
    Nat.div_eq_of_lt hrow, Nat.add_zero]

end Transposed

/-! ### What the driver in the final layout writes -/

section FinalLayout

variable {T α : Type} [Inhabited α] {k : TileKernels T α} {rhs : List T} {input : PreparedQ8KRows}
  {f : List T → List BlockQ8K → Vector α 8}

variable {n matrixRows group inputRows : ℕ} {value : ℕ → Vector α 8}

/-- The values of the rows `j / matrixRows`, in the eight columns of the group. -/
theorem writes_copyTile {firstRow lanes : ℕ} (hgroup : group * 8 + 8 ≤ matrixRows)
    (hn : (firstRow + lanes) * matrixRows ≤ n) (hlanes : lanes ≤ 4) {values : Vector (Vector α 8) 4}
    (hv : ∀ lane < lanes, cell values lane = value (firstRow + lane)) :
    Writes (cell (α := α) (n := n)) (copyTile matrixRows group firstRow lanes values)
      (fun j => j % matrixRows / 8 = group ∧ firstRow ≤ j / matrixRows ∧ j / matrixRows < firstRow + lanes)
      (fun j => cell (value (j / matrixRows)) (j % matrixRows % 8)) := by
  have hplace (row t : ℕ) (ht : t < 8) : (row * matrixRows + group * 8 + t) / matrixRows = row ∧
      (row * matrixRows + group * 8 + t) % matrixRows = group * 8 + t := by
    have hlt : group * 8 + t < matrixRows := by omega
    rw [Nat.add_assoc, mul_comm row, Nat.mul_add_mod, Nat.mul_add_div (by omega), Nat.mod_eq_of_lt hlt,
      Nat.div_eq_of_lt hlt]
    exact ⟨rfl, rfl⟩
  refine (Writes.forLoop fun lane hlane => Writes.bind (getElem?_eq_cell values (by omega))
    (writes_copySlice ?_ le_rfl fun t ht => ?_)).congr fun j => ⟨?_, ?_⟩
  · have hle : (firstRow + lane + 1) * matrixRows ≤ (firstRow + lanes) * matrixRows :=
      Nat.mul_le_mul_right _ (by omega)
    rw [Nat.succ_mul] at hle
    omega
  · obtain ⟨hrow, hcol⟩ := hplace (firstRow + lane) t ht
    rw [hrow, hcol, hv lane hlane]
    exact congrArg (cell (value (firstRow + lane))) (by omega)
  · rintro ⟨lane, hlane, hlo, hhi⟩
    obtain ⟨t, rfl⟩ := Nat.exists_eq_add_of_le hlo
    obtain ⟨hrow, hcol⟩ := hplace (firstRow + lane) t (by omega)
    rw [hrow, hcol]
    omega
  · rintro ⟨hcol, hlo, hhi⟩
    have hdiv := Nat.div_add_mod j matrixRows
    rw [mul_comm] at hdiv
    refine ⟨j / matrixRows - firstRow, by omega, ?_⟩
    rw [Nat.add_sub_cancel' hlo]
    omega

theorem writes_copyTiles {count : ℕ} (hgroup : group * 8 + 8 ≤ matrixRows)
    (hn : count * 4 * matrixRows ≤ n) {values : Vector (Vector (Vector α 8) 4) count}
    (hv : ∀ t < count, ∀ lane < 4, cell (cell values t) lane = value (t * 4 + lane)) :
    Writes (cell (α := α) (n := n)) (copyTiles matrixRows group 0 count values)
      (fun j => j % matrixRows / 8 = group ∧ j / matrixRows < count * 4)
      (fun j => cell (value (j / matrixRows)) (j % matrixRows % 8)) := by
  refine (Writes.forLoop fun t ht => Writes.bind (getElem?_eq_cell values ht)
    (writes_copyTile hgroup ?_ le_rfl fun lane hlane => ?_)).congr fun j => ⟨?_, ?_⟩
  · exact (Nat.mul_le_mul_right _ (by omega)).trans hn
  · rw [hv t ht lane hlane, Nat.zero_add]
  · rintro ⟨t, ht, hcol, hlo, hhi⟩
    exact ⟨hcol, by omega⟩
  · rintro ⟨hcol, hhi⟩
    exact ⟨j / matrixRows / 4, by omega, hcol, by omega, by omega⟩

/-- The turn of a group in a chunk of less than sixteen rows: two tiles, one tile and the tail, as far as
they are there. -/
theorem fillChunkGroup_eq {first : ℕ} (hm : 0 < matrixRows) (h16 : inputRows < 16)
    (chunk : Vector α (inputRows * matrixRows)) :
    fillChunkGroup k rhs input matrixRows first group chunk =
      weightsOf rhs input group >>= fun weights =>
      (if 8 ≤ inputRows then tilesAt input 2 first >>= fun tiles =>
        copyTiles matrixRows group 0 2 (k.x8 weights tiles) chunk else some chunk) >>= fun chunk =>
      (if 4 ≤ inputRows - inputRows / 8 * 8 then input.tilesX4[first + inputRows / 8 * 2]? >>= fun tile =>
        copyTile matrixRows group (inputRows / 8 * 8) 4 (k.x4 weights tile) chunk
        else some chunk) >>= fun chunk =>
      (if inputRows / 4 * 4 < inputRows then input.tailX4 >>= fun tail =>
        if tail.2 = inputRows - inputRows / 4 * 4 then
          copyTile matrixRows group (inputRows / 4 * 4) tail.2 (k.x4 weights tail.1) chunk
        else none
        else some chunk) := by
  unfold fillChunkGroup
  rw [Nat.mul_div_cancel _ hm]
  dsimp only
  cases weightsOf rhs input group with
  | none => rfl
  | some weights =>
    simp only [Option.bind_eq_bind, Option.bind_some]
    rw [if_neg (by omega)]
    by_cases h8 : 8 ≤ inputRows
    · have hdiv8 : inputRows / 8 = 1 := by omega
      by_cases h4 : 4 ≤ inputRows - 8
      · have hdiv4 : inputRows / 4 = 3 := by omega
        simp [h8, h4, hdiv8, hdiv4, Option.bind_assoc]
      · have hdiv4 : inputRows / 4 = 2 := by omega
        simp [h8, h4, hdiv8, hdiv4, Option.bind_assoc]
    · have hdiv8 : inputRows / 8 = 0 := by omega
      by_cases h4 : 4 ≤ inputRows
      · have hdiv4 : inputRows / 4 = 1 := by omega
        simp [h8, h4, hdiv8, hdiv4, Option.bind_assoc]
      · have hdiv4 : inputRows / 4 = 0 := by omega
        simp [h8, h4, hdiv8, hdiv4]

/-- **The turn of a group in a chunk** writes the values of the rows of the chunk. -/
theorem writes_fillChunkGroup (hT : input.Tiled) (hk : k.Computes f input.rowBlocks) {chunk : ℕ}
    (hm : group * 8 + 8 ≤ matrixRows) (hgroup : (group + 1) * input.rowBlocks ≤ rhs.length)
    (hrows : inputRows = min 16 (input.rows - chunk * 16)) :
    Writes (cell (α := α) (n := inputRows * matrixRows))
      (fillChunkGroup k rhs input matrixRows (chunk * 4) group)
      (fun j => j < inputRows * matrixRows ∧ j % matrixRows / 8 = group)
      (fun j => cell (f (groupBlocks rhs input.rowBlocks group)
        (input.activation (chunk * 16 + j / matrixRows))) (j % matrixRows % 8)) := by
  have hw := groupBlocks_length hgroup
  have hweights := weightsOf_eq hgroup
  generalize groupBlocks rhs input.rowBlocks group = weights at *
  have hm0 : 0 < matrixRows := by omega
  have hbelow (j : ℕ) : j < inputRows * matrixRows ↔ j / matrixRows < inputRows :=
    (Nat.div_lt_iff_lt_mul hm0).symm
  have hone (tile : List BlockQ8Kx4) (row : ℕ → List BlockQ8K) (hof : TileOf input.rowBlocks row tile) :
      ∀ lane < 4, cell (k.x4 weights tile) lane = f weights (row lane) :=
    hk.x4 weights tile (fun _ => row) hw (fun _ _ => hof) 0 (by omega)
  set value : ℕ → Vector α 8 := fun row => f weights (input.activation (chunk * 16 + row)) with hvalue
  have hrow (row row' : ℕ) (h : row = chunk * 16 + row') : f weights (input.activation row) = value row' := by
    rw [h]
  by_cases h16 : inputRows < 16
  · have htwo : 8 ≤ inputRows → Writes (cell (α := α) (n := inputRows * matrixRows))
        (fun dst => tilesAt input 2 (chunk * 4) >>= fun tiles =>
          copyTiles matrixRows group 0 2 (k.x8 weights tiles) dst)
        (fun j => j % matrixRows / 8 = group ∧ j / matrixRows < 8)
        (fun j => cell (value (j / matrixRows)) (j % matrixRows % 8)) := by
      intro h8
      obtain ⟨tiles, htiles, hof⟩ := hT.tilesAt_spec 2 (chunk * 4) (by omega)
      exact Writes.bind htiles (writes_copyTiles hm (Nat.mul_le_mul_right _ h8) fun t ht lane hlane =>
        (hk.x8 weights tiles _ hw hof t ht lane hlane).trans (hrow _ _ (by omega)))
    have hfour : 4 ≤ inputRows - inputRows / 8 * 8 → Writes (cell (α := α) (n := inputRows * matrixRows))
        (fun dst => input.tilesX4[chunk * 4 + inputRows / 8 * 2]? >>= fun tile =>
          copyTile matrixRows group (inputRows / 8 * 8) 4 (k.x4 weights tile) dst)
        (fun j => j % matrixRows / 8 = group ∧ inputRows / 8 * 8 ≤ j / matrixRows ∧
          j / matrixRows < inputRows / 8 * 8 + 4)
        (fun j => cell (value (j / matrixRows)) (j % matrixRows % 8)) := by
      intro h4
      obtain ⟨htile, hof⟩ := hT.getTile (i := chunk * 4 + inputRows / 8 * 2) (by omega)
      exact Writes.bind htile (writes_copyTile hm (Nat.mul_le_mul_right _ (by omega)) le_rfl
        fun lane hlane => (hone _ _ hof lane hlane).trans (hrow _ _ (by omega)))
    have htail : inputRows / 4 * 4 < inputRows → Writes (cell (α := α) (n := inputRows * matrixRows))
        (fun dst => input.tailX4 >>= fun tail => if tail.2 = inputRows - inputRows / 4 * 4 then
            copyTile matrixRows group (inputRows / 4 * 4) tail.2 (k.x4 weights tail.1) dst
          else none)
        (fun j => j % matrixRows / 8 = group ∧ inputRows / 4 * 4 ≤ j / matrixRows ∧
          j / matrixRows < inputRows)
        (fun j => cell (value (j / matrixRows)) (j % matrixRows % 8)) := by
      intro hlt
      obtain ⟨tail, htail, hof⟩ := hT.tail_some (by omega)
      refine Writes.bind htail ?_
      simp only [if_pos (by omega : input.rows % 4 = inputRows - inputRows / 4 * 4)]
      refine (writes_copyTile hm (Nat.mul_le_mul_right _ (by omega)) (by omega) fun lane hlane =>
        (hone _ _ hof lane (by omega)).trans (hrow _ _ (by omega))).congr fun j => by omega
    have hrun : fillChunkGroup (n := inputRows * matrixRows) k rhs input matrixRows (chunk * 4) group = _ :=
      funext fun c => fillChunkGroup_eq hm0 h16 c
    rw [hrun]
    refine (Writes.bind hweights ((Writes.guarded htwo).andThen
      ((Writes.guarded hfour).andThen (Writes.guarded htail)))).congr fun j => ?_
    rw [hbelow]
    generalize j / matrixRows = row
    omega
  · obtain ⟨tiles, htiles, hof⟩ := hT.tilesAt_spec 4 (chunk * 4) (by omega)
    have hrun : fillChunkGroup (n := inputRows * matrixRows) k rhs input matrixRows (chunk * 4) group =
        fun dst => weightsOf rhs input group >>= fun weights => tilesAt input 4 (chunk * 4) >>= fun tiles =>
          copyTiles matrixRows group 0 4 (k.x16 weights tiles) dst := by
      funext dst
      simp only [fillChunkGroup, Nat.mul_div_cancel _ hm0, if_pos (not_lt.mp h16)]
    rw [hrun]
    refine (Writes.bind hweights (Writes.bind htiles (writes_copyTiles hm (Nat.mul_le_mul_right _ (by omega))
      fun t ht lane hlane => (hk.x16 weights tiles _ hw hof t ht lane hlane).trans
        (hrow _ _ (by omega))))).congr fun j => ?_
    rw [hbelow]
    generalize j / matrixRows = row
    omega

/-- **The driver in the final layout** returns the value of every pair of rows, whatever the array held
before. -/
theorem matmulQ4Kx8_spec (hT : input.Tiled) (hk : k.Computes f input.rowBlocks)
    (hm : 0 < matrixRows) (h8 : matrixRows % 8 = 0)
    (hrhs : rhs.length = matrixRows / 8 * input.rowBlocks) (zero : α) :
    matmulQ4Kx8BatchedAvxvnniPrepared k zero rhs input matrixRows =
      some (rowWiseProduct f rhs input matrixRows) := by
  rw [matmulQ4Kx8BatchedAvxvnniPrepared, if_pos h8]
  refine (writes_chunksMut (v := fun j => cell (f (groupBlocks rhs input.rowBlocks (j % matrixRows / 8))
    (input.activation (j / matrixRows))) (j % matrixRows % 8)) (by omega) fun chunk hc => ?_).eq_ofFn _
  have hlen : min (16 * matrixRows) (input.rows * matrixRows - chunk * (16 * matrixRows)) =
      min 16 (input.rows - chunk * 16) * matrixRows := by
    rw [← Nat.mul_min_mul_right, Nat.sub_mul, Nat.mul_assoc]
  generalize min (16 * matrixRows) (input.rows * matrixRows - chunk * (16 * matrixRows)) = len at *
  subst hlen
  refine (Writes.forLoop fun group hgroup => (writes_fillChunkGroup hT hk (by omega)
    (by rw [hrhs]; exact Nat.mul_le_mul_right _ hgroup) rfl).congrValue fun j hj => ?_).congr fun j => ?_
  · have hpos : chunk * (16 * matrixRows) + j = matrixRows * (chunk * 16) + j := by ring
    rw [hpos, Nat.mul_add_mod, Nat.mul_add_div hm, hj.2]
  · have hlt := Nat.mod_lt j hm
    exact ⟨fun ⟨group, hgroup, hj, _⟩ => hj, fun hj => ⟨j % matrixRows / 8, by omega, hj, rfl⟩⟩

end FinalLayout

/-! ### The products of prepared rows -/

section Products

variable {T α : Type} [Inhabited α]

theorem cell_rowWiseProduct {f : List T → List BlockQ8K → Vector α 8} {rhs : List T} {input : PreparedQ8KRows}
    {matrixRows inputRow outputRow : ℕ} (hin : inputRow < input.rows) (hout : outputRow < matrixRows) :
    (rowWiseProduct f rhs input matrixRows)[inputRow * matrixRows + outputRow]? =
      (f (groupBlocks rhs input.rowBlocks (outputRow / 8)) (input.activation inputRow))[outputRow % 8]? := by
  have hle : (inputRow + 1) * matrixRows ≤ input.rows * matrixRows := Nat.mul_le_mul_right _ hin
  rw [Nat.succ_mul] at hle
  rw [getElem?_eq_cell _ (by omega), getElem?_eq_cell _ (by omega), rowWiseProduct, cell_ofFn _ (by omega)]
  dsimp only
  rw [mul_comm inputRow, Nat.mul_add_mod, Nat.mod_eq_of_lt hout, Nat.mul_add_div (by omega),
    Nat.div_eq_of_lt hout, Nat.add_zero]

/-- **Both drivers return the value of every pair of rows.**  Nothing is left of what the result held at
first, and no index is out of range. -/
theorem prepared_matmul_tiles (quantizeBlock : Vector Float32 256 → BlockQ8K) {m : QuantMatrix}
    {lhs : List Float32} {rows : ℕ} {input : PreparedQ8KRows}
    (hinput : m.prepareQ8KRows quantizeBlock lhs rows = .ok input) (hrows : 1 ≤ rows) {matrixRows : ℕ}
    (hm : 0 < matrixRows) (h8 : matrixRows % 8 = 0) {rhs : List T}
    (hrhs : rhs.length = matrixRows / 8 * (m.cols / 256)) {k : TileKernels T α}
    {f : List T → List BlockQ8K → Vector α 8} (hk : k.Computes f (m.cols / 256)) :
    input.rows = rows ∧ ∃ out : Vector α (input.rows * matrixRows),
      (∀ zero, matmulQ4Kx8BatchedAvxvnniPrepared k zero rhs input matrixRows = some out ∧
        matmulX8BatchedAvxvnniPrepared k zero rhs input matrixRows = some out) ∧
      ∀ inputRow < rows, ∀ outputRow < matrixRows, ∃ activation,
        input.activations[inputRow]? = some activation ∧
        out[inputRow * matrixRows + outputRow]? =
          (f (groupBlocks rhs (m.cols / 256) (outputRow / 8)) activation)[outputRow % 8]? := by
  obtain ⟨hlen, -, hprep⟩ := (prepareQ8KRows_eq_ok_iff quantizeBlock m lhs rows input).mp hinput
  have hcols : m.cols ≠ 0 := fun h => by rw [prepareRows, if_pos h] at hprep; cases hprep
  obtain ⟨input', hprep', rfl, hc, hT⟩ := prepareRows_spec  hcols hlen
  obtain rfl : input' = input := Option.some.inj (hprep'.symm.trans hprep)
  have hblocks : m.cols / 256 = input'.rowBlocks := by rw [PreparedQ8KRows.rowBlocks, hc]
  rw [hblocks] at hrhs hk ⊢
  refine ⟨rfl, rowWiseProduct f rhs input' matrixRows, fun zero => ⟨?_, ?_⟩, fun inputRow hin outputRow hout => ?_⟩
  · exact matmulQ4Kx8_spec hT hk hm h8 hrhs zero
  · exact matmulX8_spec hT hk hrows hm h8 hrhs zero
  · refine ⟨input'.activation inputRow, ?_, cell_rowWiseProduct hin hout⟩
    have hlt : inputRow < input'.activations.length := by rwa [hT.activations_length]
    rw [PreparedQ8KRows.activation, List.getD_eq_getElem _ _ hlt, List.getElem?_eq_getElem hlt]

/-- The trace of a row: the weights it meets and the scales of its blocks. -/
def traceRow (weights : List T) (row : List BlockQ8K) : Vector (List T × List Float32) 8 :=
  Vector.replicate 8 (weights, row.map BlockQ8K.d)

def traceTile (weights : List T) (tile : List BlockQ8Kx4) : Vector (Vector (List T × List Float32) 8) 4 :=
  Vector.ofFn fun lane => Vector.replicate 8 (weights, tile.map fun block => cell block.d lane)

/-- Kernels that record what they are given. -/
def traceKernels : TileKernels T (List T × List Float32) where
  x4 := traceTile
  x8 weights tiles := tiles.map (traceTile weights)
  x16 weights tiles := tiles.map (traceTile weights)

theorem cell_traceTile {n lane : ℕ} (weights : List T) {row : ℕ → List BlockQ8K} {tile : List BlockQ8Kx4}
    (hof : TileOf n row tile) (hlane : lane < 4) : cell (traceTile weights tile) lane = traceRow weights (row lane) := by
  obtain ⟨hlen, v, hcell, htile⟩ := hof
  obtain ⟨packed, hpacked, hlength, hblocks⟩ := (ActivationTile.ofRows v).pack_spec (n := n)
    fun i hi => by rw [ActivationTile.row, hcell i hi, hlen i hi]
  obtain rfl : packed = tile := Option.some.inj (hpacked.symm.trans htile)
  rw [traceTile, cell_ofFn _ hlane, traceRow]
  dsimp only
  congr 2
  refine List.ext_getElem? fun block => ?_
  by_cases hblock : block < n
  · obtain ⟨src, dst, hsrc, hdst, hpacks⟩ := hblocks block hblock
    have hrow := hsrc lane hlane
    rw [ActivationTile.row, hcell lane hlane] at hrow
    rw [List.getElem?_map, List.getElem?_map, hdst, hrow, Option.map_some, Option.map_some,
      hpacks.d lane hlane]
  · rw [List.getElem?_eq_none (by rw [List.length_map]; omega),
      List.getElem?_eq_none (by rw [List.length_map, hlen lane hlane]; omega)]

theorem traceKernels_computes (n : ℕ) : (traceKernels (T := T)).Computes traceRow n where
  x4 weights _ _ _ hof t ht _ hlane := cell_traceTile weights (hof t ht) hlane
  x8 weights tiles _ _ hof t ht _ hlane := by
    rw [traceKernels, cell_map _ _ ht]
    exact cell_traceTile weights (hof t ht) hlane
  x16 weights tiles _ _ hof t ht _ hlane := by
    rw [traceKernels, cell_map _ _ ht]
    exact cell_traceTile weights (hof t ht) hlane

end Products

/-- A block that only keeps its first value. -/
def firstValue (v : Vector Float32 256) : BlockQ8K := ⟨cell v 0, Vector.replicate 256 0, Vector.replicate 16 0⟩

theorem prepared_matmul_tiles_trace :
    ∃ input, (⟨"w", 256, .q4k⟩ : QuantMatrix).prepareQ8KRows firstValue (List.replicate 1280 0) 5 = .ok input ∧
      input.rows = 5 ∧ ∃ out : Vector (List ℕ × List Float32) (input.rows * 16),
        (∀ zero, matmulQ4Kx8BatchedAvxvnniPrepared traceKernels zero [10, 11] input 16 = some out ∧
          matmulX8BatchedAvxvnniPrepared traceKernels zero [10, 11] input 16 = some out) ∧
        ∀ inputRow < 5, ∀ outputRow < 16, ∃ activation,
          input.activations[inputRow]? = some activation ∧
          out[inputRow * 16 + outputRow]? =
            (traceRow (groupBlocks [10, 11] 1 (outputRow / 8)) activation)[outputRow % 8]? := by
  have hlen : (List.replicate 1280 (0 : Float32)).length = 5 * 256 := List.length_replicate
  obtain ⟨input, hprep, -⟩ := prepareRows_spec  (by decide : 256 ≠ 0) hlen
  have hinput := (prepareQ8KRows_eq_ok_iff firstValue ⟨"w", 256, .q4k⟩ (List.replicate 1280 0) 5 input).mpr
    ⟨hlen, by decide, hprep⟩
  exact ⟨input, hinput, prepared_matmul_tiles firstValue hinput (by decide) (by decide) (by decide) (by decide)
    (traceKernels_computes _)⟩

end Matmul
