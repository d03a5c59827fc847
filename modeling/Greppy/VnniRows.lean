/-
**The vector dot products are the scalar ones.**

A weight matrix is packed once, and its groups of eight rows are multiplied with tiles of activation rows.
For every block of the rows, the sums that a vector kernel forms are compared with what the scalar dot
product forms of the blocks that were packed.
-/

import Greppy.VnniDots

set_option autoImplicit false

open Finset

namespace Matmul

open Checked Cells F32

/-! ### The sums of the scalar dot products -/

/-- The sums of two rows are those of the scalar dot product: its lanes add up to the integer sum, and
`sumi` is the bias sum. -/
def AgreesQ4K (x : BlockQ4K) (y : BlockQ8K) (integerSum biasSum : ℤ) : Prop :=
  integerSum = x.dot y ∧ biasSum = x.minDot y ∧
    ∃ aux32, scalarSumsQ4K x y = some (aux32, biasSum) ∧ ∑ l ∈ range 8, aux32 l = integerSum

/-- The corrected sum of two rows is that of the scalar dot product, whose lanes hold integers that add up
to it. -/
def AgreesQ6K (x : BlockQ6K) (y : BlockQ8K) (integerSum correction : ℤ) : Prop :=
  integerSum - correction = x.dot y ∧ correction = x.correction y ∧
    ∃ (aux32 : ℕ → Float32) (z : ℕ → ℤ), scalarSumsQ6K x y = some aux32 ∧
      (∀ l, Holds (aux32 l) (z l)) ∧ ∑ l ∈ range 8, z l = integerSum - correction

theorem agreesQ4K {x : BlockQ4K} {y : BlockQ8K} {integerSum biasSum : ℤ} (h : integerSum = x.dot y)
    (h' : biasSum = x.minDot y) : AgreesQ4K x y integerSum biasSum := by
  obtain ⟨aux32, hsums, hlanes⟩ := scalarSumsQ4K_spec x y
  subst h h'
  exact ⟨rfl, rfl, aux32, hsums, hlanes⟩

theorem agreesQ6K {x : BlockQ6K} {y : BlockQ8K} {integerSum correction : ℤ}
    (h : integerSum - correction = x.dot y) (h' : correction = x.correction y) :
    AgreesQ6K x y integerSum correction := by
  obtain ⟨aux32, z, hsums, hholds, hlanes⟩ := scalarSumsQ6K_spec x y
  exact ⟨h, h', aux32, z, hsums, hholds, by rw [hlanes, h]⟩

/-! ### Packed rows -/

/-- Weight blocks `α` that are packed into blocks `β`, and the kernels for these. -/
structure Kernels (α β : Type) where
  pack : List α → ℕ → Option (List β)
  sums8x4n : ℕ → β → (ℕ → BlockQ8Kx4) → Option Sums8x4n
  sums8x1 : β → BlockQ8Kx4 → Option Sums8x1
  dot8x4n : ℕ → List β → (ℕ → List BlockQ8Kx4) → Option (ℕ × ℕ × ℕ → Float32)
  dot8x1 : List β → List BlockQ8Kx4 → Option (ℕ → Float32)

def kernelsQ4K (toF32 : F16 → Float32) : Kernels BlockQ4K BlockQ4Kx8Vnni where
  pack := packToQ4Kx8Vnni toF32
  sums8x4n := sums8x4nQ4K
  sums8x1 := sums8x1Q4K
  dot8x4n := dot8x4nQ4K
  dot8x1 := dot8x1Q4K

def kernelsQ6K (toF32 : F16 → Float32) : Kernels BlockQ6K BlockQ6Kx8 where
  pack := packToQ6Kx8 toF32
  sums8x4n := sums8x4nQ6K
  sums8x1 := sums8x1Q6K
  dot8x4n := dot8x4nQ6K
  dot8x1 := dot8x1Q6K

namespace Kernels

variable {α β : Type}

/-- The matrix `blocks` of so many rows and the tiles of activations are packed; for every group of eight
rows the kernels have a value, and for every block their sums agree with the blocks of the rows. -/
def FormScalarSums (kernels : Kernels α β) (Agrees : α → BlockQ8K → ℤ → ℤ → Prop) (blocks : List α)
    (rows tiles : ℕ) (inputs : ℕ → ActivationTile) : Prop :=
  ∃ packed packedInputs, kernels.pack blocks rows = some packed ∧
    (∀ tile < tiles, (inputs tile).pack = some (packedInputs tile)) ∧
    ∀ group < rows / 8, ∃ weights, weights = groupBlocks packed (blocks.length / rows) group ∧
      (kernels.dot8x4n tiles weights packedInputs).isSome ∧
      (∀ tile < tiles, (kernels.dot8x1 weights (packedInputs tile)).isSome) ∧
      ∀ block < blocks.length / rows, ∃ w q8, weights[block]? = some w ∧
        (∀ tile < tiles, (packedInputs tile)[block]? = some (q8 tile)) ∧
        (∃ sums, kernels.sums8x4n tiles w q8 = some sums ∧
          ∀ tile < tiles, ∀ row < 4, ∀ col < 8, ∃ x y,
            blocks[(group * 8 + col) * (blocks.length / rows) + block]? = some x ∧
            ((inputs tile).row row)[block]? = some y ∧
            Agrees x y (sums (.integer, tile, row, col)) (sums (.bias, tile, row, col))) ∧
        ∀ tile < tiles, ∃ sums, kernels.sums8x1 w (q8 tile) = some sums ∧
          ∀ col < 8, ∃ x y, blocks[(group * 8 + col) * (blocks.length / rows) + block]? = some x ∧
            ((inputs tile).row 0)[block]? = some y ∧
            Agrees x y (sums (.integer, col)) (sums (.bias, col))

/-- A packed weight block and the packed activation blocks of some tiles, whose blocks are `Ok`. -/
def Matched (Packs : β → (ℕ → α) → Prop) (Ok : BlockQ8K → Prop) (tiles : ℕ) (w : β)
    (q8 : ℕ → BlockQ8Kx4) : Prop :=
  ∃ (src : ℕ → α) (ys : ℕ → ℕ → BlockQ8K), Packs w src ∧ (∀ tile < tiles, (q8 tile).Packs (ys tile)) ∧
    ∀ tile < tiles, ∀ row < 4, Ok (ys tile row)

/-- What there is to show of one packed block. -/
structure Sound (kernels : Kernels α β) [Inhabited α] (packBlock : Vector α 8 → Option β)
    (Packs : β → (ℕ → α) → Prop) (Ok : BlockQ8K → Prop) (Agrees : α → BlockQ8K → ℤ → ℤ → Prop) : Prop where
  pack : kernels.pack = packRows packBlock
  packBlock : ∀ src, ∃ dst, packBlock src = some dst ∧ Packs dst (cell src)
  sums8x4n : ∀ {tiles : ℕ} {w : β} {src : ℕ → α} {q8 : ℕ → BlockQ8Kx4} {ys : ℕ → ℕ → BlockQ8K},
    Packs w src → (∀ tile < tiles, (q8 tile).Packs (ys tile)) →
    (∀ tile < tiles, ∀ row < 4, Ok (ys tile row)) → ∃ sums, kernels.sums8x4n tiles w q8 = some sums ∧
      ∀ tile < tiles, ∀ row < 4, ∀ col < 8,
        Agrees (src col) (ys tile row) (sums (.integer, tile, row, col)) (sums (.bias, tile, row, col))
  sums8x1 : ∀ {w : β} {src : ℕ → α} {q8 : BlockQ8Kx4} {ys : ℕ → BlockQ8K}, Packs w src → q8.Packs ys → Ok (ys 0) →
    ∃ sums, kernels.sums8x1 w q8 = some sums ∧
      ∀ col < 8, Agrees (src col) (ys 0) (sums (.integer, col)) (sums (.bias, col))
  dot8x4n : ∀ {tiles : ℕ} {weights : List β} {inputs : ℕ → List BlockQ8Kx4}, (∀ block < weights.length, ∃ w q8, weights[block]? = some w ∧
    (∀ tile < tiles, (inputs tile)[block]? = some (q8 tile)) ∧ Matched Packs Ok tiles w q8) →
    (kernels.dot8x4n tiles weights inputs).isSome
  dot8x1 : ∀ {weights : List β} {inputs : List BlockQ8Kx4}, (∀ w q8, (w, q8) ∈ weights.zip inputs →
    Matched Packs Ok 1 w fun _ => q8) → (kernels.dot8x1 weights inputs).isSome

/-- **A whole matrix** of packed blocks. -/
theorem Sound.formScalarSums [Inhabited α] {kernels : Kernels α β} {packBlock : Vector α 8 → Option β}
    {Packs : β → (ℕ → α) → Prop} {Ok : BlockQ8K → Prop} {Agrees : α → BlockQ8K → ℤ → ℤ → Prop}
    (h : kernels.Sound packBlock Packs Ok Agrees) {blocks : List α} {rows tiles : ℕ}
    {inputs : ℕ → ActivationTile} (h0 : rows ≠ 0) (h8 : rows % 8 = 0)
    (hlen : ∀ tile < tiles, ∀ row < 4, ((inputs tile).row row).length = blocks.length / rows)
    (hok : ∀ tile < tiles, ∀ row < 4, ∀ y ∈ (inputs tile).row row, Ok y) :
    kernels.FormScalarSums Agrees blocks rows tiles inputs := by
  obtain ⟨packed, hpacked, hblocks⟩ := packRows_spec blocks (fun src => by
    obtain ⟨dst, hdst, -⟩ := h.packBlock src
    exact ⟨dst, hdst⟩) h0 h8
  choose! packedInputs hinputs hinputsLen hinput using fun tile htile =>
    (inputs tile).pack_spec (hlen tile htile)
  choose! ys q8 hys hq8 hpacks using hinput
  have hysOk (tile : ℕ) (htile : tile < tiles) (block : ℕ) (hblock : block < blocks.length / rows)
      (row : ℕ) (hrow : row < 4) : Ok (ys tile block row) :=
    hok tile htile row hrow _ (List.mem_of_getElem? (hys tile htile block hblock row hrow))
  refine ⟨packed, packedInputs, by rw [h.pack, hpacked], hinputs, fun group hgroup => ⟨_, rfl, ?_⟩⟩
  generalize hweights : groupBlocks packed (blocks.length / rows) group = weights
  have hshort : weights.length ≤ blocks.length / rows := by
    rw [← hweights]
    exact List.length_take_le _ _
  -- a block of the group, and the blocks that were packed in it
  have hweight (block : ℕ) (hblock : block < blocks.length / rows) :
      ∃ (src : ℕ → α) (w : β),
        (∀ row < 8, blocks[(group * 8 + row) * (blocks.length / rows) + block]? = some (src row)) ∧
        weights[block]? = some w ∧ Packs w src := by
    obtain ⟨src, w, hsrc, hw, hget⟩ := hblocks group hgroup block hblock
    obtain ⟨w', hw', hpacksw⟩ := h.packBlock src
    obtain rfl : w = w' := Option.some.inj (hw.symm.trans hw')
    exact ⟨cell src, w, hsrc, hweights ▸ hget, hpacksw⟩
  refine ⟨?_, fun tile htile => ?_, fun block hblock => ?_⟩
  · refine h.dot8x4n fun block hblock => ?_
    have hblock' : block < blocks.length / rows := lt_of_lt_of_le hblock hshort
    obtain ⟨src, w, -, hw, hpacksw⟩ := hweight block hblock'
    exact ⟨w, fun tile => q8 tile block, hw, fun tile htile => hq8 tile htile block hblock', src,
      fun tile => ys tile block, hpacksw, fun tile htile => hpacks tile htile block hblock',
      fun tile htile => hysOk tile htile block hblock'⟩
  · refine h.dot8x1 fun w q hmem => ?_
    obtain ⟨block, hget⟩ := List.mem_iff_getElem?.mp hmem
    obtain ⟨hw, hq⟩ := List.getElem?_zip_eq_some.mp hget
    have hblock : block < blocks.length / rows :=
      lt_of_lt_of_le (List.getElem?_eq_some_iff.mp hw).1 hshort
    obtain ⟨src, w', -, hw', hpacksw⟩ := hweight block hblock
    obtain rfl : w = w' := Option.some.inj (hw.symm.trans hw')
    obtain rfl : q = q8 tile block := Option.some.inj (hq.symm.trans (hq8 tile htile block hblock))
    exact ⟨src, fun _ => ys tile block, hpacksw, fun _ _ => hpacks tile htile block hblock,
      fun _ _ => hysOk tile htile block hblock⟩
  · obtain ⟨src, w, hsrc, hw, hpacksw⟩ := hweight block hblock
    refine ⟨w, fun tile => q8 tile block, hw, fun tile htile => hq8 tile htile block hblock, ?_,
      fun tile htile => ?_⟩
    · obtain ⟨sums, hsums, hagrees⟩ := h.sums8x4n hpacksw
        (fun tile htile => hpacks tile htile block hblock) fun tile htile => hysOk tile htile block hblock
      exact ⟨sums, hsums, fun tile htile row hrow col hcol => ⟨_, _, hsrc col hcol,
        hys tile htile block hblock row hrow, hagrees tile htile row hrow col hcol⟩⟩
    · obtain ⟨sums, hsums, hagrees⟩ := h.sums8x1 hpacksw (hpacks tile htile block hblock)
        (hysOk tile htile block hblock 0 (by omega))
      exact ⟨sums, hsums, fun col hcol => ⟨_, _, hsrc col hcol, hys tile htile block hblock 0 (by omega),
        hagrees col hcol⟩⟩

end Kernels

/-! ### The kernels -/

section Sound

variable (toF32 : F16 → Float32)

theorem kernelsQ4K_sound : (kernelsQ4K toF32).Sound (packBlockQ4K toF32)
    (fun w src => w.Packs toF32 src) (fun _ => True) AgreesQ4K where
  pack := rfl
  packBlock := packBlockQ4K_spec toF32
  sums8x4n := by
    intro tiles w src q8 ys hw hq8 _
    obtain ⟨sums, hsums, hcells⟩ := sums8x4nQ4K_spec hw hq8
    exact ⟨sums, hsums, fun tile htile row hrow col hcol =>
      agreesQ4K (hcells tile htile row hrow col hcol).1 (hcells tile htile row hrow col hcol).2⟩
  sums8x1 := by
    intro w src q8 ys hw hq8 _
    obtain ⟨sums, hsums, hcells⟩ := sums8x1Q4K_spec hw hq8
    exact ⟨sums, hsums, fun col hcol => agreesQ4K (hcells col hcol).1 (hcells col hcol).2⟩
  dot8x4n := by
    intro tiles weights inputs h
    refine loop_isSome (fun block hblock output => ?_) _
    obtain ⟨w, q8, hw, hq8, src, ys, hpacksw, hpacks, -⟩ := h block hblock
    obtain ⟨v, hv, hcells⟩ := fromFn_spec hq8
    have hpacksv (tile : ℕ) (htile : tile < tiles) : (cell v tile).Packs (ys tile) := by
      rw [hcells tile htile]
      exact hpacks tile htile
    obtain ⟨sums, hsums, -⟩ := sums8x4nQ4K_spec hpacksw hpacksv
    simp [hw, hv, hsums]
  dot8x1 := by
    intro weights inputs h
    refine foldlM_isSome (fun q hq output => ?_) _
    obtain ⟨src, ys, hpacksw, hpacks, -⟩ := h q.1 q.2 hq
    obtain ⟨sums, hsums, -⟩ := sums8x1Q4K_spec hpacksw (hpacks 0 (by omega))
    simp [hsums]

theorem addOutputQ6K_isSome {κ : Type} [DecidableEq κ] (q6 : BlockQ6Kx8) (d : Float32) (col : ℕ)
    {integerSum correction : ℤ} (k : κ) (output : κ → Float32) {x : BlockQ6K} {y : BlockQ8K}
    (h : integerSum - correction = x.dot y) :
    (addOutputQ6K q6 d col integerSum correction k output).isSome := by
  have hbound := x.abs_dot_le y
  rw [addOutputQ6K, h, checkInt_eq (hbound.trans_lt (by norm_num))]
  rfl

theorem kernelsQ6K_sound : (kernelsQ6K toF32).Sound (packBlockQ6K toF32)
    (fun w src => w.Packs toF32 src) BlockQ8K.SumsOk AgreesQ6K where
  pack := rfl
  packBlock := packBlockQ6K_spec toF32
  sums8x4n := by
    intro tiles w src q8 ys hw hq8 hys
    obtain ⟨sums, hsums, hcells⟩ := sums8x4nQ6K_spec hw hq8 hys
    exact ⟨sums, hsums, fun tile htile row hrow col hcol =>
      agreesQ6K (hcells tile htile row hrow col hcol).1 (hcells tile htile row hrow col hcol).2⟩
  sums8x1 := by
    intro w src q8 ys hw hq8 hys
    obtain ⟨sums, hsums, hcells⟩ := sums8x1Q6K_spec hw hq8 hys
    exact ⟨sums, hsums, fun col hcol => agreesQ6K (hcells col hcol).1 (hcells col hcol).2⟩
  dot8x4n := by
    intro tiles weights inputs h
    refine loop_isSome (fun block hblock output => ?_) _
    obtain ⟨w, q8, hw, hq8, src, ys, hpacksw, hpacks, hys⟩ := h block hblock
    obtain ⟨v, hv, hcells⟩ := fromFn_spec hq8
    have hpacksv (tile : ℕ) (htile : tile < tiles) : (cell v tile).Packs (ys tile) := by
      rw [hcells tile htile]
      exact hpacks tile htile
    obtain ⟨sums, hsums, hdots⟩ := sums8x4nQ6K_spec hpacksw hpacksv hys
    simp only [hw, hv, hsums, Option.bind_eq_bind, Option.bind_some]
    refine loop_isSome (fun tile htile => loop_isSome fun row hrow => loop_isSome fun col hcol =>
      fun output => ?_) _
    exact addOutputQ6K_isSome _ _ _ _ _ (hdots tile htile row hrow col hcol).1
  dot8x1 := by
    intro weights inputs h
    refine foldlM_isSome (fun q hq output => ?_) _
    obtain ⟨src, ys, hpacksw, hpacks, hys⟩ := h q.1 q.2 hq
    obtain ⟨sums, hsums, hdots⟩ := sums8x1Q6K_spec hpacksw (hpacks 0 (by omega)) (hys 0 (by omega) 0 (by omega))
    simp only [hsums, Option.bind_eq_bind, Option.bind_some]
    exact loop_isSome (fun col hcol output => addOutputQ6K_isSome _ _ _ _ _ (hdots col hcol).1) _

end Sound

/-- **The vector kernels form the sums of the scalar dot products**, for every matrix of `Q4_K` or `Q6_K`
blocks and all activation rows whose group sums are right, and nothing overflows. -/
theorem vnni_sums_eq_scalar_sums (toF32 : F16 → Float32) {rows tiles rowBlocks : ℕ} {q4 : List BlockQ4K}
    {q6 : List BlockQ6K} {inputs : ℕ → ActivationTile} (h0 : rows ≠ 0) (h8 : rows % 8 = 0)
    (hq4 : q4.length / rows = rowBlocks) (hq6 : q6.length / rows = rowBlocks)
    (hlen : ∀ tile < tiles, ∀ row < 4, ((inputs tile).row row).length = rowBlocks)
    (hsums : ∀ tile < tiles, ∀ row < 4, ∀ y ∈ (inputs tile).row row, y.SumsOk) :
    (kernelsQ4K toF32).FormScalarSums AgreesQ4K q4 rows tiles inputs ∧
      (kernelsQ6K toF32).FormScalarSums AgreesQ6K q6 rows tiles inputs := by
  constructor
  · subst hq4
    exact (kernelsQ4K_sound toF32).formScalarSums h0 h8 hlen fun _ _ _ _ _ _ => trivial
  · subst hq6
    exact (kernelsQ6K_sound toF32).formScalarSums h0 h8 hlen hsums

def onesQ8K : BlockQ8K := ⟨ofI32 1, Vector.replicate 256 1, Vector.replicate 16 16⟩

theorem sumsOk_onesQ8K : onesQ8K.SumsOk := by
  intro j hj
  have hone : ∀ t ∈ range 16, onesQ8K.activation (j * 16 + t) = 1 := fun t ht => by
    rw [BlockQ8K.activation, onesQ8K, cell_replicate _ (by have := mem_range.mp ht; omega)]
    rfl
  rw [sum_congr rfl hone, BlockQ8K.bsum, onesQ8K, cell_replicate _ hj]
  rfl

/-- Eight rows of one block, and a row of ones. -/
theorem vnni_sums_eq_scalar_sums_ones :
    (kernelsQ4K fun _ => ofI32 1).FormScalarSums AgreesQ4K
        (List.replicate 8 ⟨0, 0, Vector.replicate 12 0x11, Vector.replicate 128 0x21⟩) 8 1
        (fun _ => .ofRow [onesQ8K]) ∧
      (kernelsQ6K fun _ => ofI32 1).FormScalarSums AgreesQ6K
        (List.replicate 8 ⟨Vector.replicate 128 0x21, Vector.replicate 64 3, Vector.replicate 16 2, 0⟩) 8 1
        (fun _ => .ofRow [onesQ8K]) :=
  vnni_sums_eq_scalar_sums (fun _ => ofI32 1) (by decide) (by decide) rfl rfl
    (fun _ _ _ _ => rfl) fun _ _ _ _ y hy => by
      obtain rfl := List.mem_singleton.mp hy
      exact sumsOk_onesQ8K

end Matmul
