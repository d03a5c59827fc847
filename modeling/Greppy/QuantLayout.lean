/-
**The rows of quantized blocks.**

The kernels of `matmul.rs` read the scales and minimums of four groups at a time, as words; the routines
that dequantize read them one by one.  Both read the same six bits.  A row is dequantized block by block,
from the bytes of a tensor or from the blocks that were parsed from them, and each value is put once, at
its place, with what the kernels use for it.
-/

import Greppy.QuantRows

set_option autoImplicit false

namespace Matmul

open Bits Checked Cells

/-! ### The scales and minimums of a block -/

variable {k i g : ℕ}

theorem wordBit_shifted_byte (x : UInt8) {p : ℕ} (hp : p < 4) (hk : k < 4) (hi : i < 8) :
    wordBit (x.toUInt32 <<< (8 * p).toUInt32) (8 * k + i) = (decide (k = p) && bit x i) := by
  have hp' : (8 * p).toUInt32.toNat = 8 * p := toNat_toUInt32 (by omega)
  rw [wordBit_shiftLeft _ (by omega), hp', wordBit_toUInt32]
  rcases Nat.lt_trichotomy k p with hlt | rfl | hgt
  · simp [show ¬ 8 * p ≤ 8 * k + i by omega, show k ≠ p by omega]
  · simp [show 8 * k + i < 32 by omega]
  · simp [bit_of_le x (show 8 ≤ 8 * k + i - 8 * p by omega), show k ≠ p by omega]

theorem wordBit_readU32Le {n : ℕ} (q : Vector UInt8 n) (offset : ℕ) (hk : k < 4) (hi : i < 8) :
    wordBit (readU32Le q offset) (8 * k + i) = bit (cell q (offset + k)) i := by
  have h₀ := wordBit_shifted_byte (cell q offset) (show 0 < 4 by decide) hk hi
  have h₁ := wordBit_shifted_byte (cell q (offset + 1)) (show 1 < 4 by decide) hk hi
  have h₂ := wordBit_shifted_byte (cell q (offset + 2)) (show 2 < 4 by decide) hk hi
  have h₃ := wordBit_shifted_byte (cell q (offset + 3)) (show 3 < 4 by decide) hk hi
  have hp₀ : (8 * 0).toUInt32 = 0 := by decide
  have hp₁ : (8 * 1).toUInt32 = 8 := by decide
  have hp₂ : (8 * 2).toUInt32 = 16 := by decide
  have hp₃ : (8 * 3).toUInt32 = 24 := by decide
  rw [hp₀, UInt32.shiftLeft_zero] at h₀
  rw [hp₁] at h₁
  rw [hp₂] at h₂
  rw [hp₃] at h₃
  rw [readU32Le, wordBit_or, wordBit_or, wordBit_or, h₀, h₁, h₂, h₃]
  interval_cases k <;> simp

theorem wordBit_kmask1 : ∀ k < 4, ∀ i < 8, wordBit kmask1 (8 * k + i) = decide (i < 6) := by decide

theorem wordBit_kmask2 : ∀ k < 4, ∀ i < 8, wordBit kmask2 (8 * k + i) = decide (i < 4) := by decide

theorem wordBit_kmask3 : ∀ k < 4, ∀ i < 8, wordBit (kmask3 <<< 4) (8 * k + i) = decide (4 ≤ i ∧ i < 6) := by decide

theorem bit_writeU32LeInto (a b : UInt32) (hg : g < 8) (hi : i < 8) :
    bit (cell (writeU32LeInto a b) g) i = wordBit (if g < 4 then a else b) (8 * (g % 4) + i) := by
  have hshift : (8 * (g % 4)).toUInt32.toNat = 8 * (g % 4) := toNat_toUInt32 (by omega)
  rw [writeU32LeInto, cell_ofFn _ hg, bit_toUInt8]
  dsimp only
  rw [wordBit_shiftRight _ (by omega), hshift]
  simp [hi]

theorem bit_63 : ∀ i < 8, bit 63 i = decide (i < 6) := by decide

theorem bit_15 : ∀ i < 8, bit 0x0f i = decide (i < 4) := by decide

theorem low_six (q : Vector UInt8 12) (offset : ℕ) (b : UInt32) (h4 : g < 4) :
    cell (writeU32LeInto (readU32Le q offset &&& kmask1) b) g = cell q (offset + g) &&& 63 := by
  refine byte_ext fun i hi => ?_
  rw [bit_writeU32LeInto _ _ (by omega) hi, if_pos h4, Nat.mod_eq_of_lt h4, wordBit_and,
    wordBit_readU32Le q offset h4 hi, wordBit_kmask1 g h4 i hi, bit_and, bit_63 i hi]

theorem bit_two_high (c : UInt8) (hi : i < 8) :
    bit ((c >>> 6) <<< 4) i = (decide (4 ≤ i ∧ i < 6) && bit c (i + 2)) := by
  rw [bit_shiftLeft _ (by decide), bit_shiftRight _ (by decide)]
  by_cases hrange : 4 ≤ i ∧ i < 6
  · simp [hrange.1, hrange.2, hi, show 6 + (i - 4) = i + 2 by omega]
  · by_cases h4 : 4 ≤ i
    · simp [bit_of_le c (show 8 ≤ 6 + (i - 4) by omega), hrange]
    · simp [h4]

/-- The two highest bits of each byte of a word, above four others. -/
theorem wordBit_two_high (w : UInt32) (hk : k < 4) (hi : i < 8) :
    wordBit (((w >>> 6) &&& kmask3) <<< 4) (8 * k + i) =
      (decide (4 ≤ i ∧ i < 6) && wordBit w (8 * k + (i + 2))) := by
  rw [UInt32.shiftLeft_and, wordBit_and, wordBit_kmask3 k hk i hi, wordBit_shiftLeft _ (by decide),
    wordBit_shiftRight _ (by decide)]
  by_cases hrange : 4 ≤ i ∧ i < 6
  · have hfour : 4 ≤ 8 * k + i := by omega
    simp [hrange.1, hrange.2, hfour, show 8 * k + i < 32 by omega,
      show 6 + (8 * k + i - 4) = 8 * k + (i + 2) by omega]
  · simp [hrange]

/-- Four bits of each byte, and above them the two highest bits of each byte of a word that was read. -/
theorem four_and_two (q : Vector UInt8 12) (offset : ℕ) (w a : UInt32) {low : UInt8} (hk : k < 4)
    (hlow : ∀ i < 8, wordBit (w &&& kmask2) (8 * k + i) = bit low i) :
    cell (writeU32LeInto a ((w &&& kmask2) ||| ((readU32Le q offset >>> 6) &&& kmask3) <<< 4)) (k + 4) =
      low ||| (cell q (offset + k) >>> 6) <<< 4 := by
  refine byte_ext fun i hi => ?_
  rw [bit_writeU32LeInto _ _ (by omega) hi, if_neg (by omega), show (k + 4) % 4 = k by omega, wordBit_or,
    hlow i hi, bit_or, bit_two_high _ hi, wordBit_two_high _ hk hi]
  by_cases hrange : 4 ≤ i ∧ i < 6
  · rw [wordBit_readU32Le q offset hk (by omega)]
  · simp [hrange]

theorem wordBit_low_four (q : Vector UInt8 12) (hk : k < 4) (hi : i < 8) :
    wordBit (readU32Le q 8 &&& kmask2) (8 * k + i) = bit (cell q (8 + k) &&& 0x0f) i := by
  rw [wordBit_and, wordBit_readU32Le q 8 hk hi, wordBit_kmask2 k hk i hi, bit_and, bit_15 i hi]

theorem wordBit_high_four (q : Vector UInt8 12) (hk : k < 4) (hi : i < 8) :
    wordBit ((readU32Le q 8 >>> 4) &&& kmask2) (8 * k + i) = bit (cell q (8 + k) >>> 4) i := by
  rw [wordBit_and, wordBit_shiftRight _ (by decide), wordBit_kmask2 k hk i hi, bit_shiftRight _ (by decide)]
  change (wordBit (readU32Le q 8) (4 + (8 * k + i)) && _) = bit (cell q (8 + k)) (4 + i)
  by_cases h4 : i < 4
  · rw [show 4 + (8 * k + i) = 8 * k + (4 + i) by omega, wordBit_readU32Le q 8 hk (by omega)]
    simp [h4]
  · simp [h4, bit_of_le (cell q (8 + k)) (show 8 ≤ 4 + i by omega)]

/-- **The words of four groups hold the scales and minimums of the groups one by one.** -/
theorem getScaleMinK4_eq (q : Vector UInt8 12) (hg : g < 8) :
    getScaleMinK4 g q = some (cell (decodeQ4KScalesMins q).1 g, cell (decodeQ4KScalesMins q).2 g) := by
  unfold getScaleMinK4
  by_cases h4 : g < 4
  · have hscale := low_six q 0 ((readU32Le q 8 &&& kmask2) ||| ((readU32Le q 0 >>> 6) &&& kmask3) <<< 4) h4
    have hmin := low_six q 4 (((readU32Le q 8 >>> 4) &&& kmask2) |||
      ((readU32Le q 4 >>> 6) &&& kmask3) <<< 4) h4
    rw [if_pos h4, getElem?_eq_cell q (by omega), getElem?_eq_cell q (by omega), decodeQ4KScalesMins]
    dsimp only
    rw [hscale, hmin, Nat.zero_add, Nat.add_comm 4]
    rfl
  · obtain ⟨k, rfl⟩ : ∃ k, g = k + 4 := ⟨g - 4, by omega⟩
    have hk : k < 4 := by omega
    have hscale := four_and_two q 0 (readU32Le q 8) (readU32Le q 0 &&& kmask1) hk fun i hi =>
      wordBit_low_four q hk hi
    have hmin := four_and_two q 4 (readU32Le q 8 >>> 4) (readU32Le q 4 &&& kmask1) hk fun i hi =>
      wordBit_high_four q hk hi
    rw [if_neg h4, getElem?_eq_cell q (by omega), getElem?_eq_cell q (by omega),
      getElem?_eq_cell q (by omega), decodeQ4KScalesMins]
    dsimp only
    rw [hscale, hmin, Nat.zero_add, show k + 4 + 4 = 8 + k by omega, Nat.add_sub_cancel, Nat.add_comm 4 k]
    rfl

/-! ### Rows -/

section Rows

variable {α β : Type}

/-- What is made of a value of a row of blocks. -/
def rowAt [Inhabited β] (size : ℕ) (blockAt : β → ℕ → α) (blocks : List β) (j : ℕ) : α :=
  blockAt (blocks[j / size]?.getD default) (j % size)

/-- What is made of a value of a `Q4_K` block. -/
def q4kAt (value : F16 → F16 → UInt8 → UInt8 → UInt8 → α) (x : BlockQ4K) (k : ℕ) : α :=
  value x.d x.dmin (cell (decodeQ4KScalesMins x.scales).1 (k / 32))
    (cell (decodeQ4KScalesMins x.scales).2 (k / 32)) (x.code k)

/-- What is made of a value of a `Q5_K` block. -/
def q5kAt (value : F16 → F16 → UInt8 → UInt8 → UInt8 → ℕ → α) (x : BlockQ5K) (k : ℕ) : α :=
  value x.d x.dmin (cell (decodeQ4KScalesMins x.scales).1 (k / 32))
    (cell (decodeQ4KScalesMins x.scales).2 (k / 32)) (x.low k) (x.high k)

/-- What is made of a value of a `Q5_0` block. -/
def q5_0At (value : F16 → ℤ → α) (x : BlockQ5_0) (k : ℕ) : α := value x.d (x.quant k)

theorem rowLoop_fills [Inhabited β] {size : ℕ} (hsize : 0 < size) {blockAt : β → ℕ → α}
    {f : ∀ {σ : Type}, (σ → ℕ → α → Option σ) → ℕ → β → σ → Option σ}
    (h : ∀ base block v, (∀ k < size, v (base + k) = blockAt block k) →
      WritesOnce base size (fun put s => f put base block s) v) (blocks : List β) :
    WritesOnce 0 (size * blocks.length) (fun put s => rowLoop size (f put) blocks s)
      (rowAt size blockAt blocks) := by
  refine WritesOnce.forLoop fun b hb => ?_
  rw [Nat.zero_add]
  simp only [List.getElem?_eq_getElem hb, Option.bind_eq_bind, Option.bind_some]
  refine h (size * b) blocks[b] _ fun k hk => ?_
  have hdiv : (size * b + k) / size = b := by
    rw [Nat.mul_add_div hsize, Nat.div_eq_of_lt hk, Nat.add_zero]
  have hmod : (size * b + k) % size = k := by
    rw [Nat.mul_add_mod, Nat.mod_eq_of_lt hk]
  rw [rowAt, hdiv, hmod, List.getElem?_eq_getElem hb, Option.getD_some]

theorem dequantizeQ4KRow_fills (value : F16 → F16 → UInt8 → UInt8 → UInt8 → α) (blocks : List BlockQ4K) :
    WritesOnce 0 (256 * blocks.length) (fun put s => dequantizeQ4KRow put value blocks s)
      (rowAt 256 (q4kAt value) blocks) :=
  rowLoop_fills (by decide) (fun _ x _ hv => q4kLoop_fills (fun _ hg => getScaleMinK4_eq x.scales hg) hv) blocks

theorem dequantizeQ5KRow_fills (value : F16 → F16 → UInt8 → UInt8 → UInt8 → ℕ → α) (blocks : List BlockQ5K) :
    WritesOnce 0 (256 * blocks.length) (fun put s => dequantizeQ5KRow put value blocks s)
      (rowAt 256 (q5kAt value) blocks) :=
  rowLoop_fills (by decide) (fun _ x _ hv => q5kLoop_fills (fun _ hg => getScaleMinK4_eq x.scales hg) hv) blocks

theorem dequantizeQ6KRow_fills (value : F16 → Int8 → Int8 → α) (blocks : List BlockQ6K) :
    WritesOnce 0 (256 * blocks.length) (fun put s => dequantizeQ6KRow put value blocks s)
      (rowAt 256 (fun x => q6kAt x (value x.d)) blocks) :=
  rowLoop_fills (by decide) (fun base x _ hv => q6kLoop_fills x (value x.d) base hv) blocks

theorem dequantizeQ5_0Row_fills (value : F16 → ℤ → α) (blocks : List BlockQ5_0) :
    WritesOnce 0 (32 * blocks.length) (fun put s => dequantizeQ5_0Row put value blocks s)
      (rowAt 32 (q5_0At value) blocks) :=
  rowLoop_fills (by decide) (fun _ _ _ hv => q5_0Loop_fills hv) blocks

/-- **Every float of a row is written, and nothing beside it**, whatever the row held before. -/
theorem dequantizeRows_floats (toF32 : F16 → Float32) :
    (∀ (blocks : List BlockQ4K) (dst : Vector Float32 (256 * blocks.length)),
      dequantizeQ4KRow setCell (q4kValue toF32) blocks dst =
        some (Vector.ofFn fun j => rowAt 256 (q4kAt (q4kValue toF32)) blocks j)) ∧
    (∀ (blocks : List BlockQ5K) (dst : Vector Float32 (256 * blocks.length)),
      dequantizeQ5KRow setCell (q5kValue toF32) blocks dst =
        some (Vector.ofFn fun j => rowAt 256 (q5kAt (q5kValue toF32)) blocks j)) ∧
    (∀ (blocks : List BlockQ6K) (dst : Vector Float32 (256 * blocks.length)),
      dequantizeQ6KRow setCell (q6kValue toF32) blocks dst =
        some (Vector.ofFn fun j => rowAt 256 (fun x => q6kAt x (q6kValue toF32 x.d)) blocks j)) ∧
    ∀ (blocks : List BlockQ5_0) (dst : Vector Float32 (32 * blocks.length)),
      dequantizeQ5_0Row setCell (q5_0Value toF32) blocks dst =
        some (Vector.ofFn fun j => rowAt 32 (q5_0At (q5_0Value toF32)) blocks j) :=
  ⟨fun blocks => (dequantizeQ4KRow_fills _ blocks).setCell, fun blocks => (dequantizeQ5KRow_fills _ blocks).setCell,
    fun blocks => (dequantizeQ6KRow_fills _ blocks).setCell, fun blocks => (dequantizeQ5_0Row_fills _ blocks).setCell⟩

section Bytes

variable {σ : Type} (put : σ → ℕ → α → Option σ)

theorem dequantizeQ4K_eq (value : F16 → F16 → UInt8 → UInt8 → UInt8 → α) (raw : List (Vector UInt8 144))
    (s : σ) : dequantizeQ4K put value raw s = dequantizeQ4KRow put value (raw.map parseQ4K) s := by
  rw [dequantizeQ4K, dequantizeQ4KRow]
  exact rowLoop_map 256 (fun base (x : BlockQ4K) => q4kLoop put base (value x.d x.dmin) x.scales x.qs) parseQ4K raw s

theorem dequantizeQ5K_eq (value : F16 → F16 → UInt8 → UInt8 → UInt8 → ℕ → α) (raw : List (Vector UInt8 176))
    (s : σ) : dequantizeQ5K put value raw s = dequantizeQ5KRow put value (raw.map parseQ5K) s := by
  rw [dequantizeQ5K, dequantizeQ5KRow]
  exact rowLoop_map 256 (fun base (x : BlockQ5K) => q5kLoop put base (value x.d x.dmin) x.scales x.qh x.qs) parseQ5K raw s

theorem dequantizeQ6K_eq (value : F16 → Int8 → Int8 → α) (raw : List (Vector UInt8 210)) (s : σ) :
    dequantizeQ6K put value raw s = dequantizeQ6KRow put value (raw.map parseQ6K) s := by
  rw [dequantizeQ6K, dequantizeQ6KRow]
  exact rowLoop_map 256 (fun base (x : BlockQ6K) => q6kLoop put base (value x.d) x.ql x.qh x.scales) parseQ6K raw s

theorem dequantizeQ5_0_eq (value : F16 → ℤ → α) (raw : List (Vector UInt8 22)) (s : σ) :
    dequantizeQ5_0 put value raw s = dequantizeQ5_0Row put value (raw.map parseQ5_0) s := by
  rw [dequantizeQ5_0, dequantizeQ5_0Row]
  exact rowLoop_map 32 (fun base (x : BlockQ5_0) => q5_0Loop put base (value x.d) x.qh x.qs) parseQ5_0 raw s

end Bytes

end Rows

end Matmul
