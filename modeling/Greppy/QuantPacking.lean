/-
**Packed rows are read back.**

The GGUF layout spreads the bits of a value over the arrays of its block.  Here the numbers of a block are
packed by that layout: scales and minimums of six bits, and values of four, five and six bits, which are
numbers below a bound by their types.  What the routines of both files make of packed rows is made of these
numbers.
-/

import Greppy.QuantLayout

set_option autoImplicit false

namespace Matmul

open Bits Checked Cells Finset

/-! ### Numbers as bytes -/

section Num

variable {n m : ℕ} [NeZero n]

/-- A number below a bound, as a byte. -/
def num (v : Vector (Fin n) m) (i : ℕ) : UInt8 := UInt8.ofNat (cell v i).val

theorem toNat_num (hn : n ≤ 256) (v : Vector (Fin n) m) (i : ℕ) : (num v i).toNat = (cell v i).val :=
  UInt8.toNat_ofNat_of_lt' (lt_of_lt_of_le (cell v i).isLt hn)

theorem num_lt (hn : n ≤ 256) (v : Vector (Fin n) m) (i : ℕ) : (num v i).toNat < n := by
  rw [toNat_num hn]
  exact (cell v i).isLt

end Num

/-! ### Parts of a block -/

section Parts

variable {α : Type} [Inhabited α] {n m : ℕ}

theorem cells_ext {a b : Vector α n} (h : ∀ i < n, cell a i = cell b i) : a = b := by
  ext i hi
  rw [← cell_eq_getElem a hi, ← cell_eq_getElem b hi, h i hi]

theorem cell_append_left (a : Vector α n) (b : Vector α m) {i : ℕ} (hi : i < n) :
    cell (a ++ b) i = cell a i := by
  rw [cell, cell, Vector.getElem?_append_left hi]

theorem cell_append_right (a : Vector α n) (b : Vector α m) (i : ℕ) : cell (a ++ b) (n + i) = cell b i := by
  rw [cell, cell, Vector.getElem?_append_right (Nat.le_add_right n i), Nat.add_sub_cancel_left]

end Parts

section Bytes

variable {n m : ℕ}

theorem cell_sliceAt {k offset : ℕ} (block : Vector UInt8 n) {i : ℕ} (hi : i < k) :
    cell (sliceAt k offset block) i = cell block (offset + i) := cell_ofFn _ hi

theorem sliceAt_append_right (a : Vector UInt8 n) (b : Vector UInt8 m) : sliceAt m n (a ++ b) = b :=
  cells_ext fun i hi => by rw [cell_sliceAt _ hi, cell_append_right]

theorem sliceAt_append_left (a : Vector UInt8 n) (b : Vector UInt8 m) {k offset : ℕ} (h : offset + k ≤ n) :
    sliceAt k offset (a ++ b) = sliceAt k offset a :=
  cells_ext fun i hi => by rw [cell_sliceAt _ hi, cell_sliceAt _ hi, cell_append_left _ _ (by omega)]

theorem readF16_append_left (a : Vector UInt8 n) (b : Vector UInt8 m) {offset : ℕ} (h : offset + 2 ≤ n) :
    readF16 (a ++ b) offset = readF16 a offset := by
  rw [readF16, readF16, cell_append_left _ _ (by omega), cell_append_left _ _ (by omega)]

theorem readF16_append_right (a : Vector UInt8 n) (b : Vector UInt8 m) (offset : ℕ) :
    readF16 (a ++ b) (n + offset) = readF16 b offset := by
  rw [readF16, readF16, cell_append_right, Nat.add_assoc, cell_append_right]

/-- `to_le_bytes` of the bits of an `f16`. -/
def f16Bytes (d : F16) : Vector UInt8 2 := #v[d.toUInt8, (d >>> 8).toUInt8]

theorem readF16_f16Bytes (d : F16) : readF16 (f16Bytes d) 0 = d := by
  change d.toUInt8.toUInt16 ||| (d >>> 8).toUInt8.toUInt16 <<< 8 = d
  refine UInt16.toNat_inj.1 ?_
  have hd := d.toNat_lt
  have hlow : d.toUInt8.toUInt16.toNat = d.toNat % 256 := by
    rw [UInt8.toNat_toUInt16, UInt16.toNat_toUInt8]
  have hhigh : (d >>> 8).toUInt8.toUInt16.toNat = d.toNat / 256 := by
    rw [UInt8.toNat_toUInt16, UInt16.toNat_toUInt8, UInt16.toNat_shiftRight, Nat.shiftRight_eq_div_pow]
    change d.toNat / 256 % 256 = d.toNat / 256
    omega
  rw [UInt16.toNat_or, UInt16.toNat_shiftLeft, hlow, hhigh, Nat.or_comm, Nat.shiftLeft_eq]
  change d.toNat / 256 * 2 ^ 8 % 65536 ||| d.toNat % 256 = d.toNat
  rw [Nat.mod_eq_of_lt (by omega), ← Nat.shiftLeft_eq, ← Nat.shiftLeft_add_eq_or_of_lt (by omega),
    Nat.shiftLeft_eq]
  omega

end Bytes

/-! ### Scales, minimums and low bits -/

/-- The scales and the minimums of eight groups, which have six bits. -/
structure GroupScales where
  scales : Vector (Fin 64) 8
  mins : Vector (Fin 64) 8
deriving Inhabited

def GroupScales.scale (s : GroupScales) (g : ℕ) : UInt8 := num s.scales g

def GroupScales.min (s : GroupScales) (g : ℕ) : UInt8 := num s.mins g

/-- The twelve bytes of the scales and minimums. -/
def GroupScales.pack (s : GroupScales) : Vector UInt8 12 :=
  Vector.ofFn fun j =>
    if j.val < 4 then s.scale j ||| (s.scale (j + 4) >>> 4) <<< 6
    else if j.val < 8 then s.min (j - 4) ||| (s.min j >>> 4) <<< 6
    else (s.scale (j - 4) &&& (0x0f : UInt8)) ||| (s.min (j - 4) &&& (0x0f : UInt8)) <<< 4

theorem and_or_shiftRight (x : UInt8) : (x &&& (0x0f : UInt8)) ||| (x >>> 4) <<< 4 = x := by
  refine byte_ext fun i hi => ?_
  rw [bit_or, bit_and, bit_15 i hi, bit_shiftLeft _ (by decide), bit_shiftRight _ (by decide)]
  change (bit x i && decide (i < 4) || (decide (i < 8) && (decide (4 ≤ i) && bit x (4 + (i - 4))))) = bit x i
  by_cases h4 : i < 4
  · simp [h4]
  · simp [h4, hi, show 4 ≤ i by omega, show 4 + (i - 4) = i by omega]

variable {x : UInt8} {g k : ℕ} {α : Type}

theorem low_six_of_or (hx : x.toNat < 64) (y : UInt8) : (x ||| y <<< 6) &&& 63 = x :=
  or_shiftLeft_and (by decide) hx bit_63

theorem low_four_of_or (hx : x.toNat < 16) (y : UInt8) : (x ||| y <<< 4) &&& 0x0f = x :=
  or_shiftLeft_and (by decide) hx bit_15

theorem toNat_shiftRight_lt (hx : x.toNat < 64) : (x >>> 4).toNat < 4 := by
  rw [UInt8.toNat_shiftRight, Nat.shiftRight_eq_div_pow]
  change x.toNat / 16 < 4
  omega

/-- **The scales and minimums are read back.** -/
theorem GroupScales.getScaleMinK4_pack (s : GroupScales) (hg : g < 8) :
    getScaleMinK4 g s.pack = some (s.scale g, s.min g) := by
  have hscale (j : ℕ) : (s.scale j).toNat < 64 := num_lt (by decide) _ _
  have hmin (j : ℕ) : (s.min j).toNat < 64 := num_lt (by decide) _ _
  have hfirst (j : ℕ) (hj : j < 4) : cell s.pack j = s.scale j ||| (s.scale (j + 4) >>> 4) <<< 6 := by
    rw [pack, cell_ofFn _ (by omega), if_pos hj]
  have hsecond (j : ℕ) (hj : j < 4) : cell s.pack (j + 4) = s.min j ||| (s.min (j + 4) >>> 4) <<< 6 := by
    rw [pack, cell_ofFn _ (by omega), if_neg (by simp), if_pos (show j + 4 < 8 by omega)]
    rfl
  have hthird (j : ℕ) (hj : j < 4) : cell s.pack (j + 8) =
      (s.scale (j + 4) &&& (0x0f : UInt8)) ||| (s.min (j + 4) &&& (0x0f : UInt8)) <<< 4 := by
    rw [pack, cell_ofFn _ (by omega), if_neg (by simp), if_neg (by simp)]
    rfl
  unfold getScaleMinK4
  by_cases h4 : g < 4
  · rw [if_pos h4, getElem?_eq_cell _ (by omega), getElem?_eq_cell _ (by omega), hfirst g h4, hsecond g h4]
    simp only [Option.bind_eq_bind, Option.bind_some, low_six_of_or (hscale g), low_six_of_or (hmin g)]
  · obtain ⟨j, rfl⟩ : ∃ j, g = j + 4 := ⟨g - 4, by omega⟩
    have hj : j < 4 := by omega
    rw [if_neg h4, getElem?_eq_cell _ (by omega), getElem?_eq_cell _ (by omega), getElem?_eq_cell _ (by omega),
      Nat.add_sub_cancel, hfirst j hj, hsecond j hj, hthird j hj]
    have hup (x y : UInt8) (hx : x.toNat < 64) (hy : y.toNat < 64) : (x ||| (y >>> 4) <<< 6) >>> 6 = y >>> 4 :=
      or_shiftLeft_shiftRight (by decide) hx (toNat_shiftRight_lt hy)
    have hboth : ((s.scale (j + 4) &&& (0x0f : UInt8)) ||| (s.min (j + 4) &&& (0x0f : UInt8)) <<< 4) >>> 4 =
        s.min (j + 4) &&& 0x0f :=
      or_shiftLeft_shiftRight (by decide) (toNat_and_fifteen_lt _) (toNat_and_fifteen_lt _)
    simp only [Option.bind_eq_bind, Option.bind_some, low_four_of_or (toNat_and_fifteen_lt _),
      hup _ _ (hscale j) (hscale (j + 4)), hup _ _ (hmin j) (hmin (j + 4)), hboth, and_or_shiftRight]

/-- The low bits of 256 values, two in a byte. -/
def packNibbles (low : ℕ → UInt8) : Vector UInt8 128 :=
  Vector.ofFn fun b => low (64 * (b / 32) + b % 32) ||| low (64 * (b / 32) + 32 + b % 32) <<< 4

theorem packNibbles_spec {low : ℕ → UInt8} (hlow : ∀ k, (low k).toNat < 16) (hk : k < 256) :
    (if k / 32 % 2 = 0 then cell (packNibbles low) (k / 64 * 32 + k % 32) &&& 0x0f
      else cell (packNibbles low) (k / 64 * 32 + k % 32) >>> 4) = low k := by
  have hbyte : cell (packNibbles low) (k / 64 * 32 + k % 32) =
      low (64 * (k / 64) + k % 32) ||| low (64 * (k / 64) + 32 + k % 32) <<< 4 := by
    rw [packNibbles, cell_ofFn _ (by omega)]
    dsimp only
    rw [show (k / 64 * 32 + k % 32) / 32 = k / 64 by omega, show (k / 64 * 32 + k % 32) % 32 = k % 32 by omega]
  rw [hbyte]
  by_cases hhalf : k / 32 % 2 = 0
  · rw [if_pos hhalf, low_four_of_or (hlow _), show 64 * (k / 64) + k % 32 = k by omega]
  · rw [if_neg hhalf, or_shiftLeft_shiftRight (by decide) (hlow _) (hlow _),
      show 64 * (k / 64) + 32 + k % 32 = k by omega]

theorem GroupScales.decode_pack (s : GroupScales) (hg : g < 8) :
    cell (decodeQ4KScalesMins s.pack).1 g = s.scale g ∧ cell (decodeQ4KScalesMins s.pack).2 g = s.min g := by
  have h := (getScaleMinK4_eq s.pack hg).symm.trans (s.getScaleMinK4_pack hg)
  rw [Option.some_inj, Prod.mk.injEq] at h
  exact h

theorem and_or_eq {y : UInt8} (h : ∀ i < 8, bit y i = (decide (4 ≤ i) && bit x i)) :
    (x &&& 0x0f) ||| y = x := by
  refine byte_ext fun i hi => ?_
  rw [bit_or, bit_and, bit_15 i hi, h i hi]
  by_cases h4 : i < 4
  · simp [h4]
  · simp [h4, show 4 ≤ i by omega]

theorem and_or_sixteen (hx : x.toNat < 32) :
    (x &&& 0x0f) ||| (if bit x 4 then 0x10 else 0) = x := by
  refine and_or_eq fun i hi => ?_
  rw [bit_sixteen _ i hi]
  by_cases h4 : i = 4
  · simp [h4]
  · by_cases hlt : i < 4
    · simp [h4, hlt]
    · simp [h4, bit_of_lt (show x.toNat < 2 ^ 5 from hx) (show 5 ≤ i by omega)]

/-! ### `Q4_K` -/

/-- The numbers of a `Q4_K` block. -/
structure Q4KContents where
  d : F16
  dmin : F16
  groups : GroupScales
  quants : Vector (Fin 16) 256
deriving Inhabited

/-- The bytes of a `Q4_K` block. -/
def Q4KContents.pack (c : Q4KContents) : Vector UInt8 144 :=
  f16Bytes c.d ++ f16Bytes c.dmin ++ c.groups.pack ++ packNibbles (num c.quants)

/-- What is made of a number of a `Q4_K` block. -/
def Q4KContents.valueAt {α : Type} (value : F16 → F16 → UInt8 → UInt8 → UInt8 → α) (c : Q4KContents) (k : ℕ) :
    α :=
  value c.d c.dmin (c.groups.scale (k / 32)) (c.groups.min (k / 32)) (num c.quants k)

theorem parseQ4K_pack (c : Q4KContents) :
    parseQ4K c.pack = ⟨c.d, c.dmin, c.groups.pack, packNibbles (num c.quants)⟩ := by
  have hd : readF16 c.pack 0 = c.d :=
    (readF16_append_left _ _ (by decide)).trans <| (readF16_append_left _ _ (by decide)).trans <|
      (readF16_append_left _ _ (by decide)).trans (readF16_f16Bytes c.d)
  have hdmin : readF16 c.pack 2 = c.dmin :=
    (readF16_append_left _ _ (by decide)).trans <| (readF16_append_left _ _ (by decide)).trans <|
      (readF16_append_right (f16Bytes c.d) _ 0).trans (readF16_f16Bytes c.dmin)
  have hscales : sliceAt 12 4 c.pack = c.groups.pack :=
    (sliceAt_append_left _ _ (by decide)).trans (sliceAt_append_right (f16Bytes c.d ++ f16Bytes c.dmin) _)
  have hqs : sliceAt 128 16 c.pack = packNibbles (num c.quants) :=
    sliceAt_append_right (f16Bytes c.d ++ f16Bytes c.dmin ++ c.groups.pack) _
  rw [parseQ4K, hd, hdmin, hscales, hqs]

theorem q4kAt_pack (value : F16 → F16 → UInt8 → UInt8 → UInt8 → α) (c : Q4KContents) (hk : k < 256) :
    q4kAt value (parseQ4K c.pack) k = c.valueAt value k := by
  obtain ⟨hscale, hmin⟩ := c.groups.decode_pack (show k / 32 < 8 by omega)
  have hcode := packNibbles_spec (num_lt (by decide) c.quants) hk
  rw [parseQ4K_pack, q4kAt, Q4KContents.valueAt, hscale, hmin]
  exact congrArg _ hcode

/-! ### `Q5_K` -/

/-- The numbers of a `Q5_K` block. -/
structure Q5KContents where
  d : F16
  dmin : F16
  groups : GroupScales
  quants : Vector (Fin 32) 256
deriving Inhabited

/-- The fifth bits of the values, a bit of each byte for a group. -/
def Q5KContents.packHigh (c : Q5KContents) : Vector UInt8 32 :=
  Vector.ofFn fun l => byteOfBits fun g => bit (num c.quants (32 * g + l)) 4

def Q5KContents.low (c : Q5KContents) (k : ℕ) : UInt8 := num c.quants k &&& 0x0f

/-- The bytes of a `Q5_K` block. -/
def Q5KContents.pack (c : Q5KContents) : Vector UInt8 176 :=
  f16Bytes c.d ++ f16Bytes c.dmin ++ c.groups.pack ++ c.packHigh ++ packNibbles c.low

/-- What is made of a number of a `Q5_K` block, whose fifth bit is given apart. -/
def Q5KContents.valueAt {α : Type} (value : F16 → F16 → UInt8 → UInt8 → UInt8 → ℕ → α) (c : Q5KContents)
    (k : ℕ) : α :=
  let q := cell c.quants k
  value c.d c.dmin (c.groups.scale (k / 32)) (c.groups.min (k / 32)) (UInt8.ofNat (q % 16)) (q / 16 * 16)

theorem parseQ5K_pack (c : Q5KContents) :
    parseQ5K c.pack = ⟨c.d, c.dmin, c.groups.pack, c.packHigh, packNibbles c.low⟩ := by
  have hd : readF16 c.pack 0 = c.d :=
    (readF16_append_left _ _ (by decide)).trans <| (readF16_append_left _ _ (by decide)).trans <|
      (readF16_append_left _ _ (by decide)).trans <| (readF16_append_left _ _ (by decide)).trans
        (readF16_f16Bytes c.d)
  have hdmin : readF16 c.pack 2 = c.dmin :=
    (readF16_append_left _ _ (by decide)).trans <| (readF16_append_left _ _ (by decide)).trans <|
      (readF16_append_left _ _ (by decide)).trans <| (readF16_append_right (f16Bytes c.d) _ 0).trans
        (readF16_f16Bytes c.dmin)
  have hscales : sliceAt 12 4 c.pack = c.groups.pack :=
    (sliceAt_append_left _ _ (by decide)).trans <| (sliceAt_append_left _ _ (by decide)).trans
      (sliceAt_append_right (f16Bytes c.d ++ f16Bytes c.dmin) _)
  have hqh : sliceAt 32 16 c.pack = c.packHigh :=
    (sliceAt_append_left _ _ (by decide)).trans
      (sliceAt_append_right (f16Bytes c.d ++ f16Bytes c.dmin ++ c.groups.pack) _)
  have hqs : sliceAt 128 48 c.pack = packNibbles c.low :=
    sliceAt_append_right (f16Bytes c.d ++ f16Bytes c.dmin ++ c.groups.pack ++ c.packHigh) _
  rw [parseQ5K, hd, hdmin, hscales, hqh, hqs]

theorem and_groupBit_ne_zero (x : UInt8) (hg : g < 8) :
    (x &&& groupBit g ≠ 0) ↔ bit x g = true := by
  have hgroup : ∀ g < 8, ∀ i < 8, bit (groupBit g) i = decide (i = g) := by decide
  have hzero : ∀ i < 8, bit 0 i = false := by decide
  constructor
  · intro hne
    by_contra hbit
    refine hne (byte_ext fun i hi => ?_)
    rw [bit_and, hgroup g hg i hi, hzero i hi]
    by_cases hig : i = g
    · subst hig
      simpa using hbit
    · simp [hig]
  · intro hbit hzero'
    have h := congrArg (fun y => bit y g) hzero'
    simp only [bit_and, hbit, hgroup g hg g hg, hzero g hg] at h
    simp at h

theorem parsed_high (c : Q5KContents) (hk : k < 256) :
    (parseQ5K c.pack).high k = if bit (num c.quants k) 4 then 16 else 0 := by
  have hbyte : cell c.packHigh (k % 32) = byteOfBits fun g => bit (num c.quants (32 * g + k % 32)) 4 :=
    cell_ofFn _ (by omega)
  rw [BlockQ5K.high, parseQ5K_pack]
  dsimp only
  rw [if_congr (and_groupBit_ne_zero _ (by omega)) rfl rfl, hbyte, bit_byteOfBits _ (by omega),
    show 32 * (k / 32) + k % 32 = k by omega]

theorem five_bits : ∀ q : Fin 32, UInt8.ofNat q &&& 0x0f = UInt8.ofNat (q % 16) ∧
    (if bit (UInt8.ofNat q) 4 then 16 else 0) = q.val / 16 * 16 := by decide

theorem q5kAt_pack (value : F16 → F16 → UInt8 → UInt8 → UInt8 → ℕ → α) (c : Q5KContents)
    (hk : k < 256) : q5kAt value (parseQ5K c.pack) k = c.valueAt value k := by
  obtain ⟨hscale, hmin⟩ := c.groups.decode_pack (show k / 32 < 8 by omega)
  have hlow : (parseQ5K c.pack).low k = c.low k := by
    rw [parseQ5K_pack]
    exact packNibbles_spec (fun k => toNat_and_fifteen_lt _) hk
  obtain ⟨hlow', hhigh'⟩ := five_bits (cell c.quants k)
  rw [q5kAt, hlow, parsed_high c hk, parseQ5K_pack]
  dsimp only
  rw [hscale, hmin, Q5KContents.low, num, hlow', hhigh']
  rfl

/-! ### `Q6_K` -/

/-- The numbers of a `Q6_K` block. -/
structure Q6KContents where
  scales : Vector Int8 16
  d : F16
  quants : Vector (Fin 64) 256
deriving Inhabited

/-- The low bits of the values, those of two lanes in a byte. -/
def Q6KContents.packLow (c : Q6KContents) : Vector UInt8 128 :=
  Vector.ofFn fun b =>
    (num c.quants (128 * (b / 64) + b % 64) &&& (0x0f : UInt8)) |||
      (num c.quants (128 * (b / 64) + 64 + b % 64) &&& (0x0f : UInt8)) <<< 4

/-- The two high bits of the values, those of four lanes in a byte. -/
def Q6KContents.packHigh (c : Q6KContents) : Vector UInt8 64 :=
  Vector.ofFn fun b =>
    byteOfBits fun i => bit (num c.quants (128 * (b / 32) + 32 * (i / 2) + b % 32)) (4 + i % 2)

/-- The bytes of a `Q6_K` block. -/
def Q6KContents.pack (c : Q6KContents) : Vector UInt8 210 :=
  c.packLow ++ c.packHigh ++ c.scales.map Int8.toUInt8 ++ f16Bytes c.d

/-- What is made of a number of a `Q6_K` block. -/
def Q6KContents.valueAt {α : Type} (value : F16 → Int8 → Int8 → α) (c : Q6KContents) (k : ℕ) : α :=
  value c.d (cell c.scales (k / 16)) ((num c.quants k).toInt8 - 32)

theorem parseQ6K_pack (c : Q6KContents) : parseQ6K c.pack = ⟨c.packLow, c.packHigh, c.scales, c.d⟩ := by
  have hlow : sliceAt 128 0 c.pack = c.packLow := by
    refine (sliceAt_append_left _ _ (by decide)).trans <| (sliceAt_append_left _ _ (by decide)).trans <|
      (sliceAt_append_left _ _ (by decide)).trans ?_
    exact cells_ext fun i hi => by rw [cell_sliceAt _ hi, Nat.zero_add]
  have hhigh : sliceAt 64 128 c.pack = c.packHigh :=
    (sliceAt_append_left _ _ (by decide)).trans <| (sliceAt_append_left _ _ (by decide)).trans
      (sliceAt_append_right c.packLow _)
  have hscales : sliceAt 16 192 c.pack = c.scales.map Int8.toUInt8 :=
    (sliceAt_append_left _ _ (by decide)).trans (sliceAt_append_right (c.packLow ++ c.packHigh) _)
  have hd : readF16 c.pack 208 = c.d :=
    (readF16_append_right (c.packLow ++ c.packHigh ++ c.scales.map Int8.toUInt8) _ 0).trans
      (readF16_f16Bytes c.d)
  have hmap : (c.scales.map Int8.toUInt8).map UInt8.toInt8 = c.scales := by
    rw [Vector.map_map]
    exact Vector.map_id' _
  rw [parseQ6K, hlow, hhigh, hscales, hd, hmap]

theorem bit_highBits (h : UInt8) {c i : ℕ} (hc : c < 4) (hi : i < 8) :
    bit (highBits h (2 * c).toUInt8) i = (decide (4 ≤ i ∧ i < 6) && bit h (2 * c + (i - 4))) := by
  have hshift : (2 * c).toUInt8.toNat = 2 * c := UInt8.toNat_ofNat_of_lt' (show 2 * c < 256 by omega)
  have hthree : ∀ i < 8, bit 3 i = decide (i < 2) := by decide
  rw [highBits, bit_shiftLeft _ (by decide), bit_and, bit_shiftRight _ (by omega), hshift]
  change (decide (i < 8) && (decide (4 ≤ i) && (bit h (2 * c + (i - 4)) && bit 3 (i - 4)))) = _
  rw [hthree (i - 4) (by omega)]
  by_cases hrange : 4 ≤ i ∧ i < 6
  · simp [hi, hrange, show i - 4 < 2 by omega]
  · by_cases h4 : 4 ≤ i
    · simp [hrange, show ¬ i - 4 < 2 by omega]
    · simp [h4]

theorem parsed_code (c : Q6KContents) (hk : k < 256) :
    (parseQ6K c.pack).code k = num c.quants k := by
  obtain ⟨i, lane, l, hi, hlane, hl, rfl⟩ : ∃ i lane l, i < 2 ∧ lane < 4 ∧ l < 32 ∧ k = i * 128 + l + 32 * lane :=
    ⟨k / 128, k / 32 % 4, k % 32, by omega, by omega, by omega, by omega⟩
  have hlt := num_lt (show 64 ≤ 256 by decide) c.quants (i * 128 + l + 32 * lane)
  have hlow : (if lane < 2 then cell c.packLow (64 * i + (l + 32 * (lane % 2))) &&& 0x0f
      else cell c.packLow (64 * i + (l + 32 * (lane % 2))) >>> 4) =
        num c.quants (i * 128 + l + 32 * lane) &&& 0x0f := by
    have hbyte := cell_ofFn (fun b : Fin 128 =>
      (num c.quants (128 * (b / 64) + b % 64) &&& (0x0f : UInt8)) |||
        (num c.quants (128 * (b / 64) + 64 + b % 64) &&& (0x0f : UInt8)) <<< 4)
      (show 64 * i + (l + 32 * (lane % 2)) < 128 by omega)
    dsimp only at hbyte
    rw [show (64 * i + (l + 32 * (lane % 2))) / 64 = i by omega,
      show (64 * i + (l + 32 * (lane % 2))) % 64 = l + 32 * (lane % 2) by omega] at hbyte
    rw [Q6KContents.packLow, hbyte]
    by_cases h2 : lane < 2
    · rw [if_pos h2, low_four_of_or (toNat_and_fifteen_lt _),
        show 128 * i + (l + 32 * (lane % 2)) = i * 128 + l + 32 * lane by omega]
    · rw [if_neg h2, or_shiftLeft_shiftRight (by decide) (toNat_and_fifteen_lt _) (toNat_and_fifteen_lt _),
        show 128 * i + 64 + (l + 32 * (lane % 2)) = i * 128 + l + 32 * lane by omega]
  rw [parseQ6K_pack, BlockQ6K.code_lane _ hl hlane, hlow]
  refine and_or_eq fun b hb => ?_
  rw [bit_highBits _ hlane hb]
  by_cases hrange : 4 ≤ b ∧ b < 6
  · have hbyte : cell c.packHigh (32 * i + l) = _ := cell_ofFn _ (by omega)
    rw [hbyte, bit_byteOfBits _ (by omega)]
    dsimp only
    rw [show 128 * ((32 * i + l) / 32) + 32 * ((2 * lane + (b - 4)) / 2) + (32 * i + l) % 32 =
      i * 128 + l + 32 * lane by omega, show 4 + (2 * lane + (b - 4)) % 2 = b by omega]
    simp [hrange]
  · by_cases h4 : 4 ≤ b
    · simp [hrange, bit_of_lt (show (num c.quants (i * 128 + l + 32 * lane)).toNat < 2 ^ 6 from hlt)
        (show 6 ≤ b by omega)]
    · simp [h4]

theorem q6kAt_pack (value : F16 → Int8 → Int8 → α) (c : Q6KContents) (hk : k < 256) :
    q6kAt (parseQ6K c.pack) (value (parseQ6K c.pack).d) k = c.valueAt value k := by
  rw [q6kAt, parsed_code c hk, parseQ6K_pack]
  rfl

/-! ### `Q5_0` -/

/-- The numbers of a `Q5_0` block. -/
structure Q5_0Contents where
  d : F16
  quants : Vector (Fin 32) 32
deriving Inhabited

/-- The fifth bits of the values, in the order of the values. -/
def Q5_0Contents.packHigh (c : Q5_0Contents) : Vector UInt8 4 :=
  Vector.ofFn fun b => byteOfBits fun i => bit (num c.quants (8 * b + i)) 4

/-- The low bits of the values, those of two halves in a byte. -/
def Q5_0Contents.packLow (c : Q5_0Contents) : Vector UInt8 16 :=
  Vector.ofFn fun j =>
    (num c.quants j &&& (0x0f : UInt8)) ||| (num c.quants (j + 16) &&& (0x0f : UInt8)) <<< 4

/-- The bytes of a `Q5_0` block. -/
def Q5_0Contents.pack (c : Q5_0Contents) : Vector UInt8 22 := f16Bytes c.d ++ c.packHigh ++ c.packLow

/-- What is made of a number of a `Q5_0` block. -/
def Q5_0Contents.valueAt {α : Type} (value : F16 → ℤ → α) (c : Q5_0Contents) (k : ℕ) : α :=
  value c.d ((cell c.quants k).val - 16)

theorem parseQ5_0_pack (c : Q5_0Contents) : parseQ5_0 c.pack = ⟨c.d, readU32Le c.packHigh 0, c.packLow⟩ := by
  have hd : readF16 c.pack 0 = c.d :=
    (readF16_append_left _ _ (by decide)).trans <| (readF16_append_left _ _ (by decide)).trans
      (readF16_f16Bytes c.d)
  have hqh : readU32Le c.pack 2 = readU32Le c.packHigh 0 := by
    have hbyte (i : ℕ) (hi : i < 4) : cell c.pack (2 + i) = cell c.packHigh i :=
      (cell_append_left (f16Bytes c.d ++ c.packHigh) c.packLow (by omega)).trans
        (cell_append_right (f16Bytes c.d) c.packHigh i)
    rw [readU32Le, readU32Le, ← hbyte 0 (by decide), hbyte 1 (by decide), hbyte 2 (by decide),
      hbyte 3 (by decide)]
  have hqs : sliceAt 16 6 c.pack = c.packLow := sliceAt_append_right (f16Bytes c.d ++ c.packHigh) _
  rw [parseQ5_0, hd, hqh, hqs]

theorem parsed_quant (c : Q5_0Contents) (hk : k < 32) :
    (parseQ5_0 c.pack).quant k = (cell c.quants k).val - 16 := by
  have hlt := num_lt (show 32 ≤ 256 by decide) c.quants k
  have hlow : (parseQ5_0 c.pack).low k = num c.quants k &&& 0x0f := by
    have hbyte (j : ℕ) (hj : j < 16) : cell c.packLow j =
        (num c.quants j &&& (0x0f : UInt8)) ||| (num c.quants (j + 16) &&& (0x0f : UInt8)) <<< 4 :=
      cell_ofFn _ hj
    rw [parseQ5_0_pack, BlockQ5_0.low]
    dsimp only
    by_cases hhalf : k < 16
    · rw [if_pos hhalf, hbyte k hhalf, low_four_of_or (toNat_and_fifteen_lt _)]
    · rw [if_neg hhalf, hbyte (k - 16) (by omega),
        or_shiftLeft_shiftRight (by decide) (toNat_and_fifteen_lt _) (toNat_and_fifteen_lt _),
        Nat.sub_add_cancel (by omega)]
  have hhigh : (parseQ5_0 c.pack).high k = if bit (num c.quants k) 4 then 0x10 else 0 := by
    have hbyte : cell c.packHigh (k / 8) = byteOfBits fun i => bit (num c.quants (8 * (k / 8) + i)) 4 :=
      cell_ofFn _ (by omega)
    have hbit := wordBit_readU32Le c.packHigh 0 (show k / 8 < 4 by omega) (show k % 8 < 8 by omega)
    rw [Nat.zero_add, hbyte, bit_byteOfBits _ (by omega), Nat.div_add_mod] at hbit
    rw [parseQ5_0_pack, BlockQ5_0.high, hbit]
  rw [BlockQ5_0.quant, BlockQ5_0.code, hlow, hhigh, and_or_sixteen hlt, toNat_num (by decide)]

theorem q5_0At_pack (value : F16 → ℤ → α) (c : Q5_0Contents) (hk : k < 32) :
    q5_0At value (parseQ5_0 c.pack) k = c.valueAt value k := by
  rw [q5_0At, parsed_quant c hk, parseQ5_0_pack]
  rfl

/-! ### The routines agree -/

theorem rowAt_map {β γ : Type} [Inhabited β] [Inhabited γ] {size : ℕ} (hsize : 0 < size)
    {blockAt : β → ℕ → α} {numAt : γ → ℕ → α} {parse : γ → β}
    (h : ∀ c, ∀ k < size, blockAt (parse c) k = numAt c k) (row : List γ) {j : ℕ}
    (hj : j < size * row.length) :
    rowAt size blockAt (row.map parse) j = rowAt size numAt row j := by
  have hb : j / size < row.length := Nat.div_lt_of_lt_mul hj
  rw [rowAt, rowAt, List.getElem?_map, List.getElem?_eq_getElem hb]
  exact h _ _ (Nat.mod_lt j hsize)

theorem dequantizeQ4K_pack (value : F16 → F16 → UInt8 → UInt8 → UInt8 → α) (row : List Q4KContents) :
    WritesOnce 0 (256 * row.length) (fun put s => dequantizeQ4K put value (row.map Q4KContents.pack) s)
      (rowAt 256 (Q4KContents.valueAt value) row) := by
  have h := dequantizeQ4KRow_fills value (row.map fun c => parseQ4K c.pack)
  rw [List.length_map] at h
  simp only [dequantizeQ4K_eq, List.map_map]
  exact h.congr fun k hk => by
    rw [Nat.zero_add]
    exact rowAt_map (by decide) (fun c k hk => q4kAt_pack value c hk) row hk

theorem dequantizeQ5K_pack (value : F16 → F16 → UInt8 → UInt8 → UInt8 → ℕ → α)
    (row : List Q5KContents) :
    WritesOnce 0 (256 * row.length) (fun put s => dequantizeQ5K put value (row.map Q5KContents.pack) s)
      (rowAt 256 (Q5KContents.valueAt value) row) := by
  have h := dequantizeQ5KRow_fills value (row.map fun c => parseQ5K c.pack)
  rw [List.length_map] at h
  simp only [dequantizeQ5K_eq, List.map_map]
  exact h.congr fun k hk => by
    rw [Nat.zero_add]
    exact rowAt_map (by decide) (fun c k hk => q5kAt_pack value c hk) row hk

theorem dequantizeQ6K_pack (value : F16 → Int8 → Int8 → α) (row : List Q6KContents) :
    WritesOnce 0 (256 * row.length) (fun put s => dequantizeQ6K put value (row.map Q6KContents.pack) s)
      (rowAt 256 (Q6KContents.valueAt value) row) := by
  have h := dequantizeQ6KRow_fills value (row.map fun c => parseQ6K c.pack)
  rw [List.length_map] at h
  simp only [dequantizeQ6K_eq, List.map_map]
  exact h.congr fun k hk => by
    rw [Nat.zero_add]
    exact rowAt_map (by decide) (fun c k hk => q6kAt_pack value c hk) row hk

theorem dequantizeQ5_0_pack (value : F16 → ℤ → α) (row : List Q5_0Contents) :
    WritesOnce 0 (32 * row.length) (fun put s => dequantizeQ5_0 put value (row.map Q5_0Contents.pack) s)
      (rowAt 32 (Q5_0Contents.valueAt value) row) := by
  have h := dequantizeQ5_0Row_fills value (row.map fun c => parseQ5_0 c.pack)
  rw [List.length_map] at h
  simp only [dequantizeQ5_0_eq, List.map_map]
  exact h.congr fun k hk => by
    rw [Nat.zero_add]
    exact rowAt_map (by decide) (fun c k hk => q5_0At_pack value c hk) row hk

theorem BlockQ5K.toNat_code (x : BlockQ5K) (k : ℕ) : (x.code k).toNat = (x.low k).toNat + x.high k := by
  have hlow : (x.low k).toNat < 16 := by
    unfold BlockQ5K.low
    dsimp only
    split
    · exact toNat_and_fifteen_lt _
    · exact toNat_shiftRight_four_lt _
  have hsixteen : ∀ q : Fin 16, (UInt8.ofNat q ||| 16).toNat = q + 16 := by decide
  have hofNat : UInt8.ofNat (x.low k).toNat = x.low k := UInt8.ofNat_toNat
  rw [BlockQ5K.code, BlockQ5K.high]
  split
  · have h := hsixteen ⟨(x.low k).toNat, hlow⟩
    rw [hofNat] at h
    exact h
  · simp

/-- `(code as i32 - 32) as i8`. -/
def signedQ6K (code : UInt8) : Int8 := ((code.toNat : ℤ) - 32).toInt8

theorem signedQ6K_eq {code : UInt8} (hcode : code.toNat < 64) :
    code.toInt8 - 32 = signedQ6K code ∧ (code.toInt8 - 32).toInt = code.toNat - 32 := by
  have hall : ∀ q : Fin 64, (UInt8.ofNat q).toInt8 - 32 = signedQ6K (UInt8.ofNat q) ∧
      ((UInt8.ofNat q).toInt8 - 32).toInt = (UInt8.ofNat q).toNat - 32 := by decide
  have h := hall ⟨code.toNat, hcode⟩
  rwa [UInt8.ofNat_toNat] at h

/-- `Q4_K`: scales and minimums, values, rows of blocks, rows of bytes and packed rows. -/
structure Q4KAgrees : Prop where
  scaleMin : ∀ q, ∀ g < 8, getScaleMinK4 g q =
    some (cell (decodeQ4KScalesMins q).1 g, cell (decodeQ4KScalesMins q).2 g)
  quants : ∀ x, ∃ aux8, unpackQ4K x = some aux8 ∧ ∀ k < 256, cell aux8 k = (x.code k).toInt8
  rows : ∀ {α : Type} (value : F16 → F16 → UInt8 → UInt8 → UInt8 → α) (blocks : List BlockQ4K),
    WritesOnce 0 (256 * blocks.length) (fun put s => dequantizeQ4KRow put value blocks s)
      (rowAt 256 (q4kAt value) blocks)
  bytes : ∀ {σ α : Type} (put : σ → ℕ → α → Option σ) (value : F16 → F16 → UInt8 → UInt8 → UInt8 → α)
    (raw : List (Vector UInt8 144)) (s : σ),
    dequantizeQ4K put value raw s = dequantizeQ4KRow put value (raw.map parseQ4K) s
  packed : ∀ {α : Type} (value : F16 → F16 → UInt8 → UInt8 → UInt8 → α) (row : List Q4KContents),
    WritesOnce 0 (256 * row.length) (fun put s => dequantizeQ4K put value (row.map Q4KContents.pack) s)
      (rowAt 256 (Q4KContents.valueAt value) row)

/-- `Q5_K`, whose scales and minimums are those of `Q4_K`. -/
structure Q5KAgrees : Prop where
  quants : ∀ x, WritesOnce 0 256 (fun put s => decodeQ5KU8 put x s) (fun k => x.code k)
  parts : ∀ (x : BlockQ5K) (k : ℕ), (x.code k).toNat = (x.low k).toNat + x.high k
  rows : ∀ {α : Type} (value : F16 → F16 → UInt8 → UInt8 → UInt8 → ℕ → α) (blocks : List BlockQ5K),
    WritesOnce 0 (256 * blocks.length) (fun put s => dequantizeQ5KRow put value blocks s)
      (rowAt 256 (q5kAt value) blocks)
  bytes : ∀ {σ α : Type} (put : σ → ℕ → α → Option σ) (value : F16 → F16 → UInt8 → UInt8 → UInt8 → ℕ → α)
    (raw : List (Vector UInt8 176)) (s : σ),
    dequantizeQ5K put value raw s = dequantizeQ5KRow put value (raw.map parseQ5K) s
  packed : ∀ {α : Type} (value : F16 → F16 → UInt8 → UInt8 → UInt8 → ℕ → α) (row : List Q5KContents),
    WritesOnce 0 (256 * row.length) (fun put s => dequantizeQ5K put value (row.map Q5KContents.pack) s)
      (rowAt 256 (Q5KContents.valueAt value) row)

/-- `Q6_K`: the values of `decode_q6k_u8` minus 32, which are those of `decode_q6k_i8`. -/
structure Q6KAgrees : Prop where
  quants : ∀ x, WritesOnce 0 256 (fun put s => decodeQ6KInto put id x s) (fun k => x.code k)
  signed : ∀ x, WritesOnce 0 256 (fun put s => decodeQ6KInto put signedQ6K x s)
    (fun k => (x.code k).toInt8 - 32)
  offset : ∀ (x : BlockQ6K) (k : ℕ), ((x.code k).toInt8 - 32).toInt = (x.code k).toNat - 32
  rows : ∀ {α : Type} (value : F16 → Int8 → Int8 → α) (blocks : List BlockQ6K),
    WritesOnce 0 (256 * blocks.length) (fun put s => dequantizeQ6KRow put value blocks s)
      (rowAt 256 (fun x => q6kAt x (value x.d)) blocks)
  bytes : ∀ {σ α : Type} (put : σ → ℕ → α → Option σ) (value : F16 → Int8 → Int8 → α)
    (raw : List (Vector UInt8 210)) (s : σ),
    dequantizeQ6K put value raw s = dequantizeQ6KRow put value (raw.map parseQ6K) s
  packed : ∀ {α : Type} (value : F16 → Int8 → Int8 → α) (row : List Q6KContents),
    WritesOnce 0 (256 * row.length) (fun put s => dequantizeQ6K put value (row.map Q6KContents.pack) s)
      (rowAt 256 (Q6KContents.valueAt value) row)

/-- `Q5_0`: the high bits of `dequantize_q5_0` are those of `dot_q5_0_q8_0`. -/
structure Q5_0Agrees : Prop where
  highFirst : ∀ qh : UInt32, ∀ j < 16, (((qh >>> j.toUInt32) <<< 4) &&& 0x10).toUInt8 =
    (((qh &&& ((1 : UInt32) <<< j.toUInt32)) >>> j.toUInt32) <<< 4).toUInt8
  highSecond : ∀ qh : UInt32, ∀ j < 16, ((qh >>> (j + 12).toUInt32) &&& 0x10).toUInt8 =
    ((qh &&& ((1 : UInt32) <<< (j + 16).toUInt32)) >>> (j + 12).toUInt32).toUInt8
  dot : ∀ (x : BlockQ5_0) (y : BlockQ8_0),
    dotQ5_0Q8_0 x y = some (∑ k ∈ range 32, x.quant k * (cell y.qs k).toInt)
  rows : ∀ {α : Type} (value : F16 → ℤ → α) (blocks : List BlockQ5_0),
    WritesOnce 0 (32 * blocks.length) (fun put s => dequantizeQ5_0Row put value blocks s)
      (rowAt 32 (q5_0At value) blocks)
  bytes : ∀ {σ α : Type} (put : σ → ℕ → α → Option σ) (value : F16 → ℤ → α) (raw : List (Vector UInt8 22))
    (s : σ), dequantizeQ5_0 put value raw s = dequantizeQ5_0Row put value (raw.map parseQ5_0) s
  packed : ∀ {α : Type} (value : F16 → ℤ → α) (row : List Q5_0Contents),
    WritesOnce 0 (32 * row.length) (fun put s => dequantizeQ5_0 put value (row.map Q5_0Contents.pack) s)
      (rowAt 32 (Q5_0Contents.valueAt value) row)

theorem q4kAgrees : Q4KAgrees where
  scaleMin q _ hg := getScaleMinK4_eq q hg
  quants := unpackQ4K_spec
  rows := dequantizeQ4KRow_fills
  bytes := dequantizeQ4K_eq
  packed := dequantizeQ4K_pack

theorem q5kAgrees : Q5KAgrees where
  quants := decodeQ5KU8_fills
  parts := BlockQ5K.toNat_code
  rows := dequantizeQ5KRow_fills
  bytes := dequantizeQ5K_eq
  packed := dequantizeQ5K_pack

theorem q6kAgrees : Q6KAgrees where
  quants := decodeQ6KInto_fills id
  signed x := (decodeQ6KInto_fills signedQ6K x).congr fun k _ => (signedQ6K_eq (x.code_lt (0 + k))).1.symm
  offset x k := (signedQ6K_eq (x.code_lt k)).2
  rows := dequantizeQ6KRow_fills
  bytes := dequantizeQ6K_eq
  packed := dequantizeQ6K_pack

theorem q5_0Agrees : Q5_0Agrees where
  highFirst qh _ hj := (high_first qh hj).trans (dot_high_first qh hj).symm
  highSecond qh _ hj := (high_second qh hj).trans (dot_high_second qh hj).symm
  dot := dotQ5_0Q8_0_eq
  rows := dequantizeQ5_0Row_fills
  bytes := dequantizeQ5_0_eq
  packed := dequantizeQ5_0_pack

/-- **The routines of `quant.rs` and of `matmul.rs` make every value of a row once, of the same numbers, and
read a packed row back.** -/
theorem decodersAgree : Q4KAgrees ∧ Q5KAgrees ∧ Q6KAgrees ∧ Q5_0Agrees :=
  ⟨q4kAgrees, q5kAgrees, q6kAgrees, q5_0Agrees⟩

end Matmul
