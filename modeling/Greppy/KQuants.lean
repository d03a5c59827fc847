/-
**Quantized blocks and their scalar dot products.**

A row of a weight matrix is kept in blocks of 256 values.  In a `Q4_K` block a value has four bits, and
each group of 32 values has a scale and a minimum of six bits; in a `Q6_K` block a value has six bits,
offset by 32, and each group of 16 values has a signed scale.  An activation row is kept in `Q8_K` blocks
of signed bytes, with the sums of their groups of 16.  The bits of a block are spread over its arrays.
-/

import Greppy.CellWrites
import Greppy.Float32Integers
import Mathlib.Tactic.IntervalCases

set_option autoImplicit false

open Finset

namespace Matmul

open Checked Cells F32

/-! ### Blocks -/

/-- The bits of an `f16`. -/
abbrev F16 := UInt16

/-- 256 values of four bits in eight groups. -/
structure BlockQ4K where
  d : F16
  dmin : F16
  scales : Vector UInt8 12
  qs : Vector UInt8 128
deriving Inhabited

/-- 256 values of six bits in sixteen groups. -/
structure BlockQ6K where
  ql : Vector UInt8 128
  qh : Vector UInt8 64
  scales : Vector Int8 16
  d : F16
deriving Inhabited

/-- 256 signed bytes and the sums of their groups of 16. -/
structure BlockQ8K where
  d : Float32
  qs : Vector Int8 256
  bsums : Vector Int16 16
deriving Inhabited

def BlockQ8K.activation (y : BlockQ8K) (i : ℕ) : ℤ := (cell y.qs i).toInt

def BlockQ8K.bsum (y : BlockQ8K) (j : ℕ) : ℤ := (cell y.bsums j).toInt

def BlockQ8K.SumsOk (y : BlockQ8K) : Prop :=
  ∀ j < 16, y.bsum j = ∑ t ∈ range 16, y.activation (j * 16 + t)

theorem BlockQ8K.abs_activation_le (y : BlockQ8K) (i : ℕ) : |y.activation i| ≤ 128 := by
  have h1 := (cell y.qs i).le_toInt
  have h2 := (cell y.qs i).toInt_lt
  exact abs_le.mpr ⟨h1, by simp only [activation]; omega⟩

theorem BlockQ8K.abs_bsum_le (y : BlockQ8K) (j : ℕ) : |y.bsum j| ≤ 2 ^ 15 := by
  have h1 := (cell y.bsums j).le_toInt
  have h2 := (cell y.bsums j).toInt_lt
  exact abs_le.mpr ⟨h1, by simp only [bsum]; omega⟩

/-! ### The scales and minimums of a `Q4_K` block -/

/-- `read_u32_le(&q[offset..offset + 4])`. -/
def readU32Le {n : ℕ} (q : Vector UInt8 n) (offset : ℕ) : UInt32 :=
  (cell q offset).toUInt32 ||| (cell q (offset + 1)).toUInt32 <<< 8 |||
    (cell q (offset + 2)).toUInt32 <<< 16 ||| (cell q (offset + 3)).toUInt32 <<< 24

/-- `write_u32_le_into(&[a, b], &mut dst)`. -/
def writeU32LeInto (a b : UInt32) : Vector UInt8 8 :=
  Vector.ofFn fun i => ((if i.val < 4 then a else b) >>> (8 * (i.val % 4)).toUInt32).toUInt8

def kmask1 : UInt32 := 0x3f3f3f3f
def kmask2 : UInt32 := 0x0f0f0f0f
def kmask3 : UInt32 := 0x03030303

def decodeQ4KScalesMins (q : Vector UInt8 12) : Vector UInt8 8 × Vector UInt8 8 :=
  let utmp0 := readU32Le q 0
  let utmp1 := readU32Le q 4
  let utmp2 := readU32Le q 8
  let utmp3 := ((utmp2 >>> 4) &&& kmask2) ||| (((utmp1 >>> 6) &&& kmask3) <<< 4)
  let uaux := utmp1 &&& kmask1
  let utmp1 := (utmp2 &&& kmask2) ||| (((utmp0 >>> 6) &&& kmask3) <<< 4)
  let utmp2 := uaux
  let utmp0 := utmp0 &&& kmask1
  (writeU32LeInto utmp0 utmp1, writeU32LeInto utmp2 utmp3)

def BlockQ4K.scale (x : BlockQ4K) (g : ℕ) : ℤ := (cell (decodeQ4KScalesMins x.scales).1 g).toNat

def BlockQ4K.min (x : BlockQ4K) (g : ℕ) : ℤ := (cell (decodeQ4KScalesMins x.scales).2 g).toNat

def SixBits (u : UInt32) : Prop := u &&& kmask1 = u

theorem sixBits_and_kmask1 (u : UInt32) : SixBits (u &&& kmask1) := by
  rw [SixBits, UInt32.and_assoc, UInt32.and_self]

theorem sixBits_or (u v : UInt32) :
    SixBits ((u &&& kmask2) ||| ((v &&& kmask3) <<< 4)) := by
  have h2 : kmask2 &&& kmask1 = kmask2 := by decide
  have h3 : (kmask3 <<< 4) &&& kmask1 = kmask3 <<< 4 := by decide
  have hor (a b c : UInt32) : (a ||| b) &&& c = (a &&& c) ||| (b &&& c) := by
    rw [← UInt32.toBitVec_inj]
    ext i hi
    simp [Bool.and_or_distrib_right]
  rw [SixBits, hor, UInt32.and_assoc, h2, UInt32.shiftLeft_and,
    UInt32.and_assoc, h3]

theorem SixBits.byte_lt {u : UInt32} (h : SixBits u) {k : ℕ} (hk : k < 4) :
    ((u >>> (8 * k).toUInt32).toUInt8).toNat < 64 := by
  have hshift : (8 * k).toUInt32.toNat % 32 = 8 * k := by
    simp
    omega
  have hmask : kmask1.toNat >>> (8 * k) % 2 ^ 8 = 63 := by
    interval_cases k <;> decide
  have hbyte : ((u >>> (8 * k).toUInt32).toUInt8).toNat =
      (u.toNat >>> (8 * k) % 2 ^ 8) &&& (kmask1.toNat >>> (8 * k) % 2 ^ 8) := by
    conv_lhs => rw [← h]
    rw [UInt32.toNat_toUInt8, UInt32.toNat_shiftRight, hshift, UInt32.toNat_and,
      Nat.shiftRight_and_distrib, Nat.and_mod_two_pow]
  rw [hbyte, hmask]
  exact lt_of_le_of_lt Nat.and_le_right (by norm_num)

theorem cell_writeU32LeInto_lt {a b : UInt32} (ha : SixBits a) (hb : SixBits b) {i : ℕ} (hi : i < 8) :
    (cell (writeU32LeInto a b) i).toNat < 64 := by
  rw [writeU32LeInto, cell_ofFn _ hi]
  by_cases h4 : i < 4
  · rw [if_pos h4]
    exact ha.byte_lt (by omega)
  · rw [if_neg h4]
    exact hb.byte_lt (by omega)

theorem BlockQ4K.scale_bounds (x : BlockQ4K) {g : ℕ} (hg : g < 8) : 0 ≤ x.scale g ∧ x.scale g ≤ 63 := by
  have h := cell_writeU32LeInto_lt (sixBits_and_kmask1 (readU32Le x.scales 0))
    (sixBits_or (readU32Le x.scales 8) (readU32Le x.scales 0 >>> 6)) hg
  refine ⟨Int.natCast_nonneg _, ?_⟩
  simp only [scale, decodeQ4KScalesMins]
  omega

theorem BlockQ4K.min_bounds (x : BlockQ4K) {g : ℕ} (hg : g < 8) : 0 ≤ x.min g ∧ x.min g ≤ 63 := by
  have h := cell_writeU32LeInto_lt (sixBits_and_kmask1 (readU32Le x.scales 4))
    (sixBits_or (readU32Le x.scales 8 >>> 4) (readU32Le x.scales 4 >>> 6)) hg
  refine ⟨Int.natCast_nonneg _, ?_⟩
  simp only [min, decodeQ4KScalesMins]
  omega

/-! ### The values of the weights -/

/-- The first two loops of `dot_q4k_q8k_scalar`: `aux8`. -/
def unpackQ4K (x : BlockQ4K) : Option (Vector Int8 256) :=
  loop 4 (fun i aux8 => do
    let aux8 ← loop 32 (fun l aux8 => do
      let q ← x.qs[i * 32 + l]?
      setCell aux8 (i * 64 + l) (q &&& 0x0f).toInt8) aux8
    loop 32 (fun l aux8 => do
      let q ← x.qs[i * 32 + l]?
      setCell aux8 (i * 64 + 32 + l) (q >>> 4).toInt8) aux8) (Vector.replicate 256 0)

/-- `((qh >> shift) & 3) << 4`; a shift by zero is left out in the source. -/
def highBits (qh shift : UInt8) : UInt8 := ((qh >>> shift) &&& 3) <<< 4

/-- `decode_q6k_u8`, and with another `out` the loop of `dot_q6k_q8k` that fills `aux8`. -/
def decodeQ6K {α : Type} [Inhabited α] (out : UInt8 → α) (x : BlockQ6K) : Option (Vector α 256) :=
  loop 2 (fun i dst => loop 32 (fun l dst => do
    let ql ← x.ql[i * 128 / 2 + l]?
    let ql' ← x.ql[i * 128 / 2 + l + 32]?
    let qh ← x.qh[i * 128 / 4 + l]?
    let dst ← setCell dst (i * 128 + l) (out ((ql &&& 0x0f) ||| highBits qh 0))
    let dst ← setCell dst (i * 128 + l + 32) (out ((ql' &&& 0x0f) ||| highBits qh 2))
    let dst ← setCell dst (i * 128 + l + 64) (out ((ql >>> 4) ||| highBits qh 4))
    setCell dst (i * 128 + l + 96) (out ((ql' >>> 4) ||| highBits qh 6))) dst)
    (Vector.replicate 256 default)

def BlockQ4K.code (x : BlockQ4K) (k : ℕ) : UInt8 :=
  let q := cell x.qs (k / 64 * 32 + k % 32)
  if k / 32 % 2 = 0 then q &&& 0x0f else q >>> 4

def BlockQ6K.code (x : BlockQ6K) (k : ℕ) : UInt8 :=
  let ql := cell x.ql (k / 128 * 64 + k % 64)
  let qh := cell x.qh (k / 128 * 32 + k % 32)
  match k / 32 % 4 with
  | 0 => (ql &&& 0x0f) ||| highBits qh 0
  | 1 => (ql &&& 0x0f) ||| highBits qh 2
  | 2 => (ql >>> 4) ||| highBits qh 4
  | _ => (ql >>> 4) ||| highBits qh 6

theorem toNat_and_fifteen_lt (q : UInt8) : (q &&& 0x0f).toNat < 16 := by
  rw [UInt8.toNat_and]
  exact lt_of_le_of_lt Nat.and_le_right (by decide)

theorem toNat_shiftRight_four_lt (q : UInt8) : (q >>> 4).toNat < 16 := by
  have h := q.toNat_lt
  have hq : (q >>> 4).toNat = q.toNat / 16 := by
    simp [UInt8.toNat_shiftRight, Nat.shiftRight_eq_div_pow]
  omega

theorem BlockQ4K.code_lt (x : BlockQ4K) (k : ℕ) : (x.code k).toNat < 16 := by
  unfold BlockQ4K.code
  dsimp only
  split
  · exact toNat_and_fifteen_lt _
  · exact toNat_shiftRight_four_lt _

theorem toNat_or_highBits_lt {low : UInt8} (hlow : low.toNat < 16) (qh shift : UInt8) :
    (low ||| highBits qh shift).toNat < 64 := by
  have h3 : (qh >>> shift &&& 3).toNat ≤ 3 := by
    rw [UInt8.toNat_and]
    exact Nat.and_le_right
  have hshift : (highBits qh shift).toNat = (qh >>> shift &&& 3).toNat * 16 := by
    rw [highBits, UInt8.toNat_shiftLeft, Nat.shiftLeft_eq]
    simp only [UInt8.reduceToNat, Nat.reduceMod, Nat.reducePow]
    omega
  rw [UInt8.toNat_or, hshift]
  exact Nat.or_lt_two_pow (n := 6) (by omega) (by omega)

theorem BlockQ6K.code_lt (x : BlockQ6K) (k : ℕ) : (x.code k).toNat < 64 := by
  unfold BlockQ6K.code
  dsimp only
  split
  · exact toNat_or_highBits_lt (toNat_and_fifteen_lt _) _ _
  · exact toNat_or_highBits_lt (toNat_and_fifteen_lt _) _ _
  · exact toNat_or_highBits_lt (toNat_shiftRight_four_lt _) _ _
  · exact toNat_or_highBits_lt (toNat_shiftRight_four_lt _) _ _

theorem unpackQ4K_spec (x : BlockQ4K) :
    ∃ aux8, unpackQ4K x = some aux8 ∧ ∀ k < 256, cell aux8 k = (x.code k).toInt8 := by
  have hlow (i : ℕ) (hi : i < 4) : Writes cell (loop 32 fun l (aux8 : Vector Int8 256) => do
      let q ← x.qs[i * 32 + l]?
      setCell aux8 (i * 64 + l) (q &&& 0x0f).toInt8) (fun k => ∃ l < 32, k = i * 64 + l)
      fun k => (x.code k).toInt8 := by
    refine Writes.forLoop fun l hl => Writes.bind (getElem?_eq_cell _ (by omega))
      (writes_setCell (by omega) ?_)
    have hhalf : (i * 64 + l) / 32 % 2 = 0 := by omega
    have hq : (i * 64 + l) / 64 * 32 + (i * 64 + l) % 32 = i * 32 + l := by omega
    simp only [BlockQ4K.code, hhalf, hq, if_true]
  have hhigh (i : ℕ) (hi : i < 4) : Writes cell (loop 32 fun l (aux8 : Vector Int8 256) => do
      let q ← x.qs[i * 32 + l]?
      setCell aux8 (i * 64 + 32 + l) (q >>> 4).toInt8) (fun k => ∃ l < 32, k = i * 64 + 32 + l)
      fun k => (x.code k).toInt8 := by
    refine Writes.forLoop fun l hl => Writes.bind (getElem?_eq_cell _ (by omega))
      (writes_setCell (by omega) ?_)
    have hhalf : ¬(i * 64 + 32 + l) / 32 % 2 = 0 := by omega
    have hq : (i * 64 + 32 + l) / 64 * 32 + (i * 64 + 32 + l) % 32 = i * 32 + l := by omega
    simp only [BlockQ4K.code, if_neg hhalf, hq]
  obtain ⟨aux8, hrun, hcells, -⟩ := Writes.forLoop (fun i hi => (hlow i hi).andThen (hhigh i hi))
    (Vector.replicate 256 0)
  refine ⟨aux8, hrun, fun k hk => hcells k ⟨k / 64, by omega, ?_⟩⟩
  by_cases hhalf : k % 64 < 32
  · exact .inl ⟨k % 64, hhalf, by omega⟩
  · exact .inr ⟨k % 64 - 32, by omega, by omega⟩

theorem decodeQ6K_spec {α : Type} [Inhabited α] (out : UInt8 → α) (x : BlockQ6K) :
    ∃ dst, decodeQ6K out x = some dst ∧ ∀ k < 256, cell dst k = out (x.code k) := by
  have hround (i : ℕ) (hi : i < 2) : Writes cell (loop 32 fun l (dst : Vector α 256) => do
      let ql ← x.ql[i * 128 / 2 + l]?
      let ql' ← x.ql[i * 128 / 2 + l + 32]?
      let qh ← x.qh[i * 128 / 4 + l]?
      let dst ← setCell dst (i * 128 + l) (out ((ql &&& 0x0f) ||| highBits qh 0))
      let dst ← setCell dst (i * 128 + l + 32)
        (out ((ql' &&& 0x0f) ||| highBits qh 2))
      let dst ← setCell dst (i * 128 + l + 64)
        (out ((ql >>> 4) ||| highBits qh 4))
      setCell dst (i * 128 + l + 96) (out ((ql' >>> 4) ||| highBits qh 6)))
      (fun k => ∃ l < 32, k = i * 128 + l ∨ k = i * 128 + l + 32 ∨ k = i * 128 + l + 64 ∨
        k = i * 128 + l + 96) fun k => out (x.code k) := by
    refine Writes.forLoop fun l hl => ?_
    refine Writes.bind (getElem?_eq_cell _ (by omega)) (Writes.bind (getElem?_eq_cell _ (by omega))
      (Writes.bind (getElem?_eq_cell _ (by omega)) ?_))
    have hk : i * 128 + l + 96 < 256 := by omega
    -- the four values that share a byte of `qh`
    have hcode (c : ℕ) (hc : c < 4) : (i * 128 + l + c * 32) / 128 * 64 + (i * 128 + l + c * 32) % 64 =
        i * 128 / 2 + l + c % 2 * 32 ∧ (i * 128 + l + c * 32) / 128 * 32 + (i * 128 + l + c * 32) % 32 =
        i * 128 / 4 + l ∧ (i * 128 + l + c * 32) / 32 % 4 = c := by omega
    obtain ⟨hl0, hh0, hc0⟩ := hcode 0 (by omega)
    obtain ⟨hl1, hh1, hc1⟩ := hcode 1 (by omega)
    obtain ⟨hl2, hh2, hc2⟩ := hcode 2 (by omega)
    obtain ⟨hl3, hh3, hc3⟩ := hcode 3 (by omega)
    have h0 : x.code (i * 128 + l) = (cell x.ql (i * 128 / 2 + l) &&& 0x0f) |||
        highBits (cell x.qh (i * 128 / 4 + l)) 0 := by
      simp only [Nat.zero_mul, Nat.add_zero, Nat.zero_mod] at hl0 hh0 hc0
      simp only [BlockQ6K.code, hl0, hh0, hc0]
    have h1 : x.code (i * 128 + l + 32) = (cell x.ql (i * 128 / 2 + l + 32) &&& 0x0f) |||
        highBits (cell x.qh (i * 128 / 4 + l)) 2 := by
      simp only [Nat.one_mul, Nat.reduceMod] at hl1 hh1 hc1
      simp only [BlockQ6K.code, hl1, hh1, hc1]
    have h2 : x.code (i * 128 + l + 64) = (cell x.ql (i * 128 / 2 + l) >>> 4) |||
        highBits (cell x.qh (i * 128 / 4 + l)) 4 := by
      simp only [Nat.reduceMul, Nat.mod_self, Nat.zero_mul, Nat.add_zero] at hl2 hh2 hc2
      simp only [BlockQ6K.code, hl2, hh2, hc2]
    have h3 : x.code (i * 128 + l + 96) = (cell x.ql (i * 128 / 2 + l + 32) >>> 4) |||
        highBits (cell x.qh (i * 128 / 4 + l)) 6 := by
      simp only [Nat.reduceMul, Nat.reduceMod, Nat.one_mul] at hl3 hh3 hc3
      simp only [BlockQ6K.code, hl3, hh3, hc3]
    clear hl0 hh0 hc0 hl1 hh1 hc1 hl2 hh2 hc2 hl3 hh3 hc3 hcode
    have hv (k : ℕ) (c : UInt8) (hk : k < 256) (hc : x.code k = c) :
        Writes (cell (α := α) (n := 256)) (fun dst => setCell dst k (out c)) (fun j => j = k)
          fun k => out (x.code k) :=
      writes_setCell hk (by rw [hc])
    exact (hv _ _ (by omega) h0).andThen ((hv _ _ (by omega) h1).andThen
      ((hv _ _ (by omega) h2).andThen (hv _ _ (by omega) h3)))
  obtain ⟨dst, hrun, hcells, -⟩ := Writes.forLoop hround (Vector.replicate 256 default)
  refine ⟨dst, hrun, fun k hk => hcells k ⟨k / 128, by omega, k % 32, by omega, ?_⟩⟩
  omega

end Matmul
