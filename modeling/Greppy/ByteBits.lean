/-
**The bits of bytes and of words.**

Packed formats keep the bits of a value in several bytes, and a decoder may shift and mask four bytes at a
time in a word.  Two bytes are equal when their bits are, and masks and shifts are read off bit by bit.

Main definitions:

* `Bits.bit`, `Bits.wordBit` — a bit of a byte and of a word;
* `Bits.byteOfBits` — the byte of given bits.
-/

import Mathlib.Data.Nat.Bitwise
import Mathlib.Tactic.IntervalCases

set_option autoImplicit false

namespace Bits

/-! ### Bytes -/

def bit (x : UInt8) (i : ℕ) : Bool := x.toNat.testBit i

theorem bit_of_lt {x : UInt8} {m i : ℕ} (h : x.toNat < 2 ^ m) (hi : m ≤ i) : bit x i = false :=
  Nat.testBit_lt_two_pow (lt_of_lt_of_le h (Nat.pow_le_pow_right (by decide) hi))

theorem bit_of_le (x : UInt8) {i : ℕ} (hi : 8 ≤ i) : bit x i = false := bit_of_lt x.toNat_lt hi

theorem byte_ext {x y : UInt8} (h : ∀ i < 8, bit x i = bit y i) : x = y := by
  refine UInt8.toNat_inj.1 (Nat.eq_of_testBit_eq fun i => ?_)
  rcases Nat.lt_or_ge i 8 with hi | hi
  · exact h i hi
  · exact (bit_of_le x hi).trans (bit_of_le y hi).symm

@[simp] theorem bit_and (x y : UInt8) (i : ℕ) : bit (x &&& y) i = (bit x i && bit y i) := by
  rw [bit, UInt8.toNat_and, Nat.testBit_and]
  rfl

@[simp] theorem bit_or (x y : UInt8) (i : ℕ) : bit (x ||| y) i = (bit x i || bit y i) := by
  rw [bit, UInt8.toNat_or, Nat.testBit_or]
  rfl

theorem bit_shiftRight (x : UInt8) {n : UInt8} (hn : n.toNat < 8) (i : ℕ) :
    bit (x >>> n) i = bit x (n.toNat + i) := by
  rw [bit, UInt8.toNat_shiftRight, Nat.mod_eq_of_lt hn, Nat.testBit_shiftRight]
  rfl

theorem bit_shiftLeft (x : UInt8) {n : UInt8} (hn : n.toNat < 8) (i : ℕ) :
    bit (x <<< n) i = (decide (i < 8) && (decide (n.toNat ≤ i) && bit x (i - n.toNat))) := by
  rw [bit, UInt8.toNat_shiftLeft, Nat.mod_eq_of_lt hn, Nat.testBit_mod_two_pow, Nat.testBit_shiftLeft]
  rfl

def byteOfBits (f : ℕ → Bool) : UInt8 := UInt8.ofNat (Nat.ofBits fun i : Fin 8 => f i)

theorem bit_byteOfBits (f : ℕ → Bool) {i : ℕ} (hi : i < 8) : bit (byteOfBits f) i = f i := by
  rw [bit, byteOfBits, UInt8.toNat_ofNat_of_lt' (Nat.ofBits_lt_two_pow _), Nat.testBit_ofBits_lt _ i hi]

section Parts

variable {low high n mask : UInt8}

theorem or_shiftLeft_and (hn : n.toNat < 8) (hlow : low.toNat < 2 ^ n.toNat)
    (hmask : ∀ i < 8, bit mask i = decide (i < n.toNat)) : (low ||| high <<< n) &&& mask = low := by
  refine byte_ext fun i hi => ?_
  rw [bit_and, bit_or, bit_shiftLeft _ hn, hmask i hi]
  by_cases hpart : i < n.toNat
  · simp [hpart]
  · rw [bit_of_lt hlow (by omega)]
    simp [hpart]

theorem or_shiftLeft_shiftRight (hn : n.toNat < 8) (hlow : low.toNat < 2 ^ n.toNat)
    (hhigh : high.toNat < 2 ^ (8 - n.toNat)) : (low ||| high <<< n) >>> n = high := by
  refine byte_ext fun i hi => ?_
  rw [bit_shiftRight _ hn, bit_or, bit_shiftLeft _ hn, bit_of_lt hlow (by omega)]
  by_cases hpart : n.toNat + i < 8
  · simp [hpart]
  · simp [hpart, bit_of_lt hhigh (show 8 - n.toNat ≤ i by omega)]

end Parts

/-! ### Words -/

def wordBit (w : UInt32) (i : ℕ) : Bool := w.toNat.testBit i

@[simp] theorem wordBit_and (v w : UInt32) (i : ℕ) : wordBit (v &&& w) i = (wordBit v i && wordBit w i) := by
  rw [wordBit, UInt32.toNat_and, Nat.testBit_and]
  rfl

@[simp] theorem wordBit_or (v w : UInt32) (i : ℕ) : wordBit (v ||| w) i = (wordBit v i || wordBit w i) := by
  rw [wordBit, UInt32.toNat_or, Nat.testBit_or]
  rfl

theorem wordBit_shiftRight (w : UInt32) {n : UInt32} (hn : n.toNat < 32) (i : ℕ) :
    wordBit (w >>> n) i = wordBit w (n.toNat + i) := by
  rw [wordBit, UInt32.toNat_shiftRight, Nat.mod_eq_of_lt hn, Nat.testBit_shiftRight]
  rfl

theorem wordBit_shiftLeft (w : UInt32) {n : UInt32} (hn : n.toNat < 32) (i : ℕ) :
    wordBit (w <<< n) i = (decide (i < 32) && (decide (n.toNat ≤ i) && wordBit w (i - n.toNat))) := by
  rw [wordBit, UInt32.toNat_shiftLeft, Nat.mod_eq_of_lt hn, Nat.testBit_mod_two_pow, Nat.testBit_shiftLeft]
  rfl

theorem bit_toUInt8 (w : UInt32) (i : ℕ) : bit w.toUInt8 i = (decide (i < 8) && wordBit w i) := by
  rw [bit, UInt32.toNat_toUInt8, Nat.testBit_mod_two_pow]
  rfl

theorem wordBit_toUInt32 (x : UInt8) (i : ℕ) : wordBit x.toUInt32 i = bit x i := by
  rw [wordBit, UInt8.toNat_toUInt32]
  rfl

theorem toNat_toUInt32 {j : ℕ} (hj : j < 2 ^ 32) : j.toUInt32.toNat = j :=
  UInt32.toNat_ofNat_of_lt hj

end Bits
