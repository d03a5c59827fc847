/-
**Vector registers of bytes.**

A register is the sequence of its bytes, the lowest first; 16 bytes of it count in a 128-bit register and
32 in a 256-bit one.  The operations are those of the instruction set that integer dot products are made
of, as their documentation gives them.  The dot product adds four products of an unsigned and a signed
byte to each 32-bit lane; here it is checked, and has no value when a product leaves 16 bits or a sum
leaves 32.

Main definitions:

* `Reg`, `loadu128`, `broadcast128`, `permutevar8x32`, `and256`, `srliEpi16`, `dpbusd`;
* `laneProduct w x j` — the four products of a lane.

Main results:

* `and_srliEpi16_four` — the upper nibbles of the bytes;
* `adds_dpbusd` — the dot product adds the products of each lane.
-/

import Greppy.CellWrites

set_option autoImplicit false

open Finset

namespace Simd

open Checked Cells

abbrev Reg := ℕ → UInt8

/-- `_mm_loadu_si128`: sixteen bytes of an array from `offset` on. -/
def loadu128 {α : Type} [Inhabited α] {n : ℕ} (byte : α → UInt8) (a : Vector α n) (offset : ℕ) :
    Option Reg :=
  if offset + 16 ≤ n then some fun i => byte (cell a (offset + i)) else none

/-- `_mm256_broadcastsi128_si256`: a 128-bit register twice. -/
def broadcast128 (a : Reg) : Reg := fun i => a (i % 16)

/-- `_mm256_setr_epi32`: the lanes of a register, the lowest first. -/
def setrEpi32 (lanes : List ℕ) (j : ℕ) : ℕ := lanes.getD j 0

/-- `_mm256_permutevar8x32_epi32`: lane `j` is the lane of `a` that the low three bits of `order j`
name. -/
def permutevar8x32 (a : Reg) (order : ℕ → ℕ) : Reg :=
  fun i => a (order (i / 4) % 8 * 4 + i % 4)

/-- `_mm256_set1_epi8`. -/
def set1Epi8 (b : UInt8) : Reg := fun _ => b

/-- `_mm256_and_si256`. -/
def and256 (a b : Reg) : Reg := fun i => a i &&& b i

/-- The 16-bit lane that the byte `i` is in. -/
def lane16 (a : Reg) (i : ℕ) : ℕ := (a (i / 2 * 2)).toNat + 256 * (a (i / 2 * 2 + 1)).toNat

/-- `_mm256_srli_epi16`: every 16-bit lane is shifted. -/
def srliEpi16 (count : ℕ) (a : Reg) : Reg := fun i =>
  let lane := lane16 a i >>> count
  UInt8.ofNat (if i % 2 = 0 then lane % 256 else lane / 256)

/-- `_mm256_dpbusd_avx_epi32`: the bytes of `w` are unsigned and those of `x` are signed. -/
def dpbusd (w x : Reg) : (ℕ → ℤ) → Option (ℕ → ℤ) :=
  loop 8 fun lane => loop 4 fun k acc => do
    let product ← checkInt 16 ((w (lane * 4 + k)).toNat * (x (lane * 4 + k)).toInt8.toInt)
    addTo addI32 lane product acc

/-! ### The upper nibbles -/

theorem and_set1_fifteen (a : Reg) (i : ℕ) : and256 a (set1Epi8 15) i = a i &&& 15 := rfl

/-- Shifting 16-bit lanes by four and keeping the lower nibble of each byte is shifting the bytes. -/
theorem and_srliEpi16_four (a : Reg) (i : ℕ) :
    and256 (srliEpi16 4 a) (set1Epi8 15) i = a i >>> 4 := by
  have hlo := (a (i / 2 * 2)).toNat_lt
  have hhi := (a (i / 2 * 2 + 1)).toNat_lt
  have hmask (n : ℕ) : n &&& 15 = n % 16 := Nat.and_two_pow_sub_one_eq_mod n 4
  apply UInt8.toNat_inj.mp
  have hr : (a i >>> 4).toNat = (a i).toNat / 16 := by
    simp [UInt8.toNat_shiftRight, Nat.shiftRight_eq_div_pow]
  have hl : (and256 (srliEpi16 4 a) (set1Epi8 15) i).toNat =
      (if i % 2 = 0 then lane16 a i / 16 % 256 else lane16 a i / 16 / 256) % 256 % 16 := by
    simp [and256, srliEpi16, set1Epi8, UInt8.toNat_and, Nat.shiftRight_eq_div_pow, hmask]
  rw [hl, hr]
  by_cases hi : i % 2 = 0
  · rw [if_pos hi]
    have hi' : i / 2 * 2 = i := by omega
    simp only [lane16, hi'] at hlo hhi ⊢
    omega
  · rw [if_neg hi]
    have hi' : i / 2 * 2 + 1 = i := by omega
    simp only [lane16, hi'] at hlo hhi ⊢
    omega

/-! ### The dot product -/

/-- The products of the lane `j`. -/
def laneProduct (w x : Reg) (j : ℕ) : ℤ :=
  ∑ k ∈ range 4, ((w (j * 4 + k)).toNat : ℤ) * (x (j * 4 + k)).toInt8.toInt

/-- The dot product adds to each lane its products, if these are bounded. -/
theorem adds_dpbusd {w x : Reg} {b : ℤ} (hb : b < 2 ^ 15)
    (hwx : ∀ i < 32, |((w i).toNat : ℤ) * (x i).toInt8.toInt| ≤ b) :
    Adds Eq maxI32 (dpbusd w x) (fun j => if j < 8 then laneProduct w x j else 0) (fun _ => 4 * b) := by
  have hb0 : 0 ≤ b := (abs_nonneg _).trans (hwx 0 (by omega))
  refine Adds.forCells (v := laneProduct w x) (by omega) fun j hj => ?_
  refine (Adds.forLoop fun k hk => Adds.bind (checkInt_eq ?_)
    (Adds.toCell (b := b) addI32_exact rfl (hwx (j * 4 + k) (by omega)))).congr (fun l => ?_) fun l => ?_
  · exact (hwx (j * 4 + k) (by omega)).trans_lt hb
  · by_cases hl : l = j
    · simp [hl, laneProduct]
    · simp [hl]
  · by_cases hl : l = j
    · simp [hl]
    · simp [hl]

end Simd
