/-
**Integers in 32-bit floats.**

A 32-bit float holds 24 bits of a number, so it holds every integer up to `2 ^ 24` in absolute value, and
sums and products that stay within this bound are exact.  Both are shown here of the floats as they are
defined: a sign, a mantissa and an exponent, which an operation takes apart, rounds to the nearest and
packs again.

Main definitions:

* `Stands u z`, `Holds f z` — the unpacked float `u`, the float `f`, stands for the integer `z`;
* `ofI32 z` — `z as f32`.
-/

import Mathlib

set_option autoImplicit false

namespace F32

open Float.Model Float.Model.UnpackedFloat

/-! ### Rounding keeps 24 bits -/

def Full (m : ℕ) : Prop := 2 ^ 23 ≤ m ∧ m < 2 ^ 24

variable {m n k a b : ℕ} {e z y : ℤ} {u : UnpackedFloat}

theorem Full.pos (h : Full m) : 0 < m := lt_of_lt_of_le (by norm_num) h.1

theorem Full.log2 (h : Full m) : m.log2 = 23 := (Nat.log2_eq_iff h.pos.ne').mpr h

theorem log2_mul_two_pow (hn : n ≠ 0) (k : ℕ) : (n * 2 ^ k).log2 = n.log2 + k := by
  have hlog := (Nat.log2_eq_iff hn).mp rfl
  have hpos : n * 2 ^ k ≠ 0 := Nat.mul_ne_zero hn (Nat.two_pow_pos k).ne'
  rw [Nat.log2_eq_iff hpos, Nat.pow_add, show n.log2 + k + 1 = n.log2 + 1 + k by omega, Nat.pow_add]
  exact ⟨Nat.mul_le_mul_right _ hlog.1, Nat.mul_lt_mul_of_pos_right hlog.2 (Nat.two_pow_pos k)⟩

theorem targetExponent_eq {t : ℤ} (hn : n.log2 + e = 23 + t) (ht : -149 ≤ t) :
    Format.binary32.targetExponent (totalExponent n e) = t := by
  simp only [Format.targetExponent, totalExponent, Format.mantissaBits, Format.minExponent]
  norm_num
  omega

theorem shiftRight_exact (m k : ℕ) :
    ExtendedMantissa.ofMantissaAndAccuracy (m * 2 ^ k) .exact >>> k =
      ExtendedMantissa.ofMantissaAndAccuracy m .exact := by
  change k.repeat ExtendedMantissa.shiftRightOne _ = _
  induction k generalizing m with
  | zero => simp [Nat.repeat]
  | succ k ih =>
    rw [Nat.repeat, show m * 2 ^ (k + 1) = m * 2 * 2 ^ k by ring, ih (m * 2)]
    simp [ExtendedMantissa.ofMantissaAndAccuracy, ExtendedMantissa.shiftRightOne]

theorem shiftToTargetExponent_exact (hm : Full m) (he : -149 ≤ e + k) :
    shiftToTargetExponent Format.binary32 (m * 2 ^ k) e .exact =
      (ExtendedMantissa.ofMantissaAndAccuracy m .exact, e + k) := by
  have hk : (e + k - e).toNat = k := by omega
  have hlog : ((m * 2 ^ k).log2 : ℤ) + e = 23 + (e + k) := by
    rw [log2_mul_two_pow hm.pos.ne', hm.log2]
    push_cast
    omega
  rw [shiftToTargetExponent, targetExponent_eq hlog he]
  simp only [shiftToExponent, hk, shiftRight_exact]

theorem roundWithAccuracy_exact (s : Sign) (hm : Full m) (he : -149 ≤ e + k) :
    roundWithAccuracy Format.binary32 s (m * 2 ^ k) e .exact = .finite s m (e + k) hm.pos := by
  have hround : (ExtendedMantissa.ofMantissaAndAccuracy m .exact).roundedMantissa = m := rfl
  have hagain := shiftToTargetExponent_exact (k := 0) (e := e + k) hm (by simpa using he)
  simp only [Nat.pow_zero, Nat.mul_one, Int.natCast_zero, add_zero] at hagain
  simp only [roundWithAccuracy, shiftToTargetExponent_exact hm he, hround, hagain]
  exact dif_neg hm.pos.ne'

/-- A number whose bits fit into a mantissa is not changed by rounding: `n * 2 ^ e` is the number
`m * 2 ^ (e + b - a)`. -/
theorem round_exact (s : Sign) (hm : Full m) (h : n * 2 ^ a = m * 2 ^ b) (he : -149 ≤ e + b - a) :
    UnpackedFloat.round Format.binary32 s n e = .finite s m (e + b - a) hm.pos := by
  have hn : n ≠ 0 := by
    rintro rfl
    rw [Nat.zero_mul] at h
    exact (Nat.mul_pos hm.pos (Nat.two_pow_pos b)).ne h
  have hlog : (n.log2 : ℤ) + e = 23 + (e + b - a) := by
    have hlogs := congrArg Nat.log2 h
    rw [log2_mul_two_pow hn, log2_mul_two_pow hm.pos.ne', hm.log2] at hlogs
    omega
  have htarget := targetExponent_eq hlog he
  rcases Nat.le_total a b with hab | hab
  · -- the number has more bits than the mantissa, and the excess is zeros
    obtain ⟨k, rfl⟩ := Nat.exists_eq_add_of_le hab
    obtain rfl : n = m * 2 ^ k := by
      rw [Nat.pow_add] at h
      exact Nat.eq_of_mul_eq_mul_right (Nat.two_pow_pos a) (by linarith)
    have hk : e + (a + k : ℕ) - a = e + k := by push_cast; omega
    rw [hk] at htarget he
    have hnot : (e - (e + k)).toNat = 0 := by omega
    simp only [UnpackedFloat.round, htarget, decreaseExponent, hnot, Nat.shiftLeft_zero,
      Int.natCast_zero, sub_zero, hk]
    exact roundWithAccuracy_exact s hm he
  · -- it has fewer, and is shifted to the left first
    obtain ⟨k, rfl⟩ := Nat.exists_eq_add_of_le hab
    obtain rfl : n * 2 ^ k = m := by
      rw [Nat.pow_add] at h
      exact Nat.eq_of_mul_eq_mul_right (Nat.two_pow_pos b) (by linarith)
    have hk : e + b - (b + k : ℕ) = e - k := by push_cast; omega
    rw [hk] at htarget he
    have hshift : (e - (e - k)).toNat = k := by omega
    have hround := roundWithAccuracy_exact s (k := 0) (e := e - k) hm (by simpa using he)
    simp only [Nat.pow_zero, Nat.mul_one, Int.natCast_zero, add_zero] at hround
    simp only [UnpackedFloat.round, htarget, decreaseExponent, hshift, Nat.shiftLeft_eq, hk]
    exact hround

/-! ### Packing keeps normal numbers -/

theorem unpackSign_packComponents (s : Sign) (e : BitVec 8) (m : BitVec 23) :
    unpackSign (packComponents Format.binary32 s e m) = s.toBitVec := by
  ext i hi
  obtain rfl : i = 0 := by omega
  have hlast : (s.toBitVec ++ e ++ m).getLsbD 31 = s.toBitVec[0] := by
    rw [BitVec.getLsbD_append, BitVec.getLsbD_append]
    rfl
  simp only [unpackSign, packComponents, BitVec.getElem_cast, BitVec.extractLsb,
    BitVec.getElem_extractLsb']
  exact hlast

theorem ofBitVec_toBitVec (s : Sign) : Sign.ofBitVec s.toBitVec = s := by
  cases s <;> rfl

theorem unpack_pack_zero (s : Sign) :
    UnpackedFloat.unpack Format.binary32 (UnpackedFloat.pack Format.binary32 (.zero s)) = .zero s := by
  change UnpackedFloat.unpack Format.binary32 (packComponents Format.binary32 s 0#8 0#23) = _
  simp only [UnpackedFloat.unpack, unpackExponent_packComponents, unpackMantissa_packComponents,
    unpackSign_packComponents, ofBitVec_toBitVec]
  simp

theorem unpack_pack_finite (s : Sign) (hm : Full m) (hlo : -149 ≤ e) (hhi : e ≤ 104) :
    UnpackedFloat.unpack Format.binary32 (UnpackedFloat.pack Format.binary32 (.finite s m e hm.pos)) =
      .finite s m e hm.pos := by
  obtain ⟨b, hb⟩ : ∃ b : ℕ, e + 127 + 23 = b := ⟨(e + 127 + 23).toNat, by omega⟩
  have hexp : (BitVec.ofNat 8 b).toNat = b := by
    rw [BitVec.toNat_ofNat]
    omega
  have hones : BitVec.ofNat 8 b ≠ -1#8 := fun h => by
    have := congrArg BitVec.toNat h
    rw [hexp] at this
    simp at this
    omega
  have hzero : BitVec.ofNat 8 b ≠ 0#8 := fun h => by
    have := congrArg BitVec.toNat h
    rw [hexp] at this
    simp at this
    omega
  -- the leading bit of the mantissa is not stored, and comes back in front
  have hmant : (1#1 ++ BitVec.ofNat 23 m).toNat = m := by
    have h1 := hm.1
    have h2 := hm.2
    have hlt : m % 2 ^ 23 < 2 ^ 23 := Nat.mod_lt _ (by norm_num)
    have hlow : (BitVec.ofNat 23 m).toNat = m % 2 ^ 23 := BitVec.toNat_ofNat m 23
    rw [BitVec.toNat_append, hlow, ← Nat.shiftLeft_add_eq_or_of_lt hlt, Nat.shiftLeft_eq]
    simp only [BitVec.toNat_ofNat]
    omega
  have hpack : UnpackedFloat.pack Format.binary32 (.finite s m e hm.pos) =
      packComponents Format.binary32 s (BitVec.ofNat 8 b) (BitVec.ofNat 23 m) := by
    have hbias : (e + Format.binary32.exponentBias + Format.binary32.mantissaBitsWithoutImplicit) = b := hb
    simp only [UnpackedFloat.pack, hbias, hm.log2]
    rw [if_neg (by simp; omega), if_pos (by rfl)]
    rfl
  rw [hpack]
  simp only [UnpackedFloat.unpack, unpackExponent_packComponents,
    unpackMantissa_packComponents, unpackSign_packComponents, ofBitVec_toBitVec]
  rw [if_neg hones, if_neg hzero]
  simp only [hmant, hexp]
  congr 1
  change (b : ℤ) - (127 + 23) = e
  omega

/-! ### Integers -/

/-- The unpacked float stands for the integer: it is a zero, or it is `m * 2 ^ (L - 23)` with a
mantissa of 24 bits. -/
def Stands : UnpackedFloat → ℤ → Prop
  | .zero _, z => z = 0
  | .finite s m e _, z => ∃ n L : ℕ, z = s.apply n ∧ Full m ∧ L ≤ 24 ∧ e = (L : ℤ) - 23 ∧
      m * 2 ^ L = n * 2 ^ 23
  | _, _ => False

/-- A positive integer up to `2 ^ 24` has a mantissa of 24 bits. -/
theorem exists_full (hpos : 0 < n) (hn : n ≤ 2 ^ 24) :
    ∃ m L, Full m ∧ L ≤ 24 ∧ m * 2 ^ L = n * 2 ^ 23 := by
  have hlog := (Nat.log2_eq_iff hpos.ne').mp rfl
  by_cases h24 : n = 2 ^ 24
  · subst h24
    exact ⟨2 ^ 23, 24, ⟨le_rfl, by norm_num⟩, le_rfl, by norm_num⟩
  · have hL : n.log2 < 24 := (Nat.log2_lt hpos.ne').mpr (by omega)
    obtain ⟨k, hk⟩ := Nat.exists_eq_add_of_le (show n.log2 ≤ 23 by omega)
    refine ⟨n * 2 ^ k, n.log2, ⟨?_, ?_⟩, hL.le, ?_⟩
    · calc 2 ^ 23 = 2 ^ n.log2 * 2 ^ k := by rw [← Nat.pow_add, ← hk]
        _ ≤ n * 2 ^ k := Nat.mul_le_mul_right _ hlog.1
    · calc n * 2 ^ k < 2 ^ (n.log2 + 1) * 2 ^ k :=
            Nat.mul_lt_mul_of_pos_right hlog.2 (Nat.two_pow_pos k)
        _ = 2 ^ 24 := by rw [← Nat.pow_add, show n.log2 + 1 + k = 24 by omega]
    · rw [hk, Nat.pow_add]
      ring

theorem stands_round (s : Sign) (hpos : 0 < n) (hn : n ≤ 2 ^ 24) (h : k * 2 ^ a = n * 2 ^ b) :
    Stands (UnpackedFloat.round Format.binary32 s k ((a : ℤ) - b)) (s.apply n) := by
  obtain ⟨m, L, hm, hL, hmL⟩ := exists_full hpos hn
  have hk : k * 2 ^ (a + 23) = m * 2 ^ (L + b) := by
    calc k * 2 ^ (a + 23) = k * 2 ^ a * 2 ^ 23 := by ring
      _ = n * 2 ^ 23 * 2 ^ b := by rw [h]; ring
      _ = m * 2 ^ (L + b) := by rw [← hmL]; ring
  rw [round_exact s hm hk (by push_cast; omega)]
  exact ⟨n, L, rfl, hm, hL, by push_cast; omega, hmL⟩

theorem round_eq_roundWithAccuracy (s : Sign) (hk : 23 ≤ k.log2) (e : ℤ) :
    UnpackedFloat.round Format.binary32 s k e =
      roundWithAccuracy Format.binary32 s k e .exact := by
  have htarget : e ≤ Format.binary32.targetExponent (totalExponent k e) := by
    simp only [Format.targetExponent, totalExponent, Format.mantissaBits]
    omega
  have hshift : (e - Format.binary32.targetExponent (totalExponent k e)).toNat = 0 := by omega
  simp only [UnpackedFloat.round, decreaseExponent, hshift, Nat.shiftLeft_zero, Int.natCast_zero,
    sub_zero]

theorem apply_neg_natAbs (hz : z ≤ 0) : Sign.negative.apply z.natAbs = z := by
  change -(z.natAbs : ℤ) = z
  omega

theorem apply_pos_natAbs (hz : 0 ≤ z) : Sign.positive.apply z.natAbs = z := by
  change (z.natAbs : ℤ) = z
  omega

theorem stands_normalize {M : ℤ} (hz : |z| ≤ 2 ^ 24) (h : M * 2 ^ a = z * 2 ^ b) :
    Stands (UnpackedFloat.normalize Format.binary32 M ((a : ℤ) - b) .positive) z := by
  have ha : (0 : ℤ) < 2 ^ a := by positivity
  have hb : (0 : ℤ) < 2 ^ b := by positivity
  have habs : M.natAbs * 2 ^ a = z.natAbs * 2 ^ b := by
    have := congrArg Int.natAbs h
    simpa [Int.natAbs_mul, Int.natAbs_pow] using this
  have hn : z.natAbs ≤ 2 ^ 24 := by
    rw [Int.abs_eq_natAbs] at hz
    exact_mod_cast hz
  rcases lt_trichotomy z 0 with hneg | rfl | hpos
  · have hM : M < 0 := by
      by_contra hM
      have h1 : 0 ≤ M * 2 ^ a := mul_nonneg (by omega) ha.le
      have h2 : z * 2 ^ b < 0 := mul_neg_of_neg_of_pos hneg hb
      omega
    have hcmp : compare M 0 = .lt := compare_lt_iff_lt.mpr hM
    have hnat : (-M).toNat = M.natAbs := by omega
    simp only [UnpackedFloat.normalize, hcmp, hnat]
    have hround := stands_round .negative (by omega) hn habs
    rwa [apply_neg_natAbs hneg.le] at hround
  · have hM : M = 0 := by
      rw [zero_mul] at h
      exact (mul_eq_zero.mp h).resolve_right ha.ne'
    subst hM
    rfl
  · have hM : 0 < M := by
      by_contra hM
      have h1 : M * 2 ^ a ≤ 0 := mul_nonpos_of_nonpos_of_nonneg (by omega) ha.le
      have h2 : 0 < z * 2 ^ b := mul_pos hpos hb
      omega
    have hcmp : compare M 0 = .gt := compare_gt_iff_gt.mpr hM
    have hnat : M.toNat = M.natAbs := by omega
    simp only [UnpackedFloat.normalize, hcmp, hnat]
    have hround := stands_round .positive (by omega) hn habs
    rwa [apply_pos_natAbs hpos.le] at hround

/-! ### The operations -/

theorem apply_mul (s : Sign) (a b : ℤ) : s.apply (a * b) = s.apply a * b := by
  cases s with
  | negative => exact (neg_mul a b).symm
  | positive => rfl

theorem mul_apply (s s' : Sign) (a b : ℤ) : (s * s').apply (a * b) = s.apply a * s'.apply b := by
  cases s with
  | negative =>
    cases s' with
    | negative => exact (neg_mul_neg a b).symm
    | positive => exact (neg_mul a b).symm
  | positive =>
    cases s' with
    | negative => exact (mul_neg a b).symm
    | positive => rfl

theorem apply_shiftLeft (s : Sign) {L l : ℕ} (hl : l ≤ L) (h : m * 2 ^ L = n * 2 ^ 23) :
    s.apply ((m <<< (L - l) : ℕ) : ℤ) * 2 ^ l = s.apply n * 2 ^ 23 := by
  have hnat : (m <<< (L - l)) * 2 ^ l = n * 2 ^ 23 := by
    rw [Nat.shiftLeft_eq, mul_assoc, ← Nat.pow_add, Nat.sub_add_cancel hl, h]
  rw [← apply_mul, ← apply_mul]
  congr 1
  exact_mod_cast hnat

theorem stands_add {v : UnpackedFloat} (hu : Stands u y) (hv : Stands v z) (hyz : |y + z| ≤ 2 ^ 24) :
    Stands (UnpackedFloat.add Format.binary32 u v) (y + z) := by
  match u, v, hu, hv with
  | .zero s, .zero s', hu, hv =>
    obtain rfl : y = 0 := hu
    obtain rfl : z = 0 := hv
    cases s <;> cases s' <;> rfl
  | .zero _, .finite .., hu, hv =>
    obtain rfl : y = 0 := hu
    rw [zero_add]
    exact hv
  | .finite .., .zero _, hu, hv =>
    obtain rfl : z = 0 := hv
    rw [add_zero]
    exact hu
  | .finite s m e _, .finite s' m' e' _, hu, hv =>
    obtain ⟨n, L, rfl, -, -, rfl, hm⟩ := hu
    obtain ⟨n', L', rfl, -, -, rfl, hm'⟩ := hv
    obtain ⟨l, hl⟩ : ∃ l, l = min L L' := ⟨_, rfl⟩
    have hmin : min ((L : ℤ) - 23) ((L' : ℤ) - 23) = (l : ℤ) - (23 : ℕ) := by
      push_cast
      omega
    have hs : ((L : ℤ) - 23 - ((l : ℤ) - (23 : ℕ))).toNat = L - l := by
      push_cast
      omega
    have hs' : ((L' : ℤ) - 23 - ((l : ℤ) - (23 : ℕ))).toNat = L' - l := by
      push_cast
      omega
    simp only [UnpackedFloat.add, hmin, decreaseExponent, hs, hs']
    refine stands_normalize hyz ?_
    rw [add_mul, add_mul, apply_shiftLeft s (by omega) hm, apply_shiftLeft s' (by omega) hm']

theorem stands_mul {v : UnpackedFloat} (hu : Stands u y) (hv : Stands v z) (hyz : |y * z| ≤ 2 ^ 24) :
    Stands (UnpackedFloat.mul Format.binary32 u v) (y * z) := by
  match u, v, hu, hv with
  | .zero _, .zero _, hu, hv => exact mul_eq_zero.mpr (.inl hu)
  | .zero _, .finite .., hu, hv => exact mul_eq_zero.mpr (.inl hu)
  | .finite .., .zero _, hu, hv => exact mul_eq_zero.mpr (.inr hv)
  | .finite s m e hpos, .finite s' m' e' hpos', hu, hv =>
    obtain ⟨n, L, rfl, hfull, -, rfl, hm⟩ := hu
    obtain ⟨n', L', rfl, hfull', -, rfl, hm'⟩ := hv
    rw [← mul_apply, ← Nat.cast_mul] at hyz ⊢
    have hprod : m * m' * 2 ^ (L + L') = n * n' * 2 ^ 46 := by
      calc m * m' * 2 ^ (L + L') = m * 2 ^ L * (m' * 2 ^ L') := by ring
        _ = n * n' * 2 ^ 46 := by rw [hm, hm']; ring
    have hlog : 23 ≤ (m * m').log2 := by
      refine (Nat.le_log2 (Nat.mul_pos hpos hpos').ne').mpr ?_
      exact hfull.1.trans (Nat.le_mul_of_pos_right m hpos')
    have hnn : 0 < n * n' := by
      have hmm : 0 < m * m' * 2 ^ (L + L') :=
        Nat.mul_pos (Nat.mul_pos hpos hpos') (Nat.two_pow_pos _)
      rw [hprod] at hmm
      exact Nat.pos_of_mul_pos_right hmm
    have hle : n * n' ≤ 2 ^ 24 := by
      have habs : |(s * s').apply ((n * n' : ℕ) : ℤ)| = ((n * n' : ℕ) : ℤ) := by
        cases s * s' with
        | negative => exact (abs_neg _).trans (Nat.abs_cast _)
        | positive => exact Nat.abs_cast _
      rw [habs] at hyz
      exact_mod_cast hyz
    have hexp : (L : ℤ) - 23 + ((L' : ℤ) - 23) = ((L + L' : ℕ) : ℤ) - (46 : ℕ) := by
      push_cast
      ring
    simp only [UnpackedFloat.mul, hexp]
    rw [← round_eq_roundWithAccuracy _ hlog]
    exact stands_round _ hnn hle hprod

theorem stands_unpack_pack (h : Stands u z) : Stands (Float32.Model.pack u).unpack z := by
  match u, h with
  | .zero s, h =>
    have hpack : (Float32.Model.pack (.zero s)).unpack = .zero s := unpack_pack_zero s
    rw [hpack]
    exact h
  | .finite s m e hpos, h =>
    obtain ⟨n, L, hz, hfull, hL, he, hm⟩ := h
    have hpack : (Float32.Model.pack (.finite s m e hpos)).unpack = .finite s m e hpos :=
      unpack_pack_finite s hfull (by omega) (by omega)
    rw [hpack]
    exact ⟨n, L, hz, hfull, hL, he, hm⟩

/-! ### Floats -/

def Holds (f : Float32) (z : ℤ) : Prop := Stands f.toModel.unpack z

/-- `z as f32`. -/
def ofI32 (z : ℤ) : Float32 :=
  .ofModel (.pack (UnpackedFloat.ofInt Format.binary32 z))

theorem holds_ofI32 (hz : |z| ≤ 2 ^ 24) : Holds (ofI32 z) z :=
  stands_unpack_pack (stands_normalize (a := 0) (b := 0) hz rfl)

theorem Holds.add {f g : Float32} (hf : Holds f y) (hg : Holds g z) (h : |y + z| ≤ 2 ^ 24) :
    Holds (f + g) (y + z) :=
  stands_unpack_pack (stands_add hf hg h)

theorem Holds.mul {f g : Float32} (hf : Holds f y) (hg : Holds g z) (h : |y * z| ≤ 2 ^ 24) :
    Holds (f * g) (y * z) :=
  stands_unpack_pack (stands_mul hf hg h)

end F32
