/-
**Dequantizing a row, block by block.**

`quant.rs` turns the bytes of a tensor into floats, and `matmul.rs` has routines of its own for the blocks
it has parsed.  They walk through the bits of a block with counters: groups of 64 values in `Q4_K` and
`Q5_K`, halves of 128 values in `Q6_K`, pairs of values in `Q5_0`.  What is computed with floats for one
value is a parameter of the loops here; what they read, and where they put it, is not.
-/

import Greppy.ByteBits
import Greppy.KQuants
import Greppy.WriteOnce

set_option autoImplicit false

namespace Matmul

open Bits Checked Cells Finset

/-! ### Blocks and their bytes -/

/-- 256 values of five bits in eight groups. -/
structure BlockQ5K where
  d : F16
  dmin : F16
  scales : Vector UInt8 12
  qh : Vector UInt8 32
  qs : Vector UInt8 128
deriving Inhabited

structure BlockQ5_0 where
  d : F16
  qh : UInt32
  qs : Vector UInt8 16
deriving Inhabited

/-- `&block[offset..offset + m]`, copied. -/
def sliceAt {n : ℕ} (m offset : ℕ) (block : Vector UInt8 n) : Vector UInt8 m :=
  Vector.ofFn fun i => cell block (offset + i)

/-- `u16::from_le_bytes`, the bits that `read_f16` converts. -/
def readF16 {n : ℕ} (block : Vector UInt8 n) (offset : ℕ) : F16 :=
  (cell block offset).toUInt16 ||| (cell block (offset + 1)).toUInt16 <<< 8

/-- The body of `parse_q4k`. -/
def parseQ4K (block : Vector UInt8 144) : BlockQ4K where
  d := readF16 block 0
  dmin := readF16 block 2
  scales := sliceAt 12 4 block
  qs := sliceAt 128 16 block

/-- The body of `parse_q5k`. -/
def parseQ5K (block : Vector UInt8 176) : BlockQ5K where
  d := readF16 block 0
  dmin := readF16 block 2
  scales := sliceAt 12 4 block
  qh := sliceAt 32 16 block
  qs := sliceAt 128 48 block

/-- The body of `parse_q6k`. -/
def parseQ6K (block : Vector UInt8 210) : BlockQ6K where
  ql := sliceAt 128 0 block
  qh := sliceAt 64 128 block
  scales := (sliceAt 16 192 block).map UInt8.toInt8
  d := readF16 block 208

/-- The body of `parse_q5_0`. -/
def parseQ5_0 (block : Vector UInt8 22) : BlockQ5_0 where
  d := readF16 block 0
  qh := readU32Le block 2
  qs := sliceAt 16 6 block

/-! ### The loops over a block -/

def getScaleMinK4 (j : ℕ) (q : Vector UInt8 12) : Option (UInt8 × UInt8) :=
  if j < 4 then do
    let d ← q[j]?
    let m ← q[j + 4]?
    some (d &&& (63 : UInt8), m &&& (63 : UInt8))
  else do
    let both ← q[j + 4]?
    let d ← q[j - 4]?
    let m ← q[j]?
    some ((both &&& (0x0f : UInt8)) ||| (d >>> (6 : UInt8)) <<< (4 : UInt8),
      (both >>> (4 : UInt8)) ||| (m >>> (6 : UInt8)) <<< (4 : UInt8))

section Loops

variable {σ α : Type} (put : σ → ℕ → α → Option σ) (base : ℕ)

/-- `y[out_idx] = value; out_idx += 1`, for the values of 32 bytes. -/
def putRun (value : UInt8 → α) (qs : Vector UInt8 128) (first : ℕ) (st : ℕ × σ) : Option (ℕ × σ) :=
  loop 32 (fun l st => do
    let q ← qs[first + l]?
    let s ← put st.2 (base + st.1) (value q)
    some (st.1 + 1, s)) st

/-- A round of `dequantize_q4_k` and `dequantize_q4k_row`, which carry `is` and `out_idx` along. -/
def q4kRound (value : UInt8 → UInt8 → UInt8 → α) (scales : Vector UInt8 12) (qs : Vector UInt8 128) (i : ℕ)
    (st : (ℕ × ℕ) × σ) : Option ((ℕ × ℕ) × σ) := do
  let ((is, outIdx), s) := st
  let (sc₁, m₁) ← getScaleMinK4 is scales
  let (sc₂, m₂) ← getScaleMinK4 (is + 1) scales
  let (outIdx, s) ← putRun put base (fun q => value sc₁ m₁ (q &&& 0x0f)) qs (i * 64 / 2) (outIdx, s)
  let (outIdx, s) ← putRun put base (fun q => value sc₂ m₂ (q >>> 4)) qs (i * 64 / 2) (outIdx, s)
  some ((is + 2, outIdx), s)

/-- The loop of `dequantize_q4_k` and `dequantize_q4k_row` over the values of a block. -/
def q4kLoop (value : UInt8 → UInt8 → UInt8 → α) (scales : Vector UInt8 12) (qs : Vector UInt8 128) (s : σ) :
    Option σ :=
  (loop 4 (q4kRound put base value scales qs) ((0, 0), s)).map Prod.snd

/-- What `dequantize_q5_k` and `dequantize_q5k_row` carry along. -/
structure Q5KCounters where
  scaleIdx : ℕ
  qsBase : ℕ
  highLo : UInt8
  highHi : UInt8

/-- `y[first_out + l] = value`, for 32 values whose fifth bits are those of `mask` in the bytes of `qh`. -/
def putHalf (value : UInt8 → ℕ → α) (qh : Vector UInt8 32) (qs : Vector UInt8 128) (qsBase : ℕ) (mask : UInt8)
    (firstOut : ℕ) (s : σ) : Option σ :=
  loop 32 (fun l s => do
    let q ← qs[qsBase + l]?
    let h ← qh[l]?
    put s (base + (firstOut + l)) (value q (if h &&& mask ≠ 0 then 16 else 0))) s

/-- A round of `dequantize_q5_k` and `dequantize_q5k_row`; `value` is given the scale, the minimum, the low
bits and the high bit of a value. -/
def q5kRound (value : UInt8 → UInt8 → UInt8 → ℕ → α) (scales : Vector UInt8 12) (qh : Vector UInt8 32)
    (qs : Vector UInt8 128) (i : ℕ) (st : Q5KCounters × σ) : Option (Q5KCounters × σ) := do
  let (⟨scaleIdx, qsBase, highLo, highHi⟩, s) := st
  let (sc₁, m₁) ← getScaleMinK4 scaleIdx scales
  let (sc₂, m₂) ← getScaleMinK4 (scaleIdx + 1) scales
  let s ← putHalf put base (fun q => value sc₁ m₁ (q &&& 0x0f)) qh qs qsBase highLo (i * 64) s
  let s ← putHalf put base (fun q => value sc₂ m₂ (q >>> 4)) qh qs qsBase highHi (i * 64 + 32) s
  some (⟨scaleIdx + 2, qsBase + 32, highLo <<< 2, highHi <<< 2⟩, s)

/-- The loop of `dequantize_q5_k` and `dequantize_q5k_row` over the values of a block. -/
def q5kLoop (value : UInt8 → UInt8 → UInt8 → ℕ → α) (scales : Vector UInt8 12) (qh : Vector UInt8 32)
    (qs : Vector UInt8 128) (s : σ) : Option σ :=
  (loop 4 (q5kRound put base value scales qh qs) (⟨0, 0, 1, 2⟩, s)).map Prod.snd

/-- A round of `dequantize_q6_k` and `dequantize_q6k_row`, which puts four values. -/
def q6kRound (value : Int8 → Int8 → α) (ql : Vector UInt8 128) (qh : Vector UInt8 64)
    (scales : Vector Int8 16) (idx l : ℕ) (s : σ) : Option σ := do
  let n := idx * 128
  let low ← ql[64 * idx + l]?
  let low' ← ql[64 * idx + (l + 32)]?
  let high ← qh[32 * idx + l]?
  let q₁ := ((low &&& 0x0f) ||| highBits high 0).toInt8 - 32
  let q₂ := ((low' &&& 0x0f) ||| highBits high 2).toInt8 - 32
  let q₃ := ((low >>> 4) ||| highBits high 4).toInt8 - 32
  let q₄ := ((low' >>> 4) ||| highBits high 6).toInt8 - 32
  let s₁ ← scales[8 * idx + l / 16]?
  let s ← put s (base + (n + l)) (value s₁ q₁)
  let s₂ ← scales[8 * idx + (l / 16 + 2)]?
  let s ← put s (base + (n + l + 32)) (value s₂ q₂)
  let s₃ ← scales[8 * idx + (l / 16 + 4)]?
  let s ← put s (base + (n + l + 64)) (value s₃ q₃)
  let s₄ ← scales[8 * idx + (l / 16 + 6)]?
  put s (base + (n + l + 96)) (value s₄ q₄)

/-- The loops of `dequantize_q6_k` and `dequantize_q6k_row` over the values of a block. -/
def q6kLoop (value : Int8 → Int8 → α) (ql : Vector UInt8 128) (qh : Vector UInt8 64)
    (scales : Vector Int8 16) (s : σ) : Option σ :=
  loop 2 (fun idx => loop 32 (q6kRound put base value ql qh scales idx)) s

/-- The loop of `dequantize_q5_0` and `dequantize_q5_0_row` over the values of a block. -/
def q5_0Loop (value : ℤ → α) (qh : UInt32) (qs : Vector UInt8 16) (s : σ) : Option σ :=
  loop 16 (fun j s => do
    let q ← qs[j]?
    let xh₀ := (((qh >>> j.toUInt32) <<< 4) &&& 0x10).toUInt8
    let xh₁ := ((qh >>> (j + 12).toUInt32) &&& 0x10).toUInt8
    let x₀ : ℤ := ((q &&& 0x0f) ||| xh₀).toNat - 16
    let x₁ : ℤ := ((q >>> 4) ||| xh₁).toNat - 16
    let s ← put s (base + j) (value x₀)
    put s (base + (j + 16)) (value x₁)) s

end Loops

/-- A round of `decode_q5k_u8`, which carries `qs_base`, `high_low` and `high_high` along. -/
def decodeQ5KRound {σ : Type} (put : σ → ℕ → UInt8 → Option σ) (x : BlockQ5K) (i : ℕ)
    (st : (ℕ × UInt8 × UInt8) × σ) : Option ((ℕ × UInt8 × UInt8) × σ) := do
  let ((qsBase, highLow, highHigh), s) := st
  let s ← putHalf put 0 (fun q high => (q &&& 0x0f) ||| high.toUInt8) x.qh x.qs qsBase highLow (i * 64) s
  let s ← putHalf put 0 (fun q high => (q >>> 4) ||| high.toUInt8) x.qh x.qs qsBase highHigh (i * 64 + 32) s
  some ((qsBase + 32, highLow <<< 2, highHigh <<< 2), s)

def decodeQ5KU8 {σ : Type} (put : σ → ℕ → UInt8 → Option σ) (x : BlockQ5K) (s : σ) : Option σ :=
  (loop 4 (decodeQ5KRound put x) ((0, 1, 2), s)).map Prod.snd

/-- A round of `decode_q6k_u8` and `decode_q6k_i8`. -/
def decodeQ6KRound {σ α : Type} (put : σ → ℕ → α → Option σ) (out : UInt8 → α) (x : BlockQ6K) (i l : ℕ)
    (s : σ) : Option σ := do
  let ql ← x.ql[i * 128 / 2 + l]?
  let ql' ← x.ql[i * 128 / 2 + l + 32]?
  let qh ← x.qh[i * 128 / 4 + l]?
  let s ← put s (i * 128 + l) (out ((ql &&& 0x0f) ||| highBits qh 0))
  let s ← put s (i * 128 + l + 32) (out ((ql' &&& 0x0f) ||| highBits qh 2))
  let s ← put s (i * 128 + l + 64) (out ((ql >>> 4) ||| highBits qh 4))
  put s (i * 128 + l + 96) (out ((ql' >>> 4) ||| highBits qh 6))

/-- The loops of `decode_q6k_u8` and `decode_q6k_i8`. -/
def decodeQ6KInto {σ α : Type} (put : σ → ℕ → α → Option σ) (out : UInt8 → α) (x : BlockQ6K) (s : σ) :
    Option σ :=
  loop 2 (fun i => loop 32 (decodeQ6KRound put out x i)) s

structure BlockQ8_0 where
  d : F16
  qs : Vector Int8 32
deriving Inhabited

/-- A round of `dot_q5_0_q8_0`. -/
def dotQ5_0Q8_0Round (x : BlockQ5_0) (y : BlockQ8_0) (j : ℕ) (sumi : ℤ) : Option ℤ := do
  let q ← x.qs[j]?
  let xh₀ := (((x.qh &&& ((1 : UInt32) <<< j.toUInt32)) >>> j.toUInt32) <<< 4).toUInt8
  let xh₁ := ((x.qh &&& ((1 : UInt32) <<< (j + 16).toUInt32)) >>> (j + 12).toUInt32).toUInt8
  let x₀ : ℤ := ((q &&& 0x0f) ||| xh₀).toNat - 16
  let x₁ : ℤ := ((q >>> 4) ||| xh₁).toNat - 16
  let y₀ ← y.qs[j]?
  let y₁ ← y.qs[j + 16]?
  let p₀ ← mulI32 x₀ y₀.toInt
  let p₁ ← mulI32 x₁ y₁.toInt
  let p ← addI32 p₀ p₁
  addI32 sumi p

/-- The sum that `dot_q5_0_q8_0` makes of a pair of blocks. -/
def dotQ5_0Q8_0 (x : BlockQ5_0) (y : BlockQ8_0) : Option ℤ := loop 16 (dotQ5_0Q8_0Round x y) 0

/-! ### The routines -/

section Rows

variable {σ α β γ : Type} (put : σ → ℕ → α → Option σ)

/-- The blocks of a row, each with the place of its first value. -/
def rowLoop (size : ℕ) (f : ℕ → β → σ → Option σ) (blocks : List β) (s : σ) : Option σ :=
  loop blocks.length (fun b s => do
    let block ← blocks[b]?
    f (size * b) block s) s

def dequantizeQ4KRow (value : F16 → F16 → UInt8 → UInt8 → UInt8 → α) : List BlockQ4K → σ → Option σ :=
  rowLoop 256 fun base x => q4kLoop put base (value x.d x.dmin) x.scales x.qs

def dequantizeQ5KRow (value : F16 → F16 → UInt8 → UInt8 → UInt8 → ℕ → α) : List BlockQ5K → σ → Option σ :=
  rowLoop 256 fun base x => q5kLoop put base (value x.d x.dmin) x.scales x.qh x.qs

def dequantizeQ6KRow (value : F16 → Int8 → Int8 → α) : List BlockQ6K → σ → Option σ :=
  rowLoop 256 fun base x => q6kLoop put base (value x.d) x.ql x.qh x.scales

def dequantizeQ5_0Row (value : F16 → ℤ → α) : List BlockQ5_0 → σ → Option σ :=
  rowLoop 32 fun base x => q5_0Loop put base (value x.d) x.qh x.qs

/-- `dequantize_q4_k` of `quant.rs`. -/
def dequantizeQ4K (value : F16 → F16 → UInt8 → UInt8 → UInt8 → α) :
    List (Vector UInt8 144) → σ → Option σ :=
  rowLoop 256 fun base block =>
    q4kLoop put base (value (readF16 block 0) (readF16 block 2)) (sliceAt 12 4 block) (sliceAt 128 16 block)

/-- `dequantize_q5_k` of `quant.rs`. -/
def dequantizeQ5K (value : F16 → F16 → UInt8 → UInt8 → UInt8 → ℕ → α) :
    List (Vector UInt8 176) → σ → Option σ :=
  rowLoop 256 fun base block =>
    q5kLoop put base (value (readF16 block 0) (readF16 block 2)) (sliceAt 12 4 block) (sliceAt 32 16 block)
      (sliceAt 128 48 block)

/-- `dequantize_q6_k` of `quant.rs`. -/
def dequantizeQ6K (value : F16 → Int8 → Int8 → α) : List (Vector UInt8 210) → σ → Option σ :=
  rowLoop 256 fun base block =>
    q6kLoop put base (value (readF16 block 208)) (sliceAt 128 0 block) (sliceAt 64 128 block)
      ((sliceAt 16 192 block).map UInt8.toInt8)

/-- `dequantize_q5_0` of `quant.rs`. -/
def dequantizeQ5_0 (value : F16 → ℤ → α) : List (Vector UInt8 22) → σ → Option σ :=
  rowLoop 32 fun base block =>
    q5_0Loop put base (value (readF16 block 0)) (readU32Le block 2) (sliceAt 16 6 block)

theorem rowLoop_map (size : ℕ) (f : ℕ → γ → σ → Option σ) (parse : β → γ) (blocks : List β) (s : σ) :
    rowLoop size (fun base block => f base (parse block)) blocks s = rowLoop size f (blocks.map parse) s := by
  have hround : (fun b s => blocks[b]? >>= fun block => f (size * b) (parse block) s) =
      fun b s => (blocks.map parse)[b]? >>= fun block => f (size * b) block s := by
    funext b s
    rw [List.getElem?_map]
    cases blocks[b]? <;> rfl
  rw [rowLoop, rowLoop, List.length_map]
  exact congrArg (fun round => loop blocks.length round s) hround

end Rows

/-! ### Every value is put once -/

section Fills

variable {α : Type}

theorem putsTo_putRun {σ : Type} (put : σ → ℕ → α → Option σ) (base : ℕ) (value : UInt8 → α)
    (qs : Vector UInt8 128) {first : ℕ} (hfirst : first + 32 ≤ 128) (outIdx : ℕ) :
    PutsTo put (putRun put base value qs first) outIdx (outIdx + 32)
      ((List.range 32).flatMap fun l => [(base + (outIdx + l), value (cell qs (first + l)))]) := by
  refine PutsTo.forLoop (c := fun l => outIdx + l) fun l hl s => ?_
  simp only [getElem?_eq_cell qs (show first + l < 128 by omega), assign_singleton]
  cases hput : put s (base + (outIdx + l)) (value (cell qs (first + l))) with
  | none => simp [hput]
  | some s' => simp [hput, Nat.add_assoc]

theorem BlockQ4K.code_low (x : BlockQ4K) {i l : ℕ} (hl : l < 32) :
    x.code (64 * i + l) = cell x.qs (i * 64 / 2 + l) &&& 0x0f := by
  have hhalf : (64 * i + l) / 32 % 2 = 0 := by omega
  have hq : (64 * i + l) / 64 * 32 + (64 * i + l) % 32 = i * 64 / 2 + l := by omega
  simp only [BlockQ4K.code, hhalf, hq, if_true]

theorem BlockQ4K.code_high (x : BlockQ4K) {i l : ℕ} (hl : l < 32) :
    x.code (64 * i + 32 + l) = cell x.qs (i * 64 / 2 + l) >>> 4 := by
  have hhalf : ¬ (64 * i + 32 + l) / 32 % 2 = 0 := by omega
  have hq : (64 * i + 32 + l) / 64 * 32 + (64 * i + 32 + l) % 32 = i * 64 / 2 + l := by omega
  simp only [BlockQ4K.code, if_neg hhalf, hq]

section Q4K

variable (x : BlockQ4K) (value : UInt8 → UInt8 → UInt8 → α) (base : ℕ) (sc m : ℕ → UInt8)

/-- The values of the low halves of 32 bytes. -/
def q4kLow (i : ℕ) : List (ℕ × α) :=
  (List.range 32).flatMap fun l =>
    [(base + (64 * i + l), value (sc (2 * i)) (m (2 * i)) (cell x.qs (i * 64 / 2 + l) &&& 0x0f))]

def q4kHigh (i : ℕ) : List (ℕ × α) :=
  (List.range 32).flatMap fun l =>
    [(base + (64 * i + 32 + l), value (sc (2 * i + 1)) (m (2 * i + 1)) (cell x.qs (i * 64 / 2 + l) >>> 4))]

variable {x value base sc m}

theorem putsTo_q4kRound (hscale : ∀ g < 8, getScaleMinK4 g x.scales = some (sc g, m g)) {σ : Type}
    (put : σ → ℕ → α → Option σ) {i : ℕ} (hi : i < 4) :
    PutsTo put (q4kRound put base value x.scales x.qs i) (2 * i, 64 * i) (2 * (i + 1), 64 * (i + 1))
      (q4kLow x value base sc m i ++ q4kHigh x value base sc m i) := by
  intro s
  have hrun (value : UInt8 → α) := putsTo_putRun put base value x.qs (show i * 64 / 2 + 32 ≤ 128 by omega)
  have hlow := hrun (fun q => value (sc (2 * i)) (m (2 * i)) (q &&& 0x0f)) (64 * i)
  have hhigh := hrun (fun q => value (sc (2 * i + 1)) (m (2 * i + 1)) (q >>> 4)) (64 * i + 32)
  simp only [q4kRound, hscale (2 * i) (by omega), hscale (2 * i + 1) (by omega), Option.bind_eq_bind,
    Option.bind_some, hlow s, assign_append]
  change ((assign put (q4kLow x value base sc m i) s).map _).bind _ =
    ((assign put (q4kLow x value base sc m i) s).bind _).map _
  cases assign put (q4kLow x value base sc m i) s with
  | none => rfl
  | some s' => 
    simp only [Option.map_some, Option.bind_some, hhigh s']
    change ((assign put (q4kHigh x value base sc m i) s').map _).bind _ =
      (assign put (q4kHigh x value base sc m i) s').map _
    cases assign put (q4kHigh x value base sc m i) s' with
    | none => rfl
    | some s' => rfl

/-- **The loop over a `Q4_K` block puts each value once, with the scale and the minimum of its group.** -/
theorem q4kLoop_fills {v : ℕ → α} (hscale : ∀ g < 8, getScaleMinK4 g x.scales = some (sc g, m g))
    (hv : ∀ k < 256, v (base + k) = value (sc (k / 32)) (m (k / 32)) (x.code k)) :
    WritesOnce base 256 (fun put s => q4kLoop put base value x.scales x.qs s) v := by
  refine ⟨(List.range 4).flatMap fun i => q4kLow x value base sc m i ++ q4kHigh x value base sc m i, ?_, ?_⟩
  · refine FillsOnce.flatMap (m := 64) (n := 4) fun i hi => ?_
    have hlow : FillsOnce (base + 64 * i) 32 v (q4kLow x value base sc m i) := by
      refine FillsOnce.cellByCell (fun l _ => (Nat.add_assoc _ _ _).symm) fun l hl => ?_
      rw [Nat.add_assoc, hv (64 * i + l) (by omega), x.code_low hl,
        show (64 * i + l) / 32 = 2 * i by omega]
    have hhigh : FillsOnce (base + 64 * i + 32) 32 v (q4kHigh x value base sc m i) := by
      refine FillsOnce.cellByCell (fun l _ => by omega) fun l hl => ?_
      rw [Nat.add_assoc, Nat.add_assoc, ← Nat.add_assoc (64 * i), hv (64 * i + 32 + l) (by omega),
        x.code_high hl, show (64 * i + 32 + l) / 32 = 2 * i + 1 by omega]
    exact hlow.append hhigh
  · intro σ put s
    have hloop : PutsTo put (loop 4 (q4kRound put base value x.scales x.qs)) (0, 0) (8, 256) _ :=
      PutsTo.forLoop (c := fun i => (2 * i, 64 * i)) fun i hi => putsTo_q4kRound hscale put hi
    change (loop 4 (q4kRound put base value x.scales x.qs) ((0, 0), s)).map Prod.snd = _
    rw [hloop s, Option.map_map]
    exact Option.map_id'

end Q4K

/-! ### `Q5_K` -/

/-- The bit of a group in the bytes of the high bits. -/
def groupBit (g : ℕ) : UInt8 := UInt8.ofNat (2 ^ g)

def BlockQ5K.low (x : BlockQ5K) (k : ℕ) : UInt8 :=
  let q := cell x.qs (k / 64 * 32 + k % 32)
  if k / 32 % 2 = 0 then q &&& 0x0f else q >>> 4

/-- The fifth bit of a value, at its place. -/
def BlockQ5K.high (x : BlockQ5K) (k : ℕ) : ℕ :=
  if cell x.qh (k % 32) &&& groupBit (k / 32) ≠ 0 then 16 else 0

def BlockQ5K.code (x : BlockQ5K) (k : ℕ) : UInt8 := x.low k ||| (x.high k).toUInt8

section Q5K

variable (x : BlockQ5K) (value : UInt8 → UInt8 → UInt8 → ℕ → α) (base : ℕ) (sc m : ℕ → UInt8)

/-- The values of a half of 32 bytes, in the order of the loop. -/
def q5kHalf (i h : ℕ) : List (ℕ × α) :=
  (List.range 32).flatMap fun l =>
    [(base + (i * 64 + 32 * h + l), value (sc (2 * i + h)) (m (2 * i + h)) (x.low (i * 64 + 32 * h + l))
      (x.high (i * 64 + 32 * h + l)))]

def q5kCounters (i : ℕ) : Q5KCounters := ⟨2 * i, 32 * i, groupBit (2 * i), groupBit (2 * i + 1)⟩

theorem q5kCounters_succ {i : ℕ} (hi : i < 4) :
    q5kCounters (i + 1) = ⟨2 * i + 2, 32 * i + 32, groupBit (2 * i) <<< 2, groupBit (2 * i + 1) <<< 2⟩ := by
  interval_cases i <;> rfl

theorem BlockQ5K.low_half {i h l : ℕ} (hl : l < 32) (hh : h < 2) : x.low (i * 64 + 32 * h + l) =
    if h = 0 then cell x.qs (32 * i + l) &&& 0x0f else cell x.qs (32 * i + l) >>> 4 := by
  have hhalf : (i * 64 + 32 * h + l) / 32 % 2 = h := by omega
  have hq : (i * 64 + 32 * h + l) / 64 * 32 + (i * 64 + 32 * h + l) % 32 = 32 * i + l := by omega
  simp only [BlockQ5K.low, hhalf, hq]

theorem BlockQ5K.high_half {i h l : ℕ} (hl : l < 32) : x.high (i * 64 + 32 * h + l) =
    if cell x.qh l &&& groupBit (2 * i + h) ≠ 0 then 16 else 0 := by
  rw [BlockQ5K.high, show (i * 64 + 32 * h + l) % 32 = l by omega,
    show (i * 64 + 32 * h + l) / 32 = 2 * i + h by omega]

theorem puts_putHalf {σ : Type} (put : σ → ℕ → α → Option σ) {i h : ℕ} (hi : i < 4)
    (low : UInt8 → UInt8) (hlow : ∀ l < 32, low (cell x.qs (32 * i + l)) = x.low (i * 64 + 32 * h + l)) :
    Puts put (putHalf put base (fun q => value (sc (2 * i + h)) (m (2 * i + h)) (low q)) x.qh x.qs (32 * i)
      (groupBit (2 * i + h)) (i * 64 + 32 * h)) (q5kHalf x value base sc m i h) := by
  refine Puts.forLoop fun l hl s => ?_
  rw [assign_singleton, getElem?_eq_cell x.qs (by omega), getElem?_eq_cell x.qh hl, x.high_half hl,
    ← hlow l hl]
  rfl

variable {x value base sc m}

theorem putsTo_q5kRound (hscale : ∀ g < 8, getScaleMinK4 g x.scales = some (sc g, m g)) {σ : Type}
    (put : σ → ℕ → α → Option σ) {i : ℕ} (hi : i < 4) :
    PutsTo put (q5kRound put base value x.scales x.qh x.qs i) (q5kCounters i) (q5kCounters (i + 1))
      (q5kHalf x value base sc m i 0 ++ q5kHalf x value base sc m i 1) := by
  intro s
  have hlow := puts_putHalf x value base sc m put hi (fun q => q &&& 0x0f)
    fun l hl => (x.low_half hl (show 0 < 2 by decide)).symm
  have hhigh := puts_putHalf x value base sc m put hi (fun q => q >>> 4)
    fun l hl => (x.low_half hl (show 1 < 2 by decide)).symm
  have hrun := (hlow.andThen hhigh) s
  simp only [Nat.mul_zero, Nat.add_zero, Nat.mul_one] at hrun
  rw [q5kCounters_succ hi, ← hrun]
  simp only [q5kRound, q5kCounters, hscale (2 * i) (by omega), hscale (2 * i + 1) (by omega),
    Option.bind_eq_bind, Option.bind_some]
  rw [Option.map_eq_bind, Option.bind_assoc]
  rfl

theorem q5kHalves_fillsOnce {v : ℕ → α}
    (hv : ∀ k < 256, v (base + k) = value (sc (k / 32)) (m (k / 32)) (x.low k) (x.high k)) :
    FillsOnce base 256 v ((List.range 4).flatMap fun i =>
      q5kHalf x value base sc m i 0 ++ q5kHalf x value base sc m i 1) := by
  refine FillsOnce.flatMap (m := 64) (n := 4) fun i hi => ?_
  have hhalf (h : ℕ) (hh : h < 2) :
      FillsOnce (base + 64 * i + 32 * h) 32 v (q5kHalf x value base sc m i h) := by
    refine FillsOnce.cellByCell (fun l _ => by omega) fun l hl => ?_
    rw [show base + 64 * i + 32 * h + l = base + (i * 64 + 32 * h + l) by omega,
      hv (i * 64 + 32 * h + l) (by omega), show (i * 64 + 32 * h + l) / 32 = 2 * i + h by omega]
  exact (hhalf 0 (by decide)).append (hhalf 1 (by decide))

/-- **The loop over a `Q5_K` block puts each value once, with the scale and the minimum of its group.** -/
theorem q5kLoop_fills {v : ℕ → α} (hscale : ∀ g < 8, getScaleMinK4 g x.scales = some (sc g, m g))
    (hv : ∀ k < 256, v (base + k) = value (sc (k / 32)) (m (k / 32)) (x.low k) (x.high k)) :
    WritesOnce base 256 (fun put s => q5kLoop put base value x.scales x.qh x.qs s) v := by
  refine ⟨_, q5kHalves_fillsOnce hv, fun {σ} put s => ?_⟩
  have hloop : PutsTo put (loop 4 (q5kRound put base value x.scales x.qh x.qs)) ⟨0, 0, 1, 2⟩ _ _ :=
    PutsTo.forLoop (c := q5kCounters) fun i hi => putsTo_q5kRound hscale put hi
  change (loop 4 (q5kRound put base value x.scales x.qh x.qs) (⟨0, 0, 1, 2⟩, s)).map Prod.snd = _
  rw [hloop s, Option.map_map]
  exact Option.map_id'

end Q5K

def q5kCodeHalf (x : BlockQ5K) : ℕ → ℕ → List (ℕ × UInt8) :=
  q5kHalf x (fun _ _ q high => q ||| high.toUInt8) 0 (fun _ => 0) (fun _ => 0)

theorem putsTo_decodeQ5KRound (x : BlockQ5K) {σ : Type} (put : σ → ℕ → UInt8 → Option σ) {i : ℕ} (hi : i < 4) :
    PutsTo put (decodeQ5KRound put x i)
      (32 * i, groupBit (2 * i), groupBit (2 * i + 1))
      (32 * (i + 1), groupBit (2 * (i + 1)), groupBit (2 * (i + 1) + 1))
      (q5kCodeHalf x i 0 ++ q5kCodeHalf x i 1) := by
  intro s
  have hhalf {h : ℕ} (low : UInt8 → UInt8)
      (hlow : ∀ l < 32, low (cell x.qs (32 * i + l)) = x.low (i * 64 + 32 * h + l)) :
      Puts put (putHalf put 0 (fun q high => low q ||| high.toUInt8) x.qh x.qs (32 * i)
        (groupBit (2 * i + h)) (i * 64 + 32 * h)) (q5kCodeHalf x i h) :=
    puts_putHalf x (fun _ _ q high => q ||| high.toUInt8) 0 (fun _ => 0) (fun _ => 0) put hi low hlow
  have hlow := hhalf (fun q => q &&& 0x0f) fun l hl => (x.low_half hl (show 0 < 2 by decide)).symm
  have hhigh := hhalf (fun q => q >>> 4) fun l hl => (x.low_half hl (show 1 < 2 by decide)).symm
  have hrun := (hlow.andThen hhigh) s
  simp only [Nat.mul_zero, Nat.add_zero, Nat.mul_one] at hrun
  have hcounters : (32 * (i + 1), groupBit (2 * (i + 1)), groupBit (2 * (i + 1) + 1)) =
      (32 * i + 32, groupBit (2 * i) <<< 2, groupBit (2 * i + 1) <<< 2) := by
    interval_cases i <;> rfl
  rw [hcounters, ← hrun]
  simp only [decodeQ5KRound, Option.bind_eq_bind]
  rw [Option.map_eq_bind, Option.bind_assoc]
  rfl

/-- **`decode_q5k_u8` leaves the five bits of each value.** -/
theorem decodeQ5KU8_fills (x : BlockQ5K) :
    WritesOnce 0 256 (fun put s => decodeQ5KU8 put x s) fun k => x.code k := by
  have hcells : FillsOnce 0 256 (fun k => x.code k)
      ((List.range 4).flatMap fun i => q5kCodeHalf x i 0 ++ q5kCodeHalf x i 1) :=
    q5kHalves_fillsOnce fun k _ => by
      rw [Nat.zero_add]
      rfl
  refine ⟨_, hcells, fun {σ} put s => ?_⟩
  have hloop : PutsTo put (loop 4 (decodeQ5KRound put x)) (0, 1, 2) _ _ :=
    PutsTo.forLoop (c := fun i => (32 * i, groupBit (2 * i), groupBit (2 * i + 1))) fun i hi =>
      putsTo_decodeQ5KRound x put hi
  change (loop 4 (decodeQ5KRound put x) ((0, 1, 2), s)).map Prod.snd = _
  rw [hloop s, Option.map_map]
  exact Option.map_id'

/-! ### `Q6_K` -/

/-- The bits of the four values that share a byte of `qh`. -/
theorem BlockQ6K.code_lane (x : BlockQ6K) {i l c : ℕ} (hl : l < 32) (hc : c < 4) :
    x.code (i * 128 + l + 32 * c) =
      (if c < 2 then cell x.ql (64 * i + (l + 32 * (c % 2))) &&& 0x0f
        else cell x.ql (64 * i + (l + 32 * (c % 2))) >>> 4) |||
        highBits (cell x.qh (32 * i + l)) (2 * c).toUInt8 := by
  have hql : (i * 128 + l + 32 * c) / 128 * 64 + (i * 128 + l + 32 * c) % 64 = 64 * i + (l + 32 * (c % 2)) := by
    omega
  have hqh : (i * 128 + l + 32 * c) / 128 * 32 + (i * 128 + l + 32 * c) % 32 = 32 * i + l := by omega
  have hlane : (i * 128 + l + 32 * c) / 32 % 4 = c := by omega
  simp only [BlockQ6K.code, hql, hqh, hlane]
  interval_cases c <;> rfl

section Lanes

variable (base : ℕ) (f : ℕ → α)

def laneCell (idx c l : ℕ) : ℕ × α := (base + (idx * 128 + l + 32 * c), f (idx * 128 + l + 32 * c))

/-- The four values that share a byte of `qh`, in the order of the loops. -/
def laneCells (idx l : ℕ) : List (ℕ × α) :=
  [laneCell base f idx 0 l] ++ ([laneCell base f idx 1 l] ++ ([laneCell base f idx 2 l] ++
    [laneCell base f idx 3 l]))

variable {base f}

theorem laneCells_fillsOnce {v : ℕ → α} (hv : ∀ k < 256, v (base + k) = f k) :
    FillsOnce base 256 v ((List.range 2).flatMap fun idx => (List.range 32).flatMap (laneCells base f idx)) := by
  refine FillsOnce.flatMap (m := 128) (n := 2) fun idx hidx => ?_
  have hlane (c : ℕ) (hc : c < 4) : FillsOnce (base + 128 * idx + 32 * c) 32 v
      ((List.range 32).flatMap fun l => [laneCell base f idx c l]) := by
    refine FillsOnce.cellByCell (fun l _ => by omega) fun l hl => ?_
    rw [show base + 128 * idx + 32 * c + l = base + (idx * 128 + l + 32 * c) by omega,
      hv (idx * 128 + l + 32 * c) (by omega)]
  -- the lanes one after the other, instead of side by side
  refine FillsOnce.ofPerm ((hlane 0 (by decide)).append ((hlane 1 (by decide)).append
    ((hlane 2 (by decide)).append (hlane 3 (by decide))))) ?_
  have hside {f g : ℕ → List (ℕ × α)} {ws : List (ℕ × α)} (h : ((List.range 32).flatMap g).Perm ws) :
      ((List.range 32).flatMap fun l => f l ++ g l).Perm ((List.range 32).flatMap f ++ ws) :=
    (List.flatMap_append_perm _ f g).symm.trans (h.append_left _)
  exact hside (hside (hside (List.Perm.refl _)))

end Lanes

section Q6K

variable (x : BlockQ6K) (value : Int8 → Int8 → α) (base : ℕ)

/-- What `dequantize_q6_k` makes of a value. -/
def q6kAt (k : ℕ) : α := value (cell x.scales (k / 16)) ((x.code k).toInt8 - 32)

variable {x value base}

theorem puts_q6kRound {σ : Type} (put : σ → ℕ → α → Option σ) {idx l : ℕ} (hidx : idx < 2) (hl : l < 32) :
    Puts put (q6kRound put base value x.ql x.qh x.scales idx l) (laneCells base (q6kAt x value) idx l) := by
  have hlane {c : ℕ} (hc : c < 4) : laneCell base (q6kAt x value) idx c l =
      (base + (idx * 128 + l + 32 * c), value (cell x.scales (8 * idx + (l / 16 + 2 * c)))
        ((x.code (idx * 128 + l + 32 * c)).toInt8 - 32)) := by
    rw [laneCell, q6kAt, show (idx * 128 + l + 32 * c) / 16 = 8 * idx + (l / 16 + 2 * c) by omega]
  intro s
  rw [laneCells, hlane (show 0 < 4 by decide), hlane (show 1 < 4 by decide), hlane (show 2 < 4 by decide),
    hlane (show 3 < 4 by decide), x.code_lane hl (show 0 < 4 by decide), x.code_lane hl (show 1 < 4 by decide),
    x.code_lane hl (show 2 < 4 by decide), x.code_lane hl (show 3 < 4 by decide)]
  have hscale (c : ℕ) (hc : c ≤ 6) :=
    getElem?_eq_cell x.scales (show 8 * idx + (l / 16 + c) < 16 by omega)
  simp only [q6kRound, getElem?_eq_cell x.ql (show 64 * idx + l < 128 by omega),
    getElem?_eq_cell x.ql (show 64 * idx + (l + 32) < 128 by omega),
    getElem?_eq_cell x.qh (show 32 * idx + l < 64 by omega),
    getElem?_eq_cell x.scales (show 8 * idx + l / 16 < 16 by omega), hscale 2 (by decide),
    hscale 4 (by decide), hscale 6 (by decide), Option.bind_eq_bind, Option.bind_some]
  exact ((Puts.single _ _).andThen ((Puts.single _ _).andThen ((Puts.single _ _).andThen
    (Puts.single _ _)))) s

variable (x value base) in
/-- **The loops over a `Q6_K` block put each value once, with the scale of its group.** -/
theorem q6kLoop_fills {v : ℕ → α} (hv : ∀ k < 256, v (base + k) = q6kAt x value k) :
    WritesOnce base 256 (fun put s => q6kLoop put base value x.ql x.qh x.scales s) v :=
  ⟨_, laneCells_fillsOnce hv, fun {_} put =>
    Puts.forLoop fun _ hidx => Puts.forLoop fun _ hl => puts_q6kRound put hidx hl⟩

end Q6K

theorem puts_decodeQ6KRound (out : UInt8 → α) (x : BlockQ6K) {σ : Type} (put : σ → ℕ → α → Option σ) {i l : ℕ}
    (hi : i < 2) (hl : l < 32) :
    Puts put (decodeQ6KRound put out x i l) (laneCells 0 (fun k => out (x.code k)) i l) := by
  intro s
  simp only [laneCells, laneCell, Nat.zero_add]
  rw [x.code_lane hl (show 0 < 4 by decide), x.code_lane hl (show 1 < 4 by decide),
    x.code_lane hl (show 2 < 4 by decide), x.code_lane hl (show 3 < 4 by decide)]
  have hhalf : i * 128 / 2 = 64 * i := by omega
  have hquarter : i * 128 / 4 = 32 * i := by omega
  simp only [decodeQ6KRound, hhalf, hquarter, Nat.add_assoc (64 * i),
    getElem?_eq_cell x.ql (show 64 * i + l < 128 by omega),
    getElem?_eq_cell x.ql (show 64 * i + (l + 32) < 128 by omega),
    getElem?_eq_cell x.qh (show 32 * i + l < 64 by omega), Option.bind_eq_bind, Option.bind_some]
  exact ((Puts.single _ _).andThen ((Puts.single _ _).andThen ((Puts.single _ _).andThen
    (Puts.single _ _)))) s

/-- **`decode_q6k_u8` leaves the six bits of each value.** -/
theorem decodeQ6KInto_fills (out : UInt8 → α) (x : BlockQ6K) :
    WritesOnce 0 256 (fun put s => decodeQ6KInto put out x s) fun k => out (x.code k) :=
  ⟨_, laneCells_fillsOnce fun k _ => by rw [Nat.zero_add], fun {_} put =>
    Puts.forLoop fun _ hi => Puts.forLoop fun _ hl => puts_decodeQ6KRound out x put hi hl⟩

/-! ### `Q5_0` -/

/-- The fifth bit of a value, at its place. -/
def BlockQ5_0.high (x : BlockQ5_0) (k : ℕ) : UInt8 := if wordBit x.qh k then 0x10 else 0

def BlockQ5_0.low (x : BlockQ5_0) (k : ℕ) : UInt8 :=
  if k < 16 then cell x.qs k &&& 0x0f else cell x.qs (k - 16) >>> 4

def BlockQ5_0.code (x : BlockQ5_0) (k : ℕ) : UInt8 := x.low k ||| x.high k

def BlockQ5_0.quant (x : BlockQ5_0) (k : ℕ) : ℤ := (x.code k).toNat - 16

theorem bit_sixteen (b : Bool) : ∀ i < 8, bit (if b then 0x10 else 0) i = (b && decide (i = 4)) := by
  cases b <;> decide

theorem wordBit_sixteen : ∀ i < 8, wordBit 0x10 i = decide (i = 4) := by decide

theorem toUInt8_eq_high {w : UInt32} {b : Bool} (h : ∀ i < 8, wordBit w i = (b && decide (i = 4))) :
    w.toUInt8 = if b then 0x10 else 0 := by
  refine byte_ext fun i hi => ?_
  rw [bit_toUInt8, h i hi, bit_sixteen b i hi]
  simp [hi]

section HighBits

variable (qh : UInt32) {j : ℕ}

/-- The high bit of `dequantize_q5_0` for a value of the first half. -/
theorem high_first (hj : j < 16) :
    (((qh >>> j.toUInt32) <<< 4) &&& 0x10).toUInt8 = if wordBit qh j then 0x10 else 0 := by
  have hshift : j.toUInt32.toNat = j := toNat_toUInt32 (by omega)
  refine toUInt8_eq_high fun i hi => ?_
  rw [wordBit_and, wordBit_sixteen i hi, wordBit_shiftLeft _ (by decide), wordBit_shiftRight _ (by omega), hshift]
  by_cases h4 : i = 4
  · subst h4
    simp
  · simp [h4]

theorem high_second (hj : j < 16) :
    ((qh >>> (j + 12).toUInt32) &&& 0x10).toUInt8 = if wordBit qh (j + 16) then 0x10 else 0 := by
  have hshift : (j + 12).toUInt32.toNat = j + 12 := toNat_toUInt32 (by omega)
  refine toUInt8_eq_high fun i hi => ?_
  rw [wordBit_and, wordBit_sixteen i hi, wordBit_shiftRight _ (by omega), hshift]
  by_cases h4 : i = 4
  · subst h4
    rfl
  · simp [h4]

theorem wordBit_and_one_shiftLeft (hj : j < 32) (i : ℕ) :
    wordBit (qh &&& ((1 : UInt32) <<< j.toUInt32)) i = (wordBit qh j && decide (i = j)) := by
  have hshift : j.toUInt32.toNat = j := toNat_toUInt32 (by omega)
  have hone (m : ℕ) : wordBit 1 m = decide (m = 0) := by
    change (1 : ℕ).testBit m = decide (m = 0)
    exact Bool.eq_iff_iff.2 (Nat.testBit_one_eq_true_iff_self_eq_zero.trans decide_eq_true_iff.symm)
  rw [wordBit_and, wordBit_shiftLeft _ (by omega), hshift, hone]
  by_cases hij : i = j
  · subst hij
    simp [hj]
  · simp [hij]
    omega

/-- The high bit of `dot_q5_0_q8_0` for a value of the first half. -/
theorem dot_high_first (hj : j < 16) :
    (((qh &&& ((1 : UInt32) <<< j.toUInt32)) >>> j.toUInt32) <<< 4).toUInt8 =
      if wordBit qh j then 0x10 else 0 := by
  have hshift : j.toUInt32.toNat = j := toNat_toUInt32 (by omega)
  refine toUInt8_eq_high fun i hi => ?_
  rw [wordBit_shiftLeft _ (by decide), wordBit_shiftRight _ (by omega), hshift,
    show j + (i - (4 : UInt32).toNat) = j + (i - 4) from rfl, wordBit_and_one_shiftLeft _ (by omega)]
  by_cases h4 : i = 4
  · subst h4
    simp
  · simp [h4]
    omega

theorem dot_high_second (hj : j < 16) :
    ((qh &&& ((1 : UInt32) <<< (j + 16).toUInt32)) >>> (j + 12).toUInt32).toUInt8 =
      if wordBit qh (j + 16) then 0x10 else 0 := by
  have hshift : (j + 12).toUInt32.toNat = j + 12 := toNat_toUInt32 (by omega)
  refine toUInt8_eq_high fun i hi => ?_
  rw [wordBit_shiftRight _ (by omega), hshift, wordBit_and_one_shiftLeft _ (by omega)]
  by_cases h4 : i = 4
  · subst h4
    simp
  · simp [h4]
    omega

end HighBits

section Q5_0

variable (x : BlockQ5_0)

theorem BlockQ5_0.quant_first {j : ℕ} (hj : j < 16) :
    x.quant j = ((cell x.qs j &&& 0x0f) ||| if wordBit x.qh j then 0x10 else 0).toNat - 16 := by
  rw [BlockQ5_0.quant, BlockQ5_0.code, BlockQ5_0.low, if_pos hj, BlockQ5_0.high]

theorem BlockQ5_0.quant_second (j : ℕ) :
    x.quant (j + 16) = ((cell x.qs j >>> 4) ||| if wordBit x.qh (j + 16) then 0x10 else 0).toNat - 16 := by
  rw [BlockQ5_0.quant, BlockQ5_0.code, BlockQ5_0.low, if_neg (by omega), Nat.add_sub_cancel, BlockQ5_0.high]

variable {x} {value : ℤ → α} {base : ℕ}

/-- **The loop over a `Q5_0` block puts each value once.** -/
theorem q5_0Loop_fills {v : ℕ → α} (hv : ∀ k < 32, v (base + k) = value (x.quant k)) :
    WritesOnce base 32 (fun put s => q5_0Loop put base value x.qh x.qs s) v := by
  refine ⟨(List.range 16).flatMap fun j => [(base + j, value (x.quant j))] ++
    [(base + (j + 16), value (x.quant (j + 16)))], ?_, fun {σ} put => ?_⟩
  · have hfirst : FillsOnce base 16 v ((List.range 16).flatMap fun j => [(base + j, value (x.quant j))]) :=
      FillsOnce.cellByCell (fun _ _ => rfl) fun j hj => (hv j (by omega)).symm
    have hsecond : FillsOnce (base + 16) 16 v
        ((List.range 16).flatMap fun j => [(base + (j + 16), value (x.quant (j + 16)))]) :=
      FillsOnce.cellByCell (fun j _ => by omega) fun j hj => by
        rw [Nat.add_assoc, Nat.add_comm 16 j]
        exact (hv (j + 16) (by omega)).symm
    exact (hfirst.append hsecond).ofPerm (List.flatMap_append_perm _ _ _).symm
  · refine Puts.forLoop fun j hj s => ?_
    simp only [x.quant_first hj, x.quant_second, getElem?_eq_cell x.qs hj, Option.bind_eq_bind,
      Option.bind_some, high_first x.qh hj, high_second x.qh hj]
    exact ((Puts.single _ _).andThen (Puts.single _ _)) s

theorem BlockQ5_0.code_lt (x : BlockQ5_0) (k : ℕ) : (x.code k).toNat < 32 := by
  have hlow : (x.low k).toNat < 16 := by
    unfold BlockQ5_0.low
    split
    · exact toNat_and_fifteen_lt _
    · exact toNat_shiftRight_four_lt _
  have hhigh : (x.high k).toNat < 2 ^ 5 := by
    unfold BlockQ5_0.high
    split <;> decide
  rw [BlockQ5_0.code, UInt8.toNat_or]
  exact Nat.or_lt_two_pow (n := 5) (by omega) hhigh

theorem BlockQ5_0.abs_quant_le (x : BlockQ5_0) (k : ℕ) : |x.quant k| ≤ 16 := by
  have hlt := x.code_lt k
  rw [BlockQ5_0.quant, abs_le]
  omega

/-- **`dot_q5_0_q8_0` multiplies the values that `dequantize_q5_0` puts.** -/
theorem dotQ5_0Q8_0_eq (x : BlockQ5_0) (y : BlockQ8_0) :
    dotQ5_0Q8_0 x y = some (∑ k ∈ range 32, x.quant k * (cell y.qs k).toInt) := by
  let p (k : ℕ) : ℤ := x.quant k * (cell y.qs k).toInt
  have hp (k : ℕ) : |p k| ≤ 16 * 128 := by
    have h₁ := (cell y.qs k).le_toInt
    have h₂ := (cell y.qs k).toInt_lt
    exact abs_mul_le (x.abs_quant_le k) (abs_le.2 (by omega))
  have hpair (j : ℕ) : |p j + p (j + 16)| ≤ 4096 :=
    (abs_add_le _ _).trans (by linarith [hp j, hp (j + 16)])
  have hsum : ∑ k ∈ range 32, p k = ∑ j ∈ range 16, (p j + p (j + 16)) := by
    rw [show 32 = 16 + 16 from rfl, sum_range_add, ← sum_add_distrib]
    exact sum_congr rfl fun j _ => by rw [Nat.add_comm 16 j]
  obtain ⟨s, hrun, rfl⟩ := loop_spec (s := (0 : ℤ)) (n := 16) (f := dotQ5_0Q8_0Round x y)
    (fun n s => s = ∑ j ∈ range n, (p j + p (j + 16))) (by simp) fun j hj s hs => by
      have hbound : |s| ≤ 16 * 4096 := by
        rw [hs]
        refine (abs_sum_range_le fun i _ => hpair i).trans ?_
        have hj' : (j : ℤ) ≤ 16 := by omega
        linarith
      refine ⟨s + (p j + p (j + 16)), ?_, by rw [hs, sum_range_succ]⟩
      have h₀ : mulI32 (x.quant j) (cell y.qs j).toInt = some (p j) :=
        mulI32_eq ((hp j).trans (by decide))
      have h₁ : mulI32 (x.quant (j + 16)) (cell y.qs (j + 16)).toInt = some (p (j + 16)) :=
        mulI32_eq ((hp (j + 16)).trans (by decide))
      have h₂ : addI32 (p j) (p (j + 16)) = some (p j + p (j + 16)) :=
        addI32_eq (by linarith [hp j, hp (j + 16), show (4096 : ℤ) ≤ maxI32 by decide])
      have h₃ : addI32 s (p j + p (j + 16)) = some (s + (p j + p (j + 16))) :=
        addI32_eq (by linarith [hpair j, show (17 * 4096 : ℤ) ≤ maxI32 by decide])
      simp only [dotQ5_0Q8_0Round, getElem?_eq_cell x.qs hj, getElem?_eq_cell y.qs (show j < 32 by omega),
        getElem?_eq_cell y.qs (show j + 16 < 32 by omega), dot_high_first x.qh hj, dot_high_second x.qh hj,
        ← x.quant_first hj, ← x.quant_second, h₀, h₁, h₂, Option.bind_eq_bind, Option.bind_some]
      exact h₃
  exact hrun.trans (congrArg some hsum.symm)

end Q5_0

end Fills

/-! ### The floats -/

section Floats

variable (toF32 : F16 → Float32)

/-- `d * sc as f32 * q as f32 - dmin * m as f32`. -/
def q4kValue (d dmin : F16) (sc m q : UInt8) : Float32 :=
  toF32 d * sc.toFloat32 * q.toFloat32 - toF32 dmin * m.toFloat32

/-- `d * sc as f32 * (q4 as f32 + high as f32) - dmin * m as f32`. -/
def q5kValue (d dmin : F16) (sc m q4 : UInt8) (high : ℕ) : Float32 :=
  toF32 d * sc.toFloat32 * (q4.toFloat32 + high.toFloat32) - toF32 dmin * m.toFloat32

/-- `d * sc as f32 * q as f32`. -/
def q6kValue (d : F16) (sc q : Int8) : Float32 := toF32 d * sc.toFloat32 * q.toFloat32

/-- `x as f32 * d`. -/
def q5_0Value (d : F16) (x : ℤ) : Float32 := x.toInt32.toFloat32 * toF32 d

end Floats

end Matmul
