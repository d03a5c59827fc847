/-
**The GGUF reader.**

A GGUF file holds a header (magic, counts, metadata, tensor table) and, from an aligned offset on, the
bytes of the tensors.  All counts, lengths, dimensions, offsets and the alignment come from the file,
so the reader must not trust any of them.  `Outcome` tells a refusal from a panic: an index out of
range and an unchecked operation that overflows a `usize` are panics here.

The reader is a `StateT` over its position.  Allocation is not part of the file: `ParseEnv` gives the
answers of `try_reserve`, and the order in which a hash map is visited.
-/

import Greppy.Discover
import Greppy.KeyedTable
import Greppy.OutcomeState
import Greppy.Usize
import Greppy.Utf8

set_option autoImplicit false

namespace Greppy

/-! ### Errors and machine arithmetic -/

inductive GgufError where
  | invalidGguf (message : String)
  | missingTensor (name : String)
deriving DecidableEq, Repr

/-- `Vec::with_capacity(len)`: the bytes of the elements must not exceed `isize::MAX`. -/
def vecWithCapacity (elemSize len : ℕ) : Outcome GgufError Unit :=
  if elemSize * len < 2 ^ 63 then .ok () else .panic

/-- `{n:08x}`. -/
def hex8 (n : ℕ) : String :=
  String.ofList (List.replicate (8 - (Nat.toDigits 16 n).length) '0' ++ Nat.toDigits 16 n)

/-! ### The bytes of the file -/

/-- The reader: the file and the position in it. -/
structure Reader where
  data : Bytes
  pos : ℕ

abbrev Read (α : Type) : Type := StateT Reader (Outcome GgufError) α

namespace Reader

def new (data : Bytes) : Reader := ⟨data, 0⟩

/-- `remaining`, with `saturating_sub`. -/
def remaining (reader : Reader) : ℕ := reader.data.length - reader.pos

/-- `bytes`: the next `len` bytes. -/
def bytes (len : ℕ) : Read Bytes := do
  let reader ← get
  let stop ← liftOutcome (.ofOption (.invalidGguf "reader position overflow")
    (usizeAdd reader.pos len))
  let pos := reader.pos
  let size := reader.data.length
  check (.invalidGguf s!"read of {len} bytes at {pos} exceeds file size {size}")
    (decide (stop ≤ reader.data.length))
  let bytes ← liftOutcome (.unwrap (slice reader.pos stop reader.data))
  set { reader with pos := stop }
  pure bytes

/-- `array`: `copy_from_slice` panics unless the lengths agree. -/
def array (n : ℕ) : Read Bytes := do
  let bytes ← bytes n
  liftOutcome (if bytes.length = n then .ok bytes else .panic)

/-- The number that little-endian bytes stand for. -/
def leNat (bytes : Bytes) : ℕ := bytes.foldr (fun b n => b.toNat + 256 * n) 0

/-- `u8`: the byte at index 0 of a read of one byte. -/
def u8 : Read UInt8 := do
  let bytes ← bytes 1
  liftOutcome (.unwrap bytes[0]?)

def i8 : Read Int8 := do return (← u8).toInt8

def u16 : Read UInt16 := do return .ofNat (leNat (← array 2))

def i16 : Read Int16 := do return (UInt16.ofNat (leNat (← array 2))).toInt16

def u32 : Read UInt32 := do return .ofNat (leNat (← array 4))

def i32 : Read Int32 := do return (UInt32.ofNat (leNat (← array 4))).toInt32

def u64 : Read UInt64 := do return .ofNat (leNat (← array 8))

def i64 : Read Int64 := do return (UInt64.ofNat (leNat (← array 8))).toInt64

/-- `f32`, by its bits. -/
def f32 : Read UInt32 := u32

/-- `f64`, by its bits. -/
def f64 : Read UInt64 := u64

/-- `usize_u64`: a `u64` that fits a `usize`. -/
def usizeU64 : Read ℕ := do
  let value ← u64
  check (.invalidGguf s!"u64 value {value} does not fit usize") (decide (value.toNat < 2 ^ 64))
  pure value.toNat

end Reader

/-! ### Versions, lengths and strings -/

inductive VersionedMagic where
  | ggufV1
  | ggufV2
  | ggufV3
deriving DecidableEq, Repr

/-- `VersionedMagic::read`. -/
def VersionedMagic.read : Read VersionedMagic := do
  let magic ← Reader.u32
  let shown := hex8 magic.toNat
  check (.invalidGguf s!"unknown magic 0x{shown}")
    (magic == 0x46554747 || magic == 0x47475546)
  let version ← Reader.u32
  if version = 1 then pure .ggufV1
  else if version = 2 then pure .ggufV2
  else if version = 3 then pure .ggufV3
  else failWith (.invalidGguf s!"unsupported GGUF version {version}")

def VersionedMagic.lengthPrefixSize : VersionedMagic → ℕ
  | .ggufV1 => 4
  | .ggufV2 => 8
  | .ggufV3 => 8

/-- `read_length`.  A `u32` always fits a 64-bit `usize`. -/
def readLength : VersionedMagic → Read ℕ
  | .ggufV1 => do return (← Reader.u32).toNat
  | .ggufV2 => Reader.usizeU64
  | .ggufV3 => Reader.usizeU64

def ggufMaxStringLength : ℕ := 2 ^ 30

/-- `rposition(|&b| b != 0)`. -/
def lastNonZero (bytes : Bytes) : Option ℕ :=
  (bytes.reverse.findIdx? (· != 0)).map fun i => bytes.length - 1 - i

/-- The bytes up to the last one that is not zero: `&bytes[..=idx]`, or nothing. -/
def trimZeros (bytes : Bytes) : Outcome GgufError Bytes :=
  match lastNonZero bytes with
  | some idx => .unwrap (slice 0 (idx + 1) bytes)
  | none => .ok []

def readString (magic : VersionedMagic) : Read String := do
  let len ← readLength magic
  check (.invalidGguf s!"string length {len} exceeds max {ggufMaxStringLength}")
    (decide (len ≤ ggufMaxStringLength))
  let bytes ← Reader.bytes len
  let trimmed ← liftOutcome (trimZeros bytes)
  pure (String.ofList (Utf8.lossy trimmed))

/-! ### Metadata values -/

inductive ValueType where
  | u8 | i8 | u16 | i16 | u32 | i32 | u64 | i64 | f32 | f64 | bool | string | array
deriving DecidableEq, Repr

/-- `ValueType::from_u32`. -/
def ValueType.fromU32 (v : UInt32) : Outcome GgufError ValueType :=
  match v.toNat with
  | 0 => .ok .u8
  | 1 => .ok .i8
  | 2 => .ok .u16
  | 3 => .ok .i16
  | 4 => .ok .u32
  | 5 => .ok .i32
  | 6 => .ok .f32
  | 7 => .ok .bool
  | 8 => .ok .string
  | 9 => .ok .array
  | 10 => .ok .u64
  | 11 => .ok .i64
  | 12 => .ok .f64
  | _ => .error (.invalidGguf s!"unknown value type {v}")

/-- `min_disk_size`: what a value of the type takes in the file at least. -/
def ValueType.minDiskSize (valueType : ValueType) (magic : VersionedMagic) : ℕ :=
  match valueType with
  | .u8 | .i8 | .bool => 1
  | .u16 | .i16 => 2
  | .u32 | .i32 | .f32 => 4
  | .u64 | .i64 | .f64 => 8
  | .string => magic.lengthPrefixSize
  | .array => 4 + magic.lengthPrefixSize

/-- A metadata value; the floating-point numbers are kept as their bits. -/
inductive Value where
  | u8 (v : UInt8)
  | i8 (v : Int8)
  | u16 (v : UInt16)
  | i16 (v : Int16)
  | u32 (v : UInt32)
  | i32 (v : Int32)
  | u64 (v : UInt64)
  | i64 (v : Int64)
  | f32 (bits : UInt32)
  | f64 (bits : UInt64)
  | bool (v : Bool)
  | string (v : String)
  | array (items : List Value)

namespace Value

mutual

/-- How deep values are nested below a value: 0 for a value with none. -/
def height : Value → ℕ
  | .array items => heightBelow items
  | _ => 0

/-- How deep the items of an array and the values below them are nested. -/
def heightBelow : List Value → ℕ
  | [] => 0
  | item :: items => max (item.height + 1) (heightBelow items)

end

def asU64 : Value → Option UInt64
  | .u8 v => some v.toUInt64
  | .u16 v => some v.toUInt64
  | .u32 v => some v.toUInt64
  | .u64 v => some v
  | .bool v => some (if v then 1 else 0)
  | _ => none

end Value

def ggufMaxArrayElements : ℕ := 2 ^ 30

def ggufMaxValueDepth : ℕ := 64

/-- The size of a `Value` in memory. -/
def valueSize : ℕ := 32

/-- The body of `Value::read`, with `readItem` for its calls of itself. -/
def readBody (readItem : ValueType → Read Value) (valueType : ValueType) (magic : VersionedMagic) :
    Read Value :=
  match valueType with
  | .u8 => do return .u8 (← Reader.u8)
  | .i8 => do return .i8 (← Reader.i8)
  | .u16 => do return .u16 (← Reader.u16)
  | .i16 => do return .i16 (← Reader.i16)
  | .u32 => do return .u32 (← Reader.u32)
  | .i32 => do return .i32 (← Reader.i32)
  | .u64 => do return .u64 (← Reader.u64)
  | .i64 => do return .i64 (← Reader.i64)
  | .f32 => do return .f32 (← Reader.f32)
  | .f64 => do return .f64 (← Reader.f64)
  | .bool => do
      let b ← Reader.u8
      check (.invalidGguf s!"unexpected bool value {b}") (b == 0 || b == 1)
      return .bool (b == 1)
  | .string => do return .string (← readString magic)
  | .array => do
      let elemType ← liftOutcome (ValueType.fromU32 (← Reader.u32))
      let len ← readLength magic
      check (.invalidGguf s!"array length {len} exceeds max {ggufMaxArrayElements}")
        (decide (len ≤ ggufMaxArrayElements))
      let needed := usizeSaturatingMul len (elemType.minDiskSize magic)
      let remaining := (← get).remaining
      check (.invalidGguf
        s!"array of {len} elements needs at least {needed} bytes, only {remaining} remain")
        (decide (needed ≤ remaining))
      liftOutcome (vecWithCapacity valueSize len)
      let items ← repeatFrom (fun items => do return items ++ [← readItem elemType]) len []
      return .array items

/-- `Value::read` with so many levels of nesting left. -/
def readWithin : ℕ → ValueType → VersionedMagic → Read Value
  | 0, _, _ =>
    failWith (.invalidGguf s!"value nesting depth exceeds max {ggufMaxValueDepth}")
  | levels + 1, valueType, magic =>
    readBody (fun elemType => readWithin levels elemType magic) valueType magic

/-- `Value::read` at a depth. -/
def Value.read (valueType : ValueType) (magic : VersionedMagic) (depth : ℕ) : Read Value :=
  readWithin (ggufMaxValueDepth + 1 - depth) valueType magic

/-! ### Tensors -/

inductive GgmlDType where
  | F32 | F16 | BF16 | Q4_0 | Q4_1 | Q5_0 | Q5_1 | Q8_0 | Q8_1 | Q2K | Q3K | Q4K | Q5K | Q6K | Q8K
deriving DecidableEq, Repr

namespace GgmlDType

/-- `GgmlDType::from_u32`. -/
def fromU32 (u : UInt32) : Outcome GgufError GgmlDType :=
  match u.toNat with
  | 0 => .ok .F32
  | 1 => .ok .F16
  | 2 => .ok .Q4_0
  | 3 => .ok .Q4_1
  | 6 => .ok .Q5_0
  | 7 => .ok .Q5_1
  | 8 => .ok .Q8_0
  | 9 => .ok .Q8_1
  | 10 => .ok .Q2K
  | 11 => .ok .Q3K
  | 12 => .ok .Q4K
  | 13 => .ok .Q5K
  | 14 => .ok .Q6K
  | 15 => .ok .Q8K
  | 30 => .ok .BF16
  | _ => .error (.invalidGguf s!"unknown GGML dtype id {u}")

def name : GgmlDType → String
  | .F32 => "F32"
  | .F16 => "F16"
  | .BF16 => "BF16"
  | .Q4_0 => "Q4_0"
  | .Q4_1 => "Q4_1"
  | .Q5_0 => "Q5_0"
  | .Q5_1 => "Q5_1"
  | .Q8_0 => "Q8_0"
  | .Q8_1 => "Q8_1"
  | .Q2K => "Q2_K"
  | .Q3K => "Q3_K"
  | .Q4K => "Q4_K"
  | .Q5K => "Q5_K"
  | .Q6K => "Q6_K"
  | .Q8K => "Q8_K"

/-- `block_size`: the elements of a block. -/
def blockSize : GgmlDType → ℕ
  | .F32 | .F16 | .BF16 => 1
  | .Q4_0 | .Q4_1 | .Q5_0 | .Q5_1 | .Q8_0 | .Q8_1 => 32
  | .Q2K | .Q3K | .Q4K | .Q5K | .Q6K | .Q8K => 256

/-- `type_size`: the bytes of a block. -/
def typeSize : GgmlDType → ℕ
  | .F32 => 4
  | .F16 | .BF16 => 2
  | .Q4_0 => 2 + 32 / 2
  | .Q4_1 => 2 + 2 + 32 / 2
  | .Q5_0 => 2 + 4 + 32 / 2
  | .Q5_1 => 2 + 2 + 4 + 32 / 2
  | .Q8_0 => 2 + 32
  | .Q8_1 => 2 + 2 + 32
  | .Q2K => 256 / 16 + 256 / 4 + 2 + 2
  | .Q3K => 256 / 8 + 256 / 4 + 12 + 2
  | .Q4K => 2 + 2 + 12 + 256 / 2
  | .Q5K => 2 + 2 + 12 + 256 / 8 + 256 / 2
  | .Q6K => 256 / 2 + 256 / 4 + 256 / 16 + 2
  | .Q8K => 4 + 256 + 256 / 16 * 2

end GgmlDType

structure TensorInfo where
  dtype : GgmlDType
  shape : List ℕ
  offset : ℕ

/-- `checked_element_count`: the product of the dimensions. -/
def checkedElementCount (shape : List ℕ) : Outcome GgufError ℕ :=
  shape.foldlM (fun acc dim => .ofOption
    (.invalidGguf s!"tensor shape {shape} element count overflows") (usizeMul acc dim)) 1

/-- `byte_len`: the elements are whole blocks. -/
def TensorInfo.byteLen (info : TensorInfo) : Outcome GgufError ℕ := do
  let shape := info.shape
  let dtype := info.dtype.name
  let blockSize := info.dtype.blockSize
  let elems ← checkedElementCount info.shape
  Outcome.ensure (.invalidGguf
    s!"tensor with shape {shape} has {elems} elements not divisible by {blockSize} for {dtype}")
    (elems % blockSize == 0)
  .ofOption (.invalidGguf s!"tensor with shape {shape} byte length overflows")
    (usizeMul (elems / blockSize) info.dtype.typeSize)

/-- `validate_raw`: what `dequantize` requires of the bytes of a tensor.  Its product is unchecked. -/
def validateRaw (dtype : GgmlDType) (raw : Bytes) (elemCount : ℕ) : Outcome GgufError Unit := do
  let blockSize := dtype.blockSize
  let shown := dtype.name
  let size := raw.length
  Outcome.ensure (.invalidGguf
    s!"{elemCount} elements is not divisible by {blockSize} for {shown}")
    (elemCount % blockSize == 0)
  let expected ← Outcome.unwrap (usizeMul (elemCount / blockSize) dtype.typeSize)
  Outcome.ensure (.invalidGguf
    s!"{shown} raw byte length mismatch: got {size}, expected {expected} for {elemCount} elems")
    (raw.length == expected)

/-! ### The whole file -/

/-- What the parse finds outside the file. -/
structure ParseEnv where
  /-- The error of `try_reserve` for a number of entries, if it fails. -/
  tryReserve : ℕ → Option String
  /-- The order in which the tensor table is visited. -/
  visit : List (String × TensorInfo) → List (String × TensorInfo)
  /-- A visit sees every row once. -/
  visit_perm : ∀ rows, (visit rows).Perm rows

/-- A mapped file.  No slice is longer than `isize::MAX` bytes. -/
structure Mmap where
  bytes : Bytes
  length_lt : bytes.length < 2 ^ 63

abbrev StringMap (α : Type) : Type := KeyedTable (String × α) Prod.fst

structure GgufHeader where
  magic : VersionedMagic
  metadata : StringMap Value
  tensors : StringMap TensorInfo

/-- `try_reserve` of one of the two tables. -/
def reserveTable (env : ParseEnv) (table : String) (count : ℕ) : Read Unit :=
  match env.tryReserve count with
  | none => pure ()
  | some e =>
    failWith (.invalidGguf s!"{table} table allocation for {count} entries failed: {e}")

def readMetadataEntry (magic : VersionedMagic) (metadata : StringMap Value) :
    Read (StringMap Value) := do
  let key ← readString magic
  let valueType ← liftOutcome (ValueType.fromU32 (← Reader.u32))
  let value ← Value.read valueType magic 0
  return metadata.upsert (key, value)

/-- One dimension of a tensor, as long as a length. -/
def readDimension (magic : VersionedMagic) : Read ℕ := readLength magic

def ggufMaxTensorDims : ℕ := 4

def readTensorEntry (magic : VersionedMagic) (tensors : StringMap TensorInfo) :
    Read (StringMap TensorInfo) := do
  let name ← readString magic
  let nDims ← Reader.u32
  check (.invalidGguf s!"tensor '{name}' has {nDims} dimensions, max is {ggufMaxTensorDims}")
    (decide (nDims.toNat ≤ ggufMaxTensorDims))
  liftOutcome (vecWithCapacity 8 nDims.toNat)
  let shape ← repeatFrom (fun shape => do return shape ++ [← readDimension magic]) nDims.toNat []
  let dtype ← liftOutcome (GgmlDType.fromU32 (← Reader.u32))
  let offset ← Reader.usizeU64
  return tensors.upsert (name, ⟨dtype, shape.reverse, offset⟩)

/-- The header: the counts, checked against what is left of the file, and the two tables. -/
def readHeader (env : ParseEnv) : Read GgufHeader := do
  let magic ← VersionedMagic.read
  let tensorCount ← readLength magic
  let metadataCount ← readLength magic
  check (.invalidGguf s!"tensor_count {tensorCount} exceeds max {ggufMaxArrayElements}")
    (decide (tensorCount ≤ ggufMaxArrayElements))
  check (.invalidGguf s!"metadata_count {metadataCount} exceeds max {ggufMaxArrayElements}")
    (decide (metadataCount ≤ ggufMaxArrayElements))
  let lengthSize := magic.lengthPrefixSize
  let needed := usizeSaturatingAdd (usizeSaturatingMul metadataCount (lengthSize + 4 + 1))
    (usizeSaturatingMul tensorCount (lengthSize + 4 + 4 + 8))
  let remaining := (← get).remaining
  check (.invalidGguf (s!"header declares {tensorCount} tensors and {metadataCount} metadata entries, "
    ++ s!"needs at least {needed} bytes, only {remaining} remain")) (decide (needed ≤ remaining))
  reserveTable env "metadata" metadataCount
  let metadata ← repeatFrom (readMetadataEntry magic) metadataCount KeyedTable.empty
  reserveTable env "tensor" tensorCount
  let tensors ← repeatFrom (readTensorEntry magic) tensorCount KeyedTable.empty
  return ⟨magic, metadata, tensors⟩

def defaultAlignment : ℕ := 32

/-- The alignment that the metadata declares.  A `u64` always fits a 64-bit `usize`. -/
def alignmentOf (metadata : StringMap Value) : ℕ :=
  match (metadata.find? "general.alignment").bind fun entry => entry.2.asU64 with
  | some v => v.toNat
  | none => defaultAlignment

structure GgufModel where
  mmap : Mmap
  metadata : StringMap Value
  tensors : StringMap TensorInfo
  tensorDataOffset : ℕ
  magic : VersionedMagic

namespace GgufModel

def tensorBytes (model : GgufModel) (name : String) (info : TensorInfo) :
    Outcome GgufError Bytes := do
  let len ← info.byteLen
  let start ← Outcome.ofOption (.invalidGguf s!"tensor '{name}' offset overflows")
    (usizeAdd model.tensorDataOffset info.offset)
  let stop ← Outcome.ofOption (.invalidGguf s!"tensor '{name}' byte length overflows")
    (usizeAdd start len)
  let size := model.mmap.bytes.length
  Outcome.ensure (.invalidGguf
    s!"tensor '{name}' needs bytes [{start}, {stop}), file size is {size}") (decide (stop ≤ size))
  Outcome.unwrap (slice start stop model.mmap.bytes)

/-- A tensor: `TensorView`. -/
structure TensorView where
  dtype : GgmlDType
  shape : List ℕ
  rawBytes : Bytes

def tensor (model : GgufModel) (name : String) : Outcome GgufError TensorView := do
  let (_, info) ← Outcome.ofOption (.missingTensor name) (model.tensors.find? name)
  let rawBytes ← model.tensorBytes name info
  return ⟨info.dtype, info.shape, rawBytes⟩

/-- The last loop of `from_mmap`: every tensor must lie in the file. -/
def validateTensors (model : GgufModel) : List (String × TensorInfo) → Outcome GgufError Unit
  | [] => .ok ()
  | (name, info) :: rows => do
      let _ ← model.tensorBytes name info
      model.validateTensors rows

end GgufModel

/-- `GgufModel::from_mmap`.  The product that rounds up to the alignment is unchecked. -/
def fromMmap (env : ParseEnv) (mmap : Mmap) : Outcome GgufError GgufModel := do
  let (header, reader) ← readHeader env (Reader.new mmap.bytes)
  let alignment := alignmentOf header.metadata
  Outcome.ensure (.invalidGguf "general.alignment must be non-zero") (alignment != 0)
  let blocks ← Outcome.unwrap (usizeDivCeil reader.pos alignment)
  let tensorDataOffset ← Outcome.unwrap (usizeMul blocks alignment)
  let size := mmap.bytes.length
  Outcome.ensure (.invalidGguf
    s!"tensor data offset {tensorDataOffset} exceeds file size {size}")
    (decide (tensorDataOffset ≤ size))
  let model : GgufModel := ⟨mmap, header.metadata, header.tensors, tensorDataOffset, header.magic⟩
  model.validateTensors (env.visit model.tensors.rows)
  return model

/-! ### Reading moves forward and stays in the file -/

/-- A later reader is on the same file, and in the file if the earlier one was. -/
instance : Preorder Reader where
  le r r' := r'.data = r.data ∧ r.pos ≤ r'.pos ∧ (r.pos ≤ r.data.length → r'.pos ≤ r.data.length)
  le_refl r := ⟨rfl, le_rfl, id⟩
  le_trans r s t hrs hst := by
    obtain ⟨hdata, hpos, hin⟩ := hrs
    obtain ⟨hdata', hpos', hin'⟩ := hst
    rw [hdata] at hin'
    exact ⟨hdata'.trans hdata, hpos.trans hpos', fun h => hin' (hin h)⟩

theorem Reader.le_iff {r r' : Reader} : r ≤ r' ↔
    r'.data = r.data ∧ r.pos ≤ r'.pos ∧ (r.pos ≤ r.data.length → r'.pos ≤ r.data.length) := Iff.rfl

/-- What `Reader.bytes` does: it refuses, or it gives the bytes of the range. -/
theorem Reader.bytes_cases (len : ℕ) (r : Reader) :
    (∃ e, Reader.bytes len r = .error e) ∨
      ∃ part, Reader.bytes len r = .ok (part, ⟨r.data, r.pos + len⟩) ∧ part.length = len ∧
        r.pos + len ≤ r.data.length := by
  rcases lt_or_ge (r.pos + len) (2 ^ 64) with hfits | hover
  · have hadd : usizeAdd r.pos len = some (r.pos + len) := usizeAdd_eq_some_iff.2 ⟨rfl, hfits⟩
    rcases le_or_gt (r.pos + len) r.data.length with hin | hout
    · have hslice := slice_eq_some (Nat.le_add_right r.pos len) hin
      refine .inr ⟨_, ?_, (length_slice hslice).trans (by omega), hin⟩
      simp [bytes, hadd, hin, hslice, Outcome.unwrap]
    · left
      simp [bytes, hadd, not_le.2 hout, Outcome.ensure]
  · have hadd : usizeAdd r.pos len = none := if_neg (not_lt.2 hover)
    left
    simp [bytes, hadd, Outcome.ofOption]

theorem Reader.bytes_forward (len : ℕ) :
    Forward (Reader.bytes len) fun part => part.length = len := by
  intro r
  rcases Reader.bytes_cases len r with ⟨e, hrun⟩ | ⟨part, hrun, hlen, hin⟩
  · rw [hrun]
    exact ⟨Outcome.safe_error e, fun a t h => by cases h⟩
  · rw [hrun]
    refine ⟨Outcome.safe_ok _, fun a t h => ?_⟩
    cases h
    exact ⟨⟨rfl, Nat.le_add_right _ _, fun _ => hin⟩, hlen⟩

theorem Reader.array_forward (n : ℕ) : Forward (Reader.array n) fun _ => True := by
  refine (Reader.bytes_forward n).bind fun part hlen => ?_
  rw [if_pos hlen]
  exact Forward.of_lift (Outcome.safe_ok _) fun _ _ => trivial

theorem Reader.u8_forward : Forward Reader.u8 fun _ => True := by
  refine (Reader.bytes_forward 1).bind fun part hlen => ?_
  have hhead : part[0]? = some part[0] := List.getElem?_eq_getElem _
  rw [hhead]
  exact Forward.of_lift (Outcome.safe_ok _) fun _ _ => trivial

theorem forward_map {α β : Type} {m : Read α} (h : Forward m fun _ => True) (f : α → β) :
    Forward (do return f (← m)) fun _ => True :=
  h.bind fun _ _ => Forward.of_pure trivial

theorem Reader.u32_forward : Forward Reader.u32 fun _ => True :=
  forward_map (Reader.array_forward 4) _

theorem Reader.u64_forward : Forward Reader.u64 fun _ => True :=
  forward_map (Reader.array_forward 8) _

theorem Reader.usizeU64_forward : Forward Reader.usizeU64 fun _ => True :=
  Reader.u64_forward.bind fun _ _ => (Forward.of_check _ _).bind fun _ _ => Forward.of_pure trivial

theorem VersionedMagic.read_forward : Forward VersionedMagic.read fun _ => True := by
  refine Reader.u32_forward.bind fun magic _ => (Forward.of_check _ _).bind fun _ _ => ?_
  refine Reader.u32_forward.bind fun version _ => ?_
  split_ifs
  · exact Forward.of_pure trivial
  · exact Forward.of_pure trivial
  · exact Forward.of_pure trivial
  · exact Forward.of_fail _

theorem readLength_forward (magic : VersionedMagic) : Forward (readLength magic) fun _ => True := by
  cases magic with
  | ggufV1 => exact forward_map Reader.u32_forward _
  | ggufV2 => exact Reader.usizeU64_forward
  | ggufV3 => exact Reader.usizeU64_forward

theorem lastNonZero_lt {bytes : Bytes} {idx : ℕ} (h : lastNonZero bytes = some idx) :
    idx < bytes.length := by
  unfold lastNonZero at h
  obtain ⟨i, hfind, rfl⟩ := Option.map_eq_some_iff.1 h
  obtain ⟨hi, _⟩ := List.findIdx?_eq_some_iff_getElem.1 hfind
  rw [List.length_reverse] at hi
  omega

theorem safe_trimZeros (bytes : Bytes) : (trimZeros bytes).Safe := by
  unfold trimZeros
  cases hlast : lastNonZero bytes with
  | none => exact Outcome.safe_ok _
  | some idx =>
    have hidx := lastNonZero_lt hlast
    simp only [slice_eq_some (Nat.zero_le (idx + 1)) hidx]
    exact Outcome.safe_ok _

theorem readString_forward (magic : VersionedMagic) : Forward (readString magic) fun _ => True := by
  refine (readLength_forward magic).bind fun len _ => (Forward.of_check _ _).bind fun _ _ => ?_
  refine (Reader.bytes_forward len).bind fun bytes _ => ?_
  exact (Forward.of_lift (safe_trimZeros bytes) fun _ _ => trivial).bind fun _ _ =>
    Forward.of_pure trivial

/-! ### Values are nested up to the maximal depth -/

theorem Value.heightBelow_le {items : List Value} {n : ℕ} (h : ∀ item ∈ items, item.height < n) :
    Value.heightBelow items ≤ n := by
  induction items with
  | nil => exact Nat.zero_le n
  | cons item items ih =>
    have hitem : item.height < n := h item List.mem_cons_self
    have hitems := ih fun other hother => h other (List.mem_cons_of_mem _ hother)
    rw [Value.heightBelow]
    omega

theorem safe_valueTypeFromU32 (v : UInt32) : (ValueType.fromU32 v).Safe := by
  unfold ValueType.fromU32
  split <;> first | exact Outcome.safe_ok _ | exact Outcome.safe_error _

theorem forward_withCapacity {elemSize len : ℕ} (h : elemSize * len < 2 ^ 63) :
    Forward (liftOutcome (vecWithCapacity elemSize len) : Read Unit) fun _ => True := by
  rw [vecWithCapacity, if_pos h]
  exact Forward.of_lift (Outcome.safe_ok _) fun _ _ => trivial

theorem forward_pushes {α : Type} {m : Read α} {P : α → Prop} (h : Forward m P) (n : ℕ) :
    Forward (repeatFrom (fun items => do return items ++ [← m]) n []) fun items => ∀ a ∈ items, P a := by
  refine Forward.of_repeatFrom (fun items hitems => h.bind fun a ha => Forward.of_pure ?_) n ?_
  · intro b hb
    rcases List.mem_append.1 hb with hold | hnew
    · exact hitems b hold
    · rw [List.mem_singleton.1 hnew]
      exact ha
  · exact fun a ha => absurd ha List.not_mem_nil

/-- One level of a value, given that its items are read safely with fewer levels. -/
theorem readBody_forward {readItem : ValueType → Read Value} {levels : ℕ}
    (hitem : ∀ elemType, Forward (readItem elemType) fun v => v.height < levels)
    (valueType : ValueType) (magic : VersionedMagic) :
    Forward (readBody readItem valueType magic) fun v => v.height < levels + 1 := by
  have hscalar : ∀ {α : Type} {m : Read α} {f : α → Value}, Forward m (fun _ => True) →
      (∀ a, (f a).height = 0) →
      Forward (do return f (← m)) fun v => v.height < levels + 1 := by
    intro α m f hm hf
    refine hm.bind fun a _ => Forward.of_pure ?_
    rw [hf a]
    exact Nat.succ_pos levels
  cases valueType with
  | u8 => exact hscalar Reader.u8_forward fun _ => rfl
  | i8 => exact hscalar (forward_map Reader.u8_forward _) fun _ => rfl
  | u16 => exact hscalar (forward_map (Reader.array_forward 2) _) fun _ => rfl
  | i16 => exact hscalar (forward_map (Reader.array_forward 2) _) fun _ => rfl
  | u32 => exact hscalar Reader.u32_forward fun _ => rfl
  | i32 => exact hscalar (forward_map (Reader.array_forward 4) _) fun _ => rfl
  | u64 => exact hscalar Reader.u64_forward fun _ => rfl
  | i64 => exact hscalar (forward_map (Reader.array_forward 8) _) fun _ => rfl
  | f32 => exact hscalar Reader.u32_forward fun _ => rfl
  | f64 => exact hscalar Reader.u64_forward fun _ => rfl
  | bool =>
    refine Reader.u8_forward.bind fun b _ => (Forward.of_check _ _).bind fun _ _ => ?_
    exact Forward.of_pure (Nat.succ_pos levels)
  | string => exact hscalar (readString_forward magic) fun _ => rfl
  | array =>
    refine Reader.u32_forward.bind fun code _ => ?_
    refine (Forward.of_lift (safe_valueTypeFromU32 code) fun _ _ => trivial).bind
      fun elemType _ => ?_
    refine (readLength_forward magic).bind fun len _ => ?_
    refine (Forward.of_check _ _).bind fun _ hlen => Forward.of_get.bind fun reader _ => ?_
    refine (Forward.of_check _ _).bind fun _ _ => ?_
    have hcapacity : valueSize * len < 2 ^ 63 := by
      have := of_decide_eq_true hlen
      unfold ggufMaxArrayElements at this
      unfold valueSize
      omega
    refine (forward_withCapacity hcapacity).bind fun _ _ => ?_
    refine (forward_pushes (hitem elemType) len).bind fun items hitems => Forward.of_pure ?_
    exact Nat.lt_succ_of_le (Value.heightBelow_le hitems)

theorem readWithin_forward (levels : ℕ) (valueType : ValueType) (magic : VersionedMagic) :
    Forward (readWithin levels valueType magic) fun v => v.height < levels := by
  induction levels generalizing valueType with
  | zero => exact Forward.of_fail _
  | succ levels ih => exact readBody_forward (fun elemType => ih elemType) valueType magic

/-- **Values are nested no deeper than the maximum**, whatever the file says. -/
theorem Value.read_forward (valueType : ValueType) (magic : VersionedMagic) (depth : ℕ) :
    Forward (Value.read valueType magic depth) fun v => v.height ≤ ggufMaxValueDepth := by
  refine (readWithin_forward _ valueType magic).mono fun v hv => ?_
  omega

/-- `Value::read` as the source writes it: past the maximal depth it refuses, else its items are read
one level deeper. -/
theorem Value.read_eq (valueType : ValueType) (magic : VersionedMagic) (depth : ℕ) :
    Value.read valueType magic depth =
      if ggufMaxValueDepth < depth then
        failWith (.invalidGguf s!"value nesting depth exceeds max {ggufMaxValueDepth}")
      else readBody (fun elemType => Value.read elemType magic (depth + 1)) valueType magic := by
  unfold Value.read
  rcases lt_or_ge ggufMaxValueDepth depth with hdeep | hshallow
  · rw [if_pos hdeep, Nat.sub_eq_zero_of_le hdeep]
    rfl
  · rw [if_neg (not_lt.2 hshallow), Nat.succ_sub hshallow, Nat.succ_sub_succ]
    rfl

/-! ### The header -/

theorem safe_dtypeFromU32 (u : UInt32) : (GgmlDType.fromU32 u).Safe := by
  unfold GgmlDType.fromU32
  split <;> first | exact Outcome.safe_ok _ | exact Outcome.safe_error _

/-- The values of a metadata table are nested no deeper than the maximum. -/
def ShallowValues (metadata : StringMap Value) : Prop :=
  ∀ entry ∈ metadata.rows, entry.2.height ≤ ggufMaxValueDepth

theorem readMetadataEntry_forward (magic : VersionedMagic) {metadata : StringMap Value}
    (h : ShallowValues metadata) :
    Forward (readMetadataEntry magic metadata) ShallowValues := by
  refine (readString_forward magic).bind fun key _ => Reader.u32_forward.bind fun code _ => ?_
  refine (Forward.of_lift (safe_valueTypeFromU32 code) fun _ _ => trivial).bind
    fun valueType _ => ?_
  refine (Value.read_forward valueType magic 0).bind fun value hvalue => Forward.of_pure ?_
  intro entry hentry
  rcases KeyedTable.mem_upsert.1 hentry with rfl | ⟨hold, _⟩
  · exact hvalue
  · exact h entry hold

theorem readTensorEntry_forward (magic : VersionedMagic) (tensors : StringMap TensorInfo) :
    Forward (readTensorEntry magic tensors) fun _ => True := by
  refine (readString_forward magic).bind fun name _ => Reader.u32_forward.bind fun nDims _ => ?_
  refine (Forward.of_check _ _).bind fun _ hdims => ?_
  have hcapacity : 8 * nDims.toNat < 2 ^ 63 := by
    have := of_decide_eq_true hdims
    unfold ggufMaxTensorDims at this
    omega
  refine (forward_withCapacity hcapacity).bind fun _ _ => ?_
  refine (forward_pushes (readLength_forward magic) nDims.toNat).bind fun shape _ => ?_
  refine Reader.u32_forward.bind fun code _ => ?_
  refine (Forward.of_lift (safe_dtypeFromU32 code) fun _ _ => trivial).bind fun dtype _ => ?_
  exact Reader.usizeU64_forward.bind fun offset _ => Forward.of_pure trivial

theorem reserveTable_forward (env : ParseEnv) (table : String) (count : ℕ) :
    Forward (reserveTable env table count) fun _ => True := by
  unfold reserveTable
  cases env.tryReserve count with
  | none => exact Forward.of_pure trivial
  | some e => exact Forward.of_fail _

theorem readHeader_forward (env : ParseEnv) :
    Forward (readHeader env) fun header => ShallowValues header.metadata := by
  refine VersionedMagic.read_forward.bind fun magic _ => ?_
  refine (readLength_forward magic).bind fun tensorCount _ => ?_
  refine (readLength_forward magic).bind fun metadataCount _ => ?_
  refine (Forward.of_check _ _).bind fun _ _ => (Forward.of_check _ _).bind fun _ _ => ?_
  refine Forward.of_get.bind fun reader _ => (Forward.of_check _ _).bind fun _ _ => ?_
  refine (reserveTable_forward env _ _).bind fun _ _ => ?_
  have hempty : ShallowValues KeyedTable.empty := fun entry h => absurd h List.not_mem_nil
  refine (Forward.of_repeatFrom (fun _ h => readMetadataEntry_forward magic h) _ hempty).bind
    fun metadata hmetadata => ?_
  refine (reserveTable_forward env _ _).bind fun _ _ => ?_
  have htensors := @Forward.of_repeatFrom _ GgufError (StringMap TensorInfo) _ (fun _ => True) _
    (fun tensors _ => readTensorEntry_forward magic tensors) tensorCount KeyedTable.empty trivial
  exact htensors.bind fun tensors _ => Forward.of_pure hmetadata

/-! ### Tensors lie in the file -/

theorem safe_byteLen (info : TensorInfo) : info.byteLen.Safe := by
  unfold TensorInfo.byteLen checkedElementCount
  refine (Outcome.safe_foldlM (fun _ _ => Outcome.safe_ofOption _ _) _ _).bind fun elems _ => ?_
  exact (Outcome.safe_ensure _ _).bind fun _ _ => Outcome.safe_ofOption _ _

/-- The number of bytes of a tensor is what `dequantize` requires of a tensor of its shape. -/
theorem validateRaw_of_byteLen {info : TensorInfo} {len : ℕ} (h : info.byteLen = .ok len)
    {raw : Bytes} (hraw : raw.length = len) :
    ∃ elems, checkedElementCount info.shape = .ok elems ∧ validateRaw info.dtype raw elems = .ok () := by
  unfold TensorInfo.byteLen at h
  obtain ⟨elems, helems, h⟩ := Outcome.bind_eq_ok_iff.1 h
  obtain ⟨_, hblocks, h⟩ := Outcome.bind_eq_ok_iff.1 h
  have hlen := Outcome.ofOption_eq_ok_iff.1 h
  have hdivides := Outcome.ensure_eq_ok_iff.1 hblocks
  refine ⟨elems, helems, ?_⟩
  unfold validateRaw
  simp [hdivides, hlen, hraw, Outcome.unwrap]

namespace GgufModel

theorem safe_tensorBytes (model : GgufModel) (name : String) (info : TensorInfo) :
    (model.tensorBytes name info).Safe := by
  unfold tensorBytes
  refine (safe_byteLen info).bind fun len _ => (Outcome.safe_ofOption _ _).bind fun start _ => ?_
  refine (Outcome.safe_ofOption _ _).bind fun stop hstop => ?_
  refine (Outcome.safe_ensure _ _).bind fun _ hin => ?_
  have hle := of_decide_eq_true (Outcome.ensure_eq_ok_iff.1 hin)
  obtain ⟨hsum, _⟩ := usizeAdd_eq_some_iff.1 (Outcome.ofOption_eq_ok_iff.1 hstop)
  rw [slice_eq_some (by omega) hle]
  exact Outcome.safe_ok _

theorem tensorBytes_eq_ok {model : GgufModel} {name : String} {info : TensorInfo} {raw : Bytes}
    (h : model.tensorBytes name info = .ok raw) :
    ∃ len, info.byteLen = .ok len ∧
      model.tensorDataOffset + info.offset + len ≤ model.mmap.bytes.length ∧
      slice (model.tensorDataOffset + info.offset) (model.tensorDataOffset + info.offset + len)
        model.mmap.bytes = some raw ∧ raw.length = len := by
  unfold tensorBytes at h
  obtain ⟨len, hlen, h⟩ := Outcome.bind_eq_ok_iff.1 h
  obtain ⟨start, hstart, h⟩ := Outcome.bind_eq_ok_iff.1 h
  obtain ⟨stop, hstop, h⟩ := Outcome.bind_eq_ok_iff.1 h
  obtain ⟨_, hin, h⟩ := Outcome.bind_eq_ok_iff.1 h
  obtain ⟨rfl, _⟩ := usizeAdd_eq_some_iff.1 (Outcome.ofOption_eq_ok_iff.1 hstart)
  obtain ⟨rfl, _⟩ := usizeAdd_eq_some_iff.1 (Outcome.ofOption_eq_ok_iff.1 hstop)
  have hslice := Outcome.unwrap_eq_ok_iff.1 h
  refine ⟨len, hlen, of_decide_eq_true (Outcome.ensure_eq_ok_iff.1 hin), hslice, ?_⟩
  rw [length_slice hslice]
  omega

theorem safe_validateTensors (model : GgufModel) (rows : List (String × TensorInfo)) :
    (model.validateTensors rows).Safe := by
  induction rows with
  | nil => exact Outcome.safe_ok _
  | cons row rows ih => exact (model.safe_tensorBytes row.1 row.2).bind fun _ _ => ih

theorem tensorBytes_of_validateTensors {model : GgufModel} {rows : List (String × TensorInfo)}
    (h : model.validateTensors rows = .ok ()) {row : String × TensorInfo} (hrow : row ∈ rows) :
    ∃ raw, model.tensorBytes row.1 row.2 = .ok raw := by
  induction rows with
  | nil => exact absurd hrow List.not_mem_nil
  | cons first rows ih =>
    obtain ⟨raw, hraw, hrest⟩ := Outcome.bind_eq_ok_iff.1 h
    rcases List.mem_cons.1 hrow with rfl | hmem
    · exact ⟨raw, hraw⟩
    · exact ih hrest hmem

end GgufModel

/-! ### The reader is safe on every file -/

theorem alignmentOf_lt (metadata : StringMap Value) : alignmentOf metadata < 2 ^ 64 := by
  unfold alignmentOf
  split
  · exact UInt64.toNat_lt _
  · decide

/-- Rounding a position in a file up to an alignment does not overflow: the result is below twice the
position, or it is the alignment itself. -/
theorem usizeMul_divCeil {pos alignment blocks : ℕ} (hpos : pos < 2 ^ 63)
    (halignment : alignment < 2 ^ 64) (h : usizeDivCeil pos alignment = some blocks) :
    usizeMul blocks alignment = some (blocks * alignment) := by
  obtain ⟨_, hlt⟩ := usizeDivCeil_mul h
  refine usizeMul_eq_some_iff.2 ⟨rfl, ?_⟩
  rcases le_or_gt alignment pos with hsmall | hlarge
  · omega
  · have htwo : blocks * alignment < 2 * alignment := by omega
    have hone : blocks ≤ 1 := Nat.le_of_lt_succ (Nat.lt_of_mul_lt_mul_right htwo)
    calc blocks * alignment ≤ 1 * alignment := Nat.mul_le_mul_right _ hone
      _ < 2 ^ 64 := by omega

/-- What a model that was accepted guarantees about its file. -/
structure GgufSpec (mmap : Mmap) (model : GgufModel) : Prop where
  /-- The model is about the file. -/
  mmap_eq : model.mmap = mmap
  /-- Metadata values are nested no deeper than 64. -/
  shallow : ∀ entry ∈ model.metadata.rows, entry.2.height ≤ 64
  /-- The tensor data starts at a multiple of the alignment. -/
  aligned : alignmentOf model.metadata ∣ model.tensorDataOffset
  /-- The tensor data starts in the file. -/
  offset_le : model.tensorDataOffset ≤ mmap.bytes.length
  /-- Every listed tensor is found, and its bytes are a range of the file, as long as `dequantize`
  requires for its shape and element type. -/
  tensors : ∀ name info, (name, info) ∈ model.tensors.rows →
    ∃ len raw elems, info.byteLen = .ok len ∧
      model.tensorDataOffset + info.offset + len ≤ mmap.bytes.length ∧
      slice (model.tensorDataOffset + info.offset) (model.tensorDataOffset + info.offset + len)
        mmap.bytes = some raw ∧
      model.tensor name = .ok ⟨info.dtype, info.shape, raw⟩ ∧ raw.length = len ∧
      checkedElementCount info.shape = .ok elems ∧ validateRaw info.dtype raw elems = .ok ()

theorem pos_of_readHeader {env : ParseEnv} {bytes : Bytes} {header : GgufHeader} {reader : Reader}
    (h : readHeader env (Reader.new bytes) = .ok (header, reader)) :
    reader.pos ≤ bytes.length ∧ ShallowValues header.metadata := by
  obtain ⟨hle, hshallow⟩ := (readHeader_forward env (Reader.new bytes)).2 header reader h
  exact ⟨(Reader.le_iff.1 hle).2.2 (Nat.zero_le _), hshallow⟩

theorem tensorDataOffset_of_pos {pos alignment : ℕ} (hpos : pos < 2 ^ 63)
    (halignment : alignment < 2 ^ 64) (hne : alignment ≠ 0) :
    ∃ blocks, usizeDivCeil pos alignment = some blocks ∧
      usizeMul blocks alignment = some (blocks * alignment) := by
  obtain ⟨blocks, hblocks⟩ : ∃ blocks, usizeDivCeil pos alignment = some blocks :=
    ⟨_, if_neg hne⟩
  exact ⟨blocks, hblocks, usizeMul_divCeil hpos halignment hblocks⟩

theorem safe_fromMmap (env : ParseEnv) (mmap : Mmap) : (fromMmap env mmap).Safe := by
  unfold fromMmap
  refine Outcome.Safe.bind (readHeader_forward env _).1 fun ⟨header, reader⟩ hheader => ?_
  obtain ⟨hpos, _⟩ := pos_of_readHeader hheader
  refine (Outcome.safe_ensure _ _).bind fun _ hnonzero => ?_
  have hne : alignmentOf header.metadata ≠ 0 := by
    simpa using Outcome.ensure_eq_ok_iff.1 hnonzero
  obtain ⟨blocks, hblocks, hoffset⟩ := tensorDataOffset_of_pos
    (lt_of_le_of_lt hpos mmap.length_lt) (alignmentOf_lt header.metadata) hne
  simp only [hblocks, Outcome.unwrap, Outcome.bind_ok, hoffset]
  refine (Outcome.safe_ensure _ _).bind fun _ _ => ?_
  exact (GgufModel.safe_validateTensors _ _).bind fun _ _ => Outcome.safe_ok _

theorem fromMmap_spec {env : ParseEnv} {mmap : Mmap} {model : GgufModel}
    (h : fromMmap env mmap = .ok model) : GgufSpec mmap model := by
  unfold fromMmap at h
  obtain ⟨⟨header, reader⟩, hheader, h⟩ := Outcome.bind_eq_ok_iff.1 h
  obtain ⟨_, hnonzero, h⟩ := Outcome.bind_eq_ok_iff.1 h
  obtain ⟨blocks, hblocks, h⟩ := Outcome.bind_eq_ok_iff.1 h
  obtain ⟨offset, hoffset, h⟩ := Outcome.bind_eq_ok_iff.1 h
  obtain ⟨_, hin, h⟩ := Outcome.bind_eq_ok_iff.1 h
  obtain ⟨_, hvalid, h⟩ := Outcome.bind_eq_ok_iff.1 h
  obtain ⟨_, hshallow⟩ := pos_of_readHeader hheader
  obtain ⟨hproduct, _⟩ := usizeMul_eq_some_iff.1 (Outcome.unwrap_eq_ok_iff.1 hoffset)
  cases h
  refine ⟨rfl, hshallow, ?_, of_decide_eq_true (Outcome.ensure_eq_ok_iff.1 hin), ?_⟩
  · exact hproduct ▸ Nat.dvd_mul_left _ _
  · intro name info hmem
    have hvisited := (env.visit_perm header.tensors.rows).mem_iff.2 hmem
    obtain ⟨raw, hraw⟩ := GgufModel.tensorBytes_of_validateTensors hvalid hvisited
    obtain ⟨len, hlen, hrange, hslice, hrawlen⟩ := GgufModel.tensorBytes_eq_ok hraw
    obtain ⟨elems, helems, hrequired⟩ := validateRaw_of_byteLen hlen hrawlen
    refine ⟨len, raw, elems, hlen, hrange, hslice, ?_, hrawlen, helems, hrequired⟩
    have hfind : header.tensors.find? name = some (name, info) := KeyedTable.find?_of_mem hmem
    simp [GgufModel.tensor, hfind, hraw]

/-- **The reader is safe on every file.**  It never panics, reads no value at a depth past 64, and a
model that it accepts lies in the file: the tensor data starts at a multiple of the alignment, and
every listed tensor can be taken from the file with the bytes that its shape requires. -/
theorem gguf_reader_safe (env : ParseEnv) (mmap : Mmap) :
    (fromMmap env mmap).Safe ∧
      (∀ valueType magic depth reader, 64 < depth →
        ∃ e, Value.read valueType magic depth reader = .error e) ∧
      ∀ model, fromMmap env mmap = .ok model → GgufSpec mmap model := by
  refine ⟨safe_fromMmap env mmap, ?_, fun model h => fromMmap_spec h⟩
  intro valueType magic depth reader hdeep
  have hpast : ggufMaxValueDepth < depth := hdeep
  rw [Value.read_eq, if_pos hpast]
  exact ⟨_, rfl⟩

/-- An allocator that never fails, and tables visited in the order of insertion. -/
def plainEnv : ParseEnv := ⟨fun _ => none, id, fun _ => List.Perm.refl _⟩

/-- A file of version 3 with one tensor `t` of one `F32` element: 24 bytes of magic and counts, the row
of the tensor, padding to 64 bytes and the four bytes of the element. -/
def oneTensorFile : Mmap where
  bytes :=
    [0x47, 0x47, 0x55, 0x46, 3, 0, 0, 0] ++ [1, 0, 0, 0, 0, 0, 0, 0] ++ [0, 0, 0, 0, 0, 0, 0, 0] ++
      [1, 0, 0, 0, 0, 0, 0, 0, 0x74] ++ [1, 0, 0, 0] ++ [1, 0, 0, 0, 0, 0, 0, 0] ++ [0, 0, 0, 0] ++
      [0, 0, 0, 0, 0, 0, 0, 0] ++ List.replicate 7 0 ++ [0, 0, 128, 63]
  length_lt := by decide

/-- The file with one tensor is accepted, with its tensor data at offset 64. -/
theorem gguf_reader_safe_one :
    ∃ model, fromMmap plainEnv oneTensorFile = .ok model ∧ model.tensorDataOffset = 64 ∧
      model.tensors.rows.map Prod.fst = ["t"] ∧ GgufSpec oneTensorFile model := by
  have hrun : (match fromMmap plainEnv oneTensorFile with
      | .ok model => decide (model.tensorDataOffset = 64 ∧ model.tensors.rows.map Prod.fst = ["t"])
      | _ => false) = true := by
    decide +kernel
  cases hmodel : fromMmap plainEnv oneTensorFile with
  | ok model =>
    rw [hmodel] at hrun
    obtain ⟨hoffset, hnames⟩ := of_decide_eq_true hrun
    exact ⟨model, rfl, hoffset, hnames,
      (gguf_reader_safe plainEnv oneTensorFile).2.2 model hmodel⟩
  | error e =>
    rw [hmodel] at hrun
    cases hrun
  | panic =>
    rw [hmodel] at hrun
    cases hrun

end Greppy
