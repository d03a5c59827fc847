/-
**The GGUF layout, and the files that the reader accepts.**

The layout writes a model down as a file: the magic and the version, the two counts, the metadata, the
tensor table, zeros up to a multiple of the alignment, and the bytes of the tensors.  Counts, lengths
and dimensions take four bytes in version 1 and eight in the later ones.  A datum is written without
its type; the entry or the array that holds it gives the type, so `Datum` is a family over the types,
and an array can only be built from items of one type.

The reader reads the layout back part by part (`Consumes`).  Before it allocates, it compares the file
with an estimate of what the declared entries take at least; these estimates are bounds on what the
layout writes (`minDiskSize_le_length`, `length_writeEntry`, `length_writeTensor`).
-/

import Greppy.Consumes
import Greppy.Gguf

set_option autoImplicit false

namespace Greppy

/-! ### Numbers, lengths and strings -/

/-- The first `k` bytes of a number, the lowest first. -/
def leBytes : ℕ → ℕ → Bytes
  | 0, _ => []
  | k + 1, n => UInt8.ofNat n :: leBytes k (n / 256)

@[simp] theorem length_leBytes (k n : ℕ) : (leBytes k n).length = k := by
  induction k generalizing n with
  | zero => rfl
  | succ k ih => rw [leBytes, List.length_cons, ih]

theorem leNat_leBytes {k n : ℕ} (h : n < 256 ^ k) : Reader.leNat (leBytes k n) = n := by
  induction k generalizing n with
  | zero =>
    rw [Nat.pow_zero] at h
    obtain rfl : n = 0 := by omega
    rfl
  | succ k ih =>
    rw [Nat.pow_succ] at h
    have hrest : Reader.leNat (leBytes k (n / 256)) = n / 256 := ih (by omega)
    have hbyte : (UInt8.ofNat n).toNat = n % 256 := UInt8.toNat_ofNat'
    have hcons : Reader.leNat (leBytes (k + 1) n) =
        (UInt8.ofNat n).toNat + 256 * Reader.leNat (leBytes k (n / 256)) := rfl
    rw [hcons, hrest, hbyte]
    omega

/-- A length or a dimension of a file. -/
def VersionedMagic.writeLength (magic : VersionedMagic) (n : ℕ) : Bytes :=
  leBytes magic.lengthPrefixSize n

/-- A string of a file: short enough, and without zeros at its end. -/
structure GgufText where
  text : String
  length_le : (Utf8.encode text.toList).length ≤ ggufMaxStringLength
  no_zero : text.toList.getLast? ≠ some (Char.ofNat 0)

namespace GgufText

def bytes (s : GgufText) : Bytes := Utf8.encode s.text.toList

def write (magic : VersionedMagic) (s : GgufText) : Bytes :=
  magic.writeLength s.bytes.length ++ s.bytes

end GgufText

/-! ### Metadata -/

def ValueType.code : ValueType → ℕ
  | .u8 => 0
  | .i8 => 1
  | .u16 => 2
  | .i16 => 3
  | .u32 => 4
  | .i32 => 5
  | .f32 => 6
  | .bool => 7
  | .string => 8
  | .array => 9
  | .u64 => 10
  | .i64 => 11
  | .f64 => 12

mutual

inductive Datum : ValueType → Type
  | u8 (v : UInt8) : Datum .u8
  | i8 (v : Int8) : Datum .i8
  | u16 (v : UInt16) : Datum .u16
  | i16 (v : Int16) : Datum .i16
  | u32 (v : UInt32) : Datum .u32
  | i32 (v : Int32) : Datum .i32
  | u64 (v : UInt64) : Datum .u64
  | i64 (v : Int64) : Datum .i64
  | f32 (bits : UInt32) : Datum .f32
  | f64 (bits : UInt64) : Datum .f64
  | bool (v : Bool) : Datum .bool
  | string (s : GgufText) : Datum .string
  | array {elemType : ValueType} (items : DatumList elemType) : Datum .array

/-- The items of an array, all of one type. -/
inductive DatumList : ValueType → Type
  | nil {elemType : ValueType} : DatumList elemType
  | cons {elemType : ValueType} (item : Datum elemType) (items : DatumList elemType) :
      DatumList elemType

end

namespace DatumList

def toList {elemType : ValueType} : DatumList elemType → List (Datum elemType)
  | nil => []
  | cons item items => item :: items.toList

end DatumList

mutual

/-- The bytes of a datum.  An array starts with the type of its items and their number. -/
def Datum.write (magic : VersionedMagic) {valueType : ValueType} : Datum valueType → Bytes
  | .u8 v => [v]
  | .i8 v => [v.toUInt8]
  | .u16 v => leBytes 2 v.toNat
  | .i16 v => leBytes 2 v.toUInt16.toNat
  | .u32 v => leBytes 4 v.toNat
  | .i32 v => leBytes 4 v.toUInt32.toNat
  | .u64 v => leBytes 8 v.toNat
  | .i64 v => leBytes 8 v.toUInt64.toNat
  | .f32 bits => leBytes 4 bits.toNat
  | .f64 bits => leBytes 8 bits.toNat
  | .bool v => [if v then 1 else 0]
  | .string s => s.write magic
  | @Datum.array elemType items =>
    leBytes 4 elemType.code ++ (magic.writeLength items.toList.length ++ items.write magic)

/-- The bytes of the items, one after the other. -/
def DatumList.write (magic : VersionedMagic) {elemType : ValueType} :
    DatumList elemType → Bytes
  | .nil => []
  | .cons item items => item.write magic ++ items.write magic

end

mutual

def Datum.value {valueType : ValueType} : Datum valueType → Value
  | .u8 v => .u8 v
  | .i8 v => .i8 v
  | .u16 v => .u16 v
  | .i16 v => .i16 v
  | .u32 v => .u32 v
  | .i32 v => .i32 v
  | .u64 v => .u64 v
  | .i64 v => .i64 v
  | .f32 bits => .f32 bits
  | .f64 bits => .f64 bits
  | .bool v => .bool v
  | .string s => .string s.text
  | .array items => .array items.values

def DatumList.values {elemType : ValueType} : DatumList elemType → List Value
  | .nil => []
  | .cons item items => item.value :: items.values

end

mutual

/-- No array has more items than the format allows. -/
def Datum.WithinMaxima {valueType : ValueType} : Datum valueType → Prop
  | .array items => items.toList.length ≤ ggufMaxArrayElements ∧ items.WithinMaxima
  | _ => True

/-- No array among the items has more items than the format allows. -/
def DatumList.WithinMaxima {elemType : ValueType} : DatumList elemType → Prop
  | .nil => True
  | .cons item items => item.WithinMaxima ∧ items.WithinMaxima

end

namespace DatumList

variable {elemType : ValueType}

theorem write_eq (magic : VersionedMagic) : (items : DatumList elemType) →
    items.write magic = items.toList.flatMap (Datum.write magic)
  | nil => by
    rw [DatumList.write, toList, List.flatMap_nil]
  | cons item items => by
    rw [DatumList.write, toList, List.flatMap_cons, write_eq magic items]

theorem values_eq : (items : DatumList elemType) → items.values = items.toList.map Datum.value
  | nil => by
    rw [DatumList.values, toList, List.map_nil]
  | cons item items => by
    rw [DatumList.values, toList, List.map_cons, values_eq items]

theorem withinMaxima_iff : (items : DatumList elemType) →
    (items.WithinMaxima ↔ ∀ item ∈ items.toList, item.WithinMaxima)
  | nil => by
    simp only [DatumList.WithinMaxima, toList, List.not_mem_nil, false_imp_iff, implies_true]
  | cons item items => by
    simp only [DatumList.WithinMaxima, toList, List.forall_mem_cons, withinMaxima_iff items]

end DatumList

/-! ### Files -/

/-- The number of an element type in a file. -/
def GgmlDType.code : GgmlDType → ℕ
  | .F32 => 0
  | .F16 => 1
  | .Q4_0 => 2
  | .Q4_1 => 3
  | .Q5_0 => 6
  | .Q5_1 => 7
  | .Q8_0 => 8
  | .Q8_1 => 9
  | .Q2K => 10
  | .Q3K => 11
  | .Q4K => 12
  | .Q5K => 13
  | .Q6K => 14
  | .Q8K => 15
  | .BF16 => 30

def VersionedMagic.number : VersionedMagic → ℕ
  | .ggufV1 => 1
  | .ggufV2 => 2
  | .ggufV3 => 3

structure GgufEntry where
  key : GgufText
  valueType : ValueType
  datum : Datum valueType

namespace GgufEntry

/-- The key, the type of the value, and the value. -/
def write (magic : VersionedMagic) (entry : GgufEntry) : Bytes :=
  entry.key.write magic ++ (leBytes 4 entry.valueType.code ++ entry.datum.write magic)

def row (entry : GgufEntry) : String × Value := (entry.key.text, entry.datum.value)

end GgufEntry

/-- A tensor of a file, with the dimensions in the order of the file. -/
structure GgufTensor where
  name : GgufText
  dims : List ℕ
  dtype : GgmlDType
  offset : ℕ

namespace GgufTensor

/-- The name, the number of dimensions and the dimensions, the element type and the offset. -/
def write (magic : VersionedMagic) (tensor : GgufTensor) : Bytes :=
  tensor.name.write magic ++ (leBytes 4 tensor.dims.length ++
    (tensor.dims.flatMap magic.writeLength ++
      (leBytes 4 tensor.dtype.code ++ leBytes 8 tensor.offset)))

/-- The row of the tensor table: the dimensions are reversed. -/
def row (tensor : GgufTensor) : String × TensorInfo :=
  (tensor.name.text, ⟨tensor.dtype, tensor.dims.reverse, tensor.offset⟩)

/-- The bytes that the tensor takes: a number of whole blocks. -/
def size (tensor : GgufTensor) : ℕ :=
  tensor.dims.prod / tensor.dtype.blockSize * tensor.dtype.typeSize

/-- The number of elements is computed without overflow: no beginning of the shape, multiplied up,
leaves the range of a `usize`. -/
def Representable (tensor : GgufTensor) : Prop :=
  ∀ k, (tensor.dims.reverse.take k).prod < 2 ^ 64

end GgufTensor

structure GgufFile where
  version : VersionedMagic
  metadata : List GgufEntry
  tensors : List GgufTensor
  data : Bytes

namespace GgufFile

/-- The number that `general.alignment` holds, and without one the default. -/
def alignment (file : GgufFile) : ℕ :=
  match (file.metadata.find? fun entry => decide (entry.key.text = "general.alignment")).bind
      fun entry => entry.datum.value.asU64 with
  | some v => v.toNat
  | none => defaultAlignment

def header (file : GgufFile) : Bytes :=
  [0x47, 0x47, 0x55, 0x46] ++ (leBytes 4 file.version.number ++
    (file.version.writeLength file.tensors.length ++
      (file.version.writeLength file.metadata.length ++
        (file.metadata.flatMap (GgufEntry.write file.version) ++
          file.tensors.flatMap (GgufTensor.write file.version)))))

/-- Where the tensor data starts: at the first multiple of the alignment behind the header. -/
def dataOffset (file : GgufFile) : ℕ :=
  (file.header.length + (file.alignment - 1)) / file.alignment * file.alignment

def layout (file : GgufFile) : Bytes :=
  file.header ++ (List.replicate (file.dataOffset - file.header.length) 0 ++ file.data)

structure WellFormed (file : GgufFile) : Prop where
  keys_nodup : (file.metadata.map fun entry => entry.key.text).Nodup
  names_nodup : (file.tensors.map fun tensor => tensor.name.text).Nodup
  metadata_le : file.metadata.length ≤ ggufMaxArrayElements
  tensors_le : file.tensors.length ≤ ggufMaxArrayElements
  arrays_le : ∀ entry ∈ file.metadata, entry.datum.WithinMaxima
  height_le : ∀ entry ∈ file.metadata, entry.datum.value.height ≤ ggufMaxValueDepth
  alignment_ne_zero : file.alignment ≠ 0
  dims_le : ∀ tensor ∈ file.tensors, tensor.dims.length ≤ ggufMaxTensorDims
  /-- A dimension fits where the layout writes it. -/
  dim_lt : ∀ tensor ∈ file.tensors, ∀ dim ∈ tensor.dims, dim < 256 ^ file.version.lengthPrefixSize
  blocks : ∀ tensor ∈ file.tensors, tensor.dtype.blockSize ∣ tensor.dims.prod
  in_range : ∀ tensor ∈ file.tensors, tensor.offset + tensor.size ≤ file.data.length

end GgufFile

/-! ### Reading numbers and strings -/

def Reader.Left (mmap : Mmap) (reader : Reader) (rest : Bytes) : Prop :=
  reader.data = mmap.bytes ∧ reader.pos ≤ mmap.bytes.length ∧ mmap.bytes.drop reader.pos = rest

/-- A computation of the reader gives back what a part of the file was written for. -/
abbrev Reads (mmap : Mmap) {α : Type} (m : Read α) (part : Bytes) (a : α) : Prop :=
  Consumes (Reader.Left mmap) m part a

variable {mmap : Mmap}

variable {reader : Reader} {rest : Bytes} {n : ℕ}

theorem Reader.Left.length_eq (h : reader.Left mmap rest) :
    mmap.bytes.length = reader.pos + rest.length := by
  obtain ⟨_, hpos, hrest⟩ := h
  rw [← hrest, List.length_drop]
  omega

theorem Reader.Left.remaining_eq (h : reader.Left mmap rest) : reader.remaining = rest.length := by
  have hlength := h.length_eq
  rw [Reader.remaining, h.1]
  omega

theorem reads_bytes (part : Bytes) : Reads mmap (Reader.bytes part.length) part part := by
  intro reader rest h
  have hlength := h.length_eq
  have hfile := mmap.length_lt
  rw [List.length_append] at hlength
  obtain ⟨hdata, hpos, hrest⟩ := h
  have hadd : usizeAdd reader.pos part.length = some (reader.pos + part.length) :=
    usizeAdd_eq_some_iff.2 ⟨rfl, by omega⟩
  have hmmap : reader.pos + part.length ≤ mmap.bytes.length := by omega
  have hin : reader.pos + part.length ≤ reader.data.length := by
    rw [hdata]
    exact hmmap
  have hslice : slice reader.pos (reader.pos + part.length) reader.data = some part := by
    rw [slice_eq_some (Nat.le_add_right _ _) hin, List.drop_take, Nat.add_sub_cancel_left, hdata,
      hrest, List.take_left]
  refine ⟨⟨reader.data, reader.pos + part.length⟩, ?_, hdata, hmmap, ?_⟩
  · simp [Reader.bytes, hadd, hin, hslice, Outcome.unwrap]
  · rw [← List.drop_drop, hrest, List.drop_left]

theorem reads_array (part : Bytes) (h : part.length = n) :
    Reads mmap (Reader.array n) part part := by
  subst h
  have hlift : Reads mmap (liftOutcome (if part.length = part.length then .ok part else .panic))
      [] part := Consumes.of_lift (if_pos rfl)
  have hrun : Reads mmap (Reader.array part.length) (part ++ []) part :=
    (reads_bytes part).of_bind hlift
  rwa [List.append_nil] at hrun

theorem reads_u8 (v : UInt8) : Reads mmap Reader.u8 [v] v := by
  have hlift : Reads mmap (liftOutcome (.unwrap [v][0]?)) [] v := Consumes.of_lift rfl
  exact (reads_bytes [v]).of_bind hlift

theorem reads_ofLe {α : Type} {k : ℕ} (ofNat : ℕ → α) (h : n < 256 ^ k) :
    Reads mmap (do return ofNat (Reader.leNat (← Reader.array k))) (leBytes k n) (ofNat n) := by
  have hrun : Reads mmap (do return ofNat (Reader.leNat (← Reader.array k))) (leBytes k n)
      (ofNat (Reader.leNat (leBytes k n))) :=
    (reads_array (leBytes k n) (length_leBytes k n)).of_map fun part => ofNat (Reader.leNat part)
  rwa [leNat_leBytes h] at hrun

theorem reads_u16 (v : UInt16) : Reads mmap Reader.u16 (leBytes 2 v.toNat) v := by
  have hrun : Reads mmap Reader.u16 (leBytes 2 v.toNat) (UInt16.ofNat v.toNat) :=
    reads_ofLe UInt16.ofNat v.toNat_lt
  rwa [UInt16.ofNat_toNat] at hrun

theorem reads_u32 (v : UInt32) : Reads mmap Reader.u32 (leBytes 4 v.toNat) v := by
  have hrun : Reads mmap Reader.u32 (leBytes 4 v.toNat) (UInt32.ofNat v.toNat) :=
    reads_ofLe UInt32.ofNat v.toNat_lt
  rwa [UInt32.ofNat_toNat] at hrun

theorem reads_u64 (v : UInt64) : Reads mmap Reader.u64 (leBytes 8 v.toNat) v := by
  have hrun : Reads mmap Reader.u64 (leBytes 8 v.toNat) (UInt64.ofNat v.toNat) :=
    reads_ofLe UInt64.ofNat v.toNat_lt
  rwa [UInt64.ofNat_toNat] at hrun

theorem reads_i8 (v : Int8) : Reads mmap Reader.i8 [v.toUInt8] v := by
  have hrun : Reads mmap Reader.i8 [v.toUInt8] v.toUInt8.toInt8 :=
    (reads_u8 v.toUInt8).of_map UInt8.toInt8
  rwa [Int8.toInt8_toUInt8] at hrun

theorem reads_i16 (v : Int16) : Reads mmap Reader.i16 (leBytes 2 v.toUInt16.toNat) v := by
  have hrun : Reads mmap Reader.i16 (leBytes 2 v.toUInt16.toNat)
      (UInt16.ofNat v.toUInt16.toNat).toInt16 :=
    reads_ofLe (fun n => (UInt16.ofNat n).toInt16) v.toUInt16.toNat_lt
  rwa [UInt16.ofNat_toNat, Int16.toInt16_toUInt16] at hrun

theorem reads_i32 (v : Int32) : Reads mmap Reader.i32 (leBytes 4 v.toUInt32.toNat) v := by
  have hrun : Reads mmap Reader.i32 (leBytes 4 v.toUInt32.toNat)
      (UInt32.ofNat v.toUInt32.toNat).toInt32 :=
    reads_ofLe (fun n => (UInt32.ofNat n).toInt32) v.toUInt32.toNat_lt
  rwa [UInt32.ofNat_toNat, Int32.toInt32_toUInt32] at hrun

theorem reads_i64 (v : Int64) : Reads mmap Reader.i64 (leBytes 8 v.toUInt64.toNat) v := by
  have hrun : Reads mmap Reader.i64 (leBytes 8 v.toUInt64.toNat)
      (UInt64.ofNat v.toUInt64.toNat).toInt64 :=
    reads_ofLe (fun n => (UInt64.ofNat n).toInt64) v.toUInt64.toNat_lt
  rwa [UInt64.ofNat_toNat, Int64.toInt64_toUInt64] at hrun

theorem reads_u32_ofNat (h : n < 2 ^ 32) : Reads mmap Reader.u32 (leBytes 4 n) (UInt32.ofNat n) :=
  reads_ofLe UInt32.ofNat h

theorem reads_usizeU64 (h : n < 2 ^ 64) : Reads mmap Reader.usizeU64 (leBytes 8 n) n := by
  have hvalue : (UInt64.ofNat n).toNat = n := UInt64.toNat_ofNat_of_lt' h
  have hread : Reads mmap Reader.u64 (leBytes 8 n) (UInt64.ofNat n) := reads_ofLe UInt64.ofNat h
  have hpure : Reads mmap (pure (UInt64.ofNat n).toNat) [] n := by
    rw [hvalue]
    exact Consumes.of_pure n
  have hrun : Reads mmap Reader.usizeU64 (leBytes 8 n ++ []) n :=
    hread.of_bind ((Consumes.of_check _ (decide_eq_true (by rw [hvalue]; exact h))).of_bind_nil hpure)
  rwa [List.append_nil] at hrun

theorem reads_length (magic : VersionedMagic) (h : n < 256 ^ magic.lengthPrefixSize) :
    Reads mmap (readLength magic) (magic.writeLength n) n := by
  cases magic with
  | ggufV1 =>
    have hvalue : (UInt32.ofNat n).toNat = n := UInt32.toNat_ofNat_of_lt' h
    have hrun : Reads mmap (readLength .ggufV1) (leBytes 4 n) (UInt32.ofNat n).toNat :=
      (reads_u32_ofNat h).of_map UInt32.toNat
    rwa [hvalue] at hrun
  | ggufV2 => exact reads_usizeU64 h
  | ggufV3 => exact reads_usizeU64 h

/-- A length within the maxima of the format fits where the layout writes it. -/
theorem lt_of_le_max (magic : VersionedMagic) (h : n ≤ 2 ^ 30) :
    n < 256 ^ magic.lengthPrefixSize := by
  cases magic <;> simp only [VersionedMagic.lengthPrefixSize] <;> omega

/-! ### Reading strings -/

/-- The encoding of a character other than U+0000 ends with a byte other than 0. -/
theorem exists_encode_eq_concat {c : Char} (h : c ≠ Char.ofNat 0) :
    ∃ init b, String.utf8EncodeChar c = init ++ [b] ∧ b ≠ 0 := by
  have hzero : c.toNat ≠ 0 := by
    intro hc
    apply h
    rw [← Char.ofNat_toNat c, hc]
  have htail : UInt8.ofNat (c.toNat % 64 + 128) ≠ 0 := by
    intro hb
    have hnat : (UInt8.ofNat (c.toNat % 64 + 128)).toNat = 0 := congrArg UInt8.toNat hb
    rw [UInt8.toNat_ofNat'] at hnat
    omega
  unfold String.utf8EncodeChar
  simp only [Char.toNat_val]
  by_cases h₀ : c.toNat ≤ 0x7f
  · rw [if_pos h₀]
    refine ⟨[], _, rfl, fun hb => ?_⟩
    have hnat : (UInt8.ofNat c.toNat).toNat = 0 := congrArg UInt8.toNat hb
    rw [UInt8.toNat_ofNat'] at hnat
    omega
  rw [if_neg h₀]
  by_cases h₁ : c.toNat ≤ 0x7ff
  · rw [if_pos h₁]
    exact ⟨[_], _, rfl, htail⟩
  rw [if_neg h₁]
  by_cases h₂ : c.toNat ≤ 0xffff
  · rw [if_pos h₂]
    exact ⟨[_, _], _, rfl, htail⟩
  · rw [if_neg h₂]
    exact ⟨[_, _, _], _, rfl, htail⟩

theorem trimZeros_concat (init : Bytes) {b : UInt8} (h : b ≠ 0) :
    trimZeros (init ++ [b]) = .ok (init ++ [b]) := by
  have hfirst : (b != 0) = true := bne_iff_ne.2 h
  have hlast : lastNonZero (init ++ [b]) = some init.length := by
    rw [lastNonZero, List.reverse_concat, List.findIdx?_cons, if_pos hfirst, Option.map_some,
      List.length_append, List.length_singleton]
    rfl
  have hlength : (init ++ [b]).length = init.length + 1 := by
    rw [List.length_append, List.length_singleton]
  rw [trimZeros, hlast]
  simp only
  rw [slice_eq_some (Nat.zero_le _) (Nat.le_of_eq hlength.symm), ← hlength, List.take_length,
    List.drop_zero]
  rfl

namespace GgufText

theorem trimZeros_bytes (s : GgufText) : trimZeros s.bytes = .ok s.bytes := by
  rcases List.eq_nil_or_concat s.text.toList with hnil | ⟨init, c, hconcat⟩
  · rw [bytes, hnil]
    rfl
  · rw [List.concat_eq_append] at hconcat
    have hc : c ≠ Char.ofNat 0 := by
      intro hzero
      apply s.no_zero
      rw [hconcat, List.getLast?_concat, hzero]
    obtain ⟨part, b, hencode, hb⟩ := exists_encode_eq_concat hc
    have hbytes : s.bytes = (Utf8.encode init ++ part) ++ [b] := by
      rw [GgufText.bytes, hconcat, Utf8.encode, List.flatMap_append, List.flatMap_singleton, hencode,
        List.append_assoc]
      rfl
    rw [hbytes]
    exact trimZeros_concat _ hb

end GgufText

theorem reads_string (magic : VersionedMagic) (s : GgufText) :
    Reads mmap (readString magic) (s.write magic) s.text := by
  have htext : String.ofList (Utf8.lossy s.bytes) = s.text := by
    rw [GgufText.bytes, Utf8.lossy_encode, String.ofList_toList]
  have hpure : Reads mmap (pure (String.ofList (Utf8.lossy s.bytes))) [] s.text := by
    rw [htext]
    exact Consumes.of_pure s.text
  have htrim : Reads mmap
      (liftOutcome (trimZeros s.bytes) >>= fun part => pure (String.ofList (Utf8.lossy part))) []
      s.text :=
    (Consumes.of_lift s.trimZeros_bytes).of_bind_nil hpure
  have hbytes : Reads mmap (Reader.bytes s.bytes.length >>= fun part =>
      liftOutcome (trimZeros part) >>= fun part => pure (String.ofList (Utf8.lossy part)))
      (s.bytes ++ []) s.text :=
    (reads_bytes s.bytes).of_bind htrim
  rw [List.append_nil] at hbytes
  exact (reads_length magic (lt_of_le_max magic s.length_le)).of_bind
    ((Consumes.of_check _ (decide_eq_true s.length_le)).of_bind_nil hbytes)

/-! ### Reading metadata -/

theorem fromU32_code (valueType : ValueType) :
    ValueType.fromU32 (UInt32.ofNat valueType.code) = .ok valueType := by
  cases valueType <;> rfl

theorem reads_valueTypeCode (valueType : ValueType) :
    Reads mmap Reader.u32 (leBytes 4 valueType.code) (UInt32.ofNat valueType.code) :=
  reads_u32_ofNat (by cases valueType <;> decide)

@[simp] theorem length_writeLength (magic : VersionedMagic) (n : ℕ) :
    (magic.writeLength n).length = magic.lengthPrefixSize :=
  length_leBytes _ _

variable {valueType : ValueType}

/-- **The estimate of the reader is a bound**: no datum is written in fewer bytes. -/
theorem minDiskSize_le_length (magic : VersionedMagic) (datum : Datum valueType) :
    valueType.minDiskSize magic ≤ (datum.write magic).length := by
  cases datum with
  | string s =>
    rw [Datum.write, GgufText.write, List.length_append, length_writeLength]
    exact Nat.le_add_right _ _
  | array items =>
    rw [Datum.write, List.length_append, List.length_append, length_writeLength, length_leBytes,
      ← Nat.add_assoc]
    exact Nat.le_add_right _ _
  | _ =>
    simp only [Datum.write, length_leBytes, List.length_singleton, ValueType.minDiskSize]
    exact Nat.le_refl _

/-- A list of parts takes at least the number of its parts times what each of them takes. -/
theorem mul_le_length_flatMap {ι γ : Type} {write : ι → List γ} {items : List ι} {size : ℕ}
    (h : ∀ item ∈ items, size ≤ (write item).length) :
    items.length * size ≤ (items.flatMap write).length := by
  induction items with
  | nil => rw [List.length_nil, Nat.zero_mul]; exact Nat.zero_le _
  | cons item items ih =>
    have hitem := h item List.mem_cons_self
    have hitems := ih fun other hother => h other (List.mem_cons_of_mem _ hother)
    rw [List.flatMap_cons, List.length_append, List.length_cons, Nat.succ_mul]
    omega

theorem Value.height_lt_heightBelow {item : Value} {items : List Value} (h : item ∈ items) :
    item.height < Value.heightBelow items := by
  induction items with
  | nil => exact absurd h List.not_mem_nil
  | cons first items ih =>
    rw [Value.heightBelow]
    rcases List.mem_cons.1 h with rfl | hmem
    · omega
    · have := ih hmem
      omega

/-- A value with room for its items, given that they are read back. -/
theorem reads_body {levels : ℕ} {readItem : ValueType → Read Value} (magic : VersionedMagic)
    (hitem : ∀ {elemType : ValueType} (item : Datum elemType), item.WithinMaxima →
      item.value.height < levels → Reads mmap (readItem elemType) (item.write magic) item.value)
    (datum : Datum valueType) (hmax : datum.WithinMaxima)
    (hheight : datum.value.height < levels + 1) :
    Reads mmap (readBody readItem valueType magic) (datum.write magic) datum.value := by
  cases datum with
  | u8 v => exact (reads_u8 v).of_map Value.u8
  | i8 v => exact (reads_i8 v).of_map Value.i8
  | u16 v => exact (reads_u16 v).of_map Value.u16
  | i16 v => exact (reads_i16 v).of_map Value.i16
  | u32 v => exact (reads_u32 v).of_map Value.u32
  | i32 v => exact (reads_i32 v).of_map Value.i32
  | u64 v => exact (reads_u64 v).of_map Value.u64
  | i64 v => exact (reads_i64 v).of_map Value.i64
  | f32 bits => exact (reads_u32 bits).of_map Value.f32
  | f64 bits => exact (reads_u64 bits).of_map Value.f64
  | bool v =>
    have hbyte : Reads mmap Reader.u8 [if v then 1 else 0] (if v then 1 else 0) := reads_u8 _
    cases v with
    | false => exact hbyte.of_bind ((Consumes.of_check _ rfl).of_bind_nil (Consumes.of_pure _))
    | true => exact hbyte.of_bind ((Consumes.of_check _ rfl).of_bind_nil (Consumes.of_pure _))
  | string s => exact (reads_string magic s).of_map Value.string
  | @array elemType items =>
    rw [Datum.value, Value.height] at hheight
    obtain ⟨hlength, hmaxima⟩ := hmax
    have hitems : Reads mmap
        (repeatFrom (fun values => do return values ++ [← readItem elemType]) items.toList.length [])
        (items.write magic) items.values := by
      rw [items.write_eq, items.values_eq]
      refine Consumes.of_pushes items.toList fun item hmem => ?_
      have hbelow : item.value ∈ items.values := by
        rw [items.values_eq]
        exact List.mem_map_of_mem hmem
      have hlow := Value.height_lt_heightBelow hbelow
      exact hitem item (items.withinMaxima_iff.1 hmaxima item hmem) (by omega)
    have harray := hitems.of_map Value.array
    -- Where the estimate is compared, all the items are still to come.
    have hestimate : items.toList.length * elemType.minDiskSize magic ≤
        (items.write magic).length := by
      rw [items.write_eq]
      exact mul_le_length_flatMap fun item _ => minDiskSize_le_length magic item
    have hcapacity : valueSize * items.toList.length < 2 ^ 63 := by
      unfold ggufMaxArrayElements at hlength
      unfold valueSize
      omega
    refine (reads_valueTypeCode elemType).of_bind
      ((Consumes.of_lift (fromU32_code elemType)).of_bind_nil ?_)
    refine (reads_length magic (lt_of_le_max magic hlength)).of_bind
      ((Consumes.of_check _ (decide_eq_true hlength)).of_bind_nil (Consumes.of_get ?_))
    intro reader rest hleft
    have hremaining : usizeSaturatingMul items.toList.length (elemType.minDiskSize magic) ≤
        reader.remaining := by
      rw [hleft.remaining_eq, List.length_append]
      exact (Nat.min_le_left _ _).trans (hestimate.trans (Nat.le_add_right _ _))
    exact (Consumes.of_check _ (decide_eq_true hremaining)).of_bind_nil
      ((Consumes.of_lift (if_pos hcapacity)).of_bind_nil harray)

theorem reads_within (magic : VersionedMagic) (levels : ℕ) (datum : Datum valueType)
    (hmax : datum.WithinMaxima) (hheight : datum.value.height < levels) :
    Reads mmap (readWithin levels valueType magic) (datum.write magic) datum.value := by
  induction levels generalizing valueType with
  | zero => exact absurd hheight (Nat.not_lt_zero _)
  | succ levels ih =>
    exact reads_body magic (fun item hmax hheight => ih item hmax hheight) datum hmax hheight

/-- A datum that is nested no deeper than the maximum is read back, from the depth 0 on. -/
theorem reads_datum (magic : VersionedMagic) (datum : Datum valueType) (hmax : datum.WithinMaxima)
    (hheight : datum.value.height ≤ ggufMaxValueDepth) :
    Reads mmap (Value.read valueType magic 0) (datum.write magic) datum.value :=
  reads_within magic (ggufMaxValueDepth + 1) datum hmax (Nat.lt_succ_of_le hheight)

/-! ### Reading the header -/

theorem reads_entry (magic : VersionedMagic) (metadata : StringMap Value) (entry : GgufEntry)
    (hmax : entry.datum.WithinMaxima) (hheight : entry.datum.value.height ≤ ggufMaxValueDepth) :
    Reads mmap (readMetadataEntry magic metadata) (entry.write magic)
      (metadata.upsert entry.row) := by
  have hvalue : Reads mmap (Value.read entry.valueType magic 0) (entry.datum.write magic)
      entry.datum.value := reads_datum magic entry.datum hmax hheight
  have hdatum := hvalue.of_map fun value => metadata.upsert (entry.key.text, value)
  exact (reads_string magic entry.key).of_bind ((reads_valueTypeCode entry.valueType).of_bind
    ((Consumes.of_lift (fromU32_code entry.valueType)).of_bind_nil hdatum))

theorem dtypeFromU32_code (dtype : GgmlDType) :
    GgmlDType.fromU32 (UInt32.ofNat dtype.code) = .ok dtype := by
  cases dtype <;> rfl

theorem reads_dtypeCode (dtype : GgmlDType) :
    Reads mmap Reader.u32 (leBytes 4 dtype.code) (UInt32.ofNat dtype.code) :=
  reads_u32_ofNat (by cases dtype <;> decide)

theorem reads_tensor (magic : VersionedMagic) (tensors : StringMap TensorInfo) (tensor : GgufTensor)
    (hdims : tensor.dims.length ≤ ggufMaxTensorDims)
    (hdim : ∀ dim ∈ tensor.dims, dim < 256 ^ magic.lengthPrefixSize)
    (hoffset : tensor.offset < 2 ^ 64) :
    Reads mmap (readTensorEntry magic tensors) (tensor.write magic) (tensors.upsert tensor.row) := by
  have hfour : tensor.dims.length ≤ 4 := hdims
  have hcount : (UInt32.ofNat tensor.dims.length).toNat = tensor.dims.length :=
    UInt32.toNat_ofNat_of_lt' (lt_of_le_of_lt hfour (by decide))
  have hcapacity : 8 * tensor.dims.length < 2 ^ 63 := by omega
  have hshape : Reads mmap
      (repeatFrom (fun shape => do return shape ++ [← readDimension magic]) tensor.dims.length [])
      (tensor.dims.flatMap magic.writeLength) tensor.dims := by
    have hread : ∀ dim ∈ tensor.dims, Reads mmap (readLength magic) (magic.writeLength dim) dim :=
      fun dim hmem => reads_length magic (hdim dim hmem)
    have hpushes := Consumes.of_pushes tensor.dims hread
    rwa [List.map_id'] at hpushes
  have hread : Reads mmap Reader.usizeU64 (leBytes 8 tensor.offset) tensor.offset :=
    reads_usizeU64 hoffset
  have hend := hread.of_map fun offset =>
    tensors.upsert (tensor.name.text, ⟨tensor.dtype, tensor.dims.reverse, offset⟩)
  refine (reads_string magic tensor.name).of_bind ((reads_u32_ofNat (by omega)).of_bind ?_)
  rw [hcount]
  exact (Consumes.of_check _ (decide_eq_true hdims)).of_bind_nil
    ((Consumes.of_lift (if_pos hcapacity)).of_bind_nil
      (hshape.of_bind ((reads_dtypeCode tensor.dtype).of_bind
        ((Consumes.of_lift (dtypeFromU32_code tensor.dtype)).of_bind_nil hend))))

theorem length_writeEntry (magic : VersionedMagic) (entry : GgufEntry) :
    magic.lengthPrefixSize + 4 + 1 ≤ (entry.write magic).length := by
  have hdatum := minDiskSize_le_length magic entry.datum
  have hone : 1 ≤ entry.valueType.minDiskSize magic := by
    cases entry.valueType <;> cases magic <;> decide
  rw [GgufEntry.write, GgufText.write, List.length_append, List.length_append, List.length_append,
    length_writeLength, length_leBytes]
  omega

theorem length_writeTensor (magic : VersionedMagic) (tensor : GgufTensor) :
    magic.lengthPrefixSize + 4 + 4 + 8 ≤ (tensor.write magic).length := by
  simp only [GgufTensor.write, GgufText.write, List.length_append, length_writeLength,
    length_leBytes]
  omega

theorem reads_magic (version : VersionedMagic) {part : Bytes} {β : Type}
    {f : VersionedMagic → Read β} {b : β} (hf : Reads mmap (f version) part b) :
    Reads mmap (VersionedMagic.read >>= f) ([0x47, 0x47, 0x55, 0x46] ++
      (leBytes 4 version.number ++ part)) b := by
  have hmagic : Reads mmap Reader.u32 [0x47, 0x47, 0x55, 0x46] 0x46554747 :=
    reads_u32_ofNat (n := 0x46554747) (by decide)
  have hnumber : Reads mmap Reader.u32 (leBytes 4 version.number) (UInt32.ofNat version.number) :=
    reads_u32_ofNat (by cases version <;> decide)
  have hread : Reads mmap VersionedMagic.read ([0x47, 0x47, 0x55, 0x46] ++
      (leBytes 4 version.number ++ [])) version := by
    refine hmagic.of_bind ((Consumes.of_check _ rfl).of_bind_nil (hnumber.of_bind ?_))
    cases version with
    | ggufV1 => exact Consumes.of_pure _
    | ggufV2 => exact Consumes.of_pure _
    | ggufV3 => exact Consumes.of_pure _
  have hrun := hread.of_bind hf
  rwa [List.append_nil, List.append_assoc] at hrun

theorem reads_reserveTable {env : ParseEnv} {count : ℕ} (table : String)
    (h : env.tryReserve count = none) : Reads mmap (reserveTable env table count) [] () := by
  rw [reserveTable, h]
  exact Consumes.of_pure ()

namespace GgufFile

variable {file : GgufFile}

def metadataTable (file : GgufFile) : StringMap Value :=
  KeyedTable.ofList (file.metadata.map GgufEntry.row)

def tensorTable (file : GgufFile) : StringMap TensorInfo :=
  KeyedTable.ofList (file.tensors.map GgufTensor.row)

theorem rows_metadataTable (h : file.WellFormed) :
    file.metadataTable.rows = file.metadata.map GgufEntry.row := by
  refine KeyedTable.rows_ofList ?_
  rw [List.map_map]
  exact h.keys_nodup

theorem rows_tensorTable (h : file.WellFormed) :
    file.tensorTable.rows = file.tensors.map GgufTensor.row := by
  refine KeyedTable.rows_ofList ?_
  rw [List.map_map]
  exact h.names_nodup

end GgufFile

/-- **The header is read back**: what is declared fits into what is left of the file, and the two tables
get the entries of the file. -/
theorem reads_header {env : ParseEnv} {file : GgufFile} (h : file.WellFormed)
    (hoffsets : ∀ tensor ∈ file.tensors, tensor.offset < 2 ^ 64)
    (hmetadata : env.tryReserve file.metadata.length = none)
    (htensors : env.tryReserve file.tensors.length = none) :
    Reads mmap (readHeader env) file.header ⟨file.version, file.metadataTable, file.tensorTable⟩ := by
  have hentries : Reads mmap
      (repeatFrom (readMetadataEntry file.version) file.metadata.length KeyedTable.empty)
      (file.metadata.flatMap (GgufEntry.write file.version)) file.metadataTable := by
    rw [GgufFile.metadataTable, KeyedTable.ofList, List.foldl_map]
    exact Consumes.of_repeatFrom file.metadata (fun metadata entry hentry =>
      reads_entry file.version metadata entry (h.arrays_le entry hentry) (h.height_le entry hentry)) _
  have hrows : Reads mmap
      (repeatFrom (readTensorEntry file.version) file.tensors.length KeyedTable.empty)
      (file.tensors.flatMap (GgufTensor.write file.version)) file.tensorTable := by
    rw [GgufFile.tensorTable, KeyedTable.ofList, List.foldl_map]
    exact Consumes.of_repeatFrom file.tensors (fun tensors tensor htensor =>
      reads_tensor file.version tensors tensor (h.dims_le tensor htensor) (h.dim_lt tensor htensor)
        (hoffsets tensor htensor)) _
  have hlast := hrows.of_map fun tensors =>
    (⟨file.version, file.metadataTable, tensors⟩ : GgufHeader)
  -- The two estimates together are a bound on the two tables.
  have hmetadataSize : file.metadata.length * (file.version.lengthPrefixSize + 4 + 1) ≤
      (file.metadata.flatMap (GgufEntry.write file.version)).length :=
    mul_le_length_flatMap fun entry _ => length_writeEntry file.version entry
  have htensorsSize : file.tensors.length * (file.version.lengthPrefixSize + 4 + 4 + 8) ≤
      (file.tensors.flatMap (GgufTensor.write file.version)).length :=
    mul_le_length_flatMap fun tensor _ => length_writeTensor file.version tensor
  refine reads_magic file.version ?_
  refine (reads_length file.version (lt_of_le_max _ h.tensors_le)).of_bind
    ((reads_length file.version (lt_of_le_max _ h.metadata_le)).of_bind ?_)
  refine (Consumes.of_check _ (decide_eq_true h.tensors_le)).of_bind_nil
    ((Consumes.of_check _ (decide_eq_true h.metadata_le)).of_bind_nil (Consumes.of_get ?_))
  intro reader rest hleft
  have hneeded : usizeSaturatingAdd
      (usizeSaturatingMul file.metadata.length (file.version.lengthPrefixSize + 4 + 1))
      (usizeSaturatingMul file.tensors.length (file.version.lengthPrefixSize + 4 + 4 + 8)) ≤
        reader.remaining := by
    rw [hleft.remaining_eq, List.length_append, List.length_append]
    unfold usizeSaturatingAdd usizeSaturatingMul
    omega
  exact (Consumes.of_check _ (decide_eq_true hneeded)).of_bind_nil
    ((reads_reserveTable "metadata" hmetadata).of_bind_nil
      (hentries.of_bind ((reads_reserveTable "tensor" htensors).of_bind_nil hlast)))

/-! ### Whole files -/

namespace GgufFile

variable {file : GgufFile}

theorem alignmentOf_metadataTable (h : file.WellFormed) :
    alignmentOf file.metadataTable = file.alignment := by
  have hfind : file.metadataTable.find? "general.alignment" =
      (file.metadata.find? fun entry => decide (entry.key.text = "general.alignment")).map
        GgufEntry.row := by
    rw [KeyedTable.find?, rows_metadataTable h, List.find?_map]
    rfl
  rw [alignmentOf, alignment, hfind, Option.bind_map]
  rfl

theorem divCeil_header (h : file.WellFormed) :
    ∃ blocks, usizeDivCeil file.header.length file.alignment = some blocks ∧
      blocks * file.alignment = file.dataOffset := by
  have hne := h.alignment_ne_zero
  refine ⟨_, if_neg hne, ?_⟩
  rw [dataOffset]
  congr 1
  have hmod := Nat.mod_lt file.header.length (Nat.pos_of_ne_zero hne)
  have hdiv := Nat.div_add_mod file.header.length file.alignment
  split
  · rename_i hpos
    symm
    rw [Nat.div_eq_iff (Nat.pos_of_ne_zero hne)]
    rw [Nat.mul_comm] at hdiv
    constructor
    · rw [Nat.succ_mul]
      omega
    · rw [Nat.succ_mul]
      omega
  · rename_i hzero
    symm
    rw [Nat.div_eq_iff (Nat.pos_of_ne_zero hne)]
    rw [Nat.mul_comm] at hdiv
    omega

theorem length_layout (h : file.WellFormed) :
    file.header.length ≤ file.dataOffset ∧
      file.layout.length = file.dataOffset + file.data.length := by
  obtain ⟨blocks, hblocks, hoffset⟩ := divCeil_header h
  obtain ⟨hle, _⟩ := usizeDivCeil_mul hblocks
  rw [hoffset] at hle
  refine ⟨hle, ?_⟩
  rw [layout, List.length_append, List.length_append, List.length_replicate]
  omega

end GgufFile

theorem foldlM_usizeMul (e : GgufError) (dims : List ℕ) (acc : ℕ)
    (h : ∀ k, acc * (dims.take k).prod < 2 ^ 64) :
    dims.foldlM (fun acc dim => Outcome.ofOption e (usizeMul acc dim)) acc =
      .ok (acc * dims.prod) := by
  induction dims generalizing acc with
  | nil =>
    rw [List.foldlM_nil, List.prod_nil, Nat.mul_one]
    rfl
  | cons dim dims ih =>
    have hfirst : acc * dim < 2 ^ 64 := by
      have hone := h 1
      rwa [List.take_succ_cons, List.take_zero, List.prod_singleton] at hone
    have hmul : usizeMul acc dim = some (acc * dim) := usizeMul_eq_some_iff.2 ⟨rfl, hfirst⟩
    rw [List.foldlM_cons, hmul, Outcome.ofOption_some, Outcome.bind_ok, ih (acc * dim),
      List.prod_cons, Nat.mul_assoc]
    intro k
    have hnext := h (k + 1)
    rwa [List.take_succ_cons, List.prod_cons, ← Nat.mul_assoc] at hnext

theorem byteLen_row {tensor : GgufTensor} (hrep : tensor.Representable)
    (hblocks : tensor.dtype.blockSize ∣ tensor.dims.prod) (hsize : tensor.size < 2 ^ 64) :
    tensor.row.2.byteLen = .ok tensor.size := by
  have hbelow : ∀ k, 1 * (tensor.dims.reverse.take k).prod < 2 ^ 64 := by
    intro k
    rw [Nat.one_mul]
    exact hrep k
  have hcount : checkedElementCount tensor.dims.reverse = .ok tensor.dims.prod := by
    rw [checkedElementCount, foldlM_usizeMul _ _ _ hbelow, List.prod_reverse, Nat.one_mul]
  have hmul : usizeMul (tensor.dims.prod / tensor.dtype.blockSize) tensor.dtype.typeSize =
      some tensor.size :=
    usizeMul_eq_some_iff.2 ⟨rfl, hsize⟩
  have hdivides : tensor.dims.prod % tensor.dtype.blockSize = 0 := Nat.mod_eq_zero_of_dvd hblocks
  simp [GgufTensor.row, TensorInfo.byteLen, hcount, hmul, hdivides]

theorem GgufModel.tensorBytes_ok {model : GgufModel} (name : String) {info : TensorInfo} {len : ℕ}
    (hlen : info.byteLen = .ok len)
    (hin : model.tensorDataOffset + info.offset + len ≤ model.mmap.bytes.length) :
    ∃ raw, model.tensorBytes name info = .ok raw := by
  have hfile := model.mmap.length_lt
  have hstart : usizeAdd model.tensorDataOffset info.offset =
      some (model.tensorDataOffset + info.offset) :=
    usizeAdd_eq_some_iff.2 ⟨rfl, by omega⟩
  have hstop : usizeAdd (model.tensorDataOffset + info.offset) len =
      some (model.tensorDataOffset + info.offset + len) :=
    usizeAdd_eq_some_iff.2 ⟨rfl, by omega⟩
  have hslice := slice_eq_some (Nat.le_add_right (model.tensorDataOffset + info.offset) len) hin
  refine ⟨(model.mmap.bytes.take (model.tensorDataOffset + info.offset + len)).drop
    (model.tensorDataOffset + info.offset), ?_⟩
  simp only [tensorBytes, hlen, Outcome.bind_ok, hstart, Outcome.ofOption_some, hstop,
    decide_eq_true hin, Outcome.ensure_true, hslice, Outcome.unwrap]

theorem GgufModel.validateTensors_ok {model : GgufModel} {rows : List (String × TensorInfo)}
    (h : ∀ row ∈ rows, ∃ raw, model.tensorBytes row.1 row.2 = .ok raw) :
    model.validateTensors rows = .ok () := by
  induction rows with
  | nil => rfl
  | cons row rows ih =>
    obtain ⟨raw, hraw⟩ := h row List.mem_cons_self
    rw [validateTensors, hraw, Outcome.bind_ok]
    exact ih fun other hother => h other (List.mem_cons_of_mem _ hother)

/-- **The reader gives every well-formed file back.**  The metadata and the tensor table are those of
the file, with the dimensions of the tensors reversed, and the tensor data starts where the layout puts
it; no estimate makes the reader refuse the file. -/
theorem fromMmap_layout (env : ParseEnv) (file : GgufFile) (mmap : Mmap)
    (hbytes : mmap.bytes = file.layout) (h : file.WellFormed)
    (hrep : ∀ tensor ∈ file.tensors, tensor.Representable)
    (hmetadata : env.tryReserve file.metadata.length = none)
    (htensors : env.tryReserve file.tensors.length = none) :
    ∃ model, fromMmap env mmap = .ok model ∧ model.magic = file.version ∧
      model.metadata.rows = file.metadata.map (fun entry => (entry.key.text, entry.datum.value)) ∧
      model.tensors.rows = file.tensors.map (fun tensor =>
        (tensor.name.text, ⟨tensor.dtype, tensor.dims.reverse, tensor.offset⟩)) ∧
      model.tensorDataOffset = file.dataOffset := by
  obtain ⟨hpadding, hlength⟩ := GgufFile.length_layout h
  have hfile := mmap.length_lt
  rw [hbytes, hlength] at hfile
  have hoffsets : ∀ tensor ∈ file.tensors, tensor.offset < 2 ^ 64 := by
    intro tensor htensor
    have hrange := h.in_range tensor htensor
    omega
  -- The header takes the reader to its end.
  have hleft : (Reader.new mmap.bytes).Left mmap (file.header ++
      (List.replicate (file.dataOffset - file.header.length) 0 ++ file.data)) :=
    ⟨rfl, Nat.zero_le _, hbytes⟩
  obtain ⟨reader, hheader, hafter⟩ := reads_header h hoffsets hmetadata htensors _ _ hleft
  have hpos : reader.pos = file.header.length := by
    have htotal := hleft.length_eq
    have hrest := hafter.length_eq
    rw [List.length_append] at htotal
    have hstart : (Reader.new mmap.bytes).pos = 0 := rfl
    omega
  -- The start of the data is the one of the layout.
  obtain ⟨blocks, hblocks, hoffset⟩ := GgufFile.divCeil_header h
  have hmul : usizeMul blocks file.alignment = some file.dataOffset :=
    usizeMul_eq_some_iff.2 ⟨hoffset.symm, by omega⟩
  have hin : file.dataOffset ≤ mmap.bytes.length := by
    rw [hbytes, hlength]
    exact Nat.le_add_right _ _
  let model : GgufModel :=
    ⟨mmap, file.metadataTable, file.tensorTable, file.dataOffset, file.version⟩
  have hvalid : model.validateTensors (env.visit file.tensorTable.rows) = .ok () := by
    refine GgufModel.validateTensors_ok fun row hrow => ?_
    have hmem := (env.visit_perm file.tensorTable.rows).mem_iff.1 hrow
    rw [GgufFile.rows_tensorTable h] at hmem
    obtain ⟨tensor, htensor, rfl⟩ := List.mem_map.1 hmem
    have hrange := h.in_range tensor htensor
    have hsize := byteLen_row (hrep tensor htensor) (h.blocks tensor htensor) (by omega)
    refine GgufModel.tensorBytes_ok _ hsize ?_
    change file.dataOffset + tensor.offset + tensor.size ≤ mmap.bytes.length
    rw [hbytes, hlength]
    omega
  refine ⟨model, ?_, rfl, GgufFile.rows_metadataTable h, GgufFile.rows_tensorTable h, rfl⟩
  have hne : (file.alignment != 0) = true := bne_iff_ne.2 h.alignment_ne_zero
  rw [fromMmap, hheader]
  simp only [Outcome.bind_ok, GgufFile.alignmentOf_metadataTable h, hne, Outcome.ensure_true, hpos,
    hblocks, Outcome.unwrap, hmul, decide_eq_true hin]
  change (model.validateTensors (env.visit file.tensorTable.rows) >>= fun _ => _) = _
  rw [hvalid]
  rfl

def shortText (text : String) (h : (Utf8.encode text.toList).length ≤ ggufMaxStringLength ∧
    text.toList.getLast? ≠ some (Char.ofNat 0)) : GgufText :=
  ⟨text, h.1, h.2⟩

/-- A file of version 1 with an alignment of 8, an array of arrays, one of which is empty, and a tensor
of two elements. -/
def nestedFile : GgufFile where
  version := .ggufV1
  metadata :=
    [⟨shortText "general.alignment" (by decide +kernel), .u32, .u32 8⟩,
      ⟨shortText "lists" (by decide +kernel), .array,
        .array (.cons (.array (.cons (.bool true) .nil)) (.cons (.array (@DatumList.nil .i16)) .nil))⟩]
  tensors := [⟨shortText "tensor" (by decide +kernel), [2, 1], .F32, 4⟩]
  data := List.replicate 12 1

/-- The bytes of the file with nested arrays. -/
def nestedMmap : Mmap where
  bytes := nestedFile.layout
  length_lt := by decide +kernel

theorem fromMmap_layout_nested :
    ∃ model, fromMmap plainEnv nestedMmap = .ok model ∧ model.magic = .ggufV1 ∧
      model.metadata.rows = [("general.alignment", .u32 8),
        ("lists", .array [.array [.bool true], .array []])] ∧
      model.tensors.rows = [("tensor", ⟨.F32, [1, 2], 4⟩)] ∧ model.tensorDataOffset = 120 := by
  have hwell : nestedFile.WellFormed := by
    refine ⟨by decide +kernel, by decide +kernel, by decide +kernel, by decide +kernel, ?_, ?_,
      by decide +kernel, by decide +kernel, by decide +kernel, by decide +kernel, by decide +kernel⟩
    · simp [nestedFile, Datum.WithinMaxima, DatumList.WithinMaxima, DatumList.toList,
        ggufMaxArrayElements]
    · decide +kernel
  have hrep : ∀ tensor ∈ nestedFile.tensors, tensor.Representable := by
    intro tensor htensor k
    rw [List.mem_singleton.1 htensor]
    match k with
    | 0 => decide
    | 1 => decide
    | k + 2 => simp
  exact fromMmap_layout plainEnv nestedFile nestedMmap rfl hwell hrep rfl rfl

/-- A file with a tensor that has no elements: its last dimension is 0, and the others are large. -/
def hollowFile : GgufFile where
  version := .ggufV3
  metadata := []
  tensors := [⟨shortText "t" (by decide +kernel), [0, 2 ^ 40, 2 ^ 40], .F32, 0⟩]
  data := []

/-- The bytes of the file with a tensor without elements. -/
def hollowMmap : Mmap where
  bytes := hollowFile.layout
  length_lt := by decide +kernel

/-- A well-formed file need not be accepted: the shape of a tensor without elements can overflow before
its dimension 0 is reached. -/
theorem hollow_refused :
    hollowMmap.bytes = hollowFile.layout ∧ hollowFile.WellFormed ∧
      (∀ count, plainEnv.tryReserve count = none) ∧
      ∀ model, fromMmap plainEnv hollowMmap ≠ .ok model := by
  refine ⟨rfl, ?_, fun _ => rfl, ?_⟩
  · refine ⟨by decide +kernel, by decide +kernel, by decide +kernel, by decide +kernel, ?_, ?_,
      by decide +kernel, by decide +kernel, by decide +kernel, by decide +kernel, by decide +kernel⟩
    · exact fun entry h => absurd h List.not_mem_nil
    · exact fun entry h => absurd h List.not_mem_nil
  · intro model hmodel
    have hrun : (match fromMmap plainEnv hollowMmap with
        | .ok _ => true
        | _ => false) = false := by
      decide +kernel
    rw [hmodel] at hrun
    cases hrun

end Greppy
