/-
**The metadata of a cached store.**

A workspace store is a directory with a manifest, a marker that says when it was last used and, when
its workspace is gone, a marker that says since when (`crates/core/src/cache.rs`).  The manifest is a
text with one field on a line, the root in hexadecimal; the markers hold a number of seconds.  A scan
of the cache reads them for every store, and a store it cannot read is listed as unmanaged.

Two readers can abort the scan instead.  `hex_decode` cuts the root line every two bytes, and cutting
inside a character panics.  The readers of the markers add the number to the Unix epoch, and a sum
beyond the range of the clock panics.
-/

import Greppy.Discover
import Greppy.Outcome
import Greppy.RustStr
import Greppy.SystemClock
import Greppy.TextLines
import Greppy.Utf8
import Mathlib.Algebra.GroupWithZero.Nat

set_option autoImplicit false

namespace Greppy

open Text

/-- What a reader of the cache returns; errors carry their message. -/
abbrev CacheResult (α : Type) := Outcome String α

/-! ### Hexadecimal text -/

/-- `u8::is_ascii_hexdigit`, for a character of one byte. -/
def isHexDigit (c : Char) : Bool :=
  decide ('0' ≤ c ∧ c ≤ '9' ∨ 'a' ≤ c ∧ c ≤ 'f' ∨ 'A' ≤ c ∧ c ≤ 'F')

def isHexId (len : ℕ) (text : List Char) : Bool :=
  decide (byteLength text = len) && text.all isHexDigit

/-- `char::to_digit(16)`. -/
def hexValue (c : Char) : Option ℕ :=
  if '0' ≤ c ∧ c ≤ '9' then some (c.toNat - '0'.toNat)
  else if 'a' ≤ c ∧ c ≤ 'f' then some (c.toNat - 'a'.toNat + 10)
  else if 'A' ≤ c ∧ c ≤ 'F' then some (c.toNat - 'A'.toNat + 10)
  else none

/-- `u8::from_str_radix(…, 16)` on a text of two characters of one byte; a plus sign is allowed. -/
def hexByte (c d : Char) : Option UInt8 :=
  if c = '+' then (hexValue d).map UInt8.ofNat
  else
    match hexValue c, hexValue d with
    | some hi, some lo => some (UInt8.ofNat (16 * hi + lo))
    | _, _ => none

def hexEncode (bytes : Bytes) : List Char :=
  bytes.flatMap fun b => [Nat.digitChar (b.toNat / 16), Nat.digitChar (b.toNat % 16)]

/-- The loop of `hex_decode` over a text of even length.  A slice of two bytes is two characters of
one byte or one of two, which is no number; any other slice cuts a character. -/
def hexPairs : List Char → CacheResult Bytes
  | [] => .ok []
  | [c] => if c.utf8Size = 2 then .error "invalid hex" else .panic
  | c :: d :: rest =>
    if c.utf8Size = 1 then
      if d.utf8Size = 1 then do
        let byte ← Outcome.ofOption "invalid hex" (hexByte c d)
        let bytes ← hexPairs rest
        .ok (byte :: bytes)
      else .panic
    else if c.utf8Size = 2 then .error "invalid hex"
    else .panic

def hexDecode (text : List Char) : CacheResult Bytes := do
  Outcome.ensure "odd hex length" (byteLength text % 2 = 0)
  hexPairs text

/-! ### The manifest -/

/-- `StoreManifest`; the root is a path, any bytes. -/
structure StoreManifest where
  formatVersion : ℕ
  workspaceHash : String
  canonicalRoot : Bytes
  createdAtUnixSecs : ℕ
  deriving DecidableEq

def storeManifestMagic : List Char := "greppy-workspace-store".toList

def manifestText (m : StoreManifest) : List Char :=
  storeManifestMagic ++ '\n' :: (Nat.toDigits 10 m.formatVersion ++ '\n' ::
    (m.workspaceHash.toList ++ '\n' :: (Nat.toDigits 10 m.createdAtUnixSecs ++ '\n' ::
      (hexEncode (Utf8.encode (Utf8.lossy m.canonicalRoot)) ++ '\n' :: []))))

def encodeManifest (m : StoreManifest) : Bytes := Utf8.encode (manifestText m)

def decodeManifest (raw : Bytes) : CacheResult StoreManifest := do
  let text ← Outcome.ofOption "manifest is not UTF-8" (Utf8.decode raw)
  let ls := lines text
  Outcome.ensure "manifest magic mismatch" (ls[0]? = some storeManifestMagic)
  let formatVersion ← Outcome.ofOption "invalid manifest version"
    (ls[1]?.bind (parseUnsigned (2 ^ 32)))
  let workspaceHash ← Outcome.ofOption "invalid workspace hash" (ls[2]?.filter (isHexId 16))
  let createdAtUnixSecs ← Outcome.ofOption "invalid created time"
    (ls[3]?.bind (parseUnsigned (2 ^ 64)))
  let rootHex ← Outcome.ofOption "missing root" ls[4]?
  let rootBytes ← hexDecode rootHex
  let root ← Outcome.ofOption "root is not UTF-8" (Utf8.decode rootBytes)
  .ok ⟨formatVersion, String.ofList workspaceHash, Utf8.encode root, createdAtUnixSecs⟩

/-- What the claim of a round trip is about: the types of the fields, a root that is UTF-8, and a hash
of sixteen hexadecimal digits. -/
structure StoreManifest.WellFormed (m : StoreManifest) : Prop where
  formatVersion : m.formatVersion < 2 ^ 32
  createdAt : m.createdAtUnixSecs < 2 ^ 64
  hash : isHexId 16 m.workspaceHash.toList = true
  root : ∃ text, m.canonicalRoot = Utf8.encode text

/-! ### The markers -/

/-- The number of seconds in a marker: its content is UTF-8 and, trimmed, a `u64`. -/
def markerSecs (content : Option Bytes) : Option ℕ :=
  ((content.bind Utf8.decode).map trimWhitespace).bind (parseUnsigned (2 ^ 64))

/-- `read_unix_timestamp`; a marker that cannot be read has no content. -/
def readUnixTimestamp (content : Option Bytes) : CacheResult (Option SystemTime) :=
  match markerSecs content with
  | some secs => (Outcome.unwrap (SystemTime.ofUnixSecs secs)).bind fun t => .ok (some t)
  | none => .ok none

/-- `read_last_used`; without a number the marker's modification time counts. -/
def readLastUsed (content : Option Bytes) (modified : Option SystemTime) :
    CacheResult (Option SystemTime) :=
  match markerSecs content with
  | some secs => (Outcome.unwrap (SystemTime.ofUnixSecs secs)).bind fun t => .ok (some t)
  | none => .ok modified

/-! ### The scan -/

inductive ManagedKind where
  | workspace
  | model
  deriving DecidableEq

structure ManagedEntry where
  kind : ManagedKind
  id : String
  path : String
  workspaceRoot : Option Bytes
  bytes : ℕ
  lastUsed : SystemTime
  orphaned : Bool
  orphanedSince : Option SystemTime
  deriving DecidableEq

/-- A directory under the root of the workspace stores, as the scan finds it; what cannot be read is
`none`. -/
structure StoreDir where
  name : String
  path : String
  isSymlink : Bool
  isDir : Bool
  manifest : Option Bytes
  lastUsed : Option Bytes
  lastUsedModified : Option SystemTime
  modified : Option SystemTime
  orphanedSince : Option Bytes
  bytes : ℕ

/-- What else a scan depends on: the hash of a root, the roots that exist, whether new orphans are
marked, and the clock. -/
structure ScanEnv where
  workspaceHash : Bytes → String
  rootExists : Bytes → Bool
  markNewOrphans : Bool
  now : SystemTime

def storeFormatVersion : ℕ := 2

def readStoreManifest (env : ScanEnv) (d : StoreDir) : CacheResult StoreManifest := do
  Outcome.ensure ("refusing non-directory workspace store " ++ d.path) d.isDir
  let raw ← Outcome.ofOption "manifest not readable" d.manifest
  let manifest ← decodeManifest raw
  Outcome.ensure ("invalid workspace store manifest at " ++ d.path)
    (decide (manifest.formatVersion = storeFormatVersion ∧ manifest.workspaceHash = d.name ∧
      env.workspaceHash manifest.canonicalRoot = manifest.workspaceHash))
  .ok manifest

/-- `update_orphan_marker`: since when the store is an orphan.  A new orphan is marked with the clock's
seconds. -/
def updateOrphanMarker (env : ScanEnv) (d : StoreDir) (orphaned : Bool) :
    CacheResult (Option SystemTime) :=
  if orphaned then do
    let since ← readUnixTimestamp d.orphanedSince
    match since with
    | some time => .ok (some time)
    | none =>
      if env.markNewOrphans then do
        let time ← Outcome.unwrap (SystemTime.ofUnixSecs env.now.unixSecs)
        .ok (some time)
      else .ok none
  else .ok none

/-- A store whose manifest was accepted. -/
def scanManaged (env : ScanEnv) (d : StoreDir) (manifest : StoreManifest) :
    CacheResult ManagedEntry := do
  let lastUsed ← readLastUsed d.lastUsed d.lastUsedModified
  let orphaned := !env.rootExists manifest.canonicalRoot
  let orphanedSince ← updateOrphanMarker env d orphaned
  .ok { kind := .workspace
        id := manifest.workspaceHash
        path := d.path
        workspaceRoot := some manifest.canonicalRoot
        bytes := d.bytes
        lastUsed := lastUsed.getD (d.modified.getD epoch)
        orphaned := orphaned
        orphanedSince := orphanedSince }

/-- One step of the scan: an entry, or the path of a store that is not managed. -/
def scanStore (env : ScanEnv) (d : StoreDir) : CacheResult (ManagedEntry ⊕ String) :=
  if d.isSymlink then .ok (.inr d.path)
  else
    match readStoreManifest env d with
    | .ok manifest => (scanManaged env d manifest).bind fun entry => .ok (.inl entry)
    | .error _ => .ok (.inr d.path)
    | .panic => .panic

/-- The workspace stores of `scan_entries`. -/
def scanWorkspaces (env : ScanEnv) : List StoreDir → CacheResult (List (ManagedEntry ⊕ String))
  | [] => .ok []
  | d :: rest => do
      let found ← scanStore env d
      let more ← scanWorkspaces env rest
      .ok (found :: more)

/-! ### Hexadecimal text is read back -/

theorem hexValue_digitChar : ∀ d, d < 16 → hexValue (Nat.digitChar d) = some d := by
  decide

theorem digitChar_ne_plus : ∀ d, d < 16 → Nat.digitChar d ≠ '+' := by
  decide

theorem utf8Size_digitChar : ∀ d, d < 16 → (Nat.digitChar d).utf8Size = 1 := by
  decide

theorem isHexDigit_digitChar : ∀ d, d < 16 → isHexDigit (Nat.digitChar d) = true := by
  decide

theorem hexByte_digitChar (b : UInt8) :
    hexByte (Nat.digitChar (b.toNat / 16)) (Nat.digitChar (b.toNat % 16)) = some b := by
  have hb := b.toNat_lt
  have hhi : b.toNat / 16 < 16 := by omega
  have hlo : b.toNat % 16 < 16 := by omega
  have hsum : 16 * (b.toNat / 16) + b.toNat % 16 = b.toNat := by omega
  rw [hexByte, if_neg (digitChar_ne_plus _ hhi), hexValue_digitChar _ hhi, hexValue_digitChar _ hlo]
  simp only [hsum, UInt8.ofNat_toNat]

theorem hexEncode_cons (b : UInt8) (bytes : Bytes) :
    hexEncode (b :: bytes) =
      Nat.digitChar (b.toNat / 16) :: Nat.digitChar (b.toNat % 16) :: hexEncode bytes := rfl

theorem hexPairs_hexEncode (bytes : Bytes) : hexPairs (hexEncode bytes) = .ok bytes := by
  induction bytes with
  | nil => rfl
  | cons b bytes ih =>
    have hb := b.toNat_lt
    rw [hexEncode_cons, hexPairs, if_pos (utf8Size_digitChar _ (by omega)),
      if_pos (utf8Size_digitChar _ (by omega)), hexByte_digitChar, ih]
    rfl

theorem byteLength_hexEncode (bytes : Bytes) : byteLength (hexEncode bytes) % 2 = 0 := by
  induction bytes with
  | nil => rfl
  | cons b bytes ih =>
    have hb := b.toNat_lt
    rw [hexEncode_cons, byteLength_cons, byteLength_cons, utf8Size_digitChar _ (by omega),
      utf8Size_digitChar _ (by omega)]
    omega

theorem hexDecode_hexEncode (bytes : Bytes) : hexDecode (hexEncode bytes) = .ok bytes := by
  rw [hexDecode, byteLength_hexEncode, hexPairs_hexEncode]
  rfl

/-! ### The manifest is read back -/

variable {text : List Char} {d : StoreDir}

theorem oneLine_of_isHexDigit (h : ∀ c ∈ text, isHexDigit c = true) : OneLine text := by
  constructor
  · intro hmem
    exact absurd (h _ hmem) (by decide)
  · intro hlast
    exact absurd (h _ (List.mem_of_getLast? hlast)) (by decide)

theorem oneLine_hexEncode (bytes : Bytes) : OneLine (hexEncode bytes) := by
  apply oneLine_of_isHexDigit
  intro c hc
  obtain ⟨b, _, hb⟩ := List.mem_flatMap.1 hc
  have hlt := b.toNat_lt
  rcases List.mem_pair.1 hb with rfl | rfl
  · exact isHexDigit_digitChar _ (by omega)
  · exact isHexDigit_digitChar _ (by omega)

theorem oneLine_of_isHexId {len : ℕ} (h : isHexId len text = true) : OneLine text := by
  simp only [isHexId, Bool.and_eq_true, List.all_eq_true] at h
  exact oneLine_of_isHexDigit h.2

theorem lines_manifestText {m : StoreManifest} (h : isHexId 16 m.workspaceHash.toList = true) :
    lines (manifestText m) = [storeManifestMagic, Nat.toDigits 10 m.formatVersion,
      m.workspaceHash.toList, Nat.toDigits 10 m.createdAtUnixSecs,
      hexEncode (Utf8.encode (Utf8.lossy m.canonicalRoot))] := by
  have hmagic : OneLine storeManifestMagic := ⟨by decide, by decide⟩
  rw [manifestText, hmagic.lines_append, (oneLine_toDigits _).lines_append,
    (oneLine_of_isHexId h).lines_append, (oneLine_toDigits _).lines_append,
    (oneLine_hexEncode _).lines_append, lines_nil]

/-- **A manifest is read back as it was written.** -/
theorem decodeManifest_encodeManifest {m : StoreManifest} (h : m.WellFormed) :
    decodeManifest (encodeManifest m) = .ok m := by
  obtain ⟨text, htext⟩ := h.root
  have hroot : Utf8.encode (Utf8.lossy m.canonicalRoot) = m.canonicalRoot := by
    rw [htext, Utf8.lossy_encode]
  have hdecode : Utf8.decode m.canonicalRoot = some text := Utf8.decode_eq_some_iff.2 htext
  rw [decodeManifest, encodeManifest, Utf8.decode_eq_some_iff.2 rfl]
  simp only [Outcome.ofOption_some, Outcome.bind_ok, lines_manifestText h.hash, hroot,
    List.getElem?_cons_zero, List.getElem?_cons_succ, decide_true, Outcome.ensure_true,
    Option.bind_some, parseUnsigned_toDigits h.formatVersion, parseUnsigned_toDigits h.createdAt,
    Option.filter_some, h.hash, if_true, hexDecode_hexEncode, hdecode, String.ofList_toList,
    ← htext]

/-! ### The contents that abort a scan -/

/-- Pairs of characters that `hex_decode` reads as bytes. -/
inductive HexPairs : List Char → Prop where
  | nil : HexPairs []
  | cons {c d : Char} {rest : List Char} : c.utf8Size = 1 → d.utf8Size = 1 →
      (hexByte c d).isSome = true → HexPairs rest → HexPairs (c :: d :: rest)

/-- After some pairs that are read as bytes, the next two bytes cut a character: its first two bytes
of three or four, or the first of several after a character of one byte. -/
def CutsCharacter (text : List Char) : Prop :=
  ∃ pairs rest, text = pairs ++ rest ∧ HexPairs pairs ∧
    ((∃ c more, rest = c :: more ∧ 3 ≤ c.utf8Size) ∨
      ∃ c d more, rest = c :: d :: more ∧ c.utf8Size = 1 ∧ 2 ≤ d.utf8Size)

/-- The text is a manifest up to its root line, which has an even number of bytes and cuts a
character. -/
def SplitsCharacter (raw : Bytes) : Prop :=
  ∃ text root, raw = Utf8.encode text ∧ (lines text)[0]? = some storeManifestMagic ∧
    ((lines text)[1]?.bind (parseUnsigned (2 ^ 32))).isSome = true ∧
    ((lines text)[2]?.filter (isHexId 16)).isSome = true ∧
    ((lines text)[3]?.bind (parseUnsigned (2 ^ 64))).isSome = true ∧
    (lines text)[4]? = some root ∧ byteLength root % 2 = 0 ∧ CutsCharacter root

/-- A marker that holds a number of seconds holds one that the clock can show. -/
def SecondsFit (content : Option Bytes) : Prop := ∀ secs, markerSecs content = some secs → secs < 2 ^ 63

theorem CutsCharacter.cons {c d : Char} {rest : List Char} (hc : c.utf8Size = 1)
    (hd : d.utf8Size = 1) (hbyte : (hexByte c d).isSome = true) (h : CutsCharacter rest) :
    CutsCharacter (c :: d :: rest) := by
  obtain ⟨pairs, more, rfl, hpairs, hcut⟩ := h
  exact ⟨c :: d :: pairs, more, rfl, .cons hc hd hbyte hpairs, hcut⟩

theorem cutsCharacter_cons_cons {c d : Char} {rest : List Char} :
    CutsCharacter (c :: d :: rest) ↔
      3 ≤ c.utf8Size ∨ (c.utf8Size = 1 ∧ 2 ≤ d.utf8Size) ∨
        (c.utf8Size = 1 ∧ d.utf8Size = 1 ∧ (hexByte c d).isSome = true ∧ CutsCharacter rest) := by
  constructor
  · rintro ⟨pairs, more, heq, hpairs, hcut⟩
    cases hpairs with
    | nil =>
      rw [List.nil_append] at heq
      subst heq
      rcases hcut with ⟨c', more', heq, hsize⟩ | ⟨c', d', more', heq, hc, hd⟩
      · obtain ⟨rfl, _⟩ := List.cons.inj heq
        exact Or.inl hsize
      · obtain ⟨rfl, htail⟩ := List.cons.inj heq
        obtain ⟨rfl, _⟩ := List.cons.inj htail
        exact Or.inr (Or.inl ⟨hc, hd⟩)
    | cons hc hd hbyte hrest =>
      simp only [List.cons_append, List.cons.injEq] at heq
      obtain ⟨rfl, rfl, rfl⟩ := heq
      exact Or.inr (Or.inr ⟨hc, hd, hbyte, _, more, rfl, hrest, hcut⟩)
  · rintro (hsize | ⟨hc, hd⟩ | ⟨hc, hd, hbyte, hrest⟩)
    · exact ⟨[], _, rfl, .nil, Or.inl ⟨c, _, rfl, hsize⟩⟩
    · exact ⟨[], _, rfl, .nil, Or.inr ⟨c, d, rest, rfl, hc, hd⟩⟩
    · exact hrest.cons hc hd hbyte

theorem cutsCharacter_singleton {c : Char} : CutsCharacter [c] ↔ 3 ≤ c.utf8Size := by
  constructor
  · rintro ⟨pairs, more, heq, hpairs, hcut⟩
    cases hpairs with
    | nil =>
      rw [List.nil_append] at heq
      subst heq
      rcases hcut with ⟨c', more', heq, hsize⟩ | ⟨c', d', more', heq, _⟩
      · obtain ⟨rfl, _⟩ := List.cons.inj heq
        exact hsize
      · cases heq
    | cons hc hd hbyte hrest => cases heq
  · intro hsize
    exact ⟨[], _, rfl, .nil, Or.inl ⟨c, [], rfl, hsize⟩⟩

theorem not_cutsCharacter_nil : ¬ CutsCharacter [] := by
  rintro ⟨pairs, more, heq, _, hcut⟩
  obtain ⟨_, rfl⟩ := List.append_eq_nil_iff.1 heq.symm
  rcases hcut with ⟨_, _, heq, _⟩ | ⟨_, _, _, heq, _⟩
  · cases heq
  · cases heq

/-- **A text of even length aborts `hex_decode` exactly when the first bytes it cannot read cut a
character.** -/
theorem hexPairs_eq_panic_iff (text : List Char) (heven : byteLength text % 2 = 0) :
    hexPairs text = .panic ↔ CutsCharacter text := by
  -- by pairs, as the loop goes
  induction text using hexPairs.induct with
  | case1 =>
    simp only [hexPairs, reduceCtorEq, false_iff]
    exact not_cutsCharacter_nil
  | case2 c h =>
    rw [cutsCharacter_singleton, hexPairs, if_pos h]
    simp only [reduceCtorEq, false_iff]
    omega
  | case3 c h =>
    rw [byteLength_cons] at heven
    have hpos := c.utf8Size_pos
    have hodd : c.utf8Size ≠ 1 := by
      intro hone
      rw [hone] at heven
      exact absurd heven (by decide)
    rw [cutsCharacter_singleton, hexPairs, if_neg h]
    simp only [true_iff]
    omega
  | case4 c d rest hc hd ih =>
    rw [byteLength_cons, byteLength_cons, hc, hd] at heven
    have ih := ih (by omega)
    rw [cutsCharacter_cons_cons, hexPairs, if_pos hc, if_pos hd]
    cases hbyte : hexByte c d with
    | none => simp [Outcome.ofOption, hc, hd]
    | some b =>
      have hsizes : ¬ 3 ≤ 1 ∧ ¬ 2 ≤ 1 := by decide
      simp only [Outcome.ofOption_some, Outcome.bind_ok, Outcome.bind_eq_panic_iff, reduceCtorEq,
        and_false, exists_false, or_false, ih, hc, hd, Option.isSome_some, true_and, hsizes.1,
        hsizes.2, false_or]
  | case5 c d rest hc hd =>
    have hpos := d.utf8Size_pos
    rw [cutsCharacter_cons_cons, hexPairs, if_pos hc, if_neg hd]
    simp only [true_iff]
    exact Or.inr (Or.inl ⟨hc, by omega⟩)
  | case6 c d rest hc htwo =>
    rw [cutsCharacter_cons_cons, hexPairs, if_neg hc, if_pos htwo]
    simp only [reduceCtorEq, false_iff]
    omega
  | case7 c d rest hc htwo =>
    have hpos := c.utf8Size_pos
    rw [cutsCharacter_cons_cons, hexPairs, if_neg hc, if_neg htwo]
    simp only [true_iff]
    exact Or.inl (by omega)

theorem hexDecode_eq_panic_iff :
    hexDecode text = .panic ↔ byteLength text % 2 = 0 ∧ CutsCharacter text := by
  rw [hexDecode, Outcome.bind_eq_panic_iff]
  constructor
  · rintro (hensure | ⟨_, hensure, hpairs⟩)
    · exact absurd hensure (Outcome.safe_ensure _ _)
    · have heven : byteLength text % 2 = 0 := by simpa using Outcome.ensure_eq_ok_iff.1 hensure
      exact ⟨heven, (hexPairs_eq_panic_iff text heven).1 hpairs⟩
  · rintro ⟨heven, hcut⟩
    exact Or.inr ⟨(), Outcome.ensure_eq_ok_iff.2 (by simpa using heven),
      (hexPairs_eq_panic_iff text heven).2 hcut⟩

theorem exists_ofOption_eq_ok {α : Type} {message : String} {o : Option α} :
    (∃ a, Outcome.ofOption message o = .ok a) ↔ o.isSome = true := by
  simp only [Outcome.ofOption_eq_ok_iff, Option.isSome_iff_exists]

/-- **Exactly the manifests that abort the scan.**  All fields before the root are asked for first, and
none of these questions panics. -/
theorem decodeManifest_eq_panic_iff (raw : Bytes) :
    decodeManifest raw = .panic ↔ SplitsCharacter raw := by
  have hofOption : ∀ {α : Type} (message : String) (o : Option α),
      Outcome.ofOption message o ≠ .panic := fun message o => Outcome.safe_ofOption message o
  have hensure : ∀ (message : String) (b : Bool), Outcome.ensure message b ≠ .panic :=
    fun message b => Outcome.safe_ensure message b
  simp only [decodeManifest, Outcome.bind_eq_panic_iff, hofOption, hensure, false_or,
    Outcome.ensure_eq_ok_iff, decide_eq_true_eq, hexDecode_eq_panic_iff, reduceCtorEq, and_false,
    exists_false, or_false]
  constructor
  · rintro ⟨text, htext, _, hmagic, version, hversion, hash, hhash, created, hcreated, root, hroot,
      heven, hcut⟩
    rw [Outcome.ofOption_eq_ok_iff] at htext hroot
    exact ⟨text, root, Utf8.decode_eq_some_iff.1 htext, hmagic,
      exists_ofOption_eq_ok.1 ⟨version, hversion⟩, exists_ofOption_eq_ok.1 ⟨hash, hhash⟩,
      exists_ofOption_eq_ok.1 ⟨created, hcreated⟩, hroot, heven, hcut⟩
  · rintro ⟨text, root, htext, hmagic, hversion, hhash, hcreated, hroot, heven, hcut⟩
    obtain ⟨version, hversion⟩ := exists_ofOption_eq_ok.2 hversion
    obtain ⟨hash, hhash⟩ := exists_ofOption_eq_ok.2 hhash
    obtain ⟨created, hcreated⟩ := exists_ofOption_eq_ok.2 hcreated
    exact ⟨text, Outcome.ofOption_eq_ok_iff.2 (Utf8.decode_eq_some_iff.2 htext), (), hmagic, version,
      hversion, hash, hhash, created, hcreated, root, Outcome.ofOption_eq_ok_iff.2 hroot, heven, hcut⟩

/-- A marker aborts its reader exactly when its number is out of the clock's range. -/
theorem addToEpoch_eq_panic_iff {secs : ℕ} :
    ((Outcome.unwrap (SystemTime.ofUnixSecs secs) : CacheResult SystemTime).bind
      fun t => .ok (some t)) = .panic ↔ 2 ^ 63 ≤ secs := by
  rw [← ofUnixSecs_eq_none_iff]
  cases SystemTime.ofUnixSecs secs with
  | none => simp [Outcome.unwrap, Outcome.bind]
  | some t => simp [Outcome.unwrap, Outcome.bind]

theorem readUnixTimestamp_safe_iff (content : Option Bytes) :
    (readUnixTimestamp content).Safe ↔ SecondsFit content := by
  unfold Outcome.Safe readUnixTimestamp SecondsFit
  cases markerSecs content with
  | none => simp
  | some secs => simp [addToEpoch_eq_panic_iff]

theorem readLastUsed_safe_iff (content : Option Bytes) (modified : Option SystemTime) :
    (readLastUsed content modified).Safe ↔ SecondsFit content := by
  unfold Outcome.Safe readLastUsed SecondsFit
  cases markerSecs content with
  | none => simp
  | some secs => simp [addToEpoch_eq_panic_iff]

/-! ### The scan goes on -/

/-- The contents of a store that do not abort a scan. -/
structure StoreDir.Readable (d : StoreDir) : Prop where
  manifest : ∀ raw, d.manifest = some raw → ¬ SplitsCharacter raw
  lastUsed : SecondsFit d.lastUsed
  orphanedSince : SecondsFit d.orphanedSince

theorem readStoreManifest_safe (env : ScanEnv) (h : d.Readable) :
    (readStoreManifest env d).Safe := by
  refine (Outcome.safe_ensure _ _).bind fun _ _ => (Outcome.safe_ofOption _ _).bind ?_
  intro raw hraw
  have hsafe : (decodeManifest raw).Safe := by
    rw [Outcome.Safe, Ne, decodeManifest_eq_panic_iff]
    exact h.manifest raw (Outcome.ofOption_eq_ok_iff.1 hraw)
  exact hsafe.bind fun _ _ => (Outcome.safe_ensure _ _).bind fun _ _ => Outcome.safe_ok _

theorem ofUnixSecs_of_lt {secs : ℕ} (h : secs < 2 ^ 63) :
    ∃ time, SystemTime.ofUnixSecs secs = some time := by
  cases htime : SystemTime.ofUnixSecs secs with
  | none =>
    have := ofUnixSecs_eq_none_iff.1 htime
    omega
  | some time => exact ⟨time, rfl⟩

theorem readUnixTimestamp_ok {content : Option Bytes} (h : SecondsFit content) :
    ∃ since, readUnixTimestamp content = .ok since := by
  unfold readUnixTimestamp
  cases hsecs : markerSecs content with
  | none => exact ⟨none, rfl⟩
  | some secs =>
    obtain ⟨time, htime⟩ := ofUnixSecs_of_lt (h secs hsecs)
    exact ⟨some time, by simp only [htime]; rfl⟩

theorem readLastUsed_ok {content : Option Bytes} (h : SecondsFit content)
    (modified : Option SystemTime) : ∃ lastUsed, readLastUsed content modified = .ok lastUsed := by
  unfold readLastUsed
  cases hsecs : markerSecs content with
  | none => exact ⟨modified, rfl⟩
  | some secs =>
    obtain ⟨time, htime⟩ := ofUnixSecs_of_lt (h secs hsecs)
    exact ⟨some time, by simp only [htime]; rfl⟩

theorem updateOrphanMarker_ok (env : ScanEnv) (h : SecondsFit d.orphanedSince) (orphaned : Bool) :
    ∃ since, updateOrphanMarker env d orphaned = .ok since := by
  unfold updateOrphanMarker
  obtain ⟨since, hsince⟩ := readUnixTimestamp_ok h
  -- the clock itself is always in range
  obtain ⟨time, htime⟩ := ofUnixSecs_of_lt (unixSecs_lt env.now)
  cases orphaned with
  | false => exact ⟨none, rfl⟩
  | true =>
    rw [if_pos rfl, hsince, Outcome.bind_ok]
    cases since with
    | some time => exact ⟨some time, rfl⟩
    | none =>
      cases hmark : env.markNewOrphans with
      | false => exact ⟨none, rfl⟩
      | true => exact ⟨some time, by simp only [if_true, htime]; rfl⟩

theorem scanManaged_ok (env : ScanEnv) (h : d.Readable) (m : StoreManifest) :
    ∃ entry, scanManaged env d m = .ok entry := by
  obtain ⟨lastUsed, hlast⟩ := readLastUsed_ok h.lastUsed d.lastUsedModified
  obtain ⟨since, hsince⟩ :=
    updateOrphanMarker_ok env h.orphanedSince (!env.rootExists m.canonicalRoot)
  unfold scanManaged
  simp only [hlast, Outcome.bind_ok, hsince]
  exact ⟨_, rfl⟩

theorem scanStore_ok (env : ScanEnv) (h : d.Readable) : ∃ found, scanStore env d = .ok found := by
  unfold scanStore
  split
  · exact ⟨_, rfl⟩
  · cases hread : readStoreManifest env d with
    | ok m =>
      obtain ⟨entry, hentry⟩ := scanManaged_ok env h m
      simp only [hentry]
      exact ⟨_, rfl⟩
    | error e => exact ⟨_, rfl⟩
    | panic => exact absurd hread (readStoreManifest_safe env h)

/-- **The scan goes through all stores** that are readable, and finds something to say of each. -/
theorem scanWorkspaces_ok (env : ScanEnv) {dirs : List StoreDir} (h : ∀ d ∈ dirs, d.Readable) :
    ∃ found, scanWorkspaces env dirs = .ok found ∧ found.length = dirs.length := by
  induction dirs with
  | nil => exact ⟨[], rfl, rfl⟩
  | cons d rest ih =>
    obtain ⟨first, hfirst⟩ := scanStore_ok env (h d List.mem_cons_self)
    obtain ⟨more, hmore, hlen⟩ := ih fun e he => h e (List.mem_cons_of_mem _ he)
    refine ⟨first :: more, ?_, ?_⟩
    · rw [scanWorkspaces, hfirst, Outcome.bind_ok, hmore]
      rfl
    · rw [List.length_cons, List.length_cons, hlen]

/-! ### All readers -/

/-- The readers of a store's metadata return, whatever its files hold. -/
structure NeverPanics (manifest lastUsed orphanedSince : Bytes) : Prop where
  manifest : (decodeManifest manifest).Safe
  lastUsed : ∀ modified, (readLastUsed (some lastUsed) modified).Safe
  orphanedSince : (readUnixTimestamp (some orphanedSince)).Safe

/-- **Cache metadata: round trip and totality.**  A well-formed manifest is read back; the readers of a
store's metadata return a value or an error exactly when its manifest does not cut a character and
its markers hold no number out of the clock's range; and a scan goes through all stores that are so. -/
theorem cacheMetadata_total_iff (manifest lastUsed orphanedSince : Bytes) :
    (∀ m : StoreManifest, m.WellFormed → decodeManifest (encodeManifest m) = .ok m) ∧
    (NeverPanics manifest lastUsed orphanedSince ↔
      ¬ SplitsCharacter manifest ∧ SecondsFit (some lastUsed) ∧
        SecondsFit (some orphanedSince)) ∧
    ∀ (env : ScanEnv) (dirs : List StoreDir), (∀ d ∈ dirs, d.Readable) →
      ∃ found, scanWorkspaces env dirs = .ok found ∧ found.length = dirs.length := by
  refine ⟨fun m => decodeManifest_encodeManifest, ?_, fun env dirs => scanWorkspaces_ok env⟩
  constructor
  · intro h
    refine ⟨?_, (readLastUsed_safe_iff _ none).1 (h.lastUsed none),
      (readUnixTimestamp_safe_iff _).1 h.orphanedSince⟩
    intro hsplit
    exact h.manifest ((decodeManifest_eq_panic_iff manifest).2 hsplit)
  · rintro ⟨hmanifest, hlast, hsince⟩
    refine ⟨?_, fun modified => (readLastUsed_safe_iff _ modified).2 hlast,
      (readUnixTimestamp_safe_iff _).2 hsince⟩
    intro hpanic
    exact hmanifest ((decodeManifest_eq_panic_iff manifest).1 hpanic)

/-- The manifest of a store for `/repo`. -/
def repoManifest : StoreManifest :=
  ⟨2, "0123456789abcdef", "/repo".toUTF8.toList, 1700000000⟩

theorem cacheMetadata_total_iff_repo :
    decodeManifest (encodeManifest repoManifest) = .ok repoManifest := by
  apply (cacheMetadata_total_iff [] [] []).1
  refine ⟨by decide, by decide, by decide +kernel, "/repo".toList, ?_⟩
  decide +kernel

/-- A manifest whose root line is a character of three bytes and one of one byte. -/
def cutManifest : Bytes :=
  "greppy-workspace-store\n2\n0123456789abcdef\n0\n€a\n".toUTF8.toList

/-- **Readers panic** on a root line that is not ASCII and on a number beyond the clock's range. -/
theorem readers_panic :
    decodeManifest cutManifest = .panic ∧
      readLastUsed (some "9223372036854775808".toUTF8.toList) none = .panic ∧
      readUnixTimestamp (some "9223372036854775808".toUTF8.toList) = .panic := by
  decide +kernel

end Greppy
