/-
**Decoding UTF-8, strictly and lossily.**

A byte sequence falls into chunks: each is the encoding of a character, or a sequence that is broken
off where it can no longer become one.  A strict decoder accepts the bytes when every chunk is a
character; a lossy one puts U+FFFD for each of the others.  The encoder is the one of the core
library, `String.utf8EncodeChar`.

Main definitions:

* `Utf8.head` — the first chunk: its character, if it is one, and its number of bytes;
* `Utf8.chunks`, `Utf8.decode`, `Utf8.lossy` — all chunks, strict and lossy decoding.

Main results:

* `Utf8.chunks_encode_append`, `Utf8.eq_append_of_head` — a chunk is a character exactly when it is
  the character's encoding;
* `Utf8.decode_eq_some_iff` — strict decoding is the inverse of encoding;
* `Utf8.lossy_inj_of_clean`, `Utf8.exists_ne_same_lossy` — lossy decoding determines the bytes exactly
  when it shows no U+FFFD;
* `Utf8.isPrefix_lossy_iff` — a beginning of what is shown is a beginning of the bytes;
* `Utf8.lossy_append_ascii` — an ASCII byte shows as itself, whatever stands around it.
-/

import Mathlib.Data.List.Basic

set_option autoImplicit false

namespace Utf8

/-! ### The first chunk -/

def isTail (b : UInt8) : Bool := decide (0x80 ≤ b.toNat ∧ b.toNat ≤ 0xBF)

/-- The continuation bytes that may follow the first byte `x`: none that would make the encoding
overlong, a surrogate or too large. -/
def isSecond (x : ℕ) (b : UInt8) : Bool :=
  isTail b && decide (x = 0xE0 → 0xA0 ≤ b.toNat) && decide (x = 0xED → b.toNat ≤ 0x9F) &&
    decide (x = 0xF0 → 0x90 ≤ b.toNat) && decide (x = 0xF4 → b.toNat ≤ 0x8F)

/-- The first chunk of `b₀ :: rest`: its character, if it is one, and its number of bytes. -/
def head (b₀ : UInt8) (rest : List UInt8) : Option Char × ℕ :=
  let x := b₀.toNat
  if x < 0x80 then (some (Char.ofNat x), 1)
  else if 0xC2 ≤ x ∧ x ≤ 0xDF then
    match rest with
    | [] => (none, 1)
    | b₁ :: _ =>
      if isTail b₁ then (some (Char.ofNat ((x - 0xC0) * 64 + (b₁.toNat - 0x80))), 2)
      else (none, 1)
  else if 0xE0 ≤ x ∧ x ≤ 0xEF then
    match rest with
    | [] => (none, 1)
    | [b₁] => if isSecond x b₁ then (none, 2) else (none, 1)
    | b₁ :: b₂ :: _ =>
      if isSecond x b₁ then
        if isTail b₂ then
          (some (Char.ofNat
            ((x - 0xE0) * 4096 + (b₁.toNat - 0x80) * 64 + (b₂.toNat - 0x80))), 3)
        else (none, 2)
      else (none, 1)
  else if 0xF0 ≤ x ∧ x ≤ 0xF4 then
    match rest with
    | [] => (none, 1)
    | [b₁] => if isSecond x b₁ then (none, 2) else (none, 1)
    | [b₁, b₂] =>
      if isSecond x b₁ then if isTail b₂ then (none, 3) else (none, 2) else (none, 1)
    | b₁ :: b₂ :: b₃ :: _ =>
      if isSecond x b₁ then
        if isTail b₂ then
          if isTail b₃ then
            (some (Char.ofNat ((x - 0xF0) * 262144 + (b₁.toNat - 0x80) * 4096 +
              (b₂.toNat - 0x80) * 64 + (b₃.toNat - 0x80))), 4)
          else (none, 3)
        else (none, 2)
      else (none, 1)
  else (none, 1)

theorem head_pos (b : UInt8) (rest : List UInt8) : 1 ≤ (head b rest).2 := by
  unfold head
  grind

/-! ### Chunks that are characters -/

variable {n : ℕ} {b x b₀ b₁ : UInt8} {rest bytes : List UInt8} {text : List Char}

theorem toNat_ofNat_of_valid (h : n < 0xD800 ∨ 0xDFFF < n ∧ n < 0x110000) :
    (Char.ofNat n).toNat = n := by
  have hvalid : n.isValidChar := h
  rw [Char.ofNat, dif_pos hvalid]
  rfl

theorem byte_eq_ofNat (h : b.toNat = n) : UInt8.ofNat n = b := by
  rw [← h, UInt8.ofNat_toNat]

theorem isTail_iff : isTail b = true ↔ 0x80 ≤ b.toNat ∧ b.toNat ≤ 0xBF :=
  decide_eq_true_iff

theorem isSecond_iff {x : ℕ} : isSecond x b = true ↔
    (0x80 ≤ b.toNat ∧ b.toNat ≤ 0xBF) ∧ (x = 0xE0 → 0xA0 ≤ b.toNat) ∧
      (x = 0xED → b.toNat ≤ 0x9F) ∧ (x = 0xF0 → 0x90 ≤ b.toNat) ∧
      (x = 0xF4 → b.toNat ≤ 0x8F) := by
  simp only [isSecond, Bool.and_eq_true, isTail_iff, decide_eq_true_eq, and_assoc]

theorem encode_one (h : b.toNat < 0x80) : String.utf8EncodeChar (Char.ofNat b.toNat) = [b] := by
  have hn := toNat_ofNat_of_valid (n := b.toNat) (by omega)
  simp only [String.utf8EncodeChar, Char.toNat_val, hn]
  rw [if_pos (by omega), UInt8.ofNat_toNat]

theorem encode_two (h₀ : 0xC2 ≤ b₀.toNat ∧ b₀.toNat ≤ 0xDF) (h₁ : isTail b₁ = true) :
    String.utf8EncodeChar (Char.ofNat ((b₀.toNat - 0xC0) * 64 + (b₁.toNat - 0x80))) =
      [b₀, b₁] := by
  rw [isTail_iff] at h₁
  have hn := toNat_ofNat_of_valid (n := (b₀.toNat - 0xC0) * 64 + (b₁.toNat - 0x80)) (by omega)
  simp only [String.utf8EncodeChar, Char.toNat_val, hn]
  rw [if_neg (by omega), if_pos (by omega), byte_eq_ofNat (b := b₀) (by omega),
    byte_eq_ofNat (b := b₁) (by omega)]

theorem encode_three {b₂ : UInt8} (h₀ : 0xE0 ≤ b₀.toNat ∧ b₀.toNat ≤ 0xEF)
    (h₁ : isSecond b₀.toNat b₁ = true) (h₂ : isTail b₂ = true) :
    String.utf8EncodeChar (Char.ofNat
      ((b₀.toNat - 0xE0) * 4096 + (b₁.toNat - 0x80) * 64 + (b₂.toNat - 0x80))) =
        [b₀, b₁, b₂] := by
  rw [isTail_iff] at h₂
  rw [isSecond_iff] at h₁
  have hn := toNat_ofNat_of_valid
    (n := (b₀.toNat - 0xE0) * 4096 + (b₁.toNat - 0x80) * 64 + (b₂.toNat - 0x80)) (by omega)
  simp only [String.utf8EncodeChar, Char.toNat_val, hn]
  rw [if_neg (by omega), if_neg (by omega), if_pos (by omega), byte_eq_ofNat (b := b₀) (by omega),
    byte_eq_ofNat (b := b₁) (by omega), byte_eq_ofNat (b := b₂) (by omega)]

theorem encode_four {b₂ b₃ : UInt8} (h₀ : 0xF0 ≤ b₀.toNat ∧ b₀.toNat ≤ 0xF4)
    (h₁ : isSecond b₀.toNat b₁ = true) (h₂ : isTail b₂ = true) (h₃ : isTail b₃ = true) :
    String.utf8EncodeChar (Char.ofNat ((b₀.toNat - 0xF0) * 262144 + (b₁.toNat - 0x80) * 4096 +
      (b₂.toNat - 0x80) * 64 + (b₃.toNat - 0x80))) = [b₀, b₁, b₂, b₃] := by
  rw [isTail_iff] at h₂ h₃
  rw [isSecond_iff] at h₁
  have hn := toNat_ofNat_of_valid (n := (b₀.toNat - 0xF0) * 262144 + (b₁.toNat - 0x80) * 4096 +
    (b₂.toNat - 0x80) * 64 + (b₃.toNat - 0x80)) (by omega)
  simp only [String.utf8EncodeChar, Char.toNat_val, hn]
  rw [if_neg (by omega), if_neg (by omega), if_neg (by omega), byte_eq_ofNat (b := b₀) (by omega),
    byte_eq_ofNat (b := b₁) (by omega), byte_eq_ofNat (b := b₂) (by omega),
    byte_eq_ofNat (b := b₃) (by omega)]

/-- **A chunk that is a character is the character's encoding.** -/
theorem eq_append_of_head {c : Char} (h : (head b rest).1 = some c) :
    b :: rest = String.utf8EncodeChar c ++ (b :: rest).drop (head b rest).2 := by
  unfold head at h ⊢
  simp only at h ⊢
  by_cases h₀ : b.toNat < 0x80
  · rw [if_pos h₀] at h ⊢
    cases h
    rw [encode_one h₀]
    rfl
  rw [if_neg h₀] at h ⊢
  by_cases h₁ : 0xC2 ≤ b.toNat ∧ b.toNat ≤ 0xDF
  · rw [if_pos h₁] at h ⊢
    match rest with
    | [] => cases h
    | b₁ :: rest =>
      by_cases ht : isTail b₁ = true
      · simp only [if_pos ht] at h ⊢
        rw [← Option.some.inj h, encode_two h₁ ht]
        rfl
      · simp only [if_neg ht] at h
        cases h
  rw [if_neg h₁] at h ⊢
  by_cases h₂ : 0xE0 ≤ b.toNat ∧ b.toNat ≤ 0xEF
  · rw [if_pos h₂] at h ⊢
    match rest with
    | [] => cases h
    | [b₁] =>
      simp only at h
      split at h
      · cases h
      · cases h
    | b₁ :: b₂ :: rest =>
      by_cases hs : isSecond b.toNat b₁ = true
      · by_cases ht : isTail b₂ = true
        · simp only [if_pos hs, if_pos ht] at h ⊢
          rw [← Option.some.inj h, encode_three h₂ hs ht]
          rfl
        · simp only [if_pos hs, if_neg ht] at h
          cases h
      · simp only [if_neg hs] at h
        cases h
  rw [if_neg h₂] at h ⊢
  by_cases h₃ : 0xF0 ≤ b.toNat ∧ b.toNat ≤ 0xF4
  · rw [if_pos h₃] at h ⊢
    match rest with
    | [] => cases h
    | [b₁] =>
      simp only at h
      split at h
      · cases h
      · cases h
    | [b₁, b₂] =>
      simp only at h
      split at h
      · split at h
        · cases h
        · cases h
      · cases h
    | b₁ :: b₂ :: b₃ :: rest =>
      by_cases hs : isSecond b.toNat b₁ = true
      · by_cases ht : isTail b₂ = true
        · by_cases hu : isTail b₃ = true
          · simp only [if_pos hs, if_pos ht, if_pos hu] at h ⊢
            rw [← Option.some.inj h, encode_four h₃ hs ht hu]
            rfl
          · simp only [if_pos hs, if_pos ht, if_neg hu] at h
            cases h
        · simp only [if_pos hs, if_neg ht] at h
          cases h
      · simp only [if_neg hs] at h
        cases h
  · rw [if_neg h₃] at h
    cases h

/-- The encoding of a character, byte by byte, is a chunk that is that character. -/
theorem exists_head_encode (c : Char) (rest : List UInt8) :
    ∃ b tail, String.utf8EncodeChar c = b :: tail ∧
      head b (tail ++ rest) = (some c, tail.length + 1) := by
  have hmax : c.toNat < 0xD800 ∨ 0xDFFF < c.toNat ∧ c.toNat < 0x110000 := c.valid
  unfold String.utf8EncodeChar
  simp only [Char.toNat_val]
  by_cases h₀ : c.toNat ≤ 0x7f
  · rw [if_pos h₀]
    refine ⟨_, _, rfl, ?_⟩
    have hb : (UInt8.ofNat c.toNat).toNat = c.toNat := by
      rw [UInt8.toNat_ofNat']
      omega
    simp only [head, hb]
    rw [if_pos (by omega), Char.ofNat_toNat]
    rfl
  rw [if_neg h₀]
  by_cases h₁ : c.toNat ≤ 0x7ff
  · rw [if_pos h₁]
    refine ⟨_, _, rfl, ?_⟩
    have hb : (UInt8.ofNat (c.toNat / 64 % 32 + 192)).toNat = c.toNat / 64 + 192 := by
      rw [UInt8.toNat_ofNat']
      omega
    have hb₁ : (UInt8.ofNat (c.toNat % 64 + 128)).toNat = c.toNat % 64 + 128 := by
      rw [UInt8.toNat_ofNat']
      omega
    have ht : isTail (UInt8.ofNat (c.toNat % 64 + 128)) = true := by
      rw [isTail_iff, hb₁]
      omega
    have hn : (c.toNat / 64 + 192 - 0xC0) * 64 + (c.toNat % 64 + 128 - 0x80) = c.toNat := by omega
    simp only [head, hb, List.cons_append]
    rw [if_neg (by omega), if_pos (by omega), if_pos ht, hb₁, hn, Char.ofNat_toNat]
    rfl
  rw [if_neg h₁]
  by_cases h₂ : c.toNat ≤ 0xffff
  · rw [if_pos h₂]
    refine ⟨_, _, rfl, ?_⟩
    have hb : (UInt8.ofNat (c.toNat / 4096 % 16 + 224)).toNat = c.toNat / 4096 + 224 := by
      rw [UInt8.toNat_ofNat']
      omega
    have hb₁ : (UInt8.ofNat (c.toNat / 64 % 64 + 128)).toNat = c.toNat / 64 % 64 + 128 := by
      rw [UInt8.toNat_ofNat']
      omega
    have hb₂ : (UInt8.ofNat (c.toNat % 64 + 128)).toNat = c.toNat % 64 + 128 := by
      rw [UInt8.toNat_ofNat']
      omega
    have hs : isSecond (c.toNat / 4096 + 224) (UInt8.ofNat (c.toNat / 64 % 64 + 128)) = true := by
      rw [isSecond_iff, hb₁]
      omega
    have ht : isTail (UInt8.ofNat (c.toNat % 64 + 128)) = true := by
      rw [isTail_iff, hb₂]
      omega
    have hn : (c.toNat / 4096 + 224 - 0xE0) * 4096 + (c.toNat / 64 % 64 + 128 - 0x80) * 64 +
        (c.toNat % 64 + 128 - 0x80) = c.toNat := by omega
    simp only [head, hb, List.cons_append]
    rw [if_neg (by omega), if_neg (by omega), if_pos (by omega), if_pos hs, if_pos ht, hb₁, hb₂, hn,
      Char.ofNat_toNat]
    rfl
  · rw [if_neg h₂]
    refine ⟨_, _, rfl, ?_⟩
    have hb : (UInt8.ofNat (c.toNat / 262144 % 8 + 240)).toNat = c.toNat / 262144 + 240 := by
      rw [UInt8.toNat_ofNat']
      omega
    have hb₁ : (UInt8.ofNat (c.toNat / 4096 % 64 + 128)).toNat = c.toNat / 4096 % 64 + 128 := by
      rw [UInt8.toNat_ofNat']
      omega
    have hb₂ : (UInt8.ofNat (c.toNat / 64 % 64 + 128)).toNat = c.toNat / 64 % 64 + 128 := by
      rw [UInt8.toNat_ofNat']
      omega
    have hb₃ : (UInt8.ofNat (c.toNat % 64 + 128)).toNat = c.toNat % 64 + 128 := by
      rw [UInt8.toNat_ofNat']
      omega
    have hs : isSecond (c.toNat / 262144 + 240) (UInt8.ofNat (c.toNat / 4096 % 64 + 128)) =
        true := by
      rw [isSecond_iff, hb₁]
      omega
    have ht : isTail (UInt8.ofNat (c.toNat / 64 % 64 + 128)) = true := by
      rw [isTail_iff, hb₂]
      omega
    have hu : isTail (UInt8.ofNat (c.toNat % 64 + 128)) = true := by
      rw [isTail_iff, hb₃]
      omega
    have hn : (c.toNat / 262144 + 240 - 0xF0) * 262144 + (c.toNat / 4096 % 64 + 128 - 0x80) * 4096 +
        (c.toNat / 64 % 64 + 128 - 0x80) * 64 + (c.toNat % 64 + 128 - 0x80) = c.toNat := by omega
    simp only [head, hb, List.cons_append]
    rw [if_neg (by omega), if_neg (by omega), if_neg (by omega), if_pos (by omega), if_pos hs,
      if_pos ht, if_pos hu, hb₁, hb₂, hb₃, hn, Char.ofNat_toNat]
    rfl

/-! ### All chunks -/

/-- The chunks of a byte sequence, each with its character if it is one. -/
def chunksFrom : ℕ → List UInt8 → List (Option Char)
  | _, [] => []
  | 0, _ :: _ => []
  | fuel + 1, b :: rest =>
    (head b rest).1 :: chunksFrom fuel ((b :: rest).drop (head b rest).2)

/-- All chunks; every chunk has a byte, so there are at most as many. -/
def chunks (bytes : List UInt8) : List (Option Char) := chunksFrom bytes.length bytes

/-- Strict decoding: every chunk is a character. -/
def decode (bytes : List UInt8) : Option (List Char) :=
  if (chunks bytes).all Option.isSome then some ((chunks bytes).filterMap id) else none

def replacement : Char := Char.ofNat 0xFFFD

/-- Lossy decoding: U+FFFD for each chunk that is no character. -/
def lossy (bytes : List UInt8) : List Char := (chunks bytes).map fun c => c.getD replacement

def encode (text : List Char) : List UInt8 := text.flatMap String.utf8EncodeChar

theorem length_drop_head (b : UInt8) (rest : List UInt8) :
    ((b :: rest).drop (head b rest).2).length ≤ rest.length := by
  have := head_pos b rest
  rw [List.length_drop, List.length_cons]
  omega

theorem chunksFrom_eq {fuel fuel' : ℕ} (h : bytes.length ≤ fuel) (h' : bytes.length ≤ fuel') :
    chunksFrom fuel bytes = chunksFrom fuel' bytes := by
  induction fuel generalizing fuel' bytes with
  | zero =>
    rw [List.length_eq_zero_iff.1 (Nat.le_zero.1 h)]
    cases fuel' <;> rfl
  | succ fuel ih =>
    cases bytes with
    | nil => cases fuel' <;> rfl
    | cons b rest =>
      have hdrop := length_drop_head b rest
      rw [List.length_cons] at h h'
      cases fuel' with
      | zero => omega
      | succ fuel' =>
        have hfuel : ((b :: rest).drop (head b rest).2).length ≤ fuel := by omega
        have hfuel' : ((b :: rest).drop (head b rest).2).length ≤ fuel' := by omega
        rw [chunksFrom, chunksFrom, ih hfuel hfuel']

@[simp] theorem chunks_nil : chunks [] = [] := rfl

theorem chunks_cons (b : UInt8) (rest : List UInt8) :
    chunks (b :: rest) = (head b rest).1 :: chunks ((b :: rest).drop (head b rest).2) := by
  have hfuel := chunksFrom_eq (length_drop_head b rest)
    (Nat.le_refl ((b :: rest).drop (head b rest).2).length)
  rw [chunks, List.length_cons, chunksFrom, chunks, hfuel]

theorem chunks_encode_append (c : Char) (rest : List UInt8) :
    chunks (String.utf8EncodeChar c ++ rest) = some c :: chunks rest := by
  obtain ⟨b, tail, henc, hhead⟩ := exists_head_encode c rest
  rw [henc, List.cons_append, chunks_cons, hhead, List.drop_succ_cons, List.drop_left]

theorem chunks_encode (text : List Char) (rest : List UInt8) :
    chunks (encode text ++ rest) = text.map some ++ chunks rest := by
  induction text with
  | nil => rfl
  | cons c text ih =>
    rw [encode, List.flatMap_cons, List.append_assoc, chunks_encode_append, List.map_cons,
      List.cons_append, ← ih]
    rfl

theorem eq_encode_of_chunks (h : chunks bytes = text.map some) : bytes = encode text := by
  induction text generalizing bytes with
  | nil =>
    cases bytes with
    | nil => rfl
    | cons b rest =>
      rw [chunks_cons] at h
      cases h
  | cons c text ih =>
    cases bytes with
    | nil => cases h
    | cons b rest =>
      rw [chunks_cons, List.map_cons, List.cons.injEq] at h
      rw [eq_append_of_head h.1, ih h.2]
      rfl

/-! ### Strict decoding -/

theorem filterMap_id_of_all {l : List (Option Char)} (h : l.all Option.isSome = true) :
    (l.filterMap id).map some = l := by
  induction l with
  | nil => rfl
  | cons o rest ih =>
    rw [List.all_cons, Bool.and_eq_true] at h
    cases o with
    | none => cases h.1
    | some c =>
      have hid : (some c :: rest).filterMap id = c :: rest.filterMap id := rfl
      rw [hid, List.map_cons, ih h.2]

/-- **Strict decoding is the inverse of encoding.** -/
theorem decode_eq_some_iff : decode bytes = some text ↔ bytes = encode text := by
  constructor
  · intro h
    unfold decode at h
    split at h
    · rename_i hall
      cases h
      exact eq_encode_of_chunks (filterMap_id_of_all hall).symm
    · cases h
  · intro h
    have hchunks : chunks bytes = text.map some := by
      have henc := chunks_encode text []
      rwa [List.append_nil, chunks_nil, List.append_nil, ← h] at henc
    have hall : (text.map some).all Option.isSome = true := by simp
    have htext : (text.map some).filterMap id = text := by simp
    rw [decode, hchunks, if_pos hall, htext]

/-! ### Lossy decoding -/

@[simp] theorem lossy_nil : lossy [] = [] := rfl

theorem lossy_cons (b : UInt8) (rest : List UInt8) :
    lossy (b :: rest) =
      (head b rest).1.getD replacement :: lossy ((b :: rest).drop (head b rest).2) := by
  rw [lossy, chunks_cons, List.map_cons]
  rfl

theorem lossy_encode_append (c : Char) (rest : List UInt8) :
    lossy (String.utf8EncodeChar c ++ rest) = c :: lossy rest := by
  rw [lossy, chunks_encode_append, List.map_cons]
  rfl

theorem lossy_encode (text : List Char) : lossy (encode text) = text := by
  have henc := chunks_encode text []
  rw [List.append_nil, chunks_nil, List.append_nil] at henc
  rw [lossy, henc, List.map_map]
  exact List.map_id text

/-- Bytes that show without U+FFFD are the encoding of what they show. -/
theorem eq_encode_lossy (h : replacement ∉ lossy bytes) : bytes = encode (lossy bytes) := by
  apply eq_encode_of_chunks
  have hsome : ∀ o ∈ chunks bytes, o = some (o.getD replacement) := by
    intro o ho
    cases o with
    | none => exact absurd (List.mem_map.2 ⟨none, ho, rfl⟩) h
    | some c => rfl
  rw [lossy, List.map_map]
  calc chunks bytes = (chunks bytes).map id := (List.map_id _).symm
    _ = (chunks bytes).map (some ∘ fun o => o.getD replacement) := List.map_congr_left hsome

/-- **Bytes that show without U+FFFD are determined by what they show.** -/
theorem lossy_inj_of_clean {bytes' : List UInt8} (hclean : replacement ∉ lossy bytes)
    (h : lossy bytes' = lossy bytes) : bytes' = bytes := by
  have hclean' : replacement ∉ lossy bytes' := by rwa [h]
  rw [eq_encode_lossy hclean', eq_encode_lossy hclean, h]

/-- The byte `0xFF` is a broken sequence on its own, and so is `0xFE`. -/
theorem lossy_broken (h : b = 0xFF ∨ b = 0xFE) (rest : List UInt8) :
    lossy (b :: rest) = replacement :: lossy rest := by
  rcases h with rfl | rfl
  · rw [lossy_cons]
    rfl
  · rw [lossy_cons]
    rfl

/-- **Other bytes show the same whenever a U+FFFD is shown.** -/
theorem exists_ne_same_lossy (h : replacement ∈ lossy bytes) :
    ∃ bytes', bytes' ≠ bytes ∧ lossy bytes' = lossy bytes := by
  induction hlen : bytes.length using Nat.strongRecOn generalizing bytes with
  | _ n ih =>
    cases bytes with
    | nil => cases h
    | cons b rest =>
      by_cases hfirst : (head b rest).1.getD replacement = replacement
      · -- the first chunk shows as U+FFFD: so does a broken byte in its place
        obtain ⟨x, hx, hne⟩ : ∃ x : UInt8, (x = 0xFF ∨ x = 0xFE) ∧ x ≠ b := by
          by_cases hb : b = 0xFF
          · exact ⟨0xFE, Or.inr rfl, by rw [hb]; decide⟩
          · exact ⟨0xFF, Or.inl rfl, Ne.symm hb⟩
        refine ⟨x :: (b :: rest).drop (head b rest).2, ?_, ?_⟩
        · intro heq
          exact hne (List.cons.inj heq).1
        · rw [lossy_broken hx, lossy_cons, hfirst]
      · -- it is a character, and the U+FFFD comes later
        cases hhead : (head b rest).1 with
        | none =>
          rw [hhead] at hfirst
          exact absurd rfl hfirst
        | some c =>
          have hsplit := eq_append_of_head hhead
          rw [lossy_cons, hhead] at h
          rw [hhead] at hfirst
          have hlater : replacement ∈ lossy ((b :: rest).drop (head b rest).2) := by
            rcases List.mem_cons.1 h with heq | hmem
            · exact absurd heq.symm hfirst
            · exact hmem
          have hshort := length_drop_head b rest
          rw [List.length_cons] at hlen
          obtain ⟨bytes', hne, hsame⟩ := ih _ (by omega) hlater rfl
          refine ⟨String.utf8EncodeChar c ++ bytes', ?_, ?_⟩
          · intro heq
            rw [hsplit] at heq
            exact hne (List.append_cancel_left heq)
          · rw [lossy_encode_append, hsame, lossy_cons, hhead]
            rfl

/-- **A text without U+FFFD begins what is shown exactly when its encoding begins the bytes.** -/
theorem isPrefix_lossy_iff (h : replacement ∉ text) :
    text <+: lossy bytes ↔ encode text <+: bytes := by
  constructor
  · intro hshown
    induction text generalizing bytes with
    | nil => exact List.nil_prefix
    | cons c text ih =>
      rw [List.mem_cons, not_or] at h
      cases bytes with
      | nil =>
        rw [lossy_nil, List.prefix_nil] at hshown
        cases hshown
      | cons b rest =>
        rw [lossy_cons, List.cons_prefix_cons] at hshown
        have hhead : (head b rest).1 = some c := by
          cases hfirst : (head b rest).1 with
          | none =>
            rw [hfirst] at hshown
            exact absurd hshown.1.symm h.1
          | some d =>
            rw [hfirst] at hshown
            rw [hshown.1]
            rfl
        rw [eq_append_of_head hhead, encode, List.flatMap_cons, List.prefix_append_right_inj]
        exact ih h.2 hshown.2
  · rintro ⟨rest, rfl⟩
    rw [lossy, chunks_encode, List.map_append, List.map_map]
    exact ⟨lossy rest, congrArg (· ++ lossy rest) (List.map_id text).symm⟩

/-! ### ASCII bytes at the beginning -/

theorem encode_eq_cons_ascii (hb : b.toNat < 0x80) (h : encode text = b :: rest) :
    ∃ c s, text = c :: s ∧ c.utf8Size = 1 ∧ encode s = rest := by
  cases text with
  | nil => cases h
  | cons c s =>
    obtain ⟨b', tail, hencode, hhead⟩ := exists_head_encode c (encode s)
    rw [encode, List.flatMap_cons, hencode, List.cons_append, List.cons.injEq] at h
    obtain ⟨rfl, htail⟩ := h
    have hone : (head b' (tail ++ encode s)).2 = 1 := by simp only [head, if_pos hb]
    rw [hhead] at hone
    have hnil : tail = [] := List.eq_nil_of_length_eq_zero (by simpa using hone)
    subst hnil
    refine ⟨c, s, rfl, ?_, htail⟩
    rw [← String.length_utf8EncodeChar, hencode]
    rfl

/-- Bytes at the beginning that are ASCII are characters of one byte. -/
theorem encode_eq_append_ascii (hbytes : ∀ b ∈ bytes, b.toNat < 0x80)
    (h : encode text = bytes ++ rest) :
    ∃ pre s, text = pre ++ s ∧ pre.length = bytes.length ∧ (∀ c ∈ pre, c.utf8Size = 1) ∧
      encode s = rest := by
  induction bytes generalizing text with
  | nil => exact ⟨[], text, rfl, rfl, fun c hc => absurd hc List.not_mem_nil, h⟩
  | cons b bytes ih =>
    obtain ⟨c, s, rfl, hc, hs⟩ := encode_eq_cons_ascii (hbytes b List.mem_cons_self) h
    obtain ⟨pre, s', rfl, hlen, hpre, hrest⟩ := ih (fun b hb => hbytes b (List.mem_cons_of_mem _ hb)) hs
    refine ⟨c :: pre, s', rfl, by rw [List.length_cons, List.length_cons, hlen], ?_, hrest⟩
    intro d hd
    rcases List.mem_cons.1 hd with rfl | hd
    · exact hc
    · exact hpre d hd

/-! ### An ASCII byte in the middle -/

theorem isTail_ascii (h : x.toNat < 0x80) : isTail x = false := by
  simp only [isTail, decide_eq_false_iff_not]
  omega

theorem isSecond_ascii (h : x.toNat < 0x80) : isSecond n x = false := by
  rw [isSecond, isTail_ascii h]
  rfl

/-- An ASCII byte ends the first chunk where the end of the bytes does. -/
theorem head_append_ascii (h : x.toNat < 0x80) (b : UInt8) (rest tail : List UInt8) :
    head b (rest ++ x :: tail) = head b rest := by
  have htail := isTail_ascii h
  have hsecond (n : ℕ) : isSecond n x = false := isSecond_ascii h
  match rest with
  | [] =>
    match tail with
    | [] => simp [head, htail, hsecond]
    | [t] => simp [head, htail, hsecond]
    | t :: u :: tail => simp [head, htail, hsecond]
  | [b₁] => cases tail <;> simp [head, htail]
  | [b₁, b₂] => simp [head, htail]
  | b₁ :: b₂ :: b₃ :: rest => simp [head]

theorem head_le (b : UInt8) (rest : List UInt8) : (head b rest).2 ≤ (b :: rest).length := by
  rw [List.length_cons]
  match rest with
  | [] => simp only [head]; split_ifs <;> simp
  | [b₁] => simp only [head]; split_ifs <;> simp
  | [b₁, b₂] => simp only [head]; split_ifs <;> simp
  | b₁ :: b₂ :: b₃ :: rest => simp only [head, List.length_cons]; split_ifs <;> simp

/-- **An ASCII byte shows as itself, whatever stands before and behind it.** -/
theorem lossy_append_ascii (h : x.toNat < 0x80) (bytes tail : List UInt8) :
    lossy (bytes ++ x :: tail) = lossy bytes ++ Char.ofNat x.toNat :: lossy tail := by
  induction hlen : bytes.length using Nat.strongRecOn generalizing bytes with
  | _ n ih =>
    cases bytes with
    | nil =>
      have hhead : head x tail = (some (Char.ofNat x.toNat), 1) := by
        simp only [head, if_pos h]
      rw [List.nil_append, lossy_cons, hhead]
      rfl
    | cons b rest =>
      have hshort := length_drop_head b rest
      have hchunk := head_le b rest
      rw [List.length_cons] at hlen
      rw [List.cons_append, lossy_cons, head_append_ascii h, ← List.cons_append,
        List.drop_append_of_le_length hchunk, ih _ (by omega) _ rfl, lossy_cons b rest]
      rfl

theorem mem_of_mem_lossy {c : Char} (h : c.toNat < 0x80) (hmem : c ∈ lossy bytes) :
    UInt8.ofNat c.toNat ∈ bytes := by
  induction hlen : bytes.length using Nat.strongRecOn generalizing bytes with
  | _ n ih =>
    cases bytes with
    | nil => cases hmem
    | cons b rest =>
      have hshort := length_drop_head b rest
      rw [List.length_cons] at hlen
      rw [lossy_cons] at hmem
      rcases List.mem_cons.1 hmem with heq | hlater
      · cases hhead : (head b rest).1 with
        | none =>
          rw [hhead] at heq
          rw [heq] at h
          exact absurd h (by decide)
        | some d =>
          rw [hhead] at heq
          have hd : c = d := heq
          have hone : String.utf8EncodeChar c = [UInt8.ofNat c.toNat] := by
            have hbound : c.val.toNat ≤ 127 := by
              have : c.val.toNat = c.toNat := rfl
              omega
            rw [String.utf8EncodeChar, if_pos hbound]
            rfl
          rw [eq_append_of_head hhead, ← hd, hone]
          exact List.mem_cons_self
      · exact List.mem_of_mem_drop (ih _ (by omega) hlater rfl)

theorem mem_of_mem_encode (h : x.toNat < 0x80) (hmem : x ∈ encode text) :
    Char.ofNat x.toNat ∈ text := by
  obtain ⟨before, after, hsplit⟩ := List.append_of_mem hmem
  have hlossy := lossy_append_ascii h before after
  rw [← hsplit, lossy_encode] at hlossy
  rw [hlossy]
  exact List.mem_append_right _ List.mem_cons_self

theorem lossy_encode_append_bytes (text : List Char) (rest : List UInt8) :
    lossy (encode text ++ rest) = text ++ lossy rest := by
  rw [lossy, chunks_encode, List.map_append, List.map_map]
  exact congrArg (· ++ lossy rest) (List.map_id text)

end Utf8
