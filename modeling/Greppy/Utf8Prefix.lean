/-
**Where a byte sequence stops being UTF-8.**

A strict decoder that fails says how: at a sequence that no further bytes could repair, whose length
it names, or at one that the end of the input cuts off.  The beginning of an encoded text has only
errors of the second kind, wherever it ends.

Main definitions:

* `Utf8.isCutOff` — the bytes are a proper beginning of a character;
* `Utf8.firstError` — the first error, with its length unless the input is cut off there.
-/

import Greppy.Utf8

set_option autoImplicit false

namespace Utf8

/-! ### The first error -/

/-- The whole input is the beginning of a character and no more. -/
def isCutOff (b₀ : UInt8) (rest : List UInt8) : Bool :=
  decide ((head b₀ rest).1 = none ∧ (head b₀ rest).2 = rest.length + 1 ∧
    0xC2 ≤ b₀.toNat ∧ b₀.toNat ≤ 0xF4)

/-- The first chunk that is no character: its length, or `none` if the input is cut off in it. -/
def firstErrorFrom : ℕ → List UInt8 → Option (Option ℕ)
  | _, [] => none
  | 0, _ :: _ => none
  | fuel + 1, b :: rest =>
    if (head b rest).1.isSome then firstErrorFrom fuel ((b :: rest).drop (head b rest).2)
    else if isCutOff b rest then some none
    else some (some (head b rest).2)

/-- `str::from_utf8`: no error, or its `error_len`. -/
def firstError (bytes : List UInt8) : Option (Option ℕ) := firstErrorFrom bytes.length bytes

/-! ### Beginnings of an encoded text -/

/-- A character that needs more bytes is cut off where they are missing. -/
theorem isCutOff_take_tail {b : UInt8} {tail : List UInt8} {c : Char}
    (h : head b tail = (some c, tail.length + 1)) {k : ℕ} (hk : k < tail.length) :
    isCutOff b (tail.take k) = true := by
  rcases tail with _ | ⟨b₁, _ | ⟨b₂, _ | ⟨b₃, rest⟩⟩⟩
  · cases hk
  · have hk₀ : k = 0 := by simpa using hk
    subst hk₀
    simp only [head, List.length_cons, List.length_nil] at h
    split_ifs at h <;> simp at h
    rename_i hone htwo _
    simp [isCutOff, head, hone, htwo]
    omega
  · simp only [head, List.length_cons, List.length_nil] at h
    split_ifs at h <;> simp at h
    rename_i hone htwo hthree hsecond _
    have hcase : k = 0 ∨ k = 1 := by simp at hk; omega
    rcases hcase with rfl | rfl
    · simp [isCutOff, head, hone, htwo, hthree]
      omega
    · simp [isCutOff, head, hone, htwo, hthree, hsecond]
      omega
  · simp only [head, List.length_cons] at h
    split_ifs at h <;> simp at h
    rename_i hone htwo hthree hfour hsecond htail _
    have hcase : k = 0 ∨ k = 1 ∨ k = 2 := by
      rw [h.2] at hk
      simp at hk
      omega
    rcases hcase with rfl | rfl | rfl
    · simp [isCutOff, head, hone, htwo, hthree, hfour]
      omega
    · simp [isCutOff, head, hone, htwo, hthree, hfour, hsecond]
      omega
    · simp [isCutOff, head, hone, htwo, hthree, hfour, hsecond, htail]
      omega

theorem firstErrorFrom_encode_append (fuel : ℕ) (c : Char) (rest : List UInt8) :
    firstErrorFrom (fuel + 1) (String.utf8EncodeChar c ++ rest) = firstErrorFrom fuel rest := by
  obtain ⟨b, tail, henc, hhead⟩ := exists_head_encode c rest
  rw [henc, List.cons_append, firstErrorFrom, hhead, Option.isSome_some, if_pos rfl,
    List.drop_succ_cons, List.drop_left]

theorem firstErrorFrom_take_char (fuel : ℕ) {c : Char} {n : ℕ} (hpos : 0 < n)
    (hn : n < (String.utf8EncodeChar c).length) :
    firstErrorFrom (fuel + 1) ((String.utf8EncodeChar c).take n) = some none := by
  obtain ⟨b, tail, henc, hhead⟩ := exists_head_encode c []
  rw [List.append_nil] at hhead
  rw [henc] at hn ⊢
  obtain ⟨k, rfl⟩ : ∃ k, n = k + 1 := ⟨n - 1, by omega⟩
  have hcut := isCutOff_take_tail hhead (Nat.lt_of_succ_lt_succ hn)
  have hnone : (head b (tail.take k)).1 = none := by
    simp only [isCutOff, decide_eq_true_eq] at hcut
    exact hcut.1
  rw [List.take_succ_cons, firstErrorFrom, hnone, if_neg (by decide), if_pos hcut]

/-- The induction is on the text: either its first character is there as a whole, or the end of the
input lies in it. -/
theorem firstErrorFrom_take_encode (fuel n : ℕ) (text : List Char) :
    firstErrorFrom fuel ((encode text).take n) = none ∨
      firstErrorFrom fuel ((encode text).take n) = some none ∧ n < (encode text).length := by
  induction text generalizing fuel n with
  | nil =>
    left
    rw [encode, List.flatMap_nil, List.take_nil]
    cases fuel <;> rfl
  | cons c text ih =>
    have hcons : encode (c :: text) = String.utf8EncodeChar c ++ encode text := List.flatMap_cons
    have hlen : 0 < (String.utf8EncodeChar c).length := by
      obtain ⟨b, tail, henc, -⟩ := exists_head_encode c []
      rw [henc]
      exact Nat.succ_pos _
    cases fuel with
    | zero =>
      left
      cases (encode (c :: text)).take n <;> rfl
    | succ fuel =>
      rw [hcons, List.length_append]
      rcases Nat.lt_or_ge n (String.utf8EncodeChar c).length with hn | hn
      · rw [List.take_append_of_le_length (Nat.le_of_lt hn)]
        rcases Nat.eq_zero_or_pos n with rfl | hpos
        · left
          rw [List.take_zero]
          rfl
        · exact Or.inr ⟨firstErrorFrom_take_char fuel hpos hn, by omega⟩
      · rw [List.take_append, List.take_of_length_le hn, firstErrorFrom_encode_append]
        exact (ih fuel (n - (String.utf8EncodeChar c).length)).imp_right
          fun h => ⟨h.1, by have := h.2; omega⟩

/-- A beginning of an encoded text has no error, or it is cut off in a character. -/
theorem firstError_take_encode (n : ℕ) (text : List Char) :
    firstError ((encode text).take n) = none ∨
      firstError ((encode text).take n) = some none ∧ n < (encode text).length :=
  firstErrorFrom_take_encode _ n text

end Utf8
