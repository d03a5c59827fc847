/-
**Texts behind their lengths.**

A text is written behind its length in bytes and a colon.  Whatever follows, and whatever is in the text,
the text can be told from what follows: the digits end at the colon, and a beginning of a text with the
same number of bytes is the same beginning, since no character is empty.

* `Netstring.bytes` — how many bytes the characters of a text come to;
* `Netstring.frame` — a text behind its length;
* `Netstring.frame_append_inj` — **the text and what follows can be told apart**.
-/

import Greppy.TextLines
import Mathlib.Algebra.GroupWithZero.Nat

set_option autoImplicit false

namespace Netstring

/-- How many bytes the characters of a text come to. -/
def bytes (text : List Char) : ℕ := (text.map Char.utf8Size).sum

@[simp] theorem bytes_nil : bytes [] = 0 := rfl

@[simp] theorem bytes_cons (c : Char) (text : List Char) :
    bytes (c :: text) = c.utf8Size + bytes text := by
  rw [bytes, List.map_cons, List.sum_cons, bytes]

theorem append_inj_of_bytes {a b x y : List Char} (h : a ++ x = b ++ y) (hbytes : bytes a = bytes b) :
    a = b ∧ x = y := by
  induction a generalizing b with
  | nil =>
    cases b with
    | nil => exact ⟨rfl, h⟩
    | cons d b =>
      have hpos := d.utf8Size_pos
      rw [bytes_nil, bytes_cons] at hbytes
      omega
  | cons c a ih =>
    cases b with
    | nil =>
      have hpos := c.utf8Size_pos
      rw [bytes_nil, bytes_cons] at hbytes
      omega
    | cons d b =>
      rw [List.cons_append, List.cons_append, List.cons.injEq] at h
      obtain ⟨rfl, htail⟩ := h
      rw [bytes_cons, bytes_cons] at hbytes
      obtain ⟨rfl, hx⟩ := ih htail (by omega)
      exact ⟨rfl, hx⟩

def frame (text : List Char) : List Char := Nat.toDigits 10 (bytes text) ++ ':' :: text

/-- **The text and what follows can be told apart.** -/
theorem frame_append_inj {a b x y : List Char} (h : frame a ++ x = frame b ++ y) : a = b ∧ x = y := by
  rw [frame, frame, List.append_assoc, List.append_assoc, List.cons_append, List.cons_append] at h
  obtain ⟨hbytes, htail⟩ := Text.toDigits_append_inj (by decide) h
  exact append_inj_of_bytes htail hbytes

end Netstring
