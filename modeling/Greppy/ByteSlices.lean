/-
**Beginnings of a text by bytes.**

A text that is cut at a byte offset has to be cut between two characters: `&s[..n]` and
`String::truncate` panic at any other offset.  A safe cut walks back from the offset to the nearest boundary
first, which it reaches at the latest in front of the text.

Main definitions:

* `sliceTo` — `&s[..n]`, which needs a boundary between characters;
* `isCharBoundary` — `str::is_char_boundary`;
* `truncate` — `String::truncate`, which needs one too, unless the text is shorter;
* `floorBoundary` — the loop that walks back to a boundary.
-/

import Greppy.Outcome
import Greppy.RustStr

set_option autoImplicit false

namespace Greppy

/-- `&s[..n]`: the first `n` bytes, if a character ends there. -/
def sliceTo : ℕ → List Char → Option (List Char)
  | 0, _ => some []
  | _ + 1, [] => none
  | n + 1, c :: s => if c.utf8Size ≤ n + 1 then (sliceTo (n + 1 - c.utf8Size) s).map (c :: ·) else none

/-- `str::is_char_boundary`. -/
def isCharBoundary (s : List Char) (n : ℕ) : Bool := (sliceTo n s).isSome

/-- `String::truncate`. -/
def truncate (s : List Char) (n : ℕ) : Outcome Empty (List Char) :=
  if n ≤ byteLength s then Outcome.unwrap (sliceTo n s) else .ok s

/-- `while !s.is_char_boundary(cut) { cut -= 1 }`; there is a boundary at 0. -/
def floorBoundary (s : List Char) : ℕ → ℕ
  | 0 => 0
  | cut + 1 => if isCharBoundary s (cut + 1) then cut + 1 else floorBoundary s cut

/-- **A slice is a beginning of so many bytes.** -/
theorem sliceTo_eq_some_iff {n : ℕ} {s p : List Char} : sliceTo n s = some p ↔ p <+: s ∧ byteLength p = n := by
  induction s generalizing n p with
  | nil =>
    cases n with
    | zero =>
      rw [sliceTo, Option.some.injEq, List.prefix_nil]
      exact ⟨fun h => h ▸ ⟨rfl, rfl⟩, fun h => h.1.symm⟩
    | succ n =>
      rw [sliceTo, List.prefix_nil]
      refine ⟨nofun, ?_⟩
      rintro ⟨rfl, hlen⟩
      cases hlen
  | cons c s ih =>
    have hsize := c.utf8Size_pos
    cases n with
    | zero =>
      rw [sliceTo, Option.some.injEq]
      constructor
      · rintro rfl
        exact ⟨List.nil_prefix, rfl⟩
      · rintro ⟨-, hlen⟩
        cases p with
        | nil => rfl
        | cons d p =>
          rw [byteLength_cons] at hlen
          have hd := d.utf8Size_pos
          omega
    | succ n =>
      rw [sliceTo]
      constructor
      · intro h
        split at h
        · obtain ⟨q, hq, rfl⟩ := Option.map_eq_some_iff.1 h
          obtain ⟨hpre, hlen⟩ := ih.1 hq
          exact ⟨List.cons_prefix_cons.2 ⟨rfl, hpre⟩, by rw [byteLength_cons, hlen]; omega⟩
        · cases h
      · rintro ⟨hpre, hlen⟩
        cases p with
        | nil => cases hlen
        | cons d q =>
          obtain ⟨rfl, hq⟩ := List.cons_prefix_cons.1 hpre
          rw [byteLength_cons] at hlen
          rw [if_pos (by omega), ih.2 ⟨hq, by omega⟩]
          rfl

theorem byteLength_append (s t : List Char) : byteLength (s ++ t) = byteLength s + byteLength t := by
  rw [byteLength, List.map_append, List.sum_append]
  rfl

/-- **Walking back** ends at a boundary that is not behind the offset. -/
theorem floorBoundary_spec (s : List Char) (n : ℕ) :
    ∃ p, sliceTo (floorBoundary s n) s = some p ∧ p <+: s ∧ byteLength p ≤ n := by
  induction n with
  | zero => exact ⟨[], by rw [floorBoundary, sliceTo], List.nil_prefix, le_rfl⟩
  | succ n ih =>
    rw [floorBoundary]
    split
    · rename_i hboundary
      obtain ⟨p, hp⟩ := Option.isSome_iff_exists.1 hboundary
      obtain ⟨hpre, hlen⟩ := sliceTo_eq_some_iff.1 hp
      exact ⟨p, hp, hpre, hlen.le⟩
    · obtain ⟨p, hp, hpre, hlen⟩ := ih
      exact ⟨p, hp, hpre, by omega⟩

/-- **Truncating a longer text** needs a boundary. -/
theorem truncate_eq_ok_iff {s p : List Char} {n : ℕ} (h : n ≤ byteLength s) :
    truncate s n = .ok p ↔ p <+: s ∧ byteLength p = n := by
  rw [truncate, if_pos h, Outcome.unwrap_eq_ok_iff, sliceTo_eq_some_iff]

theorem truncate_panics_iff {s : List Char} {n : ℕ} (h : n ≤ byteLength s) :
    truncate s n = .panic ↔ isCharBoundary s n = false := by
  rw [truncate, if_pos h, isCharBoundary]
  cases sliceTo n s with
  | none => exact ⟨fun _ => rfl, fun _ => rfl⟩
  | some p => exact ⟨nofun, nofun⟩

end Greppy
