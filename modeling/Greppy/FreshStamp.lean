/-
**The freshness stamp.**

A check that has proven an index fresh leaves a stamp beside the store, and for a short time later
checks of the same workspace trust the stamp instead of looking again
(`crates/freshness/src/fingerprint.rs`).  The stamp is a text with one field on a line: a version, the
time, the size of the inventory, the root, the project and the scope.  A reader compares the last
three with its own and the time with its clock.

A value with a line feed in it spreads over two lines, and the stamp of one workspace then reads as
the stamp of another; a carriage return at the end of a value is lost; two roots that are not UTF-8
may be written alike; and a clock before the Unix epoch is taken to stand at the epoch.  Apart from
these, a stamp is accepted for the workspace it was written for and for no other.
-/

import Greppy.Discover
import Greppy.SystemClock
import Greppy.TextLines
import Greppy.Utf8
import Mathlib.Data.String.Basic

set_option autoImplicit false

namespace Greppy

open Text

/-- The value of an `i128` after an operation that wraps around. -/
def wrapI128 (z : ℤ) : ℤ := Int.bmod z (2 ^ 128)

/-! ### The stamp -/

/-- `root.display()`. -/
def displayPath (root : Bytes) : List Char := Utf8.lossy root

/-- The lines of a stamp that name a workspace. -/
def stampKey (root : Bytes) (project scope : String) : List Char :=
  displayPath root ++ '\n' :: (project.toList ++ '\n' :: (scope.toList ++ '\n' :: []))

/-- `write_stamp`: the text it leaves. -/
def writeStamp (root : Bytes) (project scope : String) (totalInventory : ℕ) (now : SystemTime) :
    List Char :=
  "v1".toList ++ '\n' :: (Nat.toDigits 10 now.unixNanos ++ '\n' ::
    (Nat.toDigits 10 totalInventory ++ '\n' :: stampKey root project scope))

/-- `read_valid_stamp`, for a stamp with the given text. -/
def readValidStamp (body : List Char) (root : Bytes) (project scope : String) (ttl : Duration)
    (now : SystemTime) : Option ℕ :=
  match lines body with
  | version :: verified :: total :: stampRoot :: stampProject :: stampScope :: _ =>
    if version = "v1".toList then
      match parseSigned (2 ^ 127) verified, parseUnsigned (2 ^ 64) total with
      | some verifiedUnixNs, some totalInventory =>
        if stampRoot = displayPath root ∧ stampProject = project.toList ∧
            stampScope = scope.toList then
          let age := wrapI128 (now.unixNanos - verifiedUnixNs)
          if age < 0 ∨ (ttl.ns : ℤ) < age then none else some totalInventory
        else none
      | _, _ => none
    else none
  | _ => none

/-- Written for a workspace, the stamp is accepted for that workspace while its age is within the
time to live, with the inventory size that was written, and it is not accepted otherwise. -/
def StampIntegrity (root : Bytes) (project scope : String) (written : SystemTime) : Prop :=
  ∀ total, total < 2 ^ 64 → ∀ (root' : Bytes) (project' scope' : String) (ttl : Duration)
    (now : SystemTime),
    readValidStamp (writeStamp root project scope total written) root' project' scope' ttl now =
      if (root' = root ∧ project' = project ∧ scope' = scope) ∧ 0 ≤ now.ns - written.ns ∧
          now.ns - written.ns ≤ ttl.ns then some total
      else none

/-- The values that name a workspace keep to their lines. -/
structure KeyOnLines (root : Bytes) (project scope : String) : Prop where
  root : OneLine (displayPath root)
  project : OneLine project.toList
  scope : OneLine scope.toList

/-! ### Reading a stamp back -/

variable {root : Bytes} {project scope : String} {total : ℕ} {written : SystemTime}

theorem lines_writeStamp :
    lines (writeStamp root project scope total written) =
      "v1".toList :: Nat.toDigits 10 written.unixNanos :: Nat.toDigits 10 total ::
        lines (stampKey root project scope) := by
  have hversion : OneLine "v1".toList := ⟨by decide, by decide⟩
  rw [writeStamp, hversion.lines_append, (oneLine_toDigits _).lines_append,
    (oneLine_toDigits _).lines_append]

theorem lines_stampKey (h : KeyOnLines root project scope) :
    lines (stampKey root project scope) = [displayPath root, project.toList, scope.toList] := by
  rw [stampKey, h.root.lines_append, h.project.lines_append, h.scope.lines_append, lines_nil]

theorem keyOnLines_of_lines {more : List (List Char)}
    (h : lines (stampKey root project scope) =
      displayPath root :: project.toList :: scope.toList :: more) :
    KeyOnLines root project scope := by
  unfold stampKey at h
  have hroot := oneLine_of_head h
  rw [hroot.lines_append, List.cons.injEq] at h
  have hproject := oneLine_of_head h.2
  rw [hproject.lines_append, List.cons.injEq] at h
  exact ⟨hroot, hproject, oneLine_of_head h.2.2⟩

theorem wrapI128_sub (now written : SystemTime) :
    wrapI128 ((now.unixNanos : ℤ) - written.unixNanos) = now.unixNanos - written.unixNanos := by
  have hnow := unixNanos_lt now
  have hwritten := unixNanos_lt written
  unfold wrapI128
  apply Int.bmod_eq_of_le
  · omega
  · omega

/-- A reader sees the two numbers and then whatever lines the values have become. -/
theorem readValidStamp_writeStamp_eq (htotal : total < 2 ^ 64) (root' : Bytes)
    (project' scope' : String) (ttl : Duration) (now : SystemTime) :
    readValidStamp (writeStamp root project scope total written) root' project' scope' ttl now =
      match lines (stampKey root project scope) with
      | stampRoot :: stampProject :: stampScope :: _ =>
        if (stampRoot = displayPath root' ∧ stampProject = project'.toList ∧
            stampScope = scope'.toList) ∧ written.unixNanos ≤ now.unixNanos ∧
            now.unixNanos ≤ written.unixNanos + ttl.ns then some total
        else none
      | _ => none := by
  unfold readValidStamp
  rw [lines_writeStamp]
  match lines (stampKey root project scope) with
  | [] => rfl
  | [_] => rfl
  | [_, _] => rfl
  | stampRoot :: stampProject :: stampScope :: _ =>
    simp only [if_true, parseSigned_toDigits (unixNanos_lt written),
      parseUnsigned_toDigits htotal, wrapI128_sub]
    by_cases hkey : stampRoot = displayPath root' ∧ stampProject = project'.toList ∧
        stampScope = scope'.toList
    · rw [if_pos hkey]
      by_cases hage : written.unixNanos ≤ now.unixNanos ∧
          now.unixNanos ≤ written.unixNanos + ttl.ns
      · rw [if_neg (by omega), if_pos ⟨hkey, hage⟩]
      · rw [if_pos (by omega), if_neg (fun h => hage h.2)]
    · rw [if_neg hkey, if_neg (fun h => hkey h.1)]

/-- What a reader makes of a stamp whose values keep to their lines. -/
theorem readValidStamp_writeStamp (h : KeyOnLines root project scope) (htotal : total < 2 ^ 64)
    (root' : Bytes) (project' scope' : String) (ttl : Duration) (now : SystemTime) :
    readValidStamp (writeStamp root project scope total written) root' project' scope' ttl now =
      if (displayPath root' = displayPath root ∧ project' = project ∧ scope' = scope) ∧
          written.unixNanos ≤ now.unixNanos ∧ now.unixNanos ≤ written.unixNanos + ttl.ns then
        some total
      else none := by
  rw [readValidStamp_writeStamp_eq htotal, lines_stampKey h]
  simp only [String.toList_inj, @eq_comm _ (displayPath root), @eq_comm _ project,
    @eq_comm _ scope]

/-! ### Integrity -/

theorem keyOnLines_of_accepted (htotal : total < 2 ^ 64) {ttl : Duration} {now : SystemTime}
    {n : ℕ} (h : readValidStamp (writeStamp root project scope total written) root project scope
      ttl now = some n) : KeyOnLines root project scope := by
  rw [readValidStamp_writeStamp_eq htotal] at h
  split at h
  · rename_i hlines
    split at h
    · rename_i hcond
      obtain ⟨⟨rfl, rfl, rfl⟩, _⟩ := hcond
      exact keyOnLines_of_lines hlines
    · cases h
  · cases h

def beforeEpoch : SystemTime := ⟨-1, by decide, by decide⟩

theorem written_after_epoch (hlines : KeyOnLines root project scope)
    (h : StampIntegrity root project scope written) : 0 < written.ns := by
  by_contra hneg
  have hwritten : written.unixNanos = 0 := by
    unfold SystemTime.unixNanos
    omega
  by_cases hzero : written.ns = 0
  · -- read before the epoch, a stamp of the epoch looks new
    have hread := h 0 (by decide) root project scope noTime beforeEpoch
    rw [readValidStamp_writeStamp hlines (by decide), hwritten,
      if_pos ⟨⟨rfl, rfl, rfl⟩, by decide, by decide⟩, hzero,
      if_neg (fun hcond => absurd hcond.2.1 (by decide))] at hread
    cases hread
  · -- read at the epoch, a stamp from before it looks new
    have hread := h 0 (by decide) root project scope noTime epoch
    have hold : ¬ epoch.ns - written.ns ≤ noTime.ns := by
      change ¬ 0 - written.ns ≤ 0
      omega
    rw [readValidStamp_writeStamp hlines (by decide), hwritten,
      if_pos ⟨⟨rfl, rfl, rfl⟩, by decide, by decide⟩, if_neg (fun hcond => hold hcond.2.2)] at hread
    cases hread

/-- **Exactly when a stamp has integrity**: the displayed root, the project and the scope have no line
feed in them and no carriage return at their end, the displayed root has no replacement character, and
the clock stood after the Unix epoch when the stamp was written. -/
theorem stampIntegrity_iff (root : Bytes) (project scope : String) (written : SystemTime) :
    StampIntegrity root project scope written ↔
      KeyOnLines root project scope ∧ Utf8.replacement ∉ displayPath root ∧ 0 < written.ns := by
  constructor
  · intro h
    have hself := h 0 (by decide) root project scope noTime written
    have hyoung : written.ns - written.ns ≤ noTime.ns := by
      change written.ns - written.ns ≤ 0
      omega
    rw [if_pos ⟨⟨rfl, rfl, rfl⟩, by omega, hyoung⟩] at hself
    have hlines := keyOnLines_of_accepted (by decide) hself
    refine ⟨hlines, ?_, written_after_epoch hlines h⟩
    intro hreplaced
    -- another root is displayed the same, and the stamp is accepted for it
    obtain ⟨root', hne, hsame⟩ := Utf8.exists_ne_same_lossy hreplaced
    have hread := h 0 (by decide) root' project scope noTime written
    rw [readValidStamp_writeStamp hlines (by decide),
      if_pos ⟨⟨hsame, rfl, rfl⟩, le_rfl, Nat.le_add_right _ _⟩,
      if_neg (fun hcond => hne hcond.1.1)] at hread
    cases hread
  · rintro ⟨hlines, hclean, hafter⟩ total htotal root' project' scope' ttl now
    rw [readValidStamp_writeStamp hlines htotal]
    have hroot : displayPath root' = displayPath root ↔ root' = root := by
      constructor
      · intro hsame
        exact Utf8.lossy_inj_of_clean hclean hsame
      · intro heq
        rw [heq]
    have hage : (written.unixNanos ≤ now.unixNanos ∧
        now.unixNanos ≤ written.unixNanos + ttl.ns) ↔
          (0 ≤ now.ns - written.ns ∧ now.ns - written.ns ≤ ttl.ns) := by
      unfold SystemTime.unixNanos
      omega
    simp only [hroot, hage]

def oneSecond : SystemTime := ⟨10 ^ 9, by decide, by decide⟩

/-- **A stamp is accepted for another workspace**: the stamp of the root with a line feed in its name
reads as the stamp of another root, project and scope, and not as its own. -/
theorem stamp_of_other_workspace :
    readValidStamp (writeStamp "/w\nrepo".toUTF8.toList "p" "default" 7 oneSecond)
        "/w".toUTF8.toList "repo" "p" noTime oneSecond = some 7 ∧
      readValidStamp (writeStamp "/w\nrepo".toUTF8.toList "p" "default" 7 oneSecond)
        "/w\nrepo".toUTF8.toList "p" "default" noTime oneSecond = none := by
  decide +kernel

end Greppy
