/-
**The normal form of an identifier.**

What `camel_split` returns is a list of words with single blanks between them.  The words are made of
alphanumeric characters, the ASCII letters among them in lower case, and together they are the alphanumeric
characters of the input in their order: the boundaries that the loop finds are put between characters, and
no character is lost or doubled there.  A text of this form has no boundary left to find.
-/

import Greppy.CamelSplit
import Mathlib

set_option autoImplicit false

namespace Greppy

/-! ### Words with blanks between them -/

def IsToken (isAlphanumeric : Char → Bool) (w : List Char) : Prop :=
  w ≠ [] ∧ ∀ c ∈ w, isAlphanumeric c = true ∧ c.isUpper = false

/-- The output so far, which is kept reversed: words, and perhaps a blank after them. -/
def Spells (out : List Char) (ws : List (List Char)) : Prop :=
  out.reverse = joinWords ws ∨ ws ≠ [] ∧ out.reverse = joinWords ws ++ [' ']

theorem joinWords_snoc (ws : List (List Char)) (w : List Char) :
    ∃ front, joinWords (ws ++ [w]) = front ++ w ∧ ∀ v, joinWords (ws ++ [v]) = front ++ v := by
  cases ws with
  | nil => exact ⟨[], by simp [joinWords], fun v => by simp [joinWords]⟩
  | cons u ws =>
    refine ⟨joinWords (u :: ws) ++ [' '], ?_, fun v => ?_⟩
    · rw [joinWords_concat (List.cons_ne_nil u ws), List.append_assoc, List.singleton_append]
    · rw [joinWords_concat (List.cons_ne_nil u ws), List.append_assoc, List.singleton_append]

theorem joinWords_cons_cons (w v : List Char) (ws : List (List Char)) :
    joinWords (w :: v :: ws) = w ++ ' ' :: joinWords (v :: ws) := by
  rw [joinWords, List.intercalate_cons_cons, List.append_assoc]
  rfl

section Normal

variable {isAlphanumeric : Char → Bool}

section Ends

variable {ws : List (List Char)}

theorem joinWords_ends (hblank : isAlphanumeric ' ' = false) (hws : ∀ w ∈ ws, IsToken isAlphanumeric w) :
    (joinWords ws).dropWhile (· = ' ') = joinWords ws ∧
      (joinWords ws).reverse.dropWhile (· = ' ') = (joinWords ws).reverse := by
  have hne {w : List Char} (hw : IsToken isAlphanumeric w) {c : Char} (hc : c ∈ w) : c ≠ ' ' := by
    intro h
    have hyes := (hw.2 c hc).1
    rw [h, hblank] at hyes
    cases hyes
  constructor
  · cases ws with
    | nil => rfl
    | cons w ws =>
      have hw := hws w List.mem_cons_self
      obtain ⟨rest, hrest⟩ := joinWords_cons w ws
      obtain ⟨c, w', rfl⟩ := List.exists_cons_of_ne_nil hw.1
      rw [hrest, List.cons_append, List.dropWhile_cons_of_neg (by simpa using hne hw List.mem_cons_self)]
  · cases ws using List.reverseRecOn with
    | nil => rfl
    | append_singleton ws w =>
      have hw := hws w (List.mem_append_right _ List.mem_cons_self)
      obtain ⟨front, hfront, -⟩ := joinWords_snoc ws w
      obtain ⟨c, w', hc⟩ := List.exists_cons_of_ne_nil (List.reverse_ne_nil_iff.2 hw.1)
      have hmem : c ∈ w := by
        rw [← List.mem_reverse, hc]
        exact List.mem_cons_self
      rw [hfront, List.reverse_append, hc, List.cons_append, List.dropWhile_cons_of_neg (by simpa using hne hw hmem)]

end Ends

/-! ### The loop -/

section Loop

variable {out : List Char} {ws : List (List Char)}

theorem spells_pushBoundary (h : Spells out ws) : Spells (pushBoundary out) ws := by
  cases out with
  | nil => exact h
  | cons c out =>
    rw [pushBoundary]
    split
    · exact h
    · rename_i hc
      rcases h with h | ⟨hne, h⟩
      · refine .inr ⟨?_, by rw [List.reverse_cons, h]⟩
        rintro rfl
        exact List.cons_ne_nil c out (List.reverse_eq_nil_iff.1 h)
      · rw [List.reverse_cons] at h
        exact absurd (List.append_inj_right' h rfl) (by simpa using hc)

variable {c : Char} {prev : Option Char} {prevLower prevDigit prevBoundary : Bool}

theorem spells_letter (hc : isAlphanumeric c = true) (hlow : c.isUpper = false) (h : Spells out ws)
    (hws : ∀ w ∈ ws, IsToken isAlphanumeric w) :
    ∃ ws', ws' ≠ [] ∧ (c :: out).reverse = joinWords ws' ∧ (∀ w ∈ ws', IsToken isAlphanumeric w) ∧
      ws'.flatten = ws.flatten ++ [c] := by
  have hone : IsToken isAlphanumeric [c] :=
    ⟨List.cons_ne_nil c [], fun d hd => by rw [List.mem_singleton.1 hd]; exact ⟨hc, hlow⟩⟩
  rcases h with h | ⟨hne, h⟩
  · cases ws using List.reverseRecOn with
    | nil =>
      refine ⟨[[c]], List.cons_ne_nil _ _, ?_, fun w hw => List.mem_singleton.1 hw ▸ hone, by simp⟩
      rw [List.reverse_cons, h]
      rfl
    | append_singleton ws w =>
      obtain ⟨front, hfront, hother⟩ := joinWords_snoc ws w
      have hw := hws w (List.mem_append_right _ List.mem_cons_self)
      refine ⟨ws ++ [w ++ [c]], by simp, ?_, fun v hv => ?_, by simp⟩
      · rw [List.reverse_cons, h, hfront, hother, List.append_assoc]
      · rcases List.mem_append.1 hv with hv | hv
        · exact hws v (List.mem_append_left _ hv)
        · rw [List.mem_singleton.1 hv]
          refine ⟨by simp, fun d hd => ?_⟩
          rcases List.mem_append.1 hd with hd | hd
          · exact hw.2 d hd
          · exact hone.2 d hd
  · refine ⟨ws ++ [[c]], by simp, ?_, fun v hv => ?_, by simp⟩
    · rw [List.reverse_cons, h, joinWords_concat hne, List.append_assoc, List.singleton_append]
    · rcases List.mem_append.1 hv with hv | hv
      · exact hws v hv
      · exact List.mem_singleton.1 hv ▸ hone

def AsciiTable (isAlphanumeric : Char → Bool) : Prop :=
  ∀ c : Char, c.toNat < 128 → isAlphanumeric c = c.isAlphanum

theorem AsciiTable.blank (hascii : AsciiTable isAlphanumeric) : isAlphanumeric ' ' = false := hascii ' ' (by decide)

theorem AsciiTable.separator (hascii : AsciiTable isAlphanumeric)
    (hc : c = '_' ∨ c = '-' ∨ c = '.' ∨ c = '/') : isAlphanumeric c = false := by
  rcases hc with rfl | rfl | rfl | rfl
  · exact hascii _ (by decide)
  · exact hascii _ (by decide)
  · exact hascii _ (by decide)
  · exact hascii _ (by decide)

theorem lower_of_capital : ∀ n < 91, 65 ≤ n → (Char.ofNat n).isAlphanum = true ∧
    (Char.ofNat n).toLower.isAlphanum = true ∧ (Char.ofNat n).toLower.isUpper = false ∧
    (Char.ofNat n).toLower.toNat < 128 := by
  decide

theorem AsciiTable.upper (hascii : AsciiTable isAlphanumeric) (hc : c.isUpper = true) :
    isAlphanumeric c = true ∧ isAlphanumeric c.toLower = true ∧ c.toLower.isUpper = false := by
  obtain ⟨hlo, hhi⟩ := toNat_of_isUpper hc
  obtain ⟨hself, hlower, hupper, hsmall⟩ := lower_of_capital c.toNat (by omega) hlo
  rw [Char.ofNat_toNat] at hself hlower hupper hsmall
  exact ⟨by rw [hascii c (by omega), hself], by rw [hascii _ hsmall, hlower], hupper⟩

/-- **The loop** adds the alphanumeric characters that it reads to the words. -/
theorem camelSplitLoop_spells (hascii : AsciiTable isAlphanumeric) (input : List Char)
    (h : Spells out ws) (hws : ∀ w ∈ ws, IsToken isAlphanumeric w)
    (hword : prevBoundary = false → ws ≠ [] ∧ out.reverse = joinWords ws) :
    ∃ ws', Spells (camelSplitLoop isAlphanumeric out prev prevLower prevDigit prevBoundary input) ws' ∧
      (∀ w ∈ ws', IsToken isAlphanumeric w) ∧
      ws'.flatten = ws.flatten ++ (input.filter isAlphanumeric).map Char.toLower := by
  induction input generalizing out ws prev prevLower prevDigit prevBoundary with
  | nil => exact ⟨ws, h, hws, by simp⟩
  | cons c rest ih =>
    have hboundary (hc : isAlphanumeric c = false) :
        ∃ ws', Spells (camelSplitLoop isAlphanumeric (pushBoundary out) (some c) false false true rest) ws' ∧
          (∀ w ∈ ws', IsToken isAlphanumeric w) ∧
          ws'.flatten = ws.flatten ++ ((c :: rest).filter isAlphanumeric).map Char.toLower := by
      rw [List.filter_cons_of_neg (by rw [hc]; decide)]
      exact ih (spells_pushBoundary h) hws nofun
    have hletter {out' : List Char} {prevLower prevDigit : Bool} (hc : isAlphanumeric c = true)
        (hlower : isAlphanumeric c.toLower = true ∧ c.toLower.isUpper = false) (hout : Spells out' ws) :
        ∃ ws', Spells (camelSplitLoop isAlphanumeric (c.toLower :: out') (some c) prevLower prevDigit false rest)
            ws' ∧ (∀ w ∈ ws', IsToken isAlphanumeric w) ∧
          ws'.flatten = ws.flatten ++ ((c :: rest).filter isAlphanumeric).map Char.toLower := by
      obtain ⟨ws₁, hne, happ, hws₁, hflat⟩ := spells_letter hlower.1 hlower.2 hout hws
      obtain ⟨ws', hspells, hws', hrest⟩ := ih (.inl happ) hws₁ fun _ => ⟨hne, happ⟩
      refine ⟨ws', hspells, hws', ?_⟩
      rw [hrest, hflat, List.filter_cons_of_pos hc, List.map_cons, List.append_assoc, List.singleton_append]
    rw [camelSplitLoop]
    by_cases hsep : c = '_' ∨ c = '-' ∨ c = '.' ∨ c = '/'
    · rw [if_pos hsep]
      exact hboundary (hascii.separator hsep)
    rw [if_neg hsep]
    by_cases hupper : c.isUpper = true
    · rw [if_pos hupper]
      dsimp only
      obtain ⟨hc, hlower⟩ := hascii.upper hupper
      split
      · -- the blank comes after a word
        rename_i hsplit
        have hbefore : prevBoundary = false := by simpa using (Bool.and_eq_true_iff.1 hsplit).1
        obtain ⟨hne, happ⟩ := hword hbefore
        exact hletter hc hlower (.inr ⟨hne, by rw [List.reverse_cons, happ]⟩)
      · exact hletter hc hlower h
    rw [if_neg hupper]
    have hlower := Char.toLower_eq_of_not_isUpper hupper
    rw [Bool.not_eq_true] at hupper
    split
    · rename_i halnum
      exact hletter halnum ⟨by rw [hlower, halnum], by rw [hlower, hupper]⟩ h
    · rename_i halnum
      exact hboundary (Bool.eq_false_of_not_eq_true halnum)

theorem camelSplitLoop_token (hascii : AsciiTable isAlphanumeric) {w : List Char}
    (hw : ∀ c ∈ w, isAlphanumeric c = true ∧ c.isUpper = false) (rest : List Char) {out : List Char} :
    ∃ prev' prevLower' prevDigit' prevBoundary',
      camelSplitLoop isAlphanumeric out prev prevLower prevDigit prevBoundary (w ++ rest) =
        camelSplitLoop isAlphanumeric (w.reverse ++ out) prev' prevLower' prevDigit' prevBoundary' rest := by
  induction w generalizing out prev prevLower prevDigit prevBoundary with
  | nil => exact ⟨prev, prevLower, prevDigit, prevBoundary, rfl⟩
  | cons c w ih =>
    obtain ⟨hc, hupper⟩ := hw c List.mem_cons_self
    have hsep : ¬(c = '_' ∨ c = '-' ∨ c = '.' ∨ c = '/') := by
      intro h
      rw [hascii.separator h] at hc
      cases hc
    obtain ⟨prev', prevLower', prevDigit', prevBoundary', h⟩ :=
      @ih (some c) _ _ _ (fun d hd => hw d (List.mem_cons_of_mem _ hd)) (c :: out)
    refine ⟨prev', prevLower', prevDigit', prevBoundary', ?_⟩
    have hupper := Bool.eq_false_iff.1 hupper
    rw [List.cons_append, camelSplitLoop, if_neg hsep, if_neg hupper, if_pos hc,
      Char.toLower_eq_of_not_isUpper hupper, h, List.reverse_cons, List.append_assoc]
    rfl

/-- **A text in normal form is copied.** -/
theorem camelSplitLoop_tokens (hascii : AsciiTable isAlphanumeric)
    (hws : ∀ w ∈ ws, IsToken isAlphanumeric w) :
    camelSplitLoop isAlphanumeric out prev prevLower prevDigit prevBoundary (joinWords ws) =
      (joinWords ws).reverse ++ out := by
  induction ws generalizing out prev prevLower prevDigit prevBoundary with
  | nil => rfl
  | cons w ws ih =>
    have hw := hws w List.mem_cons_self
    cases ws with
    | nil =>
      obtain ⟨prev', prevLower', prevDigit', prevBoundary', h⟩ := camelSplitLoop_token hascii hw.2 []
      rw [joinWords, List.intercalate_singleton]
      rw [List.append_nil] at h
      exact h
    | cons v ws =>
      obtain ⟨prev', prevLower', prevDigit', prevBoundary', h⟩ :=
        camelSplitLoop_token hascii hw.2 (' ' :: joinWords (v :: ws))
      obtain ⟨c, w', hc⟩ := List.exists_cons_of_ne_nil (List.reverse_ne_nil_iff.2 hw.1)
      have hblank : c ≠ ' ' := by
        rintro rfl
        have hyes := (hw.2 ' ' (List.mem_reverse.1 (hc ▸ List.mem_cons_self))).1
        rw [hascii.blank] at hyes
        cases hyes
      have hpush : pushBoundary (w.reverse ++ out) = ' ' :: (w.reverse ++ out) := by
        rw [hc, List.cons_append, pushBoundary, if_neg hblank]
      rw [joinWords_cons_cons, h, camelSplitLoop]
      rw [if_neg (by decide), if_neg (by decide), if_neg (by rw [hascii.blank]; decide), hpush,
        ih fun u hu => hws u (List.mem_cons_of_mem _ hu)]
      simp

end Loop

theorem camelSplit_of_spells {input : String} {ws : List (List Char)} (hblank : isAlphanumeric ' ' = false)
    (hws : ∀ w ∈ ws, IsToken isAlphanumeric w)
    (h : Spells (camelSplitLoop isAlphanumeric [] none false false true input.toList) ws) :
    camelSplit isAlphanumeric input = String.ofList (joinWords ws) := by
  obtain ⟨hfront, hback⟩ := joinWords_ends hblank hws
  rw [camelSplit]
  refine congrArg String.ofList ?_
  generalize camelSplitLoop isAlphanumeric [] none false false true input.toList = out at h
  have hdrop : out.dropWhile (· = ' ') = (joinWords ws).reverse := by
    rcases h with h | ⟨-, h⟩
    · rw [← List.reverse_reverse out, h, hback]
    · rw [← List.reverse_reverse out, h, List.reverse_append]
      exact hback
  rw [hdrop, List.reverse_reverse, hfront]

/-- **The normal form of an identifier.** -/
theorem camelSplit_normal (u : Unicode) (hascii : AsciiTable u.isAlphanumeric) (input : String) :
    ∃ ws, camelSplit u.isAlphanumeric input = String.ofList (joinWords ws) ∧
      (∀ w ∈ ws, IsToken u.isAlphanumeric w) ∧
      ws.flatten = (input.toList.filter u.isAlphanumeric).map Char.toLower ∧
      camelSplit u.isAlphanumeric (camelSplit u.isAlphanumeric input) = camelSplit u.isAlphanumeric input := by
  obtain ⟨ws, hspells, hws, hflat⟩ := @camelSplitLoop_spells _ [] [] none false false true hascii input.toList
    (.inl rfl) nofun nofun
  have hout := camelSplit_of_spells hascii.blank hws hspells
  refine ⟨ws, hout, hws, by simpa using hflat, ?_⟩
  rw [hout]
  refine camelSplit_of_spells hascii.blank hws (.inl ?_)
  rw [String.toList_ofList, camelSplitLoop_tokens hascii hws, List.append_nil, List.reverse_reverse]

theorem camelSplit_normal_loader :
    AsciiTable Unicode.ascii.isAlphanumeric ∧
      ∃ ws, camelSplit Unicode.ascii.isAlphanumeric "XMLParser_v2Loader" = String.ofList (joinWords ws) ∧
        (∀ w ∈ ws, IsToken Unicode.ascii.isAlphanumeric w) ∧
        ws.flatten = ("XMLParser_v2Loader".toList.filter Unicode.ascii.isAlphanumeric).map Char.toLower ∧
        camelSplit Unicode.ascii.isAlphanumeric (camelSplit Unicode.ascii.isAlphanumeric "XMLParser_v2Loader") =
          camelSplit Unicode.ascii.isAlphanumeric "XMLParser_v2Loader" :=
  ⟨fun _ _ => rfl, camelSplit_normal Unicode.ascii (fun _ _ => rfl) "XMLParser_v2Loader"⟩

end Normal

end Greppy
