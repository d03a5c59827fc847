/-
**The key of a discovery scope.**

`WalkOverrides::scope_key` writes the include and the exclude globs of a scope behind each other, each
behind a letter for its list and its length in bytes.  The key becomes part of the version of an index, so
that an index made in another scope is never taken for a fresh one.
-/

import Greppy.Fingerprint
import Greppy.Netstring

set_option autoImplicit false

namespace Greppy

/-- The globs of a scope, each with the letter of its list. -/
def WalkOverrides.scopeParts (o : WalkOverrides) : List (Char × List Char) :=
  (o.includes.map fun g => ('I', g.toList)) ++ o.excludes.map fun g => ('E', g.toList)

def scopeText (parts : List (Char × List Char)) : List Char :=
  parts.flatMap fun part => ';' :: part.1 :: Netstring.frame part.2

theorem scopeText_inj {parts parts' : List (Char × List Char)} (h : scopeText parts = scopeText parts') :
    parts = parts' := by
  induction parts generalizing parts' with
  | nil =>
    cases parts' with
    | nil => rfl
    | cons part' rest' => cases h
  | cons part rest ih =>
    cases parts' with
    | nil => cases h
    | cons part' rest' =>
      obtain ⟨kind, glob⟩ := part
      obtain ⟨kind', glob'⟩ := part'
      rw [scopeText, scopeText, List.flatMap_cons, List.flatMap_cons, List.cons_append, List.cons_append,
        List.cons_append, List.cons_append, List.cons.injEq, List.cons.injEq] at h
      obtain ⟨-, rfl, hframes⟩ := h
      obtain ⟨rfl, hrest⟩ := Netstring.frame_append_inj hframes
      rw [ih hrest]

theorem bytes_toList (s : String) : Netstring.bytes s.toList = s.utf8ByteSize := by
  have key (text : List Char) : (String.ofList text).utf8ByteSize = Netstring.bytes text := by
    induction text with
    | nil => rfl
    | cons c text ih =>
      rw [String.ofList_cons, String.utf8ByteSize_append, String.utf8ByteSize_singleton, ih,
        Netstring.bytes_cons]
  rw [← key, String.ofList_toList]

theorem toList_appendScopePart (out : String) (kind : Char) (glob : String) :
    (appendScopePart out kind glob).toList = out.toList ++ scopeText [(kind, glob.toList)] := by
  rw [appendScopePart, scopeText, List.flatMap_singleton, Netstring.frame, bytes_toList]
  simp [String.toList_append]

theorem toList_foldl_appendScopePart (kind : Char) (globs : List String) (out : String) :
    (globs.foldl (fun out g => appendScopePart out kind g) out).toList =
      out.toList ++ scopeText (globs.map fun g => (kind, g.toList)) := by
  induction globs generalizing out with
  | nil => exact (List.append_nil _).symm
  | cons g globs ih =>
    rw [List.foldl_cons, ih, toList_appendScopePart, List.append_assoc]
    simp only [scopeText, List.map_cons, List.flatMap_cons, List.flatMap_nil, List.append_nil]

theorem toList_scopeKey {o : WalkOverrides} (h : o.scopeParts ≠ []) :
    o.scopeKey.toList = 'v' :: '1' :: scopeText o.scopeParts := by
  have hempty : (o.includes.isEmpty && o.excludes.isEmpty) = false := by
    cases hboth : o.includes.isEmpty && o.excludes.isEmpty with
    | false => rfl
    | true =>
      rw [Bool.and_eq_true, List.isEmpty_iff, List.isEmpty_iff] at hboth
      rw [WalkOverrides.scopeParts, hboth.1, hboth.2] at h
      exact absurd rfl h
  rw [WalkOverrides.scopeKey, hempty, if_neg Bool.false_ne_true, toList_foldl_appendScopePart,
    toList_foldl_appendScopePart, WalkOverrides.scopeParts, List.append_assoc]
  simp only [scopeText, List.flatMap_append]
  rfl

theorem scopeKey_eq_default_iff (o : WalkOverrides) : o.scopeKey = "default" ↔ o.scopeParts = [] := by
  constructor
  · intro hkey
    by_contra hne
    have hlist := toList_scopeKey hne
    rw [hkey] at hlist
    cases hlist
  · intro hnil
    rw [WalkOverrides.scopeParts, List.append_eq_nil_iff, List.map_eq_nil_iff, List.map_eq_nil_iff] at hnil
    rw [WalkOverrides.scopeKey, hnil.1, hnil.2]
    rfl

theorem scopeParts_inj {o o' : WalkOverrides} (h : o.scopeParts = o'.scopeParts) :
    o.includes = o'.includes ∧ o.excludes = o'.excludes := by
  have hincludes (o : WalkOverrides) : (o.scopeParts.filterMap fun part =>
      if part.1 = 'I' then some (String.ofList part.2) else none) = o.includes := by
    simp [WalkOverrides.scopeParts, List.filterMap_append]
  have hexcludes (o : WalkOverrides) : (o.scopeParts.filterMap fun part =>
      if part.1 = 'E' then some (String.ofList part.2) else none) = o.excludes := by
    simp [WalkOverrides.scopeParts, List.filterMap_append]
  exact ⟨by rw [← hincludes o, h, hincludes], by rw [← hexcludes o, h, hexcludes]⟩

theorem scopeParts_of_scopeKey {o o' : WalkOverrides} (h : o.scopeKey = o'.scopeKey) :
    o.scopeParts = o'.scopeParts := by
  by_cases hnil : o.scopeParts = []
  · rw [(scopeKey_eq_default_iff o).2 hnil] at h
    rw [hnil, (scopeKey_eq_default_iff o').1 h.symm]
  · have hnil' : o'.scopeParts ≠ [] := by
      intro hnil'
      rw [(scopeKey_eq_default_iff o').2 hnil'] at h
      exact hnil ((scopeKey_eq_default_iff o).1 h)
    have hlist := congrArg String.toList h
    rw [toList_scopeKey hnil, toList_scopeKey hnil', List.cons.injEq, List.cons.injEq] at hlist
    exact scopeText_inj hlist.2.2

/-- **Two scopes have the same key only if they have the same globs, in the same order**; only the empty
scope has the key of the empty scope. -/
theorem scopeKey_eq_iff (o o' : WalkOverrides) :
    (o.scopeKey = o'.scopeKey ↔ o.includes = o'.includes ∧ o.excludes = o'.excludes) ∧
      (o.scopeKey = "default" ↔ o.includes = [] ∧ o.excludes = []) := by
  refine ⟨⟨fun h => scopeParts_inj (scopeParts_of_scopeKey h), fun ⟨hincludes, hexcludes⟩ => ?_⟩, ?_⟩
  · rw [WalkOverrides.scopeKey, hincludes, hexcludes, WalkOverrides.scopeKey]
  · rw [scopeKey_eq_default_iff, WalkOverrides.scopeParts, List.append_eq_nil_iff, List.map_eq_nil_iff,
      List.map_eq_nil_iff]

/-- A glob that looks like the text of two globs is not taken for them. -/
example : (WalkOverrides.mk ["a;E1:b"] []).scopeKey ≠ (WalkOverrides.mk ["a"] ["b"]).scopeKey := by
  decide

end Greppy
