/-
**When a drift of the indexer version may heal itself.**

An index records the version of its indexer with the key of its discovery scope, and the freshness check
explains a difference in an English sentence.  A full reindex may start by itself only if the scope is the
same on both sides, so the command line takes the sentence apart again.  The globs of the scopes stand in it
as they are, and may hold the very texts that the sentence is split at.

A split at the wrong place cannot make two different scopes look the same.  It cuts the persisted key inside
a glob, and what is left of the key is the key of no scope, because each glob stands behind its length.
-/

import Greppy.Json
import Greppy.ScopeKey
import Greppy.TextSplits

set_option autoImplicit false

namespace Greppy

open Text

/-! ### The sentence and the decision -/

/-- A version of the indexer with the scope of its index, which `expected_indexer_version` is for the
current base. -/
def indexerVersion (base : String) (overrides : WalkOverrides) : String :=
  let scope := overrides.scopeKey
  if scope = "default" then base else base ++ ";discover_scope=" ++ scope

/-- The sentence of `check_with_overrides` for `StaleReason.indexerVersionChanged`. -/
def versionReason (was expected : String) : String :=
  "indexer version/scope changed (was " ++ was ++ ", expected " ++ expected ++ ")"

/-- `"(was "`. -/
def wasMark : List Char := "(was ".toList

/-- `", expected "`. -/
def expectedMark : List Char := ", expected ".toList

/-- `";discover_scope="`. -/
def scopeMark : List Char := ";discover_scope=".toList

def scopeOf (version : List Char) : List Char := ((splitOnceText scopeMark version).map Prod.snd).getD []

/-- The first reason of a freshness report that is about the version. -/
def reportedReason (freshness : Json) : Option (List Char) :=
  match freshness.get "reasons" with
  | some (.arr items) =>
    ((items.filterMap Json.asStr).map String.toList).find? (containsText "indexer version/scope".toList)
  | _ => none

def versionDriftIsScopeStable (freshness : Json) : Bool :=
  match reportedReason freshness with
  | none => false
  | some reason =>
    let body := (splitOnceText wasMark reason).bind fun parts =>
      if parts.2.getLast? = some ')' then some parts.2.dropLast else none
    match body.bind (splitOnceText expectedMark) with
    | none => false
    | some (was, expected) => decide (scopeOf was = scopeOf expected) && decide (was ≠ expected)

/-! ### The texts of the versions -/

theorem wasMark_unbordered : Unbordered wasMark := ⟨'(', "was ".toList, rfl, by decide⟩

theorem expectedMark_unbordered : Unbordered expectedMark := ⟨',', " expected ".toList, rfl, by decide⟩

theorem scopeMark_unbordered : Unbordered scopeMark := ⟨';', "discover_scope=".toList, rfl, by decide⟩

/-- What a version shows of its scope. -/
def keyText (parts : List (Char × List Char)) : List Char :=
  if parts = [] then [] else 'v' :: '1' :: scopeText parts

theorem toList_indexerVersion (base : String) (o : WalkOverrides) :
    (indexerVersion base o).toList =
      if o.scopeParts = [] then base.toList else base.toList ++ scopeMark ++ keyText o.scopeParts := by
  rw [indexerVersion]
  by_cases hnil : o.scopeParts = []
  · rw [if_pos hnil, (scopeKey_eq_default_iff o).2 hnil]
    rfl
  · rw [if_neg hnil, if_neg (mt (scopeKey_eq_default_iff o).1 hnil), String.toList_append, String.toList_append,
      toList_scopeKey hnil, keyText, if_neg hnil]
    rfl

variable {base : String} {parts : List (Char × List Char)}

theorem scopeOf_indexerVersion (hbase : ¬ scopeMark <:+: base.toList) (o : WalkOverrides) :
    scopeOf (indexerVersion base o).toList = keyText o.scopeParts := by
  rw [toList_indexerVersion, scopeOf]
  split
  · rename_i hnil
    rw [splitOnceText_eq_none_iff.2 hbase, keyText, if_pos hnil]
    rfl
  · rw [splitOnceText_append scopeMark_unbordered hbase]
    rfl

theorem keyText_inj {parts' : List (Char × List Char)} (h : keyText parts = keyText parts') :
    parts = parts' := by
  unfold keyText at h
  split_ifs at h with hnil hnil' hnil'
  · rw [hnil, hnil']
  · rw [List.cons.injEq, List.cons.injEq] at h
    exact scopeText_inj h.2.2

/-- **Globs behind each other can be told apart from what follows.** -/
theorem scopeText_append_inj {parts' : List (Char × List Char)} {rest : List Char}
    (h : scopeText parts = scopeText parts' ++ rest) :
    ∃ more, parts = parts' ++ more ∧ rest = scopeText more := by
  induction parts' generalizing parts with
  | nil => exact ⟨parts, rfl, by rw [h]; rfl⟩
  | cons part' parts' ih =>
    cases parts with
    | nil => cases h
    | cons part parts =>
      obtain ⟨kind, glob⟩ := part
      obtain ⟨kind', glob'⟩ := part'
      rw [scopeText, scopeText, List.flatMap_cons, List.flatMap_cons, List.cons_append, List.cons_append,
        List.cons_append, List.cons_append, List.cons_append, List.cons_append, List.cons.injEq,
        List.cons.injEq, List.append_assoc] at h
      obtain ⟨-, rfl, hframes⟩ := h
      obtain ⟨rfl, hrest⟩ := Netstring.frame_append_inj hframes
      obtain ⟨more, hmore, hscope⟩ := ih hrest
      exact ⟨more, by rw [hmore]; rfl, hscope⟩

/-! ### The wrong split -/

/-- The marker of a scope does not reach across `", expected "`. -/
theorem scopeMark_infix_iff (a b : List Char) :
    scopeMark <:+: a ++ expectedMark ++ b ↔ scopeMark <:+: a ∨ scopeMark <:+: b := by
  have hmark : a ++ expectedMark ++ b = a ++ ',' :: ([] ++ ' ' :: ("expected".toList ++ ' ' :: b)) := by
    rw [List.append_assoc]
    rfl
  rw [hmark, infix_append_cons_iff (by decide), infix_append_cons_iff (by decide),
    infix_append_cons_iff (by decide)]
  have hnil : ¬ scopeMark <:+: [] := by decide
  have hword : ¬ scopeMark <:+: "expected".toList := by decide
  tauto

/-- An early occurrence of `", expected "` in a version lies behind the marker of the scope. -/
theorem early_mark_in_key {base w r : List Char} (hbase : ¬ expectedMark <:+: base)
    (h : base ++ scopeMark ++ keyText parts = w ++ (expectedMark ++ r)) :
    ∃ k, w = base ++ scopeMark ++ k ∧ keyText parts = k ++ (expectedMark ++ r) := by
  obtain ⟨k, hw, hkey⟩ | ⟨m, hfront, hm⟩ := List.append_eq_append_iff.1 h
  · exact ⟨k, hw, hkey⟩
  · obtain ⟨n, hmark, hn⟩ | ⟨n, hmark, hn⟩ := List.append_eq_append_iff.1 hm
    · have hinfix : expectedMark <:+: base ++ scopeMark := by
        rw [hfront, hmark]
        exact ⟨w, n, by rw [List.append_assoc]⟩
      rw [show scopeMark = ';' :: "discover_scope=".toList from rfl, infix_append_cons_iff (by decide)] at hinfix
      rcases hinfix with hinfix | hinfix
      · exact absurd hinfix hbase
      · exact absurd hinfix (by decide)
    · -- `m` is what the occurrence and the part in front of the key share
      cases m using List.reverseRecOn with
      | nil =>
        rw [List.append_nil] at hfront
        exact ⟨[], by rw [List.append_nil, hfront], hm.symm⟩
      | append_singleton m d =>
        have hlast := congrArg List.getLast? hfront
        rw [← List.append_assoc, List.getLast?_concat, List.getLast?_append_of_ne_nil _ (by decide)] at hlast
        have hmem : d ∈ expectedMark := by
          rw [hmark]
          simp
        have hd : scopeMark.getLast? = some '=' := by decide
        rw [hd, Option.some.injEq] at hlast
        rw [← hlast] at hmem
        exact absurd hmem (by decide)

theorem splitOnceText_append_right {sep s a b : List Char} (h : splitOnceText sep s = some (a, b)) (t : List Char) :
    splitOnceText sep (s ++ t) = some (a, b ++ t) := by
  obtain ⟨rfl, hfirst⟩ := splitOnceText_eq_some_iff.1 h
  refine splitOnceText_eq_some_iff.2 ⟨by rw [List.append_assoc], fun p q hpq => ?_⟩
  by_contra hlt
  obtain ⟨q', hq'⟩ : p ++ sep <+: a ++ sep ++ b := by
    refine List.prefix_of_prefix_length_le ⟨q, hpq.symm⟩ ⟨t, rfl⟩ ?_
    rw [List.length_append, List.length_append, List.length_append]
    omega
  exact hlt (hfirst p q' hq'.symm)

/-- **A wrong split** shows two scopes that differ. -/
theorem not_scopeOf_of_early_split {base' : String} {a b : WalkOverrides} {w r : List Char}
    (hscope : ¬ scopeMark <:+: base.toList) (hmark : ¬ expectedMark <:+: base.toList)
    (hscope' : ¬ scopeMark <:+: base'.toList) (hfirst : ¬ expectedMark <:+: w)
    (h : (indexerVersion base a).toList = w ++ expectedMark ++ r) :
    scopeOf w ≠ scopeOf (r ++ expectedMark ++ (indexerVersion base' b).toList) := by
  rw [toList_indexerVersion, List.append_assoc w] at h
  have hparts : a.scopeParts ≠ [] := by
    intro hnil
    rw [if_pos hnil] at h
    exact hmark ⟨w, r, by rw [h, List.append_assoc]⟩
  rw [if_neg hparts] at h
  obtain ⟨k, rfl, hkey⟩ := early_mark_in_key hmark h
  have hw : scopeOf (base.toList ++ scopeMark ++ k) = k := by
    rw [scopeOf, splitOnceText_append scopeMark_unbordered hscope]
    rfl
  have hhead : keyText a.scopeParts = 'v' :: '1' :: scopeText a.scopeParts := by rw [keyText, if_neg hparts]
  rw [hw]
  intro heq
  cases hr : splitOnceText scopeMark r with
  | some front =>
    -- the marker stands in a glob, and what follows it holds `", expected "`
    have hx : scopeOf (r ++ expectedMark ++ (indexerVersion base' b).toList) =
        front.2 ++ (expectedMark ++ (indexerVersion base' b).toList) := by
      rw [scopeOf, List.append_assoc, splitOnceText_append_right hr]
      rfl
    refine hfirst ⟨base.toList ++ scopeMark ++ front.2, (indexerVersion base' b).toList, ?_⟩
    rw [heq, hx]
    simp only [List.append_assoc]
  | none =>
    have hnone := splitOnceText_eq_none_iff.1 hr
    rw [toList_indexerVersion] at heq
    by_cases hparts' : b.scopeParts = []
    · rw [if_pos hparts', scopeOf, splitOnceText_eq_none_iff.2 (by
        rw [scopeMark_infix_iff]
        exact fun h => h.elim hnone hscope')] at heq
      rw [heq, hhead] at hkey
      cases hkey
    · have hx : scopeOf (r ++ expectedMark ++ (base'.toList ++ scopeMark ++ keyText b.scopeParts)) =
          keyText b.scopeParts := by
        have happ : r ++ expectedMark ++ (base'.toList ++ scopeMark ++ keyText b.scopeParts) =
            (r ++ expectedMark ++ base'.toList) ++ scopeMark ++ keyText b.scopeParts := by
          simp only [List.append_assoc]
        rw [scopeOf, happ, splitOnceText_append scopeMark_unbordered (by
          rw [scopeMark_infix_iff]
          exact fun h => h.elim hnone hscope')]
        rfl
      rw [if_neg hparts', hx, keyText, if_neg hparts'] at heq
      rw [heq, hhead, List.cons_append, List.cons_append, List.cons.injEq, List.cons.injEq] at hkey
      obtain ⟨more, -, hmore⟩ := scopeText_append_inj hkey.2.2
      cases more with
      | nil => cases hmore
      | cons part more => cases hmore

/-! ### The right split -/

/-- `", expected "` stands in the text of a scope only inside its globs. -/
theorem expectedMark_infix_scopeText {front : List Char}
    (hkinds : ∀ part ∈ parts, part.1 = 'I' ∨ part.1 = 'E')
    (h : expectedMark <:+: front ++ scopeText parts) :
    expectedMark <:+: front ∨ ∃ part ∈ parts, expectedMark <:+: part.2 := by
  induction parts generalizing front with
  | nil =>
    rw [scopeText, List.flatMap_nil, List.append_nil] at h
    exact .inl h
  | cons part parts ih =>
    obtain ⟨kind, glob⟩ := part
    have happ : scopeText ((kind, glob) :: parts) =
        ';' :: ((kind :: Nat.toDigits 10 (Netstring.bytes glob)) ++ ':' :: (glob ++ scopeText parts)) := by
      rw [scopeText, List.flatMap_cons, Netstring.frame, List.cons_append, List.cons_append, List.append_assoc]
      rfl
    rw [happ, infix_append_cons_iff (by decide), infix_append_cons_iff (by decide)] at h
    rcases h with h | hlength | h
    · exact .inl h
    · -- a comma is no letter of a list and no digit
      rcases List.mem_cons.1 (hlength.subset (by decide : ',' ∈ expectedMark)) with rfl | hdigit
      · rcases hkinds _ List.mem_cons_self with h | h
        · exact absurd (show ',' = 'I' from h) (by decide)
        · exact absurd (show ',' = 'E' from h) (by decide)
      · exact absurd (Nat.isDigit_of_mem_toDigits (by decide) (by decide) hdigit) (by decide)
    · rcases ih (fun part hpart => hkinds part (List.mem_cons_of_mem _ hpart)) h with h | ⟨part, hpart, h⟩
      · exact .inr ⟨_, List.mem_cons_self, h⟩
      · exact .inr ⟨part, List.mem_cons_of_mem _ hpart, h⟩

theorem kinds_scopeParts (o : WalkOverrides) : ∀ part ∈ o.scopeParts, part.1 = 'I' ∨ part.1 = 'E' := by
  intro part hpart
  rcases List.mem_append.1 hpart with h | h
  · obtain ⟨g, -, rfl⟩ := List.mem_map.1 h
    exact .inl rfl
  · obtain ⟨g, -, rfl⟩ := List.mem_map.1 h
    exact .inr rfl

/-- A version is free of `", expected "` if its base and its globs are. -/
theorem not_expectedMark_infix_version {o : WalkOverrides} (hbase : ¬ expectedMark <:+: base.toList)
    (hglobs : ∀ g ∈ o.includes ++ o.excludes, ¬ expectedMark <:+: g.toList) :
    ¬ expectedMark <:+: (indexerVersion base o).toList := by
  rw [toList_indexerVersion]
  split
  · exact hbase
  · rename_i hne
    rw [keyText, if_neg hne]
    intro h
    have happ : base.toList ++ scopeMark ++ 'v' :: '1' :: scopeText o.scopeParts =
        base.toList ++ ';' :: ("discover_scope=v1".toList ++ scopeText o.scopeParts) := by
      rw [List.append_assoc]
      rfl
    rw [happ, infix_append_cons_iff (by decide)] at h
    rcases h with h | h
    · exact hbase h
    · rcases expectedMark_infix_scopeText (kinds_scopeParts o) h with h | ⟨part, hpart, h⟩
      · exact absurd h (by decide)
      · rcases List.mem_append.1 hpart with hmem | hmem
        · obtain ⟨g, hg, rfl⟩ := List.mem_map.1 hmem
          exact hglobs g (List.mem_append_left _ hg) h
        · obtain ⟨g, hg, rfl⟩ := List.mem_map.1 hmem
          exact hglobs g (List.mem_append_right _ hg) h

/-! ### The decision -/

/-- The sentence is split at the first `", expected "`. -/
theorem versionDriftIsScopeStable_eq {freshness : Json} {was expected : String}
    (h : reportedReason freshness = some (versionReason was expected).toList) :
    versionDriftIsScopeStable freshness = true ↔ ∃ w x,
      splitOnceText expectedMark (was.toList ++ expectedMark ++ expected.toList) = some (w, x) ∧
        scopeOf w = scopeOf x ∧ w ≠ x := by
  have hfront : "indexer version/scope changed (was ".toList = "indexer version/scope changed ".toList ++ wasMark := by
    decide
  have hmark : ", expected ".toList = expectedMark := rfl
  have hclose : ")".toList = [')'] := by decide
  have hno : ¬ wasMark <:+: "indexer version/scope changed ".toList := by decide
  have happ {x f w m m' c c' : List Char} (hx : x = f ++ w) (hm : m = m') (hc : c = c') (p e : List Char) :
      x ++ p ++ m ++ e ++ c = f ++ w ++ ((p ++ m' ++ e) ++ c') := by
    rw [hx, hm, hc]
    simp only [List.append_assoc]
  have htexts : (versionReason was expected).toList = "indexer version/scope changed (was ".toList ++ was.toList ++
      ", expected ".toList ++ expected.toList ++ ")".toList := by
    unfold versionReason
    generalize "indexer version/scope changed (was " = front
    generalize ", expected " = mark
    generalize ")" = close
    rw [String.toList_append, String.toList_append, String.toList_append, String.toList_append]
  have hsentence := htexts.trans (happ hfront hmark hclose was.toList expected.toList)
  rw [versionDriftIsScopeStable, h, hsentence]
  dsimp only
  rw [splitOnceText_append wasMark_unbordered hno, Option.bind_some, if_pos (by simp),
    List.dropLast_concat, Option.bind_some]
  cases splitOnceText expectedMark (was.toList ++ expectedMark ++ expected.toList) with
  | none => simp
  | some parts =>
    obtain ⟨w, x⟩ := parts
    simp

/-- A base version is free of the texts that the sentence and the versions are split at. -/
def IsBase (base : String) : Prop := ¬ scopeMark <:+: base.toList ∧ ¬ expectedMark <:+: base.toList

/-- **The decision is right.** -/
theorem scopeStable_of_versions {base base' : String} (hbase : IsBase base) (hbase' : IsBase base')
    (a b : WalkOverrides) {freshness : Json} (hreason : reportedReason freshness =
      some (versionReason (indexerVersion base a) (indexerVersion base' b)).toList) :
    (versionDriftIsScopeStable freshness = true →
      (a.includes = b.includes ∧ a.excludes = b.excludes) ∧ base ≠ base') ∧
    ((∀ g ∈ a.includes ++ a.excludes, ¬ expectedMark <:+: g.toList) →
      (a.includes = b.includes ∧ a.excludes = b.excludes) ∧ base ≠ base' →
        versionDriftIsScopeStable freshness = true) := by
  rw [versionDriftIsScopeStable_eq hreason]
  constructor
  · rintro ⟨w, x, hsplit, hscope, hne⟩
    obtain ⟨happ, hfirst⟩ := splitOnceText_eq_some_iff.1 hsplit
    have hle := hfirst _ _ rfl
    rcases Nat.lt_or_eq_of_le hle with hlt | hlen
    · -- the split comes too early
      obtain ⟨r, hr, rfl⟩ := expectedMark_unbordered.apart happ.symm hlt
      refine absurd hscope (not_scopeOf_of_early_split hbase.1 hbase.2 hbase'.1 ?_ hr)
      rintro ⟨p, q, rfl⟩
      have hearly := hfirst p (q ++ expectedMark ++ (r ++ expectedMark ++ (indexerVersion base' b).toList)) (by
        rw [happ]
        simp only [List.append_assoc])
      have hmark : expectedMark.length = 11 := rfl
      rw [List.length_append, List.length_append, hmark] at hearly
      omega
    · rw [List.append_assoc, List.append_assoc] at happ
      obtain ⟨rfl, hrest⟩ := List.append_inj happ hlen.symm
      obtain rfl := List.append_cancel_left hrest
      rw [scopeOf_indexerVersion hbase.1, scopeOf_indexerVersion hbase'.1] at hscope
      have hparts := keyText_inj hscope
      refine ⟨scopeParts_inj hparts, ?_⟩
      rintro rfl
      rw [toList_indexerVersion, toList_indexerVersion, hparts] at hne
      exact hne rfl
  · rintro hglobs ⟨⟨hincludes, hexcludes⟩, hne⟩
    refine ⟨_, _, splitOnceText_append expectedMark_unbordered
      (not_expectedMark_infix_version hbase.2 hglobs) _, ?_, ?_⟩
    · rw [scopeOf_indexerVersion hbase.1, scopeOf_indexerVersion hbase'.1, WalkOverrides.scopeParts, hincludes,
        hexcludes]
      rfl
    · have hparts : a.scopeParts = b.scopeParts := by
        rw [WalkOverrides.scopeParts, hincludes, hexcludes]
        rfl
      rw [toList_indexerVersion, toList_indexerVersion, hparts]
      intro heq
      refine hne (String.toList_inj.1 ?_)
      split at heq
      · exact heq
      · rw [List.append_assoc, List.append_assoc] at heq
        exact List.append_cancel_right heq

def rustScope : WalkOverrides := ⟨["src/*.rs"], []⟩

/-- The report of an index of that scope by the first version of the indexer. -/
def bumpReport : Json :=
  .obj [("reasons", .arr [.str
    (versionReason (indexerVersion "greppy-indexer-v1" rustScope) (indexerVersion "greppy-indexer-v4" rustScope))])]

theorem scopeStable_of_versions_bump : versionDriftIsScopeStable bumpReport = true := by
  have hbase : IsBase "greppy-indexer-v1" := ⟨by decide +kernel, by decide +kernel⟩
  have hbase' : IsBase "greppy-indexer-v4" := ⟨by decide +kernel, by decide +kernel⟩
  have hreason : reportedReason bumpReport = some (versionReason (indexerVersion "greppy-indexer-v1" rustScope)
      (indexerVersion "greppy-indexer-v4" rustScope)).toList := by decide +kernel
  exact (scopeStable_of_versions hbase hbase' rustScope rustScope hreason).2 (by decide +kernel)
    ⟨⟨rfl, rfl⟩, by decide⟩

end Greppy
