/-
**The symbols related to a named one.**

`related_symbols` looks for the node that is named, its anchor, and ranks the other nodes by the tokens
that their names share with the name of the anchor, and by the edges between them and the anchor.

The anchor is looked for as in a query.  There a node counts as named when all tokens of its name are among
those of the text; the name may be a part of the text.  Of the nodes that count as named the first by
qualified name and id is the anchor.
-/

import Greppy.Neighbourhoods
import Greppy.SemanticScore

set_option autoImplicit false

namespace Greppy

/-! ### The search -/

structure RelatedHit where
  node : SearchGraphRow
  score : ℚ
  edgeAdjacent : Bool
  hops : ℕ
  deriving DecidableEq

def relatedEdgeWeight : ℚ := 1 / 2

/-- The order of the hits: score descending, qualified name ascending, id descending. -/
def RelatedHit.le (a b : RelatedHit) : Prop :=
  b.score < a.score ∨ (a.score = b.score ∧ (a.node.qualifiedName < b.node.qualifiedName ∨
    (a.node.qualifiedName = b.node.qualifiedName ∧ b.node.id ≤ a.node.id)))

instance : DecidableRel RelatedHit.le := fun a b => by
  unfold RelatedHit.le
  infer_instance

def SearchGraphRow.nameTokens (u : Unicode) (r : SearchGraphRow) : Finset Token :=
  tokenize u r.name.toList

section Search

variable (u : Unicode) (log : Logarithm) (g : Graph)

/-- The row of the anchor: it is resolved to an id, and the row of that id is looked up. -/
def relatedAnchor (rows : List SearchGraphRow) (anchorName : String) : Option SearchGraphRow :=
  let anchorTokens := tokenize u anchorName.toList
  if anchorTokens = ∅ then none
  else (resolveAnchor u rows anchorTokens).bind fun anchorId =>
    rows.find? fun r => decide (r.id = anchorId)

/-- One round of the loop over the candidates: what becomes of a node. -/
def relatedHit (idf : TokenIdf) (anchor : SearchGraphRow) (row : SearchGraphRow) : Option RelatedHit :=
  if row.id = anchor.id then none
  else if row.nameTokens u = ∅ then none
  else
    let edgeAdjacent := decide (row.id ∈ proximityNeighbors g anchor.id)
    let overlap := weightedOverlap log idf (anchor.nameTokens u) (row.nameTokens u)
    if !edgeAdjacent ∧ overlap = 0 then none
    else some
      { node := row
        score := overlap + if edgeAdjacent then relatedEdgeWeight else 0
        edgeAdjacent := edgeAdjacent
        hops := if edgeAdjacent then 1 else 0 }

def relatedSymbols (anchorName : String) (project : Option String) (limit : ℕ) : List RelatedHit :=
  let rows := searchGraph g project 10000
  match relatedAnchor u rows anchorName with
  | none => []
  | some anchor =>
    ((rows.filterMap (relatedHit u log g (TokenIdf.fromRows u rows) anchor)).insertionSort
      RelatedHit.le).take limit

end Search

/-! ### The anchor -/

section Anchor

variable {u : Unicode} {g : Graph} {rows : List SearchGraphRow} {qTokens : Finset Token}

theorem before_iff (r cur : SearchGraphRow) : r.before cur = true ↔ r.qnameKey < cur.qnameKey := by
  simp [SearchGraphRow.before, SearchGraphRow.qnameKey, Prod.Lex.toLex_lt_toLex]

theorem namedBy_iff {r : SearchGraphRow} :
    namedBy u qTokens r = true ↔ r.nameTokens u ≠ ∅ ∧ r.nameTokens u ⊆ qTokens := by
  have hempty : r.nameTokens u = ∅ ↔ tokens u r.name.toList = [] := List.toFinset_eq_empty_iff _
  rw [namedBy, Bool.and_eq_true, Bool.not_eq_true', ← Bool.not_eq_true, List.isEmpty_iff, ← hempty,
    List.all_eq_true]
  refine and_congr_right fun _ => ?_
  simp [SearchGraphRow.nameTokens, tokenize, Finset.subset_iff]

/-- The first row by qualified name and id. -/
def firstRow (rows : List SearchGraphRow) : Option SearchGraphRow := rows.argmin SearchGraphRow.qnameKey

/-- A loop that keeps the least so far, the earlier of two that are alike, finds the least. -/
theorem foldl_eq_argmin {α β : Type} [Preorder β] [DecidableLT β] {f : α → β}
    {step : Option α → α → Option α} (hnone : ∀ a, step none a = some a)
    (hsome : ∀ c a, step (some c) a = if f a < f c then some a else some c) (l : List α) :
    l.foldl step none = l.argmin f := by
  have hstep : step = List.argAux fun b c => f b < f c := by
    funext best a
    cases best with
    | none => exact hnone a
    | some c => exact hsome c a
  rw [hstep, List.argmin]

/-- **The anchor is the first of the nodes that the query names.** -/
theorem resolveAnchor_eq (rows : List SearchGraphRow) (qTokens : Finset Token) :
    resolveAnchor u rows qTokens =
      (firstRow (rows.filter (namedBy u qTokens))).map SearchGraphRow.id := by
  let step : Option SearchGraphRow → SearchGraphRow → Option SearchGraphRow := fun best row =>
    match best with
    | none => some row
    | some cur => if row.before cur then some row else some cur
  have hstep : anchorStep u qTokens = fun best row =>
      if namedBy u qTokens row then step best row else best := rfl
  have hfirst : ∀ l : List SearchGraphRow, l.foldl step none = firstRow l := by
    intro l
    refine foldl_eq_argmin (fun a => rfl) ?_ l
    intro c a
    simp only [step, before_iff]
  rw [resolveAnchor, hstep, ← List.foldl_filter, hfirst]

theorem firstRow_eq_some_iff {rows : List SearchGraphRow} (hnodup : (rows.map SearchGraphRow.id).Nodup)
    {r : SearchGraphRow} :
    firstRow rows = some r ↔ r ∈ rows ∧ ∀ s ∈ rows, r.qnameKey ≤ s.qnameKey := by
  constructor
  · intro h
    exact ⟨List.argmin_mem h, fun s hs => List.le_of_mem_argmin hs h⟩
  · rintro ⟨hr, hleast⟩
    cases hfirst : firstRow rows with
    | none =>
      rw [firstRow, List.argmin_eq_none] at hfirst
      rw [hfirst] at hr
      cases hr
    | some s =>
      have hkey := le_antisymm (List.le_of_mem_argmin hr hfirst) (hleast s (List.argmin_mem hfirst))
      have hid : s.id = r.id := congrArg (fun k => (ofLex k).2) hkey
      rw [List.inj_on_of_nodup_map hnodup (List.argmin_mem hfirst) hr hid]

theorem firstRow_eq_none_iff : firstRow rows = none ↔ rows = [] := List.argmin_eq_none

theorem nodup_id_searchGraph (g : Graph) (project : Option String) (limit : ℕ) :
    ((searchGraph g project limit).map SearchGraphRow.id).Nodup := by
  rw [searchGraph, List.map_map]
  have hrows : ∀ p : Node → Bool, ((orderByQnameId (g.nodes.rows.filter p)).map
      (SearchGraphRow.id ∘ Node.searchRow)).Nodup := by
    intro p
    have hperm : (orderByQnameId (g.nodes.rows.filter p)).Perm (g.nodes.rows.filter p) :=
      List.perm_insertionSort _ _
    exact (hperm.map _).nodup_iff.2 ((List.filter_sublist.map _).nodup g.ids_nodup)
  rw [Graph.sqlLimit]
  split
  · exact ((List.take_sublist _ _).map _).nodup (hrows _)
  · exact hrows _

theorem relatedAnchor_eq (hnodup : (rows.map SearchGraphRow.id).Nodup) (anchorName : String) :
    relatedAnchor u rows anchorName =
      firstRow (rows.filter (namedBy u (tokenize u anchorName.toList))) := by
  rw [relatedAnchor]
  split
  · rename_i hempty
    -- without tokens the name names nothing
    symm
    rw [firstRow_eq_none_iff, List.filter_eq_nil_iff]
    intro r _ hnamed
    obtain ⟨hne, hsub⟩ := namedBy_iff.1 hnamed
    rw [hempty] at hsub
    exact hne (Finset.subset_empty.1 hsub)
  · rw [resolveAnchor_eq]
    cases hfirst : firstRow (rows.filter (namedBy u (tokenize u anchorName.toList))) with
    | none => rfl
    | some r =>
      have hr : r ∈ rows := List.mem_of_mem_filter (List.argmin_mem hfirst)
      let t : KeyedTable SearchGraphRow SearchGraphRow.id := ⟨rows, hnodup⟩
      exact KeyedTable.find?_of_mem (t := t) hr

/-- The name of a node is the given name: the tokens are the same. -/
def ExactlyNamed (u : Unicode) (anchorName : String) (r : SearchGraphRow) : Prop :=
  r.nameTokens u ≠ ∅ ∧ r.nameTokens u = tokenize u anchorName.toList

instance (u : Unicode) (anchorName : String) : DecidablePred (ExactlyNamed u anchorName) :=
  fun r => inferInstanceAs (Decidable (r.nameTokens u ≠ ∅ ∧ _))

def PartlyNamed (u : Unicode) (anchorName : String) (r : SearchGraphRow) : Prop :=
  r.nameTokens u ≠ ∅ ∧ r.nameTokens u ⊂ tokenize u anchorName.toList

/-- The first of the nodes with the given name. -/
def exactAnchor (u : Unicode) (rows : List SearchGraphRow) (anchorName : String) :
    Option SearchGraphRow :=
  firstRow (rows.filter fun r => decide (ExactlyNamed u anchorName r))

theorem namedBy_iff_exactly_or_partly {anchorName : String} {r : SearchGraphRow} :
    namedBy u (tokenize u anchorName.toList) r = true ↔
      ExactlyNamed u anchorName r ∨ PartlyNamed u anchorName r := by
  rw [namedBy_iff, ExactlyNamed, PartlyNamed, ← and_or_left, subset_iff_ssubset_or_eq, or_comm]

/-- **When the anchor is the first of the nodes with the given name**: when no node whose name is only a
part of it comes before all of them. -/
theorem relatedAnchor_eq_exactAnchor_iff (hnodup : (rows.map SearchGraphRow.id).Nodup)
    (anchorName : String) :
    relatedAnchor u rows anchorName = exactAnchor u rows anchorName ↔
      ∀ r ∈ rows, PartlyNamed u anchorName r →
        ∃ e ∈ rows, ExactlyNamed u anchorName e ∧ e.qnameKey < r.qnameKey := by
  have hsub : ∀ p : SearchGraphRow → Bool, ((rows.filter p).map SearchGraphRow.id).Nodup :=
    fun p => (List.filter_sublist.map _).nodup hnodup
  rw [relatedAnchor_eq hnodup, exactAnchor]
  constructor
  · intro heq r hr hpartly
    have hnamed : r ∈ rows.filter (namedBy u (tokenize u anchorName.toList)) :=
      List.mem_filter.2 ⟨hr, namedBy_iff_exactly_or_partly.2 (Or.inr hpartly)⟩
    cases hfirst : firstRow (rows.filter (namedBy u (tokenize u anchorName.toList))) with
    | none =>
      rw [firstRow_eq_none_iff] at hfirst
      rw [hfirst] at hnamed
      cases hnamed
    | some e =>
      have hleast := ((firstRow_eq_some_iff (hsub _)).1 hfirst).2 r hnamed
      rw [hfirst] at heq
      have hexact := ((firstRow_eq_some_iff (hsub _)).1 heq.symm).1
      rw [List.mem_filter, decide_eq_true_eq] at hexact
      refine ⟨e, hexact.1, hexact.2, lt_of_le_of_ne hleast ?_⟩
      intro hkey
      have hid : e.id = r.id := congrArg (fun k => (ofLex k).2) hkey
      have hsame := List.inj_on_of_nodup_map hnodup hexact.1 hr hid
      rw [hsame] at hexact
      exact hpartly.2.ne hexact.2.2
  · intro hbehind
    cases hexact : firstRow (rows.filter fun r => decide (ExactlyNamed u anchorName r)) with
    | none =>
      rw [firstRow_eq_none_iff, List.filter_eq_nil_iff] at hexact
      rw [firstRow_eq_none_iff, List.filter_eq_nil_iff]
      intro r hr hnamed
      rcases namedBy_iff_exactly_or_partly.1 hnamed with he | hp
      · exact hexact r hr (decide_eq_true he)
      · obtain ⟨e, he, hname, -⟩ := hbehind r hr hp
        exact hexact e he (decide_eq_true hname)
    | some e =>
      obtain ⟨he, hleast⟩ := (firstRow_eq_some_iff (hsub _)).1 hexact
      rw [List.mem_filter, decide_eq_true_eq] at he
      refine (firstRow_eq_some_iff (hsub _)).2 ⟨List.mem_filter.2 ⟨he.1,
        namedBy_iff_exactly_or_partly.2 (Or.inl he.2)⟩, ?_⟩
      intro r hr
      obtain ⟨hr, hnamed⟩ := List.mem_filter.1 hr
      rcases namedBy_iff_exactly_or_partly.1 hnamed with hx | hp
      · exact hleast r (List.mem_filter.2 ⟨hr, decide_eq_true hx⟩)
      · obtain ⟨e', he', hname, hlt⟩ := hbehind r hr hp
        exact (hleast e' (List.mem_filter.2 ⟨he', decide_eq_true hname⟩)).trans hlt.le

end Anchor

/-! ### What is found -/

/-- A node is related to the anchor: it is another one, its name has tokens, and there is an edge between
the two or their names share a token. -/
def Related (u : Unicode) (g : Graph) (anchor row : SearchGraphRow) : Prop :=
  row.id ≠ anchor.id ∧ row.nameTokens u ≠ ∅ ∧
    (row.id ∈ proximityNeighbors g anchor.id ∨ anchor.nameTokens u ∩ row.nameTokens u ≠ ∅)

section Found

variable {u : Unicode} {g : Graph}

theorem relatedHit_eq_some_iff (log : Logarithm) {idf : TokenIdf} (hidf : ∀ t, idf.df t ≤ idf.n)
    (anchor row : SearchGraphRow) :
    (∃ hit, relatedHit u log g idf anchor row = some hit) ↔ Related u g anchor row := by
  rw [relatedHit, Related]
  by_cases hid : row.id = anchor.id
  · simp [hid]
  by_cases hempty : row.nameTokens u = ∅
  · simp [hid, hempty]
  rw [if_neg hid, if_neg hempty]
  simp only [weightedOverlap_eq_zero_iff log hidf]
  by_cases hedge : row.id ∈ proximityNeighbors g anchor.id
  · simp [hid, hempty, hedge]
  · by_cases hshared : anchor.nameTokens u ∩ row.nameTokens u = ∅
    · simp [hedge, hshared]
    · simp [hid, hempty, hedge, hshared]

theorem node_of_relatedHit {log : Logarithm} {idf : TokenIdf} {anchor row : SearchGraphRow}
    {hit : RelatedHit} (h : relatedHit u log g idf anchor row = some hit) :
    hit.node = row ∧ row.id ≠ anchor.id := by
  unfold relatedHit at h
  split at h
  · cases h
  rename_i hid
  split at h
  · cases h
  simp only at h
  split at h
  · cases h
  · cases h
    exact ⟨rfl, hid⟩

/-- **When nothing is found**: when there is no anchor, when nothing is asked for, and when no candidate is
related to the anchor. -/
theorem relatedSymbols_eq_nil_iff (log : Logarithm) {anchorName : String} {project : Option String}
    {anchor : SearchGraphRow}
    (h : relatedAnchor u (searchGraph g project 10000) anchorName = some anchor) (limit : ℕ) :
    relatedSymbols u log g anchorName project limit = [] ↔
      limit = 0 ∨ ∀ r ∈ searchGraph g project 10000, ¬ Related u g anchor r := by
  have hsome := relatedHit_eq_some_iff (u := u) (g := g) log
    (df_fromRows_le u (searchGraph g project 10000)) anchor
  simp only [relatedSymbols, h, List.take_eq_nil_iff]
  refine or_congr_right ?_
  rw [← List.length_eq_zero_iff, List.length_insertionSort, List.length_eq_zero_iff,
    List.filterMap_eq_nil_iff]
  refine forall₂_congr fun r _ => ?_
  rw [← hsome, ← Option.isSome_iff_exists, Option.not_isSome_iff_eq_none]

/-- **The anchor, and what is found with it.**  The anchor is the first of the nodes with the given name
exactly when no node whose name is only a part of it comes before all of these.  Without an anchor nothing is
found.  The anchor itself is never found, and nothing else is when nothing is asked for or nothing is
related. -/
theorem relatedSymbols_spec (u : Unicode) (log : Logarithm) (g : Graph) (anchorName : String)
    (project : Option String) (limit : ℕ) :
    let rows := searchGraph g project 10000
    (relatedAnchor u rows anchorName = exactAnchor u rows anchorName ↔
      ∀ r ∈ rows, PartlyNamed u anchorName r →
        ∃ e ∈ rows, ExactlyNamed u anchorName e ∧ e.qnameKey < r.qnameKey) ∧
    (∀ a, exactAnchor u rows anchorName = some a ↔ (a ∈ rows ∧ ExactlyNamed u anchorName a) ∧
      ∀ s ∈ rows, ExactlyNamed u anchorName s → a.qnameKey ≤ s.qnameKey) ∧
    (exactAnchor u rows anchorName = none ↔ ∀ r ∈ rows, ¬ ExactlyNamed u anchorName r) ∧
    (relatedAnchor u rows anchorName = none → relatedSymbols u log g anchorName project limit = []) ∧
    (∀ a, relatedAnchor u rows anchorName = some a →
      (∀ hit ∈ relatedSymbols u log g anchorName project limit, hit.node.id ≠ a.id) ∧
      (relatedSymbols u log g anchorName project limit = [] ↔
        limit = 0 ∨ ∀ r ∈ rows, ¬ Related u g a r)) := by
  intro rows
  have hnodup := nodup_id_searchGraph g project 10000
  refine ⟨relatedAnchor_eq_exactAnchor_iff hnodup anchorName, ?_, ?_, ?_, ?_⟩
  · intro a
    rw [exactAnchor, firstRow_eq_some_iff ((List.filter_sublist.map _).nodup hnodup), List.mem_filter,
      decide_eq_true_eq]
    refine and_congr_right fun _ => ?_
    simp only [rows, List.mem_filter, decide_eq_true_eq, and_imp]
  · rw [exactAnchor, firstRow_eq_none_iff, List.filter_eq_nil_iff]
    simp only [decide_eq_true_eq]
  · intro hnone
    simp only [relatedSymbols, rows] at hnone ⊢
    rw [hnone]
  · intro a ha
    refine ⟨?_, relatedSymbols_eq_nil_iff log ha limit⟩
    intro hit hhit
    simp only [relatedSymbols, rows] at ha hhit
    rw [ha] at hhit
    have hmem := List.mem_of_mem_take hhit
    rw [(List.perm_insertionSort RelatedHit.le _).mem_iff] at hmem
    obtain ⟨r, -, hr⟩ := List.mem_filterMap.1 hmem
    obtain ⟨hnode, hid⟩ := node_of_relatedHit hr
    rwa [hnode]

end Found

/-- A function, and one whose name it is a part of. -/
def storeAndManager : Graph :=
  Graph.ofInserts ⟨"p", "2026-06-29T00:00:00Z", "/p"⟩
    [⟨"p", "Function", "store", "a::store", "src/a.rs", 1, 1, .null⟩,
      ⟨"p", "Function", "storeManager", "b::storeManager", "src/b.rs", 1, 1, .null⟩] []

/-- The name of the second function leads to the first.  A function on its own is the anchor of its name, and
nothing is found. -/
theorem relatedAnchor_of_part :
    ((relatedAnchor .ascii (searchGraph storeAndManager none 10000) "storeManager").map
        SearchGraphRow.qualifiedName = some "a::store" ∧
      (exactAnchor .ascii (searchGraph storeAndManager none 10000) "storeManager").map
        SearchGraphRow.qualifiedName = some "b::storeManager") ∧
    (exactAnchor .ascii (searchGraph (functionGraph ["lonely"] []) none 10000) "lonely").map
        SearchGraphRow.qualifiedName = some "lonely" ∧
      ∀ log, relatedSymbols .ascii log (functionGraph ["lonely"] []) "lonely" none 10 = [] := by
  refine ⟨⟨by decide +kernel, by decide +kernel⟩, by decide +kernel, ?_⟩
  intro log
  obtain ⟨a, ha⟩ : ∃ a, relatedAnchor .ascii (searchGraph (functionGraph ["lonely"] []) none 10000)
      "lonely" = some a := Option.isSome_iff_exists.1 (by decide +kernel)
  rw [relatedSymbols_eq_nil_iff log ha]
  right
  have hids : ∀ r ∈ searchGraph (functionGraph ["lonely"] []) none 10000,
      ∀ s ∈ searchGraph (functionGraph ["lonely"] []) none 10000, r.id = s.id := by decide +kernel
  have hanchor : a ∈ searchGraph (functionGraph ["lonely"] []) none 10000 := by
    rw [relatedAnchor_eq (nodup_id_searchGraph _ _ _)] at ha
    exact List.mem_of_mem_filter (List.argmin_mem ha)
  rintro r hr ⟨hid, -⟩
  exact hid (hids r hr a hanchor)

end Greppy
