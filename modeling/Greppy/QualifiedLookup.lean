/-
**Looking a node up by its qualified name.**

The resolver of single nodes falls back to the node whose qualified name is the query.  A qualified name has
the form of a qualified query itself, though: it is split into an owner and a member, and of the nodes of the
member only the primary definitions with that owner segment are looked at, in the order of their ranks and
ids.  So a qualified name leads to its node exactly if the first of them has that name.
-/

import Greppy.SymbolResolution

set_option autoImplicit false

namespace Greppy

/-- The resolver answers the qualified name of a node with a node of that name. -/
def FoundByQualifiedName (g : Graph) (qualifiedName : String) : Prop :=
  ∃ m ∈ g.nodes.rows, resolveSymbolId g (some qualifiedName) = some m.id ∧ m.qualifiedName = qualifiedName

/-- Of the nodes with a property, the first by rank and id has the qualified name. -/
def GoesFirst (P : Node → Prop) (qualifiedName : String) : Prop :=
  ∃ m, P m ∧ m.qualifiedName = qualifiedName ∧ ∀ m', P m' → m.rankKey ≤ m'.rankKey

/-- A primary definition of the member, with the owner in front of it. -/
structure FitsOwner (g : Graph) (owner member : List Char) (m : Node) : Prop where
  fetched : NameFetched g (String.ofList member) m
  primary : isPrimaryLabel m.label = true
  owner : qnameOwnerSegment m.qualifiedName.toList = some (ownerTail owner)

/-- Where the qualified name splits, its node goes first among those that fit; where it does not, it goes
first among the nodes whose name differs from it in case only, if there is one such spelling. -/
def LeadsToItself (g : Graph) (qualifiedName : String) : Prop :=
  match splitQualified qualifiedName.toList with
  | some (owner, member) => GoesFirst (FitsOwner g owner member) qualifiedName
  | none => ∀ project ∈ (listProjects g).head?, ∀ t, OnlySpelling g project qualifiedName t →
      GoesFirst (NameFetched g t) qualifiedName

section Lookup

variable {g : Graph} {q : String}

/-- What the resolver takes from rows that are those of certain nodes. -/
theorem bestRow_found_iff {rows : List SearchGraphRow} {P : Node → Prop} (hmem : ∀ n, P n → n ∈ g.nodes.rows)
    (hrows : ∀ r, r ∈ rows ↔ ∃ n, P n ∧ n.searchRow = r) :
    (∃ m ∈ g.nodes.rows, (bestRow rows).map SearchGraphRow.id = some m.id ∧ m.qualifiedName = q) ↔
      GoesFirst P q := by
  constructor
  · rintro ⟨m, hm, hid, hq⟩
    obtain ⟨r, hbest, hrid⟩ := Option.map_eq_some_iff.1 hid
    obtain ⟨hr, hleast⟩ := bestRow_spec hbest
    obtain ⟨n, hn, rfl⟩ := (hrows r).1 hr
    have hnm : n = m := g.node_eq_of_id_eq (hmem n hn) hm hrid
    exact ⟨n, hn, hnm ▸ hq, fun m' hm' => hleast _ ((hrows _).2 ⟨m', hm', rfl⟩)⟩
  · rintro ⟨m, hm, hq, hleast⟩
    have hrow := (hrows _).2 ⟨m, hm, rfl⟩
    cases hbest : bestRow rows with
    | none =>
      rw [bestRow_eq_none_iff.1 hbest] at hrow
      cases hrow
    | some r =>
      obtain ⟨hr, hfirst⟩ := bestRow_spec hbest
      obtain ⟨n, hn, rfl⟩ := (hrows r).1 hr
      have hnm : n = m := eq_of_rankKey_eq (hmem n hn) (hmem m hm) (le_antisymm (hfirst _ hrow) (hleast n hn))
      exact ⟨m, hmem m hm, congrArg (fun n => some (Node.id n)) hnm, hq⟩

theorem found_iff_of_split {owner member : List Char} (hsplit : splitQualified q.toList = some (owner, member)) :
    FoundByQualifiedName g q ↔ GoesFirst (FitsOwner g owner member) q := by
  have hlookup : lookupName q = String.ofList member := by
    rw [lookupName, hsplit]
    rfl
  rw [FoundByQualifiedName, resolveSymbolId_qualified hsplit]
  refine bestRow_found_iff (fun n hn => hn.fetched.mem) fun r => ?_
  rw [List.mem_filter, mem_searchByName, hlookup]
  constructor
  · rintro ⟨⟨n, hn, rfl⟩, hfits⟩
    rw [fitsOwner, Bool.and_eq_true, Bool.and_eq_true, decide_eq_true_eq, decide_eq_true_eq] at hfits
    exact ⟨n, ⟨hn, hfits.1.2, hfits.2⟩, rfl⟩
  · rintro ⟨n, ⟨hn, hlabel, howner⟩, rfl⟩
    refine ⟨⟨n, hn, rfl⟩, ?_⟩
    rw [fitsOwner, Bool.and_eq_true, Bool.and_eq_true, decide_eq_true_eq, decide_eq_true_eq]
    exact ⟨⟨(congrArg String.toList hn.named).trans String.toList_ofList, hlabel⟩, howner⟩

theorem exists_head_listProjects {n : Node} (hn : n ∈ g.nodes.rows) :
    ∃ project, (listProjects g).head? = some project := by
  obtain ⟨p, hp⟩ := Option.isSome_iff_exists.1 (g.nodes_fk n hn)
  refine Option.ne_none_iff_exists'.1 fun hnone => ?_
  have hmem : p.name ∈ listProjects g :=
    (Ranking.mem_ranked _ _).2 (List.mem_map_of_mem (KeyedTable.mem_of_find? hp))
  rw [List.head?_eq_none_iff.1 hnone] at hmem
  cases hmem

theorem OnlySpelling.unique {project t t' : String} (h : OnlySpelling g project q t)
    (h' : OnlySpelling g project q t') : t = t' := by
  obtain ⟨n, hn, hproject, hname⟩ := h.occurs
  rw [← hname, h'.only n hn hproject (by rw [hname, h.same])]

/-- A qualified name without a separator: the rows are those of a name that differs in case, or there are
none and the fall-back is reached. -/
theorem found_iff_of_plain {n : Node} (hn : n ∈ g.nodes.rows) (hq : n.qualifiedName = q)
    (hunnamed : ∀ m ∈ g.nodes.rows, m.name ≠ q) (hsplit : splitQualified q.toList = none) :
    FoundByQualifiedName g q ↔ ∀ project ∈ (listProjects g).head?, ∀ t, OnlySpelling g project q t →
      GoesFirst (NameFetched g t) q := by
  have hlookup := lookupName_of_plain hsplit
  have hid : resolveSymbolId g (some q) = ((bestRow (symbolCandidateRows g (some q))).map SearchGraphRow.id).or
      ((searchByQualifiedName g q).head?.map SearchGraphRow.id) := by
    cases hbest : bestRow (symbolCandidateRows g (some q)) <;>
      simp only [resolveSymbolId, hsplit, Option.isSome_none, Bool.false_eq_true, if_false,
        filter_sameSpelling_candidates hsplit, hbest, Option.map_none, Option.map_some, Option.none_or, Option.some_or]
  -- without candidates the fall-back finds a node
  have hfallback (hnil : symbolCandidateRows g (some q) = []) : FoundByQualifiedName g q := by
    have hne : searchByQualifiedName g q ≠ [] := fun h => searchByQualifiedName_eq_nil_iff.1 h n hn hq
    obtain ⟨r, hr⟩ := Option.ne_none_iff_exists'.1 (mt List.head?_eq_none_iff.1 hne)
    obtain ⟨m, hm, hmq, rfl⟩ := head?_searchByQualifiedName hr
    refine ⟨m, hm, ?_, hmq⟩
    rw [hid, hnil]
    exact congrArg (Option.map SearchGraphRow.id) hr
  obtain ⟨project, hproject⟩ := exists_head_listProjects hn
  rw [hproject]
  by_cases hspelling : ∃ t, OnlySpelling g project q t
  · obtain ⟨t, ht⟩ := hspelling
    have hrows : symbolCandidateRows g (some q) = searchByName g t :=
      symbolCandidateRows_of_spelling (hlookup.symm ▸ hunnamed) hproject (hlookup.symm ▸ ht)
    have hfound : FoundByQualifiedName g q ↔ GoesFirst (NameFetched g t) q := by
      rw [← @bestRow_found_iff g q (searchByName g t) _ (fun n hn => hn.mem) fun r => mem_searchByName,
        FoundByQualifiedName, hid, hrows]
      cases hbest : bestRow (searchByName g t) with
      | some best => rfl
      | none =>
        obtain ⟨n', hn', -, hname'⟩ := ht.occurs
        exact absurd hname' (searchByName_eq_nil_iff.1 (bestRow_eq_none_iff.1 hbest) n' hn')
    rw [hfound]
    constructor
    · intro hfirst project' hproject' t' ht'
      rw [Option.mem_some_iff] at hproject'
      subst hproject'
      rwa [← ht.unique ht']
    · intro h
      exact h project rfl t ht
  · have hnil := symbolCandidateRows_of_ambiguous (hlookup.symm ▸ hunnamed) hproject
      (hlookup.symm ▸ not_exists.1 hspelling)
    refine iff_of_true (hfallback hnil) fun project' hproject' t ht => ?_
    rw [Option.mem_some_iff] at hproject'
    exact absurd ⟨t, hproject' ▸ ht⟩ hspelling

end Lookup

/-- **A qualified name leads to its node exactly if the node goes first among those that the query is
compared with.** -/
theorem foundByQualifiedName_iff (g : Graph) {n : Node} (hn : n ∈ g.nodes.rows)
    (hunnamed : ∀ m ∈ g.nodes.rows, m.name ≠ n.qualifiedName) :
    FoundByQualifiedName g n.qualifiedName ↔ LeadsToItself g n.qualifiedName := by
  cases hsplit : splitQualified n.qualifiedName.toList with
  | some q =>
    rw [LeadsToItself, hsplit]
    exact found_iff_of_split hsplit
  | none =>
    rw [LeadsToItself, hsplit]
    exact found_iff_of_plain hn rfl hunnamed hsplit

/-- A qualified name with an owner and a member that no primary definition has is not found. -/
theorem not_found_of_secondary {g : Graph} {q : String} (hsplit : (splitQualified q.toList).isSome)
    (hsecondary : ∀ m ∈ g.nodes.rows, m.qualifiedName = q → isPrimaryLabel m.label = false) :
    ¬ FoundByQualifiedName g q := by
  obtain ⟨⟨owner, member⟩, hq⟩ := Option.isSome_iff_exists.1 hsplit
  rw [found_iff_of_split hq]
  rintro ⟨m, hm, hmq, -⟩
  have hlabel := hsecondary m hm.fetched.mem hmq
  rw [hm.primary] at hlabel
  cases hlabel

def oneNodeGraph (label name qualifiedName : String) : Graph :=
  Graph.ofInserts ⟨"p", "2026-06-29T00:00:00Z", "/p"⟩
    [⟨"p", label, name, qualifiedName, "src/lib.rs", 1, 1, .null⟩] []

def loadMethod : Graph := oneNodeGraph "Method" "load" "src/lib.rs::Config::load"

def limitVariable : Graph := oneNodeGraph "Variable" "LIMIT" "src/lib.rs::Variable::LIMIT"

/-- The only method of a store is found. -/
theorem loadMethod_found : FoundByQualifiedName loadMethod "src/lib.rs::Config::load" := by
  obtain ⟨n, hn, hq⟩ : ∃ n ∈ loadMethod.nodes.rows, n.qualifiedName = "src/lib.rs::Config::load" := by
    decide +kernel
  have hunnamed : ∀ m ∈ loadMethod.nodes.rows, m.name ≠ n.qualifiedName := by
    rw [hq]
    decide +kernel
  have hsplit : splitQualified n.qualifiedName.toList = some ("src/lib.rs::Config".toList, "load".toList) := by
    rw [hq]
    decide +kernel
  have hname : ∀ m ∈ loadMethod.nodes.rows, m.name = "load" ∧ m.label = "Method" ∧
      qnameOwnerSegment m.qualifiedName.toList = some (ownerTail "src/lib.rs::Config".toList) := by decide +kernel
  have hone : ∀ m ∈ loadMethod.nodes.rows, ∀ m' ∈ loadMethod.nodes.rows, m = m' := by decide +kernel
  rw [← hq]
  refine (foundByQualifiedName_iff loadMethod hn hunnamed).2 ?_
  rw [LeadsToItself, hsplit]
  refine ⟨n, ⟨⟨hn, (hname n hn).1, ?_⟩, by rw [(hname n hn).2.1]; decide, (hname n hn).2.2⟩, rfl, fun m hm => ?_⟩
  · exact lt_of_le_of_lt List.countP_le_length (by decide +kernel)
  · rw [hone n hn m hm.fetched.mem]

/-- The only variable of a store is not. -/
theorem limitVariable_not_found : ¬ ∀ n ∈ limitVariable.nodes.rows,
    (∀ m ∈ limitVariable.nodes.rows, m.name ≠ n.qualifiedName) → FoundByQualifiedName limitVariable n.qualifiedName := by
  intro h
  obtain ⟨n, hn, hq⟩ : ∃ n ∈ limitVariable.nodes.rows, n.qualifiedName = "src/lib.rs::Variable::LIMIT" := by
    decide +kernel
  have hfound := h n hn (by rw [hq]; decide +kernel)
  rw [hq] at hfound
  refine not_found_of_secondary (by decide +kernel) ?_ hfound
  decide +kernel

end Greppy
