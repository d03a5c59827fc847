/-
**What a symbol query stands for.**

A qualified query stands for the primary definitions of its member whose owner is the last segment of its
owner.  A plain query stands for the primary definitions of the name as it is spelled, or else as it is
spelled throughout the store; where the name has no primary definition, for the best of its nodes; and where
nothing is so named, for the node that has the query as its qualified name.  The resolver of sets finds just
these nodes, and the resolver of single nodes the first of them.
-/

import Greppy.SymbolQueries

set_option autoImplicit false

namespace Greppy

/-! ### The meaning of a query -/

/-- How the resolvers order nodes: by the rank of the label, then by the id. -/
def Node.rankKey (n : Node) : ℕ ×ₗ ℕ := toLex (labelRank n.label, n.id)

/-- The spelling of a plain query: its own if a node is so named, else the only one but for case. -/
structure Spelled (g : Graph) (s t : String) : Prop where
  occurs : ∃ n ∈ g.nodes.rows, n.name = t
  spelling : t = s ∨ (∀ n ∈ g.nodes.rows, n.name ≠ s) ∧ SqlLike.fold t.toList = SqlLike.fold s.toList ∧
    ∀ n ∈ g.nodes.rows, SqlLike.fold n.name.toList = SqlLike.fold s.toList → n.name = t

/-- A node that a plain query stands for when it is spelled `t`: a primary definition, or the first of the
nodes where there is none. -/
def DenotesName (g : Graph) (t : String) (n : Node) : Prop :=
  n.name = t ∧ (isPrimaryLabel n.label = true ∨
    (∀ m ∈ g.nodes.rows, m.name = t → isPrimaryLabel m.label = false) ∧
      ∀ m ∈ g.nodes.rows, m.name = t → n.rankKey ≤ m.rankKey)

/-- The nodes that a query stands for. -/
def Denotes (g : Graph) (s : String) (n : Node) : Prop :=
  n ∈ g.nodes.rows ∧
    match splitQualified s.toList with
    | some (owner, member) => n.name.toList = member ∧ isPrimaryLabel n.label = true ∧
        qnameOwnerSegment n.qualifiedName.toList = some (ownerTail owner)
    | none => (∃ t, Spelled g s t ∧ DenotesName g t n) ∨ (∀ t, ¬ Spelled g s t) ∧ n.qualifiedName = s

/-- The resolver of sets answers with the ids of the nodes, ascending, and the resolver of single nodes with
the first by rank and id. -/
structure ResolvesTo (g : Graph) (s : String) : Prop where
  ascending : (resolveSymbolNodes g (some s)).Pairwise (· < ·)
  nodes : ∀ id, id ∈ resolveSymbolNodes g (some s) ↔ ∃ n, Denotes g s n ∧ n.id = id
  none_iff : resolveSymbolId g (some s) = none ↔ ∀ n, ¬ Denotes g s n
  least : ∀ id, resolveSymbolId g (some s) = some id →
    ∃ n, Denotes g s n ∧ n.id = id ∧ ∀ m, Denotes g s m → n.rankKey ≤ m.rankKey

/-- The store has one project, and no name has more nodes than a search fetches. -/
structure SingleProject (g : Graph) : Prop where
  project : g.projects.rows.length = 1
  cap : ∀ name : String, (g.nodes.rows.filter fun n => decide (n.name = name)).length ≤ 10000

/-! ### The first row -/

section Best

variable {rows : List SearchGraphRow}

theorem bestRow_eq_none_iff : bestRow rows = none ↔ rows = [] := List.argmin_eq_none

theorem bestRow_spec {r : SearchGraphRow} (h : bestRow rows = some r) :
    r ∈ rows ∧ ∀ r' ∈ rows, rankKey r ≤ rankKey r' :=
  ⟨List.argmin_mem h, fun _ hr' => List.le_of_mem_argmin hr' h⟩

theorem ascending_ids (ids : List ℕ) : ((ids.insertionSort (· ≤ ·)).dedup).Pairwise (· < ·) := by
  have hsorted := (List.sortedLE_insertionSort (l := ids)).pairwise.sublist (List.dedup_sublist _)
  exact hsorted.imp₂ (fun _ _ hle hne => lt_of_le_of_ne hle hne) (List.nodup_dedup _)

theorem mem_ascending_ids {rows : List SearchGraphRow} {id : ℕ} :
    id ∈ ((rows.map SearchGraphRow.id).insertionSort (· ≤ ·)).dedup ↔ ∃ r ∈ rows, r.id = id := by
  rw [List.mem_dedup, List.mem_insertionSort, List.mem_map]

end Best

/-! ### Qualified queries -/

section Qualified

variable {g : Graph} {s : String}

/-- The rows of a qualified query are those of the nodes that it stands for. -/
theorem mem_fitting_iff (h : SingleProject g) {owner member : List Char}
    (hsplit : splitQualified s.toList = some (owner, member)) {r : SearchGraphRow} :
    r ∈ (searchByName g (lookupName s)).filter (fitsOwner owner member) ↔ ∃ n, Denotes g s n ∧ n.searchRow = r := by
  have hlookup : lookupName s = String.ofList member := by
    rw [lookupName, hsplit]
    rfl
  rw [List.mem_filter, mem_searchByName_of_cap (h.cap _), hlookup]
  simp only [Denotes, hsplit]
  constructor
  · rintro ⟨⟨n, hn, -, rfl⟩, hfits⟩
    rw [fitsOwner, Bool.and_eq_true, Bool.and_eq_true, decide_eq_true_eq, decide_eq_true_eq] at hfits
    exact ⟨n, ⟨hn, hfits.1.1, hfits.1.2, hfits.2⟩, rfl⟩
  · rintro ⟨n, ⟨hn, hname, hlabel, howner⟩, rfl⟩
    refine ⟨⟨n, hn, by rw [← hname, String.ofList_toList], rfl⟩, ?_⟩
    rw [fitsOwner, Bool.and_eq_true, Bool.and_eq_true, decide_eq_true_eq, decide_eq_true_eq]
    exact ⟨⟨hname, hlabel⟩, howner⟩

/-- Rows that are those of the nodes of a query, from which both resolvers take their answers. -/
theorem resolvesTo_of_rows {rows : List SearchGraphRow}
    (hrows : ∀ r, r ∈ rows ↔ ∃ n, Denotes g s n ∧ n.searchRow = r)
    (hnodes : resolveSymbolNodes g (some s) = ((rows.map SearchGraphRow.id).insertionSort (· ≤ ·)).dedup)
    (hid : resolveSymbolId g (some s) = (bestRow rows).map SearchGraphRow.id) : ResolvesTo g s where
  ascending := hnodes ▸ ascending_ids _
  nodes id := by
    rw [hnodes, mem_ascending_ids]
    constructor
    · rintro ⟨r, hr, rfl⟩
      obtain ⟨n, hn, rfl⟩ := (hrows r).1 hr
      exact ⟨n, hn, rfl⟩
    · rintro ⟨n, hn, rfl⟩
      exact ⟨n.searchRow, (hrows _).2 ⟨n, hn, rfl⟩, rfl⟩
  none_iff := by
    rw [hid, Option.map_eq_none_iff, bestRow_eq_none_iff, List.eq_nil_iff_forall_not_mem]
    constructor
    · intro hnone n hn
      exact hnone _ ((hrows _).2 ⟨n, hn, rfl⟩)
    · intro hnone r hr
      obtain ⟨n, hn, -⟩ := (hrows r).1 hr
      exact hnone n hn
  least id hsome := by
    rw [hid, Option.map_eq_some_iff] at hsome
    obtain ⟨r, hbest, rfl⟩ := hsome
    obtain ⟨hr, hleast⟩ := bestRow_spec hbest
    obtain ⟨n, hn, rfl⟩ := (hrows r).1 hr
    exact ⟨n, hn, rfl, fun m hm => hleast _ ((hrows _).2 ⟨m, hm, rfl⟩)⟩

theorem resolvesTo_qualified (h : SingleProject g) {owner member : List Char}
    (hsplit : splitQualified s.toList = some (owner, member)) : ResolvesTo g s :=
  resolvesTo_of_rows (fun _ => mem_fitting_iff h hsplit) (resolveSymbolNodes_qualified hsplit)
    (resolveSymbolId_qualified hsplit)

end Qualified

/-! ### Plain queries -/

section Plain

variable {g : Graph} {s t : String}

theorem SingleProject.exists_project (h : SingleProject g) :
    ∃ project, (listProjects g).head? = some project ∧ ∀ n ∈ g.nodes.rows, n.project = project := by
  obtain ⟨p, hp⟩ := List.length_eq_one_iff.1 h.project
  refine ⟨p.name, by rw [listProjects, hp]; rfl, fun n hn => ?_⟩
  obtain ⟨p', hp'⟩ := Option.isSome_iff_exists.1 (g.nodes_fk n hn)
  have hmem := KeyedTable.mem_of_find? hp'
  rw [hp, List.mem_singleton] at hmem
  rw [← KeyedTable.key_of_find? hp', hmem]

theorem Spelled.unique {t' : String} (h : Spelled g s t) (h' : Spelled g s t') : t = t' := by
  obtain ⟨n, hn, hname⟩ := h.occurs
  obtain ⟨n', hn', hname'⟩ := h'.occurs
  rcases h.spelling with rfl | ⟨hunnamed, hsame, honly⟩
  · rcases h'.spelling with rfl | ⟨hunnamed', -, -⟩
    · rfl
    · exact absurd hname (hunnamed' n hn)
  · rcases h'.spelling with rfl | ⟨-, hsame', -⟩
    · exact absurd hname' (hunnamed n' hn')
    · rw [← hname', honly n' hn' (by rw [hname', hsame'])]

theorem lookupName_of_plain (hsplit : splitQualified s.toList = none) : lookupName s = s := by
  rw [lookupName, hsplit]
  rfl

theorem candidates_of_spelled (h : SingleProject g) (hsplit : splitQualified s.toList = none)
    (ht : Spelled g s t) : symbolCandidateRows g (some s) = searchByName g t := by
  have hlookup := lookupName_of_plain hsplit
  rcases ht.spelling with rfl | ⟨hunnamed, hsame, honly⟩
  · rw [symbolCandidateRows_of_named (hlookup.symm ▸ ht.occurs), hlookup]
  · obtain ⟨project, hproject, hall⟩ := h.exists_project
    obtain ⟨n, hn, hname⟩ := ht.occurs
    refine symbolCandidateRows_of_spelling (hlookup.symm ▸ hunnamed) hproject ?_
    rw [hlookup]
    exact ⟨⟨n, hn, hall n hn, hname⟩, hsame, fun n hn _ => honly n hn⟩

/-- A plain query that is spelled nowhere, or in several ways, fetches nothing. -/
theorem candidates_of_unspelled (h : SingleProject g) (hsplit : splitQualified s.toList = none)
    (ht : ∀ t, ¬ Spelled g s t) : symbolCandidateRows g (some s) = [] := by
  have hlookup := lookupName_of_plain hsplit
  obtain ⟨project, hproject, hall⟩ := h.exists_project
  have hunnamed : ∀ n ∈ g.nodes.rows, n.name ≠ s := fun n hn hname => ht s ⟨⟨n, hn, hname⟩, .inl rfl⟩
  refine symbolCandidateRows_of_ambiguous (hlookup.symm ▸ hunnamed) hproject fun t honly => ?_
  rw [hlookup] at honly
  obtain ⟨n, hn, -, hname⟩ := honly.occurs
  exact ht t ⟨⟨n, hn, hname⟩, .inr ⟨hunnamed, honly.same, fun n hn => honly.only n hn (hall n hn)⟩⟩

theorem resolveSymbolId_of_spelled (h : SingleProject g) (hsplit : splitQualified s.toList = none)
    (ht : Spelled g s t) : ∃ n ∈ g.nodes.rows, n.name = t ∧ resolveSymbolId g (some s) = some n.id ∧
      ∀ m ∈ g.nodes.rows, m.name = t → n.rankKey ≤ m.rankKey := by
  have hrows := candidates_of_spelled h hsplit ht
  obtain ⟨n, hn, hname⟩ := ht.occurs
  have hmem := fun r => mem_searchByName_of_cap (h.cap t) (r := r)
  cases hbest : bestRow (searchByName g t) with
  | none =>
    have hnil := bestRow_eq_none_iff.1 hbest
    have hrow := (hmem n.searchRow).2 ⟨n, hn, hname, rfl⟩
    rw [hnil] at hrow
    cases hrow
  | some best =>
    obtain ⟨hin, hleast⟩ := bestRow_spec hbest
    obtain ⟨m, hm, hmname, rfl⟩ := (hmem best).1 hin
    refine ⟨m, hm, hmname, ?_, fun m' hm' hmname' => hleast _ ((hmem _).2 ⟨m', hm', hmname', rfl⟩)⟩
    have hfilter := filter_sameSpelling_candidates (g := g) hsplit
    simp only [resolveSymbolId, hsplit, Option.isSome_none, Bool.false_eq_true, if_false, hfilter]
    rw [hrows, hbest]
    rfl

theorem denotes_iff_of_spelled (hsplit : splitQualified s.toList = none) (ht : Spelled g s t) {n : Node} :
    Denotes g s n ↔ n ∈ g.nodes.rows ∧ DenotesName g t n := by
  simp only [Denotes, hsplit]
  refine and_congr_right fun _ => ⟨?_, fun hn => .inl ⟨t, ht, hn⟩⟩
  rintro (⟨t', ht', hn⟩ | ⟨hnone, -⟩)
  · rwa [ht.unique ht']
  · exact absurd ht (hnone t)

theorem isPrimaryLabel_of_rankKey_le {n m : Node} (h : n.rankKey ≤ m.rankKey) (hm : isPrimaryLabel m.label = true) :
    isPrimaryLabel n.label = true := by
  rw [isPrimaryLabel, decide_eq_true_eq] at hm ⊢
  rcases Prod.Lex.toLex_le_toLex.1 h with hlt | ⟨heq, -⟩
  · exact hlt.le.trans hm
  · exact heq.le.trans hm

theorem eq_of_rankKey_eq {n m : Node} (hn : n ∈ g.nodes.rows) (hm : m ∈ g.nodes.rows) (h : n.rankKey = m.rankKey) :
    n = m :=
  g.node_eq_of_id_eq hn hm (congrArg (fun k => (ofLex k).2) h)

theorem resolvesTo_of_least {n : Node} (hascending : (resolveSymbolNodes g (some s)).Pairwise (· < ·))
    (hnodes : ∀ id, id ∈ resolveSymbolNodes g (some s) ↔ ∃ n, Denotes g s n ∧ n.id = id) (hn : Denotes g s n)
    (hid : resolveSymbolId g (some s) = some n.id) (hleast : ∀ m, Denotes g s m → n.rankKey ≤ m.rankKey) :
    ResolvesTo g s where
  ascending := hascending
  nodes := hnodes
  none_iff := by
    rw [hid]
    exact iff_of_false (fun h => nomatch h) fun hnone => hnone n hn
  least id hsome := by
    rw [hid, Option.some_inj] at hsome
    exact ⟨n, hn, hsome, hleast⟩

/-- The rows of primary definitions that the resolver of sets takes from those of a spelling. -/
theorem resolveSymbolNodes_of_spelled (h : SingleProject g) (hsplit : splitQualified s.toList = none)
    (ht : Spelled g s t) : resolveSymbolNodes g (some s) =
      let ids := ((((searchByName g t).filter fun r => isPrimaryLabel r.label).map
        SearchGraphRow.id).insertionSort (· ≤ ·)).dedup
      if ids = [] then (resolveSymbolId g (some s)).toList else ids := by
  have hrows := candidates_of_spelled h hsplit ht
  have hfilter : (symbolCandidateRows g (some s)).filter
      (fun r => eqIgnoreAsciiCase r.name s && isPrimaryLabel r.label) =
      (searchByName g t).filter fun r => isPrimaryLabel r.label := by
    rw [← hrows]
    conv_rhs => rw [← filter_sameSpelling_candidates hsplit]
    rw [List.filter_filter]
    exact List.filter_congr fun r _ => Bool.and_comm _ _
  simp only [resolveSymbolNodes, resolveQualifiedIds, hsplit, Option.map_none, hfilter]

theorem resolvesTo_spelled (h : SingleProject g) (hsplit : splitQualified s.toList = none) (ht : Spelled g s t) :
    ResolvesTo g s := by
  obtain ⟨n, hn, hname, hid, hleast⟩ := resolveSymbolId_of_spelled h hsplit ht
  have hdenotes (m : Node) := denotes_iff_of_spelled hsplit ht (n := m)
  have hmem := fun r => mem_searchByName_of_cap (h.cap t) (r := r)
  have hprimary (id : ℕ) : id ∈ ((((searchByName g t).filter fun r => isPrimaryLabel r.label).map
      SearchGraphRow.id).insertionSort (· ≤ ·)).dedup ↔
      ∃ m ∈ g.nodes.rows, m.name = t ∧ isPrimaryLabel m.label = true ∧ m.id = id := by
    rw [mem_ascending_ids]
    constructor
    · rintro ⟨r, hr, rfl⟩
      obtain ⟨hr, hlabel⟩ := List.mem_filter.1 hr
      obtain ⟨m, hm, hmname, rfl⟩ := (hmem r).1 hr
      exact ⟨m, hm, hmname, hlabel, rfl⟩
    · rintro ⟨m, hm, hmname, hlabel, rfl⟩
      exact ⟨m.searchRow, List.mem_filter.2 ⟨(hmem _).2 ⟨m, hm, hmname, rfl⟩, hlabel⟩, rfl⟩
  have hfirst : Denotes g s n := by
    refine (hdenotes n).2 ⟨hn, hname, ?_⟩
    by_cases hlabel : isPrimaryLabel n.label = true
    · exact .inl hlabel
    · refine .inr ⟨fun m hm hmname => ?_, hleast⟩
      rw [← Bool.not_eq_true]
      exact fun hm' => hlabel (isPrimaryLabel_of_rankKey_le (hleast m hm hmname) hm')
  have hleast' (m : Node) (hm : Denotes g s m) : n.rankKey ≤ m.rankKey :=
    hleast m hm.1 ((hdenotes m).1 hm).2.1
  have hset := resolveSymbolNodes_of_spelled h hsplit ht
  rw [hid] at hset
  refine resolvesTo_of_least ?_ ?_ hfirst hid hleast'
  · rw [hset]
    dsimp only
    split
    · exact List.pairwise_singleton _ _
    · exact ascending_ids _
  · intro id
    rw [hset]
    dsimp only
    split
    · rename_i hnil
      -- no primary definition: the first node alone
      have hnone (m : Node) (hm : m ∈ g.nodes.rows) (hmname : m.name = t) : isPrimaryLabel m.label = false := by
        rw [← Bool.not_eq_true]
        intro hlabel
        have hin := (hprimary m.id).2 ⟨m, hm, hmname, hlabel, rfl⟩
        rw [hnil] at hin
        cases hin
      rw [Option.toList_some, List.mem_singleton]
      constructor
      · rintro rfl
        exact ⟨n, hfirst, rfl⟩
      · rintro ⟨m, hm, rfl⟩
        obtain ⟨hm', hmname, hlabel | ⟨-, hmleast⟩⟩ := (hdenotes m).1 hm
        · rw [hnone m hm' hmname] at hlabel
          cases hlabel
        · rw [eq_of_rankKey_eq hm' hn (le_antisymm (hmleast n hn hname) (hleast m hm' hmname))]
    · rename_i hne
      obtain ⟨id₀, hid₀⟩ := List.exists_mem_of_ne_nil _ hne
      obtain ⟨m₀, hm₀, hmname₀, hlabel₀, -⟩ := (hprimary id₀).1 hid₀
      rw [hprimary]
      constructor
      · rintro ⟨m, hm, hmname, hlabel, rfl⟩
        exact ⟨m, (hdenotes m).2 ⟨hm, hmname, .inl hlabel⟩, rfl⟩
      · rintro ⟨m, hm, rfl⟩
        obtain ⟨hm', hmname, hlabel | ⟨hnone, -⟩⟩ := (hdenotes m).1 hm
        · exact ⟨m, hm', hmname, hlabel, rfl⟩
        · rw [hnone m₀ hm₀ hmname₀] at hlabel₀
          cases hlabel₀

/-- A query that is spelled nowhere stands for the node of its qualified name. -/
theorem resolvesTo_unspelled (h : SingleProject g) (hsplit : splitQualified s.toList = none)
    (ht : ∀ t, ¬ Spelled g s t) : ResolvesTo g s := by
  have hrows := candidates_of_unspelled h hsplit ht
  have hdenotes (n : Node) : Denotes g s n ↔ n ∈ g.nodes.rows ∧ n.qualifiedName = s := by
    simp only [Denotes, hsplit]
    refine and_congr_right fun _ => ⟨?_, fun hn => .inr ⟨ht, hn⟩⟩
    rintro (⟨t, ht', -⟩ | ⟨-, hn⟩)
    · exact absurd ht' (ht t)
    · exact hn
  have hid : resolveSymbolId g (some s) = (searchByQualifiedName g s).head?.map SearchGraphRow.id := by
    simp only [resolveSymbolId, hsplit, Option.isSome_none, Bool.false_eq_true, if_false, hrows]
    rfl
  have hset : resolveSymbolNodes g (some s) = (resolveSymbolId g (some s)).toList := by
    simp only [resolveSymbolNodes, resolveQualifiedIds, hsplit, Option.map_none, hrows]
    rfl
  cases hhead : (searchByQualifiedName g s).head? with
  | none =>
    rw [hhead, Option.map_none] at hid
    rw [hid, Option.toList_none] at hset
    have hnone (n : Node) : ¬ Denotes g s n := fun hn => by
      obtain ⟨hn, hname⟩ := (hdenotes n).1 hn
      exact searchByQualifiedName_eq_nil_iff.1 (List.head?_eq_none_iff.1 hhead) n hn hname
    refine ⟨hset ▸ List.Pairwise.nil, fun id => ?_, iff_of_true hid hnone, fun id hsome => ?_⟩
    · rw [hset]
      exact iff_of_false List.not_mem_nil fun hex => hex.elim fun n hn => hnone n hn.1
    · rw [hid] at hsome
      cases hsome
  | some r =>
    obtain ⟨n, hn, hname, rfl⟩ := head?_searchByQualifiedName hhead
    rw [hhead] at hid
    obtain ⟨project, -, hall⟩ := h.exists_project
    have hunique (m : Node) (hm : Denotes g s m) : m = n := by
      obtain ⟨hm, hmname⟩ := (hdenotes m).1 hm
      refine g.nodes.eq_of_key_eq hm hn (Prod.ext ?_ (hmname.trans hname.symm))
      exact (hall m hm).trans (hall n hn).symm
    have hfirst : Denotes g s n := (hdenotes n).2 ⟨hn, hname⟩
    have hnodes : resolveSymbolNodes g (some s) = [n.id] := hset.trans (congrArg Option.toList hid)
    refine resolvesTo_of_least (hnodes ▸ List.pairwise_singleton _ _) (fun id => ?_) hfirst hid
      fun m hm => (congrArg Node.rankKey (hunique m hm)).ge
    rw [hnodes, List.mem_singleton]
    constructor
    · rintro rfl
      exact ⟨n, hfirst, rfl⟩
    · rintro ⟨m, hm, rfl⟩
      rw [hunique m hm]

end Plain

/-- **Both resolvers answer for the nodes that the query stands for.** -/
theorem resolvesTo_of_singleProject (g : Graph) (h : SingleProject g) (s : String) : ResolvesTo g s := by
  cases hsplit : splitQualified s.toList with
  | some q => exact resolvesTo_qualified h hsplit
  | none =>
    by_cases hspelled : ∃ t, Spelled g s t
    · obtain ⟨t, ht⟩ := hspelled
      exact resolvesTo_spelled h hsplit ht
    · exact resolvesTo_unspelled h hsplit (not_exists.1 hspelled)

theorem resolvesTo_parse : SingleProject (functionGraph ["parse", "parser"] []) ∧
    ResolvesTo (functionGraph ["parse", "parser"] []) "Parse" :=
  have h : SingleProject (functionGraph ["parse", "parser"] []) :=
    ⟨by decide +kernel, fun _ => List.length_filter_le .. |>.trans (by decide +kernel)⟩
  ⟨h, resolvesTo_of_singleProject _ h "Parse"⟩

end Greppy
