/-
**The semantic search around several anchors.**

`semantic_query_multi_anchor` resolves each of a list of names to a node, and ranks the nodes for a query as
`semantic_query` does, except that a node has a bonus for every anchor that there is an edge to.  The bonus
of one anchor is added where a node is scored, the others when all nodes are.

The neighbours of the anchors are counted in a table, anchor by anchor; an anchor that comes up again is
passed over.  In the end the anchors themselves are taken out of the table.  What is left depends on which
nodes are anchors and on nothing else.
-/

import Greppy.RelatedSymbols
import Mathlib.Tactic.Ring

set_option autoImplicit false

namespace Greppy

/-! ### The search -/

def multiAnchorPerHop : ℚ := edgeProximityBonus

def resolveName (u : Unicode) (rows : List SearchGraphRow) (name : String) : Option ℕ :=
  let anchorTokens := tokenize u name.toList
  if anchorTokens = ∅ then none else resolveAnchor u rows anchorTokens

/-- The anchors so far, and the table `per_node_anchor_count`: a node is in it as often as it is counted. -/
structure AnchorTally where
  resolved : Finset ℕ
  counted : Multiset ℕ

/-- One round of the loop over the names. -/
def AnchorTally.add (u : Unicode) (g : Graph) (rows : List SearchGraphRow) (t : AnchorTally)
    (name : String) : AnchorTally :=
  match resolveName u rows name with
  | none => t
  | some anchorId =>
    if anchorId ∈ t.resolved then t
    else
      { resolved := insert anchorId t.resolved
        counted := t.counted + (proximityNeighbors g anchorId).val }

/-- The anchors are taken out of the table. -/
def AnchorTally.withoutAnchors (t : AnchorTally) : Multiset ℕ := t.counted.filter (· ∉ t.resolved)

/-- The bonus of the second anchor and of those after it is added. -/
def SemanticHit.topUp (counted : Multiset ℕ) (hit : SemanticHit) : SemanticHit :=
  let k := counted.count hit.node.id
  if 1 < k then
    let extra := ((k - 1 : ℕ) : ℚ) * multiAnchorPerHop
    { hit with
      score := hit.score + extra
      breakdown := { hit.breakdown with edgeProximity := hit.breakdown.edgeProximity + extra } }
  else hit

section Search

variable (u : Unicode) (arith : Arithmetic) (g : Graph)

/-- What is done with the table when all names are resolved. -/
def rankTally (query : List Char) (nearFile : Option String) (rows : List SearchGraphRow)
    (counted : Multiset ℕ) (limit : ℕ) : List SemanticHit :=
  let idf := TokenIdf.fromRows u rows
  let hits := rows.filterMap (scoreOne u arith (querySignals u query nearFile) counted.toFinset idf)
  ((hits.map (SemanticHit.topUp counted)).insertionSort SemanticHit.le).take limit

def semanticQueryMultiAnchor (query : List Char) (anchorNames : List String)
    (nearFile project : Option String) (limit : ℕ) : List SemanticHit :=
  if tokenize u query = ∅ then []
  else
    let rows := searchGraph g project 10000
    let tally := anchorNames.foldl (AnchorTally.add u g rows) ⟨∅, 0⟩
    rankTally u arith query nearFile rows tally.withoutAnchors limit

end Search

/-! ### The anchors -/

section Anchors

variable {u : Unicode} {g : Graph} {rows : List SearchGraphRow}

def anchorsOf (u : Unicode) (rows : List SearchGraphRow) (names : List String) : Finset ℕ :=
  (names.filterMap (resolveName u rows)).toFinset

/-- The neighbours of some anchors, each as often as there is an anchor that it is a neighbour of. -/
def tallyOf (g : Graph) (anchors : Finset ℕ) : Multiset ℕ :=
  ∑ a ∈ anchors, (proximityNeighbors g a).val

variable {names : List String} {nearFile : Option String} {limit : ℕ}

variable {a : ℕ} {anchorNames : List String} {project : Option String} {query : List Char}
  {hit : SemanticHit}

theorem mem_anchorsOf :
    a ∈ anchorsOf u rows names ↔ ∃ name ∈ names, resolveName u rows name = some a := by
  rw [anchorsOf, List.mem_toFinset, List.mem_filterMap]

theorem foldl_add_eq (anchors : Finset ℕ) (names : List String) :
    names.foldl (AnchorTally.add u g rows) ⟨anchors, tallyOf g anchors⟩ =
      ⟨anchors ∪ anchorsOf u rows names, tallyOf g (anchors ∪ anchorsOf u rows names)⟩ := by
  induction names generalizing anchors with
  | nil => simp [anchorsOf]
  | cons name names ih =>
    rw [List.foldl_cons, AnchorTally.add]
    cases hname : resolveName u rows name with
    | none =>
      have hsame : anchorsOf u rows (name :: names) = anchorsOf u rows names := by
        rw [anchorsOf, List.filterMap_cons_none hname, anchorsOf]
      rw [ih, hsame]
    | some a =>
      have hmore : anchorsOf u rows (name :: names) = insert a (anchorsOf u rows names) := by
        rw [anchorsOf, List.filterMap_cons_some hname, List.toFinset_cons, anchorsOf]
      simp only
      split
      · rename_i hold
        rw [ih, hmore, Finset.union_insert,
          Finset.insert_eq_of_mem (Finset.mem_union_left _ hold)]
      · rename_i hnew
        have htally : tallyOf g anchors + (proximityNeighbors g a).val =
            tallyOf g (insert a anchors) := by
          rw [tallyOf, tallyOf, Finset.sum_insert hnew, add_comm]
        rw [htally, ih, hmore, Finset.union_insert, Finset.insert_union]

/-- **The loop finds the anchors, and counts their neighbours.** -/
theorem tally_eq (names : List String) : names.foldl (AnchorTally.add u g rows) ⟨∅, 0⟩ =
    ⟨anchorsOf u rows names, tallyOf g (anchorsOf u rows names)⟩ := by
  have hempty : (⟨∅, 0⟩ : AnchorTally) = ⟨∅, tallyOf g ∅⟩ := by
    rw [tallyOf, Finset.sum_empty]
  rw [hempty, foldl_add_eq, Finset.empty_union]

theorem count_tallyOf (anchors : Finset ℕ) (id : ℕ) :
    (tallyOf g anchors).count id = (anchors.filter fun a => id ∈ proximityNeighbors g a).card := by
  rw [tallyOf, Multiset.count_sum', Finset.card_filter]
  refine Finset.sum_congr rfl fun a _ => ?_
  split
  · rename_i hmem
    exact Multiset.count_eq_one_of_mem (proximityNeighbors g a).nodup hmem
  · rename_i hmem
    exact Multiset.count_eq_zero_of_notMem hmem

/-- **The search depends on the names through their anchors.** -/
theorem semanticQueryMultiAnchor_eq (arith : Arithmetic) (query : List Char) (anchorNames : List String)
    (nearFile project : Option String) (limit : ℕ) :
    semanticQueryMultiAnchor u arith g query anchorNames nearFile project limit =
      if tokenize u query = ∅ then []
      else
        let rows := searchGraph g project 10000
        let anchors := anchorsOf u rows anchorNames
        rankTally u arith query nearFile rows ((tallyOf g anchors).filter (· ∉ anchors)) limit := by
  simp only [semanticQueryMultiAnchor, tally_eq, AnchorTally.withoutAnchors]

theorem semanticQueryMultiAnchor_congr (arith : Arithmetic) (query : List Char)
    {anchorNames' : List String}
    (h : anchorsOf u (searchGraph g project 10000) anchorNames' =
      anchorsOf u (searchGraph g project 10000) anchorNames) :
    semanticQueryMultiAnchor u arith g query anchorNames' nearFile project limit =
      semanticQueryMultiAnchor u arith g query anchorNames nearFile project limit := by
  simp only [semanticQueryMultiAnchor_eq, h]

/-- The order of the names, and names that add no anchor, do not count. -/
theorem anchorsOf_perm {names' : List String} (h : names'.Perm names) :
    anchorsOf u rows names' = anchorsOf u rows names := by
  ext a
  rw [mem_anchorsOf, mem_anchorsOf]
  simp only [h.mem_iff]

theorem anchorsOf_cons_of_known {name : String}
    (h : ∀ a ∈ resolveName u rows name, a ∈ anchorsOf u rows names) :
    anchorsOf u rows (name :: names) = anchorsOf u rows names := by
  cases hname : resolveName u rows name with
  | none => rw [anchorsOf, List.filterMap_cons_none hname, anchorsOf]
  | some a =>
    have hold := h a (by rw [hname]; rfl)
    rw [anchorsOf, List.filterMap_cons_some hname, List.toFinset_cons]
    exact Finset.insert_eq_of_mem hold

/-! ### The bonus -/

theorem edgeProximity_topUp (log : Logarithm) (q : QuerySignals) (idf : TokenIdf) (counted : Multiset ℕ)
    (row : SearchGraphRow) :
    ((hitOf u (exactArithmetic log) q counted.toFinset idf row).topUp counted).breakdown.edgeProximity =
      multiAnchorPerHop * counted.count row.id := by
  have hbase : (hitOf u (exactArithmetic log) q counted.toFinset idf row).breakdown.edgeProximity =
      if row.id ∈ counted then edgeProximityBonus else 0 := by
    simp [hitOf, exactArithmetic, exactBreakdown, scoreInput]
  have hnode : (hitOf u (exactArithmetic log) q counted.toFinset idf row).node = row := rfl
  simp only [SemanticHit.topUp, hnode]
  split
  · rename_i hmany
    have hmem : row.id ∈ counted := Multiset.count_pos.1 (by omega)
    have hcast : ((counted.count row.id - 1 : ℕ) : ℚ) = counted.count row.id - 1 := by
      rw [Nat.cast_sub (by omega), Nat.cast_one]
    rw [hbase, if_pos hmem, hcast, multiAnchorPerHop]
    ring
  · rename_i hfew
    rw [hbase]
    split
    · rename_i hmem
      have hone : counted.count row.id = 1 := by
        have := Multiset.count_pos.2 hmem
        omega
      rw [hone, Nat.cast_one, mul_one, multiAnchorPerHop]
    · rename_i hmem
      rw [Multiset.count_eq_zero_of_notMem hmem, Nat.cast_zero, mul_zero]

theorem exists_hitOf_of_mem_rankTally {arith : Arithmetic} {counted : Multiset ℕ}
    (h : hit ∈ rankTally u arith query nearFile rows counted limit) :
    ∃ row ∈ rows, hit = (hitOf u arith (querySignals u query nearFile) counted.toFinset
      (TokenIdf.fromRows u rows) row).topUp counted := by
  have hmem := List.mem_of_mem_take h
  rw [(List.perm_insertionSort SemanticHit.le _).mem_iff] at hmem
  obtain ⟨base, hbase, rfl⟩ := List.mem_map.1 hmem
  obtain ⟨row, hrow, hscore⟩ := List.mem_filterMap.1 hbase
  exact ⟨row, hrow, by rw [eq_hitOf_of_scoreOne hscore]⟩

theorem node_topUp (counted : Multiset ℕ) (hit : SemanticHit) : (hit.topUp counted).node = hit.node := by
  simp only [SemanticHit.topUp]
  split <;> rfl

/-- An anchor has no bonus, and another node one for each anchor that it is a neighbour of. -/
theorem edgeProximity_of_mem (log : Logarithm)
    (h : hit ∈ semanticQueryMultiAnchor u (exactArithmetic log) g query anchorNames nearFile project
      limit) :
    hit.breakdown.edgeProximity =
      if hit.node.id ∈ anchorsOf u (searchGraph g project 10000) anchorNames then 0
      else multiAnchorPerHop * ((anchorsOf u (searchGraph g project 10000) anchorNames).filter
        fun a => hit.node.id ∈ proximityNeighbors g a).card := by
  rw [semanticQueryMultiAnchor_eq] at h
  split at h
  · cases h
  · obtain ⟨row, -, rfl⟩ := exists_hitOf_of_mem_rankTally h
    rw [edgeProximity_topUp, node_topUp, Multiset.count_filter, count_tallyOf]
    by_cases hanchor : row.id ∈ anchorsOf u (searchGraph g project 10000) anchorNames
    · rw [if_neg (not_not.2 hanchor), Nat.cast_zero, mul_zero]
      exact (if_pos hanchor).symm
    · rw [if_pos hanchor]
      exact (if_neg hanchor).symm

/-! ### Neighbours -/

/-- There is an edge between two nodes, of a type that counts. -/
def Adjacent (g : Graph) (a n : ℕ) : Prop :=
  n ≠ a ∧ ∃ e ∈ g.edges.rows, e.edgeType ∈ proximityEdgeTypes ∧
    (e.sourceId = a ∧ e.targetId = n ∨ e.sourceId = n ∧ e.targetId = a)

/-- A node has no more edges of any type that counts, in either direction, than are fetched. -/
def FanoutFits (g : Graph) (a : ℕ) : Prop :=
  ∀ ty ∈ proximityEdgeTypes,
    g.edges.rows.countP (fun e => decide (e.sourceId = a ∧ e.edgeType = ty)) ≤ proximityFanout ∧
    g.edges.rows.countP (fun e => decide (e.targetId = a ∧ e.edgeType = ty)) ≤ proximityFanout

theorem mem_proximityNeighbors_iff (hfits : FanoutFits g a) (n : ℕ) :
    n ∈ proximityNeighbors g a ↔ Adjacent g a n := by
  have hfetch : ∀ p : Edge → Bool, g.edges.rows.countP p ≤ proximityFanout →
      Graph.sqlLimit proximityFanout (g.edges.rows.filter p) = g.edges.rows.filter p := by
    intro p hp
    rw [Graph.sqlLimit, if_pos (by decide)]
    refine List.take_of_length_le ?_
    rwa [← List.countP_eq_length_filter]
  rw [proximityNeighbors, List.mem_toFinset, List.mem_flatMap, Adjacent]
  constructor
  · rintro ⟨ty, hty, hn⟩
    rw [List.mem_filter, decide_eq_true_eq, List.mem_append, List.mem_map, List.mem_map,
      Graph.outgoingEdges, Graph.incomingEdges, hfetch _ (hfits ty hty).1, hfetch _ (hfits ty hty).2] at hn
    refine ⟨hn.2, ?_⟩
    rcases hn.1 with ⟨e, he, htarget⟩ | ⟨e, he, hsource⟩
    · obtain ⟨hmem, hedge⟩ := List.mem_filter.1 he
      obtain ⟨hsource, htype⟩ := of_decide_eq_true hedge
      exact ⟨e, hmem, htype ▸ hty, Or.inl ⟨hsource, htarget⟩⟩
    · obtain ⟨hmem, hedge⟩ := List.mem_filter.1 he
      obtain ⟨htarget, htype⟩ := of_decide_eq_true hedge
      exact ⟨e, hmem, htype ▸ hty, Or.inr ⟨hsource, htarget⟩⟩
  · rintro ⟨hne, e, hmem, hty, hends⟩
    refine ⟨e.edgeType, hty, ?_⟩
    rw [List.mem_filter, decide_eq_true_eq, List.mem_append, List.mem_map, List.mem_map,
      Graph.outgoingEdges, Graph.incomingEdges, hfetch _ (hfits _ hty).1, hfetch _ (hfits _ hty).2]
    refine ⟨?_, hne⟩
    rcases hends with ⟨hsource, htarget⟩ | ⟨hsource, htarget⟩
    · exact Or.inl ⟨e, List.mem_filter.2 ⟨hmem, decide_eq_true ⟨hsource, rfl⟩⟩, htarget⟩
    · exact Or.inr ⟨e, List.mem_filter.2 ⟨hmem, decide_eq_true ⟨htarget, rfl⟩⟩, hsource⟩

/-- **The names count through their anchors, and the anchors through their neighbours.**  The order of the
names does not count, nor do names that add no anchor.  In the result an anchor has no bonus, and another
node one for each anchor that it is a neighbour of; the neighbours of a node are the nodes with an edge to
or from it, unless it has more edges of a type and a direction than are fetched. -/
theorem semanticQueryMultiAnchor_spec (u : Unicode) (g : Graph) (query : List Char)
    (anchorNames : List String) (nearFile project : Option String) (limit : ℕ) :
    let rows := searchGraph g project 10000
    let search := fun arith names => semanticQueryMultiAnchor u arith g query names nearFile project limit
    (∀ arith names, anchorsOf u rows names = anchorsOf u rows anchorNames →
      search arith names = search arith anchorNames) ∧
    (∀ names, names.Perm anchorNames → anchorsOf u rows names = anchorsOf u rows anchorNames) ∧
    (∀ name, (∀ a ∈ resolveName u rows name, a ∈ anchorsOf u rows anchorNames) →
      anchorsOf u rows (name :: anchorNames) = anchorsOf u rows anchorNames) ∧
    (∀ log, ∀ hit ∈ search (exactArithmetic log) anchorNames, hit.breakdown.edgeProximity =
      if hit.node.id ∈ anchorsOf u rows anchorNames then 0
      else multiAnchorPerHop * ((anchorsOf u rows anchorNames).filter
        fun a => hit.node.id ∈ proximityNeighbors g a).card) ∧
    (∀ a, FanoutFits g a → ∀ n, n ∈ proximityNeighbors g a ↔ Adjacent g a n) :=
  ⟨fun arith _ h => semanticQueryMultiAnchor_congr arith query h, fun _ h => anchorsOf_perm h,
    fun _ h => anchorsOf_cons_of_known h, fun log _ h => edgeProximity_of_mem log h,
    fun _ h n => mem_proximityNeighbors_iff h n⟩

end Anchors

/-! ### A node with many edges -/

/-- The nodes of a graph in which the first calls all the others. -/
def hubNode (i : ℕ) : Node where
  id := i + 1
  project := "p"
  label := "Function"
  name := if i = 0 then "hub" else "leaf"
  qualifiedName := String.ofList (List.replicate i '.')
  filePath := "src/lib.rs"
  startLine := 1
  endLine := 1
  properties := .null

def hubEdge (i : ℕ) : Edge := ⟨"p", 1, i + 2, "CALLS", .null⟩

theorem nodup_key_hubNode (n : ℕ) : (((List.range n).map hubNode).map Node.key).Nodup := by
  rw [List.map_map]
  refine List.nodup_range.map fun i j h => ?_
  have hname := congrArg (fun k : String × String => k.2.toList.length) h
  simpa [Node.key, hubNode] using hname

theorem nodup_key_hubEdge (n : ℕ) : (((List.range n).map hubEdge).map Edge.key).Nodup := by
  rw [List.map_map]
  refine List.nodup_range.map fun i j h => ?_
  have htarget := congrArg (fun k : ℕ × ℕ × String => k.2.1) h
  simpa [Edge.key, hubEdge] using htarget

theorem nodup_id_hubNode (n : ℕ) : (((List.range n).map hubNode).map Node.id).Nodup := by
  rw [List.map_map]
  exact List.nodup_range.map fun i j h => Nat.succ.inj h

theorem ids_lt_hubNode (n : ℕ) : ∀ m ∈ (List.range (n + 1)).map hubNode, m.id < n + 2 := by
  intro m hm
  obtain ⟨i, hi, rfl⟩ := List.mem_map.1 hm
  have := List.mem_range.1 hi
  simp only [hubNode]
  omega

def hubProjects : KeyedTable Project Project.name :=
  KeyedTable.empty.upsert ⟨"p", "2026-06-29T00:00:00Z", "/p"⟩

theorem nodes_fk_hubNode (n : ℕ) :
    ∀ m ∈ (List.range n).map hubNode, (hubProjects.find? m.project).isSome := by
  intro m hm
  obtain ⟨i, -, rfl⟩ := List.mem_map.1 hm
  rfl

theorem edges_fk_hubEdge (n : ℕ) : ∀ e ∈ (List.range n).map hubEdge,
    (hubProjects.find? e.project).isSome ∧
      e.sourceId ∈ ((List.range (n + 1)).map hubNode).map Node.id ∧
      e.targetId ∈ ((List.range (n + 1)).map hubNode).map Node.id := by
  intro e he
  obtain ⟨i, hi, rfl⟩ := List.mem_map.1 he
  have hi := List.mem_range.1 hi
  refine ⟨rfl, ?_, ?_⟩
  · exact List.mem_map.2 ⟨hubNode 0, List.mem_map_of_mem (List.mem_range.2 (by omega)), rfl⟩
  · exact List.mem_map.2 ⟨hubNode (i + 1), List.mem_map_of_mem (List.mem_range.2 (by omega)), rfl⟩

/-- The graph of a node and `n` others that it calls. -/
def hubGraph (n : ℕ) : Graph where
  projects := hubProjects
  nodes := ⟨(List.range (n + 1)).map hubNode, nodup_key_hubNode (n + 1)⟩
  nextNodeId := n + 2
  edges := ⟨(List.range n).map hubEdge, nodup_key_hubEdge n⟩
  ids_nodup := nodup_id_hubNode (n + 1)
  ids_lt := ids_lt_hubNode n
  nodes_fk := nodes_fk_hubNode (n + 1)
  edges_fk := edges_fk_hubEdge n

section Hub

variable {n : ℕ}

theorem mem_searchGraph_hubGraph (hn : n < 10000) {r : SearchGraphRow} :
    r ∈ searchGraph (hubGraph n) none 10000 ↔ ∃ i ≤ n, r = (hubNode i).searchRow := by
  have hperm : (orderByQnameId ((List.range (n + 1)).map hubNode)).Perm
      ((List.range (n + 1)).map hubNode) := List.perm_insertionSort _ _
  have hrows : searchGraph (hubGraph n) none 10000 =
      (orderByQnameId ((List.range (n + 1)).map hubNode)).map Node.searchRow := by
    have hall : (hubGraph n).nodes.rows.filter (fun _ => true) =
        (List.range (n + 1)).map hubNode := List.filter_true _
    rw [searchGraph]
    simp only [hall]
    rw [Graph.sqlLimit, if_pos (by decide), List.take_of_length_le]
    rw [hperm.length_eq, List.length_map, List.length_range]
    exact hn
  rw [hrows, (hperm.map _).mem_iff, List.map_map, List.mem_map]
  constructor
  · rintro ⟨i, hi, rfl⟩
    exact ⟨i, Nat.lt_succ_iff.1 (List.mem_range.1 hi), rfl⟩
  · rintro ⟨i, hi, rfl⟩
    exact ⟨i, List.mem_range.2 (Nat.lt_succ_iff.2 hi), rfl⟩

theorem anchorsOf_hubGraph (hn : n < 10000) :
    anchorsOf .ascii (searchGraph (hubGraph n) none 10000) ["hub"] = {1} := by
  have hhub : namedBy .ascii (tokenize .ascii "hub".toList) (hubNode 0).searchRow = true := by
    decide
  have hleaf : ∀ r : SearchGraphRow, r.name = "leaf" →
      ¬ namedBy .ascii (tokenize .ascii "hub".toList) r = true := by
    intro r hr hnamed
    rw [namedBy_iff, SearchGraphRow.nameTokens, hr] at hnamed
    exact absurd hnamed.2 (by decide)
  have honly : ∀ r ∈ searchGraph (hubGraph n) none 10000,
      namedBy .ascii (tokenize .ascii "hub".toList) r = true → r = (hubNode 0).searchRow := by
    intro r hr hnamed
    obtain ⟨i, -, rfl⟩ := (mem_searchGraph_hubGraph hn).1 hr
    by_cases hi : i = 0
    · rw [hi]
    · exact absurd hnamed (hleaf _ (if_neg hi))
  have hfirst : firstRow ((searchGraph (hubGraph n) none 10000).filter
      (namedBy .ascii (tokenize .ascii "hub".toList))) = some (hubNode 0).searchRow := by
    refine (firstRow_eq_some_iff ((List.filter_sublist.map _).nodup
      (nodup_id_searchGraph _ _ _))).2 ⟨List.mem_filter.2
        ⟨(mem_searchGraph_hubGraph hn).2 ⟨0, Nat.zero_le n, rfl⟩, hhub⟩, ?_⟩
    intro s hs
    obtain ⟨hs, hnamed⟩ := List.mem_filter.1 hs
    rw [honly s hs hnamed]
  have hname : resolveName .ascii (searchGraph (hubGraph n) none 10000) "hub" = some 1 := by
    rw [resolveName, if_neg (by decide), resolveAnchor_eq, hfirst]
    rfl
  rw [anchorsOf, List.filterMap_cons_some hname]
  rfl

/-- The last node that is called is not fetched as a neighbour, if there are more than are fetched. -/
theorem last_not_mem_proximityNeighbors (hn : proximityFanout < n) :
    n + 1 ∉ proximityNeighbors (hubGraph n) 1 := by
  have hrows : (hubGraph n).edges.rows = (List.range n).map hubEdge := rfl
  rw [proximityNeighbors, List.mem_toFinset, List.mem_flatMap]
  rintro ⟨ty, -, hmem⟩
  rw [List.mem_filter, List.mem_append, List.mem_map, List.mem_map] at hmem
  rcases hmem.1 with ⟨e, he, htarget⟩ | ⟨e, he, hsource⟩
  · rw [Graph.outgoingEdges, Graph.sqlLimit, if_pos (by decide), hrows] at he
    have hsub : (((List.range n).map hubEdge).filter fun e =>
        decide (e.sourceId = 1 ∧ e.edgeType = ty)).take proximityFanout ⊆
          ((List.range n).map hubEdge).take proximityFanout := by
      by_cases hty : ty = "CALLS"
      · have hall : ((List.range n).map hubEdge).filter (fun e =>
            decide (e.sourceId = 1 ∧ e.edgeType = ty)) = (List.range n).map hubEdge := by
          refine List.filter_eq_self.2 fun e he => ?_
          obtain ⟨i, -, rfl⟩ := List.mem_map.1 he
          exact decide_eq_true ⟨rfl, hty.symm⟩
        rw [hall]
        exact List.Subset.refl _
      · have hnone : ((List.range n).map hubEdge).filter (fun e =>
            decide (e.sourceId = 1 ∧ e.edgeType = ty)) = [] := by
          refine List.filter_eq_nil_iff.2 fun e he => ?_
          obtain ⟨i, -, rfl⟩ := List.mem_map.1 he
          rw [decide_eq_true_eq]
          exact fun h => hty h.2.symm
        rw [hnone, List.take_nil]
        exact List.nil_subset _
    have hfetched := hsub he
    rw [← List.map_take, List.take_range] at hfetched
    obtain ⟨i, hi, rfl⟩ := List.mem_map.1 hfetched
    have hless := List.mem_range.1 hi
    simp only [hubEdge] at htarget
    omega
  · have hedge := Graph.mem_sqlLimit he
    obtain ⟨hedge, htarget⟩ := List.mem_filter.1 hedge
    rw [hrows] at hedge
    obtain ⟨i, -, rfl⟩ := List.mem_map.1 hedge
    have := (of_decide_eq_true htarget).1
    simp only [hubEdge] at this
    omega

theorem last_without_bonus (log : Logarithm) (hn : proximityFanout < n) (hlimit : n < 10000) :
    ∃ hit ∈ semanticQueryMultiAnchor .ascii (exactArithmetic log) (hubGraph n) "leaf".toList ["hub"]
        none none 10000,
      hit.node.id ≠ 1 ∧ Adjacent (hubGraph n) 1 hit.node.id ∧ hit.breakdown.edgeProximity = 0 := by
  have hpos : 0 < n := by omega
  obtain ⟨counted, hcounted⟩ : ∃ counted, counted = (tallyOf (hubGraph n) {1}).filter (· ∉ ({1} : Finset ℕ)) :=
    ⟨_, rfl⟩
  have hsearch : semanticQueryMultiAnchor .ascii (exactArithmetic log) (hubGraph n) "leaf".toList ["hub"]
      none none 10000 = rankTally .ascii (exactArithmetic log) "leaf".toList none
        (searchGraph (hubGraph n) none 10000) counted 10000 := by
    rw [semanticQueryMultiAnchor_eq, if_neg (by decide)]
    simp only [anchorsOf_hubGraph hlimit, ← hcounted]
  have hleaf : (hubNode n).searchRow.name = "leaf" := if_neg (by omega)
  have hshared : "leaf".toList ∈ (hubNode n).searchRow.tokens .ascii := by
    rw [mem_row_tokens, hleaf]
    exact Or.inl (by decide)
  have hscored := scoreOne_of_shared (exactArithmetic log) (u := .ascii)
    (q := querySignals .ascii "leaf".toList none) counted.toFinset
    (TokenIdf.fromRows .ascii (searchGraph (hubGraph n) none 10000)) (t := "leaf".toList)
    (by decide) hshared
  have hmem : (hitOf .ascii (exactArithmetic log) (querySignals .ascii "leaf".toList none)
      counted.toFinset (TokenIdf.fromRows .ascii (searchGraph (hubGraph n) none 10000))
      (hubNode n).searchRow).topUp counted ∈ rankTally .ascii (exactArithmetic log) "leaf".toList none
        (searchGraph (hubGraph n) none 10000) counted 10000 := by
    rw [rankTally, List.take_of_length_le]
    · rw [(List.perm_insertionSort SemanticHit.le _).mem_iff]
      exact List.mem_map_of_mem (List.mem_filterMap.2
        ⟨_, (mem_searchGraph_hubGraph hlimit).2 ⟨n, le_rfl, rfl⟩, hscored⟩)
    · rw [List.length_insertionSort, List.length_map]
      exact (List.length_filterMap_le _ _).trans (length_searchGraph_le _ _)
  have hid : ((hitOf .ascii (exactArithmetic log) (querySignals .ascii "leaf".toList none)
      counted.toFinset (TokenIdf.fromRows .ascii (searchGraph (hubGraph n) none 10000))
      (hubNode n).searchRow).topUp counted).node.id = n + 1 := by
    rw [node_topUp]
    rfl
  rw [← hsearch] at hmem
  refine ⟨_, hmem, by rw [hid]; omega, ?_, ?_⟩
  · rw [hid]
    refine ⟨by omega, hubEdge (n - 1), List.mem_map_of_mem (List.mem_range.2 (by omega)), ?_, ?_⟩
    · exact List.mem_cons_self
    · exact Or.inl ⟨rfl, by simp only [hubEdge]; omega⟩
  · rw [edgeProximity_of_mem log hmem, hid, anchorsOf_hubGraph hlimit,
      if_neg (by rw [Finset.mem_singleton]; omega), Finset.filter_singleton,
      if_neg (last_not_mem_proximityNeighbors hn), Finset.card_empty, Nat.cast_zero, mul_zero]

end Hub

/-- A node next to the only anchor has no bonus for it, where the anchor has one edge more than are
fetched. -/
theorem multiAnchor_misses_neighbor :
    anchorsOf .ascii (searchGraph (hubGraph 4097) none 10000) ["hub"] = {1} ∧
    ¬ ∃ log : Logarithm, ∀ hit ∈ semanticQueryMultiAnchor .ascii (exactArithmetic log) (hubGraph 4097)
        "leaf".toList ["hub"] none none 10000,
      hit.node.id ≠ 1 → Adjacent (hubGraph 4097) 1 hit.node.id → hit.breakdown.edgeProximity ≠ 0 := by
  have hfanout : proximityFanout < 4097 := by decide
  have hlimit : 4097 < 10000 := by omega
  refine ⟨anchorsOf_hubGraph hlimit, ?_⟩
  rintro ⟨log, hall⟩
  obtain ⟨hit, hhit, hne, hadjacent, hzero⟩ := last_without_bonus log hfanout hlimit
  exact hall hit hhit hne hadjacent hzero

end Greppy
