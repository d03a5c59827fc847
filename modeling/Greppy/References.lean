/-
**References, and the lack of them.**

Three queries of `crates/search/src/graph.rs` are about the references to a symbol.
`find_references_to_any` lists them, `count_references_to_any` counts them in the database, and
`unused_symbols` lists the symbols without one.  They are documented to fit together, but were written apart:
the list is made from edges fetched up to a cap and leaves out what refers to itself, the count is of the
edges of a project, and the symbols without a reference are looked for among the first nodes of a project by
name, where a reference of a node to itself counts as one.
-/

import Greppy.GraphSearch
import Greppy.NavTotals

set_option autoImplicit false

namespace Greppy

/-! ### The queries -/

structure Reference where
  edgeType : String
  node : SearchGraphRow
  deriving DecidableEq

/-- The order of the list: by qualified name, id and type of edge. -/
def Reference.key (r : Reference) : (String ×ₗ ℕ) ×ₗ String := toLex (r.node.qnameKey, r.edgeType)

/-- The edges that are looked at for some targets: those that lead to a stored target from elsewhere. -/
def referenceEdges (g : Graph) (targetIds : List ℕ) : List Edge :=
  (targetIds.filter fun t => (g.getNode t).isSome).flatMap fun t => referenceEdgeTypes.flatMap fun ty =>
    (g.edgesFrom .incoming t (some ty) maxReachResults).filter fun e => decide (e.sourceId ≠ t)

/-- `find_references_to_any`, before the limit. -/
def referencesToAny (g : Graph) (targetIds : List ℕ) : List Reference :=
  Ranking.ranked Reference.key <|
    (BreadthFirst.firsts (fun e => (e.edgeType, e.sourceId)) [] (referenceEdges g targetIds)).filterMap
      fun e => (g.getNode e.sourceId).map fun n => { edgeType := e.edgeType, node := n.searchRow }

def findReferencesToAny (g : Graph) (targetIds : List ℕ) (limit : ℕ) : List Reference :=
  let limit := min limit maxReachResults
  if limit = 0 ∨ targetIds = [] then [] else (referencesToAny g targetIds).take limit

/-- The number of parameters that a statement may have. -/
def maxVariableNumber : ℕ := 32766

/-- `count_references_to_any`; a statement with too many parameters is refused. -/
def countReferencesToAny (g : Graph) (project : String) (targetIds : List ℕ) : Option ℕ :=
  if targetIds = [] then some 0
  else
    let existing := targetIds.filter fun t => (g.getNode t).isSome
    if existing = [] then some 0
    else if maxVariableNumber < existing.length + 1 then none
    else
      let rows := g.edges.rows.filter fun e => decide (e.project = project ∧ e.targetId ∈ existing ∧
        e.sourceId ≠ e.targetId ∧ e.edgeType ∈ referenceEdgeTypes)
      some (rows.map fun e => (e.edgeType, e.sourceId)).dedup.length

def unusedSymbols (g : Graph) (project : String) (labels : List String) (limit : ℕ) :
    List SearchGraphRow :=
  let limit := min limit maxReachResults
  if limit = 0 then []
  else
    -- a single label becomes a filter of the search, more of them are looked up afterwards
    let label := match labels with
      | [l] => some l
      | _ => none
    let q : GraphQuery := { project := some project, label := label, limit := 10000 }
    let unused := (q.searchGraph g).filter fun row =>
      (decide (labels = []) || decide (row.label ∈ labels)) &&
        !referenceEdgeTypes.any fun ty => !(g.edgesFrom .incoming row.id (some ty) 1).isEmpty
    unused.take limit

/-! ### What they are about -/

/-- The label is admitted: without labels, every one is. -/
def admitted (labels : List String) (label : String) : Bool :=
  decide (labels = []) || decide (label ∈ labels)

/-- The symbols of a project, of the labels admitted, to which no reference is found, in their order. -/
def unreferenced (g : Graph) (project : String) (labels : List String) : List SearchGraphRow :=
  Ranking.ranked SearchGraphRow.qnameKey <| (projectRows g (some project)).filter fun r =>
    admitted labels r.label && decide (findReferencesToAny g [r.id] 10000 = [])

/-- The nodes among which symbols without a reference are looked for. -/
def unusedCandidates (g : Graph) (project : String) (labels : List String) : List SearchGraphRow :=
  (projectRows g (some project)).filter fun r => labels.length != 1 || admitted labels r.label

def SelfReference (g : Graph) (id : ℕ) : Prop :=
  ∃ e ∈ g.edges.rows, e.edgeType ∈ referenceEdgeTypes ∧ e.sourceId = id ∧ e.targetId = id

/-- The references to some targets that are listed: those among the edges fetched. -/
def fetchedReferences (g : Graph) (targetIds : List ℕ) : Set (String × ℕ) :=
  {p | p.1 ∈ referenceEdgeTypes ∧ ∃ t ∈ targetIds, p.2 ≠ t ∧ g.Fetched .incoming [p.1] 10000 t p.2}

def projectReferences (g : Graph) (project : String) (targetIds : List ℕ) : Set (String × ℕ) :=
  {p | p.1 ∈ referenceEdgeTypes ∧ ∃ e ∈ g.edges.rows, e.project = project ∧ e.edgeType = p.1 ∧
    e.sourceId = p.2 ∧ e.targetId ∈ targetIds ∧ e.sourceId ≠ e.targetId}

/-! ### Lists of references -/

section Lists

variable {g : Graph} {targetIds : List ℕ} {id : ℕ}

theorem mem_referenceEdges {e : Edge} : e ∈ referenceEdges g targetIds ↔
    e.edgeType ∈ referenceEdgeTypes ∧ e.targetId ∈ targetIds ∧ e.sourceId ≠ e.targetId ∧
      e ∈ g.edgesFrom .incoming e.targetId (some e.edgeType) maxReachResults := by
  simp only [referenceEdges, List.mem_flatMap, List.mem_filter, decide_eq_true_eq]
  constructor
  · rintro ⟨t, ⟨ht, -⟩, ty, hty, he, hne⟩
    obtain ⟨-, rfl, rfl⟩ := Graph.mem_of_mem_edgesFrom he
    exact ⟨hty, ht, hne, he⟩
  · rintro ⟨hty, ht, hne, he⟩
    refine ⟨e.targetId, ⟨ht, ?_⟩, e.edgeType, hty, he, hne⟩
    exact Graph.getNode_isSome_iff.2
      (Graph.here_mem_nodeIds (d := .incoming) (Graph.mem_of_mem_edgesFrom he).1)

theorem self_edge_unique {e e' : Edge} (he : e ∈ g.edges.rows) (he' : e' ∈ g.edges.rows)
    (hty : e.edgeType = e'.edgeType) (ht : e.targetId = e'.targetId) (hs : e.sourceId = e.targetId)
    (hs' : e'.sourceId = e'.targetId) : e = e' := by
  refine List.inj_on_of_nodup_map g.edges.keys_nodup he he' ?_
  rw [Edge.key, Edge.key, hs, hs', hty, ht]

/-- Where something else refers to a node, the cap leaves one of the references. -/
theorem exists_mem_referenceEdges {e : Edge} (he : e ∈ g.edges.rows)
    (hty : e.edgeType ∈ referenceEdgeTypes) (ht : e.targetId = id) (hne : e.sourceId ≠ id) :
    referenceEdges g [id] ≠ [] := by
  intro hnil
  set found := g.edgesFrom .incoming id (some e.edgeType) maxReachResults with hfound
  -- all edges that are fetched lead from the node itself, so there is no more than one
  have hself : ∀ x ∈ found, x.sourceId = id := by
    intro x hx
    obtain ⟨-, hxt, hxty⟩ := Graph.mem_of_mem_edgesFrom hx
    by_contra hxs
    have hmem : x ∈ referenceEdges g [id] := by
      rw [mem_referenceEdges]
      have hxt' : x.targetId = id := hxt
      refine ⟨hxty ▸ hty, by simp [hxt'], by rwa [hxt'], ?_⟩
      rw [hxt', hxty]
      exact hx
    rw [hnil] at hmem
    cases hmem
  have hfew : found.length ≤ 1 := by
    have hnd : found.Nodup := by
      rw [hfound, Graph.edgesFrom, Graph.sqlLimit_eq_take (by decide)]
      exact ((g.edges.keys_nodup.of_map).filter _).sublist (List.take_sublist _ _)
    cases hfirst : found with
    | nil => exact Nat.zero_le 1
    | cons x rest =>
      have hx : x ∈ found := hfirst ▸ List.mem_cons_self
      obtain ⟨hxmem, hxt, hxty⟩ := Graph.mem_of_mem_edgesFrom hx
      have hsub : found ⊆ [x] := by
        intro y hy
        obtain ⟨hymem, hyt, hyty⟩ := Graph.mem_of_mem_edgesFrom hy
        exact List.mem_singleton.2 (self_edge_unique hymem hxmem (hyty.trans hxty.symm)
          (hyt.trans hxt.symm) ((hself y hy).trans hyt.symm) ((hself x hx).trans hxt.symm))
      rw [← hfirst]
      exact (List.subperm_of_subset hnd hsub).length_le
  -- so that the cap cut nothing off
  have hmem : e ∈ found := by
    rw [hfound, Graph.edgesFrom, Graph.sqlLimit_eq_take (by decide)] at hfew ⊢
    rw [List.length_take, maxReachResults] at hfew
    rw [List.take_of_length_le (by rw [maxReachResults]; omega)]
    exact List.mem_filter.2 ⟨he, by simp [ReachDirection.here, ht]⟩
  exact hne (hself e hmem)

theorem exists_reference_iff (p : String × ℕ) :
    (∃ r ∈ referencesToAny g targetIds, (r.edgeType, r.node.id) = p) ↔
      ∃ e ∈ referenceEdges g targetIds, (e.edgeType, e.sourceId) = p := by
  have hread : ∀ (e : Edge) (r : Reference), ((g.getNode e.sourceId).map fun n =>
      ({ edgeType := e.edgeType, node := n.searchRow } : Reference)) = some r →
        (r.edgeType, r.node.id) = (e.edgeType, e.sourceId) := by
    intro e r hr
    obtain ⟨n, hn, rfl⟩ := Option.map_eq_some_iff.1 hr
    exact Prod.ext rfl (Graph.id_of_getNode hn)
  have hrow := exists_row_iff (referenceEdges g targetIds) hread (fun e he => by
      rw [Option.isSome_map, Graph.getNode_isSome_iff]
      have hmem := (Graph.mem_of_mem_edgesFrom (mem_referenceEdges.1 he).2.2.2).1
      exact Graph.next_mem_nodeIds (d := .incoming) hmem) p
  rw [← hrow]
  simp only [referencesToAny, Ranking.mem_ranked]

theorem nodup_references :
    ((referencesToAny g targetIds).map fun r => (r.edgeType, r.node.id)).Nodup := by
  refine ((Ranking.perm_ranked _ _).map _).nodup_iff.2 (nodup_rows fun e r hr => ?_)
  obtain ⟨n, hn, rfl⟩ := Option.map_eq_some_iff.1 hr
  exact Prod.ext rfl (Graph.id_of_getNode hn)

theorem referencesToAny_eq_nil_iff : referencesToAny g targetIds = [] ↔ referenceEdges g targetIds = [] := by
  constructor
  · intro h
    refine List.eq_nil_iff_forall_not_mem.2 fun e he => ?_
    obtain ⟨r, hr, -⟩ := (exists_reference_iff _).2 ⟨e, he, rfl⟩
    rw [h] at hr
    cases hr
  · intro h
    refine List.eq_nil_iff_forall_not_mem.2 fun r hr => ?_
    obtain ⟨e, he, -⟩ := (exists_reference_iff _).1 ⟨r, hr, rfl⟩
    rw [h] at he
    cases he

/-- **Nothing is listed when nothing else refers to the node.** -/
theorem findReferences_eq_nil_iff : findReferencesToAny g [id] 10000 = [] ↔
    ∀ e ∈ g.edges.rows, e.edgeType ∈ referenceEdgeTypes → e.targetId = id → e.sourceId = id := by
  have hlist : findReferencesToAny g [id] 10000 = (referencesToAny g [id]).take 10000 := by
    rw [findReferencesToAny, if_neg (by simp [maxReachResults])]
    rfl
  rw [hlist, List.take_eq_nil_iff, or_iff_right (by omega), referencesToAny_eq_nil_iff]
  constructor
  · intro h e he hty ht
    by_contra hs
    exact exists_mem_referenceEdges he hty ht hs h
  · intro h
    refine List.eq_nil_iff_forall_not_mem.2 fun e he => ?_
    obtain ⟨hty, ht, hne, hfetched⟩ := mem_referenceEdges.1 he
    have ht' := List.mem_singleton.1 ht
    exact hne ((h e (Graph.mem_of_mem_edgesFrom hfetched).1 hty ht').trans ht'.symm)

end Lists

/-! ### Symbols without a reference -/

section Unused

variable {g : Graph} {project : String} {labels : List String}

/-- Nothing refers to the node, not even the node itself, when a look at one edge of each type finds
nothing. -/
theorem has_ref_iff {id : ℕ} :
    (referenceEdgeTypes.any fun ty => !(g.edgesFrom .incoming id (some ty) 1).isEmpty) = true ↔
      ∃ e ∈ g.edges.rows, e.edgeType ∈ referenceEdgeTypes ∧ e.targetId = id := by
  have hone : ∀ ty, g.edgesFrom .incoming id (some ty) 1 ≠ [] ↔
      ∃ e ∈ g.edges.rows, e.targetId = id ∧ e.edgeType = ty := by
    intro ty
    rw [Graph.edgesFrom, Graph.sqlLimit_eq_take (by decide), ne_eq, List.take_eq_nil_iff,
      or_iff_right Nat.one_ne_zero, List.filter_eq_nil_iff]
    simp [ReachDirection.here]
  simp only [List.any_eq_true, Bool.not_eq_true', List.isEmpty_eq_false_iff, hone]
  constructor
  · rintro ⟨ty, hty, e, he, ht, rfl⟩
    exact ⟨e, he, hty, ht⟩
  · rintro ⟨e, he, hty, ht⟩
    exact ⟨_, hty, e, he, ht, rfl⟩

/-- A symbol is found to be unused among the first candidates, when nothing refers to it. -/
def unusedFound (g : Graph) (project : String) (labels : List String) : List SearchGraphRow :=
  ((Ranking.ranked SearchGraphRow.qnameKey (unusedCandidates g project labels)).take 10000).filter
    fun r => admitted labels r.label &&
      !referenceEdgeTypes.any fun ty => !(g.edgesFrom .incoming r.id (some ty) 1).isEmpty

/-- The label by which the search is filtered: the only one. -/
def pushedLabel (labels : List String) : Option String :=
  match labels with
  | [l] => some l
  | _ => none

theorem filter_pushedLabel : ((projectRows g (some project)).filter fun r =>
    (pushedLabel labels).all fun l => decide (r.label = l)) = unusedCandidates g project labels := by
  refine List.filter_congr fun r _ => ?_
  match labels with
  | [] => simp [pushedLabel]
  | [l] => simp [pushedLabel, admitted]
  | _ :: _ :: _ => simp [pushedLabel]

theorem unusedSymbols_eq (limit : ℕ) :
    unusedSymbols g project labels limit = (unusedFound g project labels).take (min limit 10000) := by
  have hten : (10000 : UInt64).toNat = 10000 := by decide
  have hsearch := searchGraph_of_label g (some project) (pushedLabel labels) 10000
  rw [hten, Graph.sqlLimit_eq_take (by decide), filter_pushedLabel] at hsearch
  unfold unusedSymbols maxReachResults
  by_cases hzero : min limit 10000 = 0
  · rw [if_pos hzero, hzero, List.take_zero]
  · rw [if_neg hzero, unusedFound, ← hsearch]
    rfl

theorem strict_unreferenced :
    (unreferenced g project labels).Pairwise fun a b => a.qnameKey < b.qnameKey :=
  Ranking.strict_ranked ((List.filter_sublist.map _).nodup nodup_qnameKey)

theorem nodup_unusedCandidates :
    ((unusedCandidates g project labels).map SearchGraphRow.qnameKey).Nodup :=
  (List.filter_sublist.map _).nodup nodup_qnameKey

theorem strict_unusedFound :
    (unusedFound g project labels).Pairwise fun a b => a.qnameKey < b.qnameKey :=
  (Ranking.strict_ranked nodup_unusedCandidates).sublist
    (List.filter_sublist.trans (List.take_sublist _ _))

theorem mem_unreferenced {r : SearchGraphRow} : r ∈ unreferenced g project labels ↔
    r ∈ projectRows g (some project) ∧ admitted labels r.label = true ∧
      ∀ e ∈ g.edges.rows, e.edgeType ∈ referenceEdgeTypes → e.targetId = r.id → e.sourceId = r.id := by
  rw [unreferenced, Ranking.mem_ranked, List.mem_filter, Bool.and_eq_true, decide_eq_true_eq,
    findReferences_eq_nil_iff]

theorem mem_unusedFound {r : SearchGraphRow} : r ∈ unusedFound g project labels ↔
    r ∈ projectRows g (some project) ∧ admitted labels r.label = true ∧
      Ranking.ahead SearchGraphRow.qnameKey (unusedCandidates g project labels) r < 10000 ∧
      ∀ e ∈ g.edges.rows, e.edgeType ∈ referenceEdgeTypes → e.targetId ≠ r.id := by
  have hcandidate : r ∈ unusedCandidates g project labels ∧ admitted labels r.label = true ↔
      r ∈ projectRows g (some project) ∧ admitted labels r.label = true := by
    rw [unusedCandidates, List.mem_filter, Bool.or_eq_true]
    tauto
  have hnone : (!referenceEdgeTypes.any fun ty => !(g.edgesFrom .incoming r.id (some ty) 1).isEmpty) =
      true ↔ ∀ e ∈ g.edges.rows, e.edgeType ∈ referenceEdgeTypes → e.targetId ≠ r.id := by
    rw [Bool.not_eq_true', ← Bool.not_eq_true, has_ref_iff]
    simp only [not_exists, not_and, ne_eq]
  rw [unusedFound, List.mem_filter, Ranking.mem_take_ranked nodup_unusedCandidates, Bool.and_eq_true,
    hnone, ← and_assoc (c := _ ∧ _), ← hcandidate]
  tauto

/-- **When the symbols without a reference are listed**: when each of them, up to the limit, is among the
first candidates and does not refer to itself. -/
theorem unusedSymbols_eq_iff (limit : ℕ) :
    unusedSymbols g project labels limit = (unreferenced g project labels).take (min limit 10000) ↔
      ∀ r ∈ (unreferenced g project labels).take (min limit 10000),
        Ranking.ahead SearchGraphRow.qnameKey (unusedCandidates g project labels) r < 10000 ∧
        ¬ SelfReference g r.id := by
  have hsub : ∀ r ∈ unusedFound g project labels, r ∈ unreferenced g project labels := by
    intro r hr
    obtain ⟨hrow, hlabel, -, hnone⟩ := mem_unusedFound.1 hr
    exact mem_unreferenced.2 ⟨hrow, hlabel, fun e he hty ht => absurd ht (hnone e he hty)⟩
  rw [unusedSymbols_eq, Ranking.take_eq_take_iff_of_strict strict_unreferenced strict_unusedFound hsub]
  refine forall₂_congr fun r hr => ?_
  obtain ⟨hrow, hlabel, hothers⟩ := mem_unreferenced.1 (List.mem_of_mem_take hr)
  rw [mem_unusedFound]
  constructor
  · rintro ⟨-, -, hahead, hnone⟩
    refine ⟨hahead, ?_⟩
    rintro ⟨e, he, hty, -, ht⟩
    exact hnone e he hty ht
  · rintro ⟨hahead, hself⟩
    exact ⟨hrow, hlabel, hahead, fun e he hty ht => hself ⟨e, he, hty, hothers e he hty ht, ht⟩⟩

end Unused

/-! ### Counting references -/

section Counting

variable {g : Graph} {project : String} {targetIds : List ℕ}

theorem finite_references (results : Set (String × ℕ))
    (h : ∀ p ∈ results, p.1 ∈ referenceEdgeTypes ∧ p.2 ∈ g.nodeIds) : results.Finite :=
  ((List.finite_toSet referenceEdgeTypes).prod (List.finite_toSet g.nodeIds)).subset h

theorem length_referencesToAny :
    (referencesToAny g targetIds).length = (fetchedReferences g targetIds).ncard := by
  have hiff : ∀ p, p ∈ fetchedReferences g targetIds ↔
      ∃ r ∈ referencesToAny g targetIds, (r.edgeType, r.node.id) = p := by
    intro p
    rw [exists_reference_iff]
    simp only [mem_referenceEdges]
    constructor
    · rintro ⟨hty, t, ht, hne, ty, hty', e, he, hnext⟩
      obtain rfl := List.mem_singleton.1 hty'
      obtain ⟨-, rfl, hety⟩ := Graph.mem_of_mem_edgesFrom he
      refine ⟨e, ⟨hety ▸ hty, ht, ?_, ?_⟩, Prod.ext hety hnext⟩
      · exact fun h => hne (hnext.symm.trans h)
      · rw [hety]
        exact he
    · rintro ⟨e, ⟨hty, ht, hne, he⟩, rfl⟩
      exact ⟨hty, e.targetId, ht, hne, e.edgeType, List.mem_singleton_self _, e, he, rfl⟩
  refine (length_eq_ncard_iff (finite_references (g := g) _ ?_) nodup_references fun r hr => ?_).2 ?_
  · rintro p ⟨hty, t, -, -, hR⟩
    exact ⟨hty, Graph.mem_nodeIds_of_joined (Graph.joined_of_fetched hR)⟩
  · exact (hiff _).2 ⟨r, hr, rfl⟩
  · exact fun p hp => (hiff p).1 hp

/-- The database counts the references in the project, unless the targets are too many. -/
theorem countReferencesToAny_eq : countReferencesToAny g project targetIds =
    if (targetIds.filter fun t => (g.getNode t).isSome).length < 32766 then
      some (projectReferences g project targetIds).ncard
    else none := by
  set existing := targetIds.filter fun t => (g.getNode t).isSome with hexisting
  have hmem : ∀ t, t ∈ existing ↔ t ∈ targetIds ∧ t ∈ g.nodeIds := by
    intro t
    rw [hexisting, List.mem_filter, Graph.getNode_isSome_iff]
  -- the rows that are grouped are the references in the project
  have hrows : (((g.edges.rows.filter fun e => decide (e.project = project ∧ e.targetId ∈ existing ∧
      e.sourceId ≠ e.targetId ∧ e.edgeType ∈ referenceEdgeTypes)).map fun e =>
        (e.edgeType, e.sourceId)).dedup).length = (projectReferences g project targetIds).ncard := by
    rw [← List.toFinset_card_of_nodup (List.nodup_dedup _), ← Set.ncard_coe_finset]
    congr 1
    ext p
    simp only [Finset.mem_coe, List.mem_toFinset, List.mem_dedup, List.mem_map, List.mem_filter,
      decide_eq_true_eq, hmem]
    constructor
    · rintro ⟨e, ⟨he, hproject, ⟨ht, -⟩, hne, hty⟩, rfl⟩
      exact ⟨hty, e, he, hproject, rfl, rfl, ht, hne⟩
    · rintro ⟨hty, e, he, hproject, hety, hs, ht, hne⟩
      exact ⟨e, ⟨he, hproject, ⟨ht, Graph.here_mem_nodeIds (d := .incoming) he⟩, hne, hety ▸ hty⟩,
        Prod.ext hety hs⟩
  have hnone : existing = [] → (projectReferences g project targetIds).ncard = 0 := by
    intro hnil
    rw [← hrows, hnil]
    simp
  rw [countReferencesToAny]
  simp only [← hexisting, hrows, maxVariableNumber]
  by_cases hnil : existing = []
  · have hfew : existing.length < 32766 := hnil ▸ Nat.zero_lt_succ _
    rw [if_pos hfew, hnone hnil, if_pos hnil, ite_self]
  · have htargets : targetIds ≠ [] := by
      rintro rfl
      exact hnil rfl
    rw [if_neg htargets, if_neg hnil]
    by_cases hfew : existing.length < 32766
    · rw [if_pos hfew, if_neg (by omega)]
    · rw [if_neg hfew, if_pos (by omega)]

/-- Two finite sets are of one size when as many elements are missing from the one as from the other. -/
theorem ncard_eq_iff_diff {α : Type} {s t : Set α} (hs : s.Finite) (ht : t.Finite) :
    s.ncard = t.ncard ↔ (s \ t).ncard = (t \ s).ncard := by
  have hst := Set.ncard_inter_add_ncard_sdiff_eq_ncard s t hs
  have hts := Set.ncard_inter_add_ncard_sdiff_eq_ncard t s ht
  rw [Set.inter_comm] at hts
  omega

/-- The count is that of the list when as many references are missing from the one as from the other. -/
theorem countReferences_eq_iff :
    countReferencesToAny g project targetIds = some (referencesToAny g targetIds).length ↔
      (targetIds.filter fun t => (g.getNode t).isSome).length < 32766 ∧
      (projectReferences g project targetIds \ fetchedReferences g targetIds).ncard =
        (fetchedReferences g targetIds \ projectReferences g project targetIds).ncard := by
  have hproject : (projectReferences g project targetIds).Finite := by
    refine finite_references (g := g) _ ?_
    rintro p ⟨hty, e, he, -, -, hs, -⟩
    exact ⟨hty, hs ▸ Graph.next_mem_nodeIds (d := .incoming) he⟩
  have hfetched : (fetchedReferences g targetIds).Finite := by
    refine finite_references (g := g) _ ?_
    rintro p ⟨hty, t, -, -, hR⟩
    exact ⟨hty, Graph.mem_nodeIds_of_joined (Graph.joined_of_fetched hR)⟩
  rw [countReferencesToAny_eq, length_referencesToAny, ← ncard_eq_iff_diff hproject hfetched]
  split_ifs with hfew
  · simp [hfew]
  · simp [hfew]

end Counting

/-- **When the queries fit together.**  The symbols without a reference are listed when each of them, up to
the limit, is among the first candidates and does not refer to itself; and references are counted as they
are listed when as many of them are cut off by the cap as are only seen in other projects. -/
theorem references_agree_iff (g : Graph) (project : String) :
    (∀ labels limit,
      unusedSymbols g project labels limit = (unreferenced g project labels).take (min limit 10000) ↔
        ∀ r ∈ (unreferenced g project labels).take (min limit 10000),
          Ranking.ahead SearchGraphRow.qnameKey (unusedCandidates g project labels) r < 10000 ∧
          ¬ SelfReference g r.id) ∧
    ∀ targetIds, countReferencesToAny g project targetIds = some (referencesToAny g targetIds).length ↔
      (targetIds.filter fun t => (g.getNode t).isSome).length < 32766 ∧
      (projectReferences g project targetIds \ fetchedReferences g targetIds).ncard =
        (fetchedReferences g targetIds \ projectReferences g project targetIds).ncard :=
  ⟨fun _ limit => unusedSymbols_eq_iff limit, fun _ => countReferences_eq_iff⟩

def recursive : Graph := functionGraph ["f"] [(1, 1, "CALLS")]

/-- Behind ten thousand imports the only function is not found to be unused, though nothing refers to it;
nor is a function that only calls itself. -/
theorem unused_behind_imports :
    unusedSymbols (crowd 10000 false) "p" ["Function", "Method"] 10 ≠
        (unreferenced (crowd 10000 false) "p" ["Function", "Method"]).take (min 10 10000) ∧
      unusedSymbols recursive "p" [] 10 ≠ (unreferenced recursive "p" []).take (min 10 10000) := by
  constructor
  · rw [ne_eq, unusedSymbols_eq_iff]
    intro h
    set last := (crowdNode 10000 10000).searchRow with hlast
    have hrow : last ∈ projectRows (crowd 10000 false) (some "p") := by
      rw [projectRows_crowd]
      exact List.mem_map_of_mem (f := fun i => (crowdNode 10000 i).searchRow)
        (List.mem_range.2 (Nat.lt_succ_self 10000))
    have hmem : last ∈ unreferenced (crowd 10000 false) "p" ["Function", "Method"] :=
      mem_unreferenced.2 ⟨hrow, by decide, fun e he => by cases he⟩
    -- no other node has an admitted label
    have honly : ∀ r ∈ unreferenced (crowd 10000 false) "p" ["Function", "Method"], r = last := by
      intro r hr
      obtain ⟨hr, hlabel, -⟩ := mem_unreferenced.1 hr
      rw [projectRows_crowd] at hr
      obtain ⟨i, hi, rfl⟩ := List.mem_map.1 hr
      have hle := List.mem_range.1 hi
      rcases Nat.lt_or_eq_of_le (Nat.le_of_lt_succ hle) with hlt | rfl
      · have himport : (crowdNode 10000 i).searchRow.label = "Import" := if_pos hlt
        rw [himport] at hlabel
        exact absurd hlabel (by decide)
      · rfl
    have htake : last ∈ (unreferenced (crowd 10000 false) "p" ["Function", "Method"]).take (min 10 10000) := by
      cases hlist : unreferenced (crowd 10000 false) "p" ["Function", "Method"] with
      | nil => rw [hlist] at hmem; cases hmem
      | cons r rest =>
        have hr := honly r (hlist ▸ List.mem_cons_self)
        rw [hr]
        exact List.mem_cons_self
    have hahead := (h last htake).1
    have hcandidates : unusedCandidates (crowd 10000 false) "p" ["Function", "Method"] =
        projectRows (crowd 10000 false) (some "p") :=
      List.filter_eq_self.2 fun _ _ => rfl
    rw [hcandidates, projectRows_crowd] at hahead
    exact absurd hahead (Nat.not_lt.2 ahead_crowd.ge)
  · decide +kernel

end Greppy
