/-
**The surroundings of a node.**

Two queries of `crates/search/src/graph.rs` collect what lies around a node when edges are followed from
either end.  `dependency_cluster` follows `IMPORTS` edges as far as they lead, but collects at most so
many nodes, and says whether it had to stop; `subgraph_around` follows edges of some types up to a number
of hops, and adds the edges between the nodes it has collected.

Both fetch the edges of a node with a cap.  For the cluster the cap hardly matters: a node with more
edges than the cap has more neighbours than a cluster may hold, unless one of its edges leads back to it.
-/

import Greppy.BudgetSearch
import Greppy.Ranking
import Greppy.Reachable
import Mathlib.Data.Set.Card

set_option autoImplicit false

namespace Greppy

/-! ### Rows of nodes -/

/-- The order of the collected nodes: by qualified name, then by id. -/
def SearchGraphRow.qnameKey (r : SearchGraphRow) : String ×ₗ ℕ := toLex (r.qualifiedName, r.id)

def nodeRows (g : Graph) (ids : List ℕ) : List SearchGraphRow :=
  Ranking.ranked SearchGraphRow.qnameKey (ids.filterMap fun id => (g.getNode id).map Node.searchRow)

def SearchGraphRow.Stored (g : Graph) (r : SearchGraphRow) : Prop :=
  ∃ n, g.getNode r.id = some n ∧ r = n.searchRow

/-- `adj`: the nodes at the other ends of the edges of a type at a node, at most `MAX_REACH_RESULTS` in
each direction. -/
def adjacent (g : Graph) (nid : ℕ) (ty : String) : List ℕ :=
  (g.edgesFrom .outgoing nid (some ty) maxReachResults).map Edge.targetId ++
    (g.edgesFrom .incoming nid (some ty) maxReachResults).map Edge.sourceId

namespace Graph

/-- Joined by an edge of some types, in either direction. -/
def Linked (g : Graph) (types : List String) (a b : ℕ) : Prop :=
  g.Joined .outgoing types a b ∨ g.Joined .incoming types a b

/-- Joined by an edge that is fetched for the first of the two. -/
def FetchedLink (g : Graph) (types : List String) (a b : ℕ) : Prop :=
  g.Fetched .outgoing types maxReachResults a b ∨ g.Fetched .incoming types maxReachResults a b

end Graph

/-! ### The two queries -/

structure DependencyCluster where
  nodes : List SearchGraphRow
  truncated : Bool
  deriving DecidableEq

/-- What a node of the cluster leads to. -/
def clusterExpand (g : Graph) (nid : ℕ) : List ℕ :=
  (adjacent g nid "IMPORTS").filter fun next => decide (next ≠ nid)

/-- `dependency_cluster`.  A queued node is one collected, so one turn of the loop for each stored node
is enough. -/
def dependencyCluster (g : Graph) (seedId limit : ℕ) : Option (Option DependencyCluster) :=
  let limit := max 1 (min limit maxReachResults)
  if (g.getNode seedId).isNone then some none
  else
    (BreadthFirst.searchWithin id (clusterExpand g) limit g.nodes.rows.length [seedId] [seedId]
      false).map fun (collected, truncated) =>
        some { nodes := nodeRows g collected, truncated := truncated }

structure SubgraphEdge where
  sourceId : ℕ
  targetId : ℕ
  edgeType : String
  deriving DecidableEq

/-- The order of the edges, and the key under which an edge is kept once. -/
def SubgraphEdge.key (e : SubgraphEdge) : ℕ ×ₗ ℕ ×ₗ String :=
  toLex (e.sourceId, toLex (e.targetId, e.edgeType))

def Edge.inSubgraph (e : Edge) : SubgraphEdge := ⟨e.sourceId, e.targetId, e.edgeType⟩

structure Subgraph where
  center : SearchGraphRow
  nodes : List SearchGraphRow
  edges : List SubgraphEdge
  deriving DecidableEq

/-- What an entry of the queue leads to. -/
def subgraphExpand (g : Graph) (types : List String) (maxHops : ℕ) (h : Hop) : List Hop :=
  if maxHops ≤ h.hops then []
  else
    types.flatMap fun ty =>
      ((adjacent g h.id ty).filter fun next => decide (next ≠ h.id)).map fun next =>
        { id := next, hops := h.hops + 1 }

/-- The edges of the types between the collected nodes, each once. -/
def inducedEdges (g : Graph) (types : List String) (collected : List ℕ) : List SubgraphEdge :=
  let found := collected.flatMap fun id => types.flatMap fun ty =>
    ((g.edgesFrom .outgoing id (some ty) maxReachResults).filter fun e =>
      decide (e.targetId ∈ collected)).map Edge.inSubgraph
  Ranking.ranked SubgraphEdge.key (BreadthFirst.firsts SubgraphEdge.key [] found)

def subgraphAround (g : Graph) (centerId : ℕ) (edgeTypes : List String) (maxHops : ℕ) :
    Option (Option Subgraph) :=
  let maxHops := min maxHops maxReachHops
  match g.getNode centerId with
  | none => some none
  | some center =>
    let types := BreadthFirst.firsts id [] edgeTypes
    (BreadthFirst.searchWithin Hop.id (subgraphExpand g types maxHops) maxReachResults
      g.nodes.rows.length [⟨centerId, 0⟩] [⟨centerId, 0⟩] false).map fun (found, _) =>
        let collected := found.map Hop.id
        some
          { center := center.searchRow
            nodes := nodeRows g collected
            edges := inducedEdges g types collected }

/-! ### Rows -/

section Rows

variable {g : Graph} {ids : List ℕ}

theorem mem_nodeRows {r : SearchGraphRow} : r ∈ nodeRows g ids ↔ r.id ∈ ids ∧ r.Stored g := by
  rw [nodeRows, Ranking.mem_ranked, List.mem_filterMap]
  constructor
  · rintro ⟨id, hid, hr⟩
    obtain ⟨n, hn, rfl⟩ := Option.map_eq_some_iff.1 hr
    have hnode : n.searchRow.id = id := Graph.id_of_getNode hn
    exact ⟨hnode ▸ hid, n, hnode ▸ hn, rfl⟩
  · rintro ⟨hid, n, hn, hr⟩
    exact ⟨r.id, hid, by rw [hn, Option.map_some, ← hr]⟩

theorem nodup_map_id_nodeRows (h : ids.Nodup) : ((nodeRows g ids).map SearchGraphRow.id).Nodup := by
  refine ((Ranking.perm_ranked _ _).map _).nodup_iff.2 (List.Sublist.nodup ?_ ((List.map_id ids).symm ▸ h))
  refine sublist_filterMap id (fun a r hr => ?_) ids
  obtain ⟨n, hn, rfl⟩ := Option.map_eq_some_iff.1 hr
  exact Graph.id_of_getNode hn

theorem mem_map_id_nodeRows (h : ∀ i ∈ ids, i ∈ g.nodeIds) {i : ℕ} :
    i ∈ (nodeRows g ids).map SearchGraphRow.id ↔ i ∈ ids := by
  rw [List.mem_map]
  constructor
  · rintro ⟨r, hr, rfl⟩
    exact (mem_nodeRows.1 hr).1
  · intro hi
    obtain ⟨n, hn⟩ := Option.isSome_iff_exists.1 (Graph.getNode_isSome_iff.2 (h i hi))
    have hid : n.searchRow.id = i := Graph.id_of_getNode hn
    exact ⟨n.searchRow, mem_nodeRows.2 ⟨hid ▸ hi, n, hid ▸ hn, rfl⟩, hid⟩

theorem strict_nodeRows (h : ids.Nodup) :
    (nodeRows g ids).Pairwise fun a b => a.qnameKey < b.qnameKey := by
  have hids : ((nodeRows g ids).map SearchGraphRow.id).Nodup := nodup_map_id_nodeRows h
  have hne : (nodeRows g ids).Pairwise fun a b => a.id ≠ b.id := List.pairwise_map.1 hids
  refine (Ranking.pairwise_ranked _ _).imp₂ (fun a b hle hne => lt_of_le_of_ne hle fun heq => hne ?_) hne
  exact congrArg (fun k => (ofLex k).2) heq

theorem length_nodeRows (hnd : ids.Nodup) (h : ∀ i ∈ ids, i ∈ g.nodeIds) :
    (nodeRows g ids).length = ids.length := by
  have hperm : ((nodeRows g ids).map SearchGraphRow.id).Perm ids :=
    (List.perm_ext_iff_of_nodup (nodup_map_id_nodeRows hnd) hnd).2 fun i => mem_map_id_nodeRows h
  rw [← hperm.length_eq, List.length_map]

end Rows

/-! ### Links -/

section Links

variable {g : Graph} {types : List String} {a b : ℕ}

theorem mem_adjacent {ty : String} : b ∈ adjacent g a ty ↔ g.FetchedLink [ty] a b := by
  simp only [adjacent, List.mem_append, List.mem_map, Graph.FetchedLink, Graph.Fetched,
    List.mem_singleton, exists_eq_left, ReachDirection.next]

theorem fetchedLink_iff : g.FetchedLink types a b ↔ ∃ ty ∈ types, g.FetchedLink [ty] a b := by
  simp only [Graph.FetchedLink, Graph.Fetched, List.mem_singleton, exists_eq_left]
  constructor
  · rintro (⟨ty, hty, h⟩ | ⟨ty, hty, h⟩)
    · exact ⟨ty, hty, .inl h⟩
    · exact ⟨ty, hty, .inr h⟩
  · rintro ⟨ty, hty, h | h⟩
    · exact .inl ⟨ty, hty, h⟩
    · exact .inr ⟨ty, hty, h⟩

theorem linked_of_fetchedLink (h : g.FetchedLink types a b) : g.Linked types a b :=
  h.imp Graph.joined_of_fetched Graph.joined_of_fetched

theorem mem_nodeIds_of_linked (h : g.Linked types a b) : b ∈ g.nodeIds :=
  h.elim Graph.mem_nodeIds_of_joined Graph.mem_nodeIds_of_joined

theorem linked_congr {types' : List String} (h : ∀ ty, ty ∈ types ↔ ty ∈ types') :
    g.Linked types = g.Linked types' := by
  funext x y
  rw [Graph.Linked, Graph.Linked, Graph.joined_congr h, Graph.joined_congr h]

end Links

/-! ### The cluster -/

/-- What a cluster promises: rows of the component of the seed, with the seed and within the budget, in
their order; and the flag tells whether they are the whole component. -/
structure ClusterOf (g : Graph) (seedId budget : ℕ) (c : DependencyCluster) : Prop where
  ordered : c.nodes.Pairwise fun a b => a.qnameKey < b.qnameKey
  nodup : (c.nodes.map SearchGraphRow.id).Nodup
  seed : seedId ∈ c.nodes.map SearchGraphRow.id
  bounded : c.nodes.length ≤ budget
  connected : ∀ r ∈ c.nodes, r.Stored g ∧ Relation.ReflTransGen (g.Linked ["IMPORTS"]) seedId r.id
  whole_iff : c.truncated = false ↔
    ∀ id, Relation.ReflTransGen (g.Linked ["IMPORTS"]) seedId id → id ∈ c.nodes.map SearchGraphRow.id

section Cluster

variable {g : Graph} {seedId : ℕ}

theorem mem_clusterExpand {nid next : ℕ} :
    next ∈ clusterExpand g nid ↔ g.FetchedLink ["IMPORTS"] nid next ∧ next ≠ nid := by
  rw [clusterExpand, List.mem_filter, mem_adjacent, decide_eq_true_eq]

theorem connected_of_fetched {a b : ℕ}
    (h : Relation.ReflTransGen (g.FetchedLink ["IMPORTS"]) a b) :
    Relation.ReflTransGen (g.Linked ["IMPORTS"]) a b :=
  h.lift id fun _ _ => linked_of_fetchedLink

/-- The component that the fetched edges show, in the order in which the search without a budget finds
it. -/
theorem exists_component (hseed : seedId ∈ g.nodeIds) : ∃ all : List ℕ,
    BreadthFirst.search id (clusterExpand g) (fun _ => false) g.nodes.rows.length [seedId] [seedId] =
      some (.ok all) ∧ all.Nodup ∧ seedId ∈ all.take 1 ∧
      ∀ b, b ∈ all ↔ Relation.ReflTransGen (g.FetchedLink ["IMPORTS"]) seedId b := by
  have hexpand : ∀ a b, a ∈ g.nodeIds → b ∈ clusterExpand g a → b ∈ g.nodeIds := fun a b _ hb =>
    mem_nodeIds_of_linked (linked_of_fetchedLink (mem_clusterExpand.1 hb).1)
  obtain ⟨r, hr⟩ : ∃ r, BreadthFirst.search id (clusterExpand g) (fun _ => false)
      g.nodes.rows.length [seedId] [seedId] = some r :=
    BreadthFirst.search_isSome id hexpand (by simp) (by simpa using hseed) (fun _ h => h)
      (by simp [Graph.nodeIds, Nat.add_comm])
  cases r with
  | error r => exact absurd hr BreadthFirst.search_ne_error
  | ok all =>
    obtain ⟨hnd, hmem⟩ := BreadthFirst.search_closure (R := g.FetchedLink ["IMPORTS"])
      (fun a b hb => (mem_clusterExpand.1 hb).1)
      (fun a b hab hne => ⟨b, mem_clusterExpand.2 ⟨hab, hne⟩, rfl⟩) hr
    rw [List.map_id'] at hnd
    simp only [List.map_id'] at hmem
    obtain ⟨more, hmore⟩ := BreadthFirst.search_extends id hr
    exact ⟨all, hr, hnd, by simp [hmore], hmem⟩

theorem nodup_next (g : Graph) (d : ReachDirection) (a : ℕ) (ty : String) :
    ((g.edges.rows.filter fun e => decide (d.here e = a ∧ e.edgeType = ty)).map d.next).Nodup := by
  refine List.Nodup.map_on ?_ (g.edges.rows_nodup.filter _)
  intro e he f hf hnext
  obtain ⟨hmem, hhere, hty⟩ := by simpa using List.mem_filter.1 he
  obtain ⟨hmem', hhere', hty'⟩ := by simpa using List.mem_filter.1 hf
  refine g.edges.eq_of_key_eq hmem hmem' ?_
  cases d with
  | outgoing =>
    simp only [ReachDirection.here, ReachDirection.next] at hhere hhere' hnext
    simp only [Edge.key, hhere, hhere', hnext, hty, hty']
  | incoming =>
    simp only [ReachDirection.here, ReachDirection.next] at hhere hhere' hnext
    simp only [Edge.key, hhere, hhere', hnext, hty, hty']

/-- The edges at a node are fetched, or as many of them as the cap allows: they lead to that many
nodes. -/
theorem fetched_or_many (g : Graph) (d : ReachDirection) (a : ℕ) (ty : String) :
    (∀ b, g.Joined d [ty] a b → g.Fetched d [ty] maxReachResults a b) ∨
    (maxReachResults < (g.edges.rows.filter fun e =>
      decide (d.here e = a ∧ e.edgeType = ty)).length ∧
      ∃ next : List ℕ, next.Nodup ∧ next.length = maxReachResults ∧
        ∀ b ∈ next, g.Fetched d [ty] maxReachResults a b) := by
  have hfetch : g.edgesFrom d a (some ty) maxReachResults =
      (g.edges.rows.filter fun e => decide (d.here e = a ∧ e.edgeType = ty)).take maxReachResults := by
    rw [Graph.edgesFrom, Graph.sqlLimit_eq_take (by decide)]
    simp
  by_cases hlen : (g.edges.rows.filter fun e =>
      decide (d.here e = a ∧ e.edgeType = ty)).length ≤ maxReachResults
  · left
    rintro b ⟨e, he, hty, ha, hb⟩
    refine ⟨ty, List.mem_singleton_self ty, e, ?_, hb⟩
    rw [hfetch, List.take_of_length_le hlen, List.mem_filter]
    exact ⟨he, by simpa [ha] using hty⟩
  · right
    refine ⟨by omega, (g.edgesFrom d a (some ty) maxReachResults).map d.next, ?_, ?_, ?_⟩
    · rw [hfetch]
      exact ((List.take_sublist _ _).map _).nodup (nodup_next g d a ty)
    · rw [hfetch, List.length_map, List.length_take]
      omega
    · intro b hb
      obtain ⟨e, he, rfl⟩ := List.mem_map.1 hb
      exact ⟨ty, List.mem_singleton_self ty, e, he, rfl⟩

/-- A component no larger than a cluster may be shows all its edges, unless a node with more edges than
the cap is joined to itself. -/
theorem fetchedLink_of_linked {budget : ℕ} {all : List ℕ}
    (hall : ∀ b, b ∈ all ↔ Relation.ReflTransGen (g.FetchedLink ["IMPORTS"]) seedId b)
    (hlen : all.length ≤ budget) (hbudget : budget ≤ maxReachResults)
    (hloop : budget = maxReachResults → ∀ v, g.Linked ["IMPORTS"] v v → ∀ d : ReachDirection,
      (g.edges.rows.filter fun e => decide (d.here e = v ∧ e.edgeType = "IMPORTS")).length ≤
        maxReachResults)
    {a b : ℕ} (ha : a ∈ all) (h : g.Linked ["IMPORTS"] a b) : g.FetchedLink ["IMPORTS"] a b := by
  have hdir : ∀ d : ReachDirection, (∀ c, g.Joined d ["IMPORTS"] a c → g.Linked ["IMPORTS"] a c) →
      (∀ c, g.Fetched d ["IMPORTS"] maxReachResults a c → g.FetchedLink ["IMPORTS"] a c) →
      ∀ c, g.Joined d ["IMPORTS"] a c → g.Fetched d ["IMPORTS"] maxReachResults a c := by
    intro d hlinked hfetched
    rcases fetched_or_many g d a "IMPORTS" with hsome | ⟨hmany, next, hnd, hnext, hto⟩
    · exact hsome
    · exfalso
      have hin : ∀ c ∈ next, c ∈ all := fun c hc =>
        (hall c).2 (((hall a).1 ha).tail (hfetched c (hto c hc)))
      by_cases hself : a ∈ next
      · -- the cap is spent on a loop: then the budget is below the cap, or the loop is excluded
        have hle := (List.subperm_of_subset hnd hin).length_le
        have hedge := hlinked a (Graph.joined_of_fetched (hto a hself))
        have hfew := hloop (by omega) a hedge d
        omega
      · have hle := (List.subperm_of_subset (List.nodup_cons.2 ⟨hself, hnd⟩) (fun c hc => by
          rcases List.mem_cons.1 hc with rfl | hc
          · exact ha
          · exact hin c hc) : (a :: next).Subperm all).length_le
        rw [List.length_cons] at hle
        omega
  rcases h with h | h
  · exact .inl (hdir .outgoing (fun _ => .inl) (fun _ => .inl) b h)
  · exact .inr (hdir .incoming (fun _ => .inr) (fun _ => .inr) b h)

/-- **A cluster is the connected component of its seed, or says that it is not.**  A limit of zero counts
as one, and a limit beyond `MAX_REACH_RESULTS` as that; then no node that imports itself may have more
edges than are fetched. -/
theorem dependencyCluster_component (g : Graph) (seedId limit : ℕ)
    (hloop : 10000 ≤ limit → ∀ v, g.Linked ["IMPORTS"] v v → ∀ d : ReachDirection,
      (g.edges.rows.filter fun e => decide (d.here e = v ∧ e.edgeType = "IMPORTS")).length ≤ 10000) :
    (seedId ∉ g.nodeIds → dependencyCluster g seedId limit = some none) ∧
    (seedId ∈ g.nodeIds → ∃ c, dependencyCluster g seedId limit = some (some c) ∧
      ClusterOf g seedId (max 1 (min limit 10000)) c) := by
  refine ⟨fun hseed => ?_, fun hseed => ?_⟩
  · have hnone : (g.getNode seedId).isNone = true := by
      rw [Option.isNone_iff_eq_none, Graph.getNode_eq_none_iff]
      exact hseed
    rw [dependencyCluster, if_pos hnone]
  · obtain ⟨all, hsearch, hnd, hfirst, hall⟩ := exists_component hseed
    have hsome : (g.getNode seedId).isNone = false := by
      rw [Option.isNone_eq_false_iff, Graph.getNode_isSome_iff]
      exact hseed
    have hone : 1 ≤ max 1 (min limit maxReachResults) := le_max_left _ _
    have hrun := BreadthFirst.searchWithin_of_search (max 1 (min limit maxReachResults))
      (by simp) hsearch
    have hstored : ∀ b ∈ all, b ∈ g.nodeIds := by
      intro b hb
      rcases ((hall b).1 hb).cases_tail with rfl | ⟨c, -, hcb⟩
      · exact hseed
      · exact mem_nodeIds_of_linked (linked_of_fetchedLink hcb)
    set kept := all.take (max 1 (min limit maxReachResults)) with hkept
    have hkeptnd : kept.Nodup := (List.take_sublist _ _).nodup hnd
    have hkeptin : ∀ b ∈ kept, b ∈ g.nodeIds := fun b hb => hstored b (List.mem_of_mem_take hb)
    refine ⟨⟨nodeRows g kept, decide (max 1 (min limit maxReachResults) < all.length)⟩, ?_, ?_⟩
    · rw [dependencyCluster, hsome, if_neg Bool.false_ne_true, hrun]
      rfl
    · refine ⟨strict_nodeRows hkeptnd, nodup_map_id_nodeRows hkeptnd, ?_, ?_, fun r hr => ?_, ?_⟩
      · rw [mem_map_id_nodeRows hkeptin]
        exact (List.take_sublist_take_left hone).subset hfirst
      · rw [length_nodeRows hkeptnd hkeptin, hkept, List.length_take]
        exact min_le_left _ _
      · obtain ⟨hid, hrow⟩ := mem_nodeRows.1 hr
        refine ⟨hrow, ?_⟩
        exact connected_of_fetched ((hall r.id).1 (List.mem_of_mem_take hid))
      · simp only [decide_eq_false_iff_not, Nat.not_lt, mem_map_id_nodeRows hkeptin]
        constructor
        · intro hle b hb
          have hbudget : max 1 (min limit maxReachResults) ≤ maxReachResults := by
            simp only [maxReachResults]
            omega
          rw [hkept, List.take_of_length_le hle]
          induction hb with
          | refl => exact (hall seedId).2 .refl
          | @tail c d _ hcd ih =>
            have hfetched := fetchedLink_of_linked hall hle hbudget (fun heq => hloop (by
              simp only [maxReachResults] at heq
              omega)) ih hcd
            exact (hall d).2 (((hall c).1 ih).tail hfetched)
        · intro hwhole
          -- every node of the component is among those kept
          have hsub : all ⊆ kept := fun b hb =>
            hwhole b (connected_of_fetched ((hall b).1 hb))
          have hle := (List.subperm_of_subset hnd hsub).length_le
          rw [hkept, List.length_take] at hle
          omega

/-- Two modules, one of which imports the other. -/
def oneImport : Graph := functionGraph ["a", "b"] [(1, 2, "IMPORTS")]

/-- A limit of one leaves the importing module alone, and says so. -/
theorem dependencyCluster_component_one :
    ((1 ∉ oneImport.nodeIds → dependencyCluster oneImport 1 1 = some none) ∧
      (1 ∈ oneImport.nodeIds → ∃ c, dependencyCluster oneImport 1 1 = some (some c) ∧
        ClusterOf oneImport 1 (max 1 (min 1 10000)) c)) ∧
    (dependencyCluster oneImport 1 1).join.map (fun c => (c.nodes.map SearchGraphRow.id, c.truncated)) =
      some ([1], true) :=
  ⟨dependencyCluster_component oneImport 1 1 (fun h => absurd h (by decide)), by decide +kernel⟩

/-- The seed is there, whatever the limit: a limit of zero is exceeded. -/
theorem dependencyCluster_zero_limit :
    (dependencyCluster oneImport 1 0).join.map (fun c => c.nodes.length) = some 1 := by
  decide +kernel

end Cluster

/-! ### The ball -/

/-- What a subgraph promises: the rows of the nodes within some hops of the centre, in their order, and
the stored edges of the types between them, each once. -/
structure Ball (g : Graph) (types : List String) (centerId hops : ℕ) (s : Subgraph) : Prop where
  center : ∃ n, g.getNode centerId = some n ∧ s.center = n.searchRow
  ordered : s.nodes.Pairwise fun a b => a.qnameKey < b.qnameKey
  nodup : (s.nodes.map SearchGraphRow.id).Nodup
  mem_nodes : ∀ id, id ∈ s.nodes.map SearchGraphRow.id ↔
    ∃ n ≤ hops, Distance (g.Linked types) centerId id n
  stored : ∀ r ∈ s.nodes, r.Stored g
  edges_ordered : s.edges.Pairwise fun a b => a.key < b.key
  mem_edges : ∀ e, e ∈ s.edges ↔ ∃ stored ∈ g.edges.rows, stored.edgeType ∈ types ∧
    stored.inSubgraph = e ∧ stored.sourceId ∈ s.nodes.map SearchGraphRow.id ∧
    stored.targetId ∈ s.nodes.map SearchGraphRow.id

section Around

variable {g : Graph} {types : List String} {centerId maxHops : ℕ}

theorem mem_subgraphExpand {h x : Hop} : x ∈ subgraphExpand g types maxHops h ↔
    h.hops < maxHops ∧ x.hops = h.hops + 1 ∧ g.FetchedLink types h.id x.id ∧ x.id ≠ h.id := by
  rw [subgraphExpand, fetchedLink_iff]
  split_ifs with hle
  · simp only [List.not_mem_nil, false_iff]
    omega
  · simp only [List.mem_flatMap, List.mem_map, List.mem_filter, mem_adjacent, decide_eq_true_eq]
    constructor
    · rintro ⟨ty, hty, next, ⟨hlink, hne⟩, rfl⟩
      exact ⟨by omega, rfl, ⟨ty, hty, hlink⟩, hne⟩
    · rintro ⟨-, hx, ⟨ty, hty, hlink⟩, hne⟩
      refine ⟨ty, hty, x.id, ⟨hlink, hne⟩, ?_⟩
      cases x
      cases hx
      rfl

theorem subgraph_layered : BreadthFirst.Layered Hop.id (subgraphExpand g types maxHops) Hop.hops
    (g.FetchedLink types) maxHops where
  step := fun hx => by
    obtain ⟨hlt, hhops, hlink, -⟩ := mem_subgraphExpand.1 hx
    exact ⟨hlt, hhops, hlink⟩
  all := fun {e b} hlt hR hne =>
    ⟨⟨b, e.hops + 1⟩, mem_subgraphExpand.2 ⟨hlt, rfl, hR, hne⟩, rfl⟩

variable (types maxHops) in
/-- What the search without a budget finds: each node within the hops, at its distance. -/
theorem exists_ball (hcenter : centerId ∈ g.nodeIds) : ∃ all : List Hop,
    BreadthFirst.search Hop.id (subgraphExpand g types maxHops) (fun _ => false) g.nodes.rows.length
      [⟨centerId, 0⟩] [⟨centerId, 0⟩] = some (.ok all) ∧ (all.map Hop.id).Nodup ∧
      (∀ h ∈ all, h.id ∈ g.nodeIds) ∧
      ∀ b, b ∈ all.map Hop.id ↔ ∃ n ≤ maxHops, Distance (g.FetchedLink types) centerId b n := by
  have hexpand : ∀ a b : Hop, a.id ∈ g.nodeIds → b ∈ subgraphExpand g types maxHops a →
      b.id ∈ g.nodeIds := fun a b _ hb =>
    mem_nodeIds_of_linked (linked_of_fetchedLink (mem_subgraphExpand.1 hb).2.2.1)
  obtain ⟨r, hr⟩ : ∃ r, BreadthFirst.search Hop.id (subgraphExpand g types maxHops) (fun _ => false)
      g.nodes.rows.length [⟨centerId, 0⟩] [⟨centerId, 0⟩] = some r :=
    BreadthFirst.search_isSome Hop.id hexpand (by simp) (by simpa using hcenter) (fun _ h => h)
      (by simp [Graph.nodeIds, Nat.add_comm])
  cases r with
  | error r => exact absurd hr BreadthFirst.search_ne_error
  | ok all =>
    obtain ⟨hplaced, -, hdist⟩ := BreadthFirst.search_ok subgraph_layered rfl hr
    refine ⟨all, hr, hplaced.nodup, fun h hh => ?_, fun b => ?_⟩
    · rcases hplaced.origin hh with rfl | ⟨d, -, hx⟩
      · exact hcenter
      · exact mem_nodeIds_of_linked (linked_of_fetchedLink (mem_subgraphExpand.1 hx).2.2.1)
    · rw [List.mem_map]
      constructor
      · rintro ⟨h, hh, rfl⟩
        exact ⟨h.hops, (hdist h.id h.hops).1 ⟨h, hh, rfl, rfl⟩⟩
      · rintro ⟨n, hle, hn⟩
        obtain ⟨h, hh, rfl, -⟩ := (hdist b n).2 ⟨hle, hn⟩
        exact ⟨h, hh, rfl⟩

theorem mem_types {edgeTypes : List String} {ty : String} :
    ty ∈ BreadthFirst.firsts id [] edgeTypes ↔ ty ∈ edgeTypes :=
  BreadthFirst.mem_firsts_iff Function.injective_id

theorem mem_inducedEdges {collected : List ℕ} {e : SubgraphEdge} : e ∈ inducedEdges g types collected ↔
    ∃ id ∈ collected, ∃ ty ∈ types, ∃ stored ∈ g.edgesFrom .outgoing id (some ty) maxReachResults,
      stored.targetId ∈ collected ∧ stored.inSubgraph = e := by
  have hkey : Function.Injective SubgraphEdge.key := by
    intro a b h
    cases a
    cases b
    simpa [SubgraphEdge.key] using h
  rw [inducedEdges, Ranking.mem_ranked, BreadthFirst.mem_firsts_iff hkey]
  simp only [List.mem_flatMap, List.mem_map, List.mem_filter, decide_eq_true_eq, and_assoc]

theorem fetchedLink_eq_linked (hcap : ∀ d, g.WithinCap d types maxReachResults) :
    g.FetchedLink types = g.Linked types := by
  funext a b
  rw [Graph.FetchedLink, Graph.Linked, Graph.fetched_eq_joined _ (by decide) (hcap .outgoing),
    Graph.fetched_eq_joined _ (by decide) (hcap .incoming)]

theorem ncard_around_le {R : ℕ → ℕ → Prop} (hR : ∀ a b, R a b → b ∈ g.nodeIds)
    (hcenter : centerId ∈ g.nodeIds) (k : ℕ) :
    {b | ∃ n ≤ k, Distance R centerId b n}.ncard ≤ g.nodes.rows.length := by
  classical
  have hsub : {b | ∃ n ≤ k, Distance R centerId b n} ⊆ (g.nodeIds.toFinset : Set ℕ) := by
    rintro b ⟨n, -, hn⟩
    rw [Finset.mem_coe, List.mem_toFinset]
    cases hn.1 with
    | nil => exact hcenter
    | snoc _ hcb => exact hR _ _ hcb
  calc {b | ∃ n ≤ k, Distance R centerId b n}.ncard
      ≤ (g.nodeIds.toFinset : Set ℕ).ncard := Set.ncard_le_ncard hsub (Finset.finite_toSet _)
    _ = g.nodeIds.toFinset.card := Set.ncard_coe_finset _
    _ ≤ g.nodeIds.length := List.toFinset_card_le _
    _ = g.nodes.rows.length := by rw [Graph.nodeIds, List.length_map]

/-- **A subgraph is the ball around its centre, with all edges inside**, when the edges of the types at
each node and the nodes of the ball are no more than `MAX_REACH_RESULTS`.  More than `MAX_REACH_HOPS`
hops count as that. -/
theorem subgraphAround_ball (g : Graph) (centerId : ℕ) (edgeTypes : List String) (maxHops : ℕ)
    (hcap : ∀ d, g.WithinCap d edgeTypes 10000)
    (hball : {b | ∃ n ≤ min maxHops 32, Distance (g.Linked edgeTypes) centerId b n}.ncard ≤ 10000) :
    (centerId ∉ g.nodeIds → subgraphAround g centerId edgeTypes maxHops = some none) ∧
    (centerId ∈ g.nodeIds → ∃ s, subgraphAround g centerId edgeTypes maxHops = some (some s) ∧
      Ball g edgeTypes centerId (min maxHops 32) s) := by
  refine ⟨fun hcenter => ?_, fun hcenter => ?_⟩
  · rw [subgraphAround, Graph.getNode_eq_none_iff.2 hcenter]
  · obtain ⟨center, hget⟩ := Option.isSome_iff_exists.1 (Graph.getNode_isSome_iff.2 hcenter)
    have hcap' : ∀ d, g.WithinCap d (BreadthFirst.firsts id [] edgeTypes) maxReachResults :=
      fun d a ty hty => hcap d a ty (mem_types.1 hty)
    obtain ⟨all, hsearch, hnd, hin, hmem⟩ :=
      exists_ball (BreadthFirst.firsts id [] edgeTypes) (min maxHops maxReachHops) hcenter
    rw [fetchedLink_eq_linked hcap', linked_congr fun ty => mem_types] at hmem
    -- the ball fits the budget
    have hlen : all.length ≤ maxReachResults := by
      have hset : ((all.map Hop.id).toFinset : Set ℕ) =
          {b | ∃ n ≤ min maxHops 32, Distance (g.Linked edgeTypes) centerId b n} := by
        ext b
        rw [Finset.mem_coe, List.mem_toFinset, hmem]
        rfl
      rw [← hset, Set.ncard_coe_finset, List.toFinset_card_of_nodup hnd, List.length_map] at hball
      exact hball
    have hrun := BreadthFirst.searchWithin_of_search maxReachResults
      (by simp [maxReachResults]) hsearch
    rw [List.take_of_length_le hlen] at hrun
    have hids : ∀ i ∈ all.map Hop.id, i ∈ g.nodeIds := by
      intro i hi
      obtain ⟨h, hh, rfl⟩ := List.mem_map.1 hi
      exact hin h hh
    refine ⟨⟨center.searchRow, nodeRows g (all.map Hop.id),
        inducedEdges g (BreadthFirst.firsts id [] edgeTypes) (all.map Hop.id)⟩,
      by simp only [subgraphAround, hget, hrun, Option.map_some], ⟨center, hget, rfl⟩,
      strict_nodeRows hnd, nodup_map_id_nodeRows hnd, fun i => ?_,
      fun r hr => (mem_nodeRows.1 hr).2, ?_, fun e => ?_⟩
    · rw [mem_map_id_nodeRows hids, hmem]
      rfl
    · exact Ranking.strict_ranked (BreadthFirst.nodup_firsts [] _)
    · rw [mem_inducedEdges]
      simp only [mem_map_id_nodeRows hids]
      constructor
      · rintro ⟨i, hi, ty, hty, e', he', htarget, rfl⟩
        obtain ⟨hstored, rfl, rfl⟩ := Graph.mem_of_mem_edgesFrom he'
        exact ⟨e', hstored, mem_types.1 hty, rfl, hi, htarget⟩
      · rintro ⟨e', hstored, hty, rfl, hsource, htarget⟩
        have hfetched := Graph.mem_edgesFrom (by decide) (hcap' .outgoing) hstored (mem_types.2 hty)
        exact ⟨e'.sourceId, hsource, e'.edgeType, mem_types.2 hty, e', hfetched, htarget, rfl⟩

/-- A call of a function that calls another one back, and a third one. -/
def calledBack : Graph :=
  functionGraph ["a", "b", "c"] [(1, 2, "CALLS"), (2, 1, "CALLS"), (2, 3, "CALLS"), (3, 3, "CALLS")]

/-- One hop around the first function. -/
theorem subgraphAround_ball_one :
    ((1 ∉ calledBack.nodeIds → subgraphAround calledBack 1 ["CALLS"] 1 = some none) ∧
      (1 ∈ calledBack.nodeIds → ∃ s, subgraphAround calledBack 1 ["CALLS"] 1 = some (some s) ∧
        Ball calledBack ["CALLS"] 1 (min 1 32) s)) ∧
    (subgraphAround calledBack 1 ["CALLS"] 1).join.map (fun s => (s.nodes.map SearchGraphRow.id,
      s.edges.map fun e => (e.sourceId, e.targetId))) = some ([1, 2], [(1, 2), (2, 1)]) := by
  refine ⟨subgraphAround_ball calledBack 1 ["CALLS"] 1
    (fun d => Graph.withinCap_of_length_le (by decide +kernel)) ?_, by decide +kernel⟩
  refine (ncard_around_le (g := calledBack) (fun _ _ => mem_nodeIds_of_linked) (by decide +kernel)
    (min 1 32)).trans ?_
  decide +kernel

end Around

end Greppy
