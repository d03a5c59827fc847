/-
**Bounded reachability.**

`reachable_within_any_edge_type` of `crates/search/src/graph.rs` lists what a node reaches within so many
hops, over the edges of several types at once.  It searches breadth first and records for each node the
hop count at which it was first come to; the reached nodes are then put into a total order, and the
limit cuts the list only after that.

The edge types are trimmed first, and blank ones are dropped: a stored edge of the empty type is not
followed, whatever is asked for.
-/

import Greppy.GraphEdges
import Mathlib.Data.List.Destutter
import Mathlib.Data.Prod.Lex

set_option autoImplicit false

namespace Greppy

def maxReachHops : ℕ := 32

def maxReachResults : ℕ := 10000

def reachFanout : ℕ := 4096

structure ReachableNode where
  hops : ℕ
  node : SearchGraphRow
  deriving DecidableEq

/-- The order of the result: nearest first, then by qualified name, then by id. -/
def ReachableNode.key (r : ReachableNode) : ℕ ×ₗ String ×ₗ ℕ :=
  toLex (r.hops, toLex (r.node.qualifiedName, r.node.id))

/-- An entry of `best_hops`, and of the queue. -/
structure Hop where
  id : ℕ
  hops : ℕ
  deriving DecidableEq

/-- `str::trim`, of strings. -/
def trimType (ty : String) : String := String.ofList (trimWhitespace ty.toList)

/-- The edge types as they are traversed: trimmed, without blank ones, in order, without repeats. -/
def trimmedTypes (edgeTypes : List String) : List String :=
  (((edgeTypes.map trimType).filter fun ty => decide (ty ≠ "")).insertionSort (· ≤ ·)).destutter (· ≠ ·)

/-- `neighbours.sort_by`: by edge id, which is the order of the rows. -/
def orderByEdgeId (g : Graph) (edges : List Edge) : List Edge :=
  edges.insertionSort fun a b => g.edges.rows.idxOf a ≤ g.edges.rows.idxOf b

/-- What the traversal comes to from an entry of the queue. -/
def reachExpand (g : Graph) (direction : ReachDirection) (types : List String) (maxHops : ℕ) (h : Hop) :
    List Hop :=
  if maxHops ≤ h.hops then []
  else
    (orderByEdgeId g (types.flatMap fun ty => g.edgesFrom direction h.id (some ty) reachFanout)).map
      fun e => { id := direction.next e, hops := h.hops + 1 }

/-- The entries of `best_hops` when the queue is empty.  Each queued node has an entry of its own, so
one turn of the loop for each stored node is enough. -/
def bestHops (g : Graph) (startId : ℕ) (direction : ReachDirection) (types : List String)
    (maxHops : ℕ) : Option (List Hop) :=
  match BreadthFirst.search Hop.id (reachExpand g direction types maxHops) (fun _ => false)
    g.nodes.rows.length [⟨startId, 0⟩] [⟨startId, 0⟩] with
  | some (.ok best) => some best
  | _ => none

/-- The reached nodes other than the start, as rows, in their order. -/
def reachedRows (g : Graph) (startId : ℕ) (best : List Hop) : List ReachableNode :=
  (best.filterMap fun h =>
    if h.id = startId then none
    else (g.getNode h.id).map fun n => { hops := h.hops, node := n.searchRow }).insertionSort
      fun a b => a.key ≤ b.key

def reachableWithinAnyEdgeType (g : Graph) (startId : ℕ) (direction : ReachDirection)
    (edgeTypes : List String) (maxHops limit : ℕ) : Option (List ReachableNode) :=
  let maxHops := min maxHops maxReachHops
  let limit := min limit maxReachResults
  if maxHops = 0 ∨ limit = 0 ∨ edgeTypes = [] then some []
  else
    let types := trimmedTypes edgeTypes
    if types = [] then some []
    else if (g.getNode startId).isNone then some []
    else (bestHops g startId direction types maxHops).map fun best =>
      (reachedRows g startId best).take limit

/-- The nodes other than the start that a walk along `R` reaches within `bound` steps: each once, with
the length of a shortest walk, in the order of the query. -/
structure NearestFirst (g : Graph) (R : ℕ → ℕ → Prop) (startId bound : ℕ)
    (rows : List ReachableNode) : Prop where
  ordered : rows.Pairwise fun a b => a.key < b.key
  nodup : (rows.map fun r => r.node.id).Nodup
  mem_iff : ∀ r, r ∈ rows ↔ r.node.id ≠ startId ∧
    (∃ n, g.getNode r.node.id = some n ∧ r.node = n.searchRow) ∧
    1 ≤ r.hops ∧ r.hops ≤ bound ∧ Distance R startId r.node.id r.hops

/-! ### Types -/

theorem mem_trimmedTypes {edgeTypes : List String} {ty : String} :
    ty ∈ trimmedTypes edgeTypes ↔ ty ≠ "" ∧ ∃ t ∈ edgeTypes, trimType t = ty := by
  have hsorted := List.pairwise_insertionSort (· ≤ ·)
    ((edgeTypes.map trimType).filter fun ty => decide (ty ≠ ""))
  rw [trimmedTypes, hsorted.destutter_eq_dedup, List.mem_dedup,
    (List.perm_insertionSort _ _).mem_iff, List.mem_filter, List.mem_map, decide_eq_true_eq]
  exact and_comm

/-- An edge type that trimming leaves as it is, is the one traversed. -/
theorem trimmedTypes_singleton {edgeType : String} (htrim : trimType edgeType = edgeType) (hblank : edgeType ≠ "") :
    trimmedTypes [edgeType] = [edgeType] := by
  have hfilter : ([edgeType].map trimType).filter (fun ty => decide (ty ≠ "")) = [edgeType] := by
    rw [List.map_singleton, htrim, List.filter_cons_of_pos (by simpa using hblank)]
    rfl
  rw [trimmedTypes, hfilter]
  rfl

theorem mem_orderByEdgeId {g : Graph} {edges : List Edge} {e : Edge} :
    e ∈ orderByEdgeId g edges ↔ e ∈ edges :=
  (List.perm_insertionSort _ edges).mem_iff

/-! ### The search -/

section Search

variable {g : Graph} {startId : ℕ} {direction : ReachDirection} {types : List String} {maxHops : ℕ}

theorem mem_reachExpand {h x : Hop} : x ∈ reachExpand g direction types maxHops h ↔
    h.hops < maxHops ∧ x.hops = h.hops + 1 ∧ g.Fetched direction types reachFanout h.id x.id := by
  rw [reachExpand]
  split_ifs with hle
  · simp only [List.not_mem_nil, false_iff]
    omega
  · simp only [List.mem_map, mem_orderByEdgeId, List.mem_flatMap, Graph.Fetched]
    constructor
    · rintro ⟨e, ⟨ty, hty, he⟩, rfl⟩
      exact ⟨by omega, rfl, ty, hty, e, he, rfl⟩
    · rintro ⟨_, hx, ty, hty, e, he, hnext⟩
      refine ⟨e, ⟨ty, hty, he⟩, ?_⟩
      cases x
      simp_all

theorem reach_layered : BreadthFirst.Layered Hop.id (reachExpand g direction types maxHops) Hop.hops
    (g.Fetched direction types reachFanout) maxHops where
  step := fun hx => mem_reachExpand.1 hx
  all := fun {e b} hlt hR _ => ⟨⟨b, e.hops + 1⟩, mem_reachExpand.2 ⟨hlt, rfl, hR⟩, rfl⟩

variable (direction types maxHops) in
/-- What is in `best_hops` in the end: each node within the bound, at its distance. -/
theorem bestHops_spec (hstart : startId ∈ g.nodeIds) :
    ∃ best, bestHops g startId direction types maxHops = some best ∧ (best.map Hop.id).Nodup ∧
      (∀ h ∈ best, h.id ∈ g.nodeIds) ∧
      ∀ h, h ∈ best ↔ h.hops ≤ maxHops ∧
        Distance (g.Fetched direction types reachFanout) startId h.id h.hops := by
  have hin : ∀ h ∈ [(⟨startId, 0⟩ : Hop)], h.id ∈ g.nodeIds := by
    intro h hh
    rw [List.mem_singleton.1 hh]
    exact hstart
  obtain ⟨r, hr⟩ : ∃ r, BreadthFirst.search Hop.id (reachExpand g direction types maxHops)
      (fun _ => false) g.nodes.rows.length [⟨startId, 0⟩] [⟨startId, 0⟩] = some r :=
    BreadthFirst.search_isSome Hop.id
    (fun e x _ hx => Graph.mem_nodeIds_of_joined (Graph.joined_of_fetched (mem_reachExpand.1 hx).2.2))
    (by simp) hin (fun _ h => h) (by simp [Graph.nodeIds, Nat.add_comm])
  cases r with
  | error r =>
    obtain ⟨_, _, _, hstop, -⟩ := BreadthFirst.search_error reach_layered rfl hr
    cases hstop
  | ok best =>
    obtain ⟨hplaced, -, hdist⟩ := BreadthFirst.search_ok reach_layered rfl hr
    refine ⟨best, by rw [bestHops, hr], hplaced.nodup, fun h hh => ?_, fun h => ?_⟩
    · rcases hplaced.origin hh with rfl | ⟨d, -, hx⟩
      · exact hstart
      · exact Graph.mem_nodeIds_of_joined (Graph.joined_of_fetched (mem_reachExpand.1 hx).2.2)
    · rw [← hdist h.id h.hops]
      constructor
      · intro hh
        exact ⟨h, hh, rfl, rfl⟩
      · rintro ⟨e, he, hid, hhops⟩
        cases e
        cases h
        cases hid
        cases hhops
        exact he

end Search

/-! ### The result -/

section Rows

variable {g : Graph} {R : ℕ → ℕ → Prop} {startId bound : ℕ}

theorem mem_reachedRows {best : List Hop} {r : ReachableNode} : r ∈ reachedRows g startId best ↔
    r.node.id ≠ startId ∧ (∃ n, g.getNode r.node.id = some n ∧ r.node = n.searchRow) ∧
      ⟨r.node.id, r.hops⟩ ∈ best := by
  rw [reachedRows, (List.perm_insertionSort _ _).mem_iff, List.mem_filterMap]
  constructor
  · rintro ⟨h, hh, hrow⟩
    split_ifs at hrow with hid
    obtain ⟨n, hn, rfl⟩ := Option.map_eq_some_iff.1 hrow
    have hnode : n.searchRow.id = h.id := Graph.id_of_getNode hn
    rw [hnode]
    exact ⟨hid, ⟨n, hn, rfl⟩, hh⟩
  · rintro ⟨hid, ⟨n, hn, hrow⟩, hh⟩
    refine ⟨_, hh, ?_⟩
    rw [if_neg hid, hn, Option.map_some, ← hrow]

omit R bound startId in
theorem sublist_filterMap {α β κ : Type} {f : α → Option β} (key : α → κ) {key' : β → κ}
    (h : ∀ a b, f a = some b → key' b = key a) (l : List α) :
    ((l.filterMap f).map key').Sublist (l.map key) := by
  induction l with
  | nil => exact .slnil
  | cons a l ih =>
    cases hf : f a with
    | none =>
      rw [List.filterMap_cons_none hf]
      exact ih.cons _
    | some b =>
      rw [List.filterMap_cons_some hf, List.map_cons, List.map_cons, h a b hf]
      exact ih.cons_cons _

theorem nearestFirst_reachedRows {best : List Hop} (hnd : (best.map Hop.id).Nodup)
    (hbest : ∀ h, h ∈ best ↔ h.hops ≤ bound ∧ Distance R startId h.id h.hops) :
    NearestFirst g R startId bound (reachedRows g startId best) := by
  have hids : ((reachedRows g startId best).map fun r => r.node.id).Nodup := by
    refine ((List.perm_insertionSort _ _).map _).nodup_iff.2 (List.Sublist.nodup ?_ hnd)
    refine sublist_filterMap Hop.id (fun h r hr => ?_) best
    split_ifs at hr
    obtain ⟨n, hn, rfl⟩ := Option.map_eq_some_iff.1 hr
    exact Graph.id_of_getNode hn
  refine ⟨?_, hids, fun r => ?_⟩
  · -- sorted, and no two rows have one key
    have hsorted : (reachedRows g startId best).Pairwise fun a b => a.key ≤ b.key :=
      List.pairwise_insertionSort _ _
    have hne : (reachedRows g startId best).Pairwise fun a b => a.node.id ≠ b.node.id :=
      List.pairwise_map.1 hids
    refine hsorted.imp₂ (fun a b hle hne => lt_of_le_of_ne hle fun heq => hne ?_) hne
    have hkey := congrArg (fun k => (ofLex (ofLex k).2).2) heq
    exact hkey
  · rw [mem_reachedRows, hbest]
    constructor
    · rintro ⟨hid, hrow, hle, hdist⟩
      exact ⟨hid, hrow, hdist.pos (Ne.symm hid), hle, hdist⟩
    · rintro ⟨hid, hrow, -, hle, hdist⟩
      exact ⟨hid, hrow, hle, hdist⟩

theorem nearestFirst_nil (h : ∀ b n, 1 ≤ n → n ≤ bound → ¬ Distance R startId b n) :
    NearestFirst g R startId bound [] where
  ordered := List.Pairwise.nil
  nodup := List.nodup_nil
  mem_iff := by
    intro r
    constructor
    · intro hr
      cases hr
    · rintro ⟨-, -, hpos, hle, hdist⟩
      exact absurd hdist (h _ _ hpos hle)

end Rows

section Query

variable {g : Graph} {startId : ℕ} {direction : ReachDirection} {types edgeTypes : List String}
  {maxHops limit : ℕ}

variable (direction types maxHops) in
theorem exists_nearestFirst (hstart : startId ∈ g.nodeIds) : ∃ best,
    bestHops g startId direction types maxHops = some best ∧
      NearestFirst g (g.Fetched direction types reachFanout) startId maxHops
        (reachedRows g startId best) := by
  obtain ⟨best, hrun, hnd, -, hbest⟩ := bestHops_spec direction types maxHops hstart
  exact ⟨best, hrun, nearestFirst_reachedRows hnd hbest⟩

theorem not_distance_of_not_mem (hstart : startId ∉ g.nodeIds) {b n : ℕ} (hn : 1 ≤ n) :
    ¬ Distance (g.Fetched direction types reachFanout) startId b n := by
  intro h
  have hzero := h.1.eq_zero_of_stuck fun c hc =>
    hstart (Graph.mem_nodeIds_of_joined_left (Graph.joined_of_fetched hc))
  omega

/-- What the query returns, over the edges that its cap lets it see. -/
theorem reachable_nearestFirst (g : Graph) (startId : ℕ) (direction : ReachDirection)
    (edgeTypes : List String) (maxHops limit : ℕ) : ∃ rows,
    NearestFirst g (g.Fetched direction (trimmedTypes edgeTypes) reachFanout) startId
      (min maxHops maxReachHops) rows ∧
    reachableWithinAnyEdgeType g startId direction edgeTypes maxHops limit =
      some (rows.take (min limit maxReachResults)) := by
  rw [reachableWithinAnyEdgeType]
  by_cases htypes : trimmedTypes edgeTypes = []
  · -- no edges are followed
    refine ⟨[], nearestFirst_nil fun b n hn _ h => ?_, ?_⟩
    · have hzero := h.1.eq_zero_of_stuck fun c hc => by
        obtain ⟨ty, hty, -⟩ := hc
        rw [htypes] at hty
        cases hty
      omega
    · simp [htypes]
  · have hne : edgeTypes ≠ [] := by
      rintro rfl
      exact htypes rfl
    by_cases hstart : startId ∈ g.nodeIds
    · obtain ⟨best, hrun, hrows⟩ := exists_nearestFirst direction
        (trimmedTypes edgeTypes) (min maxHops maxReachHops) hstart
      by_cases hhops : min maxHops maxReachHops = 0
      · exact ⟨[], nearestFirst_nil fun b n hn hle _ => by omega, by simp [hhops]⟩
      · refine ⟨_, hrows, ?_⟩
        by_cases hlimit : min limit maxReachResults = 0
        · rw [if_pos (.inr (.inl hlimit)), hlimit, List.take_zero]
        · have hsome : (g.getNode startId).isNone = false := by
            rw [Option.isNone_eq_false_iff, Graph.getNode_isSome_iff]
            exact hstart
          rw [if_neg (by tauto), if_neg htypes, hsome, hrun]
          rfl
    · refine ⟨[], nearestFirst_nil fun b n hn _ => not_distance_of_not_mem hstart hn, ?_⟩
      have hnone : (g.getNode startId).isNone = true := by
        rw [Option.isNone_iff_eq_none, Graph.getNode_eq_none_iff]
        exact hstart
      simp [hnone]

/-- **Bounded reachability is exact**: where no node has more edges of a type than the cap, the query
lists the nodes at a distance between one and the bound, along edges of the types that are left after
trimming, in their order, as far as the limit goes. -/
theorem reachable_exact (g : Graph) (startId : ℕ) (direction : ReachDirection)
    (edgeTypes : List String) (maxHops limit : ℕ)
    (hcap : g.WithinCap direction (trimmedTypes edgeTypes) reachFanout) : ∃ rows,
    NearestFirst g (g.Joined direction ((edgeTypes.map trimType).filter fun ty => decide (ty ≠ "")))
      startId (min maxHops 32) rows ∧
    reachableWithinAnyEdgeType g startId direction edgeTypes maxHops limit =
      some (rows.take (min limit 10000)) := by
  have hR : g.Fetched direction (trimmedTypes edgeTypes) reachFanout =
      g.Joined direction ((edgeTypes.map trimType).filter fun ty => decide (ty ≠ "")) := by
    rw [Graph.fetched_eq_joined reachFanout (by decide) hcap]
    refine Graph.joined_congr fun ty => ?_
    rw [mem_trimmedTypes, List.mem_filter, List.mem_map, decide_eq_true_eq]
    exact and_comm
  have hrows := reachable_nearestFirst g startId direction edgeTypes maxHops limit
  rwa [hR] at hrows

def callsInRow : Graph := functionGraph ["a", "b", "c"] [(1, 2, "CALLS"), (2, 3, "CALLS")]

/-- What two calls in a row reach. -/
theorem reachable_exact_chain :
    (∃ rows, NearestFirst callsInRow (callsInRow.Joined .outgoing ((["CALLS "].map trimType).filter
        fun ty => decide (ty ≠ ""))) 1 (min 40 32) rows ∧
      reachableWithinAnyEdgeType callsInRow 1 .outgoing ["CALLS "] 40 10 = some (rows.take (min 10 10000))) ∧
    (reachableWithinAnyEdgeType callsInRow 1 .outgoing ["CALLS "] 40 10).map
      (fun rows => rows.map fun r => (r.node.id, r.hops)) = some [(2, 1), (3, 2)] :=
  ⟨reachable_exact _ 1 .outgoing ["CALLS "] 40 10 (Graph.withinCap_of_length_le (by decide +kernel)),
    by decide +kernel⟩

def blankEdge : Graph := functionGraph ["a", "b"] [(1, 2, "")]

/-- A stored edge of the empty type is one over which the trimmed types lead; it is not followed. -/
theorem reachable_blank_type :
    blankEdge.WithinCap .outgoing ([""].map trimType) reachFanout ∧
      ¬ ∃ rows, NearestFirst blankEdge (blankEdge.Joined .outgoing ([""].map trimType)) 1 (min 1 32) rows ∧
        reachableWithinAnyEdgeType blankEdge 1 .outgoing [""] 1 10 = some (rows.take (min 10 10000)) := by
  refine ⟨Graph.withinCap_of_length_le (by decide +kernel), ?_⟩
  rintro ⟨rows, hrows, hrun⟩
  have hnone : reachableWithinAnyEdgeType blankEdge 1 .outgoing [""] 1 10 = some [] := by
    decide +kernel
  rw [hnone, Option.some.injEq, eq_comm, List.take_eq_nil_iff] at hrun
  have hnil : rows = [] := by simpa using hrun
  let b : Node := ⟨⟨"p", "Function", "b", "b", "src/lib.rs", 1, 1, .null⟩, 2⟩
  have hb : (⟨1, b.searchRow⟩ : ReachableNode) ∈ rows := by
    refine (hrows.mem_iff _).2 ⟨by decide, ⟨b, by decide +kernel, rfl⟩, le_rfl, le_rfl, ?_⟩
    exact (Distance.one_iff (by decide)).2 (by decide +kernel)
  rw [hnil] at hb
  cases hb

end Query

end Greppy
