/-
**Nodes that share neighbours.**

`co_change_candidates` of `crates/search/src/graph.rs` looks two steps away from a seed: along the edges of
a type in one direction to the neighbours, and from each of them back against the direction to the nodes
that have it as a neighbour too.  Each of these is scored by the number of neighbours it shares with the
seed, however many edges there are.
-/

import Greppy.CallHierarchy
import Greppy.Neighbourhoods

set_option autoImplicit false

namespace Greppy

/-! ### The query -/

def ReachDirection.opposite : ReachDirection → ReachDirection
  | outgoing => incoming
  | incoming => outgoing

/-- `direct_neighbour_ids`: the nodes one step away, each once, without the node itself. -/
def directNeighbourIds (g : Graph) (nodeId : ℕ) (direction : ReachDirection) (edgeType : String) :
    List ℕ :=
  BreadthFirst.firsts id []
    (((g.edgesFrom direction nodeId (some edgeType) reachFanout).map direction.next).filter
      fun nid => decide (nid ≠ nodeId))

/-- `*shared_counts.entry(other).or_insert(0) += 1`. -/
def addShared (counts : List (ℕ × ℕ)) (other : ℕ) : List (ℕ × ℕ) :=
  if other ∈ counts.map Prod.fst then
    counts.map fun c => if c.1 = other then (c.1, c.2 + 1) else c
  else counts ++ [(other, 1)]

/-- `shared_counts`, when every neighbour of the seed has been looked at. -/
def sharedCounts (g : Graph) (seedId : ℕ) (direction : ReachDirection) (edgeType : String) :
    List (ℕ × ℕ) :=
  ((directNeighbourIds g seedId direction edgeType).flatMap fun m =>
    BreadthFirst.firsts id []
      ((directNeighbourIds g m direction.opposite edgeType).filter fun other =>
        decide (other ≠ seedId))).foldl addShared []

structure CoChangeCandidate where
  shared : ℕ
  node : SearchGraphRow
  deriving DecidableEq

/-- The order of the candidates: most shared neighbours first, then by qualified name and id. -/
def CoChangeCandidate.key (c : CoChangeCandidate) : ℕᵒᵈ ×ₗ String ×ₗ ℕ :=
  toLex (OrderDual.toDual c.shared, c.node.qnameKey)

/-- The candidates in their order, before the limit. -/
def coChangeRows (g : Graph) (seedId : ℕ) (direction : ReachDirection) (edgeType : String) :
    List CoChangeCandidate :=
  Ranking.ranked CoChangeCandidate.key
    ((sharedCounts g seedId direction edgeType).filterMap fun c =>
      (g.getNode c.1).map fun n => { shared := c.2, node := n.searchRow })

def coChangeCandidates (g : Graph) (seedId : ℕ) (direction : ReachDirection) (edgeType : String)
    (limit : ℕ) : List CoChangeCandidate :=
  let limit := min limit maxReachResults
  if limit = 0 then []
  else if (g.getNode seedId).isNone then []
  else (coChangeRows g seedId direction edgeType).take limit

/-! ### Shared neighbours -/

/-- The neighbours of a node in a direction, without itself. -/
def neighbourhood (g : Graph) (direction : ReachDirection) (edgeType : String) (a : ℕ) : Set ℕ :=
  {m | g.Joined direction [edgeType] a m ∧ m ≠ a}

/-- The nodes other than the seed that share neighbours with it: each once, with the number of shared
neighbours, in the order of the query. -/
structure SharedNeighbours (g : Graph) (direction : ReachDirection) (edgeType : String) (seedId : ℕ)
    (rows : List CoChangeCandidate) : Prop where
  ordered : rows.Pairwise fun a b => a.key < b.key
  nodup : (rows.map fun r => r.node.id).Nodup
  mem_iff : ∀ r, r ∈ rows ↔ r.node.id ≠ seedId ∧ r.node.Stored g ∧
    (neighbourhood g direction edgeType seedId ∩
      neighbourhood g direction edgeType r.node.id).Nonempty ∧
    r.shared = (neighbourhood g direction edgeType seedId ∩
      neighbourhood g direction edgeType r.node.id).ncard

/-! ### Counting -/

theorem keys_foldl_addShared (l : List ℕ) :
    ((l.foldl addShared []).map Prod.fst).Nodup ∧
      ∀ a, a ∈ (l.foldl addShared []).map Prod.fst ↔ a ∈ l := by
  induction l using List.reverseRecOn with
  | nil => simp
  | append_singleton l x ih =>
    obtain ⟨hnd, hmem⟩ := ih
    rw [List.foldl_append, List.foldl_cons, List.foldl_nil, addShared]
    by_cases hx : x ∈ (l.foldl addShared []).map Prod.fst
    · have hkeys : ((l.foldl addShared []).map fun c =>
          if c.1 = x then (c.1, c.2 + 1) else c).map Prod.fst =
            (l.foldl addShared []).map Prod.fst := by
        rw [List.map_map]
        refine List.map_congr_left fun c _ => ?_
        simp only [Function.comp_apply]
        split_ifs <;> rfl
      rw [if_pos hx, hkeys]
      refine ⟨hnd, fun a => ?_⟩
      rw [hmem, List.mem_append, List.mem_singleton]
      constructor
      · exact .inl
      · rintro (ha | rfl)
        · exact ha
        · exact (hmem _).1 hx
    · rw [if_neg hx, List.map_append, List.map_singleton, ← List.concat_eq_append]
      refine ⟨hnd.concat hx, fun a => ?_⟩
      rw [List.concat_eq_append, List.mem_append, hmem, List.mem_append]

/-- **Counting in a map counts occurrences.** -/
theorem mem_foldl_addShared (l : List ℕ) :
    ∀ a k, (a, k) ∈ l.foldl addShared [] ↔ a ∈ l ∧ k = l.count a := by
  induction l using List.reverseRecOn with
  | nil => simp
  | append_singleton l x ih =>
    intro a k
    have hkeys := (keys_foldl_addShared l).2
    rw [List.foldl_append, List.foldl_cons, List.foldl_nil, addShared, List.count_append,
      List.mem_append, List.mem_singleton, List.count_singleton]
    by_cases hx : x ∈ l
    · rw [if_pos ((hkeys x).2 hx), List.mem_map]
      constructor
      · rintro ⟨⟨b, j⟩, hc, heq⟩
        obtain ⟨hb, rfl⟩ := (ih b j).1 hc
        by_cases hbx : b = x
        · rw [if_pos hbx, Prod.mk.injEq] at heq
          obtain ⟨rfl, rfl⟩ := heq
          exact ⟨.inl hb, by simp [hbx]⟩
        · rw [if_neg hbx, Prod.mk.injEq] at heq
          obtain ⟨rfl, rfl⟩ := heq
          exact ⟨.inl hb, by simp [Ne.symm hbx]⟩
      · rintro ⟨ha, rfl⟩
        have hal : a ∈ l := by
          rcases ha with ha | rfl
          · exact ha
          · exact hx
        refine ⟨(a, l.count a), (ih a _).2 ⟨hal, rfl⟩, ?_⟩
        by_cases hax : a = x
        · simp [hax]
        · simp [hax, Ne.symm hax]
    · rw [if_neg (fun hmem => hx ((hkeys x).1 hmem)), List.mem_append, ih, List.mem_singleton,
        Prod.mk.injEq]
      constructor
      · rintro (⟨ha, rfl⟩ | ⟨rfl, rfl⟩)
        · have hax : x ≠ a := fun h => hx (h ▸ ha)
          exact ⟨.inl ha, by simp [hax]⟩
        · exact ⟨.inr rfl, by simp [List.count_eq_zero_of_not_mem hx]⟩
      · rintro ⟨ha | rfl, rfl⟩
        · have hax : x ≠ a := fun h => hx (h ▸ ha)
          exact .inl ⟨ha, by simp [hax]⟩
        · exact .inr ⟨rfl, by simp [List.count_eq_zero_of_not_mem hx]⟩

/-- What each round adds once or not at all is added as often as there are rounds that add it. -/
theorem count_flatMap_eq_countP {α : Type} {f : α → List ℕ} {p : α → Bool} {a : ℕ} {l : List α}
    (h : ∀ m ∈ l, (f m).count a = if p m then 1 else 0) : (l.flatMap f).count a = l.countP p := by
  induction l with
  | nil => rfl
  | cons m l ih =>
    have hm := h m List.mem_cons_self
    have hl := ih fun m' hm' => h m' (List.mem_cons_of_mem m hm')
    rw [List.flatMap_cons, List.count_append, List.countP_cons, hm, hl, Nat.add_comm]

/-! ### The score -/

section Score

variable {g : Graph} {d : ReachDirection} {ty : String} {seedId a b : ℕ}

@[simp] theorem ReachDirection.here_opposite : d.opposite.here = d.next := by
  cases d <;> rfl

@[simp] theorem ReachDirection.next_opposite : d.opposite.next = d.here := by
  cases d <;> rfl

theorem joined_opposite {types : List String} : g.Joined d.opposite types a b ↔ g.Joined d types b a := by
  simp only [Graph.Joined, ReachDirection.here_opposite, ReachDirection.next_opposite]
  constructor
  · rintro ⟨e, he, hty, hh, hn⟩
    exact ⟨e, he, hty, hn, hh⟩
  · rintro ⟨e, he, hty, hn, hh⟩
    exact ⟨e, he, hty, hh, hn⟩

/-- The fan-out is capped at `REACH_FANOUT`; under the cap the neighbours are those there are. -/
theorem mem_directNeighbourIds (hcap : g.WithinCap d [ty] reachFanout) :
    b ∈ directNeighbourIds g a d ty ↔ b ∈ neighbourhood g d ty a := by
  have hfetched : b ∈ (g.edgesFrom d a (some ty) reachFanout).map d.next ↔ g.Joined d [ty] a b := by
    rw [← Graph.fetched_iff_joined (by decide) hcap]
    simp [Graph.Fetched]
  rw [directNeighbourIds, BreadthFirst.mem_firsts_iff Function.injective_id, List.mem_filter, hfetched,
    decide_eq_true_eq]
  rfl

theorem nodup_firsts_id (l : List ℕ) : (BreadthFirst.firsts id [] l).Nodup := by
  have h : ((BreadthFirst.firsts id [] l).map id).Nodup := BreadthFirst.nodup_firsts [] l
  rwa [List.map_id] at h

theorem nodup_directNeighbourIds : (directNeighbourIds g a d ty).Nodup := nodup_firsts_id _

theorem mem_coNeighbours (hcap : g.WithinCap d.opposite [ty] reachFanout) {m : ℕ} :
    a ∈ BreadthFirst.firsts id [] ((directNeighbourIds g m d.opposite ty).filter fun other =>
      decide (other ≠ seedId)) ↔ m ∈ neighbourhood g d ty a ∧ a ≠ seedId := by
  rw [BreadthFirst.mem_firsts_iff Function.injective_id, List.mem_filter, mem_directNeighbourIds hcap,
    decide_eq_true_eq]
  simp only [neighbourhood, Set.mem_ofPred_eq, joined_opposite, ne_comm]

theorem count_shared (hcap : ∀ d', g.WithinCap d' [ty] reachFanout) (ha : a ≠ seedId) :
    ((directNeighbourIds g seedId d ty).flatMap fun m =>
      BreadthFirst.firsts id [] ((directNeighbourIds g m d.opposite ty).filter fun other =>
        decide (other ≠ seedId))).count a =
      (neighbourhood g d ty seedId ∩ neighbourhood g d ty a).ncard := by
  classical
  have hset : neighbourhood g d ty seedId ∩ neighbourhood g d ty a =
      (((directNeighbourIds g seedId d ty).filter fun m =>
        decide (m ∈ neighbourhood g d ty a)).toFinset : Set ℕ) := by
    ext m
    simp [mem_directNeighbourIds (hcap d)]
  have hround : ∀ m ∈ directNeighbourIds g seedId d ty,
      (BreadthFirst.firsts id [] ((directNeighbourIds g m d.opposite ty).filter fun other =>
        decide (other ≠ seedId))).count a =
          if decide (m ∈ neighbourhood g d ty a) then 1 else 0 := by
    intro m _
    rw [(nodup_firsts_id _).count]
    refine if_congr ?_ rfl rfl
    rw [mem_coNeighbours (hcap _), decide_eq_true_eq]
    exact and_iff_left ha
  rw [count_flatMap_eq_countP hround, hset, Set.ncard_coe_finset,
    List.toFinset_card_of_nodup (nodup_directNeighbourIds.filter _), List.countP_eq_length_filter]

/-- A node is counted when it shares a neighbour with the seed, with the number of these. -/
theorem mem_sharedCounts (hcap : ∀ d', g.WithinCap d' [ty] reachFanout) {k : ℕ} :
    (a, k) ∈ sharedCounts g seedId d ty ↔ a ≠ seedId ∧
      (neighbourhood g d ty seedId ∩ neighbourhood g d ty a).Nonempty ∧
      k = (neighbourhood g d ty seedId ∩ neighbourhood g d ty a).ncard := by
  rw [sharedCounts, mem_foldl_addShared, List.mem_flatMap]
  simp only [mem_directNeighbourIds (hcap d), mem_coNeighbours (hcap d.opposite)]
  constructor
  · rintro ⟨⟨m, hm, hma, ha⟩, rfl⟩
    exact ⟨ha, ⟨m, hm, hma⟩, count_shared hcap ha⟩
  · rintro ⟨ha, ⟨m, hm, hma⟩, rfl⟩
    exact ⟨⟨m, hm, hma, ha⟩, (count_shared hcap ha).symm⟩

theorem nodup_sharedCounts : ((sharedCounts g seedId d ty).map Prod.fst).Nodup :=
  (keys_foldl_addShared _).1

theorem mem_coChangeRows {r : CoChangeCandidate} : r ∈ coChangeRows g seedId d ty ↔
    r.node.Stored g ∧ (r.node.id, r.shared) ∈ sharedCounts g seedId d ty := by
  rw [coChangeRows, Ranking.mem_ranked, List.mem_filterMap]
  constructor
  · rintro ⟨⟨a, k⟩, hc, hr⟩
    obtain ⟨n, hn, rfl⟩ := Option.map_eq_some_iff.1 hr
    obtain rfl := Graph.id_of_getNode hn
    exact ⟨⟨n, hn, rfl⟩, hc⟩
  · rintro ⟨⟨n, hn, hrow⟩, hc⟩
    refine ⟨_, hc, Option.map_eq_some_iff.2 ⟨n, hn, ?_⟩⟩
    rw [← hrow]

/-- The candidates, as far as the edges that are fetched show them. -/
theorem mem_map_id_coChangeRows {x : ℕ} : x ∈ (coChangeRows g seedId d ty).map (fun r => r.node.id) ↔
    x ∈ g.nodeIds ∧ ∃ m ∈ directNeighbourIds g seedId d ty,
      x ∈ directNeighbourIds g m d.opposite ty ∧ x ≠ seedId := by
  have hadded : (∃ k, (x, k) ∈ sharedCounts g seedId d ty) ↔ ∃ m ∈ directNeighbourIds g seedId d ty,
      x ∈ directNeighbourIds g m d.opposite ty ∧ x ≠ seedId := by
    simp only [sharedCounts, mem_foldl_addShared, List.mem_flatMap,
      BreadthFirst.mem_firsts_iff Function.injective_id, List.mem_filter, decide_eq_true_eq,
      exists_and_left, exists_eq, and_true]
  rw [← hadded, List.mem_map]
  constructor
  · rintro ⟨r, hr, rfl⟩
    obtain ⟨⟨n, hn, -⟩, hc⟩ := mem_coChangeRows.1 hr
    exact ⟨Graph.getNode_isSome_iff.1 (Option.isSome_iff_exists.2 ⟨n, hn⟩), _, hc⟩
  · rintro ⟨hx, k, hk⟩
    obtain ⟨n, hn⟩ := Option.isSome_iff_exists.1 (Graph.getNode_isSome_iff.2 hx)
    have hid : n.searchRow.id = x := Graph.id_of_getNode hn
    exact ⟨⟨k, n.searchRow⟩, mem_coChangeRows.2 ⟨⟨n, hid.symm ▸ hn, rfl⟩, hid.symm ▸ hk⟩, hid⟩

theorem nodup_map_id_coChangeRows : ((coChangeRows g seedId d ty).map fun r => r.node.id).Nodup := by
  refine ((Ranking.perm_ranked _ _).map _).nodup_iff.2
    (List.Sublist.nodup (sublist_filterMap Prod.fst (fun c r hr => ?_) _) nodup_sharedCounts)
  obtain ⟨n, hn, rfl⟩ := Option.map_eq_some_iff.1 hr
  exact Graph.id_of_getNode hn

theorem strict_coChangeRows : (coChangeRows g seedId d ty).Pairwise fun a b => a.key < b.key := by
  have hne : (coChangeRows g seedId d ty).Pairwise fun a b => a.node.id ≠ b.node.id :=
    List.pairwise_map.1 nodup_map_id_coChangeRows
  refine (Ranking.pairwise_ranked _ _).imp₂ (fun a b hle hne => lt_of_le_of_ne hle fun heq => hne ?_) hne
  exact congrArg (fun k => (ofLex (ofLex k).2).2) heq

/-- **The score is the number of shared neighbours.** -/
theorem coChangeRows_shared (hcap : ∀ d', g.WithinCap d' [ty] reachFanout) :
    SharedNeighbours g d ty seedId (coChangeRows g seedId d ty) where
  ordered := strict_coChangeRows
  nodup := nodup_map_id_coChangeRows
  mem_iff := fun r => by
    rw [mem_coChangeRows, mem_sharedCounts hcap]
    exact and_left_comm

theorem coChangeRows_eq_nil (hcap : ∀ d', g.WithinCap d' [ty] reachFanout) (hseed : seedId ∉ g.nodeIds) :
    coChangeRows g seedId d ty = [] := by
  rw [List.eq_nil_iff_forall_not_mem]
  intro r hr
  obtain ⟨-, -, ⟨m, hm, -⟩, -⟩ := ((coChangeRows_shared hcap).mem_iff r).1 hr
  exact hseed (Graph.mem_nodeIds_of_joined_left hm.1)

theorem SharedNeighbours.symm {rows rows' : List CoChangeCandidate} {x : ℕ}
    (h : SharedNeighbours g d ty seedId rows) (h' : SharedNeighbours g d ty x rows') {k : ℕ}
    (hr : ∃ r ∈ rows, r.node.id = x ∧ r.shared = k) :
    ∃ r ∈ rows', r.node.id = seedId ∧ r.shared = k := by
  obtain ⟨r, hr, rfl, rfl⟩ := hr
  obtain ⟨hne, -, hshared, hk⟩ := (h.mem_iff r).1 hr
  obtain ⟨m, hm, -⟩ := id hshared
  obtain ⟨n, hn⟩ := Option.isSome_iff_exists.1
    (Graph.getNode_isSome_iff.2 (Graph.mem_nodeIds_of_joined_left hm.1))
  have hid : n.searchRow.id = seedId := Graph.id_of_getNode hn
  refine ⟨⟨r.shared, n.searchRow⟩, (h'.mem_iff _).2 ?_, hid, rfl⟩
  rw [hid, Set.inter_comm]
  exact ⟨hne.symm, ⟨n, hid ▸ hn, rfl⟩, hshared, hk⟩

end Score

/-- **The candidates are the nodes with shared neighbours, and being one is symmetric.**  Neighbours are
those in the direction of the query, and no node may have more of them than are fetched. -/
theorem coChange_exact (g : Graph) (direction : ReachDirection) (edgeType : String)
    (hcap : ∀ d, g.WithinCap d [edgeType] 4096) :
    ∃ rows : ℕ → List CoChangeCandidate,
      (∀ seedId, SharedNeighbours g direction edgeType seedId (rows seedId)) ∧
      (∀ seedId limit, coChangeCandidates g seedId direction edgeType limit =
        (rows seedId).take (min limit 10000)) ∧
      ∀ seedId x k, (∃ r ∈ rows seedId, r.node.id = x ∧ r.shared = k) ↔
        ∃ r ∈ rows x, r.node.id = seedId ∧ r.shared = k := by
  have hrows : ∀ seedId, SharedNeighbours g direction edgeType seedId
      (coChangeRows g seedId direction edgeType) := fun seedId => coChangeRows_shared hcap
  refine ⟨fun seedId => coChangeRows g seedId direction edgeType, hrows, fun seedId limit => ?_,
    fun seedId x k => ⟨(hrows seedId).symm (hrows x), (hrows x).symm (hrows seedId)⟩⟩
  rw [coChangeCandidates]
  split_ifs with hzero hseed
  · have hlimit : min limit 10000 = 0 := hzero
    rw [hlimit, List.take_zero]
  · rw [Option.isNone_iff_eq_none, Graph.getNode_eq_none_iff] at hseed
    simp only [coChangeRows_eq_nil hcap hseed, List.take_nil]
  · rfl

/-- Two functions that call the same two, one of them twice over. -/
def sharedCallees : Graph :=
  functionGraph ["a", "b", "c", "d"]
    [(1, 3, "CALLS"), (1, 4, "CALLS"), (2, 3, "CALLS"), (2, 4, "CALLS"), (2, 2, "CALLS")]

theorem coChange_exact_callees :
    (∃ rows : ℕ → List CoChangeCandidate,
      (∀ seedId, SharedNeighbours sharedCallees .outgoing "CALLS" seedId (rows seedId)) ∧
      (∀ seedId limit, coChangeCandidates sharedCallees seedId .outgoing "CALLS" limit =
        (rows seedId).take (min limit 10000)) ∧
      ∀ seedId x k, (∃ r ∈ rows seedId, r.node.id = x ∧ r.shared = k) ↔
        ∃ r ∈ rows x, r.node.id = seedId ∧ r.shared = k) ∧
    (coChangeCandidates sharedCallees 1 .outgoing "CALLS" 5).map (fun r => (r.node.id, r.shared)) =
      [(2, 2)] :=
  ⟨coChange_exact sharedCallees .outgoing "CALLS"
    (fun _ => Graph.withinCap_of_length_le (by decide +kernel)), by decide +kernel⟩

def callRelay : Graph := functionGraph ["a", "b", "c"] [(1, 2, "CALLS"), (2, 3, "CALLS")]

theorem mem_directNeighbourIds_hub {n b : ℕ} :
    b ∈ directNeighbourIds (hub n) 1 .outgoing "CALLS" ↔ ∃ i < min reachFanout n, b = i + 2 := by
  rw [directNeighbourIds, BreadthFirst.mem_firsts_iff Function.injective_id,
    edgesFrom_hub n (by decide)]
  simp only [List.mem_filter, List.mem_map, List.mem_range, exists_exists_and_eq_and,
    ReachDirection.next, decide_eq_true_eq]
  constructor
  · rintro ⟨⟨i, hi, rfl⟩, -⟩
    exact ⟨i, hi, rfl⟩
  · rintro ⟨i, hi, rfl⟩
    exact ⟨⟨i, hi, rfl⟩, by omega⟩

theorem mem_directNeighbourIds_called {n i b : ℕ} (h : i < n) :
    b ∈ directNeighbourIds (hub n) (i + 2) .incoming "CALLS" ↔ b = 1 := by
  have hcap : (hub n).WithinCap .incoming ["CALLS"] reachFanout := by
    intro a ty _
    have hone : (hub n).edges.rows.filter (fun e => decide
        (ReachDirection.here .incoming e = a ∧ e.edgeType = ty)) ⊆ [⟨"p", 1, a, "CALLS", .null⟩] := by
      intro e he
      obtain ⟨he, hhere⟩ := List.mem_filter.1 he
      obtain ⟨j, -, rfl⟩ := List.mem_map.1 he
      obtain ⟨rfl, -⟩ := of_decide_eq_true hhere
      exact List.mem_singleton_self _
    have hle := (List.subperm_of_subset ((hub n).edges.keys_nodup.of_map.filter _) hone).length_le
    exact hle.trans (Nat.le_add_left 1 4095)
  rw [mem_directNeighbourIds hcap]
  constructor
  · rintro ⟨⟨e, he, -, -, rfl⟩, -⟩
    obtain ⟨j, -, rfl⟩ := List.mem_map.1 he
    rfl
  · rintro rfl
    exact ⟨⟨_, mem_edges_hub h, List.mem_singleton_self _, rfl, rfl⟩, by omega⟩

/-- The ends of a chain have its middle as a neighbour, one along its edge and one against it; in neither
direction do they share it.  And of the functions that a hub calls, one beyond the cap is no candidate of
one within it, but the other way round it is. -/
theorem coChange_directed_capped :
    (callRelay.Linked ["CALLS"] 1 2 ∧ callRelay.Linked ["CALLS"] 3 2 ∧
      ∀ d, coChangeCandidates callRelay 1 d "CALLS" 5 = []) ∧
    4098 ∉ (coChangeRows (hub 4097) 2 .incoming "CALLS").map (fun r => r.node.id) ∧
    2 ∈ (coChangeRows (hub 4097) 4098 .incoming "CALLS").map fun r => r.node.id := by
  refine ⟨⟨.inl (by decide +kernel), .inr (by decide +kernel), fun d => ?_⟩, fun h => ?_, ?_⟩
  · cases d <;> decide +kernel
  · obtain ⟨-, m, hm, hout, -⟩ := mem_map_id_coChangeRows.1 h
    obtain rfl := (mem_directNeighbourIds_called (i := 0) (by omega)).1 hm
    obtain ⟨i, hi, heq⟩ := mem_directNeighbourIds_hub.1 hout
    have hlt : i < 4096 := hi.trans_le (min_le_left _ _)
    omega
  · refine mem_map_id_coChangeRows.2 ⟨?_, 1, (mem_directNeighbourIds_called (i := 4096) (by omega)).2 rfl,
      mem_directNeighbourIds_hub.2 ⟨0, by decide, rfl⟩, by omega⟩
    exact Graph.next_mem_nodeIds (d := .outgoing) (mem_edges_hub (n := 4097) (i := 0) (by omega))

end Greppy
