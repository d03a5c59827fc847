/-
**Shortest paths.**

`path_query` of `crates/search/src/graph.rs` answers whether one node leads to another, and how.  It
searches breadth first like `Greppy.Reachable`, records for each node where it was first come to from,
stops as soon as the goal has a record, and walks the records back to the start.

Unlike the reachability query it takes one edge type, and takes it as it is: it does not trim it.  And it
has an answer of its own where start and goal are one node, which the other never lists.
-/

import Greppy.Reachable

set_option autoImplicit false

namespace Greppy

structure GraphPath where
  nodes : List ℕ
  rows : List SearchGraphRow
  hops : ℕ
  deriving DecidableEq

/-- What `seen_hops` and `pred` record of a node; only the start has no predecessor. -/
structure PathEntry where
  id : ℕ
  hops : ℕ
  pred : Option ℕ
  deriving DecidableEq

/-- What the traversal comes to from an entry of the queue. -/
def pathExpand (g : Graph) (direction : ReachDirection) (edgeType : String) (maxHops : ℕ)
    (h : PathEntry) : List PathEntry :=
  if maxHops ≤ h.hops then []
  else
    (g.edgesFrom direction h.id (some edgeType) reachFanout).map fun e =>
      { id := direction.next e, hops := h.hops + 1, pred := some h.id }

/-- `pred.get`. -/
def predOf (seen : List PathEntry) (id : ℕ) : Option ℕ :=
  (seen.find? fun e => decide (e.id = id)).bind PathEntry.pred

/-- Walks the predecessors back from `cur`, at most `fuel` of them. -/
def walkBack (seen : List PathEntry) (fromId : ℕ) : ℕ → ℕ → List ℕ → Option (List ℕ)
  | 0, _, _ => none
  | fuel + 1, cur, chain =>
    match predOf seen cur with
    | none => some chain
    | some p =>
      if p = fromId then some (chain ++ [p]) else walkBack seen fromId fuel p (chain ++ [p])

/-- `path_query`; the chain of predecessors is no longer than the bound of hops. -/
def pathQuery (g : Graph) (fromId toId : ℕ) (direction : ReachDirection) (edgeType : String)
    (maxHops : ℕ) : Option (Option GraphPath) :=
  let maxHops := min maxHops maxReachHops
  if (g.getNode fromId).isNone ∨ (g.getNode toId).isNone then some none
  else if fromId = toId then
    some (some
      { nodes := [fromId], rows := (g.getNode fromId).toList.map Node.searchRow, hops := 0 })
  else if maxHops = 0 then some none
  else
    match BreadthFirst.search PathEntry.id (pathExpand g direction edgeType maxHops)
        (fun e => decide (e.id = toId)) g.nodes.rows.length [⟨fromId, 0, none⟩] [⟨fromId, 0, none⟩] with
    | none => none
    | some (.ok _) => some none
    | some (.error seen) =>
      (walkBack seen fromId maxHops toId [toId]).map fun chain => some
        { nodes := chain.reverse
          rows := chain.reverse.filterMap fun id => (g.getNode id).map Node.searchRow
          hops := chain.length - 1 }

/-- A shortest path along `R`, with the rows of its nodes. -/
structure ShortestPath (g : Graph) (R : ℕ → ℕ → Prop) (fromId toId : ℕ) (p : GraphPath) : Prop where
  first : p.nodes.head? = some fromId
  last : p.nodes.getLast? = some toId
  nodup : p.nodes.Nodup
  joined : p.nodes.IsChain R
  length : p.nodes.length = p.hops + 1
  shortest : Distance R fromId toId p.hops
  rows : p.rows.map some = p.nodes.map fun id => (g.getNode id).map Node.searchRow

/-! ### The records -/

section Records

variable {g : Graph} {direction : ReachDirection} {edgeType : String} {maxHops : ℕ} {fromId : ℕ}
  {seen : List PathEntry}

theorem mem_pathExpand {h x : PathEntry} : x ∈ pathExpand g direction edgeType maxHops h ↔
    h.hops < maxHops ∧ x.hops = h.hops + 1 ∧ x.pred = some h.id ∧
      g.Fetched direction [edgeType] reachFanout h.id x.id := by
  rw [pathExpand]
  split_ifs with hle
  · simp only [List.not_mem_nil, false_iff]
    omega
  · simp only [List.mem_map, Graph.Fetched, List.mem_singleton, exists_eq_left]
    constructor
    · rintro ⟨e, he, rfl⟩
      exact ⟨by omega, rfl, rfl, e, he, rfl⟩
    · rintro ⟨_, hx, hp, e, he, hnext⟩
      refine ⟨e, he, ?_⟩
      cases x
      simp_all

theorem path_layered : BreadthFirst.Layered PathEntry.id (pathExpand g direction edgeType maxHops)
    PathEntry.hops (g.Fetched direction [edgeType] reachFanout) maxHops where
  step := fun hx => by
    obtain ⟨hlt, hhops, -, hR⟩ := mem_pathExpand.1 hx
    exact ⟨hlt, hhops, hR⟩
  all := fun {e b} hlt hR _ =>
    ⟨⟨b, e.hops + 1, some e.id⟩, mem_pathExpand.2 ⟨hlt, rfl, rfl, hR⟩, rfl⟩

theorem predOf_of_mem (hnd : (seen.map PathEntry.id).Nodup) {x : PathEntry} (hx : x ∈ seen) :
    predOf seen x.id = x.pred := by
  have hfind : (seen.find? fun e => decide (e.id = x.id)) = some x := by
    cases hf : seen.find? fun e => decide (e.id = x.id) with
    | none =>
      have hne := List.find?_eq_none.1 hf x hx
      simp at hne
    | some y =>
      have hid : y.id = x.id := by simpa using List.find?_some hf
      rw [List.inj_on_of_nodup_map hnd (List.mem_of_find?_eq_some hf) hx hid]
  rw [predOf, hfind]
  rfl

theorem walkBack_spec (hplaced : BreadthFirst.Placed PathEntry.id
      (pathExpand g direction edgeType maxHops) PathEntry.hops
      (g.Fetched direction [edgeType] reachFanout) maxHops ⟨fromId, 0, none⟩ seen)
    {fuel : ℕ} {x : PathEntry} (hx : x ∈ seen) (hpos : 0 < x.hops) (hfuel : x.hops ≤ fuel)
    (chain : List ℕ) : ∃ back, walkBack seen fromId fuel x.id chain = some (chain ++ back) ∧
      back.length = x.hops ∧ back.getLast? = some fromId ∧
      (x.id :: back).IsChain (fun a b => g.Fetched direction [edgeType] reachFanout b a) ∧
      (x.id :: back).Nodup ∧ ∀ b ∈ back, ∃ e ∈ seen, e.id = b ∧ e.hops < x.hops := by
  induction fuel generalizing x chain with
  | zero => omega
  | succ fuel ih =>
    obtain ⟨d, hd, hxd⟩ : ∃ d ∈ seen, x ∈ pathExpand g direction edgeType maxHops d := by
      rcases hplaced.origin hx with rfl | hd
      · cases hpos
      · exact hd
    obtain ⟨-, hhops, hpred, hR⟩ := mem_pathExpand.1 hxd
    rw [walkBack, predOf_of_mem hplaced.nodup hx, hpred]
    have hne : ∀ e ∈ seen, e.hops < x.hops → e.id ≠ x.id := by
      intro e he hlt heq
      rw [List.inj_on_of_nodup_map hplaced.nodup he hx heq] at hlt
      exact lt_irrefl _ hlt
    by_cases hfrom : d.id = fromId
    · -- the start has been reached
      have hdzero : d.hops = 0 := by
        rw [List.inj_on_of_nodup_map hplaced.nodup hd hplaced.start hfrom]
      refine ⟨[d.id], by simp [hfrom], by simp [hhops, hdzero], by simp [hfrom], ?_, ?_, ?_⟩
      · exact List.isChain_pair.2 hR
      · have hdx := hne d hd (by omega)
        simpa using hdx.symm
      · intro b hb
        rw [List.mem_singleton.1 hb]
        exact ⟨d, hd, rfl, by omega⟩
    · have hdpos : 0 < d.hops := by
        rcases hplaced.origin hd with rfl | ⟨c, -, hdc⟩
        · exact absurd rfl hfrom
        · have hdc' := (mem_pathExpand.1 hdc).2.1
          omega
      obtain ⟨back, hrun, hlen, hlast, hchain, hnd, hlow⟩ := ih hd hdpos (by omega) (chain ++ [d.id])
      refine ⟨d.id :: back, ?_, ?_, ?_, ?_, ?_, ?_⟩
      · simp only [if_neg hfrom, hrun]
        simp
      · rw [List.length_cons, hlen, hhops]
      · rw [List.getLast?_cons, hlast]
        rfl
      · exact List.isChain_cons_cons.2 ⟨hR, hchain⟩
      · refine List.nodup_cons.2 ⟨fun hin => ?_, hnd⟩
        rcases List.mem_cons.1 hin with heq | hin
        · exact hne d hd (by omega) heq.symm
        · obtain ⟨e, he, hid, hlt⟩ := hlow _ hin
          exact hne e he (by omega) hid
      · intro b hb
        rcases List.mem_cons.1 hb with rfl | hb
        · exact ⟨d, hd, rfl, by omega⟩
        · obtain ⟨e, he, hid, hlt⟩ := hlow b hb
          exact ⟨e, he, hid, by omega⟩

end Records

/-! ### The query -/

section Query

variable {g : Graph} {R : ℕ → ℕ → Prop} {fromId toId bound : ℕ} {direction : ReachDirection}
  {edgeType : String} {maxHops limit : ℕ}

theorem map_some_rows {ids : List ℕ} (h : ∀ id ∈ ids, id ∈ g.nodeIds) :
    (ids.filterMap fun id => (g.getNode id).map Node.searchRow).map some =
      ids.map fun id => (g.getNode id).map Node.searchRow := by
  induction ids with
  | nil => rfl
  | cons id ids ih =>
    have hsome : (g.getNode id).isSome := Graph.getNode_isSome_iff.2 (h id List.mem_cons_self)
    obtain ⟨n, hn⟩ := Option.isSome_iff_exists.1 hsome
    rw [List.filterMap_cons_some (by rw [hn]; rfl), List.map_cons, List.map_cons, hn,
      ih fun i hi => h i (List.mem_cons_of_mem _ hi)]
    rfl

theorem shortestPath_self (hin : fromId ∈ g.nodeIds) : ShortestPath g R fromId fromId
    { nodes := [fromId], rows := (g.getNode fromId).toList.map Node.searchRow, hops := 0 } where
  first := rfl
  last := rfl
  nodup := List.nodup_singleton _
  joined := List.isChain_singleton _
  length := rfl
  shortest := Distance.zero_iff.2 rfl
  rows := by
    obtain ⟨n, hn⟩ := Option.isSome_iff_exists.1 (Graph.getNode_isSome_iff.2 hin)
    simp [hn]

theorem shortestPath_of_error {fuel : ℕ} {seen : List PathEntry} (hne : fromId ≠ toId)
    (hstart : fromId ∈ g.nodeIds)
    (hrun : BreadthFirst.search PathEntry.id (pathExpand g direction edgeType maxHops)
      (fun e => decide (e.id = toId)) fuel [⟨fromId, 0, none⟩] [⟨fromId, 0, none⟩] =
        some (.error seen)) :
    ∃ chain, walkBack seen fromId maxHops toId [toId] = some chain ∧ chain.length - 1 ≤ maxHops ∧
      ShortestPath g (g.Fetched direction [edgeType] reachFanout) fromId toId
        { nodes := chain.reverse
          rows := chain.reverse.filterMap fun id => (g.getNode id).map Node.searchRow
          hops := chain.length - 1 } := by
  obtain ⟨init, x, rfl, hstop, hplaced, hle, hdist⟩ :=
    BreadthFirst.search_error path_layered rfl hrun
  obtain rfl : x.id = toId := of_decide_eq_true hstop
  have hx : x ∈ init ++ [x] := List.mem_append_right _ (List.mem_singleton_self x)
  obtain ⟨back, hback, hlen, hlast, hchain, hnd, hlow⟩ :=
    walkBack_spec hplaced hx (hdist.pos hne) hle [x.id]
  have hids : ∀ e ∈ init ++ [x], e.id ∈ g.nodeIds := by
    intro e he
    rcases hplaced.origin he with rfl | ⟨d, -, hd⟩
    · exact hstart
    · exact Graph.mem_nodeIds_of_joined (Graph.joined_of_fetched (mem_pathExpand.1 hd).2.2.2)
  have hstored : ∀ b ∈ (x.id :: back).reverse, b ∈ g.nodeIds := by
    intro b hb
    rcases List.mem_cons.1 (List.mem_reverse.1 hb) with rfl | hb
    · exact hids x hx
    · obtain ⟨e, he, rfl, -⟩ := hlow b hb
      exact hids e he
  have hlen' : (x.id :: back).length - 1 = x.hops := by rw [List.length_cons, hlen]; rfl
  refine ⟨x.id :: back, by simpa using hback, by omega, ?_⟩
  constructor
  · rw [List.head?_reverse, List.getLast?_cons, hlast]
    rfl
  · rw [List.getLast?_reverse]
    rfl
  · exact List.nodup_reverse.2 hnd
  · exact List.isChain_reverse.2 hchain
  · dsimp only
    rw [List.length_reverse, List.length_cons]
    rfl
  · dsimp only
    rw [hlen']
    exact hdist
  · exact map_some_rows hstored

/-- What the query returns, over the edges that its cap lets it see. -/
theorem pathQuery_fetched (g : Graph) (fromId toId : ℕ) (direction : ReachDirection)
    (edgeType : String) (maxHops : ℕ) :
    ∃ result, pathQuery g fromId toId direction edgeType maxHops = some result ∧
      (result.isSome ↔ fromId ∈ g.nodeIds ∧ toId ∈ g.nodeIds ∧ ∃ n ≤ min maxHops maxReachHops,
        Distance (g.Fetched direction [edgeType] reachFanout) fromId toId n) ∧
      ∀ p, result = some p →
        ShortestPath g (g.Fetched direction [edgeType] reachFanout) fromId toId p := by
  rw [pathQuery]
  by_cases hnone : (g.getNode fromId).isNone ∨ (g.getNode toId).isNone
  · refine ⟨none, by rw [if_pos hnone], ?_, fun p hp => by cases hp⟩
    rw [Option.isNone_iff_eq_none, Option.isNone_iff_eq_none, Graph.getNode_eq_none_iff,
      Graph.getNode_eq_none_iff] at hnone
    simp only [Option.isSome_none, Bool.false_eq_true, false_iff]
    tauto
  · rw [if_neg hnone]
    rw [Option.isNone_iff_eq_none, Option.isNone_iff_eq_none, Graph.getNode_eq_none_iff,
      Graph.getNode_eq_none_iff, not_or, not_not, not_not] at hnone
    obtain ⟨hfrom, hto⟩ := hnone
    by_cases heq : fromId = toId
    · subst heq
      refine ⟨_, by rw [if_pos rfl], ?_, ?_⟩
      · simp only [Option.isSome_some, true_iff]
        exact ⟨hfrom, hfrom, 0, Nat.zero_le _, Distance.zero_iff.2 rfl⟩
      · rintro p ⟨⟩
        exact shortestPath_self hfrom
    · rw [if_neg heq]
      by_cases hzero : min maxHops maxReachHops = 0
      · refine ⟨none, by rw [if_pos hzero], ?_, fun p hp => by cases hp⟩
        simp only [Option.isSome_none, Bool.false_eq_true, false_iff]
        rintro ⟨-, -, n, hle, hdist⟩
        have hpos := hdist.pos heq
        omega
      · rw [if_neg hzero]
        have hmem : ∀ e ∈ [(⟨fromId, 0, none⟩ : PathEntry)], e.id ∈ g.nodeIds := by
          intro e he
          rw [List.mem_singleton.1 he]
          exact hfrom
        obtain ⟨r, hr⟩ : ∃ r, BreadthFirst.search PathEntry.id
            (pathExpand g direction edgeType (min maxHops maxReachHops))
            (fun e => decide (e.id = toId)) g.nodes.rows.length [⟨fromId, 0, none⟩]
            [⟨fromId, 0, none⟩] = some r := BreadthFirst.search_isSome PathEntry.id
          (fun e x _ hx => Graph.mem_nodeIds_of_joined
            (Graph.joined_of_fetched (mem_pathExpand.1 hx).2.2.2))
          (by simp) hmem (fun _ h => h)
          (by simp [Graph.nodeIds, Nat.add_comm])
        rw [hr]
        cases r with
        | ok seen =>
          obtain ⟨-, hnot, hdist⟩ := BreadthFirst.search_ok path_layered rfl hr
          refine ⟨none, rfl, ?_, fun p hp => by cases hp⟩
          simp only [Option.isSome_none, Bool.false_eq_true, false_iff]
          rintro ⟨-, -, n, hle, hn⟩
          obtain ⟨e, he, hid, -⟩ := (hdist toId n).2 ⟨hle, hn⟩
          -- the goal has no record, or the search would have stopped
          rcases hnot e he with rfl | hstop
          · exact heq hid
          · exact of_decide_eq_false hstop hid
        | error seen =>
          obtain ⟨chain, hchain, hle, hpath⟩ := shortestPath_of_error heq hfrom hr
          refine ⟨_, by simp only [hchain, Option.map_some]; rfl, ?_, ?_⟩
          · simp only [Option.isSome_some, true_iff]
            exact ⟨hfrom, hto, _, hle, hpath.shortest⟩
          · rintro p ⟨⟩
            exact hpath

/-- **A path is found exactly where the goal is within the bound, and it is a shortest one.**  Where
goal and start differ and the edge type has no blanks around it, its length is the hop count that the
reachability query reports for the goal, which it does report unless its limit cuts the list. -/
theorem pathQuery_shortest (g : Graph) (fromId toId : ℕ) (direction : ReachDirection)
    (edgeType : String) (maxHops : ℕ) (hcap : g.WithinCap direction [edgeType] 4096) :
    ∃ result, pathQuery g fromId toId direction edgeType maxHops = some result ∧
      (result.isSome ↔ fromId ∈ g.nodeIds ∧ toId ∈ g.nodeIds ∧
        ∃ n ≤ min maxHops 32, Distance (g.Joined direction [edgeType]) fromId toId n) ∧
      ∀ p, result = some p →
        ShortestPath g (g.Joined direction [edgeType]) fromId toId p ∧
          (fromId ≠ toId → trimType edgeType = edgeType → edgeType ≠ "" → ∀ limit rows,
            reachableWithinAnyEdgeType g fromId direction [edgeType] maxHops limit = some rows →
              (∀ r ∈ rows, r.node.id = toId → r.hops = p.hops) ∧
              (rows.length < min limit 10000 → ∃ r ∈ rows, r.node.id = toId)) := by
  have hR : g.Fetched direction [edgeType] reachFanout = g.Joined direction [edgeType] :=
    Graph.fetched_eq_joined reachFanout (by decide) hcap
  obtain ⟨result, hrun, hiff, hpath⟩ := pathQuery_fetched g fromId toId direction edgeType maxHops
  rw [hR] at hiff hpath
  refine ⟨result, hrun, hiff, fun p hp => ⟨hpath p hp, ?_⟩⟩
  intro hne htrim hblank limit rows hreach
  obtain ⟨all, hall, hall'⟩ := reachable_nearestFirst g fromId direction [edgeType] maxHops limit
  rw [trimmedTypes_singleton htrim hblank, hR] at hall
  obtain rfl : all.take (min limit 10000) = rows := Option.some.inj (hall'.symm.trans hreach)
  have hdist := (hpath p hp).shortest
  constructor
  · rintro r hr rfl
    exact ((hall.mem_iff r).1 (List.mem_of_mem_take hr)).2.2.2.2.unique hdist
  · intro hlt
    obtain ⟨-, hto, n, hle, hn⟩ := hiff.1 (by rw [hp]; rfl)
    obtain ⟨m, hm⟩ := Option.isSome_iff_exists.1 (Graph.getNode_isSome_iff.2 hto)
    have hid : m.searchRow.id = toId := Graph.id_of_getNode hm
    refine ⟨⟨n, m.searchRow⟩, ?_, hid⟩
    -- a list shorter than the limit is not cut
    rw [List.take_of_length_le (by rw [List.length_take] at hlt; omega)]
    refine (hall.mem_iff _).2 ⟨?_, ⟨m, ?_, rfl⟩, ?_, hle, ?_⟩
    · rw [hid]
      exact hne.symm
    · rw [hid]
      exact hm
    · exact hn.pos hne
    · rw [hid]
      exact hn

/-- A cycle with a way out and a shortcut. -/
def shortcut : Graph := functionGraph ["a", "b", "c", "d"]
  [(1, 2, "CALLS"), (2, 3, "CALLS"), (3, 1, "CALLS"), (3, 4, "CALLS"), (2, 4, "CALLS")]

/-- The path takes the shortcut. -/
theorem pathQuery_shortest_shortcut :
    (∃ result, pathQuery shortcut 1 4 .outgoing "CALLS" 5 = some result ∧
      (result.isSome ↔ 1 ∈ shortcut.nodeIds ∧ 4 ∈ shortcut.nodeIds ∧
        ∃ n ≤ min 5 32, Distance (shortcut.Joined .outgoing ["CALLS"]) 1 4 n) ∧
      ∀ p, result = some p →
        ShortestPath shortcut (shortcut.Joined .outgoing ["CALLS"]) 1 4 p ∧
          (1 ≠ 4 → trimType "CALLS" = "CALLS" → "CALLS" ≠ "" → ∀ limit rows,
            reachableWithinAnyEdgeType shortcut 1 .outgoing ["CALLS"] 5 limit = some rows →
              (∀ r ∈ rows, r.node.id = 4 → r.hops = p.hops) ∧
              (rows.length < min limit 10000 → ∃ r ∈ rows, r.node.id = 4))) ∧
    (pathQuery shortcut 1 4 .outgoing "CALLS" 5).map (Option.map GraphPath.nodes) = some (some [1, 2, 4]) :=
  ⟨pathQuery_shortest _ 1 4 .outgoing "CALLS" 5 (Graph.withinCap_of_length_le (by decide +kernel)),
    by decide +kernel⟩

/-- Two edges back and forth, one with a blank before its type. -/
def blanksAround : Graph := functionGraph ["a", "b"] [(1, 2, "CALLS"), (2, 1, " CALLS")]

/-- The two queries part where the start is the goal, which has a path of no hops and is never listed, and
where the edge type has blanks around it, which only one of them trims. -/
theorem pathQuery_reachable_differ :
    blanksAround.WithinCap .outgoing ["CALLS"] 4096 ∧ blanksAround.WithinCap .outgoing [" CALLS"] 4096 ∧
      (pathQuery blanksAround 1 1 .outgoing "CALLS" 5).map (Option.map GraphPath.hops) = some (some 0) ∧
      (reachableWithinAnyEdgeType blanksAround 1 .outgoing ["CALLS"] 5 10).map
        (fun rows => rows.filter fun r => decide (r.node.id = 1)) = some [] ∧
      (pathQuery blanksAround 2 1 .outgoing " CALLS" 5).map (Option.map GraphPath.hops) = some (some 1) ∧
      reachableWithinAnyEdgeType blanksAround 2 .outgoing [" CALLS"] 5 10 = some [] :=
  ⟨Graph.withinCap_of_length_le (by decide +kernel), Graph.withinCap_of_length_le (by decide +kernel),
    by decide +kernel, by decide +kernel, by decide +kernel, by decide +kernel⟩

end Query

end Greppy
