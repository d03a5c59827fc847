/-
**How the traversals fit together.**

The queries of `crates/search/src/graph.rs` and `crates/search/src/trace.rs` are written for one direction
and one start at a time.  Here they are set beside each other: what is reached from a node in one direction
reaches it in the other, and a call hierarchy, which lists every simple path, lists a node for the first
time where the call trace has it.

Main results:

* `reachable_mirror` — **what a node reaches is what it is reached from**, at the same number of hops;
* `callHierarchy_depths` — **the least depth of a node in the hierarchy is its depth in the trace**.
-/

import Greppy.CoChange

set_option autoImplicit false

namespace Greppy

/-! ### Both directions -/

section Mirror

variable {g : Graph} {a b : ℕ} {direction : ReachDirection} {edgeTypes : List String} {maxHops limit n : ℕ}

/-- In a graph that fits the limit the query lists all nodes at a distance within the bound. -/
theorem reachable_iff (hcap : g.WithinCap direction (trimmedTypes edgeTypes) reachFanout)
    (hlimit : g.nodes.rows.length ≤ min limit maxReachResults) :
    (∃ rows, reachableWithinAnyEdgeType g a direction edgeTypes maxHops limit = some rows ∧
      ∃ r ∈ rows, r.node.id = b ∧ r.hops = n) ↔
    b ≠ a ∧ n ≤ min maxHops maxReachHops ∧ Distance (g.Joined direction (trimmedTypes edgeTypes)) a b n := by
  obtain ⟨rows, hrows, hrun⟩ := reachable_nearestFirst g a direction edgeTypes maxHops limit
  rw [Graph.fetched_eq_joined reachFanout (by decide) hcap] at hrows
  -- a row is a node, so the limit cuts nothing off
  have hlen : rows.length ≤ min limit maxReachResults := by
    refine le_trans ?_ hlimit
    have hsub : rows.map (fun r => r.node.id) ⊆ g.nodeIds := by
      intro id hid
      obtain ⟨r, hr, rfl⟩ := List.mem_map.1 hid
      obtain ⟨-, ⟨node, hnode, -⟩, -⟩ := (hrows.mem_iff r).1 hr
      exact Graph.getNode_isSome_iff.1 (hnode ▸ rfl)
    simpa [Graph.nodeIds] using (List.subperm_of_subset hrows.nodup hsub).length_le
  rw [List.take_of_length_le hlen] at hrun
  simp only [hrun, Option.some.injEq, exists_eq_left']
  constructor
  · rintro ⟨r, hr, rfl, rfl⟩
    obtain ⟨hne, -, -, hle, hdist⟩ := (hrows.mem_iff r).1 hr
    exact ⟨hne, hle, hdist⟩
  · rintro ⟨hne, hle, hdist⟩
    have hpos := hdist.pos hne.symm
    have hin : b ∈ g.nodeIds := by
      cases hdist.1 with
      | nil => exact absurd hpos (lt_irrefl 0)
      | snoc _ hjoined => exact Graph.mem_nodeIds_of_joined hjoined
    obtain ⟨node, hnode⟩ := Option.isSome_iff_exists.1 (Graph.getNode_isSome_iff.2 hin)
    have hid : node.searchRow.id = b := Graph.id_of_getNode hnode
    exact ⟨⟨n, node.searchRow⟩, (hrows.mem_iff _).2 ⟨hid ▸ hne, ⟨node, hid ▸ hnode, rfl⟩, hpos, hle, hid ▸ hdist⟩,
      hid, rfl⟩

end Mirror

/-- **What a node reaches is what it is reached from**: where the caps cut nothing off, a node lists another
one in a direction exactly if the other one lists it in the opposite direction, with the same number of
hops. -/
theorem reachable_mirror (g : Graph) (a b : ℕ) (direction : ReachDirection) (edgeTypes : List String)
    (maxHops limit n : ℕ) (hcap : ∀ d, g.WithinCap d (trimmedTypes edgeTypes) reachFanout)
    (hlimit : g.nodes.rows.length ≤ min limit maxReachResults) :
    (∃ rows, reachableWithinAnyEdgeType g a direction edgeTypes maxHops limit = some rows ∧
      ∃ r ∈ rows, r.node.id = b ∧ r.hops = n) ↔
    ∃ rows, reachableWithinAnyEdgeType g b direction.opposite edgeTypes maxHops limit = some rows ∧
      ∃ r ∈ rows, r.node.id = a ∧ r.hops = n := by
  rw [reachable_iff (hcap _) hlimit, reachable_iff (hcap _) hlimit, ne_comm,
    Distance.converse_iff (S := g.Joined direction.opposite (trimmedTypes edgeTypes)) fun x y => joined_opposite]

/-- Two calls in a row, from both ends. -/
theorem reachable_mirror_chain :
    ((∃ rows, reachableWithinAnyEdgeType callsInRow 1 .outgoing ["CALLS"] 2 10 = some rows ∧
        ∃ r ∈ rows, r.node.id = 3 ∧ r.hops = 2) ↔
      ∃ rows, reachableWithinAnyEdgeType callsInRow 3 .incoming ["CALLS"] 2 10 = some rows ∧
        ∃ r ∈ rows, r.node.id = 1 ∧ r.hops = 2) ∧
    (reachableWithinAnyEdgeType callsInRow 3 .incoming ["CALLS"] 2 10).map
      (fun rows => rows.map fun r => (r.node.id, r.hops)) = some [(2, 1), (1, 2)] :=
  ⟨reachable_mirror callsInRow 1 3 .outgoing ["CALLS"] 2 10 2
    (fun _ => Graph.withinCap_of_length_le (by decide)) (by decide), by decide⟩

/-! ### Paths and depths -/

section Depths

variable {g : Graph} {startId : ℕ} {direction : ReachDirection} {maxDepth : ℕ} {root : CallHierarchyNode}

/-- The depths at which a node stands in a hierarchy, its cyclic leaves left out. -/
def depthsIn (root : CallHierarchyNode) (nodeId : ℕ) : Set ℕ :=
  {d | ∃ l ∈ root.located [], l.2.cyclic = false ∧ l.2.step.nodeId = nodeId ∧ l.2.step.depth = d}

/-- A node stands at the lengths of the simple paths to it. -/
theorem mem_depthsIn (hroot : (callHierarchy g startId direction maxDepth).root = some root) {b d : ℕ} :
    d ∈ depthsIn root b ↔ ∃ p, IsSimplePath (g.Fetched direction ["CALLS"] traceFanout) startId maxDepth p ∧
      p.getLast? = some b ∧ p.length = d + 1 := by
  have hpaths := (openPaths_of_root hroot).2
  have hplace := inPlace_of_root hroot
  constructor
  · rintro ⟨l, hl, hopen, rfl, rfl⟩
    refine ⟨rootPath l, (hpaths _).1 (List.mem_map_of_mem (List.mem_filter.2 ⟨hl, by rw [hopen]; rfl⟩)), ?_, ?_⟩
    · rw [rootPath, List.getLast?_concat]
    · rw [rootPath, List.length_append, List.length_singleton, (hplace l hl).depth]
  · rintro ⟨p, hp, hlast, hlen⟩
    obtain ⟨l, hl, rfl⟩ := List.mem_map.1 ((hpaths p).2 hp)
    obtain ⟨hl, hopen⟩ := List.mem_filter.1 hl
    rw [rootPath, List.getLast?_concat, Option.some.injEq] at hlast
    rw [rootPath, List.length_append, List.length_singleton, Nat.succ.injEq] at hlen
    exact ⟨l, hl, by simpa using hopen, hlast, (hplace l hl).depth.trans hlen⟩

/-- The least depth of a node is its distance. -/
theorem isLeast_depthsIn (hroot : (callHierarchy g startId direction maxDepth).root = some root) {b k : ℕ} :
    IsLeast (depthsIn root b) k ↔
      k ≤ maxDepth ∧ Distance (g.Fetched direction ["CALLS"] traceFanout) startId b k := by
  have hwalk : ∀ d ∈ depthsIn root b, d ≤ maxDepth ∧
      Walk (g.Fetched direction ["CALLS"] traceFanout) d startId b := by
    intro d hd
    obtain ⟨p, ⟨hfirst, hchain, -, hle⟩, hlast, hlen⟩ := (mem_depthsIn hroot).1 hd
    cases p with
    | nil => cases hfirst
    | cons a p =>
      cases hfirst
      obtain rfl : p.length = d := Nat.succ.inj hlen
      exact ⟨Nat.le_of_succ_le_succ hle, Walk.of_chain hchain hlast⟩
  have hmem : ∀ d ≤ maxDepth, Distance (g.Fetched direction ["CALLS"] traceFanout) startId b d →
      d ∈ depthsIn root b := by
    intro d hd hdist
    obtain ⟨p, hchain, hlast, hlen, hnd, -⟩ := hdist.exists_chain
    refine (mem_depthsIn hroot).2 ⟨startId :: p, ⟨rfl, hchain, hnd, ?_⟩, hlast, ?_⟩
    · rw [List.length_cons, hlen]
      exact Nat.succ_le_succ hd
    · rw [List.length_cons, hlen]
  constructor
  · rintro ⟨hin, hleast⟩
    obtain ⟨hk, hin⟩ := hwalk k hin
    obtain ⟨m, hm, hdist⟩ := hin.exists_distance
    obtain rfl := le_antisymm (hleast (hmem m (hm.trans hk) hdist)) hm
    exact ⟨hk, hdist⟩
  · rintro ⟨hk, hdist⟩
    exact ⟨hmem k hk hdist, fun d hd => hdist.2 d (hwalk d hd).2⟩

end Depths

/-- **The least depth of a node in the hierarchy is its depth in the trace**, whatever the caps cut off: the
hierarchy of a stored node and the trace from it have the same nodes. -/
theorem callHierarchy_depths (g : Graph) (startId : ℕ) (direction : ReachDirection) (maxDepth : ℕ)
    {root : CallHierarchyNode} (hroot : (callHierarchy g startId direction maxDepth).root = some root) :
    ∃ steps, tracePath g startId direction (some "CALLS") maxDepth = some steps ∧
      ∀ b k, IsLeast (depthsIn root b) k ↔ ∃ t ∈ steps, t.nodeId = b ∧ t.depth = k := by
  obtain ⟨steps, hsteps, -, hdist⟩ := tracePath_spec g startId direction maxDepth
  refine ⟨steps, hsteps, fun b k => ?_⟩
  rw [isLeast_depthsIn hroot, hdist, and_iff_right (mem_nodeIds_of_root hroot)]

/-- A diamond with a way back: the shared callee stands there twice, at depth two. -/
theorem callHierarchy_depths_diamond : ∃ root steps, (callHierarchy diamond 1 .outgoing 4).root = some root ∧
    tracePath diamond 1 .outgoing (some "CALLS") 4 = some steps ∧
    ∀ b k, IsLeast (depthsIn root b) k ↔ ∃ t ∈ steps, t.nodeId = b ∧ t.depth = k := by
  have hmem : 1 ∈ diamond.nodeIds := by decide
  obtain ⟨root, hroot⟩ := Option.isSome_iff_exists.1 ((callHierarchy_isSome .outgoing 4).2 hmem)
  obtain ⟨steps, hsteps, hdepths⟩ := callHierarchy_depths diamond 1 .outgoing 4 hroot
  exact ⟨root, steps, hroot, hsteps, hdepths⟩

end Greppy
