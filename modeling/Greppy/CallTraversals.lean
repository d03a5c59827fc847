/-
**The call traversals.**

`crates/search/src/trace.rs` walks the call graph in three ways.  `trace_path` marks a node when it comes
out of the queue, and drops what comes out a second time; `call_tree` marks it when it gets its place in a
vector of nodes, keeps a queue of places and skips self loops; `callees_of` and `callers_of` look one
level down only.  All of them fetch the edges of a node with one cap.

The traversals list the same steps in the same order, and a step is as deep as its node is far away.
`Greppy.Reachable` lists the same nodes up to the depth it allows, without the start.
-/

import Greppy.Reachable

set_option autoImplicit false

namespace Greppy

/-- The limit with which the traversals fetch the edges of a node. -/
def traceFanout : ℕ := 1024

/-- One visited node: its depth, the edge that led to it, and its row. -/
structure TraceStep where
  depth : ℕ
  nodeId : ℕ
  edge : Option Edge
  node : Option Node
  deriving DecidableEq

/-- An entry of the queue: the depth, the node and the edge that leads there. -/
structure Pending where
  depth : ℕ
  nodeId : ℕ
  edge : Option Edge
  deriving DecidableEq

namespace Pending

/-- The step of an entry, with the row that the store has. -/
def step (g : Graph) (p : Pending) : TraceStep where
  depth := p.depth
  nodeId := p.nodeId
  edge := p.edge
  node := g.getNode p.nodeId

@[simp] theorem depth_step (g : Graph) (p : Pending) : (p.step g).depth = p.depth := rfl

@[simp] theorem nodeId_step (g : Graph) (p : Pending) : (p.step g).nodeId = p.nodeId := rfl

/-- The entry to which an edge leads from `p`. -/
def along (direction : ReachDirection) (p : Pending) (e : Edge) : Pending where
  depth := p.depth + 1
  nodeId := direction.next e
  edge := some e

end Pending

/-- What a traversal comes to from an entry. -/
def traceExpand (g : Graph) (direction : ReachDirection) (edgeType : Option String) (maxDepth : ℕ)
    (p : Pending) : List Pending :=
  if maxDepth ≤ p.depth then []
  else (g.edgesFrom direction p.nodeId edgeType traceFanout).map (p.along direction)

/-- `trace_path`.  Each stored node is expanded once at most, into at most `traceFanout` entries. -/
def tracePath (g : Graph) (startId : ℕ) (direction : ReachDirection) (edgeType : Option String)
    (maxDepth : ℕ) : Option (List TraceStep) :=
  if (g.getNode startId).isNone then some []
  else
    (BreadthFirst.visit Pending.nodeId (traceExpand g direction edgeType maxDepth)
      (1 + traceFanout * g.nodes.rows.length) [] [⟨0, startId, none⟩]).map
        fun out => out.map (Pending.step g)

/-- The neighbours that `one_level` lists. -/
def oneLevelFrom (g : Graph) (direction : ReachDirection) (nodeId : ℕ) :
    List ℕ → List Edge → List TraceStep
  | _, [] => []
  | seen, e :: es =>
    let next := direction.next e
    if next = nodeId ∨ next ∈ seen then oneLevelFrom g direction nodeId seen es
    else
      { depth := 1, nodeId := next, edge := some e, node := g.getNode next } ::
        oneLevelFrom g direction nodeId (next :: seen) es

def oneLevel (g : Graph) (nodeId : ℕ) (direction : ReachDirection) : List TraceStep :=
  if (g.getNode nodeId).isNone then []
  else oneLevelFrom g direction nodeId []
    (g.edgesFrom direction nodeId (some "CALLS") traceFanout)

def calleesOf (g : Graph) (nodeId : ℕ) : List TraceStep := oneLevel g nodeId .outgoing

def callersOf (g : Graph) (nodeId : ℕ) : List TraceStep := oneLevel g nodeId .incoming

/-- One node of a call tree, with the ids of its children. -/
structure CallTreeNode where
  step : TraceStep
  children : List ℕ
  deriving DecidableEq

structure CallTree where
  rootId : ℕ
  nodes : List CallTreeNode
  deriving DecidableEq

/-- What the loop over the edges of a node works on: the nodes, the queue of places to expand, and the
children found. -/
structure Growth where
  nodes : List CallTreeNode
  queue : List (ℕ × ℕ)
  children : List ℕ

/-- One turn of the loop over the edges.  The ids in `placed` are those of the nodes. -/
def Growth.addEdge (g : Graph) (direction : ReachDirection) (nodeId depth : ℕ) (s : Growth)
    (e : Edge) : Growth :=
  let next := direction.next e
  if next = nodeId then s
  else if next ∈ s.nodes.map fun n => n.step.nodeId then { s with children := s.children ++ [next] }
  else
    { nodes := s.nodes ++
        [{ step := { depth := depth + 1, nodeId := next, edge := some e, node := g.getNode next }
           children := [] }]
      queue := s.queue ++ [(s.nodes.length, depth + 1)]
      children := s.children ++ [next] }

/-- The loop over the queue of places and depths. -/
def growTree (g : Graph) (direction : ReachDirection) (maxDepth : ℕ) :
    ℕ → List CallTreeNode → List (ℕ × ℕ) → Option (List CallTreeNode)
  | _, nodes, [] => some nodes
  | 0, _, _ :: _ => none
  | fuel + 1, nodes, (idx, depth) :: queue =>
    if maxDepth ≤ depth then growTree g direction maxDepth fuel nodes queue
    else
      match nodes[idx]? with
      | none => none
      | some node =>
        let s := (g.edgesFrom direction node.step.nodeId (some "CALLS") traceFanout).foldl
          (Growth.addEdge g direction node.step.nodeId depth) ⟨nodes, queue, []⟩
        growTree g direction maxDepth fuel
          (s.nodes.modify idx fun n => { n with children := s.children }) s.queue

def callTree (g : Graph) (startId : ℕ) (direction : ReachDirection) (maxDepth : ℕ) :
    Option CallTree :=
  if (g.getNode startId).isNone then some { rootId := startId, nodes := [] }
  else
    (growTree g direction maxDepth g.nodes.rows.length
      [{ step := { depth := 0, nodeId := startId, edge := none, node := g.getNode startId }
         children := [] }] [(0, 0)]).map fun nodes => { rootId := startId, nodes := nodes }

/-! ### The trace -/

section Trace

variable {g : Graph} {direction : ReachDirection} {maxDepth startId : ℕ}

theorem mem_traceExpand {p x : Pending} :
    x ∈ traceExpand g direction (some "CALLS") maxDepth p ↔ p.depth < maxDepth ∧
      ∃ e ∈ g.edgesFrom direction p.nodeId (some "CALLS") traceFanout, p.along direction e = x := by
  rw [traceExpand]
  split_ifs with hle
  · simp only [List.not_mem_nil, false_iff]
    omega
  · rw [List.mem_map]
    exact ⟨fun h => ⟨by omega, h⟩, fun h => h.2⟩

theorem fetched_of_mem_traceExpand {p x : Pending}
    (h : x ∈ traceExpand g direction (some "CALLS") maxDepth p) :
    g.Fetched direction ["CALLS"] traceFanout p.nodeId x.nodeId := by
  obtain ⟨-, e, he, rfl⟩ := mem_traceExpand.1 h
  exact ⟨"CALLS", List.mem_singleton_self _, e, he, rfl⟩

theorem trace_layered : BreadthFirst.Layered Pending.nodeId
    (traceExpand g direction (some "CALLS") maxDepth) Pending.depth
    (g.Fetched direction ["CALLS"] traceFanout) maxDepth where
  step := fun {p x} hx => by
    obtain ⟨hlt, e, -, rfl⟩ := mem_traceExpand.1 hx
    exact ⟨hlt, rfl, fetched_of_mem_traceExpand hx⟩
  all := fun {p b} hlt hR _ => by
    obtain ⟨ty, hty, e, he, hb⟩ := hR
    rw [List.mem_singleton.1 hty] at he
    exact ⟨p.along direction e, mem_traceExpand.2 ⟨hlt, e, he, rfl⟩, hb⟩

theorem length_traceExpand_le (p : Pending) :
    (traceExpand g direction (some "CALLS") maxDepth p).length ≤ traceFanout := by
  rw [traceExpand]
  split_ifs
  · exact Nat.zero_le _
  · rw [List.length_map]
    exact Graph.length_edgesFrom_le (by decide) _

variable (direction maxDepth) in
/-- The entries that a traversal of a stored node visits, in their order, by either discipline. -/
theorem exists_visited (hstart : startId ∈ g.nodeIds) : ∃ out,
    BreadthFirst.visit Pending.nodeId (traceExpand g direction (some "CALLS") maxDepth)
      (1 + traceFanout * g.nodes.rows.length) [] [⟨0, startId, none⟩] = some out ∧
    BreadthFirst.search Pending.nodeId (traceExpand g direction (some "CALLS") maxDepth)
      (fun _ => false) g.nodes.rows.length [⟨0, startId, none⟩] [⟨0, startId, none⟩] =
        some (.ok out) := by
  have hexpand : ∀ e x : Pending, e.nodeId ∈ g.nodeIds →
      x ∈ traceExpand g direction (some "CALLS") maxDepth e → x.nodeId ∈ g.nodeIds := fun e x _ hx =>
    Graph.mem_nodeIds_of_joined (Graph.joined_of_fetched (fetched_of_mem_traceExpand hx))
  have hmem : ∀ e ∈ [(⟨0, startId, none⟩ : Pending)], e.nodeId ∈ g.nodeIds := by
    intro e he
    rw [List.mem_singleton.1 he]
    exact hstart
  obtain ⟨out, hout⟩ : ∃ out, BreadthFirst.visit Pending.nodeId
      (traceExpand g direction (some "CALLS") maxDepth) (1 + traceFanout * g.nodes.rows.length) []
      [⟨0, startId, none⟩] = some out :=
    BreadthFirst.visit_isSome Pending.nodeId length_traceExpand_le hexpand
    List.nodup_nil (fun e he => by cases he) hmem (by simp [Graph.nodeIds])
  obtain ⟨r, hr⟩ : ∃ r, BreadthFirst.search Pending.nodeId
      (traceExpand g direction (some "CALLS") maxDepth) (fun _ => false) g.nodes.rows.length
      [⟨0, startId, none⟩] [⟨0, startId, none⟩] = some r :=
    BreadthFirst.search_isSome Pending.nodeId hexpand (by simp) hmem (fun _ h => h)
      (by simp [Graph.nodeIds, Nat.add_comm])
  obtain ⟨more, hmore⟩ := BreadthFirst.search_of_visit Pending.nodeId hout
  refine ⟨out, hout, ?_⟩
  rw [hr, BreadthFirst.search_unique Pending.nodeId hr hmore]

theorem tracePath_spec (g : Graph) (startId : ℕ) (direction : ReachDirection) (maxDepth : ℕ) :
    ∃ steps, tracePath g startId direction (some "CALLS") maxDepth = some steps ∧
      (steps.map TraceStep.nodeId).Nodup ∧
      ∀ b k, (∃ t ∈ steps, t.nodeId = b ∧ t.depth = k) ↔ startId ∈ g.nodeIds ∧ k ≤ maxDepth ∧
        Distance (g.Fetched direction ["CALLS"] traceFanout) startId b k := by
  rw [tracePath]
  by_cases hstart : startId ∈ g.nodeIds
  · obtain ⟨out, hvisit, hsearch⟩ := exists_visited direction maxDepth hstart
    obtain ⟨hplaced, -, hdist⟩ := BreadthFirst.search_ok trace_layered rfl hsearch
    have hsome : (g.getNode startId).isNone = false := by
      rw [Option.isNone_eq_false_iff, Graph.getNode_isSome_iff]
      exact hstart
    refine ⟨out.map (Pending.step g), by simp [hsome, hvisit], ?_, fun b k => ?_⟩
    · rw [List.map_map]
      exact hplaced.nodup
    · rw [← hdist b k]
      constructor
      · rintro ⟨t, ht, rfl, rfl⟩
        obtain ⟨p, hp, rfl⟩ := List.mem_map.1 ht
        exact ⟨hstart, p, hp, rfl, rfl⟩
      · rintro ⟨-, p, hp, rfl, rfl⟩
        exact ⟨p.step g, List.mem_map_of_mem hp, rfl, rfl⟩
  · have hnone : (g.getNode startId).isNone = true := by
      rw [Option.isNone_iff_eq_none, Graph.getNode_eq_none_iff]
      exact hstart
    refine ⟨[], by rw [hnone]; rfl, List.nodup_nil, fun b k => ?_⟩
    simp [hstart]

end Trace

/-! ### The tree -/

section Tree

variable {g : Graph} {direction : ReachDirection} {maxDepth startId : ℕ}

/-- The vector of nodes and the queue of places stand for the entries placed and the entries queued. -/
structure Mirrors (g : Graph) (nodes : List CallTreeNode) (queue : List (ℕ × ℕ))
    (placed pending : List Pending) : Prop where
  steps : nodes.map CallTreeNode.step = placed.map (Pending.step g)
  places : List.Forall₂ (fun q p => placed[q.1]? = some p ∧ q.2 = p.depth) queue pending

variable {nodes : List CallTreeNode} {queue : List (ℕ × ℕ)} {placed pending : List Pending}

theorem Mirrors.ids (h : Mirrors g nodes queue placed pending) :
    (nodes.map fun n => n.step.nodeId) = placed.map Pending.nodeId := by
  have hids := congrArg (List.map TraceStep.nodeId) h.steps
  rwa [List.map_map, List.map_map] at hids

theorem Mirrors.append (h : Mirrors g nodes queue placed pending) (p : Pending) :
    Mirrors g (nodes ++ [⟨p.step g, []⟩]) (queue ++ [(nodes.length, p.depth)]) (placed ++ [p])
      (pending ++ [p]) where
  steps := by
    rw [List.map_append, List.map_append, h.steps]
    rfl
  places := by
    have hlen : nodes.length = placed.length := by simpa using congrArg List.length h.steps
    refine List.rel_append (h.places.imp fun q e hq => ⟨?_, hq.2⟩) (.cons ⟨?_, rfl⟩ .nil)
    · rw [hlen]
      exact List.getElem?_concat_length
    · rw [List.getElem?_append_left (List.getElem?_eq_some_iff.1 hq.1).1]
      exact hq.1

theorem mirrors_foldl (direction : ReachDirection) (p : Pending) {s : Growth} (edges : List Edge)
    (h : Mirrors g s.nodes s.queue placed pending) : ∃ placed' pending',
      BreadthFirst.discover Pending.nodeId (fun _ => false) placed pending
        ((edges.map (p.along direction)).filter fun x => decide (x.nodeId ≠ p.nodeId)) =
          .ok (placed', pending') ∧
      Mirrors g (edges.foldl (Growth.addEdge g direction p.nodeId p.depth) s).nodes
        (edges.foldl (Growth.addEdge g direction p.nodeId p.depth) s).queue placed' pending' := by
  induction edges generalizing s placed pending with
  | nil => exact ⟨placed, pending, rfl, h⟩
  | cons e es ih =>
    rw [List.foldl_cons, List.map_cons]
    by_cases hself : direction.next e = p.nodeId
    · rw [List.filter_cons_of_neg (by simp [Pending.along, hself]),
        show Growth.addEdge g direction p.nodeId p.depth s e = s by
          rw [Growth.addEdge, if_pos hself]]
      exact ih h
    · rw [List.filter_cons_of_pos (by simp [Pending.along, hself])]
      have hnode : (p.along direction e).nodeId = direction.next e := rfl
      by_cases hin : direction.next e ∈ placed.map Pending.nodeId
      · rw [BreadthFirst.discover, hnode, if_pos hin,
          show Growth.addEdge g direction p.nodeId p.depth s e =
            { s with children := s.children ++ [direction.next e] } by
            rw [Growth.addEdge, if_neg hself, h.ids, if_pos hin]]
        exact ih h
      · rw [BreadthFirst.discover, hnode, if_neg hin, if_neg Bool.false_ne_true]
        refine ih ?_
        rw [Growth.addEdge, if_neg hself, h.ids, if_neg hin]
        exact h.append (p.along direction e)

theorem map_step_modify (nodes : List CallTreeNode) (idx : ℕ) (children : List ℕ) :
    (nodes.modify idx fun n => { n with children := children }).map CallTreeNode.step =
      nodes.map CallTreeNode.step := by
  refine List.ext_getElem? fun i => ?_
  rw [List.getElem?_map, List.getElem?_map, List.getElem?_modify]
  cases nodes[i]? with
  | none => rfl
  | some n =>
    simp only [Option.map_eq_map, Option.map_some]
    split_ifs <;> rfl

theorem growTree_of_search {fuel : ℕ} {out : List Pending}
    (h : Mirrors g nodes queue placed pending)
    (hrun : BreadthFirst.search Pending.nodeId
      (fun p => (traceExpand g direction (some "CALLS") maxDepth p).filter
        fun x => decide (x.nodeId ≠ p.nodeId)) (fun _ => false) fuel placed pending =
          some (.ok out)) :
    ∃ r, growTree g direction maxDepth fuel nodes queue = some r ∧
      r.map CallTreeNode.step = out.map (Pending.step g) := by
  induction fuel generalizing nodes queue placed pending with
  | zero =>
    cases h.places with
    | nil =>
      rw [BreadthFirst.search] at hrun
      cases hrun
      exact ⟨nodes, rfl, h.steps⟩
    | cons _ _ => cases hrun
  | succ fuel ih =>
    obtain ⟨hsteps, hplaces⟩ := h
    cases hplaces with
    | nil =>
      rw [BreadthFirst.search] at hrun
      cases hrun
      exact ⟨nodes, rfl, hsteps⟩
    | @cons q p queue pending hq hplaces =>
      obtain ⟨idx, depth⟩ := q
      obtain ⟨hidx, rfl⟩ : placed[idx]? = some p ∧ depth = p.depth := hq
      rw [growTree]
      rw [BreadthFirst.search, traceExpand] at hrun
      by_cases hle : maxDepth ≤ p.depth
      · rw [if_pos hle] at hrun ⊢
        exact ih ⟨hsteps, hplaces⟩ hrun
      · rw [if_neg hle] at hrun ⊢
        obtain ⟨node, hnode, hstep⟩ : ∃ node, nodes[idx]? = some node ∧ node.step = p.step g := by
          have hget := congrArg (fun l => l[idx]?) hsteps
          simp only [List.getElem?_map, hidx, Option.map_some] at hget
          exact Option.map_eq_some_iff.1 hget
        have hid : node.step.nodeId = p.nodeId := by rw [hstep]; rfl
        obtain ⟨placed', pending', hdisc, hmirror⟩ := mirrors_foldl direction p
          (s := ⟨nodes, queue, []⟩)
          (g.edgesFrom direction p.nodeId (some "CALLS") traceFanout) ⟨hsteps, hplaces⟩
        rw [hdisc] at hrun
        simp only [hnode, hid]
        refine ih ⟨?_, hmirror.places⟩ hrun
        rw [map_step_modify]
        exact hmirror.steps

theorem callTree_steps (g : Graph) (startId : ℕ) (direction : ReachDirection) (maxDepth : ℕ) :
    ∃ tree, callTree g startId direction maxDepth = some tree ∧
      tracePath g startId direction (some "CALLS") maxDepth =
        some (tree.nodes.map CallTreeNode.step) := by
  rw [callTree, tracePath]
  by_cases hstart : startId ∈ g.nodeIds
  · obtain ⟨out, hvisit, hsearch⟩ := exists_visited direction maxDepth hstart
    have hsome : (g.getNode startId).isNone = false := by
      rw [Option.isNone_eq_false_iff, Graph.getNode_isSome_iff]
      exact hstart
    rw [← BreadthFirst.search_filter Pending.nodeId (fun p x => decide (x.nodeId ≠ p.nodeId))
      (fun p x hx => not_not.1 (of_decide_eq_false hx)) (fun e he => he)] at hsearch
    have hstartMirrors : Mirrors g [⟨⟨0, startId, none, g.getNode startId⟩, []⟩] [(0, 0)]
        [⟨0, startId, none⟩] [⟨0, startId, none⟩] := ⟨rfl, .cons ⟨rfl, rfl⟩ .nil⟩
    obtain ⟨r, hr, hsteps⟩ := growTree_of_search hstartMirrors hsearch
    refine ⟨⟨startId, r⟩, by rw [hsome, hr]; rfl, ?_⟩
    rw [hsome, hvisit, hsteps]
    rfl
  · have hnone : (g.getNode startId).isNone = true := by
      rw [Option.isNone_iff_eq_none, Graph.getNode_eq_none_iff]
      exact hstart
    exact ⟨⟨startId, []⟩, by rw [hnone]; rfl, by rw [hnone]; rfl⟩

end Tree

/-! ### One level -/

section Level

variable {g : Graph} {direction : ReachDirection} {maxDepth startId : ℕ}

theorem oneLevelFrom_eq (p : Pending) (hp : p.depth = 0) (seen : List ℕ) (es : List Edge) :
    oneLevelFrom g direction p.nodeId seen es =
      (BreadthFirst.firsts Pending.nodeId (p.nodeId :: seen) (es.map (p.along direction))).map
        (Pending.step g) := by
  induction es generalizing seen with
  | nil => rfl
  | cons e es ih =>
    have hnode : (p.along direction e).nodeId = direction.next e := rfl
    rw [oneLevelFrom, List.map_cons, BreadthFirst.firsts, hnode]
    simp only [List.mem_cons]
    split_ifs with hseen
    · exact ih seen
    · have hswap : BreadthFirst.firsts Pending.nodeId (direction.next e :: p.nodeId :: seen)
          (es.map (p.along direction)) =
          BreadthFirst.firsts Pending.nodeId (p.nodeId :: direction.next e :: seen)
            (es.map (p.along direction)) :=
        BreadthFirst.firsts_congr (fun a => by simp only [List.mem_cons]; tauto) _
      rw [List.map_cons, ih, hswap]
      simp [Pending.step, Pending.along, hp]

theorem filter_depth_one {steps : List TraceStep} (hdepth : 1 ≤ maxDepth)
    (hrun : tracePath g startId direction (some "CALLS") maxDepth = some steps) :
    steps.filter (fun t => decide (t.depth = 1)) = oneLevel g startId direction := by
  rw [tracePath] at hrun
  rw [oneLevel]
  by_cases hstart : startId ∈ g.nodeIds
  · obtain ⟨out, hvisit, hsearch⟩ := exists_visited direction maxDepth hstart
    have hsome : (g.getNode startId).isNone = false := by
      rw [Option.isNone_eq_false_iff, Graph.getNode_isSome_iff]
      exact hstart
    rw [hsome, hvisit] at hrun
    obtain rfl : out.map (Pending.step g) = steps := Option.some.inj hrun
    have hlayer := BreadthFirst.filter_layer_one trace_layered rfl hsearch
    have hexpand : traceExpand g direction (some "CALLS") maxDepth ⟨0, startId, none⟩ =
        (g.edgesFrom direction startId (some "CALLS") traceFanout).map
          (Pending.along direction ⟨0, startId, none⟩) := by
      rw [traceExpand, if_neg (by dsimp only; omega)]
    rw [hsome, if_neg Bool.false_ne_true, oneLevelFrom_eq ⟨0, startId, none⟩ rfl, ← hexpand, ← hlayer,
      List.filter_map]
    rfl
  · have hnone : (g.getNode startId).isNone = true := by
      rw [Option.isNone_iff_eq_none, Graph.getNode_eq_none_iff]
      exact hstart
    rw [hnone] at hrun ⊢
    cases hrun
    rfl

end Level

/-! ### Agreement -/

/-- **The call traversals agree**: where no node has more calls than the cap, the trace and the tree list
the same steps, each node within the bound once, at its distance; the reachability query lists the same
nodes but the start, up to the depth it allows and as far as its limit goes; and the first level is that
of the queries that look one level down. -/
theorem call_traversals_agree (g : Graph) (startId : ℕ) (direction : ReachDirection) (maxDepth : ℕ)
    (hcap : g.WithinCap direction ["CALLS"] 1024) : ∃ steps tree,
    tracePath g startId direction (some "CALLS") maxDepth = some steps ∧
    callTree g startId direction maxDepth = some tree ∧
    tree.nodes.map CallTreeNode.step = steps ∧
    (steps.map TraceStep.nodeId).Nodup ∧
    (∀ b k, (∃ t ∈ steps, t.nodeId = b ∧ t.depth = k) ↔ startId ∈ g.nodeIds ∧ k ≤ maxDepth ∧
      Distance (g.Joined direction ["CALLS"]) startId b k) ∧
    (maxDepth ≤ 32 → ∀ limit rows,
      reachableWithinAnyEdgeType g startId direction ["CALLS"] maxDepth limit = some rows →
        (∀ r ∈ rows, r.node.id ≠ startId ∧ ∃ t ∈ steps, t.nodeId = r.node.id ∧ t.depth = r.hops) ∧
        (steps.length ≤ min limit 10000 + 1 → ∀ t ∈ steps, t.nodeId ≠ startId →
          ∃ r ∈ rows, r.node.id = t.nodeId ∧ r.hops = t.depth)) ∧
    (1 ≤ maxDepth → steps.filter (fun t => decide (t.depth = 1)) =
      match direction with
      | .outgoing => calleesOf g startId
      | .incoming => callersOf g startId) := by
  obtain ⟨tree, htree, htrace⟩ := callTree_steps g startId direction maxDepth
  obtain ⟨steps, hsteps, hnd, hdist⟩ := tracePath_spec g startId direction maxDepth
  obtain rfl : tree.nodes.map CallTreeNode.step = steps := Option.some.inj (htrace.symm.trans hsteps)
  rw [Graph.fetched_eq_joined traceFanout (by decide) hcap] at hdist
  refine ⟨_, tree, hsteps, htree, rfl, hnd, hdist, ?_, ?_⟩
  · intro hle limit rows hrun
    obtain ⟨all, hall, hrun'⟩ :=
      reachable_nearestFirst g startId direction ["CALLS"] maxDepth limit
    obtain rfl : all.take (min limit 10000) = rows := Option.some.inj (hrun'.symm.trans hrun)
    rw [trimmedTypes_singleton (by decide) (by decide),
      Graph.fetched_eq_joined reachFanout (by decide) (hcap.mono (by decide)),
      show min maxDepth maxReachHops = maxDepth from min_eq_left hle] at hall
    -- every row is a step
    have hrow : ∀ r ∈ all, r.node.id ≠ startId ∧ ∃ t ∈ tree.nodes.map CallTreeNode.step,
        t.nodeId = r.node.id ∧ t.depth = r.hops := by
      intro r hr
      obtain ⟨hid, -, hpos, hhops, hr'⟩ := (hall.mem_iff r).1 hr
      refine ⟨hid, (hdist _ _).2 ⟨?_, hhops, hr'⟩⟩
      by_contra hstart
      have hzero := hr'.1.eq_zero_of_stuck fun c hc => hstart (Graph.mem_nodeIds_of_joined_left hc)
      omega
    refine ⟨fun r hr => hrow r (List.mem_of_mem_take hr), fun hlen t ht hne => ?_⟩
    obtain ⟨hstart, hdepth, ht'⟩ := (hdist _ _).1 ⟨t, ht, rfl, rfl⟩
    -- the rows and the start are among the steps, so the list is not cut
    have hcount : (startId :: all.map fun r => r.node.id).length ≤
        ((tree.nodes.map CallTreeNode.step).map TraceStep.nodeId).length := by
      refine (List.subperm_of_subset (List.nodup_cons.2 ⟨?_, hall.nodup⟩) ?_).length_le
      · intro hin
        obtain ⟨r, hr, hid⟩ := List.mem_map.1 hin
        exact (hrow r hr).1 hid
      · intro b hb
        rcases List.mem_cons.1 hb with rfl | hb
        · obtain ⟨t₀, ht₀, hid, -⟩ :=
            (hdist b 0).2 ⟨hstart, Nat.zero_le _, Distance.zero_iff.2 rfl⟩
          exact List.mem_map.2 ⟨t₀, ht₀, hid⟩
        · obtain ⟨r, hr, rfl⟩ := List.mem_map.1 hb
          obtain ⟨-, t₀, ht₀, hid, -⟩ := hrow r hr
          exact List.mem_map.2 ⟨t₀, ht₀, hid⟩
    rw [List.take_of_length_le (by simp only [List.length_cons, List.length_map] at hcount hlen; omega)]
    have hin : t.nodeId ∈ g.nodeIds := Graph.mem_nodeIds_of_walk hstart ht'.1
    obtain ⟨n, hn⟩ := Option.isSome_iff_exists.1 (Graph.getNode_isSome_iff.2 hin)
    have hid : n.searchRow.id = t.nodeId := Graph.id_of_getNode hn
    refine ⟨⟨t.depth, n.searchRow⟩, (hall.mem_iff _).2 ?_, hid, rfl⟩
    rw [hid]
    exact ⟨hne, ⟨n, hn, rfl⟩, ht'.pos hne.symm, hdepth, ht'⟩
  · intro hdepth
    rw [filter_depth_one hdepth hsteps]
    cases direction <;> rfl

/-- A diamond with a self loop and a way back. -/
def diamond : Graph :=
  functionGraph ["a", "b", "c", "d"] [(1, 2, "CALLS"), (1, 3, "CALLS"), (2, 4, "CALLS"),
    (3, 4, "CALLS"), (4, 1, "CALLS"), (3, 3, "CALLS")]

/-- The traversals of the diamond. -/
theorem call_traversals_agree_diamond :
    (∃ steps tree, tracePath diamond 1 .outgoing (some "CALLS") 2 = some steps ∧
      callTree diamond 1 .outgoing 2 = some tree ∧
      tree.nodes.map CallTreeNode.step = steps ∧
      (steps.map TraceStep.nodeId).Nodup ∧
      (∀ b k, (∃ t ∈ steps, t.nodeId = b ∧ t.depth = k) ↔ 1 ∈ diamond.nodeIds ∧ k ≤ 2 ∧
        Distance (diamond.Joined .outgoing ["CALLS"]) 1 b k) ∧
      (2 ≤ 32 → ∀ limit rows,
        reachableWithinAnyEdgeType diamond 1 .outgoing ["CALLS"] 2 limit = some rows →
          (∀ r ∈ rows, r.node.id ≠ 1 ∧ ∃ t ∈ steps, t.nodeId = r.node.id ∧ t.depth = r.hops) ∧
          (steps.length ≤ min limit 10000 + 1 → ∀ t ∈ steps, t.nodeId ≠ 1 →
            ∃ r ∈ rows, r.node.id = t.nodeId ∧ r.hops = t.depth)) ∧
      (1 ≤ 2 → steps.filter (fun t => decide (t.depth = 1)) =
        match ReachDirection.outgoing with
        | .outgoing => calleesOf diamond 1
        | .incoming => callersOf diamond 1)) ∧
    (tracePath diamond 1 .outgoing (some "CALLS") 2).map
      (fun steps => steps.map fun t => (t.nodeId, t.depth)) = some [(1, 0), (2, 1), (3, 1), (4, 2)] :=
  ⟨call_traversals_agree diamond 1 .outgoing 2 (Graph.withinCap_of_length_le (by decide +kernel)),
    by decide +kernel⟩

/-- A chain of `n` calls. -/
def callChain (n : ℕ) : Graph :=
  functionGraph ((List.range (n + 1)).map fun i => String.ofList (List.replicate (i + 1) 'f'))
    ((List.range n).map fun i => (i + 1, i + 2, "CALLS"))

/-- The traversals list the start, which the reachability query leaves out; they follow a chain of calls
to a depth to which the query does not go; and with a bound of zero they have no first level. -/
theorem call_traversals_differ :
    ((callChain 33).WithinCap .outgoing ["CALLS"] 1024 ∧
      (tracePath (callChain 33) 1 .outgoing (some "CALLS") 33).map
        (fun steps => steps.map fun t => (t.nodeId, t.depth)) =
          some ((List.range 34).map fun i => (i + 1, i)) ∧
      (reachableWithinAnyEdgeType (callChain 33) 1 .outgoing ["CALLS"] 33 10000).map
        (fun rows => rows.map fun r => (r.node.id, r.hops)) =
          some ((List.range 32).map fun i => (i + 2, i + 1))) ∧
    (diamond.WithinCap .outgoing ["CALLS"] 1024 ∧
      (tracePath diamond 1 .outgoing (some "CALLS") 0).map
        (fun steps => steps.filter fun t => decide (t.depth = 1)) = some [] ∧
      (calleesOf diamond 1).map TraceStep.nodeId = [2, 3]) :=
  ⟨⟨Graph.withinCap_of_length_le (by decide +kernel), by decide +kernel, by decide +kernel⟩,
    Graph.withinCap_of_length_le (by decide +kernel), by decide +kernel, by decide +kernel⟩

end Greppy
