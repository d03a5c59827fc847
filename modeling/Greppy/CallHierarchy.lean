/-
**Call hierarchies.**

`call_hierarchy` of `crates/search/src/trace.rs` unfolds the calls around a function into a tree, as an
editor shows them: a function called from two places has two subtrees.  What keeps the tree finite is the
set of functions on the way from the root.  The recursion puts a node into the set before it looks at
the neighbours and takes it out afterwards, and a neighbour that is in the set becomes a leaf, marked
cyclic.

The bound of the depth gives a second kind of leaf.  Such a leaf is marked truncated without a look at
its neighbours, so also where it has none.
-/

import Greppy.CallTraversals

set_option autoImplicit false

namespace Greppy

/-- One node of a call hierarchy, with its subtrees. -/
structure CallHierarchyNode where
  step : TraceStep
  cyclic : Bool
  truncated : Bool
  children : List CallHierarchyNode

structure CallHierarchy where
  direction : ReachDirection
  root : Option CallHierarchyNode

/-- The loop of `expand_hierarchy` over the edges of a node, with the set `path` and the neighbours
`seen`; `expand` is the recursive call. -/
def expandNeighbours (g : Graph) (direction : ReachDirection) (nodeId depth : ℕ)
    (expand : ℕ → Option Node → Option Edge → Finset ℕ → CallHierarchyNode × Finset ℕ) :
    List Edge → Finset ℕ → List ℕ → List CallHierarchyNode × Finset ℕ
  | [], path, _ => ([], path)
  | e :: es, path, seen =>
    let next := direction.next e
    if next = nodeId ∨ next ∈ seen then
      expandNeighbours g direction nodeId depth expand es path seen
    else if next ∈ path then
      -- back to an ancestor: a leaf
      let leaf : CallHierarchyNode :=
        { step := { depth := depth + 1, nodeId := next, edge := some e, node := g.getNode next }
          cyclic := true
          truncated := false
          children := [] }
      let rest := expandNeighbours g direction nodeId depth expand es path (next :: seen)
      (leaf :: rest.1, rest.2)
    else
      let child := expand next (g.getNode next) (some e) path
      let rest := expandNeighbours g direction nodeId depth expand es child.2 (next :: seen)
      (child.1 :: rest.1, rest.2)

/-- `expand_hierarchy`, with the set `path` before and after; `levels` is what `depth` lacks to
`max_depth`. -/
def expandHierarchy (g : Graph) (direction : ReachDirection) :
    ℕ → ℕ → ℕ → Option Node → Option Edge → Finset ℕ → CallHierarchyNode × Finset ℕ
  | 0, depth, nodeId, nodeMeta, incomingEdge, path =>
    ({ step := { depth := depth, nodeId := nodeId, edge := incomingEdge, node := nodeMeta }
       cyclic := false
       truncated := true
       children := [] }, path)
  | levels + 1, depth, nodeId, nodeMeta, incomingEdge, path =>
    let neighbours := g.edgesFrom direction nodeId (some "CALLS") traceFanout
    let below := expandNeighbours g direction nodeId depth
      (fun next nextMeta e path => expandHierarchy g direction levels (depth + 1) next nextMeta e path)
      neighbours (insert nodeId path) []
    ({ step := { depth := depth, nodeId := nodeId, edge := incomingEdge, node := nodeMeta }
       cyclic := false
       truncated := false
       children := below.1 }, below.2.erase nodeId)

def callHierarchy (g : Graph) (startId : ℕ) (direction : ReachDirection) (maxDepth : ℕ) :
    CallHierarchy :=
  match g.getNode startId with
  | none => { direction := direction, root := none }
  | some rootNode =>
    { direction := direction
      root := some (expandHierarchy g direction maxDepth 0 startId (some rootNode) none ∅).1 }

/-! ### Nodes and their ancestors -/

mutual

/-- The nodes of a tree, parents first, each with its ancestors; `above` are those of the root. -/
def CallHierarchyNode.located (above : List ℕ) :
    CallHierarchyNode → List (List ℕ × CallHierarchyNode)
  | ⟨step, cyclic, truncated, children⟩ =>
    (above, ⟨step, cyclic, truncated, children⟩) :: locatedAll (above ++ [step.nodeId]) children

def locatedAll (above : List ℕ) : List CallHierarchyNode → List (List ℕ × CallHierarchyNode)
  | [] => []
  | n :: ns => n.located above ++ locatedAll above ns

end

def rootPath (l : List ℕ × CallHierarchyNode) : List ℕ := l.1 ++ [l.2.step.nodeId]

/-- The paths to the nodes that are not cyclic. -/
def openPaths (ls : List (List ℕ × CallHierarchyNode)) : List (List ℕ) :=
  (ls.filter fun l => !l.2.cyclic).map rootPath

/-- A path along `R` without repeats, from a node and with at most so many steps. -/
structure IsSimplePath (R : ℕ → ℕ → Prop) (startId bound : ℕ) (p : List ℕ) : Prop where
  first : p.head? = some startId
  joined : p.IsChain R
  nodup : p.Nodup
  length : p.length ≤ bound + 1

theorem CallHierarchyNode.located_eq (above : List ℕ) (n : CallHierarchyNode) :
    n.located above = (above, n) :: locatedAll (above ++ [n.step.nodeId]) n.children := by
  cases n
  rw [CallHierarchyNode.located]

theorem mem_locatedAll {above : List ℕ} {ns : List CallHierarchyNode}
    {l : List ℕ × CallHierarchyNode} :
    l ∈ locatedAll above ns ↔ ∃ n ∈ ns, l ∈ n.located above := by
  induction ns with
  | nil => simp [locatedAll]
  | cons n ns ih => simp [locatedAll, ih]

theorem openPaths_append (xs ys : List (List ℕ × CallHierarchyNode)) :
    openPaths (xs ++ ys) = openPaths xs ++ openPaths ys := by
  simp [openPaths]

theorem openPaths_locatedAll (above : List ℕ) (ns : List CallHierarchyNode) :
    openPaths (locatedAll above ns) = ns.flatMap fun n => openPaths (n.located above) := by
  induction ns with
  | nil => rfl
  | cons n ns ih => rw [locatedAll, openPaths_append, ih, List.flatMap_cons]

/-! ### One expansion -/

section Expansion

variable {g : Graph} {direction : ReachDirection}

/-- The subtree below an edge: a leaf where the edge leads back, or what the recursion makes of it. -/
def hierarchyChild (g : Graph) (direction : ReachDirection) (depth : ℕ)
    (expand : ℕ → Option Node → Option Edge → Finset ℕ → CallHierarchyNode × Finset ℕ)
    (path : Finset ℕ) (e : Edge) : CallHierarchyNode :=
  if direction.next e ∈ path then
    { step :=
        { depth := depth + 1
          nodeId := direction.next e
          edge := some e
          node := g.getNode (direction.next e) }
      cyclic := true
      truncated := false
      children := [] }
  else (expand (direction.next e) (g.getNode (direction.next e)) (some e) path).1

variable {nodeId depth : ℕ} {path : Finset ℕ}

/-- Where the recursion restores the set, the loop does, and makes one subtree for each neighbour. -/
theorem expandNeighbours_eq
    {expand : ℕ → Option Node → Option Edge → Finset ℕ → CallHierarchyNode × Finset ℕ}
    (hexpand : ∀ next nextMeta e, next ∉ path → (expand next nextMeta e path).2 = path)
    (es : List Edge) (seen : List ℕ) :
    expandNeighbours g direction nodeId depth expand es path seen =
      ((BreadthFirst.firsts direction.next (nodeId :: seen) es).map
        (hierarchyChild g direction depth expand path), path) := by
  induction es generalizing seen with
  | nil => rfl
  | cons e es ih =>
    rw [expandNeighbours, BreadthFirst.firsts]
    simp only [List.mem_cons]
    have hswap : BreadthFirst.firsts direction.next (nodeId :: direction.next e :: seen) es =
        BreadthFirst.firsts direction.next (direction.next e :: nodeId :: seen) es :=
      BreadthFirst.firsts_congr (fun a => by simp only [List.mem_cons]; tauto) _
    by_cases hseen : direction.next e = nodeId ∨ direction.next e ∈ seen
    · rw [if_pos hseen, if_pos hseen]
      exact ih seen
    · rw [if_neg hseen, if_neg hseen, List.map_cons]
      by_cases hback : direction.next e ∈ path
      · rw [if_pos hback, ih, hswap, hierarchyChild, if_pos hback]
      · rw [if_neg hback, hexpand _ _ _ hback, ih, hswap, hierarchyChild, if_neg hback]

def hierarchyChildren (g : Graph) (direction : ReachDirection) (levels depth nodeId : ℕ)
    (path : Finset ℕ) : List CallHierarchyNode :=
  (BreadthFirst.firsts direction.next [nodeId]
    (g.edgesFrom direction nodeId (some "CALLS") traceFanout)).map
      (hierarchyChild g direction depth (expandHierarchy g direction levels (depth + 1))
        (insert nodeId path))

/-- **The set of ancestors is restored.** -/
theorem snd_expandHierarchy {levels : ℕ} {nodeMeta : Option Node} {e : Option Edge}
    (hnot : nodeId ∉ path) :
    (expandHierarchy g direction levels depth nodeId nodeMeta e path).2 = path := by
  induction levels generalizing depth nodeId nodeMeta e path with
  | zero => rfl
  | succ levels ih =>
    rw [expandHierarchy, expandNeighbours_eq fun next nextMeta e hnext => ih hnext]
    exact Finset.erase_insert hnot

theorem expandHierarchy_succ {levels : ℕ} {nodeMeta : Option Node} {e : Option Edge}
    (hnot : nodeId ∉ path) :
    expandHierarchy g direction (levels + 1) depth nodeId nodeMeta e path =
      (⟨⟨depth, nodeId, e, nodeMeta⟩, false, false,
        hierarchyChildren g direction levels depth nodeId path⟩, path) := by
  rw [expandHierarchy, expandNeighbours_eq fun next nextMeta e hnext => snd_expandHierarchy hnext]
  exact Prod.ext rfl (Finset.erase_insert hnot)

/-- The edges to the neighbours of a node other than itself, one for each. -/
def hierarchyEdges (g : Graph) (direction : ReachDirection) (nodeId : ℕ) : List Edge :=
  BreadthFirst.firsts direction.next [nodeId]
    (g.edgesFrom direction nodeId (some "CALLS") traceFanout)

theorem mem_hierarchyEdges {e : Edge} (h : e ∈ hierarchyEdges g direction nodeId) :
    e ∈ g.edgesFrom direction nodeId (some "CALLS") traceFanout ∧ direction.next e ≠ nodeId := by
  obtain ⟨he, hne⟩ := BreadthFirst.mem_of_mem_firsts h
  exact ⟨he, by simpa using hne⟩

theorem fetched_iff_hierarchyEdges {b : ℕ} (hne : b ≠ nodeId) :
    g.Fetched direction ["CALLS"] traceFanout nodeId b ↔
      ∃ e ∈ hierarchyEdges g direction nodeId, direction.next e = b := by
  constructor
  · rintro ⟨ty, hty, e, he, rfl⟩
    rw [List.mem_singleton.1 hty] at he
    exact BreadthFirst.exists_mem_firsts direction.next he fun hin => hne (List.mem_singleton.1 hin)
  · rintro ⟨e, he, rfl⟩
    exact ⟨"CALLS", List.mem_singleton_self _, e, (mem_hierarchyEdges he).1, rfl⟩

theorem hierarchyChildren_eq (levels depth nodeId : ℕ) (path : Finset ℕ) :
    hierarchyChildren g direction levels depth nodeId path =
      (hierarchyEdges g direction nodeId).map
        (hierarchyChild g direction depth (expandHierarchy g direction levels (depth + 1))
          (insert nodeId path)) := rfl

end Expansion

/-! ### What the nodes look like -/

/-- How a node was come to: the root without an edge, any other over a call of its parent. -/
def EnteredBy (g : Graph) (direction : ReachDirection) (above : List ℕ) (nodeId : ℕ) :
    Option Edge → Prop
  | none => above = []
  | some e => e ∈ g.edges.rows ∧ e.edgeType = "CALLS" ∧ above.getLast? = some (direction.here e) ∧
      direction.next e = nodeId

/-- A node of a hierarchy, with its ancestors: it is a cyclic leaf exactly where its edge leads back to
one of them. -/
structure InPlace (g : Graph) (direction : ReachDirection) (maxDepth : ℕ)
    (l : List ℕ × CallHierarchyNode) : Prop where
  cyclic_iff : l.2.cyclic = true ↔ l.2.step.nodeId ∈ l.1
  leaf : l.2.cyclic = true → l.2.children = []
  depth : l.2.step.depth = l.1.length
  truncated_iff : l.2.truncated = true ↔ l.2.cyclic = false ∧ maxDepth ≤ l.2.step.depth
  edge : EnteredBy g direction l.1 l.2.step.nodeId l.2.step.edge

section Nodes

variable {g : Graph} {direction : ReachDirection} {maxDepth : ℕ}

theorem insert_toFinset (above : List ℕ) (nodeId : ℕ) :
    insert nodeId above.toFinset = (above ++ [nodeId]).toFinset := by
  ext a
  simp

variable {levels nodeId : ℕ} {above : List ℕ}

theorem located_expand {depth : ℕ} {nodeMeta : Option Node} {e : Option Edge}
    (hnot : nodeId ∉ above) (hdepth : depth = above.length) (hlevels : depth + levels = maxDepth)
    (hedge : EnteredBy g direction above nodeId e) :
    ∀ l ∈ (expandHierarchy g direction levels depth nodeId nodeMeta e above.toFinset).1.located above,
      InPlace g direction maxDepth l := by
  induction levels generalizing depth nodeId nodeMeta e above with
  | zero =>
    intro l hl
    rw [expandHierarchy, CallHierarchyNode.located_eq] at hl
    obtain rfl := List.mem_singleton.1 hl
    constructor
    · simpa using hnot
    · intro hc
      cases hc
    · exact hdepth
    · simp only [true_iff, true_and]
      omega
    · exact hedge
  | succ levels ih =>
    intro l hl
    rw [expandHierarchy_succ (by simpa using hnot), CallHierarchyNode.located_eq] at hl
    rcases List.mem_cons.1 hl with rfl | hl
    · constructor
      · simpa using hnot
      · intro hc
        cases hc
      · exact hdepth
      · simp only [Bool.false_eq_true, true_and, false_iff]
        omega
      · exact hedge
    · obtain ⟨n, hn, hl⟩ := mem_locatedAll.1 hl
      rw [hierarchyChildren_eq, insert_toFinset] at hn
      obtain ⟨x, hx, rfl⟩ := List.mem_map.1 hn
      obtain ⟨hmem, hne⟩ := mem_hierarchyEdges hx
      obtain ⟨hrow, hhere, hty⟩ := Graph.mem_of_mem_edgesFrom hmem
      have hentered : EnteredBy g direction (above ++ [nodeId]) (direction.next x) (some x) :=
        ⟨hrow, hty, by rw [List.getLast?_concat, hhere], rfl⟩
      rw [hierarchyChild] at hl
      by_cases hback : direction.next x ∈ (above ++ [nodeId]).toFinset
      · rw [if_pos hback, CallHierarchyNode.located_eq] at hl
        obtain rfl := List.mem_singleton.1 hl
        constructor
        · simp only [true_iff]
          exact List.mem_toFinset.1 hback
        · intro _
          rfl
        · simp [hdepth]
        · simp
        · exact hentered
      · rw [if_neg hback] at hl
        exact ih (fun hin => hback (List.mem_toFinset.2 hin)) (by simp [hdepth]) (by omega) hentered l hl

/-- A list of paths is all those that go on from `above` through `nodeId`, without repeats, as far as the
levels go, and has each of them once. -/
def ListsPaths (g : Graph) (direction : ReachDirection) (levels : ℕ) (above : List ℕ) (nodeId : ℕ)
    (paths : List (List ℕ)) : Prop :=
  paths.Nodup ∧ ∀ p, p ∈ paths ↔ ∃ tail, p = above ++ nodeId :: tail ∧ tail.length ≤ levels ∧
    (nodeId :: tail).IsChain (g.Fetched direction ["CALLS"] traceFanout) ∧
    (above ++ nodeId :: tail).Nodup

/-- The paths of a tree: the one to its root, and those of its children. -/
theorem openPaths_expand_succ (levels depth : ℕ) (nodeMeta : Option Node) (e : Option Edge)
    (hnot : nodeId ∉ above) :
    openPaths ((expandHierarchy g direction (levels + 1) depth nodeId nodeMeta e
        above.toFinset).1.located above) = (above ++ [nodeId]) ::
          (hierarchyEdges g direction nodeId).flatMap fun x =>
            openPaths ((hierarchyChild g direction depth
              (expandHierarchy g direction levels (depth + 1))
              (above ++ [nodeId]).toFinset x).located (above ++ [nodeId])) := by
  rw [expandHierarchy_succ (by simpa using hnot), CallHierarchyNode.located_eq,
    ← List.singleton_append, openPaths_append, openPaths_locatedAll, hierarchyChildren_eq,
    insert_toFinset, List.flatMap_map]
  rfl

theorem listsPaths_nil (h : nodeId ∈ above) : ListsPaths g direction levels above nodeId [] := by
  refine ⟨List.nodup_nil, fun p => iff_of_false (by rintro ⟨⟩) ?_⟩
  rintro ⟨tail, -, -, -, hp⟩
  exact (List.nodup_append.1 hp).2.2 _ h _ List.mem_cons_self rfl

theorem listsPaths_succ (hself : (above ++ [nodeId]).Nodup) {paths : Edge → List (List ℕ)}
    (hchild : ∀ x ∈ hierarchyEdges g direction nodeId,
      ListsPaths g direction levels (above ++ [nodeId]) (direction.next x) (paths x)) :
    ListsPaths g direction (levels + 1) above nodeId
      ((above ++ [nodeId]) :: (hierarchyEdges g direction nodeId).flatMap paths) := by
  constructor
  · rw [List.nodup_cons, List.nodup_flatMap]
    refine ⟨fun hin => ?_, fun x hx => (hchild x hx).1, ?_⟩
    · obtain ⟨x, hx, hp⟩ := List.mem_flatMap.1 hin
      obtain ⟨tail, heq, -⟩ := ((hchild x hx).2 _).1 hp
      have hlen := congrArg List.length heq
      simp at hlen
    · have hnext : (hierarchyEdges g direction nodeId).Pairwise
          fun x y => direction.next x ≠ direction.next y :=
        List.pairwise_map.1 (BreadthFirst.nodup_firsts _ _)
      refine hnext.imp_of_mem fun {x y} hx hy hne p hpx hpy => ?_
      obtain ⟨tail, hpx', -⟩ := ((hchild x hx).2 p).1 hpx
      obtain ⟨tail', hpy', -⟩ := ((hchild y hy).2 p).1 hpy
      rw [hpx', List.append_cancel_left_eq] at hpy'
      injection hpy' with heq _
      exact hne heq
  · intro p
    rw [List.mem_cons, List.mem_flatMap]
    constructor
    · rintro (rfl | ⟨x, hx, hp⟩)
      · exact ⟨[], rfl, Nat.zero_le _, List.isChain_singleton _, hself⟩
      · obtain ⟨tail, rfl, hlen, hchain, hp⟩ := ((hchild x hx).2 p).1 hp
        refine ⟨direction.next x :: tail, (List.append_cons _ _ _).symm, Nat.succ_le_succ hlen, ?_, ?_⟩
        · exact List.isChain_cons_cons.2
            ⟨(fetched_iff_hierarchyEdges (mem_hierarchyEdges hx).2).2 ⟨x, hx, rfl⟩, hchain⟩
        · rwa [List.append_cons]
    · rintro ⟨tail, rfl, hlen, hchain, hp⟩
      cases tail with
      | nil => exact .inl rfl
      | cons b tail =>
        obtain ⟨hR, hchain⟩ := List.isChain_cons_cons.1 hchain
        have hne : b ≠ nodeId := by
          rintro rfl
          have hcons := (List.nodup_append.1 hp).2.1
          exact (List.nodup_cons.1 hcons).1 List.mem_cons_self
        obtain ⟨x, hx, rfl⟩ := (fetched_iff_hierarchyEdges hne).1 hR
        rw [List.append_cons] at hp ⊢
        exact .inr ⟨x, hx, ((hchild x hx).2 _).2
          ⟨tail, rfl, Nat.le_of_succ_le_succ hlen, hchain, hp⟩⟩

variable (g direction) in
/-- The paths to the nodes of a tree that are not cyclic: those that go on from the root without
repeats, as far as the levels go. -/
theorem openPaths_expand (levels depth : ℕ) {nodeId : ℕ} (nodeMeta : Option Node) (e : Option Edge)
    {above : List ℕ} (hnot : nodeId ∉ above) (hnd : above.Nodup) :
    ListsPaths g direction levels above nodeId
      (openPaths ((expandHierarchy g direction levels depth nodeId nodeMeta e
        above.toFinset).1.located above)) := by
  have hself : (above ++ [nodeId]).Nodup := by
    rw [← List.concat_eq_append]
    exact hnd.concat hnot
  induction levels generalizing depth nodeId nodeMeta e above with
  | zero =>
    have hopen : openPaths ((expandHierarchy g direction 0 depth nodeId nodeMeta e
        above.toFinset).1.located above) = [above ++ [nodeId]] := rfl
    rw [hopen]
    refine ⟨List.nodup_singleton _, fun p => ?_⟩
    rw [List.mem_singleton]
    constructor
    · rintro rfl
      exact ⟨[], rfl, le_rfl, List.isChain_singleton _, hself⟩
    · rintro ⟨tail, rfl, hlen, -, -⟩
      rw [List.length_eq_zero_iff.1 (Nat.le_zero.1 hlen)]
  | succ levels ih =>
    rw [openPaths_expand_succ levels depth nodeMeta e hnot]
    refine listsPaths_succ hself fun x _ => ?_
    rw [hierarchyChild]
    by_cases hback : direction.next x ∈ (above ++ [nodeId]).toFinset
    · rw [if_pos hback]
      exact listsPaths_nil (List.mem_toFinset.1 hback)
    · rw [if_neg hback]
      have hback' : direction.next x ∉ above ++ [nodeId] := fun hin =>
        hback (List.mem_toFinset.2 hin)
      have hchild : (above ++ [nodeId] ++ [direction.next x]).Nodup := by
        rw [← List.concat_eq_append]
        exact hself.concat hback'
      exact ih (depth + 1) (g.getNode (direction.next x)) (some x) hback' hself hchild

end Nodes

/-! ### The hierarchy -/

section Hierarchy

variable {g : Graph} {startId : ℕ} {direction : ReachDirection} {maxDepth : ℕ}

variable (direction maxDepth) in
theorem callHierarchy_isSome : (callHierarchy g startId direction maxDepth).root.isSome ↔
    startId ∈ g.nodeIds := by
  rw [← Graph.getNode_isSome_iff, callHierarchy]
  cases g.getNode startId <;> simp

theorem mem_nodeIds_of_root {root : CallHierarchyNode}
    (hroot : (callHierarchy g startId direction maxDepth).root = some root) : startId ∈ g.nodeIds :=
  (callHierarchy_isSome direction maxDepth).1 (by rw [hroot]; rfl)

theorem inPlace_of_root {root : CallHierarchyNode}
    (hroot : (callHierarchy g startId direction maxDepth).root = some root) :
    ∀ l ∈ root.located [], InPlace g direction maxDepth l := by
  rw [callHierarchy] at hroot
  cases hn : g.getNode startId with
  | none =>
    rw [hn] at hroot
    cases hroot
  | some n =>
    rw [hn] at hroot
    cases hroot
    have hedge : EnteredBy g direction [] startId none := rfl
    exact located_expand List.not_mem_nil rfl (Nat.zero_add _) hedge

/-- The nodes that are not cyclic stand for the simple paths, over the edges that the cap lets through. -/
theorem openPaths_of_root {root : CallHierarchyNode}
    (hroot : (callHierarchy g startId direction maxDepth).root = some root) :
    (openPaths (root.located [])).Nodup ∧ ∀ p, p ∈ openPaths (root.located []) ↔
      IsSimplePath (g.Fetched direction ["CALLS"] traceFanout) startId maxDepth p := by
  rw [callHierarchy] at hroot
  cases hn : g.getNode startId with
  | none =>
    rw [hn] at hroot
    cases hroot
  | some n =>
    rw [hn] at hroot
    cases hroot
    obtain ⟨hnd, hmem⟩ := openPaths_expand g direction maxDepth 0 (some n) none
      (List.not_mem_nil (a := startId)) List.nodup_nil
    refine ⟨hnd, fun p => (hmem p).trans ⟨?_, ?_⟩⟩
    · rintro ⟨tail, rfl, hlen, hchain, hp⟩
      exact ⟨rfl, hchain, hp, Nat.succ_le_succ hlen⟩
    · rintro ⟨hfirst, hchain, hp, hlen⟩
      cases p with
      | nil => cases hfirst
      | cons a tail =>
        cases hfirst
        exact ⟨tail, rfl, Nat.le_of_succ_le_succ hlen, hchain, hp⟩

end Hierarchy

/-- **A call hierarchy enumerates the simple paths**: where no node has more calls than the cap, the nodes
that are not cyclic are in bijection with the simple paths from the root within the bound; a node is a
cyclic leaf exactly where its edge leads back to an ancestor; and every call of the recursion restores
the set of ancestors. -/
theorem callHierarchy_paths (g : Graph) (startId : ℕ) (direction : ReachDirection) (maxDepth : ℕ)
    (hcap : g.WithinCap direction ["CALLS"] 1024) :
    ((callHierarchy g startId direction maxDepth).root.isSome ↔ startId ∈ g.nodeIds) ∧
    (∀ root, (callHierarchy g startId direction maxDepth).root = some root →
      ((openPaths (root.located [])).Nodup ∧ ∀ p, p ∈ openPaths (root.located []) ↔
        IsSimplePath (g.Joined direction ["CALLS"]) startId maxDepth p) ∧
      ∀ l ∈ root.located [], InPlace g direction maxDepth l) ∧
    ∀ levels depth nodeId nodeMeta e (path : Finset ℕ), nodeId ∉ path →
      (expandHierarchy g direction levels depth nodeId nodeMeta e path).2 = path := by
  have hR : g.Fetched direction ["CALLS"] traceFanout = g.Joined direction ["CALLS"] :=
    Graph.fetched_eq_joined traceFanout (by decide) hcap
  refine ⟨callHierarchy_isSome direction maxDepth, fun root hroot => ⟨?_, inPlace_of_root hroot⟩, ?_⟩
  · rw [← hR]
    exact openPaths_of_root hroot
  · intro levels depth nodeId nodeMeta e path hnot
    exact snd_expandHierarchy hnot

/-- The hierarchy of a diamond with a way back: two subtrees for the shared callee, each with a cyclic
leaf. -/
theorem callHierarchy_paths_diamond :
    (((callHierarchy diamond 1 .outgoing 3).root.isSome ↔ 1 ∈ diamond.nodeIds) ∧
      (∀ root, (callHierarchy diamond 1 .outgoing 3).root = some root →
        ((openPaths (root.located [])).Nodup ∧ ∀ p, p ∈ openPaths (root.located []) ↔
          IsSimplePath (diamond.Joined .outgoing ["CALLS"]) 1 3 p) ∧
        ∀ l ∈ root.located [], InPlace diamond .outgoing 3 l) ∧
      ∀ levels depth nodeId nodeMeta e (path : Finset ℕ), nodeId ∉ path →
        (expandHierarchy diamond .outgoing levels depth nodeId nodeMeta e path).2 = path) ∧
    (callHierarchy diamond 1 .outgoing 3).root.map
      (fun root => (root.located []).map fun l => (rootPath l, l.2.cyclic)) =
        some [([1], false), ([1, 2], false), ([1, 2, 4], false), ([1, 2, 4, 1], true),
          ([1, 3], false), ([1, 3, 4], false), ([1, 3, 4, 1], true)] :=
  ⟨callHierarchy_paths diamond 1 .outgoing 3 (Graph.withinCap_of_length_le (by decide +kernel)),
    by decide +kernel⟩

/-! ### More calls than the cap -/

/-- A function and the functions it calls, `n` of them. -/
def hub (n : ℕ) : Graph where
  projects := ⟨[⟨"p", "2026-06-29T00:00:00Z", "/p"⟩], by simp⟩
  nodes :=
    { rows := (List.range (n + 1)).map fun i =>
        ⟨⟨"p", "Function", String.ofList (List.replicate i 'f'), String.ofList (List.replicate i 'f'),
          "src/lib.rs", 1, 1, .null⟩, i + 1⟩
      keys_nodup := by
        rw [List.map_map]
        refine List.nodup_range.map fun i j h => ?_
        have hname := congrArg (fun k => k.2.toList.length) h
        simpa [Node.key] using hname }
  nextNodeId := n + 2
  edges :=
    { rows := (List.range n).map fun i => ⟨"p", 1, i + 2, "CALLS", .null⟩
      keys_nodup := by
        rw [List.map_map]
        refine List.nodup_range.map fun i j h => ?_
        have htarget := congrArg (fun k => k.2.1) h
        simpa [Edge.key] using htarget }
  ids_nodup := by
    rw [List.map_map]
    exact List.nodup_range.map fun i j h => Nat.succ.inj h
  ids_lt := by
    intro m hm
    obtain ⟨i, hi, rfl⟩ := List.mem_map.1 hm
    have hlt := List.mem_range.1 hi
    simp only
    omega
  nodes_fk := by
    intro m hm
    obtain ⟨i, -, rfl⟩ := List.mem_map.1 hm
    rfl
  edges_fk := by
    intro e he
    obtain ⟨i, hi, rfl⟩ := List.mem_map.1 he
    have hlt := List.mem_range.1 hi
    refine ⟨rfl, List.mem_map.2 ⟨_, List.mem_map.2 ⟨0, by simp, rfl⟩, rfl⟩,
      List.mem_map.2 ⟨_, List.mem_map.2 ⟨i + 1, by simp; omega, rfl⟩, rfl⟩⟩

theorem edgesFrom_hub (n : ℕ) {cap : ℕ} (hcap : cap < 2 ^ 63) :
    (hub n).edgesFrom .outgoing 1 (some "CALLS") cap =
      (List.range (min cap n)).map fun i => ⟨"p", 1, i + 2, "CALLS", .null⟩ := by
  have hall : (hub n).edges.rows.filter (fun e => decide
      (ReachDirection.here .outgoing e = 1 ∧ ∀ ty ∈ some "CALLS", e.edgeType = ty)) =
        (hub n).edges.rows := by
    rw [List.filter_eq_self]
    intro e he
    obtain ⟨i, -, rfl⟩ := List.mem_map.1 he
    rfl
  rw [Graph.edgesFrom, hall, Graph.sqlLimit_eq_take hcap, hub, ← List.map_take, List.take_range]

theorem mem_nodeIds_hub (n : ℕ) : 1 ∈ (hub n).nodeIds :=
  List.mem_map.2 ⟨_, List.mem_map.2 ⟨0, List.mem_range.2 (Nat.succ_pos n), rfl⟩, rfl⟩

theorem mem_edges_hub {n i : ℕ} (h : i < n) :
    (⟨"p", 1, i + 2, "CALLS", .null⟩ : Edge) ∈ (hub n).edges.rows :=
  List.mem_map.2 ⟨i, List.mem_range.2 h, rfl⟩

/-- Of a function that calls more than the cap allows, the last ones are left out. -/
theorem callHierarchy_cap_cuts :
    ¬ ∀ root, (callHierarchy (hub 1025) 1 .outgoing 1).root = some root →
      ∀ p, p ∈ openPaths (root.located []) ↔
        IsSimplePath ((hub 1025).Joined .outgoing ["CALLS"]) 1 1 p := by
  intro h
  obtain ⟨root, hroot⟩ := Option.isSome_iff_exists.1
    ((callHierarchy_isSome .outgoing 1).2 (mem_nodeIds_hub 1025))
  have hedge : (⟨"p", 1, 1026, "CALLS", .null⟩ : Edge) ∈ (hub 1025).edges.rows :=
    mem_edges_hub (i := 1024) (by omega)
  have hpath : IsSimplePath ((hub 1025).Joined .outgoing ["CALLS"]) 1 1 [1, 1026] :=
    ⟨rfl, List.isChain_pair.2 ⟨_, hedge, List.mem_singleton_self _, rfl, rfl⟩, by simp, le_rfl⟩
  have hopen := ((openPaths_of_root hroot).2 _).1 ((h root hroot _).2 hpath)
  obtain ⟨ty, hty, e, he, hnext⟩ := List.isChain_pair.1 hopen.joined
  rw [List.mem_singleton.1 hty, edgesFrom_hub 1025 (by decide)] at he
  obtain ⟨i, hi, rfl⟩ := List.mem_map.1 he
  have hlt : i < 1024 := (List.mem_range.1 hi).trans_le (min_le_left _ _)
  have heq : i + 2 = 1026 := hnext
  omega

/-! ### Truncation marks -/

/-- The truncation marks mean what they say: a node is marked exactly where it is no cyclic leaf and has
a further neighbour that the bound of the depth kept from being expanded. -/
def MarksMeaningful (g : Graph) (direction : ReachDirection) (maxDepth : ℕ)
    (root : CallHierarchyNode) : Prop :=
  ∀ l ∈ root.located [], l.2.truncated = true ↔ l.2.cyclic = false ∧ maxDepth ≤ l.2.step.depth ∧
    ∃ b, b ≠ l.2.step.nodeId ∧ g.Joined direction ["CALLS"] l.2.step.nodeId b

/-- **When the truncation marks are right**: exactly when each simple path that is as long as the bound
allows ends at a node with a further neighbour. -/
theorem truncated_meaningful_iff (g : Graph) (startId : ℕ) (direction : ReachDirection)
    (maxDepth : ℕ) :
    (∀ root, (callHierarchy g startId direction maxDepth).root = some root →
      MarksMeaningful g direction maxDepth root) ↔
    (startId ∈ g.nodeIds → ∀ p a,
      IsSimplePath (g.Fetched direction ["CALLS"] traceFanout) startId maxDepth (p ++ [a]) →
        p.length = maxDepth → ∃ b, b ≠ a ∧ g.Joined direction ["CALLS"] a b) := by
  constructor
  · intro h hstart p a hpath hlen
    obtain ⟨root, hroot⟩ := Option.isSome_iff_exists.1
      ((callHierarchy_isSome direction maxDepth).2 hstart)
    -- the path is that of an open node, at the bound of the depth
    obtain ⟨l, hl, hlp⟩ := List.mem_map.1 (((openPaths_of_root hroot).2 _).2 hpath)
    obtain ⟨hl, hopen⟩ := List.mem_filter.1 hl
    obtain ⟨hp, ha⟩ := List.append_inj' hlp rfl
    obtain rfl : l.2.step.nodeId = a := by simpa using ha
    have hplace := inPlace_of_root hroot l hl
    have hdepth : maxDepth ≤ l.2.step.depth := by rw [hplace.depth, hp, hlen]
    have hcyclic : l.2.cyclic = false := by simpa using hopen
    exact ((h root hroot l hl).1 (hplace.truncated_iff.2 ⟨hcyclic, hdepth⟩)).2.2
  · intro h root hroot l hl
    have hplace := inPlace_of_root hroot l hl
    rw [hplace.truncated_iff]
    constructor
    · rintro ⟨hcyclic, hdepth⟩
      refine ⟨hcyclic, hdepth, ?_⟩
      have hpath := ((openPaths_of_root hroot).2 (rootPath l)).1
        (List.mem_map_of_mem (List.mem_filter.2 ⟨hl, by simp [hcyclic]⟩))
      refine h (mem_nodeIds_of_root hroot) l.1 _ hpath ?_
      have hlen := hpath.length
      rw [rootPath, List.length_append, List.length_singleton] at hlen
      rw [hplace.depth] at hdepth
      omega
    · rintro ⟨hcyclic, hdepth, -⟩
      exact ⟨hcyclic, hdepth⟩

def loneCall : Graph := functionGraph ["a", "b"] [(1, 2, "CALLS")]

/-- A callee without calls at the bound of the depth is marked truncated. -/
theorem truncated_leaf :
    ¬ ∀ root, (callHierarchy loneCall 1 .outgoing 1).root = some root →
      MarksMeaningful loneCall .outgoing 1 root := by
  intro h
  obtain ⟨root, hroot⟩ : ∃ root, (callHierarchy loneCall 1 .outgoing 1).root = some root :=
    Option.isSome_iff_exists.1 (by decide +kernel)
  have hlist : (callHierarchy loneCall 1 .outgoing 1).root.map
      (fun root => (root.located []).map fun l => (l.2.step.nodeId, l.2.truncated)) =
        some [(1, false), (2, true)] := by decide +kernel
  rw [hroot, Option.map_some, Option.some.injEq] at hlist
  obtain ⟨l, hl, hleaf⟩ := List.mem_map.1 (hlist ▸ (by simp : (2, true) ∈ [(1, false), (2, true)]))
  obtain ⟨hid, htrunc⟩ := Prod.mk.inj hleaf
  obtain ⟨-, -, b, -, hjoined⟩ := (h root hroot l hl).1 htrunc
  rw [hid] at hjoined
  obtain ⟨e, he, -, hhere, -⟩ := hjoined
  have hnone : ∀ e ∈ loneCall.edges.rows, ReachDirection.here .outgoing e ≠ 2 := by decide +kernel
  exact hnone e he hhere

end Greppy
