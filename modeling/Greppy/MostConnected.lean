/-
**The most connected nodes.**

`most_connected` of `crates/search/src/graph.rs` ranks the nodes of a project by how many edges they have.
It takes its candidates from a search that is cut at a limit, in an order that has nothing to do with
edges, and counts the edges of a candidate as far as they are fetched.  Its siblings `fan_in` and
`fan_out` count the edges of a project in the database.
-/

import Greppy.CallCycles
import Greppy.CallHierarchy
import Greppy.Neighbourhoods

set_option autoImplicit false

namespace Greppy

/-! ### The queries -/

structure DegreeRanked where
  degree : ℕ
  node : SearchGraphRow
  deriving DecidableEq

/-- The order of the ranking: the greatest degree first, then by qualified name and id. -/
def DegreeRanked.key (r : DegreeRanked) : ℕᵒᵈ ×ₗ String ×ₗ ℕ :=
  toLex (OrderDual.toDual r.degree, r.node.qnameKey)

inductive DegreeKind where
  | outgoing
  | incoming
  | total
  deriving DecidableEq

/-- The degree of a node as the query counts it, from the edges it fetches. -/
def fetchedDegree (g : Graph) (edgeType : Option String) (kind : DegreeKind) (id : ℕ) : ℕ :=
  let out := match kind with
    | .outgoing | .total => (g.edgesFrom .outgoing id edgeType maxReachResults).length
    | .incoming => 0
  let inc := match kind with
    | .incoming | .total => (g.edgesFrom .incoming id edgeType maxReachResults).length
    | .outgoing => 0
  out + inc

def mostConnected (g : Graph) (project edgeType : Option String) (kind : DegreeKind) (n : ℕ) :
    List DegreeRanked :=
  if n = 0 then []
  else
    let rows := searchGraph g project defaultLimit
    let ranked := rows.map fun row => { degree := fetchedDegree g edgeType kind row.id, node := row }
    (Ranking.ranked DegreeRanked.key ranked).take n

/-- `COUNT(e.id)` of the group of a node: the edges of a type in a project that have the node at the end
in question. -/
def fanCount (g : Graph) (project edgeType : String) (endpoint : ReachDirection) (id : ℕ) : ℕ :=
  g.edges.rows.countP fun e =>
    decide (e.project = project ∧ e.edgeType = edgeType ∧ endpoint.here e = id)

/-- The groups of `fan_degree` in their order: the nodes of the project with an edge in it. -/
def fanRows (g : Graph) (project edgeType : String) (endpoint : ReachDirection) : List DegreeRanked :=
  Ranking.ranked DegreeRanked.key <|
    ((g.nodes.rows.filter fun n => decide (n.project = project)).map fun n =>
      { degree := fanCount g project edgeType endpoint n.id, node := n.searchRow }).filter
        fun r => decide (0 < r.degree)

def fanDegree (g : Graph) (project edgeType : String) (endpoint : ReachDirection) (limit : ℕ) :
    List DegreeRanked :=
  if limit = 0 then [] else (fanRows g project edgeType endpoint).take (min limit maxReachResults)

def fanIn (g : Graph) (project edgeType : String) (limit : ℕ) : List DegreeRanked :=
  fanDegree g project edgeType .incoming limit

def fanOut (g : Graph) (project edgeType : String) (limit : ℕ) : List DegreeRanked :=
  fanDegree g project edgeType .outgoing limit

/-! ### The ranking of all nodes -/

/-- The number of edges of a node in a direction. -/
def edgeCount (g : Graph) (edgeType : Option String) (d : ReachDirection) (id : ℕ) : ℕ :=
  g.edges.rows.countP fun e => decide (d.here e = id ∧ ∀ ty ∈ edgeType, e.edgeType = ty)

/-- The number of edges of a node, in both directions. -/
def totalDegree (g : Graph) (edgeType : Option String) (id : ℕ) : ℕ :=
  edgeCount g edgeType .outgoing id + edgeCount g edgeType .incoming id

def projectRows (g : Graph) (project : Option String) : List SearchGraphRow :=
  (g.nodes.rows.filter fun n =>
    match project with
    | some p => decide (n.project = p)
    | none => true).map Node.searchRow

/-- The first `n` nodes of a project by their number of edges. -/
def topConnected (g : Graph) (project edgeType : Option String) (n : ℕ) : List DegreeRanked :=
  (Ranking.ranked DegreeRanked.key ((projectRows g project).map fun row =>
    { degree := totalDegree g edgeType row.id, node := row })).take n

/-- What is reported of a node: its degree, or zero where it is missing. -/
def reportedDegree (rows : List DegreeRanked) (id : ℕ) : ℕ :=
  ((rows.find? fun r => decide (r.node.id = id)).map DegreeRanked.degree).getD 0

/-- The most connected nodes of a project are what they are called, and the edges of each are as many as
`fan_in` and `fan_out` count for it. -/
structure MostConnectedRight (g : Graph) (project : String) (edgeType : Option String) (n : ℕ) : Prop where
  top : mostConnected g (some project) edgeType .total n = topConnected g (some project) edgeType n
  fans : ∀ ty ∈ edgeType, ∀ r ∈ mostConnected g (some project) edgeType .total n,
    r.degree = reportedDegree (fanRows g project ty .incoming) r.node.id +
      reportedDegree (fanRows g project ty .outgoing) r.node.id

/-! ### Candidates -/

section Candidates

variable {g : Graph} {project edgeType : Option String}

theorem searchGraph_eq_ranked {limit : ℕ} (h : limit < 2 ^ 63) :
    searchGraph g project limit =
      (Ranking.ranked SearchGraphRow.qnameKey (projectRows g project)).take limit := by
  have hmap : ∀ l : List Node, (orderByQnameId l).map Node.searchRow =
      Ranking.ranked SearchGraphRow.qnameKey (l.map Node.searchRow) := by
    intro l
    refine List.map_insertionSort _ _ _ _ fun a _ b _ => ?_
    rw [SearchGraphRow.qnameKey, SearchGraphRow.qnameKey, Prod.Lex.toLex_le_toLex]
    rfl
  rw [searchGraph, Graph.sqlLimit_eq_take h, List.map_take, hmap]
  rfl

theorem nodup_qnameKey : ((projectRows g project).map SearchGraphRow.qnameKey).Nodup := by
  have hids : ((projectRows g project).map SearchGraphRow.qnameKey).map (fun k => (ofLex k).2) =
      (g.nodes.rows.filter fun n => match project with
        | some p => decide (n.project = p)
        | none => true).map Node.id := by
    rw [projectRows, List.map_map, List.map_map]
    rfl
  refine List.Nodup.of_map (fun k => (ofLex k).2) (hids ▸ ?_)
  exact (List.filter_sublist.map _).nodup g.ids_nodup

theorem length_edgesFrom (d : ReachDirection) (id : ℕ) :
    (g.edgesFrom d id edgeType maxReachResults).length = min 10000 (edgeCount g edgeType d id) := by
  rw [Graph.edgesFrom, Graph.sqlLimit_eq_take (by decide), List.length_take, edgeCount,
    List.countP_eq_length_filter]
  rfl

theorem fetchedDegree_eq {id : ℕ} : fetchedDegree g edgeType .total id =
    min 10000 (edgeCount g edgeType .outgoing id) + min 10000 (edgeCount g edgeType .incoming id) := by
  rw [fetchedDegree, length_edgesFrom, length_edgesFrom]

theorem fetchedDegree_le (id : ℕ) : fetchedDegree g edgeType .total id ≤ totalDegree g edgeType id := by
  rw [fetchedDegree_eq, totalDegree]
  omega

/-- All of them are counted where neither direction exceeds the cap. -/
theorem fetchedDegree_eq_iff {id : ℕ} : fetchedDegree g edgeType .total id = totalDegree g edgeType id ↔
    ∀ d, edgeCount g edgeType d id ≤ 10000 := by
  rw [fetchedDegree_eq, totalDegree]
  constructor
  · intro h d
    cases d <;> omega
  · intro h
    rw [min_eq_right (h .outgoing), min_eq_right (h .incoming)]

end Candidates

/-! ### The ranking -/

section Top

variable {g : Graph} {project edgeType : Option String} {n : ℕ}

def SearchGraphRow.withDegree (deg : ℕ → ℕ) (row : SearchGraphRow) : DegreeRanked :=
  { degree := deg row.id, node := row }

theorem ranked_withDegree (deg : ℕ → ℕ) (rows : List SearchGraphRow) :
    Ranking.ranked DegreeRanked.key (rows.map (SearchGraphRow.withDegree deg)) =
      (Ranking.ranked (Ranking.byDegree SearchGraphRow.qnameKey fun r => deg r.id) rows).map
        (SearchGraphRow.withDegree deg) :=
  Ranking.ranked_map _ _ rows

theorem map_withDegree_eq_iff {deg deg' : ℕ → ℕ} {rows rows' : List SearchGraphRow} :
    rows'.map (SearchGraphRow.withDegree deg') = rows.map (SearchGraphRow.withDegree deg) ↔
      rows' = rows ∧ ∀ r ∈ rows, deg' r.id = deg r.id := by
  constructor
  · intro h
    have hrows := congrArg (List.map DegreeRanked.node) h
    simp only [List.map_map] at hrows
    have hnode : ∀ d : ℕ → ℕ, DegreeRanked.node ∘ SearchGraphRow.withDegree d = id := fun _ => rfl
    rw [hnode, hnode, List.map_id, List.map_id] at hrows
    subst hrows
    exact ⟨rfl, fun r hr => congrArg DegreeRanked.degree (List.map_inj_left.1 h r hr)⟩
  · rintro ⟨rfl, hdeg⟩
    refine List.map_congr_left fun r hr => ?_
    rw [SearchGraphRow.withDegree, SearchGraphRow.withDegree, hdeg r hr]

/-- A node is a candidate when few enough of its project come before it in the order of the search. -/
theorem mem_searchGraph_iff {row : SearchGraphRow} (hrow : row ∈ projectRows g project) :
    row ∈ searchGraph g project defaultLimit ↔
      Ranking.ahead SearchGraphRow.qnameKey (projectRows g project) row < 10000 := by
  rw [searchGraph_eq_ranked (by decide), Ranking.mem_take_ranked nodup_qnameKey]
  exact and_iff_right hrow

theorem mem_topConnected {r : DegreeRanked} (hr : r ∈ topConnected g project edgeType n) :
    r.node ∈ projectRows g project ∧ r.degree = totalDegree g edgeType r.node.id := by
  have hmem := (Ranking.mem_ranked _ _).1 (List.mem_of_mem_take hr)
  obtain ⟨row, hrow, rfl⟩ := List.mem_map.1 hmem
  exact ⟨hrow, rfl⟩

/-- **When the ranking is right**: when every node that ought to be in it is a candidate and has no more
edges in a direction than are fetched. -/
theorem mostConnected_eq_iff :
    mostConnected g project edgeType .total n = topConnected g project edgeType n ↔
      ∀ r ∈ topConnected g project edgeType n,
        Ranking.ahead SearchGraphRow.qnameKey (projectRows g project) r.node < 10000 ∧
        ∀ d, edgeCount g edgeType d r.node.id ≤ 10000 := by
  set sorted := Ranking.ranked SearchGraphRow.qnameKey (projectRows g project) with hsorted
  have hperm : sorted.Perm (projectRows g project) := Ranking.perm_ranked _ _
  have hnd : (sorted.map SearchGraphRow.qnameKey).Nodup :=
    ((hperm.map _).nodup_iff).2 nodup_qnameKey
  have hmost : mostConnected g project edgeType .total n =
      ((Ranking.ranked (Ranking.byDegree SearchGraphRow.qnameKey fun r =>
        fetchedDegree g edgeType .total r.id) (sorted.take defaultLimit)).take n).map
          (SearchGraphRow.withDegree (fetchedDegree g edgeType .total)) := by
    rw [List.map_take, ← ranked_withDegree, hsorted, ← searchGraph_eq_ranked (by decide)]
    by_cases hn : n = 0
    · rw [mostConnected, if_pos hn, hn, List.take_zero]
    · rw [mostConnected, if_neg hn]
      rfl
  have htop : topConnected g project edgeType n =
      ((Ranking.ranked (Ranking.byDegree SearchGraphRow.qnameKey fun r =>
        totalDegree g edgeType r.id) sorted).take n).map
          (SearchGraphRow.withDegree (totalDegree g edgeType)) := by
    rw [← Ranking.ranked_eq_of_perm (Ranking.nodup_byDegree nodup_qnameKey) hperm.symm,
      List.map_take, ← ranked_withDegree]
    rfl
  rw [hmost, htop, map_withDegree_eq_iff, Ranking.take_byDegree_eq_iff hnd (List.take_sublist _ _)
    (fun r => fetchedDegree_le r.id), List.forall_mem_map]
  refine forall₂_congr fun r hr => ?_
  have hrow : r ∈ projectRows g project :=
    hperm.mem_iff.1 ((Ranking.mem_ranked _ _).1 (List.mem_of_mem_take hr))
  refine and_congr ?_ fetchedDegree_eq_iff
  have hcandidate := mem_searchGraph_iff hrow
  rwa [searchGraph_eq_ranked (by decide)] at hcandidate

end Top

/-! ### The siblings -/

section Fans

variable {g : Graph} {project ty : String} {d : ReachDirection} {id : ℕ}

/-- What the siblings report of a node of the project is the number of its edges in the project. -/
theorem reportedDegree_fanRows {row : SearchGraphRow} (hrow : row ∈ projectRows g (some project)) :
    reportedDegree (fanRows g project ty d) row.id = fanCount g project ty d row.id := by
  have hmem : ∀ r, r ∈ fanRows g project ty d ↔ 0 < r.degree ∧ ∃ n ∈ g.nodes.rows,
      n.project = project ∧ r = ⟨fanCount g project ty d n.id, n.searchRow⟩ := by
    intro r
    rw [fanRows, Ranking.mem_ranked, List.mem_filter, List.mem_map, decide_eq_true_eq, and_comm]
    simp only [List.mem_filter, decide_eq_true_eq, and_assoc, @eq_comm _ r]
  obtain ⟨n, hn, rfl⟩ := List.mem_map.1 hrow
  obtain ⟨hn, hproject⟩ := List.mem_filter.1 hn
  rw [reportedDegree]
  cases hfind : (fanRows g project ty d).find? fun r => decide (r.node.id = n.searchRow.id) with
  | none =>
    -- a node without an edge has no group
    have hzero : ¬0 < fanCount g project ty d n.id := fun hpos =>
      List.find?_eq_none.1 hfind _ ((hmem _).2 ⟨hpos, n, hn, of_decide_eq_true hproject, rfl⟩)
        (decide_eq_true rfl)
    exact (Nat.eq_zero_of_not_pos hzero).symm
  | some r =>
    obtain ⟨-, m, hm, -, rfl⟩ := (hmem r).1 (List.mem_of_find?_eq_some hfind)
    have hid : m.searchRow.id = n.searchRow.id := by simpa using List.find?_some hfind
    rw [g.node_eq_of_id_eq hm hn hid]
    rfl

/-- Counting by a stronger condition gives as many only where the conditions agree. -/
theorem countP_eq_countP_iff {α : Type} {p q : α → Bool} {l : List α} (h : ∀ a ∈ l, p a → q a) :
    l.countP p = l.countP q ↔ ∀ a ∈ l, q a → p a := by
  constructor
  · intro heq a ha hq
    have hsub : (l.filter p).Sublist (l.filter q) := by
      have hpq : (l.filter q).filter p = l.filter p := by
        rw [List.filter_filter]
        refine List.filter_congr fun b hb => ?_
        cases hp : p b with
        | false => rfl
        | true => rw [h b hb hp, Bool.and_true]
      exact hpq ▸ List.filter_sublist
    rw [List.countP_eq_length_filter, List.countP_eq_length_filter] at heq
    have hmem := List.mem_filter.2 ⟨ha, hq⟩
    rw [← hsub.eq_of_length heq] at hmem
    exact (List.mem_filter.1 hmem).2
  · intro h'
    exact List.countP_congr fun a ha => ⟨h a ha, h' a ha⟩

theorem inProject_imp (e : Edge)
    (h : decide (e.project = project ∧ e.edgeType = ty ∧ d.here e = id) = true) :
    decide (d.here e = id ∧ ∀ ty' ∈ some ty, e.edgeType = ty') = true := by
  obtain ⟨-, hty, hhere⟩ := of_decide_eq_true h
  exact decide_eq_true ⟨hhere, fun _ hty' => Option.some.inj hty' ▸ hty⟩

theorem fanCount_eq_iff : fanCount g project ty d id = edgeCount g (some ty) d id ↔
    ∀ e ∈ g.edges.rows, e.edgeType = ty → d.here e = id → e.project = project := by
  rw [fanCount, edgeCount, countP_eq_countP_iff fun e _ => inProject_imp e]
  refine forall₂_congr fun e _ => ?_
  simp only [decide_eq_true_eq]
  constructor
  · intro h hty hhere
    exact (h ⟨hhere, fun _ hty' => Option.some.inj hty' ▸ hty⟩).1
  · rintro h ⟨hhere, hty⟩
    exact ⟨h (hty ty rfl) hhere, hty ty rfl, hhere⟩

theorem fanCount_le : fanCount g project ty d id ≤ edgeCount g (some ty) d id :=
  List.countP_mono_left fun e _ => inProject_imp e

end Fans

/-- **When the ranking is right and agrees with its siblings**: when each node that ought to be in it is
among the first candidates of its project by name, has no more edges in a direction than are fetched, and
has none of them in another project. -/
theorem mostConnected_right_iff (g : Graph) (project : String) (edgeType : Option String) (n : ℕ) :
    MostConnectedRight g project edgeType n ↔
      ∀ r ∈ topConnected g (some project) edgeType n,
        Ranking.ahead SearchGraphRow.qnameKey (projectRows g (some project)) r.node < 10000 ∧
        (∀ d, edgeCount g edgeType d r.node.id ≤ 10000) ∧
        ∀ ty ∈ edgeType, ∀ d : ReachDirection, ∀ e ∈ g.edges.rows,
          e.edgeType = ty → d.here e = r.node.id → e.project = project := by
  -- the degrees are the sums of the counts when each count is all there is
  have hfans : ∀ ty ∈ edgeType, ∀ r ∈ topConnected g (some project) edgeType n,
      (r.degree = reportedDegree (fanRows g project ty .incoming) r.node.id +
        reportedDegree (fanRows g project ty .outgoing) r.node.id ↔
      ∀ d : ReachDirection, ∀ e ∈ g.edges.rows,
        e.edgeType = ty → d.here e = r.node.id → e.project = project) := by
    rintro ty hty r hr
    obtain ⟨hrow, hdegree⟩ := mem_topConnected hr
    obtain rfl : edgeType = some ty := hty
    rw [hdegree, reportedDegree_fanRows hrow, reportedDegree_fanRows hrow, totalDegree]
    have hle : ∀ d, fanCount g project ty d r.node.id ≤ edgeCount g (some ty) d r.node.id :=
      fun d => fanCount_le
    have hout := hle .outgoing
    have hin := hle .incoming
    constructor
    · intro h d
      rw [← fanCount_eq_iff]
      cases d <;> omega
    · intro h
      rw [fanCount_eq_iff.2 (h .outgoing), fanCount_eq_iff.2 (h .incoming), Nat.add_comm]
  constructor
  · rintro ⟨htop, hsum⟩ r hr
    obtain ⟨hahead, hcount⟩ := mostConnected_eq_iff.1 htop r hr
    refine ⟨hahead, hcount, fun ty hty => (hfans ty hty r hr).1 ?_⟩
    exact hsum ty hty r (htop ▸ hr)
  · intro h
    have htop := mostConnected_eq_iff.2 fun r hr => ⟨(h r hr).1, (h r hr).2.1⟩
    refine ⟨htop, fun ty hty r hr => ?_⟩
    rw [htop] at hr
    exact (hfans ty hty r hr).2 ((h r hr).2.2 ty hty)

/-! ### Beyond the candidates -/

def crowdNode (n i : ℕ) : Node :=
  ⟨⟨"p", if i < n then "Import" else "Function", String.ofList (List.replicate i 'f'),
    String.ofList (List.replicate i 'f'), "src/lib.rs", 1, 1, .null⟩, i + 1⟩

theorem crowd_projects_nodup :
    (([⟨"p", "2026-06-29T00:00:00Z", "/p"⟩] : List Project).map Project.name).Nodup :=
  List.nodup_singleton "p"

/-- Many imports, and behind them in the order of the names a function, which may call itself. -/
def crowd (n : ℕ) (recursive : Bool) : Graph where
  projects := ⟨[⟨"p", "2026-06-29T00:00:00Z", "/p"⟩], crowd_projects_nodup⟩
  nodes :=
    { rows := (List.range (n + 1)).map (crowdNode n)
      keys_nodup := by
        rw [List.map_map]
        refine List.nodup_range.map fun i j h => ?_
        have hname := congrArg (fun k => k.2.toList.length) h
        simpa [Node.key, crowdNode] using hname }
  nextNodeId := n + 2
  edges := ⟨if recursive then [⟨"p", n + 1, n + 1, "CALLS", .null⟩] else [], by cases recursive <;> simp⟩
  ids_nodup := by
    rw [List.map_map]
    exact List.nodup_range.map fun i j h => Nat.succ.inj h
  ids_lt := by
    intro m hm
    obtain ⟨i, hi, rfl⟩ := List.mem_map.1 hm
    exact Nat.succ_lt_succ (List.mem_range.1 hi)
  nodes_fk := by
    intro m hm
    obtain ⟨i, -, rfl⟩ := List.mem_map.1 hm
    rfl
  edges_fk := by
    intro e he
    cases recursive with
    | false => cases he
    | true =>
      obtain rfl := List.mem_singleton.1 he
      refine ⟨rfl, ?_, ?_⟩ <;>
        exact List.mem_map.2 ⟨_, List.mem_map.2 ⟨n, List.mem_range.2 (Nat.lt_succ_self n), rfl⟩, rfl⟩

theorem replicate_lt {i j : ℕ} (h : i < j) :
    String.ofList (List.replicate i 'f') < String.ofList (List.replicate j 'f') := by
  rw [String.lt_iff_toList_lt, String.toList_ofList, String.toList_ofList]
  induction i generalizing j with
  | zero =>
    obtain ⟨k, rfl⟩ := Nat.exists_eq_succ_of_ne_zero h.ne'
    exact List.nil_lt_cons _ _
  | succ i ih =>
    obtain ⟨k, rfl⟩ := Nat.exists_eq_succ_of_ne_zero (Nat.ne_zero_of_lt h)
    exact List.cons_lt_cons_iff.2 (.inr ⟨rfl, ih (Nat.lt_of_succ_lt_succ h)⟩)

section Crowd

variable {n : ℕ} {recursive : Bool}

theorem projectRows_crowd : projectRows (crowd n recursive) (some "p") =
    (List.range (n + 1)).map fun i => (crowdNode n i).searchRow := by
  have hall : (crowd n recursive).nodes.rows.filter (fun m => decide (m.project = "p")) =
      (crowd n recursive).nodes.rows := by
    rw [List.filter_eq_self]
    intro m hm
    obtain ⟨i, -, rfl⟩ := List.mem_map.1 hm
    rfl
  simp only [projectRows, hall]
  rw [crowd, List.map_map]
  rfl

theorem ahead_crowd : Ranking.ahead SearchGraphRow.qnameKey
    ((List.range (n + 1)).map fun i => (crowdNode n i).searchRow) (crowdNode n n).searchRow = n := by
  have hbefore : (List.range n).countP (fun i => decide
      ((crowdNode n i).searchRow.qnameKey < (crowdNode n n).searchRow.qnameKey)) = n := by
    rw [List.countP_eq_length.2, List.length_range]
    intro i hi
    refine decide_eq_true (Prod.Lex.toLex_lt_toLex.2 (.inl ?_))
    exact replicate_lt (List.mem_range.1 hi)
  rw [Ranking.ahead, List.countP_map, List.range_succ, List.countP_append]
  simp only [Function.comp_def, hbefore]
  simp

theorem mem_topConnected_of_forall_lt {g : Graph} {project edgeType : Option String} {k : ℕ}
    {row : SearchGraphRow} (hrow : row ∈ projectRows g project)
    (h : ∀ r ∈ projectRows g project, r = row ∨ totalDegree g edgeType r.id < totalDegree g edgeType row.id) :
    row.withDegree (totalDegree g edgeType) ∈ topConnected g project edgeType (k + 1) := by
  have hranked := ranked_withDegree (totalDegree g edgeType) (projectRows g project)
  have htop : topConnected g project edgeType (k + 1) =
      ((Ranking.ranked (Ranking.byDegree SearchGraphRow.qnameKey fun r => totalDegree g edgeType r.id)
        (projectRows g project)).take (k + 1)).map (SearchGraphRow.withDegree (totalDegree g edgeType)) := by
    rw [List.map_take, ← hranked]
    rfl
  rw [htop]
  refine List.mem_map_of_mem ((Ranking.mem_take_ranked (Ranking.nodup_byDegree nodup_qnameKey)).2
    ⟨hrow, ?_⟩)
  have hnone : Ranking.ahead (Ranking.byDegree SearchGraphRow.qnameKey fun r =>
      totalDegree g edgeType r.id) (projectRows g project) row = 0 := by
    rw [Ranking.ahead, List.countP_eq_zero]
    intro r hr
    rw [decide_eq_true_eq, Ranking.byDegree_lt]
    rcases h r hr with rfl | hlt
    · simp
    · omega
  omega

theorem totalDegree_crowd (i : ℕ) : totalDegree (crowd n true) (some "CALLS") (crowdNode n i).id =
    if i = n then 2 else 0 := by
  have hcount : ∀ d, edgeCount (crowd n true) (some "CALLS") d (crowdNode n i).id =
      if i = n then 1 else 0 := by
    intro d
    cases d <;> simp [edgeCount, crowd, crowdNode, ReachDirection.here, eq_comm]
  rw [totalDegree, hcount, hcount]
  split_ifs <;> rfl

end Crowd

/-- Behind ten thousand imports, the only function that is called is not the most connected one. -/
theorem mostConnected_behind_imports : ¬ MostConnectedRight (crowd 10000 true) "p" (some "CALLS") 1 := by
  intro h
  have htop := mostConnected_eq_iff.1 h.top
  have hrow : (crowdNode 10000 10000).searchRow ∈ projectRows (crowd 10000 true) (some "p") := by
    rw [projectRows_crowd]
    exact List.mem_map_of_mem (f := fun i => (crowdNode 10000 i).searchRow)
      (List.mem_range.2 (Nat.lt_succ_self 10000))
  have hfirst := (htop _ (mem_topConnected_of_forall_lt (k := 0) hrow fun r hr => ?_)).1
  · rw [projectRows_crowd] at hfirst
    exact absurd hfirst (Nat.not_lt.2 ahead_crowd.ge)
  · rw [projectRows_crowd] at hr
    obtain ⟨i, -, rfl⟩ := List.mem_map.1 hr
    by_cases hi : i = 10000
    · exact .inl (by rw [hi])
    · right
      have hlow := totalDegree_crowd (n := 10000) i
      have hhigh := totalDegree_crowd (n := 10000) 10000
      rw [if_neg hi] at hlow
      rw [if_pos rfl] at hhigh
      exact lt_of_eq_of_lt hlow (lt_of_lt_of_eq (by omega) hhigh.symm)

end Greppy
