/-
**The graph tables of the store: projects, nodes and edges.**

`crates/store/src/{project,node,edge}.rs` keep the code graph in three SQLite tables.  Two things in
the schema (`migrations/0001_initial.sql`) shape everything above them, and both are carried here by
the type `Graph` itself, so that no reachable or constructible value violates them:

* the unique keys: `projects(name)`, `nodes(project, qualified_name)`, `nodes(id)` and
  `edges(source_id, target_id, edge_type)`;
* the foreign keys with `ON DELETE CASCADE`: a node belongs to a project, an edge to a project and
  to its two end nodes.  SQLite is built with foreign keys enforced, so an insert that would dangle
  fails, and deleting a node or a project removes what hangs off it.

Node ids come from an `AUTOINCREMENT` counter and are never reused; edge ids are only ever used to
list edges in insertion order, which is the order of the rows here, so the column is left out.
`vector_embeddings` rows, which the node deletions also prune, are not part of this module.
-/

import Greppy.Json
import Greppy.KeyedTable
import Mathlib.Data.List.Sort

set_option autoImplicit false

namespace Greppy

/-! ### Rows -/

/-- A row of `projects`. -/
structure Project where
  name : String
  indexedAt : String
  rootPath : String
  deriving DecidableEq

/-- Input for inserting a node; the id is filled in by the database. -/
structure NewNode where
  project : String
  label : String
  name : String
  qualifiedName : String
  filePath : String
  startLine : ℤ
  endLine : ℤ
  properties : Json
  deriving DecidableEq

/-- A row of `nodes`. -/
structure Node extends NewNode where
  id : ℕ
  deriving DecidableEq

/-- The key `UNIQUE(project, qualified_name)`. -/
def Node.key (n : Node) : String × String := (n.project, n.qualifiedName)

/-- `ON CONFLICT(project, qualified_name) DO UPDATE`: every column but the id is overwritten. -/
def Node.overwrite (old new : Node) : Node := { new with id := old.id }

theorem Node.key_overwrite (old new : Node) (_ : old.key = new.key) :
    (Node.overwrite old new).key = new.key := rfl

/-- A row of `edges`; the input of an insert has the same columns. -/
structure Edge where
  project : String
  sourceId : ℕ
  targetId : ℕ
  edgeType : String
  properties : Json
  deriving DecidableEq

/-- The key `UNIQUE(source_id, target_id, edge_type)`. -/
def Edge.key (e : Edge) : ℕ × ℕ × String := (e.sourceId, e.targetId, e.edgeType)

/-- `ON CONFLICT(source_id, target_id, edge_type) DO UPDATE`: only the properties are written. -/
def Edge.setProperties (old new : Edge) : Edge := { old with properties := new.properties }

theorem Edge.key_setProperties (old new : Edge) (h : old.key = new.key) :
    (Edge.setProperties old new).key = new.key := h

inductive StoreError where
  | foreignKey
  deriving DecidableEq, Repr

/-- The tables `projects`, `nodes` and `edges`. -/
structure Graph where
  projects : KeyedTable Project Project.name
  nodes : KeyedTable Node Node.key
  /-- The next value of the `AUTOINCREMENT` counter of `nodes`. -/
  nextNodeId : ℕ
  edges : KeyedTable Edge Edge.key
  ids_nodup : (nodes.rows.map Node.id).Nodup
  ids_lt : ∀ n ∈ nodes.rows, n.id < nextNodeId
  nodes_fk : ∀ n ∈ nodes.rows, (projects.find? n.project).isSome
  edges_fk : ∀ e ∈ edges.rows, (projects.find? e.project).isSome ∧
    e.sourceId ∈ nodes.rows.map Node.id ∧ e.targetId ∈ nodes.rows.map Node.id

namespace Graph

/-- The tables of a freshly created database. -/
def empty : Graph where
  projects := KeyedTable.empty
  nodes := KeyedTable.empty
  nextNodeId := 1
  edges := KeyedTable.empty
  ids_nodup := by simp
  ids_lt := by simp
  nodes_fk := by simp
  edges_fk := by simp

variable {n : Node} {g : Graph}

theorem node_eq_of_id_eq (g : Graph) {m : Node} (hm : m ∈ g.nodes.rows) (hn : n ∈ g.nodes.rows)
    (h : m.id = n.id) : m = n :=
  List.inj_on_of_nodup_map g.ids_nodup hm hn h

/-! ### Projects -/

def upsertProject (p : Project) (g : Graph) : Graph :=
  { g with
    projects := g.projects.upsert p
    nodes_fk := by
      intro n hn
      rw [KeyedTable.find?_upsert]
      split
      · rfl
      · exact g.nodes_fk n hn
    edges_fk := by
      intro e he
      refine ⟨?_, (g.edges_fk e he).2⟩
      rw [KeyedTable.find?_upsert]
      split
      · rfl
      · exact (g.edges_fk e he).1 }

@[simp] theorem nodes_upsertProject (p : Project) (g : Graph) :
    (g.upsertProject p).nodes = g.nodes := rfl

@[simp] theorem edges_upsertProject (p : Project) (g : Graph) :
    (g.upsertProject p).edges = g.edges := rfl

/-! ### Inserting nodes -/

/-- The node table after inserting the row `a`. -/
private def putNode (nodes : KeyedTable Node Node.key) (a : Node) : KeyedTable Node Node.key :=
  nodes.upsertWith Node.overwrite Node.key_overwrite a

private theorem ids_putNode (nodes : KeyedTable Node Node.key) (a : Node) :
    (putNode nodes a).rows.map Node.id =
      match nodes.find? a.key with
      | some _ => nodes.rows.map Node.id
      | none => nodes.rows.map Node.id ++ [a.id] := by
  cases h : nodes.find? a.key with
  | none => simp [putNode, KeyedTable.rows_upsertWith_of_find?_none h]
  | some r =>
    rw [putNode, KeyedTable.rows_upsertWith_of_find? h, List.map_map]
    refine List.map_congr_left fun s _ => ?_
    by_cases hs : s.key = a.key <;> simp [hs, Node.overwrite]

private theorem mem_ids_putNode {nodes : KeyedTable Node Node.key} {a : Node} {i : ℕ}
    (h : i ∈ nodes.rows.map Node.id) : i ∈ (putNode nodes a).rows.map Node.id := by
  rw [ids_putNode]
  cases nodes.find? a.key with
  | none => exact List.mem_append_left _ h
  | some _ => exact h

/-- `insert_node_in_tx`: upsert one node row and return its id.  The contentless full-text postings
the source maintains in the same transaction are the subject of `Greppy.FtsMirror`. -/
def insertNodeInTx (n : NewNode) (g : Graph) : Except StoreError (Graph × ℕ) :=
  if hp : (g.projects.find? n.project).isSome then
    let row : Node := { n with id := g.nextNodeId }
    .ok
      ({ g with
          nodes := putNode g.nodes row
          nextNodeId := g.nextNodeId + 1
          ids_nodup := by
            rw [ids_putNode]
            cases g.nodes.find? row.key with
            | some _ => exact g.ids_nodup
            | none =>
              rw [List.nodup_append]
              refine ⟨g.ids_nodup, by simp, ?_⟩
              intro i hi j hj
              obtain ⟨m, hm, rfl⟩ := List.mem_map.1 hi
              rw [List.mem_singleton.1 hj]
              exact (g.ids_lt m hm).ne
          ids_lt := by
            intro m hm
            have hi : m.id ∈ (putNode g.nodes row).rows.map Node.id := List.mem_map_of_mem hm
            have hold : ∀ i ∈ g.nodes.rows.map Node.id, i < g.nextNodeId + 1 := by
              intro i hi
              obtain ⟨k, hk, rfl⟩ := List.mem_map.1 hi
              exact Nat.lt_succ_of_lt (g.ids_lt k hk)
            rw [ids_putNode] at hi
            cases hf : g.nodes.find? row.key with
            | some _ =>
              rw [hf] at hi
              exact hold _ hi
            | none =>
              rw [hf] at hi
              rcases List.mem_append.1 hi with hi | hi
              · exact hold _ hi
              · rw [List.mem_singleton.1 hi]
                exact Nat.lt_succ_self _
          nodes_fk := by
            intro m hm
            rcases KeyedTable.mem_upsertWith.1 hm with rfl | ⟨hm, _⟩
            · have hk := KeyedTable.key_merged Node.key_overwrite g.nodes row
              have hproj := congrArg Prod.fst hk
              simp only [Node.key] at hproj
              rw [hproj]
              exact hp
            · exact g.nodes_fk m hm
          edges_fk := by
            intro e he
            obtain ⟨h₁, h₂, h₃⟩ := g.edges_fk e he
            exact ⟨h₁, mem_ids_putNode h₂, mem_ids_putNode h₃⟩ },
        (g.nodes.merged Node.overwrite row).id)
  else .error .foreignKey

/-- `insert_nodes`: the batch runs in one transaction, so a failing row undoes the earlier ones. -/
def insertNodes : List NewNode → Graph → Except StoreError (Graph × List ℕ)
  | [], g => .ok (g, [])
  | n :: ns, g => do
      let (g₁, id) ← g.insertNodeInTx n
      let (g₂, ids) ← g₁.insertNodes ns
      return (g₂, id :: ids)

theorem insertNodeInTx_cases (g : Graph) (n : NewNode) :
    ((g.projects.find? n.project).isSome ∧ ∃ g' : Graph,
      g.insertNodeInTx n =
        .ok (g', (g.nodes.merged Node.overwrite { n with id := g.nextNodeId }).id) ∧
      g'.nodes = g.nodes.upsertWith Node.overwrite Node.key_overwrite
        { n with id := g.nextNodeId } ∧
      g'.projects = g.projects ∧ g'.edges = g.edges) ∨
    (g.projects.find? n.project = none ∧ g.insertNodeInTx n = .error .foreignKey) := by
  unfold insertNodeInTx
  by_cases hp : (g.projects.find? n.project).isSome
  · rw [dif_pos hp]
    exact Or.inl ⟨hp, _, rfl, rfl, rfl, rfl⟩
  · rw [dif_neg hp]
    exact Or.inr ⟨by simpa using hp, rfl⟩

/-- What a node insert leaves under each key: the new columns under the id of the row that was
there, or under a fresh id. -/
theorem find?_insertNodeInTx {g' : Graph} {n : NewNode} {id : ℕ}
    (h : g.insertNodeInTx n = .ok (g', id)) (k : String × String) :
    g'.nodes.find? k =
      if (n.project, n.qualifiedName) = k then some { n with id := id } else g.nodes.find? k := by
  rcases g.insertNodeInTx_cases n with ⟨_, g₁, h₁, hn, _, _⟩ | ⟨_, h₁⟩
  · rw [h₁] at h
    cases h
    have hm : g.nodes.merged Node.overwrite { n with id := g.nextNodeId } =
        { n with id := (g.nodes.merged Node.overwrite { n with id := g.nextNodeId }).id } := by
      unfold KeyedTable.merged
      cases g.nodes.find? (Node.key { n with id := g.nextNodeId }) <;> rfl
    rw [hn, KeyedTable.find?_upsertWith, ← hm]
    rfl
  · rw [h₁] at h
    cases h

/-! ### Edges -/

/-- `insert_edge`: an upsert on `(source_id, target_id, edge_type)`.  The references are only
checked when a row is inserted. -/
def insertEdge (e : Edge) (g : Graph) : Except StoreError Graph :=
  if h : (g.edges.find? e.key).isSome ∨ ((g.projects.find? e.project).isSome ∧
      e.sourceId ∈ g.nodes.rows.map Node.id ∧ e.targetId ∈ g.nodes.rows.map Node.id) then
    .ok
      { g with
        edges := g.edges.upsertWith Edge.setProperties Edge.key_setProperties e
        edges_fk := by
          intro d hd
          rcases KeyedTable.mem_upsertWith.1 hd with rfl | ⟨hd, _⟩
          · unfold KeyedTable.merged
            cases hf : g.edges.find? e.key with
            | some r => exact g.edges_fk r (KeyedTable.mem_of_find? hf)
            | none => exact h.resolve_left (by simp [hf])
          · exact g.edges_fk d hd }
  else .error .foreignKey

/-! ### Deletion

`ON DELETE CASCADE` makes a deletion a restriction of all three tables at once: a node goes with its
project, an edge with its project and with either end. -/

/-- The nodes that survive when `keepProject` and `keepNode` say what is not deleted. -/
private def survivors (keepProject : String → Bool) (keepNode : Node → Bool) (g : Graph) :
    KeyedTable Node Node.key :=
  g.nodes.filter fun n => keepProject n.project && keepNode n

/-- Delete what the three predicates do not keep, with everything that hangs off it. -/
def cascade (keepProject : String → Bool) (keepNode : Node → Bool) (keepEdge : Edge → Bool)
    (g : Graph) : Graph where
  projects := g.projects.filter fun p => keepProject p.name
  nodes := survivors keepProject keepNode g
  nextNodeId := g.nextNodeId
  edges := g.edges.filter fun e => keepProject e.project && keepEdge e &&
    decide (e.sourceId ∈ (survivors keepProject keepNode g).rows.map Node.id) &&
    decide (e.targetId ∈ (survivors keepProject keepNode g).rows.map Node.id)
  ids_nodup := (List.filter_sublist.map Node.id).nodup g.ids_nodup
  ids_lt := fun n hn => g.ids_lt n (List.mem_of_mem_filter hn)
  nodes_fk := by
    intro n hn
    obtain ⟨hn, hk⟩ := List.mem_filter.1 hn
    obtain ⟨p, hp⟩ := Option.isSome_iff_exists.1 (g.nodes_fk n hn)
    have hname : p.name = n.project := KeyedTable.key_of_find? hp
    rw [KeyedTable.find?_filter, hp]
    simp only [Bool.and_eq_true] at hk
    simp [Option.filter, hname, hk.1]
  edges_fk := by
    intro e he
    obtain ⟨he, hk⟩ := List.mem_filter.1 he
    simp only [Bool.and_eq_true, decide_eq_true_eq] at hk
    obtain ⟨p, hp⟩ := Option.isSome_iff_exists.1 (g.edges_fk e he).1
    have hname : p.name = e.project := KeyedTable.key_of_find? hp
    refine ⟨?_, hk.1.2, hk.2⟩
    rw [KeyedTable.find?_filter, hp]
    simp [Option.filter, hname, hk.1.1.1]

theorem nodes_cascade (kp : String → Bool) (kn : Node → Bool) (ke : Edge → Bool) (g : Graph) :
    (g.cascade kp kn ke).nodes = g.nodes.filter fun n => kp n.project && kn n := rfl

variable {kp : String → Bool} {kn p : Node → Bool} {ke : Edge → Bool} {e : Edge}

theorem mem_nodes_cascade :
    n ∈ (g.cascade kp kn ke).nodes.rows ↔
      n ∈ g.nodes.rows ∧ kp n.project = true ∧ kn n = true := by
  simp [nodes_cascade]

/-- The edges a deletion leaves: the kept ones whose two ends are still there. -/
theorem mem_edges_cascade :
    e ∈ (g.cascade kp kn ke).edges.rows ↔
      e ∈ g.edges.rows ∧ kp e.project = true ∧ ke e = true ∧
      e.sourceId ∈ (g.cascade kp kn ke).nodes.rows.map Node.id ∧
      e.targetId ∈ (g.cascade kp kn ke).nodes.rows.map Node.id := by
  simp only [cascade, KeyedTable.rows_filter, List.mem_filter, Bool.and_eq_true, decide_eq_true_eq]
  tauto

/-- `DELETE FROM nodes WHERE p`. -/
def deleteNodesWhere (p : Node → Bool) (g : Graph) : Graph :=
  g.cascade (fun _ => true) (fun n => !p n) (fun _ => true)

def deleteNode (id : ℕ) (g : Graph) : Graph :=
  g.deleteNodesWhere fun n => decide (n.id = id)

def deleteNodesForFile (project filePath : String) (g : Graph) : Graph :=
  g.deleteNodesWhere fun n => decide (n.project = project ∧ n.filePath = filePath)

def deleteProject (name : String) (g : Graph) : Graph :=
  g.cascade (fun p => decide (p ≠ name)) (fun _ => true) (fun _ => true)

/-- `DELETE FROM edges WHERE p`. -/
def deleteEdgesWhere (p : Edge → Bool) (g : Graph) : Graph :=
  g.cascade (fun _ => true) (fun _ => true) (fun e => !p e)

theorem mem_nodes_deleteNodesWhere :
    n ∈ (g.deleteNodesWhere p).nodes.rows ↔ n ∈ g.nodes.rows ∧ p n = false := by
  simp [deleteNodesWhere, mem_nodes_cascade]

theorem mem_edges_deleteNodesWhere :
    e ∈ (g.deleteNodesWhere p).edges.rows ↔ e ∈ g.edges.rows ∧
      e.sourceId ∈ (g.deleteNodesWhere p).nodes.rows.map Node.id ∧
      e.targetId ∈ (g.deleteNodesWhere p).nodes.rows.map Node.id := by
  simp [deleteNodesWhere, mem_edges_cascade]

/-! ### Queries -/

/-- `LIMIT limit` for a `usize` bound as `i64`: a negative bound means no limit. -/
def sqlLimit {α : Type} (limit : ℕ) (rows : List α) : List α :=
  if limit % 2 ^ 64 < 2 ^ 63 then rows.take (limit % 2 ^ 64) else rows

theorem mem_sqlLimit {α : Type} {limit : ℕ} {rows : List α} {a : α}
    (h : a ∈ sqlLimit limit rows) : a ∈ rows := by
  rw [sqlLimit] at h
  split at h
  · exact List.mem_of_mem_take h
  · exact h

/-- `ORDER BY qualified_name`. -/
def orderByQname (rows : List Node) : List Node :=
  rows.insertionSort fun a b => a.qualifiedName ≤ b.qualifiedName

/-- `SELECT … FROM nodes WHERE project = ? ORDER BY qualified_name`. -/
def projectRows (g : Graph) (project : String) : List Node :=
  orderByQname (g.nodes.rows.filter fun n => decide (n.project = project))

theorem mem_projectRows {project : String} :
    n ∈ g.projectRows project ↔ n ∈ g.nodes.rows ∧ n.project = project := by
  rw [projectRows, orderByQname, (List.perm_insertionSort _ _).mem_iff, List.mem_filter,
    decide_eq_true_eq]

def getNodeByQname (g : Graph) (project qname : String) : Option Node :=
  g.nodes.find? (project, qname)

def listNodesByName (g : Graph) (project name : String) (limit : ℕ) : List Node :=
  sqlLimit limit <| orderByQname <|
    g.nodes.rows.filter fun n => decide (n.project = project ∧ n.name = name)

def listNodesByLabel (g : Graph) (project label : String) (limit : ℕ) : List Node :=
  sqlLimit limit <| orderByQname <|
    g.nodes.rows.filter fun n => decide (n.project = project ∧ n.label = label)

/-- `list_nodes` without a page offset; an empty `label` or `file` does not filter. -/
def listNodes (g : Graph) (project label file : String) (limit : ℕ) : List Node :=
  sqlLimit limit <| orderByQname <| g.nodes.rows.filter fun n =>
    decide (n.project = project ∧ (label = "" ∨ n.label = label) ∧
      (file = "" ∨ n.filePath = file))

/-- `outgoing_edges` of one type. -/
def outgoingEdges (g : Graph) (sourceId : ℕ) (edgeType : String) (limit : ℕ) : List Edge :=
  sqlLimit limit <|
    g.edges.rows.filter fun e => decide (e.sourceId = sourceId ∧ e.edgeType = edgeType)

/-- The graph of one project built from inserts, in order; what is refused is left out. -/
def ofInserts (p : Project) (nodes : List NewNode) (edges : List Edge) : Graph :=
  let g := nodes.foldl (fun g n => ((g.insertNodeInTx n).toOption.map Prod.fst).getD g)
    (empty.upsertProject p)
  edges.foldl (fun g e => (g.insertEdge e).toOption.getD g) g

instance : Std.Total fun a b : Node => a.qualifiedName ≤ b.qualifiedName :=
  ⟨fun a b => le_total a.qualifiedName b.qualifiedName⟩

instance : IsTrans Node fun a b => a.qualifiedName ≤ b.qualifiedName :=
  ⟨fun _ _ _ h h' => le_trans h h'⟩

/-- In which order rows with distinct qualified names are stored does not show in a query that
orders by qualified name. -/
theorem orderByQname_eq_of_perm {l l' : List Node} (h : l.Perm l')
    (hl : ∀ a ∈ l, ∀ b ∈ l, a.qualifiedName = b.qualifiedName → a = b) :
    orderByQname l = orderByQname l' := by
  have hperm : (orderByQname l).Perm (orderByQname l') :=
    (List.perm_insertionSort _ l).trans (h.trans (List.perm_insertionSort _ l').symm)
  refine hperm.eq_of_pairwise ?_ (List.pairwise_insertionSort _ l)
    (List.pairwise_insertionSort _ l')
  intro a b ha hb hab hba
  have ha' : a ∈ l := (List.perm_insertionSort _ l).mem_iff.1 ha
  have hb' : b ∈ l := h.mem_iff.2 ((List.perm_insertionSort _ l').mem_iff.1 hb)
  exact hl a ha' b hb' (le_antisymm hab hba)

end Graph

end Greppy
