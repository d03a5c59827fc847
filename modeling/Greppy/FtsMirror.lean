/-
**The full-text postings mirror the node table.**

`nodes_fts` is a *contentless* FTS5 table: it keeps postings and nothing else, so every write to
`nodes` has to maintain it by hand, and a posting can only be removed by the `'delete'` command fed
the exact values it was inserted with (`crates/store/src/node.rs`).  This module puts that table on
top of `Graph`, embeds the mutations that touch it, and settles which runs of them keep the two
tables in step.

`insert_node`, `insert_nodes`, `delete_node` and `delete_nodes_for_file` all keep the mirror: each
reads the old row before it is gone and removes its posting.  `delete_project` does not: it removes
the nodes through the foreign-key cascade, which knows nothing of `nodes_fts`.
-/

import Greppy.CamelSplit
import Greppy.GraphStore
import Greppy.GuardedRun
import Greppy.RowMirror

set_option autoImplicit false

namespace Greppy

/-! ### The store with its postings -/

/-- One posting of `nodes_fts`. -/
structure Posting where
  rowid : ℕ
  name : String
  qualifiedName : String
  label : String
  filePath : String
  deriving DecidableEq

/-- The graph tables and the contentless table `nodes_fts`. -/
structure FtsStore where
  graph : Graph
  nodesFts : List Posting

/-- The mutations of `node.rs` and `project.rs`. -/
inductive StoreOp where
  | upsertProject (p : Project)
  | insertNode (n : NewNode)
  | insertNodes (ns : List NewNode)
  | deleteNode (id : ℕ)
  | deleteNodesForFile (project filePath : String)
  | deleteProject (name : String)

namespace FtsStore

section Mirror

variable (isAlphanumeric : Char → Bool)

/-- The store of a freshly created database. -/
def empty : FtsStore := ⟨Graph.empty, []⟩

/-- The posting that belongs to a node row. -/
def posting (n : Node) : Posting :=
  let (nameCol, qnameCol) := ftsTokens isAlphanumeric n.name n.qualifiedName
  { rowid := n.id, name := nameCol, qualifiedName := qnameCol, label := n.label
    filePath := n.filePath }

/-- `INSERT INTO nodes_fts(nodes_fts, …) VALUES('delete', …)` for each of the rows. -/
def unpost (rows : List Node) (nodesFts : List Posting) : List Posting :=
  rows.foldl (fun fts n => fts.erase (posting isAlphanumeric n)) nodesFts

/-- `insert_node_in_tx`: remove the posting of the row about to be overwritten, upsert the row, add
its new posting. -/
def insertNodeInTx (n : NewNode) (s : FtsStore) : Except StoreError (FtsStore × ℕ) := do
  let prior := s.graph.nodes.find? (n.project, n.qualifiedName)
  let nodesFts := unpost isAlphanumeric prior.toList s.nodesFts
  let (g, id) ← s.graph.insertNodeInTx n
  return (⟨g, nodesFts ++ [posting isAlphanumeric { n with id := id }]⟩, id)

/-- `insert_nodes`, one transaction for the whole batch. -/
def insertNodes : List NewNode → FtsStore → Except StoreError (FtsStore × List ℕ)
  | [], s => .ok (s, [])
  | n :: ns, s => do
      let (s₁, id) ← s.insertNodeInTx isAlphanumeric n
      let (s₂, ids) ← insertNodes ns s₁
      return (s₂, id :: ids)

def deleteNode (id : ℕ) (s : FtsStore) : FtsStore :=
  let row := s.graph.nodes.rows.find? fun n => decide (n.id = id)
  ⟨s.graph.deleteNode id, unpost isAlphanumeric row.toList s.nodesFts⟩

def deleteNodesForFile (project filePath : String) (s : FtsStore) : FtsStore :=
  let rows := s.graph.nodes.rows.filter fun n =>
    decide (n.project = project ∧ n.filePath = filePath)
  ⟨s.graph.deleteNodesForFile project filePath, unpost isAlphanumeric rows s.nodesFts⟩

/-- `delete_project`: the nodes go by the foreign-key cascade. -/
def deleteProject (name : String) (s : FtsStore) : FtsStore :=
  ⟨s.graph.deleteProject name, s.nodesFts⟩

/-- One mutation.  Each runs in a transaction that is rolled back when it fails. -/
def step (s : FtsStore) : StoreOp → FtsStore
  | .upsertProject p => ⟨s.graph.upsertProject p, s.nodesFts⟩
  | .insertNode n =>
    match s.insertNodeInTx isAlphanumeric n with
    | .ok (s', _) => s'
    | .error _ => s
  | .insertNodes ns =>
    match s.insertNodes isAlphanumeric ns with
    | .ok (s', _) => s'
    | .error _ => s
  | .deleteNode id => s.deleteNode isAlphanumeric id
  | .deleteNodesForFile project filePath => s.deleteNodesForFile isAlphanumeric project filePath
  | .deleteProject name => s.deleteProject name

/-! ### The mirror -/

/-- The postings are those of the live nodes, each exactly once. -/
def Mirror (s : FtsStore) : Prop :=
  s.nodesFts.Perm (s.graph.nodes.rows.map (posting isAlphanumeric))

/-- The step is not the deletion of a project that still has nodes. -/
def NoOrphans (s : FtsStore) : StoreOp → Prop
  | .deleteProject name => ∀ n ∈ s.graph.nodes.rows, n.project ≠ name
  | _ => True

variable {isAlphanumeric}

theorem mirror_insertNodeInTx {s s' : FtsStore} {n : NewNode} {id : ℕ}
    (hs : s.Mirror isAlphanumeric) (h : s.insertNodeInTx isAlphanumeric n = .ok (s', id)) :
    s'.Mirror isAlphanumeric := by
  rcases s.graph.insertNodeInTx_cases n with ⟨_, g, hg, hnodes, _, _⟩ | ⟨_, hg⟩
  · let row : Node := { n with id := s.graph.nextNodeId }
    have hrow : s.graph.nodes.merged Node.overwrite row =
        { n with id := (s.graph.nodes.merged Node.overwrite row).id } := by
      unfold KeyedTable.merged
      cases s.graph.nodes.find? row.key <;> rfl
    simp only [insertNodeInTx, hg, bind, Except.bind, pure, Except.pure, Except.ok.injEq,
      Prod.mk.injEq] at h
    obtain ⟨rfl, rfl⟩ := h
    have hwritten := RowMirror.perm_upsertWith Node.key_overwrite hs row
    rw [hrow, ← hnodes] at hwritten
    exact hwritten
  · simp [insertNodeInTx, hg, bind, Except.bind] at h

theorem mirror_insertNodes {ns : List NewNode} {s s' : FtsStore} {ids : List ℕ}
    (hs : s.Mirror isAlphanumeric) (h : s.insertNodes isAlphanumeric ns = .ok (s', ids)) :
    s'.Mirror isAlphanumeric := by
  induction ns generalizing s ids with
  | nil =>
    cases h
    exact hs
  | cons n ns ih =>
    rw [insertNodes] at h
    cases h₁ : s.insertNodeInTx isAlphanumeric n with
    | error e => simp [h₁, bind, Except.bind] at h
    | ok r₁ =>
      obtain ⟨s₁, id⟩ := r₁
      have hs₁ := mirror_insertNodeInTx hs h₁
      cases h₂ : s₁.insertNodes isAlphanumeric ns with
      | error e => simp [h₁, h₂, bind, Except.bind] at h
      | ok r₂ =>
        obtain ⟨s₂, ids₂⟩ := r₂
        simp only [h₁, h₂, bind, Except.bind, pure, Except.pure, Except.ok.injEq,
          Prod.mk.injEq] at h
        obtain ⟨rfl, rfl⟩ := h
        exact ih hs₁ h₂

theorem mirror_deleteNodesWhere {s : FtsStore} (hs : s.Mirror isAlphanumeric) (p : Node → Bool) :
    Mirror isAlphanumeric ⟨s.graph.deleteNodesWhere p,
      unpost isAlphanumeric (s.graph.nodes.rows.filter p) s.nodesFts⟩ := by
  have hrows : (s.graph.deleteNodesWhere p).nodes.rows =
      s.graph.nodes.rows.filter fun n => !p n := by
    simp [Graph.deleteNodesWhere, Graph.nodes_cascade]
  unfold Mirror
  rw [hrows]
  exact RowMirror.perm_delete hs p

theorem toList_find?_id {rows : List Node} (hids : (rows.map Node.id).Nodup) (id : ℕ) :
    (rows.find? fun n => decide (n.id = id)).toList =
      rows.filter fun n => decide (n.id = id) :=
  KeyedTable.toList_find? ⟨rows, hids⟩ id

/-- Deleting a project keeps the mirror exactly when no posting is orphaned. -/
theorem mirror_deleteProject_iff {s : FtsStore} (hs : s.Mirror isAlphanumeric) (name : String) :
    (s.deleteProject name).Mirror isAlphanumeric ↔ ∀ n ∈ s.graph.nodes.rows, n.project ≠ name := by
  have hrows : (s.deleteProject name).graph.nodes.rows =
      s.graph.nodes.rows.filter fun n => decide (n.project ≠ name) := by
    simp [deleteProject, Graph.deleteProject, Graph.nodes_cascade]
  constructor
  · intro h
    have hlen : (s.graph.nodes.rows.filter fun n => decide (n.project ≠ name)).length =
        s.graph.nodes.rows.length := by
      have h₁ := h.length_eq
      have h₂ := hs.length_eq
      rw [hrows, List.length_map] at h₁
      rw [List.length_map] at h₂
      exact h₁.symm.trans h₂
    intro n hn
    simpa using List.length_filter_eq_length_iff.1 hlen n hn
  · intro h
    unfold Mirror
    rw [hrows, List.filter_eq_self.2 fun n hn => by simpa using h n hn]
    exact hs

theorem mirror_step_iff (s : FtsStore) (op : StoreOp) (hs : s.Mirror isAlphanumeric) :
    (s.step isAlphanumeric op).Mirror isAlphanumeric ↔ s.NoOrphans op := by
  cases op with
  | upsertProject p => exact iff_of_true hs trivial
  | insertNode n =>
    refine iff_of_true ?_ trivial
    simp only [step]
    cases h : s.insertNodeInTx isAlphanumeric n with
    | ok r => exact mirror_insertNodeInTx hs h
    | error e => exact hs
  | insertNodes ns =>
    refine iff_of_true ?_ trivial
    simp only [step]
    cases h : s.insertNodes isAlphanumeric ns with
    | ok r => exact mirror_insertNodes hs h
    | error e => exact hs
  | deleteNode id =>
    refine iff_of_true ?_ trivial
    simp only [step, deleteNode, toList_find?_id s.graph.ids_nodup]
    exact mirror_deleteNodesWhere hs _
  | deleteNodesForFile project filePath =>
    exact iff_of_true (mirror_deleteNodesWhere hs _) trivial
  | deleteProject name => exact mirror_deleteProject_iff hs name

theorem mirror_empty : empty.Mirror isAlphanumeric := List.Perm.refl _

/-- **The mirror over whole runs.**  In every state of a run from the empty store the postings are
exactly those of the live nodes if and only if no step deletes a project that still has nodes. -/
theorem mirror_run_iff (isAlphanumeric : Char → Bool) (ops : List StoreOp) :
    (∀ s ∈ ops.scanl (step isAlphanumeric) empty, s.Mirror isAlphanumeric) ↔
      Guarded (step isAlphanumeric) NoOrphans empty ops :=
  forall_mem_scanl_iff_guarded mirror_step_iff mirror_empty

/-- Deleting a project with one function in it leaves the posting of the function behind. -/
theorem deleteProject_orphans_posting :
    ¬ ∀ s ∈ [StoreOp.upsertProject ⟨"p", "2026-06-28T20:00:00Z", "/repos/p"⟩,
        .insertNode ⟨"p", "Function", "run", "src/lib.rs::run", "src/lib.rs", 1, 1, Json.emptyObj⟩,
        .deleteProject "p"].scanl (step Char.isAlphanum) empty, s.Mirror Char.isAlphanum := by
  rw [forall_mem_scanl_iff_guarded mirror_step_iff mirror_empty]
  rintro ⟨_, _, h, _⟩
  simp only [NoOrphans] at h
  exact absurd h (by decide)

end Mirror

end FtsStore

end Greppy
