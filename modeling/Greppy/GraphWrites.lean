/-
**What a sequence of writes leaves in the graph tables.**

The indexer writes nodes one after the other and never cares where a row is, only what is found
under a qualified name afterwards.  `Wrote ns g g'` says just that: under each key there are the
columns last written to it, an id once given is kept, and nothing else has changed.  The same for
edges is `exists_insertEdges`, for deletions `mem_nodes_deleteNodes` and `mem_edges_deleteNodes`.
-/

import Greppy.GraphStore

set_option autoImplicit false

namespace Greppy

def NewNode.key (n : NewNode) : String × String := (n.project, n.qualifiedName)

/-! ### Writing nodes -/

/-- The graph `g'` is `g` after writing the nodes `ns` in order. -/
structure Wrote (ns : List NewNode) (g g' : Graph) : Prop where
  projects_eq : g'.projects = g.projects
  edges_eq : g'.edges = g.edges
  columns : ∀ k, (g'.nodes.find? k).map Node.toNewNode =
    (lastWrite NewNode.key ns k).or ((g.nodes.find? k).map Node.toNewNode)
  kept : ∀ k n, g.nodes.find? k = some n → ∃ n', g'.nodes.find? k = some n' ∧ n'.id = n.id

theorem Wrote.refl (g : Graph) : Wrote [] g g where
  projects_eq := rfl
  edges_eq := rfl
  columns := fun k => by simp
  kept := fun k n h => ⟨n, h, rfl⟩

variable {ns : List NewNode} {g g' : Graph} {n : Node} {k : String × String} {i : ℕ}

theorem Wrote.trans {ms : List NewNode} {g'' : Graph} (h : Wrote ns g g') (h' : Wrote ms g' g'') :
    Wrote (ns ++ ms) g g'' where
  projects_eq := h'.projects_eq.trans h.projects_eq
  edges_eq := h'.edges_eq.trans h.edges_eq
  columns := by
    intro k
    rw [h'.columns, h.columns, lastWrite_append, Option.or_assoc]
  kept := by
    intro k n hn
    obtain ⟨n', hn', hid'⟩ := h.kept k n hn
    obtain ⟨n'', hn'', hid''⟩ := h'.kept k n' hn'
    exact ⟨n'', hn'', hid''.trans hid'⟩

/-- A node whose project is there is written, and the id returned is the one it has. -/
theorem exists_insertNodeInTx {n : NewNode} (hp : (g.projects.find? n.project).isSome) :
    ∃ g' id, g.insertNodeInTx n = .ok (g', id) ∧ Wrote [n] g g' ∧
      g'.nodes.find? n.key = some { n with id := id } := by
  rcases g.insertNodeInTx_cases n with ⟨_, g', h, hnodes, hprojects, hedges⟩ | ⟨hnone, _⟩
  · have hfind := Graph.find?_insertNodeInTx h
    refine ⟨g', _, h, ⟨hprojects, hedges, ?_, ?_⟩, ?_⟩
    · intro k
      rw [hfind, lastWrite_singleton]
      by_cases hk : (n.project, n.qualifiedName) = k
      · rw [if_pos hk, if_pos (show n.key = k from hk)]
        rfl
      · rw [if_neg hk, if_neg (show ¬ n.key = k from hk)]
        rfl
    · intro k m hm
      rw [hfind]
      by_cases hk : (n.project, n.qualifiedName) = k
      · refine ⟨_, if_pos hk, ?_⟩
        subst hk
        have hm' : g.nodes.find? (Node.key { n with id := g.nextNodeId }) = some m := hm
        simp [KeyedTable.merged, hm', Node.overwrite]
      · exact ⟨m, by rw [if_neg hk, hm], rfl⟩
    · rw [hfind, if_pos (show (n.project, n.qualifiedName) = n.key from rfl)]
  · rw [hnone] at hp
    cases hp

theorem exists_insertNodes (hp : ∀ n ∈ ns, (g.projects.find? n.project).isSome) :
    ∃ g' ids, g.insertNodes ns = .ok (g', ids) ∧ Wrote ns g g' := by
  induction ns generalizing g with
  | nil => exact ⟨g, [], rfl, Wrote.refl g⟩
  | cons n ns ih =>
    obtain ⟨g₁, id, h₁, hw₁, _⟩ := exists_insertNodeInTx (hp n List.mem_cons_self)
    have hp₁ : ∀ m ∈ ns, (g₁.projects.find? m.project).isSome := by
      intro m hm
      rw [hw₁.projects_eq]
      exact hp m (List.mem_cons_of_mem _ hm)
    obtain ⟨g₂, ids, h₂, hw₂⟩ := ih hp₁
    refine ⟨g₂, id :: ids, ?_, hw₁.trans hw₂⟩
    simp only [Graph.insertNodes, h₁, h₂, bind, Except.bind, pure, Except.pure]

theorem wrote_of_insertNodes {ids : List ℕ} (h : g.insertNodes ns = .ok (g', ids)) :
    Wrote ns g g' := by
  induction ns generalizing g ids with
  | nil =>
    cases h
    exact Wrote.refl _
  | cons n ns ih =>
    rcases g.insertNodeInTx_cases n with ⟨hp, _⟩ | ⟨_, herr⟩
    · obtain ⟨g₁, id, h₁, hw₁, _⟩ := exists_insertNodeInTx hp
      simp only [Graph.insertNodes, h₁, bind, Except.bind, pure, Except.pure] at h
      cases h₂ : g₁.insertNodes ns with
      | error e =>
        rw [h₂] at h
        cases h
      | ok p =>
        rw [h₂] at h
        cases h
        exact hw₁.trans (ih h₂)
    · simp only [Graph.insertNodes, herr, bind, Except.bind] at h
      cases h

/-- A node after a batch of writes is one of those written, or was there before. -/
theorem Wrote.mem_or (h : Wrote ns g g') (hn : n ∈ g'.nodes.rows) :
    n.toNewNode ∈ ns ∨ ∃ m ∈ g.nodes.rows, m.toNewNode = n.toNewNode := by
  have hcol := h.columns n.key
  rw [KeyedTable.find?_of_mem hn, Option.map_some] at hcol
  cases hlast : lastWrite NewNode.key ns n.key with
  | some w =>
    rw [hlast, Option.some_or, Option.some.injEq] at hcol
    rw [hcol]
    exact Or.inl (mem_of_lastWrite hlast).1
  | none =>
    rw [hlast, Option.none_or, eq_comm, Option.map_eq_some_iff] at hcol
    obtain ⟨m, hm, hmn⟩ := hcol
    exact Or.inr ⟨m, KeyedTable.mem_of_find? hm, hmn⟩

/-- **A row after a batch of writes**: the columns last written to its key, or a row of before whose
key was not written to. -/
theorem Wrote.mem_cases (h : Wrote ns g g') (hn : n ∈ g'.nodes.rows) :
    lastWrite NewNode.key ns n.key = some n.toNewNode ∨
      lastWrite NewNode.key ns n.key = none ∧ n ∈ g.nodes.rows := by
  have hfind := KeyedTable.find?_of_mem hn
  have hcol := h.columns n.key
  rw [hfind, Option.map_some] at hcol
  cases hlast : lastWrite NewNode.key ns n.key with
  | some w =>
    rw [hlast, Option.some_or, Option.some.injEq] at hcol
    exact Or.inl (congrArg some hcol.symm)
  | none =>
    rw [hlast, Option.none_or, eq_comm, Option.map_eq_some_iff] at hcol
    obtain ⟨m, hm, hmn⟩ := hcol
    obtain ⟨n', hn', hid⟩ := h.kept n.key m hm
    rw [hfind, Option.some.injEq] at hn'
    subst hn'
    have hmn' : m = n := by
      cases m
      cases n
      simp_all
    exact Or.inr ⟨rfl, hmn' ▸ KeyedTable.mem_of_find? hm⟩

theorem Wrote.mem_of_lastWrite_none (h : Wrote ns g g') (hn : n ∈ g.nodes.rows)
    (hlast : lastWrite NewNode.key ns n.key = none) : n ∈ g'.nodes.rows := by
  obtain ⟨n', hn', _⟩ := h.kept n.key n (KeyedTable.find?_of_mem hn)
  have hmem := KeyedTable.mem_of_find? hn'
  rcases h.mem_cases hmem with hsome | ⟨_, hold⟩
  · rw [KeyedTable.key_of_find? hn', hlast] at hsome
    cases hsome
  · rwa [← g.nodes.eq_of_key_eq hold hn (KeyedTable.key_of_find? hn')]

theorem Wrote.exists_of_lastWrite (h : Wrote ns g g') {w : NewNode}
    (hlast : lastWrite NewNode.key ns k = some w) : ∃ n ∈ g'.nodes.rows, n.toNewNode = w := by
  have hcol := h.columns k
  rw [hlast, Option.some_or, Option.map_eq_some_iff] at hcol
  obtain ⟨n, hn, hnw⟩ := hcol
  exact ⟨n, KeyedTable.mem_of_find? hn, hnw⟩

def Graph.idAt (g : Graph) (k : String × String) : Option ℕ := (g.nodes.find? k).map Node.id

theorem Graph.idAt_eq_some_iff : g.idAt k = some i ↔ ∃ n ∈ g.nodes.rows, n.key = k ∧ n.id = i := by
  unfold Graph.idAt
  rw [Option.map_eq_some_iff]
  constructor
  · rintro ⟨n, hn, hid⟩
    exact ⟨n, KeyedTable.mem_of_find? hn, KeyedTable.key_of_find? hn, hid⟩
  · rintro ⟨n, hn, hk, hid⟩
    exact ⟨n, KeyedTable.find?_eq_some_iff.2 ⟨hn, hk⟩, hid⟩

theorem Graph.idAt_inj {k' : String × String} (h : g.idAt k = some i) (h' : g.idAt k' = some i) :
    k = k' := by
  obtain ⟨n, hn, rfl, hid⟩ := Graph.idAt_eq_some_iff.1 h
  obtain ⟨n', hn', rfl, hid'⟩ := Graph.idAt_eq_some_iff.1 h'
  rw [g.node_eq_of_id_eq hn hn' (hid.trans hid'.symm)]

theorem Graph.mem_ids_of_idAt (h : g.idAt k = some i) : i ∈ g.nodes.rows.map Node.id := by
  obtain ⟨n, hn, _, hid⟩ := Graph.idAt_eq_some_iff.1 h
  exact List.mem_map.2 ⟨n, hn, hid⟩

theorem Wrote.idAt (h : Wrote ns g g') (hi : g.idAt k = some i) : g'.idAt k = some i := by
  obtain ⟨n, hn, rfl⟩ := Option.map_eq_some_iff.1 hi
  obtain ⟨n', hn', hid⟩ := h.kept k n hn
  exact Option.map_eq_some_iff.2 ⟨n', hn', hid⟩

theorem Wrote.mem_ids (h : Wrote ns g g') (hi : i ∈ g.nodes.rows.map Node.id) :
    i ∈ g'.nodes.rows.map Node.id := by
  obtain ⟨n, hn, rfl⟩ := List.mem_map.1 hi
  obtain ⟨n', hn', hid⟩ := h.kept n.key n (KeyedTable.find?_of_mem hn)
  exact List.mem_map.2 ⟨n', KeyedTable.mem_of_find? hn', hid⟩

/-! ### Writing edges -/

namespace Graph

/-- `insert_edge` for each edge of a list. -/
def insertEdges : List Edge → Graph → Except StoreError Graph
  | [], g => .ok g
  | e :: es, g => do
      let g ← g.insertEdge e
      g.insertEdges es

theorem exists_insertEdge {g : Graph} {e : Edge} (hp : (g.projects.find? e.project).isSome)
    (hs : e.sourceId ∈ g.nodes.rows.map Node.id) (ht : e.targetId ∈ g.nodes.rows.map Node.id) :
    ∃ g', g.insertEdge e = .ok g' ∧ g'.nodes = g.nodes ∧ g'.projects = g.projects ∧
      g'.edges = g.edges.upsertWith Edge.setProperties Edge.key_setProperties e := by
  unfold insertEdge
  rw [dif_pos (Or.inr ⟨hp, hs, ht⟩)]
  exact ⟨_, rfl, rfl, rfl, rfl⟩

/-- **Edges between nodes that exist are all inserted**; the properties last written to a key
stay. -/
theorem exists_insertEdges {g : Graph} {es : List Edge}
    (h : ∀ e ∈ es, (g.projects.find? e.project).isSome ∧
      e.sourceId ∈ g.nodes.rows.map Node.id ∧ e.targetId ∈ g.nodes.rows.map Node.id) :
    ∃ g', g.insertEdges es = .ok g' ∧ g'.nodes = g.nodes ∧ g'.projects = g.projects ∧
      ∀ k, (g'.edges.find? k).map Edge.properties =
        ((lastWrite Edge.key es k).map Edge.properties).or
          ((g.edges.find? k).map Edge.properties) := by
  induction es generalizing g with
  | nil => exact ⟨g, rfl, rfl, rfl, fun k => by simp⟩
  | cons e es ih =>
    obtain ⟨hp, hs, ht⟩ := h e (by simp)
    obtain ⟨g₁, h₁, hnodes₁, hprojects₁, hedges₁⟩ := exists_insertEdge hp hs ht
    obtain ⟨g₂, h₂, hnodes₂, hprojects₂, hedges₂⟩ := ih (g := g₁) (by
      intro d hd
      rw [hnodes₁, hprojects₁]
      exact h d (List.mem_cons_of_mem _ hd))
    refine ⟨g₂, ?_, hnodes₂.trans hnodes₁, hprojects₂.trans hprojects₁, ?_⟩
    · rw [insertEdges, h₁]
      exact h₂
    · intro k
      have hcons : e :: es = [e] ++ es := rfl
      rw [hedges₂, hcons, lastWrite_append, lastWrite_singleton, hedges₁,
        KeyedTable.find?_upsertWith]
      cases lastWrite Edge.key es k with
      | some d => rfl
      | none =>
        by_cases hk : e.key = k
        · rw [if_pos hk, if_pos hk]
          unfold KeyedTable.merged
          cases g.edges.find? e.key <;> rfl
        · rw [if_neg hk, if_neg hk]
          rfl

/-! ### Deleting nodes -/

/-- `delete_node` for each id of a list. -/
def deleteNodes (ids : List ℕ) (g : Graph) : Graph := ids.foldl (fun g id => g.deleteNode id) g

theorem projects_deleteNodesWhere (p : Node → Bool) (g : Graph) :
    (g.deleteNodesWhere p).projects = g.projects := by
  refine KeyedTable.ext ?_
  exact List.filter_eq_self.2 fun _ _ => rfl

theorem nodes_deleteEdgesWhere (p : Edge → Bool) (g : Graph) :
    (g.deleteEdgesWhere p).nodes = g.nodes := by
  refine KeyedTable.ext ?_
  exact List.filter_eq_self.2 fun _ _ => rfl

theorem projects_deleteEdgesWhere (p : Edge → Bool) (g : Graph) :
    (g.deleteEdgesWhere p).projects = g.projects := by
  refine KeyedTable.ext ?_
  exact List.filter_eq_self.2 fun _ _ => rfl

theorem mem_nodes_deleteNodes {ids : List ℕ} {g : Graph} {n : Node} :
    n ∈ (g.deleteNodes ids).nodes.rows ↔ n ∈ g.nodes.rows ∧ n.id ∉ ids := by
  induction ids generalizing g with
  | nil => simp [deleteNodes]
  | cons id ids ih =>
    have hcons : g.deleteNodes (id :: ids) = (g.deleteNode id).deleteNodes ids := rfl
    rw [hcons, ih, deleteNode, mem_nodes_deleteNodesWhere, List.mem_cons, not_or,
      decide_eq_false_iff_not, and_assoc]

theorem mem_edges_deleteNodes {ids : List ℕ} {g : Graph} {e : Edge} :
    e ∈ (g.deleteNodes ids).edges.rows ↔
      e ∈ g.edges.rows ∧ e.sourceId ∉ ids ∧ e.targetId ∉ ids := by
  induction ids generalizing g with
  | nil => simp [deleteNodes]
  | cons id ids ih =>
    have hcons : g.deleteNodes (id :: ids) = (g.deleteNode id).deleteNodes ids := rfl
    have hend : ∀ i, i ∈ (g.deleteNode id).nodes.rows.map Node.id ↔
        i ∈ g.nodes.rows.map Node.id ∧ i ≠ id := by
      intro i
      simp only [List.mem_map, deleteNode, mem_nodes_deleteNodesWhere, decide_eq_false_iff_not]
      constructor
      · rintro ⟨n, ⟨hn, hne⟩, rfl⟩
        exact ⟨⟨n, hn, rfl⟩, hne⟩
      · rintro ⟨⟨n, hn, rfl⟩, hne⟩
        exact ⟨n, ⟨hn, hne⟩, rfl⟩
    have hmem : e ∈ (g.deleteNode id).edges.rows ↔
        e ∈ g.edges.rows ∧ e.sourceId ≠ id ∧ e.targetId ≠ id := by
      have hdel := mem_edges_deleteNodesWhere (p := fun n => decide (n.id = id)) (g := g) (e := e)
      rw [← deleteNode, hend, hend] at hdel
      rw [hdel]
      constructor
      · rintro ⟨he, ⟨_, hs⟩, _, ht⟩
        exact ⟨he, hs, ht⟩
      · rintro ⟨he, hs, ht⟩
        exact ⟨he, ⟨(g.edges_fk e he).2.1, hs⟩, (g.edges_fk e he).2.2, ht⟩
    rw [hcons, ih, hmem, List.mem_cons, List.mem_cons, not_or, not_or]
    tauto

theorem projects_deleteNodes (ids : List ℕ) (g : Graph) :
    (g.deleteNodes ids).projects = g.projects := by
  induction ids generalizing g with
  | nil => rfl
  | cons id ids ih =>
    have hcons : g.deleteNodes (id :: ids) = (g.deleteNode id).deleteNodes ids := rfl
    rw [hcons, ih, deleteNode, projects_deleteNodesWhere]

end Graph

end Greppy
