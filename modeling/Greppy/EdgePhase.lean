/-
**What the file phase of a run leaves of the edges.**

Before a run resolves edges it replaces the nodes and the raw edges of the files it processes.  The
edges go with the nodes they hang off, and a node that is written again has another id, so an edge
survives exactly when both its nodes do.  File by file there are two cases: the definitions and the
raw edges of a file are what they were, or none of its definitions has the id it had.

This rests on qualified names: the parser starts the name of a definition with the path of its file,
and so the name of the source of every edge; the names of the spine have no such start.  `owner` reads
the path off a name.
-/

import Greppy.EdgeLinks
import Greppy.IndexFresh

set_option autoImplicit false

namespace Greppy

/-! ### Nodes deleted and written -/

theorem nextNodeId_insertNodeInTx {g g' : Graph} {n : NewNode} {id : ℕ}
    (h : g.insertNodeInTx n = .ok (g', id)) : g'.nextNodeId = g.nextNodeId + 1 := by
  unfold Graph.insertNodeInTx at h
  split at h
  · cases h
    rfl
  · cases h

theorem Wrote.find?_of_not_mem {ns : List NewNode} {g g' : Graph} (h : Wrote ns g g')
    {k : String × String} (hk : k ∉ ns.map NewNode.key) : g'.nodes.find? k = g.nodes.find? k := by
  have hcolumns := h.columns k
  rw [lastWrite_eq_none_iff.2 hk, Option.none_or] at hcolumns
  cases hn : g.nodes.find? k with
  | none =>
    rw [hn, Option.map_none, Option.map_eq_none_iff] at hcolumns
    exact hcolumns
  | some n =>
    obtain ⟨n', hn', hid⟩ := h.kept k n hn
    rw [hn, hn', Option.map_some, Option.map_some, Option.some.injEq] at hcolumns
    rw [hn']
    cases n
    cases n'
    simp only at hcolumns hid
    rw [hcolumns, hid]

/-- The graph `g'` comes from `g` by deleting and writing nodes: ids are never given twice, and of
the edges those are left whose two ends are. -/
structure Reworked (g g' : Graph) : Prop where
  next_le : g.nextNodeId ≤ g'.nextNodeId
  old : ∀ n' ∈ g'.nodes.rows, n'.id < g.nextNodeId →
    ∃ n ∈ g.nodes.rows, n.id = n'.id ∧ n.key = n'.key
  edges : ∀ e, e ∈ g'.edges.rows ↔ e ∈ g.edges.rows ∧
    e.sourceId ∈ g'.nodes.rows.map Node.id ∧ e.targetId ∈ g'.nodes.rows.map Node.id

namespace Reworked

variable {g g' g'' : Graph}

theorem of_eq (hnodes : g'.nodes = g.nodes) (hedges : g'.edges = g.edges)
    (hnext : g'.nextNodeId = g.nextNodeId) : Reworked g g' where
  next_le := hnext.ge
  old := fun n hn _ => ⟨n, hnodes ▸ hn, rfl, rfl⟩
  edges := by
    intro e
    rw [hedges, hnodes]
    exact ⟨fun he => ⟨he, (g.edges_fk e he).2⟩, fun h => h.1⟩

theorem refl (g : Graph) : Reworked g g := of_eq rfl rfl rfl

/-- An id that an edge of `g` has is still the id of a node in between. -/
private theorem mem_between (h' : Reworked g' g'') (hle : g.nextNodeId ≤ g'.nextNodeId) {i : ℕ}
    (hi : i ∈ g.nodes.rows.map Node.id) (hi'' : i ∈ g''.nodes.rows.map Node.id) :
    i ∈ g'.nodes.rows.map Node.id := by
  obtain ⟨n, hn, rfl⟩ := List.mem_map.1 hi
  obtain ⟨n'', hn'', hid⟩ := List.mem_map.1 hi''
  have hlt : n''.id < g'.nextNodeId := by
    have := g.ids_lt n hn
    omega
  obtain ⟨n', hn', hid', _⟩ := h'.old n'' hn'' hlt
  exact List.mem_map.2 ⟨n', hn', hid'.trans hid⟩

theorem trans (h : Reworked g g') (h' : Reworked g' g'') : Reworked g g'' where
  next_le := h.next_le.trans h'.next_le
  old := by
    intro n'' hn'' hlt
    obtain ⟨n', hn', hid', hkey'⟩ := h'.old n'' hn'' (lt_of_lt_of_le hlt h.next_le)
    obtain ⟨n, hn, hid, hkey⟩ := h.old n' hn' (hid' ▸ hlt)
    exact ⟨n, hn, hid.trans hid', hkey.trans hkey'⟩
  edges := by
    intro e
    rw [h'.edges, h.edges]
    constructor
    · rintro ⟨⟨he, _⟩, hends⟩
      exact ⟨he, hends⟩
    · rintro ⟨he, hs, ht⟩
      obtain ⟨hsg, htg⟩ := (g.edges_fk e he).2
      exact ⟨⟨he, h'.mem_between h.next_le hsg hs, h'.mem_between h.next_le htg ht⟩, hs, ht⟩

theorem deleteNodesWhere (p : Node → Bool) (g : Graph) : Reworked g (g.deleteNodesWhere p) where
  next_le := le_rfl
  old := fun n hn _ => ⟨n, (Graph.mem_nodes_deleteNodesWhere.1 hn).1, rfl, rfl⟩
  edges := fun _ => Graph.mem_edges_deleteNodesWhere

theorem insertNodeInTx {n : NewNode} {id : ℕ} (h : g.insertNodeInTx n = .ok (g', id)) :
    Reworked g g' := by
  have hnext := nextNodeId_insertNodeInTx h
  rcases g.insertNodeInTx_cases n with ⟨_, g₁, h₁, hnodes, _, hedges⟩ | ⟨_, h₁⟩
  · cases h₁.symm.trans h
    refine ⟨by omega, ?_, ?_⟩
    · intro m hm hlt
      rw [hnodes] at hm
      rcases KeyedTable.mem_upsertWith.1 hm with rfl | ⟨hm, _⟩
      · -- the written row has the id of the row it replaces, or a new one
        cases hfind : g.nodes.find? (Node.key { n with id := g.nextNodeId }) with
        | some r =>
          refine ⟨r, KeyedTable.mem_of_find? hfind, ?_, ?_⟩
          · simp [KeyedTable.merged, hfind, Node.overwrite]
          · rw [KeyedTable.key_merged Node.key_overwrite]
            exact KeyedTable.key_of_find? hfind
        | none =>
          simp [KeyedTable.merged, hfind] at hlt
      · exact ⟨m, hm, rfl, rfl⟩
    · intro e
      rw [hedges]
      constructor
      · intro he
        refine ⟨he, ?_⟩
        have he' : e ∈ g'.edges.rows := by rwa [hedges]
        exact (g'.edges_fk e he').2
      · exact fun he => he.1
  · rw [h₁] at h
    cases h

theorem insertNodes {ns : List NewNode} {ids : List ℕ} (h : g.insertNodes ns = .ok (g', ids)) :
    Reworked g g' := by
  induction ns generalizing g ids with
  | nil =>
    cases h
    exact refl _
  | cons n ns ih =>
    simp only [Graph.insertNodes, bind, Except.bind, pure, Except.pure] at h
    split at h
    · cases h
    · rename_i p₁ h₁
      split at h
      · cases h
      · rename_i p₂ h₂
        cases h
        exact (insertNodeInTx h₁).trans (ih h₂)

theorem fresh (h : Reworked g g') {k : String × String} (hk : g.idAt k = none) {i : ℕ}
    (hi : g'.idAt k = some i) : g.nextNodeId ≤ i := by
  obtain ⟨n', hn', hkey', rfl⟩ := Graph.idAt_eq_some_iff.1 hi
  by_contra hlt
  obtain ⟨n, hn, _, hkey⟩ := h.old n' hn' (not_le.1 hlt)
  have hsome : g.idAt k = some n.id := Graph.idAt_eq_some_iff.2 ⟨n, hn, hkey.trans hkey', rfl⟩
  rw [hk] at hsome
  cases hsome

/-- An id of `g` that is still there belongs to the key it had. -/
theorem idAt_of_mem (h : Reworked g g') {k : String × String} {i : ℕ} (hi : g'.idAt k = some i)
    (hmem : i ∈ g.nodes.rows.map Node.id) : g.idAt k = some i := by
  obtain ⟨n', hn', hkey', rfl⟩ := Graph.idAt_eq_some_iff.1 hi
  obtain ⟨m, hm, hid⟩ := List.mem_map.1 hmem
  obtain ⟨n, hn, hnid, hkey⟩ := h.old n' hn' (hid ▸ g.ids_lt m hm)
  exact Graph.idAt_eq_some_iff.2 ⟨n, hn, hkey.trans hkey', hnid⟩

/-- Between two nodes that have kept their ids there are the edges there were. -/
theorem edgeAt_of_kept (h : Reworked g g') {project a b : String} {i j : ℕ}
    (ha : g.idAt (project, a) = some i) (ha' : g'.idAt (project, a) = some i)
    (hb : g.idAt (project, b) = some j) (hb' : g'.idAt (project, b) = some j) (t : String) :
    g'.edgeAt project a b t = g.edgeAt project a b t := by
  rw [Graph.edgeAt_of_ids ha' hb', Graph.edgeAt_of_ids ha hb]
  congr 1
  ext e
  rw [KeyedTable.find?_eq_some_iff, KeyedTable.find?_eq_some_iff, h.edges]
  constructor
  · rintro ⟨⟨he, _⟩, hk⟩
    exact ⟨he, hk⟩
  · rintro ⟨he, hk⟩
    refine ⟨⟨he, ?_⟩, hk⟩
    simp only [Edge.key, Prod.mk.injEq] at hk
    rw [hk.1, hk.2.1]
    exact ⟨Graph.mem_ids_of_idAt ha', Graph.mem_ids_of_idAt hb'⟩

/-- An edge that is there joins two nodes that have kept their ids. -/
theorem kept_of_edgeAt (h : Reworked g g') {project a b t : String} {p : Json}
    (he : g'.edgeAt project a b t = some p) :
    g.idAt (project, a) = g'.idAt (project, a) ∧ g.idAt (project, b) = g'.idAt (project, b) := by
  obtain ⟨i, j, ha', hb', hfind⟩ := Graph.ids_of_edgeAt he
  obtain ⟨e, hfind, _⟩ := Option.map_eq_some_iff.1 hfind
  obtain ⟨hmem, hkey⟩ := KeyedTable.find?_eq_some_iff.1 hfind
  simp only [Edge.key, Prod.mk.injEq] at hkey
  obtain ⟨hs, ht⟩ := (g.edges_fk e ((h.edges e).1 hmem).1).2
  rw [hkey.1] at hs
  rw [hkey.2.1] at ht
  exact ⟨(h.idAt_of_mem ha' hs).trans ha'.symm, (h.idAt_of_mem hb' ht).trans hb'.symm⟩

/-- **An edge survives exactly when both its nodes do.** -/
theorem edgeAt_eq (h : Reworked g g') (project a b t : String) :
    g'.edgeAt project a b t =
      if g'.idAt (project, a) = g.idAt (project, a) ∧ g'.idAt (project, b) = g.idAt (project, b) then
        g.edgeAt project a b t
      else none := by
  by_cases hkept : g'.idAt (project, a) = g.idAt (project, a) ∧
      g'.idAt (project, b) = g.idAt (project, b)
  · rw [if_pos hkept]
    obtain ⟨ha, hb⟩ := hkept
    cases ha' : g.idAt (project, a) with
    | none => simp [Graph.edgeAt, ha, ha']
    | some i =>
      cases hb' : g.idAt (project, b) with
      | none => simp [Graph.edgeAt, hb, hb']
      | some j => exact h.edgeAt_of_kept ha' (ha.trans ha') hb' (hb.trans hb') t
  · rw [if_neg hkept, Option.eq_none_iff_forall_ne_some]
    intro p hp
    obtain ⟨ha, hb⟩ := h.kept_of_edgeAt hp
    exact hkept ⟨ha.symm, hb.symm⟩

end Reworked

/-! ### Names tell files apart -/

section Names

variable (owner : String → Option String)

/-- What the parser finds in a file bears the file in its names. -/
structure Named (rel : String) (nodes : List ExtractedNode) (edges : List ExtractedEdge) :
    Prop where
  under : ∀ x, owner (rel ++ "::" ++ x) = some rel
  nodes : ∀ n ∈ nodes, owner n.qualifiedName = some rel ∧ n.label ∉ nonDefLabels
  sources : ∀ e ∈ edges, owner e.sourceQualifiedName = some rel
  targets : ∀ e ∈ edges, (owner e.targetQualifiedName).isSome

/-- A node that has an owner is a definition and lives there; the spine has none. -/
structure PlacedNode (n : NewNode) : Prop where
  file : ∀ f, owner n.qualifiedName = some f → n.filePath = f
  isDef : n.label ∉ nonDefLabels ↔ (owner n.qualifiedName).isSome

/-- A raw edge starts in the file that owns it, and names no node of the spine. -/
structure RawPlaced (r : RawEdge) : Prop where
  source : owner r.sourceQname = some r.filePath
  target : (owner r.targetQname).isSome
  under : ∀ x, (owner (r.filePath ++ "::" ++ x)).isSome

/-- The names of a store tell its files apart, and it has the edges of one project. -/
structure Tidy (project : String) (s : Store) : Prop where
  nodes : ∀ n ∈ s.graph.nodes.rows, n.project = project → PlacedNode owner n.toNewNode
  raws : ∀ r ∈ s.rawEdges, r.project = project → RawPlaced owner r
  edges : ∀ e ∈ s.graph.edges.rows, e.project = project

/-- The definitions and the raw edges of a file are what they were. -/
structure Untouched (project : String) (s s' : Store) (f : String) : Prop where
  nodes : ∀ a, owner a = some f →
    s'.graph.nodes.find? (project, a) = s.graph.nodes.find? (project, a)
  raws : s'.rawEdgesOf project f = s.rawEdgesOf project f

/-- No definition of a file has an id from before. -/
def Renewed (project : String) (s s' : Store) (f : String) : Prop :=
  ∀ a, owner a = some f → ∀ i, s'.graph.idAt (project, a) = some i → s.graph.nextNodeId ≤ i

/-- The store `s'` comes from `s` by replacing what some files have. -/
structure FilePhase (project : String) (s s' : Store) : Prop where
  graph : Reworked s.graph s'.graph
  each : ∀ f, Untouched owner project s s' f ∨ Renewed owner project s s' f

end Names

section Phase

variable {owner : String → Option String} {project : String}

theorem FilePhase.refl (s : Store) : FilePhase owner project s s :=
  ⟨Reworked.refl _, fun _ => Or.inl ⟨fun _ _ => rfl, rfl⟩⟩

theorem FilePhase.trans {s s' s'' : Store} (h : FilePhase owner project s s')
    (h' : FilePhase owner project s' s'') : FilePhase owner project s s'' where
  graph := h.graph.trans h'.graph
  each := by
    intro f
    rcases h'.each f with hun' | hnew'
    · rcases h.each f with hun | hnew
      · refine Or.inl ⟨fun a ha => ?_, hun'.raws.trans hun.raws⟩
        exact (hun'.nodes a ha).trans (hun.nodes a ha)
      · refine Or.inr fun a ha i hi => hnew a ha i ?_
        rwa [Graph.idAt, ← hun'.nodes a ha]
    · exact Or.inr fun a ha i hi => h.graph.next_le.trans (hnew' a ha i hi)

theorem Tidy.filePath_eq {s : Store} (h : Tidy owner project s) {n : Node} {a f : String}
    (hn : s.graph.nodes.find? (project, a) = some n) (ha : owner a = some f) :
    n.project = project ∧ n.filePath = f := by
  obtain ⟨hmem, hkey⟩ := KeyedTable.find?_eq_some_iff.1 hn
  obtain ⟨hp, hq⟩ := Prod.ext_iff.1 hkey
  exact ⟨hp, (h.nodes n hmem hp).file f (by rw [← ha]; exact congrArg owner hq)⟩

theorem find?_deleteNodesForFile (g : Graph) (project rel : String) (k : String × String) :
    (g.deleteNodesForFile project rel).nodes.find? k = (g.nodes.find? k).filter
      fun n => !decide (n.project = project ∧ n.filePath = rel) := by
  rw [Graph.deleteNodesForFile, Graph.deleteNodesWhere, Graph.nodes_cascade,
    KeyedTable.find?_filter]
  rfl

/-- Deleting the nodes of a file takes all its definitions, and no others. -/
theorem find?_deleteNodesForFile_of_owner {s : Store} (h : Tidy owner project s) {a f : String}
    (ha : owner a = some f) (rel : String) :
    (s.graph.deleteNodesForFile project rel).nodes.find? (project, a) =
      if f = rel then none else s.graph.nodes.find? (project, a) := by
  rw [find?_deleteNodesForFile]
  cases hn : s.graph.nodes.find? (project, a) with
  | none => simp
  | some n =>
    obtain ⟨hp, hf⟩ := h.filePath_eq hn ha
    by_cases hrel : f = rel
    · simp [Option.filter, hp, hf, hrel]
    · simp [Option.filter, hf, hrel]

theorem Tidy.of_files {s : Store} (h : Tidy owner project s) (files : FileTables) :
    Tidy owner project { s with files := files } := ⟨h.nodes, h.raws, h.edges⟩

theorem FilePhase.of_files (s : Store) (files : FileTables) :
    FilePhase owner project s { s with files := files } :=
  ⟨Reworked.refl _, fun _ => Or.inl ⟨fun _ _ => rfl, rfl⟩⟩

/-! ### One turn -/

theorem tidy_dropGraphOf {s : Store} (h : Tidy owner project s) (rel : String) :
    Tidy owner project (dropGraphOf project rel s) where
  nodes n hn := h.nodes n (Graph.mem_nodes_deleteNodesWhere.1 hn).1
  raws r hr := h.raws r (List.mem_of_mem_filter hr)
  edges e he := h.edges e (Graph.mem_edges_deleteNodesWhere.1 he).1

theorem filePhase_dropGraphOf {s : Store} (h : Tidy owner project s) (rel : String) :
    FilePhase owner project s (dropGraphOf project rel s) where
  graph := Reworked.deleteNodesWhere _ s.graph
  each := by
    intro f
    by_cases hf : f = rel
    · refine Or.inr fun a ha i hi => ?_
      have hnone := find?_deleteNodesForFile_of_owner h ha rel
      rw [if_pos hf] at hnone
      have hi' : (s.graph.deleteNodesForFile project rel).idAt (project, a) = some i := hi
      rw [Graph.idAt, hnone] at hi'
      cases hi'
    · refine Or.inl ⟨fun a ha => ?_, ?_⟩
      · have hsame := find?_deleteNodesForFile_of_owner h ha rel
        rwa [if_neg hf] at hsame
      · have hraws := s.rawEdgesOf_delete project rel f
        rwa [if_neg fun heq => hf heq.symm] at hraws

/-- The outcome of extracting a file bears the file in its names. -/
def OutcomeNamed (owner : String → Option String) : FileOutcome → Prop
  | .extracted relPath _ _ _ nodes edges => Named owner relPath nodes edges
  | .unreadable _ _ _ _ => True

theorem Named.fileNodes {rel : String} {nodes : List ExtractedNode} {edges : List ExtractedEdge}
    (h : Named owner rel nodes edges) :
    ∀ n ∈ fileNodes project rel nodes, owner n.qualifiedName = some rel ∧ n.label ∉ nonDefLabels := by
  intro n hn
  obtain ⟨m, hm, rfl⟩ := List.mem_map.1 hn
  rcases List.mem_cons.1 hm with rfl | hm
  · refine ⟨?_, by simp [newNodeFor, moduleNode, nonDefLabels]⟩
    have hunder := h.under "__file__"
    rwa [String.append_assoc] at hunder
  · exact h.nodes m hm

section Turn

variable (env : Env) (run : Run)

variable {s : Store} {entries : List InventoryEntry}

theorem tidy_applyOutcome (hs : HasProject project s) (h : Tidy owner project s)
    {outcome : FileOutcome} (ho : OutcomeNamed owner outcome) :
    Tidy owner project (applyOutcome env run project s outcome) := by
  cases outcome with
  | unreadable entry language reason detail => exact h.of_files _
  | extracted rel abs bytes md nodes edges =>
    have hnamed : Named owner rel nodes edges := ho
    obtain ⟨g', ids, hins, hok, hw⟩ := applyFileNodes_ok env run project hs rel abs bytes md nodes
    simp only [applyOutcome, hok]
    refine ⟨?_, ?_, ?_⟩
    · intro n hn hp
      rcases hw.mem_or hn with hmem | ⟨m, hm, hmn⟩
      · obtain ⟨hq, hl⟩ := hnamed.fileNodes _ hmem
        refine ⟨?_, by rw [hq]; exact ⟨fun _ => rfl, fun _ => hl⟩⟩
        intro f hf
        rw [(fileNodes_owned project _ hmem).2]
        exact Option.some.inj (hq.symm.trans hf)
      · have hm' := (Graph.mem_nodes_deleteNodesWhere.1 hm).1
        rw [← hmn]
        exact h.nodes m hm' ((congrArg NewNode.project hmn).trans hp)
    · intro r hr hp
      rcases List.mem_append.1 hr with hr | hr
      · exact h.raws r (List.mem_of_mem_filter hr) hp
      · obtain ⟨e, he, rfl⟩ := List.mem_map.1 hr
        refine ⟨hnamed.sources e he, hnamed.targets e he, fun x => ?_⟩
        have hx := hnamed.under x
        simp only [newRawEdgeFor]
        rw [hx]
        rfl
    · intro e he
      have hedges : g'.edges = (s.graph.deleteNodesForFile project rel).edges := hw.edges_eq
      have he' : e ∈ (s.graph.deleteNodesForFile project rel).edges.rows := by
        rw [← hedges]
        exact he
      exact h.edges e (Graph.mem_edges_deleteNodesWhere.1 he').1

theorem filePhase_applyOutcome (hs : HasProject project s) (h : Tidy owner project s)
    {outcome : FileOutcome} (ho : OutcomeNamed owner outcome) :
    FilePhase owner project s (applyOutcome env run project s outcome) := by
  cases outcome with
  | unreadable entry language reason detail => exact FilePhase.of_files s _
  | extracted rel abs bytes md nodes edges =>
    have hnamed : Named owner rel nodes edges := ho
    obtain ⟨g', ids, hins, hok, hw⟩ := applyFileNodes_ok env run project hs rel abs bytes md nodes
    have hrework := Reworked.insertNodes hins
    simp only [applyOutcome, hok]
    refine ⟨(Reworked.deleteNodesWhere _ s.graph).trans hrework, ?_⟩
    intro f
    by_cases hf : f = rel
    · -- the definitions of the file are gone before they are written again
      refine Or.inr fun a ha i hi => ?_
      have hnone := find?_deleteNodesForFile_of_owner h ha rel
      rw [if_pos hf] at hnone
      exact hrework.fresh (by rw [Graph.idAt, hnone]; rfl) hi
    · refine Or.inl ⟨fun a ha => ?_, ?_⟩
      · have hsame := find?_deleteNodesForFile_of_owner h ha rel
        rw [if_neg hf] at hsame
        refine Eq.trans (hw.find?_of_not_mem ?_) hsame
        intro hmem
        obtain ⟨n, hn, hk⟩ := List.mem_map.1 hmem
        have hq : n.qualifiedName = a := (Prod.ext_iff.1 hk).2
        have hown := (hnamed.fileNodes n hn).1
        rw [hq, ha] at hown
        exact hf (Option.some.inj hown)
      · refine (rawEdgesOf_persist project _ rel edges f).trans ?_
        rw [if_neg fun heq => hf heq.symm]
        rfl

/-! ### The whole phase -/

/-- A part of the file phase: it leaves a tidy store. -/
structure Moved (owner : String → Option String) (project : String) (s s' : Store) : Prop where
  hasProject : HasProject project s'
  tidy : Tidy owner project s'
  phase : FilePhase owner project s s'

theorem Moved.trans {s' s'' : Store} (h : Moved owner project s s')
    (h' : Moved owner project s' s'') : Moved owner project s s'' :=
  ⟨h'.hasProject, h'.tidy, h.phase.trans h'.phase⟩

theorem Moved.of_files (hs : HasProject project s) (h : Tidy owner project s) (files : FileTables) :
    Moved owner project s { s with files := files } :=
  ⟨hs, h.of_files files, FilePhase.of_files s files⟩

theorem moved_foldl {α : Type} {turn : Store → α → Store} {l : List α}
    (hturn : ∀ a ∈ l, ∀ s, HasProject project s → Tidy owner project s →
      Moved owner project s (turn s a)) (hs : HasProject project s) (h : Tidy owner project s) :
    Moved owner project s (l.foldl turn s) := by
  induction l generalizing s with
  | nil => exact ⟨hs, h, FilePhase.refl s⟩
  | cons a l ih =>
    have hfirst := hturn a List.mem_cons_self s hs h
    exact hfirst.trans (ih (fun b hb => hturn b (List.mem_cons_of_mem _ hb)) hfirst.hasProject
      hfirst.tidy)

theorem moved_dropGraphOf (hs : HasProject project s) (h : Tidy owner project s)
    (files : FileTables) (rel : String) :
    Moved owner project s (dropGraphOf project rel { s with files := files }) := by
  have htidy := h.of_files files
  refine ⟨?_, tidy_dropGraphOf htidy rel,
    (FilePhase.of_files s files).trans (filePhase_dropGraphOf htidy rel)⟩
  have hproj := projects_deleteNodesForFile project s.graph rel
  unfold HasProject dropGraphOf Store.deleteRawEdgesForFile
  simp only
  rw [hproj]
  exact hs

theorem moved_applyTriage (hs : HasProject project s) (h : Tidy owner project s)
    (entry : InventoryEntry) : Moved owner project s (applyTriage env run project s entry) := by
  unfold applyTriage
  cases triage env run.disk entry with
  | unsupported lang => exact moved_dropGraphOf hs h _ _
  | oversize lang md => exact moved_dropGraphOf hs h _ _
  | extract lang => exact ⟨hs, h, FilePhase.refl s⟩

theorem moved_changedEntry {s : Store} (hs : HasProject project s) (h : Tidy owner project s) :
    ∀ changed : Option InventoryEntry, Moved owner project s
      (match changed with
        | some entry => applyTriage env run project s entry
        | none => s)
  | some entry => moved_applyTriage env run hs h entry
  | none => ⟨hs, h, FilePhase.refl s⟩

theorem moved_applyDiff (entries : List InventoryEntry) (hs : HasProject project s)
    (h : Tidy owner project s) (diff : FileDiff) :
    Moved owner project s (applyDiff env run project entries s diff) := by
  have hchanged := moved_changedEntry env run hs h (changedEntry entries diff)
  cases diff with
  | deleted rel => exact moved_dropGraphOf hs h _ _
  | added entry => exact hchanged
  | modified entry old => exact hchanged
  | unchanged => exact hchanged

theorem moved_classifyFull (hs : HasProject project s) (h : Tidy owner project s)
    (entry : InventoryEntry) : Moved owner project s (classifyFull env run project s entry) := by
  unfold classifyFull
  cases triage env run.disk entry with
  | unsupported lang => exact Moved.of_files hs h _
  | oversize lang md => exact Moved.of_files hs h _
  | extract lang => exact ⟨hs, h, FilePhase.refl s⟩

/-- What is assumed of the names in one run: those of a file's definitions and edges tell the file,
and those of the spine are no such names. -/
structure Naming (owner : String → Option String) (project : String)
    (entries : List InventoryEntry) : Prop where
  distinct : (entries.map InventoryEntry.relPath).Nodup
  parsed : ∀ e ∈ entries, ∀ lang bytes ext, env.parserExtract lang bytes e.relPath = .ok ext →
    Named owner e.relPath ext.nodes ext.edges
  spine : ∀ q ∈ spineNames project entries, owner q = none

theorem named_extractOne (hn : Naming env owner project entries) {entry : InventoryEntry}
    (he : entry ∈ entries) (lang : Language) :
    OutcomeNamed owner (extractOne env run.disk entry lang) := by
  unfold extractOne
  cases readStableFile run.disk entry.absPath with
  | error e => trivial
  | ok p =>
    simp only
    cases hext : env.parserExtract lang p.1 entry.relPath with
    | error e => trivial
    | ok ext =>
      simp only
      split
      · exact hn.parsed entry he lang p.1 ext hext
      · trivial

theorem moved_extractions (hn : Naming env owner project entries) {selected : List InventoryEntry}
    (hsel : ∀ e ∈ selected, e ∈ entries) (hs : HasProject project s) (h : Tidy owner project s) :
    Moved owner project s
      ((extractions env run selected).foldl (applyOutcome env run project) s) := by
  refine moved_foldl ?_ hs h
  intro outcome hmem t ht htidy
  have hnamed : OutcomeNamed owner outcome := by
    unfold extractions at hmem
    obtain ⟨p, hp, rfl⟩ := List.mem_map.1 hmem
    obtain ⟨e, he, hpe⟩ := List.mem_filterMap.1 hp
    rw [toExtract_fst env hpe]
    exact named_extractOne env run hn (hsel e he) p.2
  exact ⟨hasProject_applyOutcome env run project ht outcome,
    tidy_applyOutcome env run ht htidy hnamed, filePhase_applyOutcome env run ht htidy hnamed⟩

/-- **The file phase of a full run.** -/
theorem moved_runFull (hn : Naming env owner project entries) (hs : HasProject project s)
    (h : Tidy owner project s) : Moved owner project s (runFull env run project entries s) := by
  have hfirst : Moved owner project s (entries.foldl (classifyFull env run project) s) :=
    moved_foldl (fun e _ t ht htidy => moved_classifyFull env run ht htidy e) hs h
  exact hfirst.trans (moved_extractions env run hn (fun _ he => he) hfirst.hasProject hfirst.tidy)

/-- **The file phase of an incremental run.** -/
theorem moved_runIncremental (hn : Naming env owner project entries) {s₁ : Store}
    {changed : List String} (hs : HasProject project s) (h : Tidy owner project s)
    (hrun : runIncremental env run project entries s = .ok (s₁, changed)) :
    Moved owner project s s₁ := by
  simp only [runIncremental, bind, Except.bind, pure, Except.pure] at hrun
  split at hrun
  · cases hrun
  · rename_i diffs _
    cases hrun
    have hfirst : Moved owner project s (diffs.foldl (applyDiff env run project entries) s) :=
      moved_foldl (fun d _ t ht htidy => moved_applyDiff env run entries ht htidy d) hs h
    have hsel : ∀ e ∈ diffs.filterMap (changedEntry entries), e ∈ entries := by
      intro e he
      obtain ⟨d, _, hd⟩ := List.mem_filterMap.1 he
      exact (relPath_of_changedEntry hd).1
    have hsecond := hfirst.trans
      (moved_extractions env run hn hsel hfirst.hasProject hfirst.tidy)
    exact hsecond.trans (Moved.of_files hsecond.hasProject hsecond.tidy _)

end Turn

end Phase

end Greppy
