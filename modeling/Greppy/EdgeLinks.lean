/-
**Edges by the names of their ends.**

The row of an edge has the ids of its ends, which a run may renew.  Seen by the qualified names of the
ends, the edges that resolution writes are a function of the definitions of the project, as the
fingerprint has them, and of the raw edges.

Main results:

* `edgeAt_written` — **what writing resolved edges leaves between two names**;
* `named_resolveSelected` — resolving against the store, by names, is resolving against `defIndex`;
* `defFingerprint_eq_iff` — **the fingerprint is unchanged exactly when `defIndex` is.**
-/

import Greppy.EdgeLocality
import Greppy.IndexRename

set_option autoImplicit false

namespace Greppy

/-! ### Names of ids -/

/-- The qualified name of the node with an id. -/
def Graph.nameOf (g : Graph) (id : ℕ) : String :=
  ((g.nodes.rows.find? fun n => decide (n.id = id)).map fun n => n.qualifiedName).getD ""

theorem Graph.nameOf_id {g : Graph} {n : Node} (hn : n ∈ g.nodes.rows) :
    g.nameOf n.id = n.qualifiedName := by
  have hfind : (g.nodes.rows.find? fun m => decide (m.id = n.id)) = some n := by
    cases h : g.nodes.rows.find? fun m => decide (m.id = n.id) with
    | none => exact absurd (decide_eq_true rfl) (List.find?_eq_none.1 h n hn)
    | some m =>
      have hid : m.id = n.id := by simpa using List.find?_some h
      rw [g.node_eq_of_id_eq (List.mem_of_find?_eq_some h) hn hid]
  rw [Graph.nameOf, hfind]
  rfl

theorem Graph.nameOf_congr {g g' : Graph} (h : g'.nodes = g.nodes) : g'.nameOf = g.nameOf := by
  funext i
  unfold Graph.nameOf
  rw [h]

theorem Graph.idAt_congr {g g' : Graph} (h : g'.nodes = g.nodes) (k : String × String) :
    g'.idAt k = g.idAt k := by
  unfold Graph.idAt
  rw [h]

section Load

variable {g : Graph} {project : String}

theorem mem_ids_load_iff {i : ℕ} : i ∈ (GraphIndex.load g project).ids ↔
    ∃ n ∈ g.nodes.rows, n.project = project ∧ n.id = i := by
  unfold GraphIndex.ids GraphIndex.load
  simp only [List.map_map, List.mem_map, Function.comp_apply, Graph.mem_projectRows, and_assoc]
  rfl

theorem idAt_nameOf {i : ℕ} (h : i ∈ (GraphIndex.load g project).ids) :
    g.idAt (project, g.nameOf i) = some i := by
  obtain ⟨n, hn, rfl, rfl⟩ := mem_ids_load_iff.1 h
  rw [Graph.nameOf_id hn]
  exact Graph.idAt_eq_some_iff.2 ⟨n, hn, rfl, rfl⟩

theorem nameOf_of_idAt {a : String} {i : ℕ} (h : g.idAt (project, a) = some i) :
    g.nameOf i = a ∧ i ∈ (GraphIndex.load g project).ids := by
  obtain ⟨n, hn, hk, rfl⟩ := Graph.idAt_eq_some_iff.1 h
  obtain ⟨hp, hq⟩ := Prod.ext_iff.1 hk
  exact ⟨(Graph.nameOf_id hn).trans hq, mem_ids_load_iff.2 ⟨n, hn, hp, rfl⟩⟩

theorem renaming_load (g : Graph) (project : String) :
    GraphIndex.Renaming g.nameOf (GraphIndex.load g project) where
  nodup := by
    have hsub : (GraphIndex.load g project).ids.Perm
        ((g.nodes.rows.filter fun n => decide (n.project = project)).map Node.id) := by
      unfold GraphIndex.ids GraphIndex.load
      rw [List.map_map]
      exact (List.perm_insertionSort _ _).map _
    exact hsub.nodup_iff.2 (g.ids_nodup.sublist (List.filter_sublist.map Node.id))
  inj i hi j hj heq := by
    have h := idAt_nameOf hi
    rw [heq, idAt_nameOf hj] at h
    exact (Option.some.inj h).symm
  imports p hp := by cases hp

end Load

/-! ### The edge between two names -/

/-- The properties of the edge of a type between two nodes of a project. -/
def Graph.edgeAt (g : Graph) (project a b edgeType : String) : Option Json :=
  match g.idAt (project, a), g.idAt (project, b) with
  | some i, some j => (g.edges.find? (i, j, edgeType)).map Edge.properties
  | _, _ => none

theorem Graph.edgeAt_of_ids {g : Graph} {project a b : String} {i j : ℕ}
    (ha : g.idAt (project, a) = some i) (hb : g.idAt (project, b) = some j) (t : String) :
    g.edgeAt project a b t = (g.edges.find? (i, j, t)).map Edge.properties := by
  unfold Graph.edgeAt
  rw [ha, hb]

theorem Graph.ids_of_edgeAt {g : Graph} {project a b t : String} {p : Json}
    (h : g.edgeAt project a b t = some p) :
    ∃ i j, g.idAt (project, a) = some i ∧ g.idAt (project, b) = some j ∧
      (g.edges.find? (i, j, t)).map Edge.properties = some p := by
  unfold Graph.edgeAt at h
  split at h
  · rename_i i j ha hb
    exact ⟨i, j, ha, hb, h⟩
  · cases h

def linkKey (p : String × String × ExtractedEdge) : String × String × String :=
  (p.1, p.2.1, usagePersistLabel p.2.2.edgeType)

def lastLink (links : List (String × String × ExtractedEdge)) (k : String × String × String) :
    Option Json :=
  (lastWrite linkKey links k).map fun p => withLine p.2.2

/-- A resolved edge by the names of its ends. -/
def Graph.named (g : Graph) (p : ℕ × ℕ × ExtractedEdge) : String × String × ExtractedEdge :=
  (g.nameOf p.1, g.nameOf p.2.1, p.2.2)

section Written

variable {g g' : Graph} {project : String}

def Joins (g : Graph) (project : String) (resolved : List (ℕ × ℕ × ExtractedEdge)) : Prop :=
  ∀ p ∈ resolved, p.1 ∈ (GraphIndex.load g project).ids ∧
    p.2.1 ∈ (GraphIndex.load g project).ids

variable {resolved : List (ℕ × ℕ × ExtractedEdge)}

/-- What is written to a row of ids is what is written to the row of names. -/
theorem lastWrite_newEdges (hjoins : Joins g project resolved) {a b : String} {i j : ℕ}
    (ha : g.idAt (project, a) = some i) (hb : g.idAt (project, b) = some j) (t : String) :
    (lastWrite Edge.key (newEdges project resolved) (i, j, t)).map Edge.properties =
      lastLink (resolved.map g.named) (a, b, t) := by
  obtain ⟨hna, hia⟩ := nameOf_of_idAt ha
  obtain ⟨hnb, hjb⟩ := nameOf_of_idAt hb
  have hinj := (renaming_load g project).inj
  have hids : ∀ p ∈ resolved, Edge.key (newEdge project p.1 p.2.1 p.2.2) = (i, j, t) ↔
      linkKey (g.named p) = (a, b, t) := by
    intro p hp
    obtain ⟨hs, ht⟩ := hjoins p hp
    simp only [Edge.key, newEdge, linkKey, Graph.named, Prod.mk.injEq, ← hna, ← hnb]
    constructor
    · rintro ⟨rfl, rfl, hlabel⟩
      exact ⟨rfl, rfl, hlabel⟩
    · rintro ⟨h₁, h₂, hlabel⟩
      exact ⟨hinj _ hs _ hia h₁, hinj _ ht _ hjb h₂, hlabel⟩
  unfold newEdges lastLink
  rw [lastWrite_map (fun p => linkKey (g.named p)) hids,
    lastWrite_map (fun p => linkKey (g.named p)) fun _ _ => Iff.rfl, Option.map_map,
    Option.map_map]
  rfl

theorem lastLink_eq_none (hjoins : Joins g project resolved) {a b : String}
    (h : g.idAt (project, a) = none ∨ g.idAt (project, b) = none) (t : String) :
    lastLink (resolved.map g.named) (a, b, t) = none := by
  unfold lastLink
  rw [Option.map_eq_none_iff, lastWrite_eq_none_iff, List.map_map]
  intro hmem
  obtain ⟨p, hp, hkey⟩ := List.mem_map.1 hmem
  obtain ⟨hs, ht⟩ := hjoins p hp
  simp only [Function.comp_apply, linkKey, Graph.named, Prod.mk.injEq] at hkey
  rcases h with h | h
  · rw [← hkey.1, idAt_nameOf hs] at h
    cases h
  · rw [← hkey.2.1, idAt_nameOf ht] at h
    cases h

/-- **What writing resolved edges leaves between two names.** -/
theorem edgeAt_written (hjoins : Joins g project resolved)
    (hw : EdgesWritten (newEdges project resolved) g g') (a b t : String) :
    g'.edgeAt project a b t =
      (lastLink (resolved.map g.named) (a, b, t)).or (g.edgeAt project a b t) := by
  have hids := Graph.idAt_congr hw.nodes_eq
  cases ha : g.idAt (project, a) with
  | none =>
    rw [lastLink_eq_none hjoins (Or.inl ha)]
    simp [Graph.edgeAt, hids, ha]
  | some i =>
    cases hb : g.idAt (project, b) with
    | none =>
      rw [lastLink_eq_none hjoins (Or.inr hb)]
      simp [Graph.edgeAt, hids, hb]
    | some j =>
      rw [Graph.edgeAt_of_ids ((hids _).trans ha) ((hids _).trans hb), hw.properties,
        Graph.edgeAt_of_ids ha hb, lastWrite_newEdges hjoins ha hb]

end Written

/-! ### The definitions of a project -/

/-- The definitions of a project, ordered by name, with their names for ids. -/
def defIndex (g : Graph) (project : String) : GraphIndex String :=
  (GraphIndex.load g project).definitions g.nameOf

/-- A definition as `defIndex` has it. -/
def Node.defRow (n : Node) : IndexRow String where
  id := n.qualifiedName
  name := n.name
  qualifiedName := n.qualifiedName
  label := n.label
  filePath := n.filePath

/-- The definitions among the nodes of a project. -/
def IsDef (g : Graph) (project : String) (n : Node) : Prop :=
  n ∈ g.nodes.rows ∧ n.project = project ∧ n.label ∉ nonDefLabels

section DefIndex

variable {g g' : Graph} {project : String}

theorem nodes_defIndex (g : Graph) (project : String) : (defIndex g project).nodes =
    ((g.projectRows project).filter fun n => decide (n.label ∉ nonDefLabels)).map Node.defRow := by
  unfold defIndex GraphIndex.definitions GraphIndex.load
  simp only
  rw [List.filter_map, List.map_map]
  refine List.map_congr_left fun n hn => ?_
  have hmem := (Graph.mem_projectRows.1 (List.mem_of_mem_filter hn)).1
  unfold Function.comp IndexRow.rename Node.toIndexRow Node.defRow
  simp only [Graph.nameOf_id hmem]

theorem mem_defIndex {row : IndexRow String} :
    row ∈ (defIndex g project).nodes ↔ ∃ n, IsDef g project n ∧ n.defRow = row := by
  rw [nodes_defIndex, List.mem_map]
  simp only [List.mem_filter, Graph.mem_projectRows, decide_eq_true_eq, IsDef, and_assoc]

theorem IsDef.eq_of_defRow {m n : Node} (hm : IsDef g project m) (hn : IsDef g project n)
    (h : m.qualifiedName = n.qualifiedName) : m = n :=
  g.nodes.eq_of_key_eq hm.1 hn.1 (Prod.ext (hm.2.1.trans hn.2.1.symm) h)

/-- Projects with the same definitions have one `defIndex`. -/
theorem defIndex_ext (h : ∀ row, row ∈ (defIndex g project).nodes ↔ row ∈ (defIndex g' project).nodes) :
    defIndex g project = defIndex g' project := by
  have hsorted : ∀ g : Graph, (defIndex g project).nodes.Pairwise
      fun a b => a.qualifiedName ≤ b.qualifiedName := by
    intro g
    rw [nodes_defIndex, List.pairwise_map]
    exact (List.pairwise_insertionSort _ _).filter _
  have hinj : ∀ {g : Graph} {a b : IndexRow String}, a ∈ (defIndex g project).nodes →
      b ∈ (defIndex g project).nodes → a.qualifiedName = b.qualifiedName → a = b := by
    intro g a b ha hb hq
    obtain ⟨m, hm, rfl⟩ := mem_defIndex.1 ha
    obtain ⟨n, hn, rfl⟩ := mem_defIndex.1 hb
    rw [hm.eq_of_defRow hn hq]
  have hnodup : ∀ g : Graph, (defIndex g project).nodes.Nodup := by
    intro g
    rw [nodes_defIndex]
    refine List.Nodup.map_on ?_ ?_
    · intro m hm n hn heq
      obtain ⟨hm, hlm⟩ := List.mem_filter.1 hm
      obtain ⟨hn, hln⟩ := List.mem_filter.1 hn
      obtain ⟨hm, hpm⟩ := Graph.mem_projectRows.1 hm
      obtain ⟨hn, hpn⟩ := Graph.mem_projectRows.1 hn
      exact IsDef.eq_of_defRow ⟨hm, hpm, of_decide_eq_true hlm⟩ ⟨hn, hpn, of_decide_eq_true hln⟩
        (congrArg IndexRow.qualifiedName heq)
    · have hrows : (g.projectRows project).Perm
          (g.nodes.rows.filter fun n => decide (n.project = project)) :=
        List.perm_insertionSort _ _
      exact (hrows.nodup_iff.2 (g.nodes.rows_nodup.filter _)).filter _
  have hperm : (defIndex g project).nodes.Perm (defIndex g' project).nodes :=
    (List.perm_ext_iff_of_nodup (hnodup g) (hnodup g')).2 h
  have hnodes : (defIndex g project).nodes = (defIndex g' project).nodes := by
    refine hperm.eq_of_pairwise ?_ (hsorted g) (hsorted g')
    intro a b ha hb hab hba
    exact hinj ha ((h b).2 hb) (le_antisymm hab hba)
  have himports : (defIndex g project).importsByFile = (defIndex g' project).importsByFile := rfl
  cases hx : defIndex g project
  cases hy : defIndex g' project
  rw [hx, hy] at hnodes himports
  simp only at hnodes himports
  rw [hnodes, himports]

/-- The columns in front of the path are free of the separator of the fingerprint's lines. -/
def SeparatorFree (g : Graph) (project : String) : Prop :=
  ∀ n, IsDef g project n → ∀ column ∈ [n.qualifiedName, n.name, n.label], '\x1f' ∉ column.toList

theorem toList_fingerprintLine (n : Node) : (fingerprintLine n).toList =
    n.qualifiedName.toList ++ '\x1f' :: (n.name.toList ++ '\x1f' :: (n.label.toList ++ '\x1f' :: n.filePath.toList)) := by
  simp [fingerprintLine]

theorem defRow_of_fingerprintLine {n n' : Node} (hg : SeparatorFree g project) (hg' : SeparatorFree g' project)
    (hn : IsDef g project n) (hn' : IsDef g' project n') (h : fingerprintLine n = fingerprintLine n') :
    n.defRow = n'.defRow := by
  have hcut {a a' b b' : List Char} (ha : '\x1f' ∉ a) (ha' : '\x1f' ∉ a')
      (h : a ++ '\x1f' :: b = a' ++ '\x1f' :: b') : a = a' ∧ b = b' := by
    have hsplit := congrArg (splitOnce '\x1f') h
    rw [splitOnce_append ha, splitOnce_append ha', Option.some.injEq, Prod.mk.injEq] at hsplit
    exact hsplit
  have hcolumns := hg n hn
  have hcolumns' := hg' n' hn'
  simp only [List.forall_mem_cons] at hcolumns hcolumns'
  have hlines := congrArg String.toList h
  rw [toList_fingerprintLine, toList_fingerprintLine] at hlines
  obtain ⟨hqname, hlines⟩ := hcut hcolumns.1 hcolumns'.1 hlines
  obtain ⟨hname, hlines⟩ := hcut hcolumns.2.1 hcolumns'.2.1 hlines
  obtain ⟨hlabel, hpath⟩ := hcut hcolumns.2.2.1 hcolumns'.2.2.1 hlines
  simp only [Node.defRow, String.toList_inj.1 hqname, String.toList_inj.1 hname, String.toList_inj.1 hlabel,
    String.toList_inj.1 hpath]

theorem mem_defFingerprint {line : String} :
    line ∈ defFingerprint g project ↔ ∃ n, IsDef g project n ∧ fingerprintLine n = line := by
  have hlabels : ∀ l : String, l ∉ ["Project", "Folder", "File"] ↔ l ∉ nonDefLabels := by
    intro l
    simp only [nonDefLabels, List.mem_cons, List.not_mem_nil, or_false, not_or]
    tauto
  simp only [defFingerprint, List.mem_toFinset, List.mem_map, List.mem_filter, decide_eq_true_eq,
    hlabels, IsDef, and_assoc]

theorem subset_defIndex (hg : SeparatorFree g project) (hg' : SeparatorFree g' project)
    (h : defFingerprint g project ⊆ defFingerprint g' project) {row : IndexRow String}
    (hrow : row ∈ (defIndex g project).nodes) : row ∈ (defIndex g' project).nodes := by
  obtain ⟨n, hn, rfl⟩ := mem_defIndex.1 hrow
  obtain ⟨n', hn', hline⟩ := mem_defFingerprint.1 (h (mem_defFingerprint.2 ⟨n, hn, rfl⟩))
  exact mem_defIndex.2 ⟨n', hn', defRow_of_fingerprintLine hg' hg hn' hn hline⟩

theorem subset_defFingerprint (h : ∀ row ∈ (defIndex g project).nodes, row ∈ (defIndex g' project).nodes) :
    defFingerprint g project ⊆ defFingerprint g' project := by
  intro line hline
  obtain ⟨n, hn, rfl⟩ := mem_defFingerprint.1 hline
  obtain ⟨n', hn', hrow⟩ := mem_defIndex.1 (h _ (mem_defIndex.2 ⟨n, hn, rfl⟩))
  obtain ⟨-, hname, hqname, hlabel, hpath⟩ := IndexRow.mk.inj hrow
  exact mem_defFingerprint.2 ⟨n', hn', by rw [fingerprintLine, fingerprintLine, hname, hqname, hlabel, hpath]⟩

/-- **The fingerprint is unchanged exactly when `defIndex` is**, unless a column holds the separator. -/
theorem defFingerprint_eq_iff (hg : SeparatorFree g project) (hg' : SeparatorFree g' project) :
    defFingerprint g project = defFingerprint g' project ↔ defIndex g project = defIndex g' project := by
  constructor
  · intro h
    exact defIndex_ext fun row => ⟨subset_defIndex hg hg' h.subset, subset_defIndex hg' hg h.superset⟩
  · intro h
    exact Finset.Subset.antisymm (subset_defFingerprint fun row hrow => h ▸ hrow)
      (subset_defFingerprint fun row hrow => h ▸ hrow)

/-- Functions of one file, in the order in which they were written. -/
def writtenInOrder (names : List String) : Graph :=
  Graph.ofInserts ⟨"p", "2026-06-29T00:00:00Z", "/p"⟩
    (names.map fun name => ⟨"p", "Function", name, name, "src/lib.rs", 1, 1, .null⟩) []

/-- Two functions written in the other order have other ids, and the same fingerprint. -/
theorem defFingerprint_eq_iff_reordered :
    (defFingerprint (writtenInOrder ["a", "b"]) "p" = defFingerprint (writtenInOrder ["b", "a"]) "p" ↔
      defIndex (writtenInOrder ["a", "b"]) "p" = defIndex (writtenInOrder ["b", "a"]) "p") ∧
    defFingerprint (writtenInOrder ["a", "b"]) "p" = defFingerprint (writtenInOrder ["b", "a"]) "p" := by
  refine ⟨defFingerprint_eq_iff (fun n hn => ?_) (fun n hn => ?_), by decide⟩
  · exact (by decide : ∀ n ∈ (writtenInOrder ["a", "b"]).nodes.rows,
      ∀ column ∈ [n.qualifiedName, n.name, n.label], '\x1f' ∉ column.toList) n hn.1
  · exact (by decide : ∀ n ∈ (writtenInOrder ["b", "a"]).nodes.rows,
      ∀ column ∈ [n.qualifiedName, n.name, n.label], '\x1f' ∉ column.toList) n hn.1

/-- **Resolving against the store, by names, is resolving against the definitions.** -/
theorem named_resolveSelected {considerImport : ExtractedEdge → String → Bool}
    {candidate : ExtractedEdge → Bool} {edges : List ExtractedEdge}
    (hplain : ∀ edge ∈ edges, (GraphIndex.load g project).PlainEdge edge) :
    ((GraphIndex.load g project).resolveSelected considerImport candidate edges).map g.named =
      (defIndex g project).resolveSelected considerImport candidate edges :=
  (GraphIndex.resolveSelected_definitions (renaming_load g project) hplain).symm

end DefIndex

end Greppy
