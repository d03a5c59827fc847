/-
**What the spine pass leaves of definitions and of their edges.**

Between the resolution of edges and the imports of files a run rebuilds the structural spine
(`crates/indexer/src/structural.rs`).  The spine has names of its own, so the pass keeps every
definition with its id; its edges start at nodes of the spine, so of the edges that start at a
definition it only takes those whose target it deletes.
-/

import Greppy.EdgePhase

set_option autoImplicit false

namespace Greppy

/-! ### The project of an edge -/

theorem project_insertEdges {project : String} {es : List Edge} {g g' : Graph}
    (h : g.insertEdges es = .ok g') (hes : ∀ e ∈ es, e.project = project)
    (hg : ∀ e ∈ g.edges.rows, e.project = project) : ∀ e ∈ g'.edges.rows, e.project = project := by
  induction es generalizing g with
  | nil =>
    cases h
    exact hg
  | cons d es ih =>
    simp only [Graph.insertEdges, bind, Except.bind] at h
    split at h
    · cases h
    · rename_i g₁ h₁
      have hedges : g₁.edges = g.edges.upsertWith Edge.setProperties Edge.key_setProperties d := by
        unfold Graph.insertEdge at h₁
        split at h₁
        · cases h₁
          rfl
        · cases h₁
      refine ih h (fun e he => hes e (List.mem_cons_of_mem _ he)) ?_
      intro e he
      rw [hedges] at he
      rcases KeyedTable.mem_upsertWith.1 he with rfl | ⟨he, _⟩
      · -- an edge that is there keeps its project
        unfold KeyedTable.merged
        cases hfind : g.edges.find? d.key with
        | none => exact hes d List.mem_cons_self
        | some r => exact hg r (KeyedTable.mem_of_find? hfind)
      · exact hg e he

theorem project_newEdges {project : String} (resolved : List (ℕ × ℕ × ExtractedEdge)) :
    ∀ e ∈ newEdges project resolved, e.project = project := by
  intro e he
  obtain ⟨p, _, rfl⟩ := List.mem_map.1 he
  rfl

/-! ### The pass -/

section Pass

variable {owner : String → Option String} {project : String} {entries : List InventoryEntry}
  {g g' : Graph}

/-- What the spine pass keeps: `g` is the graph before, `g'` the one after. -/
structure SpineKept (owner : String → Option String) (project : String) (g g' : Graph) :
    Prop where
  projects_eq : g'.projects = g.projects
  nodes : ∀ a, (owner a).isSome → g'.nodes.find? (project, a) = g.nodes.find? (project, a)
  placed : ∀ n ∈ g'.nodes.rows, n.project = project → PlacedNode owner n.toNewNode
  edges : ∀ e ∈ g'.edges.rows, e.project = project
  edgeAt : ∀ a, (owner a).isSome → ∀ b t, g'.edgeAt project a b t =
    if g'.idAt (project, b) = g.idAt (project, b) then g.edgeAt project a b t else none

theorem not_mem_spineKeys (hspine : ∀ q ∈ spineNames project entries, owner q = none) {a : String}
    (ha : (owner a).isSome) : (project, a) ∉ (spineNodes project entries).map NewNode.key := by
  rw [map_key_spineNodes]
  intro hmem
  obtain ⟨q, hq, hk⟩ := List.mem_map.1 hmem
  obtain rfl : q = a := (Prod.ext_iff.1 hk).2
  rw [hspine q hq] at ha
  cases ha

/-- A node of the spine is placed: it has no owner, and is no definition. -/
theorem placedNode_of_mem_spineNodes (hspine : ∀ q ∈ spineNames project entries, owner q = none)
    {n : NewNode} (hn : n ∈ spineNodes project entries) : PlacedNode owner n := by
  have hkey : n.key ∈ (spineNames project entries).map fun q => (project, q) := by
    rw [← map_key_spineNodes]
    exact List.mem_map_of_mem hn
  obtain ⟨q, hq, hk⟩ := List.mem_map.1 hkey
  have hnone : owner n.qualifiedName = none := by
    have hname : q = n.qualifiedName := (Prod.ext_iff.1 hk).2
    rw [← hname]
    exact hspine q hq
  refine ⟨fun f hf => ?_, ?_⟩
  · rw [hnone] at hf
    cases hf
  · rw [hnone]
    exact ⟨fun hl => absurd (label_of_mem_spineNodes hn) hl, fun h => by cases h⟩

theorem label_of_owner (hplaced : ∀ n ∈ g.nodes.rows, n.project = project → PlacedNode owner n.toNewNode)
    {a : String} (ha : (owner a).isSome) {n : Node} (hn : g.nodes.find? (project, a) = some n) :
    n.label ∉ nonDefLabels := by
  obtain ⟨hmem, hkey⟩ := KeyedTable.find?_eq_some_iff.1 hn
  obtain ⟨hp, hq⟩ := Prod.ext_iff.1 hkey
  refine (hplaced n hmem hp).isDef.2 ?_
  have hname : n.qualifiedName = a := hq
  rw [hname]
  exact ha

theorem lastWrite_drawn {g₁ : Graph} {es : List Edge}
    (hdraws : Draws g₁ project es (spineContainment project entries))
    (hspine : ∀ q ∈ spineNames project entries, owner q = none) {a : String}
    (ha : (owner a).isSome) {i : ℕ} (hi : g₁.idAt (project, a) = some i) (j : ℕ) (t : String) :
    lastWrite Edge.key es (i, j, t) = none := by
  rw [lastWrite_eq_none_iff]
  intro hmem
  obtain ⟨e, he, hkey⟩ := List.mem_map.1 hmem
  simp only [Edge.key, Prod.mk.injEq] at hkey
  obtain ⟨c, hc, hends⟩ := hdraws.source e he
  obtain ⟨hfirst, hsecond⟩ := ends_of_mem_spineContainment hc
  rw [hkey.1] at hends
  rcases hends with h | h
  · exact not_mem_spineKeys hspine ha (Graph.idAt_inj h hi ▸ hfirst)
  · exact not_mem_spineKeys hspine ha (Graph.idAt_inj h hi ▸ hsecond)

/-- **The pass keeps the definitions and the edges that start there.** -/
theorem spineKept_of_ok (hp : (g.projects.find? project).isSome)
    (hspine : ∀ q ∈ spineNames project entries, owner q = none)
    (hplaced : ∀ n ∈ g.nodes.rows, n.project = project → PlacedNode owner n.toNewNode)
    (hedges : ∀ e ∈ g.edges.rows, e.project = project)
    (hok : buildStructural project entries g = .ok g') : SpineKept owner project g g' := by
  obtain ⟨g₁, g₂, es, hbuild, hw, hdraws, hins, hnodes, hprojects, hprops⟩ :=
    buildStructural_phases entries hp
  cases hok.symm.trans hbuild
  have hkept : ∀ a, (owner a).isSome → g₁.nodes.find? (project, a) = g.nodes.find? (project, a) :=
    fun a ha => hw.find?_of_not_mem (not_mem_spineKeys hspine ha)
  have hfind : ∀ a, (owner a).isSome →
      (cleanup project entries g₂).nodes.find? (project, a) = g.nodes.find? (project, a) := by
    intro a ha
    ext n
    rw [KeyedTable.find?_eq_some_iff, mem_nodes_cleanup, hnodes, ← hkept a ha,
      KeyedTable.find?_eq_some_iff]
    constructor
    · rintro ⟨⟨hn, _⟩, hk⟩
      exact ⟨hn, hk⟩
    · rintro ⟨hn, hk⟩
      -- a definition is nothing that the cleanup looks at
      have hl : n.label ∉ nonDefLabels := label_of_owner hplaced ha
        ((hkept a ha).symm.trans (KeyedTable.find?_eq_some_iff.2 ⟨hn, hk⟩))
      refine ⟨⟨hn, fun _ => ⟨fun h => absurd ?_ hl, fun h => absurd ?_ hl⟩⟩, hk⟩
      · simp [nonDefLabels, h]
      · simp [nonDefLabels, h]
  have hid : ∀ a, (owner a).isSome →
      (cleanup project entries g₂).idAt (project, a) = g.idAt (project, a) := by
    intro a ha
    rw [Graph.idAt, hfind a ha, Graph.idAt]
  refine ⟨?_, hfind, ?_, ?_, ?_⟩
  · rw [cleanup, dropStale, Graph.projects_deleteNodes, dropStale, Graph.projects_deleteNodes,
      hprojects]
  · intro n hn hnp
    have hn₁ := (mem_nodes_cleanup.1 hn).1
    rw [hnodes] at hn₁
    rcases hw.mem_or hn₁ with hmem | ⟨m, hm, hmn⟩
    · exact placedNode_of_mem_spineNodes hspine hmem
    · rw [← hmn]
      exact hplaced m hm ((congrArg NewNode.project hmn).trans hnp)
  · intro e he
    refine project_insertEdges hins (fun d hd => (hdraws.valid d hd).1) ?_ e
      (mem_edges_cleanup.1 he).1
    rw [hw.edges_eq]
    exact hedges
  · intro a ha b t
    cases hai : g.idAt (project, a) with
    | none => simp [Graph.edgeAt, hid a ha, hai]
    | some i =>
      have hai' := (hid a ha).trans hai
      cases hbj : (cleanup project entries g₂).idAt (project, b) with
      | none =>
        by_cases hnone : none = g.idAt (project, b)
        · simp [Graph.edgeAt, hbj, ← hnone]
        · rw [if_neg hnone]
          simp [Graph.edgeAt, hbj]
      | some j =>
        have hbj₁ : g₁.idAt (project, b) = some j := by
          have h := (idAt_cleanup.1 hbj).1
          rwa [Graph.idAt, hnodes] at h
        have hprop : ((cleanup project entries g₂).edges.find? (i, j, t)).map Edge.properties =
            (g.edges.find? (i, j, t)).map Edge.properties := by
          rw [find?_edges_cleanup (Graph.mem_ids_of_idAt hai') (Graph.mem_ids_of_idAt hbj),
            hprops, lastWrite_drawn hdraws hspine ha (hw.idAt hai) j t]
          rfl
        rw [Graph.edgeAt_of_ids hai' hbj, hprop]
        by_cases hsame : some j = g.idAt (project, b)
        · rw [if_pos hsame, Graph.edgeAt_of_ids hai hsame.symm]
        · -- the target was not there before, so neither was an edge to it
          rw [if_neg hsame, Option.map_eq_none_iff, Option.eq_none_iff_forall_ne_some]
          intro e he
          obtain ⟨hmem, hkey⟩ := KeyedTable.find?_eq_some_iff.1 he
          simp only [Edge.key, Prod.mk.injEq] at hkey
          have ht := (g.edges_fk e hmem).2.2
          rw [hkey.2.1] at ht
          obtain ⟨m, hm, hmid⟩ := List.mem_map.1 ht
          have hm' : g.idAt m.key = some j := Graph.idAt_eq_some_iff.2 ⟨m, hm, rfl, hmid⟩
          rw [Graph.idAt_inj (hw.idAt hm') hbj₁] at hm'
          exact hsame hm'.symm

theorem SpineKept.defIndex_eq (h : SpineKept owner project g g')
    (hplaced : ∀ n ∈ g.nodes.rows, n.project = project → PlacedNode owner n.toNewNode) :
    defIndex g' project = defIndex g project := by
  have hnode : ∀ {g₁ g₂ : Graph},
      (∀ n ∈ g₁.nodes.rows, n.project = project → PlacedNode owner n.toNewNode) →
      (∀ a, (owner a).isSome → g₁.nodes.find? (project, a) = g₂.nodes.find? (project, a)) →
      ∀ n, IsDef g₁ project n → IsDef g₂ project n := by
    rintro g₁ g₂ hpl hfind n ⟨hn, rfl, hl⟩
    have hown := (hpl n hn rfl).isDef.1 hl
    have hmem : g₁.nodes.find? (n.project, n.qualifiedName) = some n :=
      KeyedTable.find?_eq_some_iff.2 ⟨hn, rfl⟩
    rw [hfind _ hown] at hmem
    exact ⟨KeyedTable.mem_of_find? hmem, rfl, hl⟩
  refine defIndex_ext fun row => ?_
  rw [mem_defIndex, mem_defIndex]
  constructor
  · rintro ⟨n, hn, hrow⟩
    exact ⟨n, hnode h.placed h.nodes n hn, hrow⟩
  · rintro ⟨n, hn, hrow⟩
    exact ⟨n, hnode hplaced (fun a ha => (h.nodes a ha).symm) n hn, hrow⟩

/-- The File node that an inventory gives under a name. -/
def IsLastFile (project : String) (entries : List InventoryEntry) (w : NewNode) : Prop :=
  lastWrite NewNode.key (spineNodes project entries) w.key = some w ∧ w.label = "File"

theorem mem_files_of_ok (hp : (g.projects.find? project).isSome)
    (hok : buildStructural project entries g = .ok g') (w : NewNode) :
    (w.project = project ∧ w.label = "File" ∧ ∃ n ∈ g'.nodes.rows, n.toNewNode = w) ↔
      IsLastFile project entries w := by
  have hbuilt := built_of_ok hp hok
  constructor
  · rintro ⟨hwp, hl, n, hn, rfl⟩
    have hcol := hbuilt.columns n.key
    rw [KeyedTable.find?_of_mem hn, Option.map_some] at hcol
    cases hlast : lastWrite NewNode.key (spineNodes project entries) n.key with
    | some w =>
      rw [hlast, Option.some_or, Option.some.injEq] at hcol
      exact ⟨hlast.trans (congrArg some hcol.symm), hl⟩
    | none =>
      rw [hlast, Option.none_or] at hcol
      have hspine := (Option.filter_eq_some_iff.1 hcol.symm).2
      simp [notSpine, spineLabels, hwp, hl] at hspine
  · rintro ⟨hlast, hl⟩
    have hmem := (mem_of_lastWrite hlast).1
    have hwp : w.project = project := by
      have hkey : w.key ∈ (spineNames project entries).map fun q => (project, q) := by
        rw [← map_key_spineNodes]
        exact List.mem_map_of_mem hmem
      obtain ⟨q, _, hk⟩ := List.mem_map.1 hkey
      exact (Prod.ext_iff.1 hk).1.symm
    have hcol := hbuilt.columns w.key
    rw [hlast, Option.some_or] at hcol
    obtain ⟨n, hn, hnw⟩ := Option.map_eq_some_iff.1 hcol
    exact ⟨hwp, hl, n, KeyedTable.mem_of_find? hn, hnw⟩

end Pass

end Greppy
