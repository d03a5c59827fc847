/-
**Resolved edges join nodes that exist.**

Whatever the in-memory resolver answers with is the id of a loaded node, so the rows it gives rise to
never break a foreign key, and the phases of an index run that follow the writing of nodes cannot
fail.
-/

import Greppy.EdgeResolve

set_option autoImplicit false

namespace Greppy

namespace GraphIndex

variable {ι : Type}

def ids (index : GraphIndex ι) : List ι := index.nodes.map IndexRow.id

variable {index : GraphIndex ι} {n : IndexRow ι} {id : ι}

theorem id_mem_ids (h : n ∈ index.nodes) :
    n.id ∈ index.ids := List.mem_map_of_mem h

theorem id_mem_of_only {l : List (IndexRow ι)} (hl : l ⊆ index.nodes) (h : l.only = some n) :
    n.id ∈ index.ids :=
  id_mem_ids (hl (List.mem_of_only h))

theorem mem_of_byQname {qname : String} (h : index.byQname qname = some n) :
    n ∈ index.nodes ∧ n.qualifiedName = qname :=
  ⟨List.mem_of_find?_eq_some h, by simpa using List.find?_some h⟩

theorem defsNamed_subset (index : GraphIndex ι) (labels : List String) (name : String) :
    index.defsNamed labels name ⊆ index.nodes :=
  fun _ h => List.mem_of_mem_filter (List.mem_of_mem_filter h)

theorem mem_of_resolveUnique {candidates : List (IndexRow ι)} {file : String}
    (h : resolveUnique candidates file = some id) : ∃ n ∈ candidates, n.id = id := by
  unfold resolveUnique at h
  split at h
  · cases h
  · split at h
    · rename_i n hn
      cases h
      exact ⟨n, List.mem_of_mem_filter (List.mem_of_only hn), rfl⟩
    · obtain ⟨n, hn, rfl⟩ := Option.map_eq_some_iff.1 h
      exact ⟨n, List.mem_of_only hn, rfl⟩

theorem mem_of_resolveReceiverMethod {file owner name : String}
    (h : index.resolveReceiverMethod file owner name = some id) : id ∈ index.ids := by
  unfold resolveReceiverMethod at h
  split at h
  · cases h
  · split at h
    · rename_i target ht
      split at h
      · cases h
        exact id_mem_ids (mem_of_byQname ht).1
      · cases h
    · obtain ⟨n, hn, rfl⟩ := Option.map_eq_some_iff.1 h
      exact id_mem_of_only (fun _ h => List.mem_of_mem_filter h) hn

theorem importTarget_mem {edge : ExtractedEdge} (h : index.importTarget edge = some id) :
    id ∈ index.ids := by
  unfold importTarget at h
  split at h
  · rename_i name _
    have hsub := index.defsNamed_subset importableLabels name
    unfold uniqueDefNamedWithPath at h
    simp only at h
    split at h
    · rename_i n hn
      cases h
      exact id_mem_of_only hsub hn
    · split at h
      · cases h
      · obtain ⟨n, hn, rfl⟩ := Option.map_eq_some_iff.1 h
        exact id_mem_of_only (fun _ h => hsub (List.mem_of_mem_filter h)) hn
  · cases h

variable [DecidableEq ι]

variable {id : ι} {index : GraphIndex ι} {labels : List String} {edge : ExtractedEdge} {p : ι × ι}

theorem mem_of_statusAmong {candidates : List (IndexRow ι)} {file : String} {imports : List ι}
    (h : statusAmong candidates file imports = .unique id) : ∃ n ∈ candidates, n.id = id := by
  unfold statusAmong at h
  split at h
  · rename_i i hi
    cases h
    exact mem_of_resolveUnique hi
  · split at h
    · cases h
    · rename_i first hfirst
      split at h
      · rename_i n hn
        cases h
        exact ⟨n, List.mem_of_mem_filter (List.mem_of_only hn), rfl⟩
      · split at h
        · cases h
          exact ⟨first, List.mem_of_mem_head? hfirst, rfl⟩
        · cases h

variable {name : String} {referrer src : ι} {edges : List ExtractedEdge}

theorem mem_of_resolveUniqueStatusWithImports
    (h : index.resolveUniqueStatusWithImports labels name referrer = .unique id) :
    id ∈ index.ids := by
  unfold resolveUniqueStatusWithImports at h
  split at h
  · cases h
  · obtain ⟨n, hn, rfl⟩ := mem_of_statusAmong h
    exact id_mem_ids (index.defsNamed_subset labels name hn)

theorem mem_of_resolveUniqueWithImports
    (h : index.resolveUniqueWithImports labels name referrer = some id) : id ∈ index.ids := by
  unfold resolveUniqueWithImports UniqueResolution.uniqueId at h
  split at h
  · rename_i i hi
    cases h
    exact mem_of_resolveUniqueStatusWithImports hi
  · cases h

theorem mem_of_resolveCallTarget (h : index.resolveCallTarget edge = some id) : id ∈ index.ids := by
  unfold resolveCallTarget at h
  split at h
  · split at h
    · split at h
      · exact mem_of_resolveReceiverMethod h
      · cases h
    · split at h
      · rename_i tgt ht
        cases h
        exact id_mem_ids (mem_of_byQname ht).1
      · split at h
        · rename_i i hi
          cases h
          exact mem_of_resolveUniqueStatusWithImports hi
        · exact mem_of_resolveUniqueWithImports h
        · cases h
  · cases h

theorem mem_of_resolveDirectOrName {nameProp : String}
    (h : index.resolveDirectOrName edge nameProp labels = some id) : id ∈ index.ids := by
  unfold resolveDirectOrName at h
  split at h
  · rename_i tgt ht
    cases h
    exact id_mem_ids (mem_of_byQname ht).1
  · split at h
    · exact mem_of_resolveUniqueWithImports h
    · cases h

theorem mem_of_refName {name : Option String}
    (h : (match name with
      | some name => index.resolveUniqueWithImports labels name src
      | none => none) = some id) : id ∈ index.ids := by
  cases name with
  | some name => exact mem_of_resolveUniqueWithImports h
  | none => cases h

theorem referenceTarget_mem (h : index.referenceTarget edge src = some id) : id ∈ index.ids := by
  unfold referenceTarget at h
  split at h
  · exact mem_of_resolveCallTarget h
  · split at h
    · exact mem_of_resolveDirectOrName h
    · split at h
      · exact mem_of_refName h
      · split at h
        · exact mem_of_refName h
        · obtain ⟨n, hn, rfl⟩ := Option.map_eq_some_iff.1 h
          exact id_mem_ids (mem_of_byQname hn).1

theorem resolveImport_eq_some_iff {src : IndexRow ι} {target : ι} :
    index.resolveImport edge = some (src, target) ↔
      index.byQname edge.sourceQualifiedName = some src ∧ index.importTarget edge = some target ∧
        target ≠ src.id := by
  unfold resolveImport
  cases index.byQname edge.sourceQualifiedName with
  | none => simp
  | some src' =>
    cases index.importTarget edge with
    | none => simp
    | some target' =>
      simp only [Option.some.injEq]
      by_cases h : target' = src'.id
      · rw [if_pos h]
        constructor
        · intro h'
          cases h'
        · rintro ⟨rfl, rfl, hne⟩
          exact absurd h hne
      · rw [if_neg h, Option.some.injEq, Prod.mk.injEq]
        constructor
        · rintro ⟨rfl, rfl⟩
          exact ⟨rfl, rfl, h⟩
        · rintro ⟨rfl, rfl, _⟩
          exact ⟨rfl, rfl⟩

theorem nodes_importPass (consider : ExtractedEdge → String → Bool)
    (persist : ExtractedEdge → Bool) (edges : List ExtractedEdge) (index : GraphIndex ι) :
    (importPass consider persist edges index).1.nodes = index.nodes := by
  induction edges generalizing index with
  | nil => rfl
  | cons edge edges ih =>
    unfold importPass
    split
    · split
      · split
        · exact ih _
        · exact ih _
      · exact ih _
    · exact ih _

theorem mem_importPass {consider : ExtractedEdge → String → Bool} {persist : ExtractedEdge → Bool}
    {p : ι × ι × ExtractedEdge} (h : p ∈ (importPass consider persist edges index).2) :
    ∃ src, index.resolveImport p.2.2 = some (src, p.2.1) ∧ p.1 = src.id := by
  induction edges generalizing index with
  | nil => cases h
  | cons edge edges ih =>
    unfold importPass at h
    split at h
    · split at h
      · rename_i src target hres
        split at h
        · simp only at h
          split at h
          · rcases List.mem_cons.1 h with rfl | h
            · exact ⟨src, hres, rfl⟩
            · exact @ih (index.recordImport src.filePath target) h
          · exact @ih (index.recordImport src.filePath target) h
        · exact ih h
      · exact ih h
    · exact ih h

theorem resolveReference_eq_some_iff :
    index.resolveReference edge = some p ↔
      ∃ src, index.byQname edge.sourceQualifiedName = some src ∧ p.1 = src.id ∧
        index.referenceTarget edge src.id = some p.2 ∧
        ¬ (p.2 = src.id ∧ edge.edgeType ≠ "CALLS") := by
  unfold resolveReference
  cases index.byQname edge.sourceQualifiedName with
  | none => simp
  | some src =>
    simp only [Option.some.injEq, exists_eq_left']
    cases index.referenceTarget edge src.id with
    | none => simp
    | some target =>
      simp only [Option.some.injEq]
      by_cases h : target = src.id ∧ edge.edgeType ≠ "CALLS"
      · rw [if_pos h]
        constructor
        · intro h'
          cases h'
        · rintro ⟨_, ht, hne⟩
          rw [← ht] at hne
          exact absurd h hne
      · rw [if_neg h, Option.some.injEq]
        constructor
        · rintro rfl
          exact ⟨rfl, rfl, h⟩
        · rintro ⟨hs, ht, _⟩
          exact Prod.ext hs.symm ht

/-- **Both ends of a resolved edge are loaded nodes.** -/
theorem mem_resolveSelected {considerImport : ExtractedEdge → String → Bool}
    {candidate : ExtractedEdge → Bool} {p : ι × ι × ExtractedEdge}
    (h : p ∈ index.resolveSelected considerImport candidate edges) :
    p.1 ∈ index.ids ∧ p.2.1 ∈ index.ids := by
  have hnodes := nodes_importPass considerImport candidate edges index
  unfold resolveSelected at h
  rcases List.mem_append.1 h with h | h
  · obtain ⟨src, hres, hsrc⟩ := mem_importPass h
    obtain ⟨hs, ht, _⟩ := resolveImport_eq_some_iff.1 hres
    exact ⟨hsrc ▸ id_mem_ids (mem_of_byQname hs).1, importTarget_mem ht⟩
  · obtain ⟨edge, _, hedge⟩ := List.mem_filterMap.1 h
    split at hedge
    · obtain ⟨q, hq, rfl⟩ := Option.map_eq_some_iff.1 hedge
      obtain ⟨src, hs, hsrc, ht, _⟩ := resolveReference_eq_some_iff.1 hq
      have hids : ∀ i, i ∈ (importPass considerImport candidate edges index).1.ids →
          i ∈ index.ids := by
        intro i hi
        unfold ids at hi ⊢
        rwa [hnodes] at hi
      exact ⟨hids _ (hsrc ▸ id_mem_ids (mem_of_byQname hs).1), hids _ (referenceTarget_mem ht)⟩
    · cases hedge

/-- When an import links a file: it names no definition, its stem names one file, and the source is
there. -/
theorem resolveFileImport_eq_some_iff :
    index.resolveFileImport edge = some p ↔ edge.edgeType = "IMPORTS" ∧
      ∃ name src, nonemptyProp edge "imported_name" = some name ∧ index.importTarget edge = none ∧
        '.' ∉ importStem name ∧ index.filesByStem (importStem name) = [p.2] ∧
        index.byQname edge.sourceQualifiedName = some src ∧ src.id = p.1 ∧ p.2 ≠ p.1 := by
  unfold resolveFileImport
  constructor
  · intro h
    split at h
    · cases h
    · rename_i htype
      split at h
      · cases h
      · rename_i name hname
        split at h
        · cases h
        · rename_i htarget
          simp only at h
          split at h
          · cases h
          · rename_i hdot
            split at h
            · rename_i fileId src hfile hsrc
              split at h
              · cases h
              · rename_i hne
                cases h
                exact ⟨not_not.1 htype, name, src, hname, by simpa using htarget, hdot,
                  List.only_eq_some_iff.1 hfile, hsrc, rfl, hne⟩
            · cases h
  · rintro ⟨htype, name, src, hname, htarget, hdot, hfile, hsrc, hid, hne⟩
    rw [if_neg (not_not.2 htype), hname]
    simp only [htarget, Option.isSome_none, Bool.false_eq_true, if_false, if_neg hdot, hfile,
      List.only_singleton, hsrc, hid, if_neg hne]

theorem resolveFileImport_mem (h : index.resolveFileImport edge = some p) :
    p.1 ∈ index.ids ∧ p.2 ∈ index.ids := by
  obtain ⟨_, name, src, _, _, _, hfile, hsrc, hid, _⟩ := resolveFileImport_eq_some_iff.1 h
  have hmem : p.2 ∈ index.filesByStem (importStem name) := by
    rw [hfile]
    exact List.mem_singleton_self _
  obtain ⟨n, hn, hnid⟩ := List.mem_map.1 hmem
  exact ⟨hid ▸ id_mem_ids (mem_of_byQname hsrc).1, hnid ▸ id_mem_ids (List.mem_of_mem_filter hn)⟩

theorem mem_ids_load {g : Graph} {project : String} {id : ℕ}
    (h : id ∈ (GraphIndex.load g project).ids) : id ∈ g.nodes.rows.map Node.id := by
  obtain ⟨row, hrow, rfl⟩ := List.mem_map.1 h
  obtain ⟨n, hn, rfl⟩ := List.mem_map.1 hrow
  exact List.mem_map_of_mem (Graph.mem_projectRows.1 hn).1

end GraphIndex

/-! ### The phases succeed -/

/-- The graph with edges inserted: the nodes stay, and the properties last written to a key. -/
structure EdgesWritten (es : List Edge) (g g' : Graph) : Prop where
  nodes_eq : g'.nodes = g.nodes
  projects_eq : g'.projects = g.projects
  properties : ∀ k, (g'.edges.find? k).map Edge.properties =
    ((lastWrite Edge.key es k).map Edge.properties).or ((g.edges.find? k).map Edge.properties)

variable {project : String} {g : Graph}

theorem insertEdges_ok {g₀ : Graph} (hnodes : g₀.nodes = g.nodes)
    (hp : (g₀.projects.find? project).isSome) {resolved : List (ℕ × ℕ × ExtractedEdge)}
    (h : ∀ p ∈ resolved, p.1 ∈ (GraphIndex.load g project).ids ∧
      p.2.1 ∈ (GraphIndex.load g project).ids) :
    ∃ g', g₀.insertEdges (newEdges project resolved) = .ok g' ∧
      EdgesWritten (newEdges project resolved) g₀ g' := by
  have hends : ∀ e ∈ newEdges project resolved, (g₀.projects.find? e.project).isSome ∧
      e.sourceId ∈ g₀.nodes.rows.map Node.id ∧ e.targetId ∈ g₀.nodes.rows.map Node.id := by
    intro e he
    obtain ⟨p, hp', rfl⟩ := List.mem_map.1 he
    rw [hnodes]
    exact ⟨hp, GraphIndex.mem_ids_load (h p hp').1, GraphIndex.mem_ids_load (h p hp').2⟩
  obtain ⟨g', hok, hn, hpr, hprops⟩ := Graph.exists_insertEdges hends
  exact ⟨g', hok, hn, hpr, hprops⟩

theorem resolveAndPersistEdges_ok (hp : (g.projects.find? project).isSome)
    (edges : List ExtractedEdge) :
    ∃ g', resolveAndPersistEdges project edges g = .ok g' ∧
      EdgesWritten (newEdges project ((GraphIndex.load g project).resolveEdges edges)) g g' :=
  insertEdges_ok rfl hp fun _ h => GraphIndex.mem_resolveSelected h

theorem resolveFileImports_ok (hp : (g.projects.find? project).isSome) (edges : List ExtractedEdge) :
    ∃ g', resolveFileImports project edges g = .ok g' ∧
      EdgesWritten (newEdges project (edges.filterMap fun edge =>
        ((GraphIndex.load g project).resolveFileImport edge).map fun p => (p.1, p.2, edge)))
        g g' := by
  refine insertEdges_ok rfl hp fun p h => ?_
  obtain ⟨edge, _, hedge⟩ := List.mem_filterMap.1 h
  obtain ⟨q, hq, rfl⟩ := Option.map_eq_some_iff.1 hedge
  exact GraphIndex.resolveFileImport_mem hq

theorem resolveEdgesIncremental_ok (hp : (g.projects.find? project).isSome)
    (changedFiles : List String) (defFpBefore : Finset String) (edges : List ExtractedEdge) :
    ∃ g', resolveEdgesIncremental project changedFiles defFpBefore edges g = .ok g' ∧
      g'.nodes = g.nodes ∧ g'.projects = g.projects := by
  unfold resolveEdgesIncremental
  split
  · exact ⟨g, rfl, rfl, rfl⟩
  · split
    · have hp' : ((g.deleteEdgesWhere fun e => decide (e.project = project)).projects.find?
          project).isSome := by rwa [Graph.projects_deleteEdgesWhere]
      obtain ⟨g', hok, hw⟩ := resolveAndPersistEdges_ok hp' edges
      exact ⟨g', hok, hw.nodes_eq.trans (Graph.nodes_deleteEdgesWhere _ g),
        hw.projects_eq.trans (Graph.projects_deleteEdgesWhere _ g)⟩
    · have hends : ∀ p ∈ resolveCandidates g project changedFiles edges,
          p.1 ∈ (GraphIndex.load g project).ids ∧ p.2.1 ∈ (GraphIndex.load g project).ids :=
        fun _ h => GraphIndex.mem_resolveSelected h
      obtain ⟨g', hok, hw⟩ := insertEdges_ok rfl hp hends
      exact ⟨g', hok, hw.nodes_eq, hw.projects_eq⟩

end Greppy
