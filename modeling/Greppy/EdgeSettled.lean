/-
**Incremental edges and edges from scratch.**

An incremental run resolves again what it takes to be affected (`resolve_edges_incremental`,
`crates/indexer/src/lib.rs`), and the result should be what deleting all edges and resolving every
stored raw edge would give.  When the fingerprint of the definitions has changed, this is just what
the run does.  When it has not, the run goes by names: beside the raw edges of the changed files it
takes those that name a definition of a changed file in the property their type is resolved by.

This misses edges.  A `USAGE` edge is resolved by a property that the filter does not look at, and an
edge that is resolved by its target's qualified name need not carry the name as a property at all.
Such an edge is deleted with its target when the target's file is edited, and not written again.
And the import of a file stays when another file with the same stem turns up.

Main results:

* `reresolved_ok` — what resolving from scratch writes;
* `edges_settled_run` — **in every sequence of runs that `Covers` admits, the edges are those from
  scratch after every run**;
* `usage_edge_lost` — a `USAGE` edge into an edited file is lost.
-/

import Greppy.EdgeSpine
import Greppy.GuardedRun

set_option autoImplicit false

namespace Greppy

/-! ### From scratch -/

/-- Delete the edges of the project and resolve every stored raw edge again. -/
def reresolved (project : String) (s : Store) : Except StoreError Graph := do
  let g ← resolveAndPersistEdges project (loadAllRawEdges s project)
    (s.graph.deleteEdgesWhere fun e => decide (e.project = project))
  resolveFileImports project (loadAllRawEdges s project) g

/-- The edges that start at a definition: the names of the two ends, the type and the properties. -/
def resolvedLinks (project : String) (g : Graph) : Set (String × String × String × Json) :=
  {l | ∃ e ∈ g.edges.rows, ∃ m n, IsDef g project m ∧ n ∈ g.nodes.rows ∧ n.project = project ∧
    m.id = e.sourceId ∧ n.id = e.targetId ∧
    l = (m.qualifiedName, n.qualifiedName, e.edgeType, e.properties)}

/-- The edges of a store are those that resolving from scratch gives. -/
def Settled (project : String) (s : Store) : Prop :=
  ∃ g, reresolved project s = .ok g ∧ resolvedLinks project s.graph = resolvedLinks project g

theorem mem_resolvedLinks {project : String} {g : Graph} {a b t : String} {p : Json} :
    (a, b, t, p) ∈ resolvedLinks project g ↔
      (∃ m, IsDef g project m ∧ m.qualifiedName = a) ∧ g.edgeAt project a b t = some p := by
  constructor
  · rintro ⟨e, he, m, n, hm, hn, hnp, hs, ht, hl⟩
    simp only [Prod.mk.injEq] at hl
    obtain ⟨rfl, rfl, rfl, rfl⟩ := hl
    refine ⟨⟨m, hm, rfl⟩, ?_⟩
    have hms : g.idAt (project, m.qualifiedName) = some e.sourceId :=
      Graph.idAt_eq_some_iff.2 ⟨m, hm.1, Prod.ext hm.2.1 rfl, hs⟩
    have hnt : g.idAt (project, n.qualifiedName) = some e.targetId :=
      Graph.idAt_eq_some_iff.2 ⟨n, hn, Prod.ext hnp rfl, ht⟩
    rw [Graph.edgeAt_of_ids hms hnt]
    have hfind : g.edges.find? (e.sourceId, e.targetId, e.edgeType) = some e :=
      KeyedTable.find?_of_mem he
    rw [hfind]
    rfl
  · rintro ⟨⟨m, hm, rfl⟩, hedge⟩
    obtain ⟨i, j, hi, hj, hp⟩ := Graph.ids_of_edgeAt hedge
    obtain ⟨e, he, rfl⟩ := Option.map_eq_some_iff.1 hp
    obtain ⟨hmem, hkey⟩ := KeyedTable.find?_eq_some_iff.1 he
    simp only [Edge.key, Prod.mk.injEq] at hkey
    obtain ⟨m', hm', hmk, hmi⟩ := Graph.idAt_eq_some_iff.1 hi
    obtain ⟨n, hn, hnk, hnj⟩ := Graph.idAt_eq_some_iff.1 hj
    have hkey' : m.key = (project, m.qualifiedName) := Prod.ext hm.2.1 rfl
    obtain rfl := g.nodes.eq_of_key_eq hm.1 hm' (hkey'.trans hmk.symm)
    obtain ⟨hnp, hnq⟩ := Prod.ext_iff.1 hnk
    refine ⟨e, hmem, m, n, hm, hn, hnp, hmi.trans hkey.1.symm, hnj.trans hkey.2.1.symm, ?_⟩
    have hname : n.qualifiedName = b := hnq
    rw [hname, hkey.2.2]

/-! ### What resolution writes -/

section Links

variable (project : String)

/-- Every stored raw edge, resolved against the definitions. -/
def allLinks (s : Store) : List (String × String × ExtractedEdge) :=
  (defIndex s.graph project).resolveEdges (loadAllRawEdges s project)

def fileLinks (s : Store) : List (String × String × ExtractedEdge) :=
  ((loadAllRawEdges s project).filterMap fun edge =>
    ((GraphIndex.load s.graph project).resolveFileImport edge).map fun p =>
      (p.1, p.2, edge)).map s.graph.named

/-- What resolution from scratch leaves under a key: the import of a file is written last. -/
def linkAt (s : Store) (k : String × String × String) : Option Json :=
  (lastLink (fileLinks project s) k).or (lastLink (allLinks project s) k)

end Links

theorem load_congr {g g' : Graph} (h : g'.nodes = g.nodes) (project : String) :
    GraphIndex.load g' project = GraphIndex.load g project := by
  unfold GraphIndex.load Graph.projectRows
  rw [h]

theorem defIndex_congr {g g' : Graph} (h : g'.nodes = g.nodes) (project : String) :
    defIndex g' project = defIndex g project := by
  unfold defIndex
  rw [load_congr h, Graph.nameOf_congr h]

section Tidy

variable {owner : String → Option String} {project : String} {s : Store}

variable {edge : ExtractedEdge} {p : String × String × ExtractedEdge} {a b t : String}

theorem mem_loadAllRawEdges : edge ∈ loadAllRawEdges s project ↔
    ∃ r ∈ s.rawEdges, r.project = project ∧ extractedEdgeFromRaw r = edge := by
  unfold loadAllRawEdges Store.listRawEdges
  rw [List.mem_map]
  simp only [(List.perm_insertionSort _ _).mem_iff, List.mem_filter, decide_eq_true_eq, and_assoc]

theorem Tidy.plain (h : Tidy owner project s) {q : String} (hq : (owner q).isSome) :
    (GraphIndex.load s.graph project).Plain q := by
  intro row hrow hname
  obtain ⟨n, hn, rfl⟩ := List.mem_map.1 hrow
  obtain ⟨hmem, hp⟩ := Graph.mem_projectRows.1 hn
  have hname' : n.qualifiedName = q := hname
  have hdef : n.label ∉ nonDefLabels := (h.nodes n hmem hp).isDef.2 (by rw [hname']; exact hq)
  exact decide_eq_true hdef

theorem Tidy.plainEdge (h : Tidy owner project s) (he : edge ∈ loadAllRawEdges s project) :
    (GraphIndex.load s.graph project).PlainEdge edge := by
  obtain ⟨r, hr, hp, rfl⟩ := mem_loadAllRawEdges.1 he
  have hraw := h.raws r hr hp
  refine ⟨h.plain ?_, h.plain hraw.target, fun o name => h.plain ?_⟩
  · have hsource : owner r.sourceQname = some r.filePath := hraw.source
    exact Option.isSome_iff_exists.2 ⟨_, hsource⟩
  · have hunder := hraw.under (o ++ "::" ++ name)
    rwa [← String.append_assoc, ← String.append_assoc] at hunder

/-- A definition is known by its name, and lives with the owner of the name. -/
theorem Tidy.defRow (h : Tidy owner project s) {row : IndexRow String}
    (hrow : row ∈ (defIndex s.graph project).nodes) :
    row.id = row.qualifiedName ∧ owner row.qualifiedName = some row.filePath := by
  obtain ⟨n, ⟨hn, hp, hl⟩, rfl⟩ := mem_defIndex.1 hrow
  refine ⟨rfl, ?_⟩
  have hplaced := h.nodes n hn hp
  obtain ⟨f, hf⟩ := Option.isSome_iff_exists.1 (hplaced.isDef.1 hl)
  have hfile : n.filePath = f := hplaced.file f hf
  have hown : owner n.qualifiedName = some n.filePath := by
    rw [hfile]
    exact hf
  exact hown

theorem Tidy.homed (h : Tidy owner project s) (he : edge ∈ loadAllRawEdges s project) :
    (defIndex s.graph project).Homed edge := by
  obtain ⟨r, hr, hp, rfl⟩ := mem_loadAllRawEdges.1 he
  intro row hrow hname
  have hown := (h.defRow hrow).2
  rw [hname] at hown
  have hsource : owner r.sourceQname = some r.filePath := (h.raws r hr hp).source
  exact Option.some.inj (hown.symm.trans hsource)

theorem nodup_ids_defIndex (g : Graph) (project : String) : (defIndex g project).ids.Nodup := by
  unfold GraphIndex.ids
  rw [nodes_defIndex, List.map_map]
  have hperm : (g.projectRows project).Perm
      (g.nodes.rows.filter fun n => decide (n.project = project)) := List.perm_insertionSort _ _
  refine List.Nodup.map_on ?_ ((hperm.nodup_iff.2 (g.nodes.rows_nodup.filter _)).filter _)
  intro m hm n hn heq
  obtain ⟨hm, hlm⟩ := List.mem_filter.1 hm
  obtain ⟨hn, hln⟩ := List.mem_filter.1 hn
  obtain ⟨hm, hpm⟩ := Graph.mem_projectRows.1 hm
  obtain ⟨hn, hpn⟩ := Graph.mem_projectRows.1 hn
  exact IsDef.eq_of_defRow ⟨hm, hpm, of_decide_eq_true hlm⟩ ⟨hn, hpn, of_decide_eq_true hln⟩ heq

/-- A link starts at the source that its raw edge names, and joins two definitions. -/
theorem Tidy.of_mem_allLinks (h : Tidy owner project s) (hp : p ∈ allLinks project s) :
    p.2.2 ∈ loadAllRawEdges s project ∧
      p.1 = p.2.2.sourceQualifiedName ∧ owner p.1 = some p.2.2.filePath ∧ (owner p.2.1).isSome := by
  obtain ⟨hmem, src, hsrc, hid⟩ := GraphIndex.source_of_mem_resolveEdges hp
  obtain ⟨hrow, hname⟩ := GraphIndex.mem_of_byQname hsrc
  obtain ⟨hsrcId, hown⟩ := h.defRow hrow
  have hfirst : p.1 = p.2.2.sourceQualifiedName := hid.symm.trans (hsrcId.trans hname)
  refine ⟨hmem, hfirst, ?_, ?_⟩
  · rw [hfirst, ← hname, hown]
    exact congrArg some (h.homed hmem src hrow hname)
  · obtain ⟨row, htarget, hrowId⟩ := List.mem_map.1 (GraphIndex.mem_resolveSelected hp).2
    obtain ⟨hid', hown'⟩ := h.defRow htarget
    rw [← hrowId, hid', hown']
    rfl

/-- The import of a file starts at the source that its raw edge names, and its target is a File. -/
theorem Tidy.of_mem_fileLinks (h : Tidy owner project s) (hp : p ∈ fileLinks project s) :
    ∃ q, (GraphIndex.load s.graph project).resolveFileImport p.2.2 =
      some q ∧ p.2.2 ∈ loadAllRawEdges s project ∧ p.1 = s.graph.nameOf q.1 ∧
        p.2.1 = s.graph.nameOf q.2 ∧ p.1 = p.2.2.sourceQualifiedName ∧ owner p.2.1 = none := by
  obtain ⟨x, hx, rfl⟩ := List.mem_map.1 hp
  obtain ⟨edge, hedge, hxe⟩ := List.mem_filterMap.1 hx
  obtain ⟨q, hq, rfl⟩ := Option.map_eq_some_iff.1 hxe
  obtain ⟨_, name, src, _, _, _, hfile, hsrc, hid, _⟩ := GraphIndex.resolveFileImport_eq_some_iff.1 hq
  refine ⟨q, hq, hedge, rfl, rfl, ?_, ?_⟩
  · obtain ⟨hrow, hname⟩ := GraphIndex.mem_of_byQname hsrc
    obtain ⟨n, hn, rfl⟩ := List.mem_map.1 hrow
    have hnid : n.id = q.1 := hid
    simp only [Graph.named, ← hnid, Graph.nameOf_id (Graph.mem_projectRows.1 hn).1]
    exact hname
  · have hmem : q.2 ∈ (GraphIndex.load s.graph project).filesByStem (importStem name) := by
      rw [hfile]
      exact List.mem_singleton_self _
    obtain ⟨row, hrow, hrowId⟩ := List.mem_map.1 hmem
    obtain ⟨hrow, hlabel⟩ := List.mem_filter.1 hrow
    obtain ⟨n, hn, rfl⟩ := List.mem_map.1 hrow
    obtain ⟨hnmem, hnp⟩ := Graph.mem_projectRows.1 hn
    have hnid : n.id = q.2 := hrowId
    simp only [Graph.named, ← hnid, Graph.nameOf_id hnmem]
    have hl : n.label = "File" := (of_decide_eq_true hlabel).1
    rw [← Option.not_isSome_iff_eq_none]
    intro hsome
    exact (h.nodes n hnmem hnp).isDef.2 hsome (by simp [hl, nonDefLabels])

theorem Tidy.lastLink_fileLinks (h : Tidy owner project s) (hb : (owner b).isSome) :
    lastLink (fileLinks project s) (a, b, t) = none := by
  unfold lastLink
  rw [Option.map_eq_none_iff, lastWrite_eq_none_iff]
  intro hmem
  obtain ⟨p, hp, hkey⟩ := List.mem_map.1 hmem
  obtain ⟨_, _, _, _, _, _, hnone⟩ := h.of_mem_fileLinks hp
  simp only [linkKey, Prod.mk.injEq] at hkey
  rw [← hkey.2.1, hnone] at hb
  cases hb

theorem Tidy.lastLink_allLinks (h : Tidy owner project s) (hb : owner b = none) :
    lastLink (allLinks project s) (a, b, t) = none := by
  unfold lastLink
  rw [Option.map_eq_none_iff, lastWrite_eq_none_iff]
  intro hmem
  obtain ⟨p, hp, hkey⟩ := List.mem_map.1 hmem
  have hown := (h.of_mem_allLinks hp).2.2.2
  simp only [linkKey, Prod.mk.injEq] at hkey
  rw [hkey.2.1, hb] at hown
  cases hown

end Tidy

/-! ### Phases of resolution -/

section Phases

variable {owner : String → Option String} {project : String} {s : Store}

/-- Deleting the edges of the project leaves none between its nodes. -/
theorem edgeAt_deleteEdges {g : Graph} (hedges : ∀ e ∈ g.edges.rows, e.project = project)
    (a b t : String) :
    (g.deleteEdgesWhere fun e => decide (e.project = project)).edgeAt project a b t = none := by
  rw [Option.eq_none_iff_forall_ne_some]
  intro p hp
  obtain ⟨i, j, _, _, hfind⟩ := Graph.ids_of_edgeAt hp
  obtain ⟨e, he, _⟩ := Option.map_eq_some_iff.1 hfind
  have hmem := KeyedTable.mem_of_find? he
  rw [Graph.deleteEdgesWhere, Graph.mem_edges_cascade] at hmem
  have hkeep := hmem.2.2.1
  rw [hedges e hmem.1] at hkeep
  simp at hkeep

/-- What writing all resolved raw edges leaves, whatever edges were there. -/
theorem Tidy.edgeAt_resolveAndPersist (h : Tidy owner project s) {g g' : Graph}
    (hnodes : g.nodes = s.graph.nodes) (hp : (g.projects.find? project).isSome)
    (hok : resolveAndPersistEdges project (loadAllRawEdges s project) g = .ok g') :
    g'.nodes = g.nodes ∧ g'.projects = g.projects ∧ ∀ a b t, g'.edgeAt project a b t =
      (lastLink (allLinks project s) (a, b, t)).or (g.edgeAt project a b t) := by
  obtain ⟨g₁, hok₁, hw⟩ := resolveAndPersistEdges_ok hp (loadAllRawEdges s project)
  cases hok.symm.trans hok₁
  refine ⟨hw.nodes_eq, hw.projects_eq, fun a b t => ?_⟩
  rw [edgeAt_written (fun p hmem => GraphIndex.mem_resolveSelected hmem) hw]
  congr 2
  unfold allLinks GraphIndex.resolveEdges
  rw [← named_resolveSelected fun edge he => h.plainEdge he, load_congr hnodes]
  exact List.map_congr_left fun p _ => by rw [Graph.named, Graph.named, Graph.nameOf_congr hnodes]

theorem edgeAt_resolveFileImports {g g' : Graph} (hnodes : g.nodes = s.graph.nodes)
    (hp : (g.projects.find? project).isSome)
    (hok : resolveFileImports project (loadAllRawEdges s project) g = .ok g') :
    g'.nodes = g.nodes ∧ g'.projects = g.projects ∧ ∀ a b t, g'.edgeAt project a b t =
      (lastLink (fileLinks project s) (a, b, t)).or (g.edgeAt project a b t) := by
  obtain ⟨g₁, hok₁, hw⟩ := resolveFileImports_ok hp (loadAllRawEdges s project)
  cases hok.symm.trans hok₁
  refine ⟨hw.nodes_eq, hw.projects_eq, fun a b t => ?_⟩
  have hjoins : Joins g project ((loadAllRawEdges s project).filterMap fun edge =>
      ((GraphIndex.load g project).resolveFileImport edge).map fun p => (p.1, p.2, edge)) := by
    intro p hmem
    obtain ⟨edge, _, hedge⟩ := List.mem_filterMap.1 hmem
    obtain ⟨q, hq, rfl⟩ := Option.map_eq_some_iff.1 hedge
    exact GraphIndex.resolveFileImport_mem hq
  rw [edgeAt_written hjoins hw]
  congr 2
  unfold fileLinks
  rw [load_congr hnodes]
  exact List.map_congr_left fun p _ => by rw [Graph.named, Graph.named, Graph.nameOf_congr hnodes]

/-- **What resolving from scratch writes.** -/
theorem Tidy.reresolved_ok (h : Tidy owner project s) (hp : HasProject project s) :
    ∃ g, reresolved project s = .ok g ∧ g.nodes = s.graph.nodes ∧
      ∀ a b t, g.edgeAt project a b t = linkAt project s (a, b, t) := by
  have hp₀ : ((s.graph.deleteEdgesWhere fun e => decide (e.project = project)).projects.find?
      project).isSome := by
    rw [Graph.projects_deleteEdgesWhere]
    exact hp
  have hn₀ := Graph.nodes_deleteEdgesWhere (fun e => decide (e.project = project)) s.graph
  obtain ⟨g₁, hok₁, _⟩ := resolveAndPersistEdges_ok hp₀ (loadAllRawEdges s project)
  obtain ⟨hn₁, hpr₁, he₁⟩ := h.edgeAt_resolveAndPersist hn₀ hp₀ hok₁
  have hp₁ : (g₁.projects.find? project).isSome := by
    rw [hpr₁]
    exact hp₀
  obtain ⟨g₂, hok₂, _⟩ := resolveFileImports_ok hp₁ (loadAllRawEdges s project)
  obtain ⟨hn₂, _, he₂⟩ := edgeAt_resolveFileImports (hn₁.trans hn₀) hp₁ hok₂
  refine ⟨g₂, ?_, hn₂.trans (hn₁.trans hn₀), fun a b t => ?_⟩
  · simp only [reresolved, hok₁, bind, Except.bind]
    exact hok₂
  · rw [he₂, he₁, edgeAt_deleteEdges h.edges, Option.or_none]
    rfl

/-- The edges that start at a definition are those that resolution from scratch writes. -/
def Current (owner : String → Option String) (project : String) (s : Store) : Prop :=
  ∀ a, (owner a).isSome → ∀ b t, s.graph.edgeAt project a b t = linkAt project s (a, b, t)

theorem Tidy.settled (h : Tidy owner project s) (hp : HasProject project s)
    (hcur : Current owner project s) : Settled project s := by
  obtain ⟨g, hok, hnodes, hedges⟩ := h.reresolved_ok hp
  refine ⟨g, hok, ?_⟩
  ext ⟨a, b, t, p⟩
  rw [mem_resolvedLinks, mem_resolvedLinks]
  have hdef : ∀ m, IsDef g project m ↔ IsDef s.graph project m := by
    intro m
    unfold IsDef
    rw [hnodes]
  simp only [hdef]
  refine and_congr_right ?_
  rintro ⟨m, ⟨hm, hmp, hl⟩, rfl⟩
  rw [hedges, hcur _ ((h.nodes m hm hmp).isDef.1 hl)]

end Phases

/-! ### Links of a file that was left alone -/

section Untouched

variable {owner : String → Option String} {project : String} {s s₁ : Store}

/-- The raw edges of a file, as they are loaded: sorting by file keeps their order. -/
theorem filter_loadAllRawEdges (s : Store) (project f : String) :
    (loadAllRawEdges s project).filter (fun edge => decide (edge.filePath = f)) =
      (s.rawEdgesOf project f).map extractedEdgeFromRaw := by
  unfold loadAllRawEdges Store.listRawEdges
  rw [List.filter_map]
  congr 1
  have hof : s.rawEdgesOf project f = (s.rawEdges.filter fun r => decide (r.project = project)).filter
      fun r => decide (r.filePath = f) := by
    unfold Store.rawEdgesOf
    rw [List.filter_filter]
    refine List.filter_congr fun r _ => ?_
    by_cases hr : r.project = project
    · simp [hr]
    · simp [hr]
  rw [hof]
  generalize s.rawEdges.filter (fun r => decide (r.project = project)) = l
  have hcomp : (fun edge : ExtractedEdge => decide (edge.filePath = f)) ∘ extractedEdgeFromRaw =
      fun r : RawEdge => decide (r.filePath = f) := rfl
  rw [hcomp]
  -- the edges of one file are sorted already, so they are a sublist of the sorted list
  have hsorted : (l.filter fun r => decide (r.filePath = f)).Pairwise
      fun a b => a.filePath ≤ b.filePath := by
    have hfile : ∀ r ∈ l.filter fun r => decide (r.filePath = f), r.filePath = f := by
      intro r hr
      exact of_decide_eq_true (List.mem_filter.1 hr).2
    rw [List.pairwise_iff_forall_sublist]
    intro a b hab
    rw [hfile a (hab.subset (by simp)), hfile b (hab.subset (by simp))]
  have hsub := (List.sublist_insertionSort hsorted List.filter_sublist).filter
    fun r : RawEdge => decide (r.filePath = f)
  rw [List.filter_filter] at hsub
  simp only [Bool.and_self] at hsub
  refine (hsub.eq_of_length ?_).symm
  exact ((List.perm_insertionSort _ l).filter _).length_eq.symm

/-- The links that start at a definition come from the raw edges of its file. -/
theorem Tidy.lastLink_of_owner (h : Tidy owner project s) {a f : String} (ha : owner a = some f)
    (b t : String) : lastLink (allLinks project s) (a, b, t) =
      lastLink ((defIndex s.graph project).resolveEdges
        ((s.rawEdgesOf project f).map extractedEdgeFromRaw)) (a, b, t) := by
  have hfile : ∀ p ∈ allLinks project s, linkKey p = (a, b, t) →
      decide (p.2.2.filePath = f) = true := by
    intro p hp hkey
    simp only [linkKey, Prod.mk.injEq] at hkey
    have hown := (h.of_mem_allLinks hp).2.2.1
    rw [hkey.1, ha] at hown
    exact decide_eq_true (Option.some.inj hown).symm
  unfold lastLink
  rw [← lastWrite_filter hfile]
  unfold allLinks
  rw [GraphIndex.filter_resolveEdges (nodup_ids_defIndex _ _) (fun edge he => h.homed he),
    filter_loadAllRawEdges]

/-- A file that was left alone has the links it had, if the definitions are what they were. -/
theorem Untouched.lastLink_eq {f : String} (hun : Untouched owner project s s₁ f)
    (h : Tidy owner project s) (h₁ : Tidy owner project s₁)
    (hdefs : defIndex s₁.graph project = defIndex s.graph project) {a : String}
    (ha : owner a = some f) (b t : String) :
    lastLink (allLinks project s₁) (a, b, t) = lastLink (allLinks project s) (a, b, t) := by
  rw [h₁.lastLink_of_owner ha, h.lastLink_of_owner ha, hun.raws, hdefs]

/-- A definition that has kept its id lives in a file that was left alone. -/
theorem FilePhase.untouched (hphase : FilePhase owner project s s₁) {a f : String}
    (ha : owner a = some f) {i : ℕ} (hi : s.graph.idAt (project, a) = some i)
    (hi₁ : s₁.graph.idAt (project, a) = some i) : Untouched owner project s s₁ f := by
  rcases hphase.each f with hun | hnew
  · exact hun
  · have hle := hnew a ha i hi₁
    obtain ⟨n, hn, _, rfl⟩ := Graph.idAt_eq_some_iff.1 hi
    have hlt := s.graph.ids_lt n hn
    omega

end Untouched

/-! ### The edge phase of an incremental run -/

section Incremental

variable {owner : String → Option String} {project : String} {s₁ : Store} {changed : List String}

/-- The cheap path takes a raw edge up. -/
def selects (project : String) (changed : List String) (s₁ : Store) (edge : ExtractedEdge) : Bool :=
  isCandidate changed ((GraphIndex.load s₁.graph project).namesInFiles changed) edge

theorem selects_nil (edge : ExtractedEdge) : selects project [] s₁ edge = false := by
  have hnames : (GraphIndex.load s₁.graph project).namesInFiles [] = [] := by
    simp [GraphIndex.namesInFiles]
  unfold selects isCandidate edgeReferencesName
  rw [hnames]
  simp only [List.not_mem_nil, decide_false, Bool.false_or]
  split <;> rfl

theorem Tidy.named_resolveCandidates (h : Tidy owner project s₁) :
    (resolveCandidates s₁.graph project changed (loadAllRawEdges s₁ project)).map s₁.graph.named =
      (allLinks project s₁).filter fun p => selects project changed s₁ p.2.2 := by
  unfold resolveCandidates allLinks
  simp only
  rw [named_resolveSelected fun edge he => h.plainEdge he]
  refine GraphIndex.resolveSelected_eq_filter (nodup_ids_defIndex _ _) (fun edge he => h.homed he)
    ?_ ?_
  · intro edge file hc
    rw [hc, Bool.true_or]
  · intro edge he htype hc other
    have hmem : edge.filePath ∈ candidateOwnerFiles (isCandidate changed
        ((GraphIndex.load s₁.graph project).namesInFiles changed)) (loadAllRawEdges s₁ project) := by
      refine List.mem_map.2 ⟨edge, List.mem_filter.2 ⟨he, ?_⟩, rfl⟩
      rw [hc, decide_eq_true htype]
      rfl
    rw [decide_eq_true hmem, Bool.or_true]

/-- A graph with the nodes of a store, and edges of one project. -/
structure Resolves (project : String) (s₁ : Store) (g : Graph) : Prop where
  nodes_eq : g.nodes = s₁.graph.nodes
  projects_eq : g.projects = s₁.graph.projects
  edges : ∀ e ∈ g.edges.rows, e.project = project

/-- When the definitions have changed, the edges are those from scratch. -/
theorem Tidy.edgeAt_full (h : Tidy owner project s₁) (hp : HasProject project s₁) {fp : Finset String}
    {g : Graph} (hchanged : changed ≠ []) (hfp : defFingerprint s₁.graph project ≠ fp)
    (hok : resolveEdgesIncremental project changed fp (loadAllRawEdges s₁ project) s₁.graph = .ok g) :
    Resolves project s₁ g ∧
      ∀ a b t, g.edgeAt project a b t = lastLink (allLinks project s₁) (a, b, t) := by
  have hne : ¬ changed.isEmpty = true := by simpa using hchanged
  rw [resolveEdgesIncremental, if_neg hne, if_pos hfp] at hok
  have hn₀ := Graph.nodes_deleteEdgesWhere (fun e => decide (e.project = project)) s₁.graph
  have hpr₀ := Graph.projects_deleteEdgesWhere (fun e => decide (e.project = project)) s₁.graph
  have hp₀ : ((s₁.graph.deleteEdgesWhere fun e => decide (e.project = project)).projects.find?
      project).isSome := by
    rw [hpr₀]
    exact hp
  obtain ⟨hn, hpr, hedge⟩ := h.edgeAt_resolveAndPersist hn₀ hp₀ hok
  refine ⟨⟨hn.trans hn₀, hpr.trans hpr₀, ?_⟩, fun a b t => ?_⟩
  · refine project_insertEdges hok (project_newEdges _) fun e he => h.edges e ?_
    rw [Graph.deleteEdgesWhere, Graph.mem_edges_cascade] at he
    exact he.1
  · rw [hedge, edgeAt_deleteEdges h.edges, Option.or_none]

/-- When they have not, what was selected is written over what is left. -/
theorem Tidy.edgeAt_cheap (h : Tidy owner project s₁) (hp : HasProject project s₁) {fp : Finset String}
    {g : Graph} (hcheap : changed = [] ∨ defFingerprint s₁.graph project = fp)
    (hok : resolveEdgesIncremental project changed fp (loadAllRawEdges s₁ project) s₁.graph = .ok g) :
    Resolves project s₁ g ∧ ∀ a b t, g.edgeAt project a b t =
      (lastLink ((allLinks project s₁).filter fun p => selects project changed s₁ p.2.2)
        (a, b, t)).or (s₁.graph.edgeAt project a b t) := by
  by_cases hchanged : changed = []
  · subst hchanged
    cases hok
    refine ⟨⟨rfl, rfl, h.edges⟩, fun a b t => ?_⟩
    simp [selects_nil, lastLink]
  · have hne : ¬ changed.isEmpty = true := by simpa using hchanged
    have hfp := hcheap.resolve_left hchanged
    rw [resolveEdgesIncremental, if_neg hne, if_neg (not_not.2 hfp)] at hok
    have hjoins : Joins s₁.graph project
        (resolveCandidates s₁.graph project changed (loadAllRawEdges s₁ project)) :=
      fun p hmem => GraphIndex.mem_resolveSelected hmem
    obtain ⟨g', hok', hw⟩ := insertEdges_ok rfl hp hjoins
    cases hok.symm.trans hok'
    refine ⟨⟨hw.nodes_eq, hw.projects_eq,
      project_insertEdges hok (project_newEdges _) h.edges⟩, fun a b t => ?_⟩
    rw [edgeAt_written hjoins hw, h.named_resolveCandidates]

end Incremental

/-! ### The last phases -/

section Finish

variable {owner : String → Option String} {project : String} {entries : List InventoryEntry}
  {s₁ s' : Store} {g : Graph}

/-- What the last phases leave: `s₁` after the files, `g` after the edges, `s'` at the end. -/
structure Finished (owner : String → Option String) (project : String)
    (entries : List InventoryEntry) (s₁ : Store) (g : Graph) (s' : Store) : Prop where
  rawEdges_eq : s'.rawEdges = s₁.rawEdges
  hasProject : HasProject project s'
  tidy : Tidy owner project s'
  defIndex_eq : defIndex s'.graph project = defIndex s₁.graph project
  ids : ∀ a, (owner a).isSome → s'.graph.idAt (project, a) = s₁.graph.idAt (project, a)
  files : ∀ w : NewNode, (w.project = project ∧ w.label = "File" ∧
    ∃ n ∈ s'.graph.nodes.rows, n.toNewNode = w) ↔ IsLastFile project entries w
  edgeAt : ∀ a, (owner a).isSome → ∀ b t, s'.graph.edgeAt project a b t =
    (lastLink (fileLinks project s') (a, b, t)).or
      (if s'.graph.idAt (project, b) = g.idAt (project, b) then g.edgeAt project a b t else none)

theorem finished_of_ok (h₁ : Tidy owner project s₁) (hp : HasProject project s₁)
    (hg : Resolves project s₁ g) (hspine : ∀ q ∈ spineNames project entries, owner q = none)
    (hok : finishRun project entries { s₁ with graph := g } = .ok s') :
    Finished owner project entries s₁ g s' := by
  have hpg : (g.projects.find? project).isSome := by
    rw [hg.projects_eq]
    exact hp
  have hplaced : ∀ n ∈ g.nodes.rows, n.project = project → PlacedNode owner n.toNewNode := by
    rw [hg.nodes_eq]
    exact h₁.nodes
  obtain ⟨g₂, hbuild, _, _⟩ := buildStructural_spec entries hpg
  have hkept := spineKept_of_ok hpg hspine hplaced hg.edges hbuild
  have hpg₂ : (g₂.projects.find? project).isSome := by
    rw [hkept.projects_eq]
    exact hpg
  have hload : loadAllRawEdges { s₁ with graph := g } project = loadAllRawEdges s₁ project := rfl
  obtain ⟨g₃, himports, hw⟩ := resolveFileImports_ok hpg₂ (loadAllRawEdges s₁ project)
  have hs' : s' = { s₁ with graph := g₃ } := by
    simp only [finishRun, hbuild, hload, himports, Except.mapError, bind, Except.bind, pure,
      Except.pure] at hok
    cases hok
    rfl
  subst hs'
  have hnodes : g₃.nodes = g₂.nodes := hw.nodes_eq
  have hraws : loadAllRawEdges { s₁ with graph := g₃ } project = loadAllRawEdges s₁ project := rfl
  obtain ⟨_, hpr₃, hedge⟩ := edgeAt_resolveFileImports (s := { s₁ with graph := g₃ }) hnodes.symm
    hpg₂ (hraws ▸ himports)
  have hfind : ∀ a, (owner a).isSome →
      g₃.nodes.find? (project, a) = s₁.graph.nodes.find? (project, a) := by
    intro a ha
    rw [hnodes, hkept.nodes a ha, hg.nodes_eq]
  refine ⟨rfl, ?_, ⟨?_, h₁.raws, ?_⟩, ?_, ?_, ?_, ?_⟩
  · unfold HasProject
    simp only [hpr₃]
    exact hpg₂
  · simp only [hnodes]
    exact hkept.placed
  · exact project_insertEdges himports (project_newEdges _) hkept.edges
  · simp only
    rw [defIndex_congr hnodes, hkept.defIndex_eq hplaced, defIndex_congr hg.nodes_eq]
  · intro a ha
    simp only [Graph.idAt, hfind a ha]
  · intro w
    simp only [hnodes]
    exact mem_files_of_ok hpg hbuild w
  · intro a ha b t
    have hid : g₃.idAt (project, b) = g₂.idAt (project, b) := Graph.idAt_congr hnodes _
    simp only [hedge, hkept.edgeAt a ha, hid]

/-- The edges are those from scratch when those between definitions are, and no import of a file is
left over. -/
theorem Finished.current (hfin : Finished owner project entries s₁ g s')
    (hg : Resolves project s₁ g)
    (hdefs : ∀ a b t, (owner a).isSome → (owner b).isSome →
      g.edgeAt project a b t = lastLink (allLinks project s₁) (a, b, t))
    (hfiles : ∀ a b t, (owner a).isSome → owner b = none →
      s'.graph.idAt (project, b) = g.idAt (project, b) → g.edgeAt project a b t ≠ none →
        lastLink (fileLinks project s') (a, b, t) ≠ none) : Current owner project s' := by
  intro a ha b t
  have hall : allLinks project s' = allLinks project s₁ := by
    unfold allLinks
    rw [hfin.defIndex_eq]
    unfold loadAllRawEdges Store.listRawEdges
    rw [hfin.rawEdges_eq]
  rw [hfin.edgeAt a ha, linkAt]
  cases hlast : lastLink (fileLinks project s') (a, b, t) with
  | some p => rfl
  | none =>
    simp only [Option.none_or]
    cases hb : owner b with
    | some f =>
      have hb' : (owner b).isSome := by
        rw [hb]
        rfl
      rw [hfin.ids b hb', Graph.idAt_congr hg.nodes_eq, if_pos rfl, hall]
      exact hdefs a b t ha hb'
    | none =>
      rw [hfin.tidy.lastLink_allLinks hb]
      by_cases hid : s'.graph.idAt (project, b) = g.idAt (project, b)
      · rw [if_pos hid]
        by_contra hne
        exact hfiles a b t ha hb hid hne hlast
      · rw [if_neg hid]

theorem Finished.current_of_links (hfin : Finished owner project entries s₁ g s')
    (h₁ : Tidy owner project s₁) (hg : Resolves project s₁ g)
    (hlinks : ∀ a, (owner a).isSome → ∀ b t,
      g.edgeAt project a b t = lastLink (allLinks project s₁) (a, b, t)) :
    Current owner project s' := by
  refine hfin.current hg (fun a b t ha _ => hlinks a ha b t) ?_
  intro a b t ha hb _ hne
  rw [hlinks a ha, h₁.lastLink_allLinks hb] at hne
  exact absurd rfl hne

end Finish

/-! ### Nothing is left out -/

section Covered

/-- The node of a name has kept its id. -/
def KeepsId (project : String) (s s₁ : Store) (a : String) : Prop :=
  s₁.graph.idAt (project, a) = s.graph.idAt (project, a)

/-- The files of an inventory with a stem go to one File node. -/
structure OnlyFile (project : String) (entries : List InventoryEntry) (stem : List Char)
    (q : String) : Prop where
  here : ∃ w ∈ spineNodes project entries, IsLastFile project entries w ∧
    stemOfFile w.filePath = stem ∧ w.qualifiedName = q
  only : ∀ w ∈ spineNodes project entries, IsLastFile project entries w →
    stemOfFile w.filePath = stem → w.qualifiedName = q

/-- The cheap path leaves nothing out.  `s` is the store before the run, `s₁` the one with the changed
files replaced. -/
structure Covered (project : String) (entries : List InventoryEntry) (s s₁ : Store)
    (changed : List String) : Prop where
  /-- The definitions are what they were; by `defIndex_of_fingerprint` they are when the lines of the
  fingerprint tell definitions apart. -/
  definitions : (defIndex s₁.graph project).nodes = (defIndex s.graph project).nodes
  /-- The raw edge that an edge comes from is selected; or the edge is still there, and no raw edge
  for it is selected. -/
  selected : ∀ p ∈ allLinks project s₁, lastWrite linkKey (allLinks project s₁) (linkKey p) = some p →
    selects project changed s₁ p.2.2 = true ∨
      (KeepsId project s s₁ p.1 ∧ KeepsId project s s₁ p.2.1 ∧
        ∀ q ∈ allLinks project s₁, linkKey q = linkKey p → selects project changed s₁ q.2.2 = false)
  /-- A file that was linked by an import, and is still there, is still the only one of its stem. -/
  files : ∀ edge ∈ loadAllRawEdges s₁ project, ∀ q ∈ (GraphIndex.load s.graph project).resolveFileImport
    edge, ∀ name ∈ nonemptyProp edge "imported_name", KeepsId project s s₁ (s.graph.nameOf q.1) →
      KeepsId project s s₁ (s.graph.nameOf q.2) →
        OnlyFile project entries (importStem name) (s.graph.nameOf q.2)

deriving instance DecidableEq for IndexRow

instance (project : String) (s s₁ : Store) (a : String) : Decidable (KeepsId project s s₁ a) :=
  inferInstanceAs (Decidable (s₁.graph.idAt (project, a) = s.graph.idAt (project, a)))

instance (project : String) (entries : List InventoryEntry) (w : NewNode) :
    Decidable (IsLastFile project entries w) :=
  inferInstanceAs (Decidable (_ ∧ _))

instance (project : String) (entries : List InventoryEntry) (stem : List Char) (q : String) :
    Decidable (OnlyFile project entries stem q) :=
  decidable_of_iff (_ ∧ _) ⟨fun h => ⟨h.1, h.2⟩, fun h => ⟨h.here, h.only⟩⟩

instance (project : String) (entries : List InventoryEntry) (s s₁ : Store) (changed : List String) :
    Decidable (Covered project entries s s₁ changed) :=
  decidable_of_iff (_ ∧ _ ∧ _)
    ⟨fun h => ⟨h.1, h.2.1, h.2.2⟩, fun h => ⟨h.definitions, h.selected, h.files⟩⟩

variable {owner : String → Option String} {project : String} {entries : List InventoryEntry}
  {s s₁ s' : Store} {g : Graph} {changed : List String}

theorem Covered.defIndex_eq (h : Covered project entries s s₁ changed) :
    defIndex s₁.graph project = defIndex s.graph project :=
  defIndex_ext fun row => by rw [h.definitions]

variable {p : String × String × ExtractedEdge} {a b : String} {i : ℕ}

theorem exists_idAt_of_mem_allLinks (hp : p ∈ allLinks project s₁) :
    ∃ i, s₁.graph.idAt (project, p.1) = some i := by
  obtain ⟨row, hrow, hid⟩ := List.mem_map.1 (GraphIndex.mem_resolveSelected hp).1
  obtain ⟨n, ⟨hn, hnp, _⟩, rfl⟩ := mem_defIndex.1 hrow
  have hname : n.qualifiedName = p.1 := hid
  exact ⟨n.id, Graph.idAt_eq_some_iff.2 ⟨n, hn, Prod.ext hnp hname, rfl⟩⟩

theorem lastLink_selected_eq_none {k : String × String × String}
    (h : ∀ p ∈ allLinks project s₁, linkKey p = k → selects project changed s₁ p.2.2 = false) :
    lastLink ((allLinks project s₁).filter fun p => selects project changed s₁ p.2.2) k = none := by
  unfold lastLink
  rw [Option.map_eq_none_iff, lastWrite_eq_none_iff]
  intro hmem
  obtain ⟨p, hp, hkey⟩ := List.mem_map.1 hmem
  obtain ⟨hp, hsel⟩ := List.mem_filter.1 hp
  rw [h p hp hkey] at hsel
  cases hsel

/-- Between two definitions that have kept their ids there is the edge from scratch. -/
theorem edgeAt_of_kept_defs (hphase : FilePhase owner project s s₁) (h : Tidy owner project s)
    (h₁ : Tidy owner project s₁) (hcur : Current owner project s)
    (hdefs : defIndex s₁.graph project = defIndex s.graph project) (ha : (owner a).isSome)
    (hb : (owner b).isSome) (hi : s₁.graph.idAt (project, a) = some i)
    (hka : KeepsId project s s₁ a) (hkb : KeepsId project s s₁ b) (t : String) :
    s₁.graph.edgeAt project a b t = lastLink (allLinks project s₁) (a, b, t) := by
  obtain ⟨f, hf⟩ := Option.isSome_iff_exists.1 ha
  have hun := hphase.untouched hf (hka.symm.trans hi) hi
  rw [hphase.graph.edgeAt_eq, if_pos ⟨hka, hkb⟩, hcur a ha, linkAt, h.lastLink_fileLinks hb,
    Option.none_or, hun.lastLink_eq h h₁ hdefs hf]

/-- **Between definitions the cheap path leaves the edges from scratch.** -/
theorem Covered.edgeAt_defs (hcov : Covered project entries s s₁ changed)
    (hphase : FilePhase owner project s s₁) (h : Tidy owner project s) (h₁ : Tidy owner project s₁)
    (hcur : Current owner project s) (ha : (owner a).isSome) (hb : (owner b).isSome) (t : String) :
    (lastLink ((allLinks project s₁).filter fun p => selects project changed s₁ p.2.2)
      (a, b, t)).or (s₁.graph.edgeAt project a b t) = lastLink (allLinks project s₁) (a, b, t) := by
  have hkept := fun i hi hka hkb =>
    edgeAt_of_kept_defs (i := i) hphase h h₁ hcur hcov.defIndex_eq ha hb hi hka hkb t
  cases hlast : lastWrite linkKey (allLinks project s₁) (a, b, t) with
  | none =>
    -- there is no such link, so nothing is selected, and no edge was there
    have hnone : lastLink (allLinks project s₁) (a, b, t) = none := by rw [lastLink, hlast]; rfl
    rw [lastLink_selected_eq_none fun p hp hkey => ?_, Option.none_or, hnone]
    · by_cases hk : KeepsId project s s₁ a ∧ KeepsId project s s₁ b
      · cases hi : s₁.graph.idAt (project, a) with
        | none => simp [Graph.edgeAt, hi]
        | some i => rw [hkept i hi hk.1 hk.2, hnone]
      · rw [hphase.graph.edgeAt_eq]
        exact if_neg hk
    · exact absurd (List.mem_map.2 ⟨p, hp, hkey⟩) (lastWrite_eq_none_iff.1 hlast)
  | some q =>
    obtain ⟨hq, hkey⟩ := mem_of_lastWrite hlast
    rcases hcov.selected q hq (hkey ▸ hlast) with hsel | ⟨hka, hkb, hnot⟩
    · rw [lastLink, lastLink, hlast, lastWrite_filter_of_some hlast hsel]
      rfl
    · rw [lastLink_selected_eq_none fun p hp hp' => hnot p hp (hp'.trans hkey.symm),
        Option.none_or]
      simp only [linkKey, Prod.mk.injEq] at hkey
      obtain ⟨i, hi⟩ := exists_idAt_of_mem_allLinks hq
      rw [hkey.1] at hka hi
      rw [hkey.2.1] at hkb
      exact hkept i hi hka hkb

theorem byQname_load_of_idAt {g : Graph} (h : g.idAt (project, a) = some i) :
    ∃ src, (GraphIndex.load g project).byQname a = some src ∧ src.id = i := by
  obtain ⟨n, hn, hkey, rfl⟩ := Graph.idAt_eq_some_iff.1 h
  obtain ⟨hnp, hname⟩ := Prod.ext_iff.1 hkey
  have hrow : n.toIndexRow ∈ (GraphIndex.load g project).nodes :=
    List.mem_map_of_mem (Graph.mem_projectRows.2 ⟨hn, hnp⟩)
  cases hfind : (GraphIndex.load g project).byQname a with
  | none => exact absurd (decide_eq_true hname) (List.find?_eq_none.1 hfind _ hrow)
  | some src =>
    obtain ⟨hsrc, hsname⟩ := GraphIndex.mem_of_byQname hfind
    obtain ⟨m, hm, rfl⟩ := List.mem_map.1 hsrc
    obtain ⟨hmem, hmp⟩ := Graph.mem_projectRows.1 hm
    have hmkey : m.key = n.key := Prod.ext (hmp.trans hnp.symm) (hsname.trans hname.symm)
    exact ⟨_, rfl, congrArg Node.id (g.nodes.eq_of_key_eq hmem hn hmkey)⟩

theorem Finished.filesByStem_eq (hfin : Finished owner project entries s₁ g s') {stem : List Char}
    (hfile : OnlyFile project entries stem b) :
    ∃ j, s'.graph.idAt (project, b) = some j ∧
      (GraphIndex.load s'.graph project).filesByStem stem = [j] := by
  obtain ⟨w, _, hw, hstem, hname⟩ := hfile.here
  obtain ⟨hwp, hwl, n, hn, rfl⟩ := (hfin.files w).2 hw
  refine ⟨n.id, Graph.idAt_eq_some_iff.2 ⟨n, hn, Prod.ext hwp hname, rfl⟩, ?_⟩
  have hmem : ∀ i, i ∈ (GraphIndex.load s'.graph project).filesByStem stem ↔ i = n.id := by
    intro i
    unfold GraphIndex.filesByStem
    constructor
    · intro hi
      obtain ⟨row, hrow, rfl⟩ := List.mem_map.1 hi
      obtain ⟨hrow, hlabel⟩ := List.mem_filter.1 hrow
      obtain ⟨m, hm, rfl⟩ := List.mem_map.1 hrow
      obtain ⟨hmem, hmp⟩ := Graph.mem_projectRows.1 hm
      obtain ⟨hml, hmstem⟩ := of_decide_eq_true hlabel
      have hlast := (hfin.files m.toNewNode).1 ⟨hmp, hml, m, hmem, rfl⟩
      have hmname := hfile.only m.toNewNode (mem_of_lastWrite hlast.1).1 hlast hmstem
      have hkey : m.key = n.key := Prod.ext (hmp.trans hwp.symm) (hmname.trans hname.symm)
      exact congrArg Node.id (s'.graph.nodes.eq_of_key_eq hmem hn hkey)
    · rintro rfl
      refine List.mem_map.2 ⟨n.toIndexRow, List.mem_filter.2 ⟨?_, decide_eq_true ⟨hwl, hstem⟩⟩, rfl⟩
      exact List.mem_map_of_mem (Graph.mem_projectRows.2 ⟨hn, hwp⟩)
  have hnodup : ((GraphIndex.load s'.graph project).filesByStem stem).Nodup :=
    (renaming_load s'.graph project).nodup.sublist (List.filter_sublist.map IndexRow.id)
  refine List.perm_singleton.1 ((List.perm_ext_iff_of_nodup hnodup (List.nodup_singleton _)).2 ?_)
  intro i
  rw [hmem, List.mem_singleton]

/-- Imports name no definition in one store exactly when they do in another with the same ones. -/
theorem importTarget_eq_none_of_defIndex {g g' : Graph} (h : defIndex g' project = defIndex g project)
    {edge : ExtractedEdge} (hnone : (GraphIndex.load g project).importTarget edge = none) :
    (GraphIndex.load g' project).importTarget edge = none := by
  have hdef : (defIndex g' project).importTarget edge = none := by
    rw [h]
    unfold defIndex
    rw [GraphIndex.importTarget_definitions, hnone]
    rfl
  unfold defIndex at hdef
  rw [GraphIndex.importTarget_definitions, Option.map_eq_none_iff] at hdef
  exact hdef

theorem Covered.links_again (hcov : Covered project entries s s₁ changed)
    (hphase : FilePhase owner project s s₁) (h : Tidy owner project s)
    (hfin : Finished owner project entries s₁ g s') (hp : p ∈ fileLinks project s)
    (hka : KeepsId project s s₁ p.1) (hkb : KeepsId project s s₁ p.2.1) :
    p ∈ fileLinks project s' := by
  obtain ⟨q, hq, hmem, hname₁, hname₂, hsource, hnone⟩ := h.of_mem_fileLinks hp
  obtain ⟨htype, name, src, hname, htarget, hdot, _, hsrc, hid, _⟩ :=
    GraphIndex.resolveFileImport_eq_some_iff.1 hq
  obtain ⟨r, hr, hrp, hedge⟩ := mem_loadAllRawEdges.1 hmem
  have hown : owner p.1 = some p.2.2.filePath := by
    rw [hsource, ← hedge]
    exact (h.raws r hr hrp).source
  -- the importer was there before the run and has kept its id, so its file was left alone
  have hi : s.graph.idAt (project, p.1) = some q.1 := by
    rw [hname₁]
    exact idAt_nameOf (GraphIndex.resolveFileImport_mem hq).1
  have hi₁ : s₁.graph.idAt (project, p.1) = some q.1 := hka.trans hi
  have hun := hphase.untouched hown hi hi₁
  have hmem₁ : p.2.2 ∈ loadAllRawEdges s₁ project := by
    have hfiltered : p.2.2 ∈ (loadAllRawEdges s project).filter
        fun edge => decide (edge.filePath = p.2.2.filePath) :=
      List.mem_filter.2 ⟨hmem, decide_eq_true rfl⟩
    rw [filter_loadAllRawEdges, ← hun.raws, ← filter_loadAllRawEdges] at hfiltered
    exact List.mem_of_mem_filter hfiltered
  rw [hname₁] at hka
  rw [hname₂] at hkb
  obtain ⟨j, hj, hfiles⟩ := hfin.filesByStem_eq (hcov.files p.2.2 hmem₁ q hq name hname hka hkb)
  have hi' : s'.graph.idAt (project, p.1) = some q.1 := by
    rw [hfin.ids p.1 (by rw [hown]; rfl)]
    exact hi₁
  obtain ⟨src', hsrc', hid'⟩ := byQname_load_of_idAt hi'
  rw [hsource] at hsrc'
  have hne : j ≠ q.1 := by
    rintro rfl
    have hkey := Graph.idAt_inj hj hi'
    have hb : s.graph.nameOf q.2 = p.1 := (Prod.ext_iff.1 hkey).2
    rw [hname₂, hb, hown] at hnone
    cases hnone
  have himport : (GraphIndex.load s'.graph project).resolveFileImport p.2.2 = some (q.1, j) :=
    GraphIndex.resolveFileImport_eq_some_iff.2 ⟨htype, name, src', hname,
      importTarget_eq_none_of_defIndex (hfin.defIndex_eq.trans hcov.defIndex_eq) htarget, hdot,
      hfiles, hsrc', hid', hne⟩
  unfold fileLinks
  refine List.mem_map.2 ⟨(q.1, j, p.2.2), List.mem_filterMap.2 ⟨p.2.2, ?_, ?_⟩, ?_⟩
  · have hload : loadAllRawEdges s' project = loadAllRawEdges s₁ project := by
      unfold loadAllRawEdges Store.listRawEdges
      rw [hfin.rawEdges_eq]
    rw [hload]
    exact hmem₁
  · rw [himport]
    rfl
  · refine Prod.ext (nameOf_of_idAt hi').1 (Prod.ext ?_ rfl)
    exact (nameOf_of_idAt hj).1.trans hname₂.symm

/-- **The cheap path leaves the edges from scratch** when it leaves nothing out. -/
theorem Covered.current (hcov : Covered project entries s s₁ changed)
    (hphase : FilePhase owner project s s₁) (h : Tidy owner project s) (h₁ : Tidy owner project s₁)
    (hcur : Current owner project s) (hg : Resolves project s₁ g)
    (hedge : ∀ a b t, g.edgeAt project a b t =
      (lastLink ((allLinks project s₁).filter fun p => selects project changed s₁ p.2.2)
        (a, b, t)).or (s₁.graph.edgeAt project a b t))
    (hfin : Finished owner project entries s₁ g s') : Current owner project s' := by
  refine hfin.current hg ?_ ?_
  · intro a b t ha hb
    rw [hedge]
    exact hcov.edgeAt_defs hphase h h₁ hcur ha hb t
  · intro a b t ha hb _ hne hnone
    -- an edge to the spine was there before the run, and is the import of a file
    have hsel : lastLink ((allLinks project s₁).filter fun p => selects project changed s₁ p.2.2)
        (a, b, t) = none := by
      unfold lastLink
      rw [Option.map_eq_none_iff, lastWrite_eq_none_iff]
      intro hmem
      obtain ⟨p, hp, hkey⟩ := List.mem_map.1 hmem
      have hown := (h₁.of_mem_allLinks (List.mem_of_mem_filter hp)).2.2.2
      simp only [linkKey, Prod.mk.injEq] at hkey
      rw [hkey.2.1, hb] at hown
      cases hown
    rw [hedge, hsel, Option.none_or, hphase.graph.edgeAt_eq] at hne
    split at hne
    · rename_i hkept
      rw [hcur a ha, linkAt, h.lastLink_allLinks hb, Option.or_none] at hne
      obtain ⟨p, hp⟩ := Option.ne_none_iff_exists'.1 hne
      obtain ⟨x, hx, _⟩ := Option.map_eq_some_iff.1 hp
      obtain ⟨hmem, hkey⟩ := mem_of_lastWrite hx
      have hkey' := hkey
      simp only [linkKey, Prod.mk.injEq] at hkey'
      have hagain := hcov.links_again hphase h hfin hmem (hkey'.1 ▸ hkept.1)
        (hkey'.2.1 ▸ hkept.2)
      obtain ⟨y, hy⟩ := exists_lastWrite linkKey hagain
      rw [hkey] at hy
      rw [lastLink, hy] at hnone
      cases hnone
    · exact hne rfl

end Covered

/-! ### One run -/

section Step

variable {env : Env} {owner : String → Option String} {project : String}

/-- A file without a row has no raw edges and no definitions. -/
def RowFirst (v : FileView) : Prop := v.rows.state = none → v.raws = [] ∧ v.nodes = ∅

theorem RowFirst.shrinks {v w : FileView} (hw : RowFirst w) (h : Shrinks v w) : RowFirst v :=
  fun hv => h.empty (hw (h.state_none hv))

theorem rowFirst_changedView (run : Run) (e : InventoryEntry) {v : FileView} (h : RowFirst v) :
    RowFirst (changedView env run project e v) := by
  unfold changedView extractView toExtract
  cases htriage : triage env run.disk e with
  | unsupported lang => exact fun _ => by simp [triageView, htriage, FileView.dropped]
  | oversize lang md => exact fun _ => by simp [triageView, htriage, FileView.dropped]
  | extract lang =>
    have hview : triageView env run project e v = v := by
      simp [triageView, triageRows, htriage]
    simp only [hview]
    cases extractOne env run.disk e lang with
    | extracted rel abs bytes md nodes edges => exact fun hnone => by cases hnone
    | unreadable entry language reason detail => exact h

variable {s s' : Store} {step : IndexStep}

theorem rowFirst_indexRun {run : Run} {rootPath : String} {entries : List InventoryEntry}
    (hdistinct : (entries.map InventoryEntry.relPath).Nodup) (hlegacy : s.legacySidecar = false)
    (hs : ∀ r, RowFirst (viewAt project s r))
    (hrun : indexRun env run project rootPath entries s = .ok s') (r : String) :
    RowFirst (viewAt project s' r) := by
  have hspec := indexRun_spec env run project hdistinct hrun
  by_cases hinc : isIncremental s project = true
  · rw [if_pos hinc] at hspec
    obtain ⟨changed, hspec⟩ := hspec
    by_cases hr : r ∈ entries.map InventoryEntry.relPath
    · obtain ⟨e, he, rfl⟩ := List.mem_map.1 hr
      obtain ⟨d, _, hview⟩ := hspec.files e he
      refine RowFirst.shrinks ?_ (Shrinks.of_below hview)
      refine RowFirst.shrinks ?_ (Shrinks.stamped _ _)
      split
      · exact hs e.relPath
      · exact rowFirst_changedView run e (hs e.relPath)
    · refine RowFirst.shrinks ?_ (Shrinks.of_below (hspec.others r hr))
      split
      · exact fun _ => ⟨rfl, rfl⟩
      · exact hs r
  · rw [if_neg hinc] at hspec
    by_cases hr : r ∈ entries.map InventoryEntry.relPath
    · obtain ⟨e, he, rfl⟩ := List.mem_map.1 hr
      obtain ⟨hraws, hnodes⟩ := hs e.relPath
        (state_none_of_full hlegacy (eq_false_of_ne_true hinc) e.relPath)
      have hview := hspec.files e he
      rw [fullView_eq_changedView env project e hraws hnodes] at hview
      exact (rowFirst_changedView run e (hs e.relPath)).shrinks (Shrinks.of_below hview)
    · exact (hs r).shrinks (Shrinks.of_below (hspec.others r hr))

/-- What every run of a sequence leaves. -/
structure EdgeInv (owner : String → Option String) (project : String) (s : Store) : Prop where
  present : HasProject project s ∨ s = Store.empty
  tidy : Tidy owner project s
  legacy : s.legacySidecar = false
  rowFirst : ∀ r, RowFirst (viewAt project s r)
  current : Current owner project s

/-- A run that takes the cheap path leaves nothing out; names tell files apart. -/
structure Covers (env : Env) (owner : String → Option String) (project : String) (s : Store)
    (step : IndexStep) : Prop where
  naming : Naming env owner project step.entries
  cheap : isIncremental s project = true → ∀ p ∈ (runIncremental env step.run project step.entries
    (entered step.run project step.rootPath s)).toOption,
      (p.2 = [] ∨ defFingerprint p.1.graph project = defFingerprint s.graph project) →
        Covered project step.entries s p.1 p.2

theorem filePhase_entered (run : Run) (rootPath : String) (s : Store) :
    FilePhase owner project s (entered run project rootPath s) :=
  ⟨Reworked.of_eq rfl rfl rfl, fun _ => Or.inl ⟨fun _ _ => rfl, rfl⟩⟩

theorem tidy_entered (h : Tidy owner project s) (run : Run) (rootPath : String) :
    Tidy owner project (entered run project rootPath s) := ⟨h.nodes, h.raws, h.edges⟩

/-- A store where no file has a row has no edge that starts at a definition. -/
theorem edgeAt_of_full (h : EdgeInv owner project s) (hinc : isIncremental s project = false)
    {a : String} (ha : (owner a).isSome) (b t : String) : s.graph.edgeAt project a b t = none := by
  have hnone : s.graph.idAt (project, a) = none := by
    rw [Option.eq_none_iff_forall_ne_some]
    intro i hi
    obtain ⟨n, hn, hkey, _⟩ := Graph.idAt_eq_some_iff.1 hi
    obtain ⟨hp, hq⟩ := Prod.ext_iff.1 hkey
    have hname : n.qualifiedName = a := hq
    have hl : n.label ∉ nonDefLabels := (h.tidy.nodes n hn hp).isDef.2 (by rw [hname]; exact ha)
    have hempty := (h.rowFirst n.filePath (state_none_of_full h.legacy hinc n.filePath)).2
    have hmem : n.toNewNode ∈ (viewAt project s n.filePath).nodes := ⟨hp, rfl, hl, n, hn, rfl⟩
    rw [hempty] at hmem
    exact hmem
  simp [Graph.edgeAt, hnone]

/-- **A full run leaves the edges from scratch.** -/
theorem current_full (h : EdgeInv owner project s) (hn : Naming env owner project step.entries)
    (hinc : isIncremental s project = false)
    (hrun : indexRun env step.run project step.rootPath step.entries s = .ok s') :
    Tidy owner project s' ∧ Current owner project s' := by
  have hmoved := moved_runFull env step.run hn (hasProject_entered step.run project step.rootPath s)
    (tidy_entered h.tidy step.run step.rootPath)
  have hphase := (filePhase_entered step.run step.rootPath s).trans hmoved.phase
  rw [indexRun_eq_full env step.run project hinc] at hrun
  generalize runFull env step.run project step.entries
    (entered step.run project step.rootPath s) = s₁ at hmoved hphase hrun
  obtain ⟨g, hok, _⟩ := resolveAndPersistEdges_ok hmoved.hasProject (loadAllRawEdges s₁ project)
  rw [hok] at hrun
  obtain ⟨hnodes, hprojects, hedge⟩ :=
    hmoved.tidy.edgeAt_resolveAndPersist rfl hmoved.hasProject hok
  have hg : Resolves project s₁ g :=
    ⟨hnodes, hprojects, project_insertEdges hok (project_newEdges _) hmoved.tidy.edges⟩
  have hfin := finished_of_ok hmoved.tidy hmoved.hasProject hg hn.spine hrun
  refine ⟨hfin.tidy, hfin.current_of_links hmoved.tidy hg fun a ha b t => ?_⟩
  rw [hedge, hphase.graph.edgeAt_eq, edgeAt_of_full h hinc ha, ite_self, Option.or_none]

/-- **An incremental run leaves the edges from scratch**, on either path. -/
theorem current_incremental (h : EdgeInv owner project s) (hcov : Covers env owner project s step)
    (hinc : isIncremental s project = true)
    (hrun : indexRun env step.run project step.rootPath step.entries s = .ok s') :
    Tidy owner project s' ∧ Current owner project s' := by
  rw [indexRun_eq_incremental env step.run project hinc] at hrun
  cases hfiles : runIncremental env step.run project step.entries
      (entered step.run project step.rootPath s) with
  | error err =>
    rw [hfiles] at hrun
    cases hrun
  | ok p =>
    obtain ⟨s₁, changed⟩ := p
    have hmoved := moved_runIncremental env step.run hcov.naming
      (hasProject_entered step.run project step.rootPath s)
      (tidy_entered h.tidy step.run step.rootPath) hfiles
    have hphase := (filePhase_entered step.run step.rootPath s).trans hmoved.phase
    obtain ⟨g, hok, _, _⟩ := resolveEdgesIncremental_ok hmoved.hasProject changed
      (defFingerprint s.graph project) (loadAllRawEdges s₁ project)
    rw [hfiles] at hrun
    simp only [Except.bind, hok, Except.mapError] at hrun
    by_cases hcheap : changed = [] ∨
        defFingerprint s₁.graph project = defFingerprint s.graph project
    · obtain ⟨hg, hedge⟩ := hmoved.tidy.edgeAt_cheap hmoved.hasProject hcheap hok
      have hfin := finished_of_ok hmoved.tidy hmoved.hasProject hg hcov.naming.spine hrun
      have hcovered : Covered project step.entries s s₁ changed :=
        hcov.cheap hinc (s₁, changed) (by rw [hfiles]; rfl) hcheap
      exact ⟨hfin.tidy,
        hcovered.current hphase h.tidy hmoved.tidy h.current hg hedge hfin⟩
    · rw [not_or] at hcheap
      obtain ⟨hg, hedge⟩ :=
        hmoved.tidy.edgeAt_full hmoved.hasProject hcheap.1 hcheap.2 hok
      have hfin := finished_of_ok hmoved.tidy hmoved.hasProject hg hcov.naming.spine hrun
      exact ⟨hfin.tidy, hfin.current_of_links hmoved.tidy hg fun a _ b t => hedge a b t⟩

/-- **One run keeps the edges those from scratch.** -/
theorem edgeInv_step (h : EdgeInv owner project s) (hcov : Covers env owner project s step) :
    EdgeInv owner project (stepIndex env project s step) := by
  unfold stepIndex
  cases hrun : indexRun env step.run project step.rootPath step.entries s with
  | error err =>
    exact ⟨Or.inl (hasProject_entered step.run project step.rootPath s),
      tidy_entered h.tidy step.run step.rootPath, h.legacy, h.rowFirst, h.current⟩
  | ok s' =>
    have hdistinct := hcov.naming.distinct
    have hboth : Tidy owner project s' ∧ Current owner project s' := by
      by_cases hinc : isIncremental s project = true
      · exact current_incremental h hcov hinc hrun
      · exact current_full h hcov.naming (eq_false_of_ne_true hinc) hrun
    have hproj : HasProject project s' := by
      have hspec := indexRun_spec env step.run project hdistinct hrun
      split at hspec
      · obtain ⟨_, hspec⟩ := hspec
        exact hspec.hasProject
      · exact hspec.hasProject
    exact ⟨Or.inl hproj, hboth.1,
      (legacySidecar_indexRun env step.run project hdistinct hrun).trans h.legacy,
      rowFirst_indexRun hdistinct h.legacy h.rowFirst hrun, hboth.2⟩

end Step

/-! ### Sequences of runs -/

theorem edgeInv_empty (owner : String → Option String) (project : String) :
    EdgeInv owner project Store.empty where
  present := Or.inr rfl
  tidy := ⟨fun n hn => (by cases hn), fun r hr => (by cases hr), fun e he => (by cases he)⟩
  legacy := rfl
  rowFirst r _ := by
    refine ⟨rfl, Set.eq_empty_of_forall_notMem ?_⟩
    rintro w ⟨_, _, _, n, hn, _⟩
    cases hn
  current a ha b t := rfl

theorem settled_empty (project : String) : Settled project Store.empty := by
  refine ⟨_, rfl, ?_⟩
  ext ⟨a, b, t, p⟩
  constructor
  · rintro ⟨e, he, _⟩
    cases he
  · rintro ⟨e, he, _⟩
    cases he

theorem EdgeInv.settled {owner : String → Option String} {project : String} {s : Store}
    (h : EdgeInv owner project s) : Settled project s := by
  rcases h.present with hp | rfl
  · exact h.tidy.settled hp h.current
  · exact settled_empty project

/-- **Incremental edges are the edges from scratch**: in every sequence of runs in which no run that
takes the cheap path leaves anything out, the edges of the store are, after every run, those that
deleting all of them and resolving every stored raw edge again would give. -/
theorem edges_settled_run (env : Env) (owner : String → Option String) (project : String)
    (steps : List IndexStep)
    (h : Guarded (stepIndex env project) (Covers env owner project) Store.empty steps) :
    ∀ s ∈ steps.scanl (stepIndex env project) Store.empty, Settled project s := by
  have hstep : ∀ s step, EdgeInv owner project s → Covers env owner project s step →
      EdgeInv owner project (stepIndex env project s step) := fun _ _ hs hcov => edgeInv_step hs hcov
  have hinv := forall_mem_scanl_of_guarded hstep (edgeInv_empty owner project) h
  exact fun s hs => (hinv s hs).settled

/-! ### A call and a use, across files -/

/-- What the parser finds in `def f(): …`, in `f()` and in `f`: a function, a call and a use. -/
def functionF (rel : String) : ExtractedNode :=
  ⟨"Function", "f", rel ++ "::" ++ "Function::f", rel, 1, 1, Json.emptyObj⟩

def callOfF (rel : String) : ExtractedEdge where
  edgeType := "CALLS"
  sourceQualifiedName := rel ++ "::" ++ "__file__"
  targetQualifiedName := rel ++ "::" ++ "Function::f"
  filePath := rel
  line := 1
  properties := .obj [("callee_name", .str "f"), ("callee_text", .str "f")]

def useOfF (rel : String) : ExtractedEdge where
  edgeType := "USAGE"
  sourceQualifiedName := rel ++ "::" ++ "__file__"
  targetQualifiedName := rel ++ "::" ++ "__ref__::f"
  filePath := rel
  line := 1
  properties := .obj [("ref_name", .str "f")]

def pythonOnly : Env where
  sha256Hex := rustOnly.sha256Hex
  maxSize := 64
  languageForPath path :=
    if ".py".toList.isSuffixOf path.toList then ⟨"python", true⟩ else ⟨"unknown", false⟩
  parserExtract _ bytes rel :=
    if bytes.head? = some 100 then .ok ⟨[functionF rel], []⟩
    else if bytes.getLast? = some 41 then .ok ⟨[], [callOfF rel]⟩
    else .ok ⟨[], [useOfF rel]⟩
  providerValid _ _ _ := true

/-- A run over `a.py`, which defines `f`, and `b.py`, which refers to it. -/
def pythonStep (a b : String) (time : Int64) : IndexStep where
  run := ⟨diskOf [("/repos/p/a.py", a.toUTF8.toList), ("/repos/p/b.py", b.toUTF8.toList)] time,
    time.toInt.toNat, "t"⟩
  rootPath := "/repos/p"
  entries := [entryAt "a.py", entryAt "b.py"]

def pathOf (paths : List String) (q : String) : Option String :=
  paths.find? fun r => (r ++ "::").toList.isPrefixOf q.toList

theorem pathOf_under (x : String) : pathOf ["a.py", "b.py"] ("a.py" ++ "::" ++ x) = some "a.py" ∧
    pathOf ["a.py", "b.py"] ("b.py" ++ "::" ++ x) = some "b.py" := by
  unfold pathOf
  simp only [String.toList_append]
  exact ⟨rfl, rfl⟩

theorem naming_python :
    Naming pythonOnly (pathOf ["a.py", "b.py"]) "p" [entryAt "a.py", entryAt "b.py"] := by
  have hnamed : ∀ rel, (∀ x, pathOf ["a.py", "b.py"] (rel ++ "::" ++ x) = some rel) →
      ∀ lang bytes ext, pythonOnly.parserExtract lang bytes rel = .ok ext →
        Named (pathOf ["a.py", "b.py"]) rel ext.nodes ext.edges := by
    intro rel hunder lang bytes ext hext
    have hsome : ∀ x, (pathOf ["a.py", "b.py"] (rel ++ "::" ++ x)).isSome := by
      intro x
      rw [hunder]
      rfl
    simp only [pythonOnly] at hext
    split at hext
    · cases hext
      refine ⟨hunder, ?_, fun e he => (by cases he), fun e he => (by cases he)⟩
      intro n hn
      obtain rfl := List.mem_singleton.1 hn
      exact ⟨hunder _, by simp [functionF, nonDefLabels]⟩
    · split at hext
      all_goals
        cases hext
        refine ⟨hunder, fun n hn => (by cases hn), ?_, ?_⟩
        · intro e he
          obtain rfl := List.mem_singleton.1 he
          exact hunder _
        · intro e he
          obtain rfl := List.mem_singleton.1 he
          exact hsome _
  refine ⟨by decide, ?_, ?_⟩
  · intro e he
    simp only [List.mem_cons, List.not_mem_nil, or_false] at he
    rcases he with rfl | rfl
    · exact hnamed "a.py" fun x => (pathOf_under x).1
    · exact hnamed "b.py" fun x => (pathOf_under x).2
  · decide

/-- The function is edited; the call of it is resolved again. -/
theorem edges_settled_run_call :
    Settled "p" ([pythonStep "def f(): 1" "f()" 5, pythonStep "def f(): 2" "f()" 6].foldl
      (stepIndex pythonOnly "p") Store.empty) := by
  refine edges_settled_run pythonOnly (pathOf ["a.py", "b.py"]) "p"
    [pythonStep "def f(): 1" "f()" 5, pythonStep "def f(): 2" "f()" 6]
    ⟨⟨naming_python, ?_⟩, ⟨naming_python, ?_⟩, trivial⟩ _ ?_
  · decide +kernel
  · decide +kernel
  · simp only [List.scanl_cons, List.scanl_nil, List.foldl_cons, List.foldl_nil]
    exact List.mem_cons_of_mem _ (List.mem_cons_of_mem _ List.mem_cons_self)

/-- The function is edited; `b.py`, which uses it, is not. -/
def editedUse : Store :=
  [pythonStep "def f(): 1" "f" 5, pythonStep "def f(): 2" "f" 6].foldl (stepIndex pythonOnly "p")
    Store.empty

/-- **A use across files is lost** when the file with the definition is edited. -/
theorem usage_edge_lost : ¬ Settled "p" editedUse := by
  rintro ⟨g, hg, hsame⟩
  have hlost : editedUse.graph.edgeAt "p" "b.py::__file__" "a.py::Function::f" "USAGE" = none := by
    decide +kernel
  have hscratch : (reresolved "p" editedUse).toOption.map (fun g =>
      ((g.nodes.find? ("p", "b.py::__file__")).map fun n => n.label,
        g.edgeAt "p" "b.py::__file__" "a.py::Function::f" "USAGE")) =
      some (some "Module", some (.obj [("line", .int 1), ("ref_name", .str "f")])) := by
    decide +kernel
  rw [hg] at hscratch
  simp only [Except.toOption, Option.map_some, Option.some.injEq, Prod.mk.injEq] at hscratch
  obtain ⟨hlabel, hedge⟩ := hscratch
  obtain ⟨n, hn, hl⟩ := Option.map_eq_some_iff.1 hlabel
  obtain ⟨hmem, hkey⟩ := KeyedTable.find?_eq_some_iff.1 hn
  obtain ⟨hp, hq⟩ := Prod.ext_iff.1 hkey
  have hdef : IsDef g "p" n := ⟨hmem, hp, by rw [hl]; decide⟩
  have hin := mem_resolvedLinks.2 ⟨⟨n, hdef, hq⟩, hedge⟩
  rw [← hsame, mem_resolvedLinks, hlost] at hin
  cases hin.2

end Greppy
