/-
**What an index run makes of each file.**

An index run is two loops over files, and each turn of a loop is about one path: it writes rows under
that path, replaces the raw edges that path owns and the nodes that live there.  So the effect of a
run on a path is a function of that path's file and of what was stored under the path before, and the
rest of the tree does not matter.

Nodes are known as an upper bound only: a node is keyed by its qualified name, and another file's
extraction may write to the same one.
-/

import Greppy.EdgeEnds
import Greppy.Indexer
import Greppy.LocalUpdates

set_option autoImplicit false

namespace Greppy

/-! ### Rows under a path -/

/-- The rows of the per-file tables under a path. -/
@[ext] structure FileRows where
  state : Option FileState
  identity : Option FileIdentity
  skip : Option IndexSkip

/-- The rows under a path of a project. -/
def rowsAt (t : FileTables) (project r : String) : FileRows :=
  ⟨t.fileState.find? (project, r), t.identityOf project r, t.indexSkips.find? (project, r)⟩

namespace FileRows

/-- `file_state` and `file_identity` written. -/
def indexed (state : FileState) (identity : FileIdentity) (rows : FileRows) : FileRows :=
  { rows with state := some state, identity := some identity }

/-- `index_skips` written. -/
def skipped (skip : IndexSkip) (rows : FileRows) : FileRows := { rows with skip := some skip }

/-- The generation stamped on the rows that are there. -/
def stamped (generation : ℕ) (rows : FileRows) : FileRows where
  state := rows.state.map fun f => { f with lastIndexedGeneration := generation }
  identity := rows.identity
  skip := rows.skip.map fun s => { s with lastIndexedGeneration := generation }

def persisted (rows : FileRows) : Option PersistedStat :=
  rows.state.map fun f =>
    { sha256 := f.sha256, size := f.size, mtimeNs := f.mtimeNs
      ctimeNs := rows.identity.bind FileIdentity.ctimeNs
      fileId := rows.identity.bind FileIdentity.fileId }

def activeSkip (rows : FileRows) : Option IndexSkip :=
  if rows.state.isSome then none else rows.skip

end FileRows

theorem fileVerdict_eq_rows {disk : Disk} {sha256Hex : Bytes → String} {maxSize : UInt64}
    (t : FileTables) (project : String) (entry : InventoryEntry) :
    fileVerdict disk sha256Hex maxSize t project entry =
      entryDiff disk sha256Hex maxSize (rowsAt t project entry.relPath).persisted
        (rowsAt t project entry.relPath).activeSkip entry := rfl

section TableOps

variable (t : FileTables) (project : String)

theorem rowsAt_recordFileState (env : Env) (run : Run) (relPath absPath sha256 : String)
    (size : UInt64) (md : StableFileMetadata) (r : String) :
    rowsAt (recordFileState env run project relPath absPath sha256 size md t) project r =
      if relPath = r then (rowsAt t project r).indexed
        (stateRow env run project relPath absPath sha256 size md) ⟨md.ctimeNs, md.fileId⟩
      else rowsAt t project r := by
  unfold rowsAt recordFileState FileTables.upsertFileIdentity FileTables.upsertFileState
    FileTables.identityOf
  simp only [KeyedTable.find?_upsert]
  by_cases h : relPath = r
  · subst h
    simp [FileRows.indexed, FileState.key, FileIdentityRow.key, stateRow]
  · simp [FileState.key, FileIdentityRow.key, stateRow, h]

theorem rowsAt_recordIndexSkip (run : Run) (entry : InventoryEntry)
    (language reason detail r : String) :
    rowsAt (recordIndexSkip run project entry language reason detail t) project r =
      if entry.relPath = r then
        (rowsAt t project r).skipped (skipRow run project entry language reason detail)
      else rowsAt t project r := by
  unfold rowsAt recordIndexSkip FileTables.upsertIndexSkip FileTables.identityOf
  simp only [KeyedTable.find?_upsert]
  by_cases h : entry.relPath = r
  · subst h
    simp [FileRows.skipped, IndexSkip.key, skipRow]
  · simp [IndexSkip.key, skipRow, h]

private theorem find?_filter_key {α : Type} {key : α → String × String}
    (u : KeyedTable α key) (rel r : String) :
    (u.filter fun a => decide (key a ≠ (project, rel))).find? (project, r) =
      if rel = r then none else u.find? (project, r) := by
  rw [KeyedTable.find?_filter]
  cases h : u.find? (project, r) with
  | none => simp
  | some a =>
    have hk := KeyedTable.key_of_find? h
    by_cases hr : rel = r
    · subst hr
      simp [Option.filter, hk]
    · have hne : (project, r) ≠ (project, rel) := by
        intro heq
        exact hr (congrArg Prod.snd heq).symm
      simp [Option.filter, hk, hr, Ne.symm hr]

theorem rowsAt_deleteIndexSkip (rel r : String) :
    rowsAt (t.deleteIndexSkip project rel) project r =
      if rel = r then { rowsAt t project r with skip := none } else rowsAt t project r := by
  unfold rowsAt FileTables.deleteIndexSkip FileTables.identityOf
  rw [find?_filter_key]
  by_cases h : rel = r <;> simp [h]

theorem rowsAt_deleteFileState (rel r : String) :
    rowsAt (t.deleteFileState project rel) project r =
      if rel = r then { rowsAt t project r with state := none, identity := none }
      else rowsAt t project r := by
  unfold rowsAt FileTables.deleteFileState FileTables.identityOf
  simp only [find?_filter_key]
  by_cases h : rel = r <;> simp [h]

theorem rowsAt_bump (generation : ℕ) (r : String) :
    rowsAt (t.bumpFileAndSkipGenerations project generation) project r =
      (rowsAt t project r).stamped generation := by
  unfold rowsAt FileTables.bumpFileAndSkipGenerations FileRows.stamped FileTables.identityOf
  simp only [KeyedTable.find?_mapRows, FileRows.mk.injEq, true_and]
  constructor
  · cases h : t.fileState.find? (project, r) with
    | none => rfl
    | some f =>
      have hk : f.project = project := congrArg Prod.fst (KeyedTable.key_of_find? h)
      simp [hk]
  · cases h : t.indexSkips.find? (project, r) with
    | none => rfl
    | some f =>
      have hk : f.project = project := congrArg Prod.fst (KeyedTable.key_of_find? h)
      simp [hk]

end TableOps

theorem entryDiff_stamped {disk : Disk} {sha256Hex : Bytes → String} {maxSize : UInt64}
    (rows : FileRows) (generation : ℕ) (entry : InventoryEntry) :
    entryDiff disk sha256Hex maxSize (rows.stamped generation).persisted
        (rows.stamped generation).activeSkip entry =
      entryDiff disk sha256Hex maxSize rows.persisted rows.activeSkip entry := by
  have hpers : (rows.stamped generation).persisted = rows.persisted := by
    cases rows with
    | mk state identity skip => cases state <;> rfl
  have hskip : ∀ cur, (rows.stamped generation).activeSkip.any
      (fun s => skipIdentityMatches s cur maxSize) =
      rows.activeSkip.any fun s => skipIdentityMatches s cur maxSize := by
    intro cur
    cases rows with
    | mk state identity skip =>
      cases state with
      | some f => rfl
      | none => cases skip <;> rfl
  unfold entryDiff
  simp only [hpers, hskip]

/-! ### What is stored under a path -/

/-- The definition nodes that live in a file, without their ids. -/
def nodesAt (g : Graph) (project r : String) : Set NewNode :=
  {w | w.project = project ∧ w.filePath = r ∧ w.label ∉ nonDefLabels ∧
    ∃ n ∈ g.nodes.rows, n.toNewNode = w}

structure FileView where
  rows : FileRows
  raws : List RawEdge
  nodes : Set NewNode

def viewAt (project : String) (s : Store) (r : String) : FileView :=
  ⟨rowsAt s.files project r, s.rawEdgesOf project r, nodesAt s.graph project r⟩

namespace FileView

/-- The rows and raw edges are known exactly, the nodes up to a bound. -/
def Below (v w : FileView) : Prop := v.rows = w.rows ∧ v.raws = w.raws ∧ v.nodes ⊆ w.nodes

theorem Below.refl (v : FileView) : Below v v := ⟨rfl, rfl, fun _ h => h⟩

theorem Below.trans {u v w : FileView} (h : Below u v) (h' : Below v w) : Below u w :=
  ⟨h.1.trans h'.1, h.2.1.trans h'.2.1, fun _ hn => h'.2.2 (h.2.2 hn)⟩

def dropped (v : FileView) : FileView := { v with raws := [], nodes := ∅ }

def cleared : FileView := ⟨⟨none, none, none⟩, [], ∅⟩

end FileView

/-! ### What a turn makes of it -/

section Process

variable (env : Env) (run : Run) (project : String)

/-- `record_unsupported_file_state`, on the rows. -/
def unsupportedRows (entry : InventoryEntry) (rows : FileRows) : FileRows :=
  match run.disk.metadata entry.absPath with
  | .error _ => rows
  | .ok md =>
    if env.maxSize < md.size then
      rows.indexed (stateRow env run project entry.relPath entry.absPath oversizeSentinelSha
        md.size md) ⟨md.ctimeNs, md.fileId⟩
    else
      match readStableFile run.disk entry.absPath with
      | .error _ => rows
      | .ok (bytes, metadata) =>
        rows.indexed (stateRow env run project entry.relPath entry.absPath
          (env.sha256Hex bytes) (lenU64 bytes) metadata) ⟨metadata.ctimeNs, metadata.fileId⟩

/-- A file that is not extracted: the rows it gets. -/
def triageRows (entry : InventoryEntry) (rows : FileRows) : FileRows :=
  match triage env run.disk entry with
  | .unsupported lang =>
    (unsupportedRows env run project entry rows).skipped
      (skipRow run project entry lang.name "unsupported_language"
        "language provider is unsupported")
  | .oversize lang md =>
    rows.skipped (skipRow run project entry lang.name "oversize"
      s!"file size {md.size.toNat} exceeds cap {env.maxSize.toNat}")
  | .extract _ => rows

/-- An extracted file: the rows it gets. -/
def outcomeRows (rows : FileRows) : FileOutcome → FileRows
  | .extracted relPath absPath bytes metadata _ _ =>
    { rows.indexed (stateRow env run project relPath absPath (env.sha256Hex bytes)
        (lenU64 bytes) metadata) ⟨metadata.ctimeNs, metadata.fileId⟩ with skip := none }
  | .unreadable entry language reason detail =>
    rows.skipped (skipRow run project entry language.name reason detail)

def FileOutcome.relPath : FileOutcome → String
  | .extracted relPath _ _ _ _ _ => relPath
  | .unreadable entry _ _ _ => entry.relPath

/-- What the write loop makes of an outcome. -/
def outcomeView (outcome : FileOutcome) (v : FileView) : FileView where
  rows := outcomeRows env run project v.rows outcome
  raws := match outcome with
    | .extracted relPath _ _ _ _ edges => edges.map (newRawEdgeFor project relPath)
    | .unreadable _ _ _ _ => v.raws
  nodes := match outcome with
    | .extracted relPath _ _ _ nodes _ => {w | w ∈ fileNodes project relPath nodes}
    | .unreadable _ _ _ _ => v.nodes

/-- What an incremental run makes of a changed file that it does not extract. -/
def triageView (entry : InventoryEntry) (v : FileView) : FileView :=
  let rows := triageRows env run project entry v.rows
  match triage env run.disk entry with
  | .extract _ => { v with rows := rows }
  | _ => ({ v with rows := rows } : FileView).dropped

end Process

/-! ### The loops are local -/

section Loops

variable (env : Env) (run : Run) (project : String)

/-- The project the run works on is in the store. -/
def HasProject (project : String) (s : Store) : Prop := (s.graph.projects.find? project).isSome

theorem nodesAt_deleteNodesForFile (project : String) (g : Graph) (rel r : String) :
    nodesAt (g.deleteNodesForFile project rel) project r =
      if rel = r then ∅ else nodesAt g project r := by
  ext w
  have hmem : ∀ n, n ∈ (g.deleteNodesForFile project rel).nodes.rows ↔
      n ∈ g.nodes.rows ∧ ¬ (n.project = project ∧ n.filePath = rel) := by
    intro n
    rw [Graph.deleteNodesForFile, Graph.mem_nodes_deleteNodesWhere, decide_eq_false_iff_not]
  by_cases h : rel = r
  · rw [if_pos h]
    constructor
    · rintro ⟨hp, hf, _, n, hn, rfl⟩
      exact absurd ⟨hp, hf.trans h.symm⟩ ((hmem n).1 hn).2
    · intro hw
      exact hw.elim
  · rw [if_neg h]
    constructor
    · rintro ⟨hp, hf, hl, n, hn, rfl⟩
      exact ⟨hp, hf, hl, n, ((hmem n).1 hn).1, rfl⟩
    · rintro ⟨hp, hf, hl, n, hn, rfl⟩
      refine ⟨hp, hf, hl, n, (hmem n).2 ⟨hn, ?_⟩, rfl⟩
      rintro ⟨_, hrel⟩
      exact h (hrel.symm.trans hf)

theorem projects_deleteNodesForFile (g : Graph) (rel : String) :
    (g.deleteNodesForFile project rel).projects = g.projects :=
  Graph.projects_deleteNodesWhere _ g

theorem viewAt_dropGraphOf (s : Store) (rel r : String) :
    viewAt project (dropGraphOf project rel s) r =
      if rel = r then (viewAt project s r).dropped else viewAt project s r := by
  have hnodes := nodesAt_deleteNodesForFile project s.graph rel r
  have hraws := s.rawEdgesOf_delete project rel r
  unfold viewAt dropGraphOf
  by_cases h : rel = r
  · rw [if_pos h] at hnodes hraws ⊢
    exact congr (congrArg _ hraws) hnodes
  · rw [if_neg h] at hnodes hraws ⊢
    exact congr (congrArg _ hraws) hnodes

theorem viewAt_files (s : Store) (files : FileTables) (r : String) :
    viewAt project { s with files := files } r =
      { viewAt project s r with rows := rowsAt files project r } := rfl

theorem rowsAt_recordUnsupportedFileState (t : FileTables) (entry : InventoryEntry) (r : String) :
    rowsAt (recordUnsupportedFileState env run project entry t) project r =
      if entry.relPath = r then unsupportedRows env run project entry (rowsAt t project r)
      else rowsAt t project r := by
  unfold recordUnsupportedFileState unsupportedRows
  cases run.disk.metadata entry.absPath with
  | error e => exact (ite_self _).symm
  | ok md =>
    simp only
    by_cases hsize : env.maxSize < md.size
    · rw [if_pos hsize, if_pos hsize, rowsAt_recordFileState]
    · rw [if_neg hsize, if_neg hsize]
      cases readStableFile run.disk entry.absPath with
      | error e => exact (ite_self _).symm
      | ok p => exact rowsAt_recordFileState t project env run _ _ _ _ _ _

theorem viewAt_classifyFull (s : Store) (entry : InventoryEntry) (r : String) :
    viewAt project (classifyFull env run project s entry) r =
      if entry.relPath = r then
        { viewAt project s r with rows := triageRows env run project entry (viewAt project s r).rows }
      else viewAt project s r := by
  unfold classifyFull triageRows
  cases triage env run.disk entry with
  | unsupported lang =>
    simp only [skipUnsupported, viewAt_files, rowsAt_recordIndexSkip,
      rowsAt_recordUnsupportedFileState]
    by_cases h : entry.relPath = r
    · simp only [if_pos h]
      rfl
    · simp only [if_neg h]
      rfl
  | oversize lang md =>
    simp only [skipOversize, viewAt_files, rowsAt_recordIndexSkip]
    by_cases h : entry.relPath = r
    · simp only [if_pos h]
      rfl
    · simp only [if_neg h]
      rfl
  | extract lang => exact (ite_self _).symm

theorem viewAt_applyTriage (s : Store) (entry : InventoryEntry) (r : String) :
    viewAt project (applyTriage env run project s entry) r =
      if entry.relPath = r then triageView env run project entry (viewAt project s r)
      else viewAt project s r := by
  have hrows := viewAt_classifyFull env run project s entry r
  unfold applyTriage triageView
  unfold classifyFull at hrows
  cases htri : triage env run.disk entry with
  | unsupported lang =>
    rw [htri] at hrows
    simp only [viewAt_dropGraphOf, hrows]
    by_cases h : entry.relPath = r
    · simp only [if_pos h]
    · simp only [if_neg h]
  | oversize lang md =>
    rw [htri] at hrows
    simp only [viewAt_dropGraphOf, hrows]
    by_cases h : entry.relPath = r
    · simp only [if_pos h]
    · simp only [if_neg h]
  | extract lang =>
    rw [htri] at hrows
    exact hrows

/-- One turn of the diff loop, on what is stored under its path. -/
def diffView (entries : List InventoryEntry) (diff : FileDiff) (v : FileView) : FileView :=
  match diff with
  | .deleted _ => FileView.cleared
  | _ =>
    match changedEntry entries diff with
    | some entry => triageView env run project entry v
    | none => v

variable {entries : List InventoryEntry} {s : Store}

theorem relPath_of_entryOf {r : String} {e : InventoryEntry} (h : entryOf entries r = some e) :
    e ∈ entries ∧ e.relPath = r := mem_of_lastWrite h

theorem relPath_of_changedEntry {diff : FileDiff} {e : InventoryEntry}
    (h : changedEntry entries diff = some e) : e ∈ entries ∧ e.relPath = relOf diff := by
  cases diff with
  | added entry => exact relPath_of_entryOf h
  | modified entry old => exact relPath_of_entryOf h
  | deleted rel => cases h
  | unchanged => cases h

theorem viewAt_applyDiff (entries : List InventoryEntry) (s : Store) (diff : FileDiff)
    (r : String) :
    viewAt project (applyDiff env run project entries s diff) r =
      if relOf diff = r then diffView env run project entries diff (viewAt project s r)
      else viewAt project s r := by
  have hchanged : ∀ d, viewAt project (match changedEntry entries d with
      | some entry => applyTriage env run project s entry
      | none => s) r =
      if relOf d = r then (match changedEntry entries d with
        | some entry => triageView env run project entry (viewAt project s r)
        | none => viewAt project s r)
      else viewAt project s r := by
    intro d
    cases hc : changedEntry entries d with
    | some entry =>
      simp only [viewAt_applyTriage, (relPath_of_changedEntry hc).2]
    | none => exact (ite_self _).symm
  cases diff with
  | added entry => exact hchanged (.added entry)
  | modified entry old => exact hchanged (.modified entry old)
  | unchanged => exact hchanged .unchanged
  | deleted rel =>
    simp only [applyDiff, diffView, viewAt_dropGraphOf, viewAt_files, rowsAt_deleteIndexSkip,
      rowsAt_deleteFileState]
    by_cases h : rel = r
    · rw [if_pos (show relOf (.deleted rel) = r from h)]
      simp only [if_pos h]
      rfl
    · rw [if_neg (show ¬ relOf (.deleted rel) = r from h)]
      simp only [if_neg h]
      rfl

/-- Writing a file's nodes replaces what was there, and takes nothing to other files. -/
theorem nodesAt_wrote {rel : String} {ns : List NewNode} {g g' : Graph}
    (hns : ∀ n ∈ ns, n.project = project ∧ n.filePath = rel)
    (hw : Wrote ns (g.deleteNodesForFile project rel) g') (r : String) :
    nodesAt g' project r ⊆ if rel = r then {w | w ∈ ns} else nodesAt g project r := by
  rintro w ⟨hp, hf, hl, n, hn, rfl⟩
  have hold : (∃ m ∈ (g.deleteNodesForFile project rel).nodes.rows, m.toNewNode = n.toNewNode) →
      n.toNewNode ∈ nodesAt (g.deleteNodesForFile project rel) project r :=
    fun h => ⟨hp, hf, hl, h⟩
  rw [nodesAt_deleteNodesForFile] at hold
  by_cases h : rel = r
  · rw [if_pos h] at hold ⊢
    rcases hw.mem_or hn with hmem | hmem
    · exact hmem
    · exact (hold hmem).elim
  · rw [if_neg h] at hold ⊢
    rcases hw.mem_or hn with hmem | hmem
    · exact absurd ((hns _ hmem).2.symm.trans hf) h
    · exact hold hmem

theorem fileNodes_owned {relPath : String} {nodes : List ExtractedNode} :
    ∀ n ∈ fileNodes project relPath nodes, n.project = project ∧ n.filePath = relPath := by
  intro n hn
  obtain ⟨m, _, rfl⟩ := List.mem_map.1 hn
  exact ⟨rfl, rfl⟩

theorem applyFileNodes_ok (hs : HasProject project s) (relPath absPath : String) (bytes : Bytes)
    (metadata : StableFileMetadata) (nodes : List ExtractedNode) :
    ∃ g' ids, (s.graph.deleteNodesForFile project relPath).insertNodes
        (fileNodes project relPath nodes) = .ok (g', ids) ∧
      applyFileNodes env run project relPath absPath bytes metadata nodes s =
        ({ s with
            graph := g'
            files := recordFileState env run project relPath absPath (env.sha256Hex bytes)
              (lenU64 bytes) metadata s.files }, true) ∧
      Wrote (fileNodes project relPath nodes) (s.graph.deleteNodesForFile project relPath) g' := by
  have hp : ∀ n ∈ fileNodes project relPath nodes,
      ((s.graph.deleteNodesForFile project relPath).projects.find? n.project).isSome := by
    intro n hn
    rw [projects_deleteNodesForFile, (fileNodes_owned project n hn).1]
    exact hs
  obtain ⟨g', ids, h, hw⟩ := exists_insertNodes hp
  refine ⟨g', ids, h, ?_, hw⟩
  simp only [applyFileNodes, h]

theorem hasProject_applyOutcome (hs : HasProject project s) (outcome : FileOutcome) :
    HasProject project (applyOutcome env run project s outcome) := by
  cases outcome with
  | unreadable entry language reason detail => exact hs
  | extracted relPath absPath bytes metadata nodes edges =>
    obtain ⟨g', _, _, h, hw⟩ := applyFileNodes_ok env run project hs relPath absPath bytes metadata nodes
    simp only [applyOutcome, h]
    have hproj := hw.projects_eq
    rw [projects_deleteNodesForFile] at hproj
    have hs' : HasProject project { s with graph := g' } := by
      unfold HasProject
      rw [hproj]
      exact hs
    exact hs'

theorem rawEdgesOf_persist (s : Store) (rel : String) (edges : List ExtractedEdge) (f : String) :
    (persistRawEdgesForFile project rel edges s).rawEdgesOf project f =
      if rel = f then edges.map (newRawEdgeFor project rel) else s.rawEdgesOf project f := by
  have howned : ∀ e ∈ edges.map (newRawEdgeFor project rel),
      e.project = project ∧ e.filePath = rel := by
    intro e he
    obtain ⟨x, _, rfl⟩ := List.mem_map.1 he
    exact ⟨rfl, rfl⟩
  rw [persistRawEdgesForFile, Store.rawEdgesOf_insert howned, Store.rawEdgesOf_delete]
  by_cases h : rel = f
  · simp only [if_pos h, List.nil_append]
  · simp only [if_neg h, List.append_nil]

theorem viewAt_applyOutcome (hs : HasProject project s) (outcome : FileOutcome) (r : String) :
    FileView.Below (viewAt project (applyOutcome env run project s outcome) r)
      (if outcome.relPath = r then outcomeView env run project outcome (viewAt project s r)
        else viewAt project s r) := by
  cases outcome with
  | unreadable entry language reason detail =>
    have hrows := rowsAt_recordIndexSkip s.files project run entry language.name reason detail r
    by_cases h : entry.relPath = r
    · rw [if_pos (show FileOutcome.relPath (.unreadable entry language reason detail) = r from h)]
      rw [if_pos h] at hrows
      exact ⟨hrows, rfl, fun _ hw => hw⟩
    · rw [if_neg (show ¬ FileOutcome.relPath (.unreadable entry language reason detail) = r from h)]
      rw [if_neg h] at hrows
      exact ⟨hrows, rfl, fun _ hw => hw⟩
  | extracted relPath absPath bytes metadata nodes edges =>
    obtain ⟨g', _, _, hok, hw⟩ :=
      applyFileNodes_ok env run project hs relPath absPath bytes metadata nodes
    have hnodes := nodesAt_wrote project (fileNodes_owned project) hw r
    have hraws := fun t => rawEdgesOf_persist project t relPath edges r
    have hrows := rowsAt_deleteIndexSkip (recordFileState env run project relPath absPath
      (env.sha256Hex bytes) (lenU64 bytes) metadata s.files) project relPath r
    rw [rowsAt_recordFileState] at hrows
    simp only [applyOutcome, hok]
    by_cases h : relPath = r
    · rw [if_pos (show FileOutcome.relPath
        (.extracted relPath absPath bytes metadata nodes edges) = r from h)]
      simp only [if_pos h] at hrows hraws hnodes
      exact ⟨hrows, hraws _, hnodes⟩
    · rw [if_neg (show ¬ FileOutcome.relPath
        (.extracted relPath absPath bytes metadata nodes edges) = r from h)]
      simp only [if_neg h] at hrows hraws hnodes
      exact ⟨hrows, hraws _, hnodes⟩

/-! ### What a whole loop leaves -/

theorem Below.outcomeView {v w : FileView} (outcome : FileOutcome) (h : FileView.Below v w) :
    FileView.Below (outcomeView env run project outcome v)
      (outcomeView env run project outcome w) := by
  obtain ⟨hrows, hraws, hnodes⟩ := h
  unfold Greppy.outcomeView
  rw [hrows, hraws]
  cases outcome with
  | extracted relPath absPath bytes metadata nodes edges => exact FileView.Below.refl _
  | unreadable entry language reason detail => exact ⟨rfl, rfl, hnodes⟩

theorem local_classifyFull :
    Local Eq (fun _ => True) (viewAt project) (classifyFull env run project)
      InventoryEntry.relPath
      fun entry v => { v with rows := triageRows env run project entry v.rows } where
  refl _ := rfl
  trans := Eq.trans
  mono _ _ _ h := by rw [h]
  good_apply _ _ := trivial
  view_apply entry r _ := viewAt_classifyFull env run project _ entry r

theorem local_applyDiff (entries : List InventoryEntry) :
    Local Eq (fun _ => True) (viewAt project) (applyDiff env run project entries) relOf
      (diffView env run project entries) where
  refl _ := rfl
  trans := Eq.trans
  mono _ _ _ h := congrArg _ h
  good_apply _ _ := trivial
  view_apply diff r _ := viewAt_applyDiff env run project entries _ diff r

theorem local_applyOutcome :
    Local FileView.Below (HasProject project) (viewAt project) (applyOutcome env run project)
      FileOutcome.relPath (outcomeView env run project) where
  refl := FileView.Below.refl
  trans := FileView.Below.trans
  mono outcome _ _ h := Below.outcomeView env run project outcome h
  good_apply outcome hs := hasProject_applyOutcome env run project hs outcome
  view_apply outcome r hs := viewAt_applyOutcome env run project hs outcome r

theorem relPath_extractOne (disk : Disk) (entry : InventoryEntry) (lang : Language) :
    (extractOne env disk entry lang).relPath = entry.relPath := by
  unfold extractOne
  cases readStableFile disk entry.absPath with
  | error e => rfl
  | ok p =>
    simp only
    cases env.parserExtract lang p.1 entry.relPath with
    | error e => rfl
    | ok extraction =>
      simp only
      split <;> rfl

private theorem filterMap_keys_sublist {α β : Type} {f : α → Option β} {key : α → String}
    {key' : β → String} (hf : ∀ a b, f a = some b → key' b = key a) (l : List α) :
    ((l.filterMap f).map key').Sublist (l.map key) := by
  induction l with
  | nil => exact List.Sublist.refl _
  | cons a l ih =>
    cases h : f a with
    | none =>
      rw [List.filterMap_cons_none h]
      exact ih.cons _
    | some b =>
      rw [List.filterMap_cons_some h, List.map_cons, List.map_cons, hf a b h]
      exact ih.cons_cons _

/-- The extraction phase over the files selected from a list with distinct paths. -/
def extractions (entries : List InventoryEntry) : List FileOutcome :=
  (entries.filterMap (toExtract env run.disk)).map fun p => extractOne env run.disk p.1 p.2

theorem toExtract_fst {entry : InventoryEntry} {p : InventoryEntry × Language} {disk : Disk}
    (h : toExtract env disk entry = some p) : p.1 = entry := by
  unfold toExtract at h
  cases htri : triage env disk entry with
  | unsupported lang => simp [htri] at h
  | oversize lang md => simp [htri] at h
  | extract lang =>
    simp only [htri, Option.some.injEq] at h
    rw [← h]

theorem extractions_sublist (entries : List InventoryEntry) :
    ((extractions env run entries).map FileOutcome.relPath).Sublist
      (entries.map InventoryEntry.relPath) := by
  unfold extractions
  rw [List.map_map]
  refine filterMap_keys_sublist ?_ entries
  intro entry p hp
  rw [Function.comp_apply, relPath_extractOne, toExtract_fst env hp]

/-- What the extraction phase makes of a file. -/
def extractView (entry : InventoryEntry) (v : FileView) : FileView :=
  match toExtract env run.disk entry with
  | some p => outcomeView env run project (extractOne env run.disk p.1 p.2) v
  | none => v

theorem viewAt_extractions (hdistinct : (entries.map InventoryEntry.relPath).Nodup)
    (hs : HasProject project s) :
    (∀ e ∈ entries, FileView.Below
      (viewAt project ((extractions env run entries).foldl (applyOutcome env run project) s)
        e.relPath)
      (extractView env run project e (viewAt project s e.relPath))) ∧
    (∀ r, r ∉ entries.map InventoryEntry.relPath → FileView.Below
      (viewAt project ((extractions env run entries).foldl (applyOutcome env run project) s) r)
      (viewAt project s r)) := by
  have hsub := extractions_sublist env run entries
  have hlocal := local_applyOutcome env run project
  constructor
  · intro e he
    unfold extractView
    cases hex : toExtract env run.disk e with
    | some p =>
      have hmem : extractOne env run.disk p.1 p.2 ∈ extractions env run entries :=
        List.mem_map.2 ⟨p, List.mem_filterMap.2 ⟨e, he, hex⟩, rfl⟩
      have hview := hlocal.view_foldl (hdistinct.sublist hsub) hmem hs
      rw [relPath_extractOne] at hview
      rw [← toExtract_fst env hex]
      exact hview
    | none =>
      -- another outcome of this path would come from another entry of it
      refine hlocal.view_foldl_of_not_mem ?_ hs
      intro hmem
      obtain ⟨o, ho, hrel⟩ := List.mem_map.1 hmem
      obtain ⟨p, hp, rfl⟩ := List.mem_map.1 ho
      obtain ⟨d, hd, hdp⟩ := List.mem_filterMap.1 hp
      rw [relPath_extractOne, toExtract_fst env hdp] at hrel
      rw [List.inj_on_of_nodup_map hdistinct hd he hrel, hex] at hdp
      cases hdp
  · intro r hr
    exact hlocal.view_foldl_of_not_mem (fun hmem => hr (hsub.subset hmem)) hs

end Loops

/-! ### The full run -/

section Runs

variable (env : Env) (run : Run) (project : String)

def fullView (entry : InventoryEntry) (v : FileView) : FileView :=
  extractView env run project entry
    { v with rows := triageRows env run project entry v.rows }

theorem hasProject_classifyFull (entries : List InventoryEntry) {s : Store}
    (hs : HasProject project s) :
    HasProject project (entries.foldl (classifyFull env run project) s) := by
  induction entries generalizing s with
  | nil => exact hs
  | cons e entries ih =>
    refine ih ?_
    unfold classifyFull
    cases triage env run.disk e <;> exact hs

/-- What a full run leaves: `s'` after it, `s` before. -/
structure Refilled (entries : List InventoryEntry) (s s' : Store) : Prop where
  hasProject : HasProject project s'
  files : ∀ e ∈ entries, FileView.Below (viewAt project s' e.relPath)
    (fullView env run project e (viewAt project s e.relPath))
  others : ∀ r, r ∉ entries.map InventoryEntry.relPath →
    FileView.Below (viewAt project s' r) (viewAt project s r)

/-- **A full run processes every file**, and leaves other paths alone. -/
theorem runFull_spec {entries : List InventoryEntry} {s : Store}
    (hdistinct : (entries.map InventoryEntry.relPath).Nodup) (hs : HasProject project s) :
    Refilled env run project entries s (runFull env run project entries s) := by
  have hclassify := local_classifyFull env run project
  have hs₁ := hasProject_classifyFull env run project entries hs
  obtain ⟨hin, hout⟩ := viewAt_extractions env run project hdistinct hs₁
  refine ⟨(local_applyOutcome env run project).good_foldl _ hs₁, ?_, ?_⟩
  · intro e he
    have h := hin e he
    rw [hclassify.view_foldl hdistinct he trivial] at h
    exact h
  · intro r hr
    have h := hout r hr
    rw [hclassify.view_foldl_of_not_mem hr trivial] at h
    exact h

/-! ### The incremental run -/

/-- What an incremental run makes of a file whose verdict is not unchanged. -/
def changedView (entry : InventoryEntry) (v : FileView) : FileView :=
  extractView env run project entry (triageView env run project entry v)

def FileView.stamped (generation : ℕ) (v : FileView) : FileView :=
  { v with rows := v.rows.stamped generation }

theorem Below.stamped {v w : FileView} (generation : ℕ) (h : FileView.Below v w) :
    FileView.Below (v.stamped generation) (w.stamped generation) :=
  ⟨congrArg (FileRows.stamped generation) h.1, h.2.1, h.2.2⟩

theorem hasProject_applyDiff (entries : List InventoryEntry) (diffs : List FileDiff) {s : Store}
    (hs : HasProject project s) :
    HasProject project (diffs.foldl (applyDiff env run project entries) s) := by
  have hdrop : ∀ rel {s : Store}, HasProject project s →
      HasProject project (dropGraphOf project rel s) := by
    intro rel s hs
    have hproj := projects_deleteNodesForFile project s.graph rel
    unfold HasProject dropGraphOf Store.deleteRawEdgesForFile
    rw [hproj]
    exact hs
  have htriage : ∀ e {s : Store}, HasProject project s →
      HasProject project (applyTriage env run project s e) := by
    intro e s hs
    unfold applyTriage
    cases triage env run.disk e with
    | unsupported lang => exact hdrop e.relPath (s := { s with files := _ }) hs
    | oversize lang md => exact hdrop e.relPath (s := { s with files := _ }) hs
    | extract lang => exact hs
  have hturn : ∀ d {s : Store}, HasProject project s →
      HasProject project (applyDiff env run project entries s d) := by
    intro d s hs
    have hchanged : HasProject project (match changedEntry entries d with
        | some entry => applyTriage env run project s entry
        | none => s) := by
      cases changedEntry entries d with
      | some e => exact htriage e hs
      | none => exact hs
    cases d with
    | deleted rel => exact hdrop rel (s := { s with files := _ }) hs
    | added e => exact hchanged
    | modified e old => exact hchanged
    | unchanged => exact hs
  induction diffs generalizing s with
  | nil => exact hs
  | cons d diffs ih => exact ih (hturn d hs)

/-- A diff laid out as `computeFileDiff` does: a verdict on each file of the inventory, and the paths
that are gone. -/
structure Laid (entries : List InventoryEntry) (verdict : InventoryEntry → FileDiff)
    (gone : List String) (diffs : List FileDiff) : Prop where
  perm : diffs.Perm (entries.map verdict ++ gone.map .deleted)
  own : ∀ e ∈ entries, verdict e = .added e ∨ (∃ old, verdict e = .modified e old) ∨
    verdict e = .unchanged
  distinct : (entries.map InventoryEntry.relPath).Nodup
  gone_nodup : gone.Nodup
  gone_out : ∀ r ∈ gone, r ∉ entries.map InventoryEntry.relPath

namespace Laid

variable {entries : List InventoryEntry} {verdict : InventoryEntry → FileDiff}
  {gone : List String} {diffs : List FileDiff}

variable {e : InventoryEntry}

theorem relOf_verdict (h : Laid entries verdict gone diffs) (he : e ∈ entries)
    (hd : verdict e ≠ .unchanged) : relOf (verdict e) = e.relPath := by
  rcases h.own e he with heq | ⟨old, heq⟩ | heq
  · rw [heq]
    rfl
  · rw [heq]
    rfl
  · exact absurd heq hd

theorem changedEntry_verdict (h : Laid entries verdict gone diffs) (he : e ∈ entries)
    (hd : verdict e ≠ .unchanged) : changedEntry entries (verdict e) = some e := by
  have hentry : entryOf entries e.relPath = some e := lastWrite_of_nodup h.distinct he
  rcases h.own e he with heq | ⟨old, heq⟩ | heq
  · rw [heq]
    exact hentry
  · rw [heq]
    exact hentry
  · exact absurd heq hd

def live (diffs : List FileDiff) : List FileDiff := diffs.filter fun d => decide (d ≠ .unchanged)

theorem mem_live (h : Laid entries verdict gone diffs) {d : FileDiff} :
    d ∈ live diffs ↔ (∃ e ∈ entries, verdict e = d ∧ d ≠ .unchanged) ∨ ∃ r ∈ gone, .deleted r = d := by
  rw [live, List.mem_filter, h.perm.mem_iff, List.mem_append, List.mem_map, List.mem_map,
    decide_eq_true_eq]
  constructor
  · rintro ⟨⟨e, he, rfl⟩ | ⟨r, hr, rfl⟩, hd⟩
    · exact Or.inl ⟨e, he, rfl, hd⟩
    · exact Or.inr ⟨r, hr, rfl⟩
  · rintro (⟨e, he, rfl, hd⟩ | ⟨r, hr, rfl⟩)
    · exact ⟨Or.inl ⟨e, he, rfl⟩, hd⟩
    · exact ⟨Or.inr ⟨r, hr, rfl⟩, fun h => by cases h⟩

theorem live_nodup (h : Laid entries verdict gone diffs) : ((live diffs).map relOf).Nodup := by
  have hperm : ((live diffs).map relOf).Perm
      (((entries.map verdict).filter fun d => decide (d ≠ .unchanged)).map relOf ++ gone) := by
    have hgone : ((gone.map FileDiff.deleted).filter fun d => decide (d ≠ .unchanged)).map relOf =
        gone := by
      rw [List.filter_eq_self.2, List.map_map]
      · exact List.map_id gone
      · intro d hd
        obtain ⟨r, _, rfl⟩ := List.mem_map.1 hd
        rfl
    have hmap := (h.perm.filter fun d => decide (d ≠ .unchanged)).map relOf
    rw [List.filter_append, List.map_append, hgone] at hmap
    exact hmap
  have hfiles : ((entries.map verdict).filter fun d => decide (d ≠ .unchanged)).map relOf =
      (entries.filter fun e => decide (verdict e ≠ .unchanged)).map InventoryEntry.relPath := by
    rw [List.filter_map, List.map_map]
    refine List.map_congr_left fun e he => ?_
    obtain ⟨he, hd⟩ := List.mem_filter.1 he
    exact h.relOf_verdict he (of_decide_eq_true hd)
  have hsub := (List.filter_sublist (l := entries)
    (p := fun e => decide (verdict e ≠ .unchanged))).map InventoryEntry.relPath
  rw [hperm.nodup_iff, hfiles]
  refine List.nodup_append.2 ⟨h.distinct.sublist hsub, h.gone_nodup, ?_⟩
  rintro r hr r' hr' rfl
  exact h.gone_out r hr' (hsub.subset hr)

theorem foldl_live (diffs : List FileDiff) (s : Store) :
    diffs.foldl (applyDiff env run project entries) s =
      (live diffs).foldl (applyDiff env run project entries) s := by
  induction diffs generalizing s with
  | nil => rfl
  | cons d diffs ih =>
    cases d with
    | unchanged => exact ih s
    | added e => exact ih _
    | modified e old => exact ih _
    | deleted r => exact ih _

theorem mem_changedEntries (h : Laid entries verdict gone diffs) :
    e ∈ diffs.filterMap (changedEntry entries) ↔ e ∈ entries ∧ verdict e ≠ .unchanged := by
  rw [List.mem_filterMap]
  constructor
  · rintro ⟨d, hd, hc⟩
    have hlive : d ∈ live diffs := by
      refine List.mem_filter.2 ⟨hd, decide_eq_true ?_⟩
      rintro rfl
      cases hc
    rcases h.mem_live.1 hlive with ⟨e', he', rfl, hne⟩ | ⟨r, _, rfl⟩
    · rw [h.changedEntry_verdict he' hne, Option.some.injEq] at hc
      subst hc
      exact ⟨he', hne⟩
    · cases hc
  · rintro ⟨he, hne⟩
    refine ⟨verdict e, ?_, h.changedEntry_verdict he hne⟩
    exact (List.mem_filter.1 (h.mem_live.2 (Or.inl ⟨e, he, rfl, hne⟩))).1

theorem changedEntries_nodup (h : Laid entries verdict gone diffs) :
    ((diffs.filterMap (changedEntry entries)).map InventoryEntry.relPath).Nodup := by
  have hlive : diffs.filterMap (changedEntry entries) =
      (live diffs).filterMap (changedEntry entries) := by
    rw [live, List.filterMap_filter]
    congr 1
    funext d
    cases d <;> rfl
  rw [hlive]
  refine h.live_nodup.sublist (filterMap_keys_sublist ?_ _)
  exact fun d e hc => (relPath_of_changedEntry hc).2

theorem mem_changedFiles (h : Laid entries verdict gone diffs) {r : String} :
    r ∈ diffs.filterMap changedFileOf ↔
      (∃ e ∈ entries, e.relPath = r ∧ verdict e ≠ .unchanged) ∨ r ∈ gone := by
  have hof : ∀ d, changedFileOf d = some r ↔ d ≠ .unchanged ∧ relOf d = r := by
    intro d
    cases d <;> simp [changedFileOf, relOf]
  have hlive : r ∈ diffs.filterMap changedFileOf ↔ ∃ d ∈ live diffs, relOf d = r := by
    simp only [List.mem_filterMap, hof, live, List.mem_filter, decide_eq_true_eq, and_assoc]
  rw [hlive]
  constructor
  · rintro ⟨d, hd, rfl⟩
    rcases h.mem_live.1 hd with ⟨e, he, rfl, hne⟩ | ⟨r, hr, rfl⟩
    · exact Or.inl ⟨e, he, (h.relOf_verdict he hne).symm, hne⟩
    · exact Or.inr hr
  · rintro (⟨e, he, rfl, hne⟩ | hr)
    · exact ⟨verdict e, h.mem_live.2 (Or.inl ⟨e, he, rfl, hne⟩), h.relOf_verdict he hne⟩
    · exact ⟨.deleted r, h.mem_live.2 (Or.inr ⟨r, hr, rfl⟩), rfl⟩

theorem viewAt_file (h : Laid entries verdict gone diffs) (s : Store) (he : e ∈ entries) :
    viewAt project (diffs.foldl (applyDiff env run project entries) s) e.relPath =
      if verdict e = .unchanged then viewAt project s e.relPath
      else triageView env run project e (viewAt project s e.relPath) := by
  have hlocal := local_applyDiff env run project entries
  rw [foldl_live env run project diffs s]
  by_cases hd : verdict e = .unchanged
  · rw [if_pos hd]
    refine hlocal.view_foldl_of_not_mem ?_ trivial
    intro hmem
    obtain ⟨d, hlive, hrel⟩ := List.mem_map.1 hmem
    rcases h.mem_live.1 hlive with ⟨e', he', rfl, hne⟩ | ⟨r, hr, rfl⟩
    · rw [h.relOf_verdict he' hne] at hrel
      rw [List.inj_on_of_nodup_map h.distinct he' he hrel] at hne
      exact hne hd
    · have hr' : r = e.relPath := hrel
      exact h.gone_out r hr (hr' ▸ List.mem_map_of_mem he)
  · rw [if_neg hd]
    have hview := hlocal.view_foldl h.live_nodup (h.mem_live.2 (Or.inl ⟨e, he, rfl, hd⟩))
      (s := s) trivial
    rw [h.relOf_verdict he hd] at hview
    rw [hview]
    have hc := h.changedEntry_verdict he hd
    rcases h.own e he with heq | ⟨old, heq⟩ | heq
    · simp only [heq] at hc ⊢
      simp only [diffView, hc]
    · simp only [heq] at hc ⊢
      simp only [diffView, hc]
    · exact absurd heq hd

theorem viewAt_other (h : Laid entries verdict gone diffs) (s : Store) {r : String}
    (hr : r ∉ entries.map InventoryEntry.relPath) :
    viewAt project (diffs.foldl (applyDiff env run project entries) s) r =
      if r ∈ gone then FileView.cleared else viewAt project s r := by
  have hlocal := local_applyDiff env run project entries
  rw [foldl_live env run project diffs s]
  by_cases hg : r ∈ gone
  · rw [if_pos hg]
    exact hlocal.view_foldl h.live_nodup (h.mem_live.2 (Or.inr ⟨r, hg, rfl⟩)) trivial
  · rw [if_neg hg]
    refine hlocal.view_foldl_of_not_mem ?_ trivial
    intro hmem
    obtain ⟨d, hlive, hrel⟩ := List.mem_map.1 hmem
    rcases h.mem_live.1 hlive with ⟨e, he, rfl, hne⟩ | ⟨r', hr', rfl⟩
    · rw [h.relOf_verdict he hne] at hrel
      exact hr (hrel ▸ List.mem_map_of_mem he)
    · exact hg (hrel ▸ hr')

end Laid

variable {entries : List InventoryEntry} {s s' : Store}

theorem laid_of_computeFileDiff {disk : Disk} {sha256Hex : Bytes → String} {maxSize : UInt64}
    {t : FileTables} {diffs : List FileDiff}
    (hdistinct : (entries.map InventoryEntry.relPath).Nodup)
    (hdiff : computeFileDiff disk sha256Hex maxSize t project entries = .ok diffs) :
    Laid entries (verdictOf disk sha256Hex maxSize t project) (gonePaths t project entries)
      diffs := by
  obtain ⟨hall, hsorted⟩ := (computeFileDiff_ok_iff hdistinct).1 hdiff
  refine ⟨hsorted ▸ List.perm_insertionSort _ _, ?_, hdistinct,
    gonePaths_nodup t project entries, fun r hr => (mem_gonePaths.1 hr).2⟩
  intro e he
  obtain ⟨d, hd⟩ := hall e he
  rw [verdictOf_eq hd]
  rcases fileVerdict_sound hd with heq | heq | ⟨heq, _⟩
  · exact Or.inl heq
  · exact Or.inr (Or.inl heq)
  · exact Or.inr (Or.inr heq)

/-- What an incremental run leaves: `s'` after it, `s` before. -/
structure Incremented (entries : List InventoryEntry) (s s' : Store) (changedFiles : List String) :
    Prop where
  hasProject : HasProject project s'
  /-- A file is processed unless its verdict is unchanged. -/
  files : ∀ e ∈ entries, ∃ d,
    fileVerdict run.disk env.sha256Hex env.maxSize s.files project e = .ok d ∧
      FileView.Below (viewAt project s' e.relPath)
        ((if d = .unchanged then viewAt project s e.relPath
          else changedView env run project e (viewAt project s e.relPath)).stamped run.generation)
  /-- Rows under a path outside the inventory go, and with them all else that is there. -/
  others : ∀ r, r ∉ entries.map InventoryEntry.relPath →
    FileView.Below (viewAt project s' r)
      (if r ∈ gonePaths s.files project entries then FileView.cleared else viewAt project s r)
  changed : ∀ r, r ∈ changedFiles ↔
    (∃ e ∈ entries, e.relPath = r ∧
      fileVerdict run.disk env.sha256Hex env.maxSize s.files project e ≠ .ok .unchanged) ∨
    r ∈ gonePaths s.files project entries

/-- **An incremental run processes the files whose verdict is not unchanged, clears what is gone and
leaves the rest.** -/
theorem runIncremental_spec {changedFiles : List String}
    (hdistinct : (entries.map InventoryEntry.relPath).Nodup) (hs : HasProject project s)
    (h : runIncremental env run project entries s = .ok (s', changedFiles)) :
    Incremented env run project entries s s' changedFiles := by
  simp only [runIncremental, bind, Except.bind, pure, Except.pure] at h
  cases hdiff : computeFileDiff run.disk env.sha256Hex env.maxSize s.files project entries with
  | error e => simp [hdiff] at h
  | ok diffs =>
    simp only [hdiff, Except.ok.injEq, Prod.mk.injEq] at h
    obtain ⟨rfl, rfl⟩ := h
    obtain ⟨hall, _⟩ := (computeFileDiff_ok_iff hdistinct).1 hdiff
    have hlaid := laid_of_computeFileDiff project hdistinct hdiff
    have hs₁ := hasProject_applyDiff env run project entries diffs hs
    obtain ⟨hin, hout⟩ := viewAt_extractions env run project hlaid.changedEntries_nodup hs₁
    have hstamp : ∀ (t : Store) r, viewAt project
        { t with files := t.files.bumpFileAndSkipGenerations project run.generation } r =
          (viewAt project t r).stamped run.generation := by
      intro t r
      rw [viewAt_files, rowsAt_bump]
      rfl
    refine ⟨(local_applyOutcome env run project).good_foldl _ hs₁, ?_, ?_, ?_⟩
    · intro e he
      obtain ⟨d, hd⟩ := hall e he
      refine ⟨d, hd, ?_⟩
      rw [hstamp]
      refine Below.stamped _ ?_
      have hfile := hlaid.viewAt_file env run project s he
      rw [verdictOf_eq hd] at hfile
      by_cases hne : d = .unchanged
      · rw [if_pos hne] at hfile ⊢
        rw [← hfile]
        refine hout e.relPath ?_
        intro hmem
        obtain ⟨e', he', hrel⟩ := List.mem_map.1 hmem
        obtain ⟨he', hne'⟩ := hlaid.mem_changedEntries.1 he'
        rw [List.inj_on_of_nodup_map hdistinct he' he hrel, verdictOf_eq hd] at hne'
        exact hne' hne
      · rw [if_neg hne] at hfile ⊢
        unfold changedView
        rw [← hfile]
        exact hin e (hlaid.mem_changedEntries.2 ⟨he, by rwa [verdictOf_eq hd]⟩)
    · intro r hr
      have hother := hlaid.viewAt_other env run project s hr
      have hnot : r ∉ (diffs.filterMap (changedEntry entries)).map InventoryEntry.relPath := by
        intro hmem
        obtain ⟨e, he, rfl⟩ := List.mem_map.1 hmem
        exact hr (List.mem_map_of_mem (hlaid.mem_changedEntries.1 he).1)
      have hview := Below.stamped run.generation (hout r hnot)
      rw [hother] at hview
      rw [hstamp]
      refine hview.trans ?_
      by_cases hg : r ∈ gonePaths s.files project entries
      · rw [if_pos hg]
        exact FileView.Below.refl _
      · -- there is no row to stamp
        rw [if_neg hg]
        have hnone := mt mem_gonePaths.2 hg
        simp only [not_and, not_not, or_imp] at hnone
        refine ⟨?_, rfl, fun _ hw => hw⟩
        refine FileRows.ext ?_ rfl ?_
        · cases hstate : s.files.fileState.find? (project, r) with
          | none => simp [viewAt, rowsAt, FileView.stamped, FileRows.stamped, hstate]
          | some f => exact absurd (hnone.1 (by rw [hstate]; rfl)) hr
        · cases hskip : s.files.indexSkips.find? (project, r) with
          | none => simp [viewAt, rowsAt, FileView.stamped, FileRows.stamped, hskip]
          | some f => exact absurd (hnone.2 (by rw [hskip]; rfl)) hr
    · intro r
      rw [hlaid.mem_changedFiles]
      refine or_congr (exists_congr fun e => and_congr_right fun he => ?_) Iff.rfl
      obtain ⟨d, hd⟩ := hall e he
      rw [verdictOf_eq hd, hd, ne_eq, ne_eq, Except.ok.injEq]

/-! ### The whole run -/

theorem nodesAt_built {g g' : Graph} (h : Built project entries g g') (r : String) :
    nodesAt g' project r ⊆ nodesAt g project r := by
  rintro w ⟨hp, hf, hl, n, hn, rfl⟩
  refine ⟨hp, hf, hl, ?_⟩
  have hcol := h.columns n.key
  rw [KeyedTable.find?_of_mem hn, Option.map_some] at hcol
  cases hlast : lastWrite NewNode.key (spineNodes project entries) n.key with
  | some w =>
    rw [hlast, Option.some_or, Option.some.injEq] at hcol
    have hw := (mem_of_lastWrite hlast).1
    rw [← hcol] at hw
    exact absurd (label_of_mem_spineNodes hw) hl
  | none =>
    rw [hlast, Option.none_or] at hcol
    obtain ⟨m, hm, hmn⟩ := Option.map_eq_some_iff.1 (Option.filter_eq_some_iff.1 hcol.symm).1
    exact ⟨m, KeyedTable.mem_of_find? hm, hmn⟩

/-- The last phases of a run succeed, and take no definition anywhere. -/
theorem finishRun_ok (entries : List InventoryEntry) (hs : HasProject project s) :
    ∃ g', finishRun project entries s = .ok { s with graph := g' } ∧
      HasProject project { s with graph := g' } ∧
      ∀ r, nodesAt g' project r ⊆ nodesAt s.graph project r := by
  obtain ⟨g₁, hbuild, hproj, hbuilt⟩ := buildStructural_spec entries hs
  have hp₁ : (g₁.projects.find? project).isSome := by
    rw [hproj]
    exact hs
  obtain ⟨g₂, himports, hw⟩ := resolveFileImports_ok hp₁ (loadAllRawEdges s project)
  refine ⟨g₂, ?_, ?_, ?_⟩
  · simp only [finishRun, hbuild, himports, Except.mapError, bind, Except.bind, pure, Except.pure]
  · unfold HasProject
    rw [hw.projects_eq]
    exact hp₁
  · intro r w hw'
    refine nodesAt_built project hbuilt r ?_
    unfold nodesAt at hw' ⊢
    rwa [hw.nodes_eq] at hw'

/-- The store once the run has entered its project. -/
def entered (rootPath : String) (s : Store) : Store :=
  { s with graph := s.graph.upsertProject ⟨project, run.now, rootPath⟩ }

theorem hasProject_entered (rootPath : String) (s : Store) :
    HasProject project (entered run project rootPath s) := by
  unfold HasProject entered Graph.upsertProject
  simp

/-- An incremental run is its file phase, its edge phase and the last phases. -/
theorem indexRun_eq_incremental (hinc : isIncremental s project = true) (rootPath : String)
    (entries : List InventoryEntry) :
    indexRun env run project rootPath entries s =
      (runIncremental env run project entries (entered run project rootPath s)).bind fun p =>
        ((resolveEdgesIncremental project p.2 (defFingerprint s.graph project)
          (loadAllRawEdges p.1 project) p.1.graph).mapError StoreError.toError).bind fun g =>
            finishRun project entries { p.1 with graph := g } := by
  have hinc' : isIncremental (entered run project rootPath s) project = true := hinc
  unfold indexRun
  simp only [← entered.eq_def, if_pos hinc']
  rfl

theorem indexRun_eq_full (hinc : isIncremental s project = false) (rootPath : String)
    (entries : List InventoryEntry) :
    indexRun env run project rootPath entries s =
      ((resolveAndPersistEdges project
        (loadAllRawEdges (runFull env run project entries (entered run project rootPath s)) project)
        (runFull env run project entries (entered run project rootPath s)).graph).mapError
          StoreError.toError).bind fun g => finishRun project entries
            { runFull env run project entries (entered run project rootPath s) with graph := g }
    := by
  have hinc' : ¬ isIncremental (entered run project rootPath s) project = true := by
    rw [show isIncremental (entered run project rootPath s) project = false from hinc]
    exact Bool.false_ne_true
  unfold indexRun
  simp only [← entered.eq_def, if_neg hinc']
  rfl

theorem nodesAt_congr {g g' : Graph} (h : g'.nodes = g.nodes) (r : String) :
    nodesAt g' project r = nodesAt g project r := by
  unfold nodesAt
  rw [h]

/-- The phases after the files take the store `s₁` they left to `s'`: another graph, with no more
definitions. -/
structure Linked (s₁ s' : Store) : Prop where
  files_eq : s'.files = s₁.files
  rawEdges_eq : s'.rawEdges = s₁.rawEdges
  legacySidecar_eq : s'.legacySidecar = s₁.legacySidecar
  hasProject : HasProject project s'
  nodes_sub : ∀ r, nodesAt s'.graph project r ⊆ nodesAt s₁.graph project r

theorem Linked.below {s₁ : Store} (h : Linked project s₁ s') (r : String) :
    FileView.Below (viewAt project s' r) (viewAt project s₁ r) := by
  refine ⟨?_, ?_, h.nodes_sub r⟩
  · exact congrArg (fun t => rowsAt t project r) h.files_eq
  · unfold viewAt Store.rawEdgesOf
    rw [h.rawEdges_eq]

/-- **A full run succeeds.** -/
theorem indexRun_full (hinc : isIncremental s project = false) (rootPath : String)
    (hdistinct : (entries.map InventoryEntry.relPath).Nodup) :
    ∃ s', indexRun env run project rootPath entries s = .ok s' ∧
      Linked project (runFull env run project entries (entered run project rootPath s)) s' := by
  have hs₁ := (runFull_spec env run project hdistinct
    (hasProject_entered run project rootPath s)).hasProject
  rw [indexRun_eq_full env run project hinc]
  generalize runFull env run project entries (entered run project rootPath s) = s₁ at hs₁ ⊢
  obtain ⟨g₁, hedges, hw⟩ := resolveAndPersistEdges_ok hs₁ (loadAllRawEdges s₁ project)
  have hs₂ : HasProject project { s₁ with graph := g₁ } := by
    unfold HasProject
    rw [hw.projects_eq]
    exact hs₁
  obtain ⟨g₂, hfinish, hs₃, hsub⟩ := finishRun_ok project entries hs₂
  refine ⟨{ s₁ with graph := g₂ }, ?_, rfl, rfl, rfl, hs₃, ?_⟩
  · rw [hedges]
    exact hfinish
  · intro r
    rw [← nodesAt_congr project hw.nodes_eq r]
    exact hsub r

/-- **An incremental run succeeds as soon as its file phase does.** -/
theorem indexRun_incremental (hinc : isIncremental s project = true) (rootPath : String)
    (hdistinct : (entries.map InventoryEntry.relPath).Nodup) {s₁ : Store} {changed : List String}
    (hrun : runIncremental env run project entries (entered run project rootPath s) =
      .ok (s₁, changed)) :
    ∃ s', indexRun env run project rootPath entries s = .ok s' ∧ Linked project s₁ s' := by
  have hs₁ := (runIncremental_spec env run project hdistinct
    (hasProject_entered run project rootPath s) hrun).hasProject
  rw [indexRun_eq_incremental env run project hinc, hrun]
  obtain ⟨g₁, hedges, hn₁, hp₁⟩ := resolveEdgesIncremental_ok hs₁ changed
    (defFingerprint s.graph project) (loadAllRawEdges s₁ project)
  have hs₂ : HasProject project { s₁ with graph := g₁ } := by
    unfold HasProject
    rw [hp₁]
    exact hs₁
  obtain ⟨g₂, hfinish, hs₃, hsub⟩ := finishRun_ok project entries hs₂
  refine ⟨{ s₁ with graph := g₂ }, ?_, rfl, rfl, rfl, hs₃, ?_⟩
  · simp only [Except.bind, hedges, Except.mapError, hfinish]
  · intro r
    rw [← nodesAt_congr project hn₁ r]
    exact hsub r

theorem legacySidecar_applyOutcome (s : Store) (outcome : FileOutcome) :
    (applyOutcome env run project s outcome).legacySidecar = s.legacySidecar := by
  cases outcome with
  | unreadable entry language reason detail => rfl
  | extracted relPath absPath bytes metadata nodes edges =>
    have hnodes : (applyFileNodes env run project relPath absPath bytes metadata nodes
        s).1.legacySidecar = s.legacySidecar := by
      unfold applyFileNodes
      simp only
      split <;> rfl
    unfold applyOutcome
    simp only
    generalize applyFileNodes env run project relPath absPath bytes metadata nodes s = q at hnodes ⊢
    obtain ⟨t, ok⟩ := q
    cases ok <;> exact hnodes

theorem legacySidecar_applyDiff (entries : List InventoryEntry) (s : Store) (diff : FileDiff) :
    (applyDiff env run project entries s diff).legacySidecar = s.legacySidecar := by
  have htriage : ∀ e, (applyTriage env run project s e).legacySidecar = s.legacySidecar := by
    intro e
    unfold applyTriage
    split <;> rfl
  unfold applyDiff
  split
  · rfl
  · split
    · exact htriage _
    · rfl

theorem legacySidecar_indexRun {rootPath : String}
    (hdistinct : (entries.map InventoryEntry.relPath).Nodup)
    (h : indexRun env run project rootPath entries s = .ok s') :
    s'.legacySidecar = s.legacySidecar := by
  have hfold : ∀ {α : Type} (f : Store → α → Store),
      (∀ t a, (f t a).legacySidecar = t.legacySidecar) → ∀ (l : List α) (t : Store),
        (l.foldl f t).legacySidecar = t.legacySidecar := by
    intro α f hf l
    induction l with
    | nil => exact fun _ => rfl
    | cons a l ih => exact fun t => (ih _).trans (hf t a)
  have houtcome := hfold _ (legacySidecar_applyOutcome env run project)
  by_cases hinc : isIncremental s project = true
  · cases hrun : runIncremental env run project entries (entered run project rootPath s) with
    | error err =>
      rw [indexRun_eq_incremental env run project hinc, hrun] at h
      cases h
    | ok p =>
      obtain ⟨s₁, changed⟩ := p
      obtain ⟨s₂, hok, hlinked⟩ := indexRun_incremental env run project hinc rootPath hdistinct hrun
      cases hok.symm.trans h
      rw [hlinked.legacySidecar_eq]
      simp only [runIncremental, bind, Except.bind, pure, Except.pure] at hrun
      split at hrun
      · cases hrun
      · cases hrun
        exact (houtcome _ _).trans
          (hfold _ (legacySidecar_applyDiff env run project entries) _ _)
  · obtain ⟨s₂, hok, hlinked⟩ := indexRun_full env run project (eq_false_of_ne_true hinc) rootPath
      hdistinct
    cases hok.symm.trans h
    rw [hlinked.legacySidecar_eq]
    refine (houtcome _ _).trans (hfold _ ?_ _ _)
    intro t e
    unfold classifyFull
    split <;> rfl

/-- **What a successful run leaves**: a full run processes every file, and one that may rely on an
earlier run those that changed. -/
theorem indexRun_spec {rootPath : String} (hdistinct : (entries.map InventoryEntry.relPath).Nodup)
    (h : indexRun env run project rootPath entries s = .ok s') :
    if isIncremental s project = true then
      ∃ changed, Incremented env run project entries s s' changed
    else Refilled env run project entries s s' := by
  have hs₀ := hasProject_entered run project rootPath s
  by_cases hinc : isIncremental s project = true
  · rw [if_pos hinc]
    cases hrun : runIncremental env run project entries (entered run project rootPath s) with
    | error err =>
      rw [indexRun_eq_incremental env run project hinc, hrun] at h
      cases h
    | ok p =>
      obtain ⟨s₁, changed⟩ := p
      obtain ⟨s₂, hok, hlinked⟩ := indexRun_incremental env run project hinc rootPath hdistinct hrun
      cases hok.symm.trans h
      have hspec := runIncremental_spec env run project hdistinct hs₀ hrun
      refine ⟨changed, hlinked.hasProject, ?_, ?_, hspec.changed⟩
      · intro e he
        obtain ⟨d, hd, hview⟩ := hspec.files e he
        exact ⟨d, hd, (hlinked.below project e.relPath).trans hview⟩
      · exact fun r hr => (hlinked.below project r).trans (hspec.others r hr)
  · rw [if_neg hinc]
    obtain ⟨s₂, hok, hlinked⟩ := indexRun_full env run project (eq_false_of_ne_true hinc) rootPath
      hdistinct
    cases hok.symm.trans h
    have hspec := runFull_spec env run project hdistinct hs₀
    refine ⟨hlinked.hasProject, ?_, ?_⟩
    · exact fun e he => (hlinked.below project e.relPath).trans (hspec.files e he)
    · exact fun r hr => (hlinked.below project r).trans (hspec.others r hr)

end Runs

end Greppy
