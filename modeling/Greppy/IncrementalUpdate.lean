/-
**What an incremental update leaves behind.**

`incremental_update` (`crates/freshness/src/incremental.rs`) is the second path by which changed
files reach the store, beside the one of the indexer: `reindex` walks the tree and calls it.  It diffs
the inventory as the indexer does, extracts what was added or modified and drops the `file_state` row
of what is gone.  But where the indexer deletes the nodes of a file before it writes the new ones,
and those of a file that is gone, this path writes over: a node stays until something is written
under its qualified name.

So the rows of the per-file tables come out right, and the nodes do when every name that a changed
file had is extracted again, somewhere.  What a failing update leaves is not part of the model.

Main results:

* `Updated` and `updated_of_ok` — what a successful update leaves in every table;
* `incrementalUpdate_again_iff` — when a second call finds nothing to do;
* `incrementalUpdate_leavesNothingStale_iff` — **an update leaves nothing stale exactly when all
  that it makes stale is overwritten.**
-/

import Greppy.IndexConverge

set_option autoImplicit false

namespace Greppy

/-! ### The update -/

/-- How an update fails: `greppy_core::Error`, with its variant for what the parser refuses. -/
inductive UpdateError where
  | core (e : Error)
  | parse (message : String)
  deriving DecidableEq

def FileDiff.toProcess : FileDiff → Option InventoryEntry
  | .added entry => some entry
  | .modified entry _ => some entry
  | _ => none

section Update

variable (env : Env) (disk : Disk) (project : String)

/-- The language is not supported, or the file is larger than the cap. -/
def passedOver (entry : InventoryEntry) : Bool :=
  !(env.languageForPath entry.absPath).supported ||
    match disk.metadata entry.absPath with
    | .ok md => decide (env.maxSize < md.size)
    | .error _ => false

def extractEntry (entry : InventoryEntry) :
    Except UpdateError (Bytes × StableFileMetadata × Extraction) := do
  let (bytes, metadata) ← (stableRead disk entry).mapError .core
  let extraction ← (env.parserExtract (env.languageForPath entry.absPath) bytes
    entry.relPath).mapError .parse
  return (bytes, metadata, extraction)

/-- The `file_state` row of a processed file. -/
def updatedState (entry : InventoryEntry) (bytes : Bytes) (metadata : StableFileMetadata) :
    FileState where
  project := project
  relPath := entry.relPath
  language := (env.languageForPath entry.absPath).name
  sha256 := env.sha256Hex bytes
  mtimeNs := metadata.mtimeNs.getD 0
  size := (lenU64 bytes).toInt64
  parserVersion := "tree-sitter-0.25"
  extractorVersion := "greppy-extractor-v1"
  lastIndexedGeneration := 0

def recordUpdated (entry : InventoryEntry) (bytes : Bytes) (metadata : StableFileMetadata)
    (t : FileTables) : FileTables :=
  (t.upsertFileState (updatedState env project entry bytes metadata)).upsertFileIdentity project
    entry.relPath ⟨metadata.ctimeNs, metadata.fileId⟩

/-- A refused statement, as the error the update ends with. -/
def StoreError.toUpdateError (e : StoreError) : UpdateError := .core e.toError

/-- Write a file: its nodes one by one, then its rows, which SQLite refuses where the project has no
row. -/
def writeEntry (entry : InventoryEntry) (bytes : Bytes) (metadata : StableFileMetadata)
    (extraction : Extraction) (s : Store) : Except UpdateError Store := do
  let (g, _) ← (s.graph.insertNodes (extraction.nodes.map
    (newNodeFor project entry.relPath))).mapError StoreError.toUpdateError
  if (g.projects.find? project).isSome then
    return { s with graph := g, files := recordUpdated env project entry bytes metadata s.files }
  else throw StoreError.foreignKey.toUpdateError

/-- One turn of the loop over the diff; the number counts the files reindexed. -/
def updateTurn (acc : Store × ℕ) : FileDiff → Except UpdateError (Store × ℕ)
  | .added entry | .modified entry _ =>
    if passedOver env disk entry then .ok acc
    else do
      let (bytes, metadata, extraction) ← extractEntry env disk entry
      let s ← writeEntry env project entry bytes metadata extraction acc.1
      return (s, acc.2 + 1)
  | .deleted rel =>
    .ok ({ acc.1 with files := acc.1.files.deleteFileState project rel }, acc.2)
  | .unchanged => .ok acc

/-- `incremental_update`: the store, and the number of files reindexed. -/
def incrementalUpdate (inventory : List InventoryEntry) (s : Store) :
    Except UpdateError (Store × ℕ) := do
  let diffs ← (computeFileDiff disk env.sha256Hex env.maxSize s.files project inventory).mapError
    .core
  diffs.foldlM (updateTurn env disk project) (s, 0)

/-! ### What one turn does -/

/-- The nodes a file is extracted to, as they are written. -/
def extractedNodes (entry : InventoryEntry) : List NewNode :=
  match extractEntry env disk entry with
  | .ok (_, _, extraction) => extraction.nodes.map (newNodeFor project entry.relPath)
  | .error _ => []

def processed (d : FileDiff) : Option InventoryEntry :=
  d.toProcess.filter fun entry => !passedOver env disk entry

def turnNodes (d : FileDiff) : List NewNode :=
  match processed env disk d with
  | some entry => extractedNodes env disk project entry
  | none => []

def turnFiles (d : FileDiff) (t : FileTables) : FileTables :=
  match processed env disk d with
  | some entry =>
    match extractEntry env disk entry with
    | .ok (bytes, metadata, _) => recordUpdated env project entry bytes metadata t
    | .error _ => t
  | none =>
    match d with
    | .deleted rel => t.deleteFileState project rel
    | _ => t

/-- What a list of successful turns does: `acc` before it, `acc'` after it. -/
structure Updated (diffs : List FileDiff) (acc acc' : Store × ℕ) : Prop where
  wrote : Wrote (diffs.flatMap (turnNodes env disk project)) acc.1.graph acc'.1.graph
  files : acc'.1.files = diffs.foldl (fun t d => turnFiles env disk project d t) acc.1.files
  rawEdges : acc'.1.rawEdges = acc.1.rawEdges
  legacySidecar : acc'.1.legacySidecar = acc.1.legacySidecar
  count : acc'.2 = acc.2 + (diffs.filterMap (processed env disk)).length
  /-- Each file that is to be processed was read and extracted, for a project that is there. -/
  extracted : ∀ d ∈ diffs, ∀ entry, processed env disk d = some entry →
    (∃ r, extractEntry env disk entry = .ok r) ∧ (acc'.1.graph.projects.find? project).isSome

variable {env disk project}

variable {d : FileDiff} {entry : InventoryEntry} {diffs : List FileDiff} {acc acc' : Store × ℕ}
  {s : Store}

theorem processed_eq_some_iff :
    processed env disk d = some entry ↔
      d.toProcess = some entry ∧ passedOver env disk entry = false := by
  simp [processed, Option.filter_eq_some_iff]

theorem Updated.refl (acc : Store × ℕ) : Updated env disk project [] acc acc where
  wrote := Wrote.refl _
  files := rfl
  rawEdges := rfl
  legacySidecar := rfl
  count := rfl
  extracted := by simp

theorem Updated.trans {diffs' : List FileDiff} {acc'' : Store × ℕ}
    (h : Updated env disk project diffs acc acc') (h' : Updated env disk project diffs' acc' acc'') :
    Updated env disk project (diffs ++ diffs') acc acc'' where
  wrote := by
    rw [List.flatMap_append]
    exact h.wrote.trans h'.wrote
  files := by rw [h'.files, h.files, List.foldl_append]
  rawEdges := h'.rawEdges.trans h.rawEdges
  legacySidecar := h'.legacySidecar.trans h.legacySidecar
  count := by rw [h'.count, h.count, List.filterMap_append, List.length_append, Nat.add_assoc]
  extracted := by
    intro d hd entry hp
    rcases List.mem_append.1 hd with hd | hd
    · rw [h'.wrote.projects_eq]
      exact h.extracted d hd entry hp
    · exact h'.extracted d hd entry hp

theorem writeEntry_ok {bytes : Bytes} {metadata : StableFileMetadata} {extraction : Extraction}
    {s' : Store} (h : writeEntry env project entry bytes metadata extraction s = .ok s') :
    ∃ g, Wrote (extraction.nodes.map (newNodeFor project entry.relPath)) s.graph g ∧
      (g.projects.find? project).isSome ∧
      s' = { s with
        graph := g
        files := recordUpdated env project entry bytes metadata s.files } := by
  unfold writeEntry at h
  cases hins : s.graph.insertNodes (extraction.nodes.map (newNodeFor project entry.relPath)) with
  | error e =>
    rw [hins] at h
    cases h
  | ok p =>
    rw [hins] at h
    simp only [Except.mapError, bind, Except.bind, pure, Except.pure] at h
    split at h
    · rename_i hproject
      cases h
      exact ⟨p.1, wrote_of_insertNodes hins, hproject, rfl⟩
    · cases h

/-- A turn either processes a file or touches the rows of one path. -/
theorem updateTurn_eq (acc : Store × ℕ) (d : FileDiff) :
    updateTurn env disk project acc d =
      match processed env disk d with
      | some entry => do
          let (bytes, metadata, extraction) ← extractEntry env disk entry
          let s ← writeEntry env project entry bytes metadata extraction acc.1
          return (s, acc.2 + 1)
      | none => .ok ({ acc.1 with files := turnFiles env disk project d acc.1.files }, acc.2) := by
  have hfile : ∀ {d : FileDiff} {entry : InventoryEntry}, d.toProcess = some entry →
      passedOver env disk entry = true →
      processed env disk d = none ∧ turnFiles env disk project d acc.1.files = acc.1.files := by
    intro d entry hd hover
    have hp : processed env disk d = none := by simp [processed, hd, Option.filter, hover]
    refine ⟨hp, ?_⟩
    cases d with
    | deleted rel => cases hd
    | unchanged => cases hd
    | added _ => simp [turnFiles, hp]
    | modified _ _ => simp [turnFiles, hp]
  cases d with
  | deleted rel => rfl
  | unchanged => rfl
  | added entry =>
    cases hover : passedOver env disk entry with
    | true =>
      obtain ⟨hp, hfiles⟩ := hfile (d := .added entry) rfl hover
      rw [hp, hfiles]
      exact if_pos hover
    | false =>
      rw [processed_eq_some_iff.2 ⟨rfl, hover⟩]
      exact if_neg (by rw [hover]; simp)
  | modified entry old =>
    cases hover : passedOver env disk entry with
    | true =>
      obtain ⟨hp, hfiles⟩ := hfile (d := .modified entry old) rfl hover
      rw [hp, hfiles]
      exact if_pos hover
    | false =>
      rw [processed_eq_some_iff.2 ⟨rfl, hover⟩]
      exact if_neg (by rw [hover]; simp)

theorem updated_of_turn (h : updateTurn env disk project acc d = .ok acc') :
    Updated env disk project [d] acc acc' := by
  rw [updateTurn_eq] at h
  cases hp : processed env disk d with
  | none =>
    rw [hp] at h
    cases h
    refine ⟨?_, rfl, rfl, rfl, ?_, ?_⟩
    · simpa [turnNodes, hp] using Wrote.refl acc.1.graph
    · simp [hp]
    · intro d' hd' entry' hp'
      rw [List.mem_singleton.1 hd', hp] at hp'
      cases hp'
  | some entry =>
    simp only [hp, bind, Except.bind, pure, Except.pure] at h
    obtain ⟨r, hx, h⟩ := Except.bind_eq_ok_iff.1 h
    obtain ⟨bytes, metadata, extraction⟩ := r
    simp only [hx] at h
    obtain ⟨s, hw, rfl⟩ := Except.map_eq_ok_iff.1 h
    obtain ⟨g, hwrote, hproject, rfl⟩ := writeEntry_ok hw
    refine ⟨?_, ?_, rfl, rfl, ?_, ?_⟩
    · simpa [turnNodes, hp, extractedNodes, hx] using hwrote
    · simp [turnFiles, hp, hx]
    · simp [hp]
    · intro d' hd' entry' hp'
      rw [List.mem_singleton.1 hd', hp, Option.some.injEq] at hp'
      subst hp'
      exact ⟨⟨_, hx⟩, hproject⟩

/-- **What a successful loop over a diff leaves in every table.** -/
theorem updated_of_foldlM (h : diffs.foldlM (updateTurn env disk project) acc = .ok acc') :
    Updated env disk project diffs acc acc' := by
  refine List.foldlM_ok_induction (P := fun done s => Updated env disk project done acc s) ?_
    (Updated.refl acc) h
  intro done d s s' hdone hturn
  exact hdone.trans (updated_of_turn hturn)

theorem incrementalUpdate_ok_iff {inventory : List InventoryEntry} {r : Store × ℕ} :
    incrementalUpdate env disk project inventory s = .ok r ↔ ∃ diffs,
      computeFileDiff disk env.sha256Hex env.maxSize s.files project inventory = .ok diffs ∧
        diffs.foldlM (updateTurn env disk project) (s, 0) = .ok r := by
  unfold incrementalUpdate
  cases computeFileDiff disk env.sha256Hex env.maxSize s.files project inventory with
  | error e => simp [Except.mapError, bind, Except.bind]
  | ok diffs => simp [Except.mapError, bind, Except.bind]

/-! ### What an update is there for -/

variable (env disk project) (inventory : List InventoryEntry) (diffs : List FileDiff)

/-- A file that the diff reports and the update does not pass over. -/
def Reprocessed (entry : InventoryEntry) : Prop := ∃ d ∈ diffs, processed env disk d = some entry

/-- A path that the diff does not report. -/
def Unreported (r : String) : Prop := ∀ d ∈ diffs, changedFileOf d ≠ some r

/-- A node that a reprocessed file is extracted to. -/
def Extracted (w : NewNode) : Prop :=
  ∃ entry, Reprocessed env disk diffs entry ∧ w ∈ extractedNodes env disk project entry

/-- The nodes of a file, without their ids. -/
def nodesUnder (g : Graph) (project r : String) : Set NewNode :=
  {w | w.project = project ∧ w.filePath = r ∧ ∃ n ∈ g.nodes.rows, n.toNewNode = w}

/-- **Nothing stale is left**: `s` before an update that works through `diffs`, `s'` after it. -/
structure LeavesNothingStale (s s' : Store) : Prop where
  /-- The nodes of a reprocessed file are those its content is extracted to. -/
  reprocessed : ∀ entry, Reprocessed env disk diffs entry →
    nodesUnder s'.graph project entry.relPath = {w | w ∈ extractedNodes env disk project entry}
  deleted : ∀ r, .deleted r ∈ diffs →
    nodesUnder s'.graph project r = ∅ ∧ s'.files.fileState.find? (project, r) = none
  unchanged : ∀ entry ∈ inventory, Unreported diffs entry.relPath →
    rowsAt s'.files project entry.relPath = rowsAt s.files project entry.relPath ∧
      ∀ n : Node, n.project = project → n.filePath = entry.relPath →
        (n ∈ s'.graph.nodes.rows ↔ n ∈ s.graph.nodes.rows)
  again : incrementalUpdate env disk project inventory s' = .ok (s', 0)

/-- The persisted stat of a file once it is processed. -/
def stampOf (bytes : Bytes) (metadata : StableFileMetadata) : PersistedStat where
  sha256 := env.sha256Hex bytes
  size := (lenU64 bytes).toInt64
  mtimeNs := metadata.mtimeNs.getD 0
  ctimeNs := metadata.ctimeNs
  fileId := metadata.fileId

/-- A processed file that the walk saw above the cap is told by its stat the next time. -/
def Recognised (entry : InventoryEntry) : Prop :=
  ∀ bytes metadata extraction, extractEntry env disk entry = .ok (bytes, metadata, extraction) →
    ∀ current, currentStat disk entry = .ok current → env.maxSize < current.size →
      statIdentityMatches (stampOf env bytes metadata) current = true

/-- All that an update makes stale is overwritten, and nothing else is. -/
structure AllOverwritten (s : Store) : Prop where
  /-- Each node of a file that is reprocessed or gone has a name that is extracted again. -/
  stale : ∀ n ∈ s.graph.nodes.rows, n.project = project →
    (.deleted n.filePath ∈ diffs ∨
      ∃ entry, Reprocessed env disk diffs entry ∧ entry.relPath = n.filePath) →
    ∃ w, Extracted env disk project diffs w ∧ w.qualifiedName = n.qualifiedName
  /-- No two nodes that are extracted have the same name. -/
  distinct : ∀ w w', Extracted env disk project diffs w → Extracted env disk project diffs w' →
    w.qualifiedName = w'.qualifiedName → w = w'
  /-- No node of an unchanged file has a name that is extracted. -/
  apart : ∀ entry ∈ inventory, Unreported diffs entry.relPath →
    ∀ n ∈ s.graph.nodes.rows, n.project = project → n.filePath = entry.relPath →
      ∀ w, Extracted env disk project diffs w → w.qualifiedName ≠ n.qualifiedName
  recognised : ∀ entry, Reprocessed env disk diffs entry → Recognised env disk entry

variable {env disk project inventory diffs}

/-! ### The nodes of the files -/

theorem columns_of_mem_extractedNodes {entry : InventoryEntry} {w : NewNode}
    (h : w ∈ extractedNodes env disk project entry) :
    w.project = project ∧ w.filePath = entry.relPath := by
  unfold extractedNodes at h
  split at h
  · obtain ⟨n, _, rfl⟩ := List.mem_map.1 h
    exact ⟨rfl, rfl⟩
  · cases h

theorem mem_turnNodes_iff {w : NewNode} :
    w ∈ diffs.flatMap (turnNodes env disk project) ↔ Extracted env disk project diffs w := by
  rw [List.mem_flatMap]
  constructor
  · rintro ⟨d, hd, hw⟩
    unfold turnNodes at hw
    split at hw
    · rename_i entry hp
      exact ⟨entry, ⟨d, hd, hp⟩, hw⟩
    · cases hw
  · rintro ⟨entry, ⟨d, hd, hp⟩, hw⟩
    refine ⟨d, hd, ?_⟩
    rw [turnNodes, hp]
    exact hw

theorem Extracted.project_eq {w : NewNode} (h : Extracted env disk project diffs w) :
    w.project = project := by
  obtain ⟨entry, _, hw⟩ := h
  exact (columns_of_mem_extractedNodes hw).1

theorem lastWrite_turnNodes_eq_none_iff {q : String} :
    lastWrite NewNode.key (diffs.flatMap (turnNodes env disk project)) (project, q) = none ↔
      ∀ w, Extracted env disk project diffs w → w.qualifiedName ≠ q := by
  rw [lastWrite_eq_none_iff]
  constructor
  · intro hnone w hw hq
    refine hnone (List.mem_map.2 ⟨w, mem_turnNodes_iff.2 hw, ?_⟩)
    exact Prod.ext hw.project_eq hq
  · intro hnone hmem
    obtain ⟨w, hw, hk⟩ := List.mem_map.1 hmem
    exact hnone w (mem_turnNodes_iff.1 hw) (congrArg Prod.snd hk)

section Nodes

variable {g g' : Graph} (hw : Wrote (diffs.flatMap (turnNodes env disk project)) g g')
include hw

/-- A node after the update is one that was extracted, or an old one whose name was not. -/
theorem extracted_or_old {n : Node} (hn : n ∈ g'.nodes.rows) (hp : n.project = project) :
    Extracted env disk project diffs n.toNewNode ∨
      n ∈ g.nodes.rows ∧
        ∀ w, Extracted env disk project diffs w → w.qualifiedName ≠ n.qualifiedName := by
  have hkey : n.key = (project, n.qualifiedName) := Prod.ext hp rfl
  rcases hw.mem_cases hn with hsome | ⟨hnone, hold⟩
  · exact Or.inl (mem_turnNodes_iff.1 (mem_of_lastWrite hsome).1)
  · rw [hkey] at hnone
    exact Or.inr ⟨hold, lastWrite_turnNodes_eq_none_iff.1 hnone⟩

theorem old_stays {n : Node} (hn : n ∈ g.nodes.rows) (hp : n.project = project)
    (hq : ∀ w, Extracted env disk project diffs w → w.qualifiedName ≠ n.qualifiedName) :
    n ∈ g'.nodes.rows := by
  refine hw.mem_of_lastWrite_none hn ?_
  have hkey : n.key = (project, n.qualifiedName) := Prod.ext hp rfl
  rw [hkey]
  exact lastWrite_turnNodes_eq_none_iff.2 hq

theorem exists_extracted {w : NewNode} (h : Extracted env disk project diffs w) :
    ∃ n ∈ g'.nodes.rows, n.qualifiedName = w.qualifiedName ∧
      Extracted env disk project diffs n.toNewNode := by
  obtain ⟨w', hlast⟩ := exists_lastWrite NewNode.key (mem_turnNodes_iff.2 h)
  obtain ⟨hmem, hkey⟩ := mem_of_lastWrite hlast
  obtain ⟨n, hn, hnw⟩ := hw.exists_of_lastWrite hlast
  refine ⟨n, hn, ?_, ?_⟩
  · rw [hnw]
    exact congrArg Prod.snd hkey
  · rw [hnw]
    exact mem_turnNodes_iff.1 hmem

end Nodes

/-! ### The paths of a diff -/

section Paths

variable {verdict : InventoryEntry → FileDiff} {gone : List String}
  (hlaid : Laid inventory verdict gone diffs)
include hlaid

theorem toProcess_verdict {entry : InventoryEntry} (he : entry ∈ inventory)
    (hne : verdict entry ≠ .unchanged) : (verdict entry).toProcess = some entry := by
  rcases hlaid.own entry he with heq | ⟨old, heq⟩ | heq
  · rw [heq]
    rfl
  · rw [heq]
    rfl
  · exact absurd heq hne

theorem Reprocessed.mem {entry : InventoryEntry} (h : Reprocessed env disk diffs entry) :
    entry ∈ inventory ∧ verdict entry ∈ diffs ∧
      processed env disk (verdict entry) = some entry := by
  obtain ⟨d, hd, hp⟩ := h
  have hentry := (processed_eq_some_iff.1 hp).1
  have hlive : d ∈ Laid.live diffs := by
    refine List.mem_filter.2 ⟨hd, decide_eq_true ?_⟩
    rintro rfl
    cases hentry
  rcases hlaid.mem_live.1 hlive with ⟨e, he, rfl, hne⟩ | ⟨r, _, rfl⟩
  · rw [toProcess_verdict hlaid he hne, Option.some.injEq] at hentry
    subst hentry
    exact ⟨he, hd, hp⟩
  · cases hentry

theorem Reprocessed.eq_of_relPath {entry entry' : InventoryEntry}
    (h : Reprocessed env disk diffs entry) (h' : Reprocessed env disk diffs entry')
    (heq : entry.relPath = entry'.relPath) : entry = entry' :=
  List.inj_on_of_nodup_map hlaid.distinct (h.mem hlaid).1 (h'.mem hlaid).1 heq

theorem mem_gone_iff {r : String} : .deleted r ∈ diffs ↔ r ∈ gone := by
  have hlive : .deleted r ∈ diffs ↔ .deleted r ∈ Laid.live diffs := by
    simp [Laid.live]
  rw [hlive, hlaid.mem_live]
  constructor
  · rintro (⟨e, he, hd, _⟩ | ⟨r', hr', heq⟩)
    · rcases hlaid.own e he with heq | ⟨old, heq⟩ | heq <;> rw [heq] at hd <;> cases hd
    · cases heq
      exact hr'
  · exact fun hr => Or.inr ⟨r, hr, rfl⟩

/-- An extracted node lives in a reprocessed file, and nowhere else. -/
theorem Extracted.mem_of_filePath {entry : InventoryEntry} {w : NewNode}
    (h : Reprocessed env disk diffs entry) (hw : Extracted env disk project diffs w)
    (hpath : w.filePath = entry.relPath) : w ∈ extractedNodes env disk project entry := by
  obtain ⟨entry', h', hmem⟩ := hw
  have hcols := columns_of_mem_extractedNodes hmem
  rwa [h.eq_of_relPath hlaid h' (hpath.symm.trans hcols.2)]

theorem Extracted.not_deleted {w : NewNode} (hw : Extracted env disk project diffs w) :
    .deleted w.filePath ∉ diffs := by
  obtain ⟨entry, h, hmem⟩ := hw
  rw [(columns_of_mem_extractedNodes hmem).2, mem_gone_iff hlaid]
  exact fun hgone => hlaid.gone_out _ hgone (List.mem_map_of_mem (h.mem hlaid).1)

end Paths

theorem Extracted.not_unreported {w : NewNode} (hw : Extracted env disk project diffs w) :
    ¬ Unreported diffs w.filePath := by
  obtain ⟨entry, ⟨d, hd, hp⟩, hmem⟩ := hw
  rw [(columns_of_mem_extractedNodes hmem).2]
  intro hnot
  refine hnot d hd ?_
  have hentry := (processed_eq_some_iff.1 hp).1
  cases d with
  | added e => exact congrArg (fun o : Option InventoryEntry => o.map InventoryEntry.relPath) hentry
  | modified e _ =>
    exact congrArg (fun o : Option InventoryEntry => o.map InventoryEntry.relPath) hentry
  | deleted _ => cases hentry
  | unchanged => cases hentry

/-! ### The nodes that are left -/

section Left

variable {verdict : InventoryEntry → FileDiff} {gone : List String} {s s' : Store}
  (hw : Wrote (diffs.flatMap (turnNodes env disk project)) s.graph s'.graph)
include hw

variable {entry : InventoryEntry} {n : Node}

theorem nodesUnder_reprocessed (hlaid : Laid inventory verdict gone diffs)
    (h : AllOverwritten env disk project inventory diffs s)
    (hentry : Reprocessed env disk diffs entry) :
    nodesUnder s'.graph project entry.relPath =
      {w | w ∈ extractedNodes env disk project entry} := by
  ext w
  constructor
  · rintro ⟨hp, hpath, n, hn, rfl⟩
    rcases extracted_or_old hw hn hp with hx | ⟨hold, hnone⟩
    · exact Extracted.mem_of_filePath hlaid hentry hx hpath
    · obtain ⟨w, hx, hq⟩ := h.stale n hold hp (Or.inr ⟨entry, hentry, hpath.symm⟩)
      exact absurd hq (hnone w hx)
  · intro hmem
    obtain ⟨hp, hpath⟩ := columns_of_mem_extractedNodes hmem
    have hx : Extracted env disk project diffs w := ⟨entry, hentry, hmem⟩
    obtain ⟨n, hn, hq, hx'⟩ := exists_extracted hw hx
    exact ⟨hp, hpath, n, hn, h.distinct _ _ hx' hx hq⟩

theorem nodesUnder_deleted (hlaid : Laid inventory verdict gone diffs)
    (h : AllOverwritten env disk project inventory diffs s) {r : String}
    (hr : .deleted r ∈ diffs) : nodesUnder s'.graph project r = ∅ := by
  rw [Set.eq_empty_iff_forall_notMem]
  rintro w ⟨hp, rfl, n, hn, rfl⟩
  rcases extracted_or_old hw hn hp with hx | ⟨hold, hnone⟩
  · exact hx.not_deleted hlaid hr
  · obtain ⟨w, hx, hq⟩ := h.stale n hold hp (Or.inl hr)
    exact hnone w hx hq

theorem mem_nodes_unchanged (h : AllOverwritten env disk project inventory diffs s)
    (hentry : entry ∈ inventory) (hun : Unreported diffs entry.relPath) (hp : n.project = project)
    (hpath : n.filePath = entry.relPath) : n ∈ s'.graph.nodes.rows ↔ n ∈ s.graph.nodes.rows := by
  constructor
  · intro hn
    rcases extracted_or_old hw hn hp with hx | ⟨hold, _⟩
    · exact absurd (hpath ▸ hun) hx.not_unreported
    · exact hold
  · intro hn
    exact old_stays hw hn hp fun w hx => h.apart entry hentry hun n hn hp hpath w hx

theorem stale_of_leaves (h : LeavesNothingStale env disk project inventory diffs s s')
    (hn : n ∈ s.graph.nodes.rows) (hp : n.project = project)
    (hpath : .deleted n.filePath ∈ diffs ∨
      ∃ entry, Reprocessed env disk diffs entry ∧ entry.relPath = n.filePath) :
    ∃ w, Extracted env disk project diffs w ∧ w.qualifiedName = n.qualifiedName := by
  by_contra hnone
  have hleft := old_stays hw hn hp fun w hx hq => hnone ⟨w, hx, hq⟩
  rcases hpath with hdel | ⟨entry, hentry, hpath⟩
  · have hmem : n.toNewNode ∈ nodesUnder s'.graph project n.filePath := ⟨hp, rfl, n, hleft, rfl⟩
    rw [(h.deleted _ hdel).1] at hmem
    exact hmem
  · have hmem : n.toNewNode ∈ nodesUnder s'.graph project entry.relPath :=
      ⟨hp, hpath.symm, n, hleft, rfl⟩
    rw [h.reprocessed entry hentry] at hmem
    exact hnone ⟨_, ⟨entry, hentry, hmem⟩, rfl⟩

theorem apart_of_leaves (h : LeavesNothingStale env disk project inventory diffs s s')
    (hentry : entry ∈ inventory) (hun : Unreported diffs entry.relPath)
    (hn : n ∈ s.graph.nodes.rows) (hp : n.project = project) (hpath : n.filePath = entry.relPath)
    {w : NewNode} (hx : Extracted env disk project diffs w) :
    w.qualifiedName ≠ n.qualifiedName := by
  intro hq
  obtain ⟨n', hn', hq', hx'⟩ := exists_extracted hw hx
  have hleft := ((h.unchanged entry hentry hun).2 n hp hpath).2 hn
  have heq : n' = n := s'.graph.nodes.eq_of_key_eq hn' hleft
    (Prod.ext (hx'.project_eq.trans hp.symm) (hq'.trans hq))
  subst heq
  exact hx'.not_unreported (hpath ▸ hun)

end Left

theorem distinct_of_leaves {s s' : Store}
    (h : LeavesNothingStale env disk project inventory diffs s s') {w w' : NewNode}
    (hx : Extracted env disk project diffs w)
    (hx' : Extracted env disk project diffs w') (hq : w.qualifiedName = w'.qualifiedName) :
    w = w' := by
  have hthere : ∀ {w : NewNode}, Extracted env disk project diffs w →
      ∃ n ∈ s'.graph.nodes.rows, n.toNewNode = w := by
    rintro w ⟨entry, hentry, hmem⟩
    have hset : w ∈ nodesUnder s'.graph project entry.relPath := by
      rw [h.reprocessed entry hentry]
      exact hmem
    exact hset.2.2
  obtain ⟨n, hn, rfl⟩ := hthere hx
  obtain ⟨n', hn', rfl⟩ := hthere hx'
  rw [s'.graph.nodes.eq_of_key_eq hn hn' (Prod.ext (hx.project_eq.trans hx'.project_eq.symm) hq)]

/-! ### The rows that are left -/

variable (env disk project) in
/-- The rows that a turn leaves under its path. -/
def turnRows (d : FileDiff) (rows : FileRows) : FileRows :=
  match processed env disk d with
  | some entry =>
    match extractEntry env disk entry with
    | .ok (bytes, metadata, _) =>
      rows.indexed (updatedState env project entry bytes metadata)
        ⟨metadata.ctimeNs, metadata.fileId⟩
    | .error _ => rows
  | none =>
    match d with
    | .deleted _ => { rows with state := none, identity := none }
    | _ => rows

theorem relOf_of_processed {d : FileDiff} {entry : InventoryEntry}
    (h : processed env disk d = some entry) : relOf d = entry.relPath := by
  have hentry := (processed_eq_some_iff.1 h).1
  cases d with
  | added e => exact congrArg InventoryEntry.relPath (Option.some.inj hentry)
  | modified e _ => exact congrArg InventoryEntry.relPath (Option.some.inj hentry)
  | deleted _ => cases hentry
  | unchanged => cases hentry

theorem turnRows_of_not_processed {d : FileDiff} (hp : processed env disk d = none)
    (hd : ∀ r, d ≠ .deleted r) (rows : FileRows) : turnRows env disk project d rows = rows := by
  unfold turnRows
  rw [hp]
  cases d with
  | deleted r => exact absurd rfl (hd r)
  | unchanged => rfl
  | added e => rfl
  | modified e old => rfl

theorem rowsAt_turnFiles (d : FileDiff) (t : FileTables) (r : String) :
    rowsAt (turnFiles env disk project d t) project r =
      if relOf d = r then turnRows env disk project d (rowsAt t project r)
      else rowsAt t project r := by
  unfold turnFiles turnRows
  cases hp : processed env disk d with
  | some entry =>
    rw [relOf_of_processed hp]
    dsimp only
    cases extractEntry env disk entry with
    | ok read =>
      exact rowsAt_recordFileState t project env ⟨disk, 0, ""⟩ entry.relPath entry.absPath
        (env.sha256Hex read.1) (lenU64 read.1) read.2.1 r
    | error e => exact (ite_self _).symm
  | none =>
    cases d with
    | deleted rel => exact rowsAt_deleteFileState t project rel r
    | unchanged => exact (ite_self _).symm
    | added e => exact (ite_self _).symm
    | modified e old => exact (ite_self _).symm

theorem local_turnFiles : Local Eq (fun _ : FileTables => True) (fun t r => rowsAt t project r)
    (fun t d => turnFiles env disk project d t) relOf (turnRows env disk project) where
  refl := fun _ => rfl
  trans := Eq.trans
  mono := fun _ _ _ h => congrArg _ h
  good_apply := fun _ _ => trivial
  view_apply := fun d r _ => rowsAt_turnFiles d _ r

theorem foldl_turnFiles_live (t : FileTables) :
    diffs.foldl (fun t d => turnFiles env disk project d t) t =
      (Laid.live diffs).foldl (fun t d => turnFiles env disk project d t) t := by
  induction diffs generalizing t with
  | nil => rfl
  | cons d diffs ih =>
    cases d with
    | unchanged => exact ih t
    | added e => exact ih _
    | modified e old => exact ih _
    | deleted r => exact ih _

variable (env disk project) in
theorem rowsAt_unreported {r : String} (hr : Unreported diffs r) (t : FileTables) :
    rowsAt (diffs.foldl (fun t d => turnFiles env disk project d t) t) project r =
      rowsAt t project r := by
  rw [foldl_turnFiles_live]
  refine local_turnFiles.view_foldl_of_not_mem ?_ trivial
  intro hmem
  obtain ⟨d, hd, hrel⟩ := List.mem_map.1 hmem
  obtain ⟨hd, hne⟩ := List.mem_filter.1 hd
  refine hr d hd ?_
  cases d with
  | unchanged => simp at hne
  | added e => exact congrArg some hrel
  | modified e old => exact congrArg some hrel
  | deleted rel => exact congrArg some hrel

section Rows

variable (env disk project) {verdict : InventoryEntry → FileDiff} {gone : List String}
  (hlaid : Laid inventory verdict gone diffs)
include hlaid

theorem rowsAt_reported {d : FileDiff} (hd : d ∈ diffs) (hne : d ≠ .unchanged) (t : FileTables) :
    rowsAt (diffs.foldl (fun t d => turnFiles env disk project d t) t) project (relOf d) =
      turnRows env disk project d (rowsAt t project (relOf d)) := by
  rw [foldl_turnFiles_live]
  have hlive : d ∈ Laid.live diffs := List.mem_filter.2 ⟨hd, decide_eq_true hne⟩
  exact local_turnFiles.view_foldl hlaid.live_nodup hlive trivial

theorem rowsAt_deleted {r : String} (hr : .deleted r ∈ diffs) (t : FileTables) :
    rowsAt (diffs.foldl (fun t d => turnFiles env disk project d t) t) project r =
      { rowsAt t project r with state := none, identity := none } :=
  rowsAt_reported env disk project hlaid hr (by simp) t

theorem rowsAt_reprocessed {entry : InventoryEntry} (h : Reprocessed env disk diffs entry)
    {bytes : Bytes} {metadata : StableFileMetadata} {extraction : Extraction}
    (hx : extractEntry env disk entry = .ok (bytes, metadata, extraction)) (t : FileTables) :
    rowsAt (diffs.foldl (fun t d => turnFiles env disk project d t) t) project entry.relPath =
      (rowsAt t project entry.relPath).indexed (updatedState env project entry bytes metadata)
        ⟨metadata.ctimeNs, metadata.fileId⟩ := by
  obtain ⟨d, hd, hp⟩ := h
  have hne : d ≠ .unchanged := by
    rintro rfl
    cases hp
  have hrows := rowsAt_reported env disk project hlaid hd hne t
  rw [relOf_of_processed hp] at hrows
  rw [hrows]
  simp only [turnRows, hp, hx]

/-- A file of the inventory that is not reprocessed keeps its rows. -/
theorem rowsAt_kept {entry : InventoryEntry} (hentry : entry ∈ inventory)
    (h : ¬ Reprocessed env disk diffs entry) (t : FileTables) :
    rowsAt (diffs.foldl (fun t d => turnFiles env disk project d t) t) project entry.relPath =
      rowsAt t project entry.relPath := by
  have hno : ∀ d ∈ diffs, processed env disk d ≠ some entry := fun d hd hp => h ⟨d, hd, hp⟩
  by_cases hverdict : verdict entry = .unchanged
  · refine rowsAt_unreported env disk project ?_ t
    intro d hd hc
    have hmem := hlaid.mem_changedFiles.1 (List.mem_filterMap.2 ⟨d, hd, hc⟩)
    rcases hmem with ⟨e, he, hrel, hne⟩ | hgone
    · rw [List.inj_on_of_nodup_map hlaid.distinct he hentry hrel] at hne
      exact hne hverdict
    · exact hlaid.gone_out _ hgone (List.mem_map_of_mem hentry)
  · -- the update passes over it
    have hd : verdict entry ∈ diffs :=
      hlaid.perm.mem_iff.2 (List.mem_append_left _ (List.mem_map_of_mem hentry))
    have hrows := rowsAt_reported env disk project hlaid hd
      hverdict t
    rw [hlaid.relOf_verdict hentry hverdict] at hrows
    rw [hrows]
    refine turnRows_of_not_processed ?_ ?_ _
    · refine Option.eq_none_iff_forall_ne_some.2 fun e hp => ?_
      have heq := (processed_eq_some_iff.1 hp).1
      rw [toProcess_verdict hlaid hentry hverdict, Option.some.injEq] at heq
      subst heq
      exact hno _ hd hp
    · intro r hdel
      have hsome := toProcess_verdict hlaid hentry hverdict
      rw [hdel] at hsome
      cases hsome

end Rows

/-! ### A second call -/

variable {entry : InventoryEntry} {bytes : Bytes} {metadata : StableFileMetadata}
  {extraction : Extraction}

theorem readStableFile_of_extractEntry
    (h : extractEntry env disk entry = .ok (bytes, metadata, extraction)) :
    readStableFile disk entry.absPath = .ok (bytes, metadata) := by
  unfold extractEntry stableRead at h
  cases hread : readStableFile disk entry.absPath with
  | error e =>
    rw [hread] at h
    cases h
  | ok read =>
    simp only [hread, Except.mapError, bind, Except.bind, pure, Except.pure] at h
    cases hx : env.parserExtract (env.languageForPath entry.absPath) read.1 entry.relPath with
    | error e => simp [hx] at h
    | ok x =>
      simp only [hx, Except.ok.injEq, Prod.mk.injEq] at h
      rw [← h.1, ← h.2.1]

theorem currentStat_of_fileVerdict {t : FileTables} {d : FileDiff}
    (h : fileVerdict disk env.sha256Hex env.maxSize t project entry = .ok d) :
    ∃ current, currentStat disk entry = .ok current := by
  cases hcur : currentStat disk entry with
  | ok current => exact ⟨current, rfl⟩
  | error e =>
    rw [fileVerdict, entryDiff, hcur] at h
    cases h

theorem verdict_stampOf_iff {current : CurrentStat}
    (hx : extractEntry env disk entry = .ok (bytes, metadata, extraction))
    (hcur : currentStat disk entry = .ok current) :
    entryDiff disk env.sha256Hex env.maxSize (some (stampOf env bytes metadata)) none entry =
        .ok .unchanged ↔ Recognised env disk entry := by
  have hread := readStableFile_of_extractEntry hx
  rw [entryDiff_eq_unchanged_iff hcur]
  constructor
  · rintro (⟨skip, hskip, _⟩ | ⟨p, hp, hvouch⟩)
    · cases hskip
    · cases hp
      intro bytes' metadata' extraction' hx' current' hcur' hsize
      rw [hx] at hx'
      rw [hcur] at hcur'
      cases hx'
      cases hcur'
      exact hvouch.resolve_right fun h => h.1 hsize
  · intro hrecognised
    refine Or.inr ⟨_, rfl, ?_⟩
    by_cases hsize : env.maxSize < current.size
    · exact Or.inl (hrecognised bytes metadata extraction hx current hcur hsize)
    · exact Or.inr ⟨hsize, bytes, metadata, hread, rfl⟩

theorem deleteFileState_of_no_rows {t : FileTables} {r : String}
    (hstate : t.fileState.find? (project, r) = none) (hidentity : t.identityOf project r = none) :
    t.deleteFileState project r = t := by
  have hstay : ∀ {α : Type} {key : α → String × String} (u : KeyedTable α key),
      u.find? (project, r) = none → u.filter (fun a => decide (key a ≠ (project, r))) = u := by
    intro α key u hu
    refine KeyedTable.ext (List.filter_eq_self.2 fun a ha => decide_eq_true ?_)
    exact KeyedTable.find?_eq_none_iff.1 hu a ha
  have hidentity' := Option.map_eq_none_iff.1 hidentity
  unfold FileTables.deleteFileState
  rw [hstay t.fileState hstate, hstay t.fileIdentity hidentity']

section Again

variable {s s' : Store} {n : ℕ}
  (hdistinct : (inventory.map InventoryEntry.relPath).Nodup)
  (hdiff : computeFileDiff disk env.sha256Hex env.maxSize s.files project inventory = .ok diffs)
  (hup : Updated env disk project diffs (s, 0) (s', n))
include hdistinct hdiff hup

theorem fileVerdict_kept {entry : InventoryEntry} (hentry : entry ∈ inventory)
    (h : ¬ Reprocessed env disk diffs entry) :
    fileVerdict disk env.sha256Hex env.maxSize s'.files project entry =
      fileVerdict disk env.sha256Hex env.maxSize s.files project entry := by
  have hlaid := laid_of_computeFileDiff project hdistinct hdiff
  have hrows := rowsAt_kept env disk project hlaid hentry h s.files
  rw [← hup.files] at hrows
  rw [fileVerdict_eq_rows, fileVerdict_eq_rows, hrows]

theorem fileVerdict_reprocessed_iff {entry : InventoryEntry}
    (h : Reprocessed env disk diffs entry) :
    fileVerdict disk env.sha256Hex env.maxSize s'.files project entry = .ok .unchanged ↔
      Recognised env disk entry := by
  have hlaid := laid_of_computeFileDiff project hdistinct hdiff
  obtain ⟨hall, _⟩ := (computeFileDiff_ok_iff hdistinct).1 hdiff
  obtain ⟨d, hd, hp⟩ := h
  obtain ⟨⟨bytes, metadata, extraction⟩, hx⟩ := (hup.extracted d hd entry hp).1
  have hrows := rowsAt_reprocessed env disk project hlaid ⟨d, hd, hp⟩ hx s.files
  rw [← hup.files] at hrows
  obtain ⟨d', hd'⟩ := hall entry (Reprocessed.mem hlaid ⟨d, hd, hp⟩).1
  obtain ⟨current, hcur⟩ := currentStat_of_fileVerdict hd'
  rw [fileVerdict_eq_rows, hrows]
  exact verdict_stampOf_iff hx hcur

/-- A path that is gone was gone before, or there are no rows under it to delete. -/
theorem turnFiles_gone {r : String} (hr : r ∈ gonePaths s'.files project inventory) :
    s'.files.deleteFileState project r = s'.files := by
  have hlaid := laid_of_computeFileDiff project hdistinct hdiff
  have hout := (mem_gonePaths.1 hr).2
  have hgone : r ∈ gonePaths s.files project inventory := by
    by_contra hnot
    have hun : Unreported diffs r := by
      intro d hd hc
      rcases hlaid.mem_changedFiles.1 (List.mem_filterMap.2 ⟨d, hd, hc⟩) with ⟨e, he, rfl, _⟩ | h
      · exact hout (List.mem_map_of_mem he)
      · exact hnot h
    have hrows := rowsAt_unreported env disk project hun s.files
    rw [← hup.files] at hrows
    refine hnot (mem_gonePaths.2 ⟨?_, hout⟩)
    have hstate : s'.files.fileState.find? (project, r) = s.files.fileState.find? (project, r) :=
      congrArg FileRows.state hrows
    have hskip : s'.files.indexSkips.find? (project, r) = s.files.indexSkips.find? (project, r) :=
      congrArg FileRows.skip hrows
    rw [← hstate, ← hskip]
    exact (mem_gonePaths.1 hr).1
  have hrows := rowsAt_deleted env disk project hlaid
    ((mem_gone_iff hlaid).2 hgone) s.files
  rw [← hup.files] at hrows
  exact deleteFileState_of_no_rows (congrArg FileRows.state hrows)
    (congrArg FileRows.identity hrows)

/-- **When a second call finds nothing to do.** -/
theorem incrementalUpdate_again_iff :
    incrementalUpdate env disk project inventory s' = .ok (s', 0) ↔
      ∀ entry, Reprocessed env disk diffs entry → Recognised env disk entry := by
  have hlaid := laid_of_computeFileDiff project hdistinct hdiff
  constructor
  · intro hagain entry hentry
    obtain ⟨diffs', hdiff', hloop⟩ := incrementalUpdate_ok_iff.1 hagain
    have hlaid' := laid_of_computeFileDiff project hdistinct hdiff'
    obtain ⟨hmem, _, hp⟩ := hentry.mem hlaid
    obtain ⟨d, hd⟩ := ((computeFileDiff_ok_iff hdistinct).1 hdiff').1 entry hmem
    rw [← fileVerdict_reprocessed_iff hdistinct hdiff hup hentry]
    by_contra hne
    -- otherwise the second call processes the file too, and counts it
    have hverdict := verdictOf_eq hd
    have hchanged : verdictOf disk env.sha256Hex env.maxSize s'.files project entry ≠
        .unchanged := by
      rw [hverdict]
      rintro rfl
      exact hne hd
    have hprocessed := processed_eq_some_iff.2
      ⟨toProcess_verdict hlaid' hmem hchanged, (processed_eq_some_iff.1 hp).2⟩
    have hin := hlaid'.perm.mem_iff.2 (List.mem_append_left _ (List.mem_map_of_mem hmem))
    have hcount := (updated_of_foldlM hloop).count
    have hlen : 0 < (diffs'.filterMap (processed env disk)).length :=
      List.length_pos_of_mem (List.mem_filterMap.2 ⟨_, hin, hprocessed⟩)
    simp only at hcount
    omega
  · intro hrecognised
    obtain ⟨hall, _⟩ := (computeFileDiff_ok_iff hdistinct).1 hdiff
    have hall' : ∀ entry ∈ inventory, ∃ d,
        fileVerdict disk env.sha256Hex env.maxSize s'.files project entry = .ok d := by
      intro entry hentry
      by_cases hr : Reprocessed env disk diffs entry
      · exact ⟨_, (fileVerdict_reprocessed_iff hdistinct hdiff hup hr).2 (hrecognised entry hr)⟩
      · rw [fileVerdict_kept hdistinct hdiff hup hentry hr]
        exact hall entry hentry
    have hdiff' := (computeFileDiff_ok_iff hdistinct).2 ⟨hall', rfl⟩
    have hlaid' := laid_of_computeFileDiff project hdistinct hdiff'
    refine incrementalUpdate_ok_iff.2 ⟨_, hdiff', ?_⟩
    refine List.foldlM_ok_of_fixed fun d hd => ?_
    have hnone : processed env disk d = none := by
      refine Option.eq_none_iff_forall_ne_some.2 fun entry hp => ?_
      obtain ⟨hmem, hin, hp'⟩ := Reprocessed.mem hlaid' ⟨d, hd, hp⟩
      by_cases hr : Reprocessed env disk diffs entry
      · rw [verdictOf_eq ((fileVerdict_reprocessed_iff hdistinct hdiff hup hr).2
          (hrecognised entry hr))] at hp'
        cases hp'
      · obtain ⟨d₀, hd₀⟩ := hall entry hmem
        have hkept := fileVerdict_kept hdistinct hdiff hup hmem hr
        rw [hd₀] at hkept
        rw [verdictOf_eq hkept] at hp'
        refine hr ⟨d₀, ?_, hp'⟩
        rw [← verdictOf_eq hd₀]
        exact hlaid.perm.mem_iff.2 (List.mem_append_left _ (List.mem_map_of_mem hmem))
    rw [updateTurn_eq, hnone]
    have hfiles : turnFiles env disk project d s'.files = s'.files := by
      unfold turnFiles
      rw [hnone]
      cases d with
      | deleted r => exact turnFiles_gone hdistinct hdiff hup ((mem_gone_iff hlaid').1 hd)
      | unchanged => rfl
      | added e => rfl
      | modified e old => rfl
    simp only [hfiles]

end Again

/-! ### When nothing stale is left -/

/-- **An update leaves nothing stale exactly when all that it makes stale is overwritten.**  The
paths of an inventory are distinct, as those of a walk are. -/
theorem incrementalUpdate_leavesNothingStale_iff {s s' : Store} {n : ℕ}
    (hdistinct : (inventory.map InventoryEntry.relPath).Nodup)
    (hdiff : computeFileDiff disk env.sha256Hex env.maxSize s.files project inventory = .ok diffs)
    (hrun : incrementalUpdate env disk project inventory s = .ok (s', n)) :
    LeavesNothingStale env disk project inventory diffs s s' ↔
      AllOverwritten env disk project inventory diffs s := by
  obtain ⟨diffs', hdiff', hloop⟩ := incrementalUpdate_ok_iff.1 hrun
  rw [hdiff, Except.ok.injEq] at hdiff'
  subst hdiff'
  have hlaid := laid_of_computeFileDiff project hdistinct hdiff
  have hup := updated_of_foldlM hloop
  have hagain := incrementalUpdate_again_iff hdistinct hdiff hup
  constructor
  · intro h
    refine ⟨?_, ?_, ?_, hagain.1 h.again⟩
    · exact fun m hm hp hpath => stale_of_leaves hup.wrote h hm hp hpath
    · exact fun w w' hx hx' hq => distinct_of_leaves h hx hx' hq
    · exact fun entry hentry hun m hm hp hpath w hx =>
        apart_of_leaves hup.wrote h hentry hun hm hp hpath hx
  · intro h
    refine ⟨?_, ?_, ?_, hagain.2 h.recognised⟩
    · exact fun entry hentry => nodesUnder_reprocessed hup.wrote hlaid h hentry
    · intro r hr
      refine ⟨nodesUnder_deleted hup.wrote hlaid h hr, ?_⟩
      have hrows := rowsAt_deleted env disk project hlaid hr s.files
      rw [← hup.files] at hrows
      exact congrArg FileRows.state hrows
    · intro entry hentry hun
      refine ⟨?_, fun m hp hpath => mem_nodes_unchanged hup.wrote h hentry hun hp hpath⟩
      have hrows := rowsAt_unreported env disk project hun s.files
      rwa [← hup.files] at hrows

end Update

/-! ### A file that is edited and one that is deleted -/

def twoFunctions : List Node :=
  [⟨⟨"p", "Function", "f", "a.rs::f", "a.rs", 1, 1, .obj []⟩, 1⟩,
   ⟨⟨"p", "Function", "g", "b.rs::g", "b.rs", 1, 1, .obj []⟩, 2⟩]

theorem ids_lt_twoFunctions : ∀ n ∈ twoFunctions, n.id < 3 := by decide

/-- A store with the functions of two files and the rows of both. -/
def twoFiles : Store where
  graph :=
    { projects := KeyedTable.empty.upsert ⟨"p", "t", "/repos/p"⟩
      nodes := ⟨twoFunctions, by decide⟩
      nextNodeId := 3
      edges := KeyedTable.empty
      ids_nodup := by decide
      ids_lt := ids_lt_twoFunctions
      nodes_fk := by decide
      edges_fk := by simp }
  files := (FileTables.empty.upsertFileState
    ⟨"p", "a.rs", "rust", "97", 5, 1, "tree-sitter-0.25", "greppy-extractor-v1", 1⟩).upsertFileState
      ⟨"p", "b.rs", "rust", "98", 5, 1, "tree-sitter-0.25", "greppy-extractor-v1", 1⟩
  rawEdges := []
  legacySidecar := false

theorem exists_incrementalUpdate {env : Env} {disk : Disk} {project : String}
    {inventory : List InventoryEntry} {s : Store} {n : ℕ}
    (h : (incrementalUpdate env disk project inventory s).map Prod.snd = .ok n) :
    ∃ s', incrementalUpdate env disk project inventory s = .ok (s', n) := by
  cases hrun : incrementalUpdate env disk project inventory s with
  | error e =>
    rw [hrun] at h
    cases h
  | ok r =>
    rw [hrun] at h
    cases h
    exact ⟨r.1, rfl⟩

/-- A file that is new beside two that are gone. -/
theorem incrementalUpdate_leavesNothingStale_iff_added :
    ([entryAt "c.rs"].map InventoryEntry.relPath).Nodup ∧
    computeFileDiff (diskOf [("/repos/p/c.rs", [99])] 7) rustOnly.sha256Hex rustOnly.maxSize
      twoFiles.files "p" [entryAt "c.rs"] =
        .ok [.deleted "a.rs", .deleted "b.rs", .added (entryAt "c.rs")] ∧
    ∃ s', incrementalUpdate rustOnly (diskOf [("/repos/p/c.rs", [99])] 7) "p" [entryAt "c.rs"]
        twoFiles = .ok (s', 1) ∧
      (LeavesNothingStale rustOnly (diskOf [("/repos/p/c.rs", [99])] 7) "p" [entryAt "c.rs"]
          [.deleted "a.rs", .deleted "b.rs", .added (entryAt "c.rs")] twoFiles s' ↔
        AllOverwritten rustOnly (diskOf [("/repos/p/c.rs", [99])] 7) "p" [entryAt "c.rs"]
          [.deleted "a.rs", .deleted "b.rs", .added (entryAt "c.rs")] twoFiles) := by
  have hcount : (incrementalUpdate rustOnly (diskOf [("/repos/p/c.rs", [99])] 7) "p"
      [entryAt "c.rs"] twoFiles).map Prod.snd = .ok 1 := by decide +kernel
  have hdiff : computeFileDiff (diskOf [("/repos/p/c.rs", [99])] 7) rustOnly.sha256Hex
      rustOnly.maxSize twoFiles.files "p" [entryAt "c.rs"] =
        .ok [.deleted "a.rs", .deleted "b.rs", .added (entryAt "c.rs")] := by decide +kernel
  obtain ⟨s', hrun⟩ := exists_incrementalUpdate hcount
  exact ⟨by decide, hdiff, s', hrun,
    incrementalUpdate_leavesNothingStale_iff (by decide) hdiff hrun⟩

theorem extractedNodes_rustOnly (disk : Disk) (project : String) (entry : InventoryEntry) :
    extractedNodes rustOnly disk project entry = [] := by
  unfold extractedNodes
  cases hx : extractEntry rustOnly disk entry with
  | error e => rfl
  | ok read =>
    have hread : ∀ bytes : Bytes, ∀ x,
        rustOnly.parserExtract (rustOnly.languageForPath entry.absPath) bytes entry.relPath =
          .ok x → x = ⟨[], []⟩ := by
      intro bytes x h
      simp only [rustOnly] at h
      split at h
      · cases h
      · exact (Except.ok.inj h).symm
    unfold extractEntry at hx
    cases hs : stableRead disk entry with
    | error e =>
      rw [hs] at hx
      cases hx
    | ok r =>
      simp only [hs, Except.mapError, bind, Except.bind, pure, Except.pure] at hx
      cases hp : rustOnly.parserExtract (rustOnly.languageForPath entry.absPath) r.1
          entry.relPath with
      | error e => simp [hp] at hx
      | ok x =>
        simp only [hp, Except.ok.injEq] at hx
        subst hx
        rw [hread r.1 x hp]
        rfl

/-- One file is edited and its function is gone, the other file is deleted: both nodes are left. -/
theorem incrementalUpdate_leaves_stale_nodes :
    (∀ n ∈ twoFiles.graph.nodes.rows,
      (twoFiles.files.fileState.find? (n.project, n.filePath)).isSome) ∧
    computeFileDiff (diskOf [("/repos/p/a.rs", [99])] 7) rustOnly.sha256Hex rustOnly.maxSize
      twoFiles.files "p" [entryAt "a.rs"] = .ok [.modified (entryAt "a.rs") "97", .deleted "b.rs"] ∧
    ∃ s', incrementalUpdate rustOnly (diskOf [("/repos/p/a.rs", [99])] 7) "p" [entryAt "a.rs"]
        twoFiles = .ok (s', 1) ∧
      nodesUnder s'.graph "p" "a.rs" ≠
        {w | w ∈ extractedNodes rustOnly (diskOf [("/repos/p/a.rs", [99])] 7) "p"
          (entryAt "a.rs")} ∧
      nodesUnder s'.graph "p" "b.rs" ≠ ∅ ∧
      ¬ LeavesNothingStale rustOnly (diskOf [("/repos/p/a.rs", [99])] 7) "p" [entryAt "a.rs"]
        [.modified (entryAt "a.rs") "97", .deleted "b.rs"] twoFiles s' := by
  have hcount : (incrementalUpdate rustOnly (diskOf [("/repos/p/a.rs", [99])] 7) "p"
      [entryAt "a.rs"] twoFiles).map Prod.snd = .ok 1 := by decide +kernel
  obtain ⟨s', hrun⟩ := exists_incrementalUpdate hcount
  obtain ⟨diffs, _, hloop⟩ := incrementalUpdate_ok_iff.1 hrun
  -- nothing is extracted, so every node stays
  have hleft : ∀ n ∈ twoFiles.graph.nodes.rows, n.project = "p" →
      n.toNewNode ∈ nodesUnder s'.graph "p" n.filePath := by
    intro n hn hp
    refine ⟨hp, rfl, n, old_stays (updated_of_foldlM hloop).wrote hn hp ?_, rfl⟩
    rintro w ⟨entry, _, hw⟩
    rw [extractedNodes_rustOnly] at hw
    cases hw
  have hdeleted : nodesUnder s'.graph "p" "b.rs" ≠ ∅ :=
    Set.nonempty_iff_ne_empty.1 ⟨_, hleft twoFunctions[1] (by decide) rfl⟩
  refine ⟨by decide, by decide +kernel, s', hrun, ?_, hdeleted, ?_⟩
  · intro heq
    have hmem := hleft twoFunctions[0] (by decide) rfl
    have hset := heq ▸ hmem
    rw [extractedNodes_rustOnly] at hset
    cases hset
  · exact fun h => hdeleted (h.deleted "b.rs" (by decide)).1

end Greppy
