/-
**The structural spine: Project, Folder and File nodes over the discovered files.**

`crates/indexer/src/structural.rs` materializes the directory tree of the inventory in the graph,
independently of what any language extractor produces: one Project node, one Folder per directory
that holds a discovered file, one File per discovered file, and the `CONTAINS_FOLDER` and
`CONTAINS_FILE` edges of the tree.  Nodes are upserted by qualified name, and the qualified names are
dotted: `file_qn` strips the extension, turns separators into dots and drops a trailing `index` or
`__init__`.  So the spine is only as faithful as this naming is injective.

Main results:

* `mem_spineDirs` — the early `break` of the loop loses no directory;
* `buildStructural_spec` — what one pass leaves, from any store;
* `spine_exact_iff` — **the spine is complete exactly when no two names coincide, and a second pass
  leaves nothing of the first exactly when no containment of the first survives between names of
  the second.**
-/

import Greppy.Discover
import Greppy.ExceptMap
import Greppy.GraphWrites
import Greppy.RustStr

set_option autoImplicit false

namespace Greppy

/-! ### Names -/

/-- `norm`: backslashes become slashes. -/
def norm (path : String) : String :=
  String.ofList (path.toList.map fun c => if c = '\\' then '/' else c)

/-- `parent_dir`: everything before the last slash. -/
def parentDir (relPath : String) : String :=
  match beforeLast '/' relPath.toList with
  | some dir => String.ofList dir
  | none => ""

def afterLast (sep : Char) (s : List Char) : List Char := (s.reverse.takeWhile (· ≠ sep)).reverse

/-- `basename`: everything after the last slash. -/
def basename (relPath : String) : String := String.ofList (afterLast '/' relPath.toList)

/-- `extension`: the extension of the base name with its dot, or nothing. -/
def extension (relPath : String) : String :=
  let b := afterLast '/' relPath.toList
  match beforeLast '.' b with
  | some stem => String.ofList (b.drop stem.length)
  | none => ""

/-- `strip_file_extension`: only the last component loses its extension. -/
def stripFileExtension (path : String) : String :=
  let last := afterLast '/' path.toList
  let dir := path.toList.take (path.toList.length - last.length)
  String.ofList (dir ++ (beforeLast '.' last).getD last)

/-- The non-empty segments of a path, after the project name. -/
def nameSegments (project path : String) : List (List Char) :=
  project.toList :: (splitOnChar '/' path.toList).filter fun seg => decide (seg ≠ [])

/-- `segs.join(".")`. -/
def joinDots (segs : List (List Char)) : String := String.ofList (List.intercalate ['.'] segs)

def fileQn (project relPath : String) : String :=
  let segs := nameSegments project (stripFileExtension (norm relPath))
  let segs :=
    if 1 < segs.length ∧ (segs.getLast? = some "__init__".toList ∨
        segs.getLast? = some "index".toList) then segs.dropLast
    else segs
  joinDots (segs ++ ["__file__".toList])

def folderQn (project relDir : String) : String := joinDots (nameSegments project (norm relDir))

example : fileQn "p" "src/a.tar.gz" = "p.src.a.tar.__file__" := by decide

/-! ### Directories -/

/-- The inner `while` loop: record a directory and its ancestors, up to one already recorded. -/
def addDirs : ℕ → String → List String → List String
  | 0, _, dirs => dirs
  | fuel + 1, dir, dirs =>
    if dir = "" then dirs
    else if dir ∈ dirs then dirs
    else addDirs fuel (parentDir dir) (dir :: dirs)

/-- One turn of the outer loop; a path is longer than its ancestors, so its length bounds the inner
one. -/
def recordDirs (dirs : List String) (entry : InventoryEntry) : List String :=
  let dir := parentDir (norm entry.relPath)
  addDirs dir.length dir dirs

/-- The directories recorded for one entry after the other. -/
def collectDirs (entries : List InventoryEntry) : List String := entries.foldl recordDirs []

/-- `dirs`, in the order of the `BTreeSet`. -/
def spineDirs (entries : List InventoryEntry) : List String :=
  (collectDirs entries).insertionSort (· ≤ ·)

/-- A directory that holds an entry, at any depth: a non-empty iterated parent of its path. -/
def IsDirOf (entries : List InventoryEntry) (d : String) : Prop :=
  d ≠ "" ∧ ∃ e ∈ entries, ∃ k, d = parentDir^[k + 1] (norm e.relPath)

theorem parentDir_empty : parentDir "" = "" := rfl

theorem parentDir_iterate_empty (k : ℕ) : parentDir^[k] "" = "" :=
  Function.iterate_fixed parentDir_empty k

variable {dir d project label : String} {dirs : List String} {e : Edge}
  {entries : List InventoryEntry} {g : Graph} {es : List Edge} {i j projectId : ℕ}
  {folderId : List (String × ℕ)} {n : Node}

theorem length_parentDir_lt (h : dir ≠ "") : (parentDir dir).length < dir.length := by
  have hpos : 0 < dir.toList.length := by
    rw [List.length_pos_iff, ne_eq, String.toList_eq_nil_iff]
    exact h
  rw [← String.length_toList, ← String.length_toList (s := dir)]
  unfold parentDir
  cases hb : beforeLast '/' dir.toList with
  | none => simpa using hpos
  | some rest =>
    unfold beforeLast at hb
    cases hd : dir.toList.reverse.dropWhile (· ≠ '/') with
    | nil =>
      rw [hd] at hb
      cases hb
    | cons c tail =>
      rw [hd] at hb
      cases hb
      have hle := (List.dropWhile_suffix (l := dir.toList.reverse) (· ≠ '/')).length_le
      rw [hd, List.length_cons, List.length_reverse] at hle
      rw [String.toList_ofList, List.length_reverse]
      omega

/-- Every directory's parent is there too, up to `dir`, which is about to be added. -/
def ClosedUpTo (dir : String) (dirs : List String) : Prop :=
  ∀ x ∈ dirs, parentDir x = "" ∨ parentDir x ∈ dirs ∨ parentDir x = dir

theorem ClosedUpTo.mem_iterate (h : ClosedUpTo "" dirs) (hd : d ∈ dirs) (k : ℕ)
    (hne : parentDir^[k] d ≠ "") : parentDir^[k] d ∈ dirs := by
  induction k with
  | zero => exact hd
  | succ k ih =>
    rw [Function.iterate_succ_apply'] at hne ⊢
    have hk : parentDir^[k] d ≠ "" := by
      intro h0
      exact hne (by rw [h0, parentDir_empty])
    rcases h _ (ih hk) with h0 | hmem | h0
    · exact absurd h0 hne
    · exact hmem
    · exact absurd h0 hne

/-- Breaking off at a recorded directory loses none: its ancestors are recorded as well. -/
theorem mem_addDirs {fuel : ℕ} (hfuel : dir.length ≤ fuel) (hclosed : ClosedUpTo dir dirs) :
    d ∈ addDirs fuel dir dirs ↔ d ∈ dirs ∨ (d ≠ "" ∧ ∃ k, d = parentDir^[k] dir) := by
  induction fuel generalizing dir dirs with
  | zero =>
    have hempty : dir = "" := by
      rw [← String.length_eq_zero_iff]
      omega
    subst hempty
    simp only [addDirs, parentDir_iterate_empty, exists_const]
    constructor
    · exact Or.inl
    · rintro (h | ⟨hne, rfl⟩)
      · exact h
      · exact absurd rfl hne
  | succ fuel ih =>
    unfold addDirs
    by_cases hdir : dir = ""
    · subst hdir
      simp only [if_true, parentDir_iterate_empty, exists_const]
      constructor
      · exact Or.inl
      · rintro (h | ⟨hne, rfl⟩)
        · exact h
        · exact absurd rfl hne
    · rw [if_neg hdir]
      by_cases hmem : dir ∈ dirs
      · rw [if_pos hmem]
        have hclosed' : ClosedUpTo "" dirs := by
          intro x hx
          rcases hclosed x hx with h0 | h1 | h1
          · exact Or.inl h0
          · exact Or.inr (Or.inl h1)
          · exact Or.inr (Or.inl (h1 ▸ hmem))
        constructor
        · exact Or.inl
        · rintro (h | ⟨hne, k, rfl⟩)
          · exact h
          · exact hclosed'.mem_iterate hmem k hne
      · rw [if_neg hmem, ih]
        · constructor
          · rintro (h | ⟨hne, k, rfl⟩)
            · rcases List.mem_cons.1 h with rfl | h
              · exact Or.inr ⟨hdir, 0, rfl⟩
              · exact Or.inl h
            · exact Or.inr ⟨hne, k + 1, rfl⟩
          · rintro (h | ⟨hne, k, rfl⟩)
            · exact Or.inl (List.mem_cons_of_mem _ h)
            · cases k with
              | zero => exact Or.inl List.mem_cons_self
              | succ k => exact Or.inr ⟨hne, k, rfl⟩
        · have := length_parentDir_lt hdir
          omega
        · intro x hx
          rcases List.mem_cons.1 hx with rfl | hx
          · exact Or.inr (Or.inr rfl)
          · rcases hclosed x hx with h0 | h1 | rfl
            · exact Or.inl h0
            · exact Or.inr (Or.inl (List.mem_cons_of_mem _ h1))
            · exact Or.inr (Or.inl List.mem_cons_self)

theorem nodup_addDirs {fuel : ℕ} (h : dirs.Nodup) : (addDirs fuel dir dirs).Nodup := by
  induction fuel generalizing dir dirs with
  | zero => exact h
  | succ fuel ih =>
    unfold addDirs
    by_cases hdir : dir = ""
    · rwa [if_pos hdir]
    · rw [if_neg hdir]
      by_cases hmem : dir ∈ dirs
      · rwa [if_pos hmem]
      · rw [if_neg hmem]
        exact ih (List.nodup_cons.2 ⟨hmem, h⟩)

theorem closed_recordDirs {e : InventoryEntry} (h : ClosedUpTo "" dirs) :
    ClosedUpTo "" (recordDirs dirs e) := by
  unfold recordDirs
  generalize parentDir (norm e.relPath) = dir
  have hclosed : ClosedUpTo dir dirs := by
    intro x hx
    rcases h x hx with h0 | h1 | h0
    · exact Or.inl h0
    · exact Or.inr (Or.inl h1)
    · exact Or.inl h0
  intro x hx
  by_cases h0 : parentDir x = ""
  · exact Or.inl h0
  · refine Or.inr (Or.inl ((mem_addDirs le_rfl hclosed).2 ?_))
    rcases (mem_addDirs le_rfl hclosed).1 hx with hx | ⟨_, k, rfl⟩
    · rcases h x hx with h1 | h1 | h1
      · exact absurd h1 h0
      · exact Or.inl h1
      · exact absurd h1 h0
    · exact Or.inr ⟨h0, k + 1, (Function.iterate_succ_apply' parentDir k dir).symm⟩

private theorem collect_from (hclosed : ClosedUpTo "" dirs) (hnodup : dirs.Nodup) :
    (entries.foldl recordDirs dirs).Nodup ∧
      ∀ d, d ∈ entries.foldl recordDirs dirs ↔ d ∈ dirs ∨ IsDirOf entries d := by
  induction entries generalizing dirs with
  | nil => simpa [IsDirOf] using hnodup
  | cons e entries ih =>
    have hnodup' : (recordDirs dirs e).Nodup := nodup_addDirs hnodup
    obtain ⟨hall, hmem⟩ := ih (closed_recordDirs hclosed) hnodup'
    rw [List.foldl_cons]
    refine ⟨hall, fun d => ?_⟩
    have hupto : ClosedUpTo (parentDir (norm e.relPath)) dirs := by
      intro x hx
      rcases hclosed x hx with h0 | h1 | h0
      · exact Or.inl h0
      · exact Or.inr (Or.inl h1)
      · exact Or.inl h0
    have hrecord : d ∈ recordDirs dirs e ↔
        d ∈ dirs ∨ (d ≠ "" ∧ ∃ k, d = parentDir^[k] (parentDir (norm e.relPath))) :=
      mem_addDirs le_rfl hupto
    rw [hmem, hrecord, or_assoc]
    refine or_congr_right ?_
    constructor
    · rintro (⟨hne, k, hk⟩ | ⟨hne, e', he', hk⟩)
      · exact ⟨hne, e, List.mem_cons_self, k, hk⟩
      · exact ⟨hne, e', List.mem_cons_of_mem _ he', hk⟩
    · rintro ⟨hne, e', he', k, hk⟩
      rcases List.mem_cons.1 he' with rfl | he'
      · exact Or.inl ⟨hne, k, hk⟩
      · exact Or.inr ⟨hne, e', he', k, hk⟩

theorem mem_spineDirs : d ∈ spineDirs entries ↔ IsDirOf entries d := by
  have h : d ∈ collectDirs entries ↔ d ∈ [] ∨ IsDirOf entries d :=
    (collect_from (by simp [ClosedUpTo]) List.nodup_nil).2 d
  rw [spineDirs, (List.perm_insertionSort _ _).mem_iff]
  exact h.trans (by simp)

theorem nodup_spineDirs (entries : List InventoryEntry) : (spineDirs entries).Nodup := by
  rw [spineDirs, (List.perm_insertionSort _ _).nodup_iff]
  exact (collect_from (by simp [ClosedUpTo]) List.nodup_nil).1

theorem parentDir_mem_spineDirs (h : d ∈ spineDirs entries) (hp : parentDir d ≠ "") :
    parentDir d ∈ spineDirs entries := by
  obtain ⟨_, e, he, k, rfl⟩ := mem_spineDirs.1 h
  exact mem_spineDirs.2 ⟨hp, e, he, k + 1, (Function.iterate_succ_apply' parentDir _ _).symm⟩

theorem parentDir_entry_mem_spineDirs {e : InventoryEntry} (h : e ∈ entries)
    (hp : parentDir (norm e.relPath) ≠ "") : parentDir (norm e.relPath) ∈ spineDirs entries :=
  mem_spineDirs.2 ⟨hp, e, h, 0, rfl⟩

/-! ### Nodes -/

def projectNode (project : String) : NewNode :=
  ⟨project, "Project", project, project, "", 0, 0, Json.emptyObj⟩

def folderNode (project dir : String) : NewNode :=
  ⟨project, "Folder", basename dir, folderQn project dir, dir, 0, 0, Json.emptyObj⟩

def fileNode (project rel : String) : NewNode :=
  ⟨project, "File", basename rel, fileQn project rel, rel, 0, 0,
    Json.obj [("extension", .str (extension rel))]⟩

/-- `NON_DEF_LABELS`: the spine is not a definition of any file. -/
def nonDefLabels : List String := ["File", "Folder", "Project"]

def usizeMax : ℕ := 2 ^ 64 - 1

/-! ### The pass -/

/-- How the pass can fail: a refused statement, or a directory that was never recorded (in the
source an index into a `HashMap`, which would panic). -/
inductive SpineError where
  | store (e : StoreError)
  | noFolder (dir : String)
  deriving DecidableEq

def spineEdge (project edgeType : String) (sourceId targetId : ℕ) : Edge :=
  ⟨project, sourceId, targetId, edgeType, Json.emptyObj⟩

/-- Insert the Folder nodes and remember their ids by directory. -/
def insertFolders (project : String) :
    List String → Graph → Except SpineError (Graph × List (String × ℕ))
  | [], g => .ok (g, [])
  | dir :: dirs, g => do
      let (g, id) ← (g.insertNodeInTx (folderNode project dir)).mapError .store
      let (g, ids) ← insertFolders project dirs g
      return (g, (dir, id) :: ids)

/-- `folder_id[dir]`. -/
def folderAt (folderId : List (String × ℕ)) (dir : String) : Except SpineError ℕ :=
  match folderId.lookup dir with
  | some id => .ok id
  | none => .error (.noFolder dir)

/-- The enclosing directory's Folder, or the Project at the top. -/
def parentAt (projectId : ℕ) (folderId : List (String × ℕ)) (parentRel : String) :
    Except SpineError ℕ :=
  if parentRel = "" then .ok projectId else folderAt folderId parentRel

/-- `CONTAINS_FOLDER`: one edge per folder. -/
def folderEdges (project : String) (projectId : ℕ) (folderId : List (String × ℕ))
    (dirs : List String) : Except SpineError (List Edge) :=
  dirs.mapM fun dir => do
    let child ← folderAt folderId dir
    let parent ← parentAt projectId folderId (parentDir dir)
    return spineEdge project "CONTAINS_FOLDER" parent child

/-- The File nodes with their `CONTAINS_FILE` edge and the `DEFINES` edges to what the file
defines. -/
def insertFiles (project : String) (projectId : ℕ) (folderId : List (String × ℕ)) :
    List InventoryEntry → Graph → Except SpineError (Graph × List Edge)
  | [], g => .ok (g, [])
  | entry :: entries, g => do
      let rel := norm entry.relPath
      let (g, fileId) ← (g.insertNodeInTx (fileNode project rel)).mapError .store
      let parent ← parentAt projectId folderId (parentDir rel)
      let defs := (g.listNodes project "" rel usizeMax).filter
        fun n => decide (n.label ∉ nonDefLabels)
      let (g, edges) ← insertFiles project projectId folderId entries g
      return (g, spineEdge project "CONTAINS_FILE" parent fileId ::
        (defs.map fun n => spineEdge project "DEFINES" fileId n.id) ++ edges)

/-- The cleanup pass: drop the nodes of a spine label whose name was not written this time. -/
def dropStale (project label : String) (valid : List String) (g : Graph) : Graph :=
  g.deleteNodes (((g.listNodesByLabel project label usizeMax).filter
    fun n => decide (n.qualifiedName ∉ valid)).map Node.id)

def buildStructural (project : String) (entries : List InventoryEntry) (g : Graph) :
    Except SpineError Graph := do
  let (g, projectId) ← (g.insertNodeInTx (projectNode project)).mapError .store
  let dirs := spineDirs entries
  let (g, folderId) ← insertFolders project dirs g
  let folders ← folderEdges project projectId folderId dirs
  let (g, files) ← insertFiles project projectId folderId entries g
  let g ← (g.insertEdges (folders ++ files)).mapError .store
  let g := dropStale project "Folder" (dirs.map (folderQn project)) g
  return dropStale project "File" (entries.map fun e => fileQn project (norm e.relPath)) g

/-! ### What the pass asks for -/

/-- A containment by name: the keys of the parent and the child, and the edge type. -/
abbrev Containment : Type := (String × String) × (String × String) × String

/-- The qualified name of a directory's node, the Project for the root. -/
def dirQn (project dir : String) : String := if dir = "" then project else folderQn project dir

def folderContainment (project dir : String) : Containment :=
  ((project, dirQn project (parentDir dir)), (project, folderQn project dir), "CONTAINS_FOLDER")

def fileContainment (project rel : String) : Containment :=
  ((project, dirQn project (parentDir rel)), (project, fileQn project rel), "CONTAINS_FILE")

/-- The paths of the entries, as the pass normalizes them. -/
def relPaths (entries : List InventoryEntry) : List String := entries.map fun e => norm e.relPath

/-- The containments of a set of entries. -/
def spineContainment (project : String) (entries : List InventoryEntry) : List Containment :=
  (spineDirs entries).map (folderContainment project) ++
    (relPaths entries).map (fileContainment project)

/-- The nodes the pass writes, in order. -/
def spineNodes (project : String) (entries : List InventoryEntry) : List NewNode :=
  projectNode project :: (spineDirs entries).map (folderNode project) ++
    (relPaths entries).map (fileNode project)

/-- The qualified names of the spine of a set of entries. -/
def spineNames (project : String) (entries : List InventoryEntry) : List String :=
  project :: (spineDirs entries).map (folderQn project) ++ (relPaths entries).map (fileQn project)

/-! ### The two phases of the pass -/

/-- The edge `e` connects the two nodes of the containment `t` in `g`. -/
def DrawnAs (g : Graph) (t : Containment) (e : Edge) : Prop :=
  g.idAt t.1 = some e.sourceId ∧ g.idAt t.2.1 = some e.targetId ∧ e.edgeType = t.2.2

/-- The edges `es` are the containments `ts` and `DEFINES` edges, all between nodes of `g`. -/
structure Draws (g : Graph) (project : String) (es : List Edge) (ts : List Containment) :
    Prop where
  valid : ∀ e ∈ es, e.project = project ∧ e.properties = Json.emptyObj ∧
    e.sourceId ∈ g.nodes.rows.map Node.id ∧ e.targetId ∈ g.nodes.rows.map Node.id
  sound : ∀ e ∈ es, e.edgeType = "DEFINES" ∨ ∃ t ∈ ts, DrawnAs g t e
  complete : ∀ t ∈ ts, ∃ e ∈ es, DrawnAs g t e
  /-- The source of a `DEFINES` edge is a file that is contained somewhere. -/
  source : ∀ e ∈ es, ∃ t ∈ ts, g.idAt t.1 = some e.sourceId ∨ g.idAt t.2.1 = some e.sourceId

theorem DrawnAs.mono {ns : List NewNode} {g' : Graph} (hw : Wrote ns g g') {t : Containment}
    (h : DrawnAs g t e) : DrawnAs g' t e :=
  ⟨hw.idAt h.1, hw.idAt h.2.1, h.2.2⟩

variable {ts : List Containment} {c : Containment}

theorem Draws.mono {ns : List NewNode} {g' : Graph} (hw : Wrote ns g g') (h : Draws g project es ts) :
    Draws g' project es ts where
  valid := by
    intro e he
    obtain ⟨hp, hprops, hs, ht⟩ := h.valid e he
    exact ⟨hp, hprops, hw.mem_ids hs, hw.mem_ids ht⟩
  sound := by
    intro e he
    rcases h.sound e he with hdef | ⟨t, ht, hd⟩
    · exact Or.inl hdef
    · exact Or.inr ⟨t, ht, hd.mono hw⟩
  complete := by
    intro t ht
    obtain ⟨e, he, hd⟩ := h.complete t ht
    exact ⟨e, he, hd.mono hw⟩
  source := by
    intro e he
    obtain ⟨t, ht, hend⟩ := h.source e he
    exact ⟨t, ht, hend.imp hw.idAt hw.idAt⟩

theorem Draws.append {es' : List Edge} {ts' : List Containment} (h : Draws g project es ts)
    (h' : Draws g project es' ts') :
    Draws g project (es ++ es') (ts ++ ts') where
  valid := by
    intro e he
    rcases List.mem_append.1 he with he | he
    · exact h.valid e he
    · exact h'.valid e he
  sound := by
    intro e he
    rcases List.mem_append.1 he with he | he
    · rcases h.sound e he with hdef | ⟨t, ht, hd⟩
      · exact Or.inl hdef
      · exact Or.inr ⟨t, List.mem_append_left _ ht, hd⟩
    · rcases h'.sound e he with hdef | ⟨t, ht, hd⟩
      · exact Or.inl hdef
      · exact Or.inr ⟨t, List.mem_append_right _ ht, hd⟩
  complete := by
    intro t ht
    rcases List.mem_append.1 ht with ht | ht
    · obtain ⟨e, he, hd⟩ := h.complete t ht
      exact ⟨e, List.mem_append_left _ he, hd⟩
    · obtain ⟨e, he, hd⟩ := h'.complete t ht
      exact ⟨e, List.mem_append_right _ he, hd⟩
  source := by
    intro e he
    rcases List.mem_append.1 he with he | he
    · obtain ⟨t, ht, hend⟩ := h.source e he
      exact ⟨t, List.mem_append_left _ ht, hend⟩
    · obtain ⟨t, ht, hend⟩ := h'.source e he
      exact ⟨t, List.mem_append_right _ ht, hend⟩

variable {k : String × String} {all valid : List String} {g₁ : Graph}

theorem draws_spineEdge (project edgeType : String) {k' : String × String} (hi : g.idAt k = some i)
    (hj : g.idAt k' = some j) :
    Draws g project [spineEdge project edgeType i j] [(k, k', edgeType)] where
  valid := by
    intro e he
    rw [List.mem_singleton.1 he]
    exact ⟨rfl, rfl, Graph.mem_ids_of_idAt hi, Graph.mem_ids_of_idAt hj⟩
  sound := by
    intro e he
    rw [List.mem_singleton.1 he]
    exact Or.inr ⟨_, List.mem_singleton_self _, hi, hj, rfl⟩
  complete := by
    intro t ht
    rw [List.mem_singleton.1 ht]
    exact ⟨_, List.mem_singleton_self _, hi, hj, rfl⟩
  source := by
    intro e he
    rw [List.mem_singleton.1 he]
    exact ⟨_, List.mem_singleton_self _, Or.inl hi⟩

/-- The remembered ids are those of the Folder nodes. -/
def FolderIds (g : Graph) (project : String) (dirs : List String)
    (folderId : List (String × ℕ)) : Prop :=
  ∀ d ∈ dirs, ∃ id, folderId.lookup d = some id ∧ g.idAt (project, folderQn project d) = some id

theorem insertFolders_spec (dirs : List String) (hp : (g.projects.find? project).isSome) :
    ∃ g' folderId, insertFolders project dirs g = .ok (g', folderId) ∧
      Wrote (dirs.map (folderNode project)) g g' ∧ FolderIds g' project dirs folderId := by
  induction dirs generalizing g with
  | nil => exact ⟨g, [], rfl, Wrote.refl g, by simp [FolderIds]⟩
  | cons dir dirs ih =>
    obtain ⟨g₁, id, h₁, hw₁, hfind⟩ := exists_insertNodeInTx (n := folderNode project dir) hp
    have hp₁ : (g₁.projects.find? project).isSome := by
      rw [hw₁.projects_eq]
      exact hp
    obtain ⟨g₂, ids, h₂, hw₂, hids⟩ := ih hp₁
    have hid : g₂.idAt (project, folderQn project dir) = some id :=
      hw₂.idAt (Option.map_eq_some_iff.2 ⟨_, hfind, rfl⟩)
    refine ⟨g₂, (dir, id) :: ids, ?_, hw₁.trans hw₂, ?_⟩
    · simp only [insertFolders, h₁, h₂, Except.mapError, bind, Except.bind, pure, Except.pure]
    · intro d hd
      by_cases hdd : d = dir
      · subst hdd
        exact ⟨id, List.lookup_cons_self, hid⟩
      · obtain ⟨i, hi, hg⟩ := hids d ((List.mem_cons.1 hd).resolve_left hdd)
        refine ⟨i, ?_, hg⟩
        rw [List.lookup_cons, beq_false_of_ne hdd]
        exact hi

theorem parentAt_spec (hproj : g.idAt (project, project) = some projectId)
    (hids : FolderIds g project dirs folderId) (hdir : dir ≠ "" → dir ∈ dirs) :
    ∃ id, parentAt projectId folderId dir = .ok id ∧ g.idAt (project, dirQn project dir) = some id := by
  unfold parentAt dirQn
  by_cases h0 : dir = ""
  · exact ⟨projectId, by rw [if_pos h0], by rw [if_pos h0, hproj]⟩
  · obtain ⟨id, hid, hg⟩ := hids dir (hdir h0)
    refine ⟨id, ?_, by rw [if_neg h0, hg]⟩
    rw [if_neg h0, folderAt, hid]

theorem folderEdges_spec (hproj : g.idAt (project, project) = some projectId)
    (hids : FolderIds g project all folderId) (dirs : List String) (hsub : ∀ d ∈ dirs, d ∈ all)
    (hparent : ∀ d ∈ dirs, parentDir d ≠ "" → parentDir d ∈ all) :
    ∃ es, folderEdges project projectId folderId dirs = .ok es ∧
      Draws g project es (dirs.map (folderContainment project)) := by
  induction dirs with
  | nil => exact ⟨[], rfl, by simp, by simp, by simp, by simp⟩
  | cons dir dirs ih =>
    obtain ⟨es, hes, hdraws⟩ := ih (fun d hd => hsub d (List.mem_cons_of_mem _ hd))
      fun d hd => hparent d (List.mem_cons_of_mem _ hd)
    obtain ⟨child, hchild, hcg⟩ := hids dir (hsub dir List.mem_cons_self)
    obtain ⟨parent, hparentAt, hpg⟩ := parentAt_spec hproj hids (hparent dir List.mem_cons_self)
    refine ⟨spineEdge project "CONTAINS_FOLDER" parent child :: es, ?_,
      (draws_spineEdge project "CONTAINS_FOLDER" hpg hcg).append hdraws⟩
    unfold folderEdges at hes ⊢
    rw [List.mapM_cons, hes]
    simp only [folderAt, hchild, hparentAt, bind, Except.bind, pure, Except.pure]

/-- The `DEFINES` edges of a contained file come on top of its containment. -/
theorem Draws.defines (h : Draws g project es ts) {t : Containment} (ht : t ∈ ts) {fileId : ℕ}
    (hfile : g.idAt t.2.1 = some fileId) {defs : List Node} (hdefs : ∀ n ∈ defs, n ∈ g.nodes.rows) :
    Draws g project (es ++ defs.map fun n => spineEdge project "DEFINES" fileId n.id) ts where
  valid := by
    intro e he
    rcases List.mem_append.1 he with he | he
    · exact h.valid e he
    · obtain ⟨n, hn, rfl⟩ := List.mem_map.1 he
      exact ⟨rfl, rfl, Graph.mem_ids_of_idAt hfile, List.mem_map_of_mem (hdefs n hn)⟩
  sound := by
    intro e he
    rcases List.mem_append.1 he with he | he
    · exact h.sound e he
    · obtain ⟨n, _, rfl⟩ := List.mem_map.1 he
      exact Or.inl rfl
  complete := by
    intro t ht
    obtain ⟨e, he, hd⟩ := h.complete t ht
    exact ⟨e, List.mem_append_left _ he, hd⟩
  source := by
    intro e he
    rcases List.mem_append.1 he with he | he
    · exact h.source e he
    · obtain ⟨n, _, rfl⟩ := List.mem_map.1 he
      exact ⟨t, ht, Or.inr hfile⟩

theorem mem_of_mem_listNodes {file : String} (h : n ∈ g.listNodes project label file usizeMax) :
    n ∈ g.nodes.rows := by
  have hn : n ∈ Graph.orderByQname (g.nodes.rows.filter fun n =>
      decide (n.project = project ∧ (label = "" ∨ n.label = label) ∧
        (file = "" ∨ n.filePath = file))) := h
  exact List.mem_of_mem_filter ((List.perm_insertionSort _ _).mem_iff.1 hn)

theorem insertFiles_spec (entries : List InventoryEntry) (hp : (g.projects.find? project).isSome)
    (hproj : g.idAt (project, project) = some projectId) (hids : FolderIds g project all folderId)
    (hparent : ∀ e ∈ entries, parentDir (norm e.relPath) ≠ "" → parentDir (norm e.relPath) ∈ all) :
    ∃ g' es, insertFiles project projectId folderId entries g = .ok (g', es) ∧
      Wrote ((relPaths entries).map (fileNode project)) g g' ∧
      Draws g' project es ((relPaths entries).map (fileContainment project)) := by
  induction entries generalizing g with
  | nil => exact ⟨g, [], rfl, Wrote.refl g, by simp, by simp, by simp [relPaths], by simp⟩
  | cons entry entries ih =>
    obtain ⟨g₁, id, h₁, hw₁, hfind⟩ :=
      exists_insertNodeInTx (n := fileNode project (norm entry.relPath)) hp
    have hp₁ : (g₁.projects.find? project).isSome := by
      rw [hw₁.projects_eq]
      exact hp
    have hids₁ : FolderIds g₁ project all folderId := by
      intro d hd
      obtain ⟨i, hi, hg⟩ := hids d hd
      exact ⟨i, hi, hw₁.idAt hg⟩
    obtain ⟨parent, hparentAt, hpg⟩ :=
      parentAt_spec (hw₁.idAt hproj) hids₁ (hparent entry List.mem_cons_self)
    obtain ⟨g₂, es, h₂, hw₂, hdraws⟩ := ih hp₁ (hw₁.idAt hproj) hids₁
      fun e he => hparent e (List.mem_cons_of_mem _ he)
    have hid₁ : g₁.idAt (project, fileQn project (norm entry.relPath)) = some id :=
      Option.map_eq_some_iff.2 ⟨_, hfind, rfl⟩
    have hdefs : ∀ n ∈ (g₁.listNodes project "" (norm entry.relPath) usizeMax).filter
        fun n => decide (n.label ∉ nonDefLabels), n ∈ g₁.nodes.rows :=
      fun n hn => mem_of_mem_listNodes (List.mem_of_mem_filter hn)
    have hfile := draws_spineEdge project "CONTAINS_FILE" hpg hid₁
    have hhere := (hfile.defines (List.mem_singleton_self _) hid₁ hdefs).mono hw₂
    refine ⟨g₂, _, ?_, hw₁.trans hw₂, hhere.append hdraws⟩
    simp only [insertFiles, h₁, hparentAt, h₂, Except.mapError, bind, Except.bind, pure,
      Except.pure]
    rfl

/-! ### The cleanup -/

theorem mem_listNodesByLabel :
    n ∈ g.listNodesByLabel project label usizeMax ↔
      n ∈ g.nodes.rows ∧ n.project = project ∧ n.label = label := by
  have hlist : g.listNodesByLabel project label usizeMax = Graph.orderByQname
      (g.nodes.rows.filter fun n => decide (n.project = project ∧ n.label = label)) := rfl
  rw [hlist, Graph.orderByQname, (List.perm_insertionSort _ _).mem_iff, List.mem_filter,
    decide_eq_true_eq]

theorem mem_nodes_dropStale :
    n ∈ (dropStale project label valid g).nodes.rows ↔
      n ∈ g.nodes.rows ∧ (n.project = project → n.label = label → n.qualifiedName ∈ valid) := by
  rw [dropStale, Graph.mem_nodes_deleteNodes]
  refine and_congr_right fun hn => ?_
  constructor
  · intro hid hp hl
    by_contra hq
    exact hid (List.mem_map.2 ⟨n, List.mem_filter.2
      ⟨mem_listNodesByLabel.2 ⟨hn, hp, hl⟩, decide_eq_true hq⟩, rfl⟩)
  · intro h hid
    obtain ⟨m, hm, hmid⟩ := List.mem_map.1 hid
    obtain ⟨hm, hq⟩ := List.mem_filter.1 hm
    obtain ⟨hmem, hp, hl⟩ := mem_listNodesByLabel.1 hm
    rw [g.node_eq_of_id_eq hmem hn hmid] at hp hl hq
    exact of_decide_eq_true hq (h hp hl)

theorem mem_edges_dropStale :
    e ∈ (dropStale project label valid g).edges.rows ↔ e ∈ g.edges.rows ∧
      e.sourceId ∈ (dropStale project label valid g).nodes.rows.map Node.id ∧
      e.targetId ∈ (dropStale project label valid g).nodes.rows.map Node.id := by
  constructor
  · intro he
    exact ⟨(Graph.mem_edges_deleteNodes.1 he).1,
      ((dropStale project label valid g).edges_fk e he).2⟩
  · rintro ⟨he, hs, ht⟩
    obtain ⟨m, hm, hms⟩ := List.mem_map.1 hs
    obtain ⟨n, hn, hnt⟩ := List.mem_map.1 ht
    have hm' := (Graph.mem_nodes_deleteNodes.1 hm).2
    have hn' := (Graph.mem_nodes_deleteNodes.1 hn).2
    rw [hms] at hm'
    rw [hnt] at hn'
    exact Graph.mem_edges_deleteNodes.2 ⟨he, hm', hn'⟩

/-! ### What the tables say -/

def spineLabels : List String := ["Folder", "File"]

/-- The File and Folder rows of a project, without their ids. -/
def spineRows (g : Graph) (project : String) : Set NewNode :=
  {n | n.project = project ∧ n.label ∈ spineLabels ∧ ∃ m ∈ g.nodes.rows, m.toNewNode = n}

/-- The containment rows, by the names of their ends. -/
def containment (g : Graph) : Set (Containment × Json) :=
  {c | c.1.2.2 ∈ ["CONTAINS_FOLDER", "CONTAINS_FILE"] ∧
    ∃ e ∈ g.edges.rows, DrawnAs g c.1 e ∧ e.properties = c.2}

theorem mem_containment_iff {p : Json} :
    (c, p) ∈ containment g ↔ c.2.2 ∈ ["CONTAINS_FOLDER", "CONTAINS_FILE"] ∧
      ∃ i j, g.idAt c.1 = some i ∧ g.idAt c.2.1 = some j ∧
        (g.edges.find? (i, j, c.2.2)).map Edge.properties = some p := by
  refine and_congr_right fun _ => ?_
  constructor
  · rintro ⟨e, he, ⟨hs, ht, htype⟩, hprops⟩
    refine ⟨e.sourceId, e.targetId, hs, ht, Option.map_eq_some_iff.2 ⟨e, ?_, hprops⟩⟩
    exact KeyedTable.find?_eq_some_iff.2 ⟨he, by rw [Edge.key, htype]⟩
  · rintro ⟨i, j, hs, ht, hp⟩
    obtain ⟨e, he, hprops⟩ := Option.map_eq_some_iff.1 hp
    obtain ⟨hmem, hkey⟩ := KeyedTable.find?_eq_some_iff.1 he
    simp only [Edge.key, Prod.mk.injEq] at hkey
    obtain ⟨rfl, rfl, htype⟩ := hkey
    exact ⟨e, hmem, ⟨hs, ht, htype⟩, hprops⟩

theorem containmentType_of_mem (h : c ∈ spineContainment project entries) :
    c.2.2 ∈ ["CONTAINS_FOLDER", "CONTAINS_FILE"] := by
  rcases List.mem_append.1 h with h | h
  · obtain ⟨d, _, rfl⟩ := List.mem_map.1 h
    simp [folderContainment]
  · obtain ⟨r, _, rfl⟩ := List.mem_map.1 h
    simp [fileContainment]

theorem mem_valid_of_mem_spineNodes {n : NewNode} (h : n ∈ spineNodes project entries) :
    (n.label = "Folder" → n.qualifiedName ∈ (spineDirs entries).map (folderQn project)) ∧
    (n.label = "File" → n.qualifiedName ∈ (relPaths entries).map (fileQn project)) := by
  rcases List.mem_append.1 h with h | h
  · rcases List.mem_cons.1 h with rfl | h
    · simp [projectNode]
    · obtain ⟨d, hd, rfl⟩ := List.mem_map.1 h
      exact ⟨fun _ => List.mem_map_of_mem hd, by simp [folderNode]⟩
  · obtain ⟨r, hr, rfl⟩ := List.mem_map.1 h
    exact ⟨by simp [fileNode], fun _ => List.mem_map_of_mem hr⟩

theorem label_of_mem_spineNodes {n : NewNode} (h : n ∈ spineNodes project entries) :
    n.label ∈ nonDefLabels := by
  rcases List.mem_append.1 h with h | h
  · rcases List.mem_cons.1 h with rfl | h
    · simp [projectNode, nonDefLabels]
    · obtain ⟨d, _, rfl⟩ := List.mem_map.1 h
      simp [folderNode, nonDefLabels]
  · obtain ⟨r, _, rfl⟩ := List.mem_map.1 h
    simp [fileNode, nonDefLabels]

theorem map_key_spineNodes (project : String) (entries : List InventoryEntry) :
    (spineNodes project entries).map NewNode.key =
      (spineNames project entries).map fun q => (project, q) := by
  simp [spineNodes, spineNames, NewNode.key, projectNode, folderNode, fileNode, Function.comp_def]

theorem ends_of_mem_spineContainment (h : c ∈ spineContainment project entries) :
    c.1 ∈ (spineNodes project entries).map NewNode.key ∧
      c.2.1 ∈ (spineNodes project entries).map NewNode.key := by
  have hdir : ∀ d, (d ≠ "" → d ∈ spineDirs entries) →
      dirQn project d ∈ spineNames project entries := by
    intro d hd
    unfold dirQn spineNames
    by_cases h0 : d = ""
    · simp [h0]
    · rw [if_neg h0]
      exact List.mem_append_left _ (List.mem_cons_of_mem _ (List.mem_map_of_mem (hd h0)))
  rw [map_key_spineNodes]
  rcases List.mem_append.1 h with h | h
  · obtain ⟨d, hd, rfl⟩ := List.mem_map.1 h
    refine ⟨List.mem_map_of_mem (hdir _ (parentDir_mem_spineDirs hd)), List.mem_map_of_mem ?_⟩
    exact List.mem_append_left _ (List.mem_cons_of_mem _ (List.mem_map_of_mem hd))
  · obtain ⟨r, hr, rfl⟩ := List.mem_map.1 h
    obtain ⟨e, he, rfl⟩ := List.mem_map.1 hr
    refine ⟨List.mem_map_of_mem (hdir _ (parentDir_entry_mem_spineDirs he)), List.mem_map_of_mem ?_⟩
    exact List.mem_append_right _ (List.mem_map_of_mem hr)

/-! ### One pass -/

/-- The two cleanup passes over what the writes left. -/
def cleanup (project : String) (entries : List InventoryEntry) (g : Graph) : Graph :=
  dropStale project "File" (entries.map fun e => fileQn project (norm e.relPath))
    (dropStale project "Folder" ((spineDirs entries).map (folderQn project)) g)

/-- The pass writes its nodes, draws its containments, and cleans up. -/
theorem buildStructural_phases (entries : List InventoryEntry)
    (hp : (g.projects.find? project).isSome) :
    ∃ g₁ g₂ es, buildStructural project entries g = .ok (cleanup project entries g₂) ∧
      Wrote (spineNodes project entries) g g₁ ∧
      Draws g₁ project es (spineContainment project entries) ∧
      g₁.insertEdges es = .ok g₂ ∧ g₂.nodes = g₁.nodes ∧ g₂.projects = g.projects ∧
      ∀ k, (g₂.edges.find? k).map Edge.properties =
        ((lastWrite Edge.key es k).map Edge.properties).or
          ((g.edges.find? k).map Edge.properties) := by
  obtain ⟨ga, projectId, ha, hwa, hfinda⟩ := exists_insertNodeInTx (n := projectNode project) hp
  have hpa : (ga.projects.find? project).isSome := by
    rw [hwa.projects_eq]
    exact hp
  have hida : ga.idAt (project, project) = some projectId :=
    Option.map_eq_some_iff.2 ⟨_, hfinda, rfl⟩
  obtain ⟨gb, folderId, hb, hwb, hids⟩ := insertFolders_spec (spineDirs entries) hpa
  have hpb : (gb.projects.find? project).isSome := by
    rw [hwb.projects_eq]
    exact hpa
  have hidb := hwb.idAt hida
  obtain ⟨folders, hfolders, hdrawf⟩ := folderEdges_spec hidb hids (spineDirs entries)
    (fun d hd => hd) fun d hd => parentDir_mem_spineDirs hd
  obtain ⟨gc, files, hc, hwc, hdrawc⟩ := insertFiles_spec entries hpb hidb hids
    fun e he => parentDir_entry_mem_spineDirs he
  have hdraws := (hdrawf.mono hwc).append hdrawc
  have hw : Wrote (spineNodes project entries) g gc := (hwa.trans hwb).trans hwc
  have hends : ∀ e ∈ folders ++ files, (gc.projects.find? e.project).isSome ∧
      e.sourceId ∈ gc.nodes.rows.map Node.id ∧ e.targetId ∈ gc.nodes.rows.map Node.id := by
    intro e he
    obtain ⟨hep, _, hs, ht⟩ := hdraws.valid e he
    rw [hep, hw.projects_eq]
    exact ⟨hp, hs, ht⟩
  obtain ⟨g₂, h₂, hnodes₂, hprojects₂, hedges₂⟩ := Graph.exists_insertEdges hends
  refine ⟨gc, g₂, folders ++ files, ?_, hw, hdraws, h₂, hnodes₂,
    hprojects₂.trans hw.projects_eq, ?_⟩
  · simp only [buildStructural, ha, hb, hfolders, hc, h₂, Except.mapError, bind, Except.bind, pure,
      Except.pure, cleanup]
  · intro k
    rw [hedges₂ k, hw.edges_eq]

theorem mem_nodes_cleanup : n ∈ (cleanup project entries g).nodes.rows ↔ n ∈ g.nodes.rows ∧
      (n.project = project →
        (n.label = "Folder" → n.qualifiedName ∈ (spineDirs entries).map (folderQn project)) ∧
        (n.label = "File" → n.qualifiedName ∈ (relPaths entries).map (fileQn project))) := by
  rw [cleanup, mem_nodes_dropStale, mem_nodes_dropStale, relPaths, List.map_map, and_assoc]
  refine and_congr_right fun _ => ⟨fun h hp => ⟨h.1 hp, h.2 hp⟩, fun h => ?_⟩
  exact ⟨fun hp => (h hp).1, fun hp => (h hp).2⟩

theorem mem_edges_cleanup : e ∈ (cleanup project entries g).edges.rows ↔ e ∈ g.edges.rows ∧
      e.sourceId ∈ (cleanup project entries g).nodes.rows.map Node.id ∧
      e.targetId ∈ (cleanup project entries g).nodes.rows.map Node.id := by
  rw [cleanup, mem_edges_dropStale, mem_edges_dropStale, and_assoc]
  refine and_congr_right fun _ => ?_
  constructor
  · rintro ⟨_, h⟩
    exact h
  · rintro ⟨hs, ht⟩
    refine ⟨⟨?_, ?_⟩, hs, ht⟩
    · obtain ⟨n, hn, hid⟩ := List.mem_map.1 hs
      exact List.mem_map.2 ⟨n, (mem_nodes_dropStale.1 hn).1, hid⟩
    · obtain ⟨n, hn, hid⟩ := List.mem_map.1 ht
      exact List.mem_map.2 ⟨n, (mem_nodes_dropStale.1 hn).1, hid⟩

theorem find?_edges_cleanup (hi : i ∈ (cleanup project entries g).nodes.rows.map Node.id)
    (hj : j ∈ (cleanup project entries g).nodes.rows.map Node.id) (edgeType : String) :
    (cleanup project entries g).edges.find? (i, j, edgeType) = g.edges.find? (i, j, edgeType) := by
  ext e
  simp only [KeyedTable.find?_eq_some_iff, mem_edges_cleanup]
  constructor
  · rintro ⟨⟨he, _⟩, hk⟩
    exact ⟨he, hk⟩
  · rintro ⟨he, hk⟩
    refine ⟨⟨he, ?_⟩, hk⟩
    simp only [Edge.key, Prod.mk.injEq] at hk
    rw [hk.1, hk.2.1]
    exact ⟨hi, hj⟩

theorem idAt_cleanup : (cleanup project entries g).idAt k = some i ↔
      g.idAt k = some i ∧ ((cleanup project entries g).nodes.find? k).isSome := by
  constructor
  · intro h
    obtain ⟨n, hn, rfl⟩ := Option.map_eq_some_iff.1 h
    obtain ⟨hmem, hkey⟩ := KeyedTable.find?_eq_some_iff.1 hn
    exact ⟨Graph.idAt_eq_some_iff.2 ⟨n, (mem_nodes_cleanup.1 hmem).1, hkey, rfl⟩, by rw [hn]; rfl⟩
  · rintro ⟨h, hsome⟩
    obtain ⟨n, hn⟩ := Option.isSome_iff_exists.1 hsome
    obtain ⟨hmem, hkey⟩ := KeyedTable.find?_eq_some_iff.1 hn
    obtain ⟨m, hm, hmk, rfl⟩ := Graph.idAt_eq_some_iff.1 h
    rw [g.nodes.eq_of_key_eq hm (mem_nodes_cleanup.1 hmem).1 (hmk.trans hkey.symm)]
    exact Graph.idAt_eq_some_iff.2 ⟨n, hmem, hkey, rfl⟩

/-- Which columns survive under a key that the pass did not write. -/
def notSpine (project : String) (n : NewNode) : Bool :=
  decide (n.project ≠ project ∨ n.label ∉ spineLabels)

/-- **What one pass leaves.**  `g` is the store before, `g'` the one after.  Under a spine name there
are the columns last written to it; File and Folder nodes of other names are gone, and the rest is
untouched.  The containments are those asked for, and of the old ones those whose two ends are still
there. -/
structure Built (project : String) (entries : List InventoryEntry) (g g' : Graph) : Prop where
  columns : ∀ k, (g'.nodes.find? k).map Node.toNewNode =
    (lastWrite NewNode.key (spineNodes project entries) k).or
      (((g.nodes.find? k).map Node.toNewNode).filter (notSpine project))
  containments : ∀ c p, (c, p) ∈ containment g' ↔
    if c ∈ spineContainment project entries then p = Json.emptyObj
    else (c, p) ∈ containment g ∧ (g'.nodes.find? c.1).isSome ∧ (g'.nodes.find? c.2.1).isSome

/-- The cleanup keeps what was written, and of the rest what is not of the spine. -/
theorem columns_cleanup {g₂ : Graph} (hw : Wrote (spineNodes project entries) g g₁)
    (hnodes : g₂.nodes = g₁.nodes) (k : String × String) :
    ((cleanup project entries g₂).nodes.find? k).map Node.toNewNode =
      (lastWrite NewNode.key (spineNodes project entries) k).or
        (((g.nodes.find? k).map Node.toNewNode).filter (notSpine project)) := by
  have hiff : ∀ n : NewNode,
      ((cleanup project entries g₂).nodes.find? k).map Node.toNewNode = some n ↔
        (g₁.nodes.find? k).map Node.toNewNode = some n ∧ (n.project = project →
          (n.label = "Folder" → n.qualifiedName ∈ (spineDirs entries).map (folderQn project)) ∧
          (n.label = "File" → n.qualifiedName ∈ (relPaths entries).map (fileQn project))) := by
    intro n
    simp only [Option.map_eq_some_iff, KeyedTable.find?_eq_some_iff, mem_nodes_cleanup, hnodes]
    constructor
    · rintro ⟨m, ⟨⟨hm, hkeep⟩, hk⟩, rfl⟩
      exact ⟨⟨m, ⟨hm, hk⟩, rfl⟩, hkeep⟩
    · rintro ⟨⟨m, ⟨hm, hk⟩, rfl⟩, hkeep⟩
      exact ⟨m, ⟨⟨hm, hkeep⟩, hk⟩, rfl⟩
  ext n
  rw [hiff, hw.columns]
  cases hlast : lastWrite NewNode.key (spineNodes project entries) k with
  | some m =>
    simp only [Option.some_or, Option.some.injEq]
    constructor
    · exact fun h => h.1
    · rintro rfl
      exact ⟨rfl, fun _ => mem_valid_of_mem_spineNodes (mem_of_lastWrite hlast).1⟩
  | none =>
    -- nothing was written here, so no name that the cleanup spares is this one
    have hunwritten := lastWrite_eq_none_iff.1 hlast
    rw [map_key_spineNodes] at hunwritten
    simp only [Option.none_or, Option.filter_eq_some_iff]
    refine and_congr_right fun hn => ?_
    obtain ⟨m, hm, rfl⟩ := Option.map_eq_some_iff.1 hn
    have hkey : m.key = k := KeyedTable.key_of_find? hm
    have hname : m.project = project → m.qualifiedName ∉ spineNames project entries := by
      rintro rfl hq
      exact hunwritten (List.mem_map.2 ⟨_, hq, hkey⟩)
    simp only [notSpine, spineLabels, decide_eq_true_eq, List.mem_cons, List.not_mem_nil,
      or_false, not_or]
    constructor
    · intro h
      by_cases hproj : m.project = project
      · refine Or.inr ⟨fun hl => hname hproj ?_, fun hl => hname hproj ?_⟩
        · exact List.mem_append_left _ (List.mem_cons_of_mem _ ((h hproj).1 hl))
        · exact List.mem_append_right _ ((h hproj).2 hl)
      · exact Or.inl hproj
    · rintro (hne | ⟨hfolder, hfile⟩) hproj
      · exact absurd hproj hne
      · exact ⟨fun hl => absurd hl hfolder, fun hl => absurd hl hfile⟩

/-- An edge of a containment type that the pass wrote is one of its containments. -/
theorem lastWrite_draws (hdraws : Draws g₁ project es (spineContainment project entries))
    (htype : c.2.2 ∈ ["CONTAINS_FOLDER", "CONTAINS_FILE"]) (hi : g₁.idAt c.1 = some i)
    (hj : g₁.idAt c.2.1 = some j) :
    (lastWrite Edge.key es (i, j, c.2.2)).map Edge.properties =
      if c ∈ spineContainment project entries then some Json.emptyObj else none := by
  by_cases hc : c ∈ spineContainment project entries
  · rw [if_pos hc]
    obtain ⟨e, he, hs, ht, hty⟩ := hdraws.complete c hc
    have hkey : e.key = (i, j, c.2.2) := by
      rw [Edge.key, hty, Option.some.inj (hs.symm.trans hi), Option.some.inj (ht.symm.trans hj)]
    obtain ⟨d, hd⟩ := exists_lastWrite Edge.key he
    rw [← hkey, hd]
    exact congrArg some (hdraws.valid d (mem_of_lastWrite hd).1).2.1
  · rw [if_neg hc]
    cases hlast : lastWrite Edge.key es (i, j, c.2.2) with
    | none => rfl
    | some e =>
      obtain ⟨he, hkey⟩ := mem_of_lastWrite hlast
      simp only [Edge.key, Prod.mk.injEq] at hkey
      obtain ⟨rfl, rfl, hty⟩ := hkey
      rcases hdraws.sound e he with hdef | ⟨t, ht, hts, htt, hty'⟩
      · rw [← hty, hdef] at htype
        simp at htype
      · have htc : t = c := Prod.ext (Graph.idAt_inj hts hi)
          (Prod.ext (Graph.idAt_inj htt hj) (hty'.symm.trans hty))
        exact absurd (htc ▸ ht) hc

theorem buildStructural_spec (entries : List InventoryEntry)
    (hp : (g.projects.find? project).isSome) :
    ∃ g', buildStructural project entries g = .ok g' ∧ g'.projects = g.projects ∧
      Built project entries g g' := by
  obtain ⟨g₁, g₂, es, hbuild, hw, hdraws, _, hnodes, hprojects, hedges⟩ :=
    buildStructural_phases entries hp
  have hcolumns := columns_cleanup hw hnodes
  have hid : ∀ {k i}, (cleanup project entries g₂).idAt k = some i ↔
      g₁.idAt k = some i ∧ ((cleanup project entries g₂).nodes.find? k).isSome := by
    intro k i
    rw [idAt_cleanup, Graph.idAt, hnodes]
    rfl
  refine ⟨_, hbuild, ?_, ⟨hcolumns, ?_⟩⟩
  · rw [cleanup, dropStale, Graph.projects_deleteNodes, dropStale, Graph.projects_deleteNodes,
      hprojects]
  · intro c p
    -- an edge between two survivors is one the pass wrote or, failing that, an old one
    have hstep : (c, p) ∈ containment (cleanup project entries g₂) ↔
        c.2.2 ∈ ["CONTAINS_FOLDER", "CONTAINS_FILE"] ∧
        ((cleanup project entries g₂).nodes.find? c.1).isSome ∧
        ((cleanup project entries g₂).nodes.find? c.2.1).isSome ∧
        ∃ i j, g₁.idAt c.1 = some i ∧ g₁.idAt c.2.1 = some j ∧
          ((if c ∈ spineContainment project entries then some Json.emptyObj else none).or
            ((g.edges.find? (i, j, c.2.2)).map Edge.properties)) = some p := by
      rw [mem_containment_iff]
      refine and_congr_right fun htype => ?_
      constructor
      · rintro ⟨i, j, hi, hj, hprops⟩
        rw [find?_edges_cleanup (Graph.mem_ids_of_idAt hi) (Graph.mem_ids_of_idAt hj), hedges,
          lastWrite_draws hdraws htype (hid.1 hi).1 (hid.1 hj).1] at hprops
        exact ⟨(hid.1 hi).2, (hid.1 hj).2, i, j, (hid.1 hi).1, (hid.1 hj).1, hprops⟩
      · rintro ⟨hsi, hsj, i, j, hi, hj, hprops⟩
        have hi' := hid.2 ⟨hi, hsi⟩
        have hj' := hid.2 ⟨hj, hsj⟩
        refine ⟨i, j, hi', hj', ?_⟩
        rw [find?_edges_cleanup (Graph.mem_ids_of_idAt hi') (Graph.mem_ids_of_idAt hj'), hedges,
          lastWrite_draws hdraws htype hi hj]
        exact hprops
    rw [hstep]
    by_cases hc : c ∈ spineContainment project entries
    · simp only [if_pos hc, Option.some_or, Option.some.injEq]
      constructor
      · rintro ⟨_, _, _, _, _, _, _, h⟩
        exact h.symm
      · rintro rfl
        have hwritten : ∀ k, k ∈ (spineNodes project entries).map NewNode.key →
            ((cleanup project entries g₂).nodes.find? k).isSome := by
          intro k hk
          obtain ⟨n, hn, rfl⟩ := List.mem_map.1 hk
          obtain ⟨m, hm⟩ := exists_lastWrite NewNode.key hn
          have hcol := hcolumns n.key
          rw [hm, Option.some_or, Option.map_eq_some_iff] at hcol
          obtain ⟨m', hm', _⟩ := hcol
          rw [hm']
          rfl
        obtain ⟨hs, ht⟩ := ends_of_mem_spineContainment hc
        obtain ⟨e, _, hes, het, _⟩ := hdraws.complete c hc
        exact ⟨containmentType_of_mem hc, hwritten _ hs, hwritten _ ht, _, _, hes, het, rfl⟩
    · simp only [if_neg hc, Option.none_or]
      rw [mem_containment_iff]
      -- an old edge has both ends in the old store, under the ids they still have
      have hold : ∀ {i j : ℕ} {k k' : String × String}, g₁.idAt k = some i → g₁.idAt k' = some j →
          (g.edges.find? (i, j, c.2.2)).map Edge.properties = some p →
          g.idAt k = some i ∧ g.idAt k' = some j := by
        intro i j k k' hi hj hprops
        obtain ⟨e, he, _⟩ := Option.map_eq_some_iff.1 hprops
        obtain ⟨hmem, hkey⟩ := KeyedTable.find?_eq_some_iff.1 he
        simp only [Edge.key, Prod.mk.injEq] at hkey
        obtain ⟨rfl, rfl, _⟩ := hkey
        have hfk := (g.edges_fk e hmem).2
        obtain ⟨m, hm, hms⟩ := List.mem_map.1 hfk.1
        obtain ⟨n, hn, hnt⟩ := List.mem_map.1 hfk.2
        have hsrc : g.idAt m.key = some e.sourceId := Graph.idAt_eq_some_iff.2 ⟨m, hm, rfl, hms⟩
        have htgt : g.idAt n.key = some e.targetId := Graph.idAt_eq_some_iff.2 ⟨n, hn, rfl, hnt⟩
        rw [Graph.idAt_inj hi (hw.idAt hsrc), Graph.idAt_inj hj (hw.idAt htgt)]
        exact ⟨hsrc, htgt⟩
      constructor
      · rintro ⟨htype, hsi, hsj, i, j, hi, hj, hprops⟩
        obtain ⟨hi', hj'⟩ := hold hi hj hprops
        exact ⟨⟨htype, i, j, hi', hj', hprops⟩, hsi, hsj⟩
      · rintro ⟨⟨htype, i, j, hi, hj, hprops⟩, hsi, hsj⟩
        exact ⟨htype, hsi, hsj, i, j, hw.idAt hi, hw.idAt hj, hprops⟩

/-! ### The purpose of the pass -/

/-- The nodes of a project that bear a label. -/
def labelled (g : Graph) (project label : String) : List Node :=
  g.nodes.rows.filter fun n => decide (n.project = project ∧ n.label = label)

/-- The sources of the edges of a type into a node. -/
def parentsOf (g : Graph) (edgeType : String) (n : Node) : List ℕ :=
  (g.edges.rows.filter fun e => decide (e.edgeType = edgeType ∧ e.targetId = n.id)).map
    Edge.sourceId

/-- The node of a directory: its Folder, or the Project for the root. -/
def IsDirNode (project dir : String) (m : Node) : Prop :=
  m.project = project ∧
    if dir = "" then m.label = "Project" else m.label = "Folder" ∧ m.filePath = dir

/-- **The spine is complete**: one File per entry, one Folder per directory, each with exactly one
parent, the node of its own directory. -/
structure SpineComplete (g : Graph) (project : String) (entries : List InventoryEntry) : Prop where
  files : ((labelled g project "File").map fun n => n.filePath).Perm (relPaths entries)
  folders_nodup : ((labelled g project "Folder").map fun n => n.filePath).Nodup
  folders : ∀ d, d ∈ (labelled g project "Folder").map (fun n => n.filePath) ↔ IsDirOf entries d
  fileParent : ∀ n ∈ labelled g project "File", ∃ m ∈ g.nodes.rows,
    parentsOf g "CONTAINS_FILE" n = [m.id] ∧ IsDirNode project (parentDir n.filePath) m
  folderParent : ∀ n ∈ labelled g project "Folder", ∃ m ∈ g.nodes.rows,
    parentsOf g "CONTAINS_FOLDER" n = [m.id] ∧ IsDirNode project (parentDir n.filePath) m

/-- A store that no structural pass of the project has run on. -/
structure Spineless (g : Graph) (project : String) : Prop where
  nodes : ∀ n ∈ g.nodes.rows, n.project = project → n.label ∉ nonDefLabels
  edges : ∀ e ∈ g.edges.rows, e.edgeType ∉ ["CONTAINS_FOLDER", "CONTAINS_FILE"]

theorem Spineless.containment_eq (h : Spineless g project) (c : Containment) (p : Json) :
    (c, p) ∉ containment g := by
  rintro ⟨htype, e, he, ⟨_, _, hty⟩, _⟩
  exact h.edges e he (hty ▸ htype)

section Built

variable {project : String} {entries : List InventoryEntry} {g g' : Graph}

variable {w : NewNode} {label : String} {n : Node}

/-- The spine rows after a pass are what it wrote last under each name, whatever was there. -/
theorem Built.mem_spineRows (h : Built project entries g g') :
    w ∈ spineRows g' project ↔
      w.label ∈ spineLabels ∧ lastWrite NewNode.key (spineNodes project entries) w.key = some w := by
  have hfind : (∃ m ∈ g'.nodes.rows, m.toNewNode = w) ↔
      (g'.nodes.find? w.key).map Node.toNewNode = some w := by
    rw [Option.map_eq_some_iff]
    constructor
    · rintro ⟨m, hm, rfl⟩
      exact ⟨m, KeyedTable.find?_of_mem hm, rfl⟩
    · rintro ⟨m, hm, hw⟩
      exact ⟨m, KeyedTable.mem_of_find? hm, hw⟩
  have hproj : ∀ n ∈ spineNodes project entries, n.project = project := by
    intro n hn
    have hkey := List.mem_map_of_mem (f := NewNode.key) hn
    rw [map_key_spineNodes] at hkey
    obtain ⟨q, _, hq⟩ := List.mem_map.1 hkey
    exact (congrArg Prod.fst hq).symm
  unfold spineRows
  rw [Set.mem_ofPred_eq, hfind, h.columns]
  constructor
  · rintro ⟨hp, hl, hcol⟩
    refine ⟨hl, ?_⟩
    cases hlast : lastWrite NewNode.key (spineNodes project entries) w.key with
    | some m =>
      rw [hlast, Option.some_or] at hcol
      exact hcol
    | none =>
      rw [hlast, Option.none_or, Option.filter_eq_some_iff] at hcol
      have hnot := of_decide_eq_true hcol.2
      exact absurd hl (hnot.resolve_left fun hne => hne hp)
  · rintro ⟨hl, hlast⟩
    exact ⟨hproj w (mem_of_lastWrite hlast).1, hl, by rw [hlast, Option.some_or]⟩

theorem mem_labelled_iff : n ∈ labelled g' project label ↔
    n ∈ g'.nodes.rows ∧ n.project = project ∧ n.label = label := by
  rw [labelled, List.mem_filter, decide_eq_true_eq]

theorem eq_fileNode (h : w ∈ spineNodes project entries) (hl : w.label = "File") :
    w = fileNode project w.filePath ∧ w.filePath ∈ relPaths entries := by
  rcases List.mem_append.1 h with h | h
  · rcases List.mem_cons.1 h with rfl | h
    · simp [projectNode] at hl
    · obtain ⟨d, _, rfl⟩ := List.mem_map.1 h
      simp [folderNode] at hl
  · obtain ⟨r, hr, rfl⟩ := List.mem_map.1 h
    exact ⟨rfl, hr⟩

theorem eq_folderNode (h : w ∈ spineNodes project entries) (hl : w.label = "Folder") :
    w = folderNode project w.filePath ∧ w.filePath ∈ spineDirs entries := by
  rcases List.mem_append.1 h with h | h
  · rcases List.mem_cons.1 h with rfl | h
    · simp [projectNode] at hl
    · obtain ⟨d, hd, rfl⟩ := List.mem_map.1 h
      exact ⟨rfl, hd⟩
  · obtain ⟨r, _, rfl⟩ := List.mem_map.1 h
    simp [fileNode] at hl

theorem eq_projectNode (h : w ∈ spineNodes project entries) (hl : w.label = "Project") :
    w = projectNode project := by
  rcases List.mem_append.1 h with h | h
  · rcases List.mem_cons.1 h with rfl | h
    · rfl
    · obtain ⟨d, _, rfl⟩ := List.mem_map.1 h
      simp [folderNode] at hl
  · obtain ⟨r, _, rfl⟩ := List.mem_map.1 h
    simp [fileNode] at hl

theorem Built.lastWrite_of_labelled (h : Built project entries g g') (hlabel : label ∈ spineLabels)
    (hn : n ∈ labelled g' project label) :
    lastWrite NewNode.key (spineNodes project entries) n.key = some n.toNewNode := by
  obtain ⟨hmem, hp, hl⟩ := mem_labelled_iff.1 hn
  exact (h.mem_spineRows.1 ⟨hp, hl ▸ hlabel, n, hmem, rfl⟩).2

theorem Built.exists_labelled (h : Built project entries g g') (label : String)
    (hlabel : label ∈ spineLabels) (hl : w.label = label)
    (hw : lastWrite NewNode.key (spineNodes project entries) w.key = some w) :
    ∃ n ∈ labelled g' project label, n.toNewNode = w := by
  obtain ⟨hp, _, n, hn, rfl⟩ := h.mem_spineRows.2 ⟨hl ▸ hlabel, hw⟩
  exact ⟨n, mem_labelled_iff.2 ⟨hn, hp, hl⟩, rfl⟩

theorem Built.nodup_paths (h : Built project entries g g') (hlabel : label ∈ spineLabels) :
    ((labelled g' project label).map fun n => n.filePath).Nodup := by
  refine List.Nodup.map_on ?_ (g'.nodes.rows_nodup.filter _)
  intro m hm n hn hpath
  have hcol : ∀ n ∈ labelled g' project label, n.toNewNode ∈ spineNodes project entries ∧
      n.label = label := fun n hn =>
    ⟨(mem_of_lastWrite (h.lastWrite_of_labelled hlabel hn)).1, (mem_labelled_iff.1 hn).2.2⟩
  have heq : m.toNewNode = n.toNewNode := by
    obtain ⟨hm', hml⟩ := hcol m hm
    obtain ⟨hn', hnl⟩ := hcol n hn
    simp only [spineLabels, List.mem_cons, List.not_mem_nil, or_false] at hlabel
    rcases hlabel with rfl | rfl
    · rw [(eq_folderNode hm' hml).1, (eq_folderNode hn' hnl).1, hpath]
    · rw [(eq_fileNode hm' hml).1, (eq_fileNode hn' hnl).1, hpath]
  exact g'.nodes.eq_of_key_eq (mem_labelled_iff.1 hm).1 (mem_labelled_iff.1 hn).1
    (congrArg NewNode.key heq)

theorem exists_top {d : String} (hd : d ∈ spineDirs entries) :
    ∃ top ∈ spineDirs entries, parentDir top = "" := by
  induction hlen : d.length using Nat.strong_induction_on generalizing d with
  | _ len ih =>
    by_cases h0 : parentDir d = ""
    · exact ⟨d, hd, h0⟩
    · have hlt := length_parentDir_lt (mem_spineDirs.1 hd).1
      exact ih _ (hlen ▸ hlt) (parentDir_mem_spineDirs hd h0) rfl

theorem Built.lastWrite_project (hs : Spineless g project) (h : Built project entries g g')
    {m : Node} (hm : m ∈ g'.nodes.rows) (hp : m.project = project) (hl : m.label = "Project") :
    lastWrite NewNode.key (spineNodes project entries) (project, project) =
      some (projectNode project) := by
  have hcol := h.columns m.key
  rw [KeyedTable.find?_of_mem hm, Option.map_some] at hcol
  cases hlast : lastWrite NewNode.key (spineNodes project entries) m.key with
  | some w =>
    rw [hlast, Option.some_or, Option.some.injEq] at hcol
    have hw := eq_projectNode (mem_of_lastWrite hlast).1 (hcol ▸ hl)
    have hkey : m.key = (project, project) := by
      rw [← (mem_of_lastWrite hlast).2, hw]
      rfl
    rw [← hkey, hlast, hw]
  | none =>
    rw [hlast, Option.none_or, eq_comm, Option.filter_eq_some_iff, Option.map_eq_some_iff] at hcol
    obtain ⟨⟨n, hn, hnm⟩, _⟩ := hcol
    have hnot := hs.nodes n (KeyedTable.mem_of_find? hn)
    rw [hnm] at hnot
    exact absurd (by rw [hl]; simp [nonDefLabels]) (hnot hp)

theorem Built.nodup_of_complete (hs : Spineless g project) (h : Built project entries g g')
    (hc : SpineComplete g' project entries) : (spineNames project entries).Nodup := by
  have hfile : ∀ r ∈ relPaths entries,
      lastWrite NewNode.key (spineNodes project entries) (project, fileQn project r) =
        some (fileNode project r) := by
    intro r hr
    obtain ⟨n, hn, rfl⟩ := List.mem_map.1 (hc.files.mem_iff.2 hr)
    have hlast := h.lastWrite_of_labelled (by simp [spineLabels]) hn
    have hw := (eq_fileNode (mem_of_lastWrite hlast).1 (mem_labelled_iff.1 hn).2.2).1
    rw [hw] at hlast
    rw [← hlast]
    exact congrArg (lastWrite _ _) (congrArg NewNode.key hw).symm
  have hfolder : ∀ d ∈ spineDirs entries,
      lastWrite NewNode.key (spineNodes project entries) (project, folderQn project d) =
        some (folderNode project d) := by
    intro d hd
    obtain ⟨n, hn, rfl⟩ := List.mem_map.1 ((hc.folders d).2 (mem_spineDirs.1 hd))
    have hlast := h.lastWrite_of_labelled (by simp [spineLabels]) hn
    have hw := (eq_folderNode (mem_of_lastWrite hlast).1 (mem_labelled_iff.1 hn).2.2).1
    rw [hw] at hlast
    rw [← hlast]
    exact congrArg (lastWrite _ _) (congrArg NewNode.key hw).symm
  -- something stands at the top, and its parent is a Project node
  have hproject : spineDirs entries ≠ [] ∨ relPaths entries ≠ [] →
      lastWrite NewNode.key (spineNodes project entries) (project, project) =
        some (projectNode project) := by
    intro hne
    have htop : ∀ d ∈ spineDirs entries, lastWrite NewNode.key (spineNodes project entries)
        (project, project) = some (projectNode project) := by
      intro d hd
      obtain ⟨top, htop, h0⟩ := exists_top hd
      obtain ⟨n, hn, rfl⟩ := List.mem_map.1 ((hc.folders top).2 (mem_spineDirs.1 htop))
      obtain ⟨m, hm, _, hp, hdir⟩ := hc.folderParent n hn
      rw [if_pos h0] at hdir
      exact h.lastWrite_project hs hm hp hdir
    rcases hne with hne | hne
    · obtain ⟨d, hd⟩ := List.exists_mem_of_ne_nil _ hne
      exact htop d hd
    · obtain ⟨r, hr⟩ := List.exists_mem_of_ne_nil _ hne
      by_cases h0 : parentDir r = ""
      · obtain ⟨n, hn, rfl⟩ := List.mem_map.1 (hc.files.mem_iff.2 hr)
        obtain ⟨m, hm, _, hp, hdir⟩ := hc.fileParent n hn
        rw [if_pos h0] at hdir
        exact h.lastWrite_project hs hm hp hdir
      · obtain ⟨e, he, rfl⟩ := List.mem_map.1 hr
        exact htop _ (parentDir_entry_mem_spineDirs he h0)
  have hinj : ∀ {q q' : String} {w w' : NewNode},
      lastWrite NewNode.key (spineNodes project entries) (project, q) = some w →
      lastWrite NewNode.key (spineNodes project entries) (project, q') = some w' →
      q = q' → w = w' := by
    rintro q q' w w' hw hw' rfl
    exact Option.some.inj (hw.symm.trans hw')
  rw [spineNames, List.cons_append, List.nodup_cons, List.nodup_append]
  refine ⟨?_, ?_, ?_, ?_⟩
  · intro hmem
    rcases List.mem_append.1 hmem with hmem | hmem
    · obtain ⟨d, hd, hq⟩ := List.mem_map.1 hmem
      have := hinj (hfolder d hd) (hproject (Or.inl (List.ne_nil_of_mem hd))) hq
      simp [folderNode, projectNode] at this
    · obtain ⟨r, hr, hq⟩ := List.mem_map.1 hmem
      have := hinj (hfile r hr) (hproject (Or.inr (List.ne_nil_of_mem hr))) hq
      simp [fileNode, projectNode] at this
  · refine List.Nodup.map_on ?_ (nodup_spineDirs entries)
    intro d hd d' hd' hq
    exact congrArg NewNode.filePath (hinj (hfolder d hd) (hfolder d' hd') hq)
  · refine List.Nodup.map_on ?_ (hc.files.nodup_iff.1 (h.nodup_paths (by simp [spineLabels])))
    intro r hr r' hr' hq
    exact congrArg NewNode.filePath (hinj (hfile r hr) (hfile r' hr') hq)
  · intro q hq q' hq' heq
    obtain ⟨d, hd, rfl⟩ := List.mem_map.1 hq
    obtain ⟨r, hr, rfl⟩ := List.mem_map.1 hq'
    have := hinj (hfolder d hd) (hfile r hr) heq
    simp [folderNode, fileNode] at this

theorem Built.columns_of_nodup (h : Built project entries g g')
    (hnd : (spineNames project entries).Nodup) (hw : w ∈ spineNodes project entries) :
    lastWrite NewNode.key (spineNodes project entries) w.key = some w ∧
      (g'.nodes.find? w.key).map Node.toNewNode = some w := by
  have hlast : lastWrite NewNode.key (spineNodes project entries) w.key = some w := by
    refine lastWrite_of_nodup ?_ hw
    rw [map_key_spineNodes]
    exact hnd.map fun a b hab => congrArg Prod.snd hab
  exact ⟨hlast, by rw [h.columns, hlast, Option.some_or]⟩

theorem mem_spineNodes_file {r : String} (hr : r ∈ relPaths entries) :
    fileNode project r ∈ spineNodes project entries :=
  List.mem_append_right _ (List.mem_map_of_mem hr)

theorem mem_spineNodes_folder {d : String} (hd : d ∈ spineDirs entries) :
    folderNode project d ∈ spineNodes project entries :=
  List.mem_append_left _ (List.mem_cons_of_mem _ (List.mem_map_of_mem hd))

theorem Built.isDirNode (h : Built project entries g g') (hnd : (spineNames project entries).Nodup)
    {dir : String} (hdir : dir ≠ "" → dir ∈ spineDirs entries) {m : Node}
    (hm : g'.nodes.find? (project, dirQn project dir) = some m) : IsDirNode project dir m := by
  unfold IsDirNode dirQn at *
  by_cases h0 : dir = ""
  · rw [if_pos h0] at hm ⊢
    have hcol := (h.columns_of_nodup hnd (w := projectNode project) (by simp [spineNodes])).2
    rw [show NewNode.key (projectNode project) = (project, project) from rfl, hm] at hcol
    have hw : m.toNewNode = projectNode project := Option.some.inj hcol
    rw [hw]
    exact ⟨rfl, rfl⟩
  · rw [if_neg h0] at hm ⊢
    have hcol := (h.columns_of_nodup hnd (mem_spineNodes_folder (hdir h0))).2
    rw [show NewNode.key (folderNode project dir) = (project, folderQn project dir) from rfl,
      hm] at hcol
    have hw : m.toNewNode = folderNode project dir := Option.some.inj hcol
    rw [hw]
    exact ⟨rfl, rfl, rfl⟩

/-- The one containment of a type into a name is the one parent of the node of that name. -/
theorem Built.parentsOf_eq (hs : Spineless g project) (h : Built project entries g g')
    {c : Containment} (hc : c ∈ spineContainment project entries)
    (honly : ∀ c' ∈ spineContainment project entries, c'.2 = c.2 → c' = c) (hn : n ∈ g'.nodes.rows)
    (hkey : n.key = c.2.1) : ∃ m, g'.nodes.find? c.1 = some m ∧ parentsOf g' c.2.2 n = [m.id] := by
  have htype := containmentType_of_mem hc
  obtain ⟨_, e, he, ⟨hsrc, htgt, hety⟩, _⟩ : (c, Json.emptyObj) ∈ containment g' := by
    rw [h.containments, if_pos hc]
  obtain ⟨m, hm, hmid⟩ := Option.map_eq_some_iff.1 hsrc
  have hnid : g'.idAt c.2.1 = some n.id := Graph.idAt_eq_some_iff.2 ⟨n, hn, hkey, rfl⟩
  have htid : e.targetId = n.id := Option.some.inj (htgt.symm.trans hnid)
  refine ⟨m, hm, ?_⟩
  have hlist : (g'.edges.rows.filter fun e => decide (e.edgeType = c.2.2 ∧ e.targetId = n.id)).Perm
      [e] := by
    refine (List.perm_ext_iff_of_nodup (g'.edges.rows_nodup.filter _)
      (List.nodup_singleton e)).2 fun d => ?_
    rw [List.mem_filter, decide_eq_true_eq, List.mem_singleton]
    constructor
    · rintro ⟨hd, hdty, hdt⟩
      obtain ⟨m', hm', hm'id⟩ := List.mem_map.1 (g'.edges_fk d hd).2.1
      have hm'at : g'.idAt m'.key = some d.sourceId :=
        Graph.idAt_eq_some_iff.2 ⟨m', hm', rfl, hm'id⟩
      have hmem : ((m'.key, c.2), d.properties) ∈ containment g' :=
        ⟨htype, d, hd, ⟨hm'at, hdt ▸ hnid, hdty⟩, rfl⟩
      rw [h.containments] at hmem
      by_cases hc' : (m'.key, c.2) ∈ spineContainment project entries
      · have hsame : m'.key = c.1 := congrArg Prod.fst (honly _ hc' rfl)
        rw [hsame] at hm'at
        refine g'.edges.eq_of_key_eq hd he ?_
        rw [Edge.key, Edge.key, hdty, hety, hdt, htid,
          Option.some.inj (hm'at.symm.trans hsrc)]
      · rw [if_neg hc'] at hmem
        exact absurd hmem.1 (hs.containment_eq _ _)
    · rintro rfl
      exact ⟨he, hety, htid⟩
  rw [parentsOf, List.perm_singleton.1 hlist, List.map_singleton, hmid]

theorem Built.complete_of_nodup (hs : Spineless g project) (h : Built project entries g g')
    (hnd : (spineNames project entries).Nodup) : SpineComplete g' project entries := by
  obtain ⟨_, hrest⟩ := List.nodup_cons.1 (by rwa [spineNames, List.cons_append] at hnd)
  obtain ⟨hfoldersNd, hfilesNd, _⟩ := List.nodup_append.1 hrest
  have hfileMem : ∀ r, r ∈ (labelled g' project "File").map (fun n => n.filePath) ↔
      r ∈ relPaths entries := by
    intro r
    constructor
    · intro hr
      obtain ⟨n, hn, rfl⟩ := List.mem_map.1 hr
      have hlast := h.lastWrite_of_labelled (by simp [spineLabels]) hn
      exact (eq_fileNode (mem_of_lastWrite hlast).1 (mem_labelled_iff.1 hn).2.2).2
    · intro hr
      obtain ⟨n, hn, hw⟩ := h.exists_labelled "File" (by simp [spineLabels]) rfl
        (h.columns_of_nodup hnd (mem_spineNodes_file hr)).1
      exact List.mem_map.2 ⟨n, hn, by rw [hw]; rfl⟩
  refine ⟨?_, h.nodup_paths (by simp [spineLabels]), ?_, ?_, ?_⟩
  · exact (List.perm_ext_iff_of_nodup (h.nodup_paths (by simp [spineLabels])) hfilesNd.of_map).2
      hfileMem
  · intro d
    rw [← mem_spineDirs]
    constructor
    · intro hd
      obtain ⟨n, hn, rfl⟩ := List.mem_map.1 hd
      have hlast := h.lastWrite_of_labelled (by simp [spineLabels]) hn
      exact (eq_folderNode (mem_of_lastWrite hlast).1 (mem_labelled_iff.1 hn).2.2).2
    · intro hd
      obtain ⟨n, hn, hw⟩ := h.exists_labelled "Folder" (by simp [spineLabels]) rfl
        (h.columns_of_nodup hnd (mem_spineNodes_folder hd)).1
      exact List.mem_map.2 ⟨n, hn, by rw [hw]; rfl⟩
  · intro n hn
    have hlast := h.lastWrite_of_labelled (by simp [spineLabels]) hn
    obtain ⟨hw, hr⟩ := eq_fileNode (mem_of_lastWrite hlast).1 (mem_labelled_iff.1 hn).2.2
    have hc : fileContainment project n.filePath ∈ spineContainment project entries :=
      List.mem_append_right _ (List.mem_map_of_mem hr)
    obtain ⟨m, hm, hparents⟩ := h.parentsOf_eq hs hc (by
      intro c' hc' heq
      rcases List.mem_append.1 hc' with hc' | hc'
      · obtain ⟨d, _, rfl⟩ := List.mem_map.1 hc'
        simp [folderContainment, fileContainment] at heq
      · obtain ⟨r, hr', rfl⟩ := List.mem_map.1 hc'
        simp only [fileContainment, Prod.mk.injEq, true_and, and_true] at heq
        rw [List.inj_on_of_nodup_map hfilesNd hr' hr heq]) (mem_labelled_iff.1 hn).1
      (congrArg NewNode.key hw)
    refine ⟨m, KeyedTable.mem_of_find? hm, hparents, h.isDirNode hnd ?_ hm⟩
    obtain ⟨e, he, hep⟩ := List.mem_map.1 hr
    rw [← hep]
    exact parentDir_entry_mem_spineDirs he
  · intro n hn
    have hlast := h.lastWrite_of_labelled (by simp [spineLabels]) hn
    obtain ⟨hw, hd⟩ := eq_folderNode (mem_of_lastWrite hlast).1 (mem_labelled_iff.1 hn).2.2
    have hc : folderContainment project n.filePath ∈ spineContainment project entries :=
      List.mem_append_left _ (List.mem_map_of_mem hd)
    obtain ⟨m, hm, hparents⟩ := h.parentsOf_eq hs hc (by
      intro c' hc' heq
      rcases List.mem_append.1 hc' with hc' | hc'
      · obtain ⟨d, hd', rfl⟩ := List.mem_map.1 hc'
        simp only [folderContainment, Prod.mk.injEq, true_and, and_true] at heq
        rw [List.inj_on_of_nodup_map hfoldersNd hd' hd heq]
      · obtain ⟨r, _, rfl⟩ := List.mem_map.1 hc'
        simp [folderContainment, fileContainment] at heq) (mem_labelled_iff.1 hn).1
      (congrArg NewNode.key hw)
    exact ⟨m, KeyedTable.mem_of_find? hm, hparents,
      h.isDirNode hnd (parentDir_mem_spineDirs hd) hm⟩

end Built

/-! ### A second pass -/

/-- A containment of the first entries between two names of the second is one of the second. -/
def NoStaleContainment (project : String) (entries₁ entries₂ : List InventoryEntry) : Prop :=
  ∀ c ∈ spineContainment project entries₁, c.1.2 ∈ spineNames project entries₂ →
    c.2.1.2 ∈ spineNames project entries₂ → c ∈ spineContainment project entries₂

section SecondPass

variable {project : String} {entries₁ entries₂ : List InventoryEntry} {g g₁ g₂ g₁₂ : Graph}

theorem isSome_after_second (h₁ : Built project entries₁ g g₁)
    (h₁₂ : Built project entries₂ g₁ g₁₂) {q : String} (hq : q ∈ spineNames project entries₁) :
    (g₁₂.nodes.find? (project, q)).isSome ↔ q ∈ spineNames project entries₂ := by
  have hkey : ∀ entries, (project, q) ∈ (spineNodes project entries).map NewNode.key ↔
      q ∈ spineNames project entries := by
    intro entries
    rw [map_key_spineNodes, List.mem_map]
    constructor
    · rintro ⟨q', hq', heq⟩
      obtain rfl : q' = q := congrArg Prod.snd heq
      exact hq'
    · intro h
      exact ⟨q, h, rfl⟩
  have hcol := h₁₂.columns (project, q)
  rw [← Option.isSome_map (f := Node.toNewNode), hcol]
  cases hlast : lastWrite NewNode.key (spineNodes project entries₂) (project, q) with
  | some w =>
    obtain ⟨hw, hwk⟩ := mem_of_lastWrite hlast
    have hmem := (hkey entries₂).1 (hwk ▸ List.mem_map_of_mem hw)
    exact ⟨fun _ => hmem, fun _ => rfl⟩
  | none =>
    have hnot : q ∉ spineNames project entries₂ := fun h =>
      lastWrite_eq_none_iff.1 hlast ((hkey entries₂).2 h)
    obtain ⟨n, hn, hnk⟩ := List.mem_map.1 ((hkey entries₁).2 hq)
    obtain ⟨w, hw⟩ := exists_lastWrite NewNode.key hn
    rw [hnk] at hw
    obtain ⟨hwmem, hwk⟩ := mem_of_lastWrite hw
    have hspine : notSpine project w = false := by
      refine decide_eq_false ?_
      rintro (hp | hl)
      · exact hp (congrArg Prod.fst hwk)
      · -- only the Project node is spared, and its name is used every time
        rcases List.mem_append.1 hwmem with hwmem | hwmem
        · rcases List.mem_cons.1 hwmem with rfl | hwmem
          · have hqp : project = q := congrArg Prod.snd hwk
            exact hnot (hqp ▸ by simp [spineNames])
          · obtain ⟨d, _, rfl⟩ := List.mem_map.1 hwmem
            simp [folderNode, spineLabels] at hl
        · obtain ⟨r, _, rfl⟩ := List.mem_map.1 hwmem
          simp [fileNode, spineLabels] at hl
    rw [Option.none_or, h₁.columns, hw, Option.some_or, Option.filter_some, hspine]
    simpa using hnot

theorem second_pass_iff (hs : Spineless g project) (h₁ : Built project entries₁ g g₁)
    (h₂ : Built project entries₂ g g₂) (h₁₂ : Built project entries₂ g₁ g₁₂) :
    (spineRows g₁₂ project = spineRows g₂ project ∧ containment g₁₂ = containment g₂) ↔
      NoStaleContainment project entries₁ entries₂ := by
  have hrows : spineRows g₁₂ project = spineRows g₂ project := by
    ext w
    rw [h₁₂.mem_spineRows, h₂.mem_spineRows]
  have hcont₁ : ∀ c p, (c, p) ∈ containment g₁ ↔
      c ∈ spineContainment project entries₁ ∧ p = Json.emptyObj := by
    intro c p
    rw [h₁.containments]
    by_cases hc : c ∈ spineContainment project entries₁
    · simp [hc]
    · simp [hc, hs.containment_eq]
  have hcont₂ : ∀ c p, (c, p) ∈ containment g₂ ↔
      c ∈ spineContainment project entries₂ ∧ p = Json.emptyObj := by
    intro c p
    rw [h₂.containments]
    by_cases hc : c ∈ spineContainment project entries₂
    · simp [hc]
    · simp [hc, hs.containment_eq]
  have hcont₁₂ : ∀ c p, (c, p) ∈ containment g₁₂ ↔ p = Json.emptyObj ∧
      (c ∈ spineContainment project entries₂ ∨ (c ∈ spineContainment project entries₁ ∧
        c.1.2 ∈ spineNames project entries₂ ∧ c.2.1.2 ∈ spineNames project entries₂)) := by
    intro c p
    rw [h₁₂.containments]
    by_cases hc : c ∈ spineContainment project entries₂
    · simp [hc]
    · rw [if_neg hc, hcont₁]
      constructor
      · rintro ⟨⟨hc₁, hp⟩, hsrc, htgt⟩
        obtain ⟨hs₁, ht₁⟩ := ends_of_mem_spineContainment hc₁
        rw [map_key_spineNodes, List.mem_map] at hs₁ ht₁
        obtain ⟨q, hq, hqe⟩ := hs₁
        obtain ⟨q', hq', hqe'⟩ := ht₁
        rw [← hqe] at hsrc
        rw [← hqe'] at htgt
        refine ⟨hp, Or.inr ⟨hc₁, ?_, ?_⟩⟩
        · rw [← hqe]
          exact (isSome_after_second h₁ h₁₂ hq).1 hsrc
        · rw [← hqe']
          exact (isSome_after_second h₁ h₁₂ hq').1 htgt
      · rintro ⟨hp, hc₂ | ⟨hc₁, hsrc, htgt⟩⟩
        · exact absurd hc₂ hc
        · obtain ⟨hs₁, ht₁⟩ := ends_of_mem_spineContainment hc₁
          rw [map_key_spineNodes, List.mem_map] at hs₁ ht₁
          obtain ⟨q, hq, hqe⟩ := hs₁
          obtain ⟨q', hq', hqe'⟩ := ht₁
          rw [← hqe] at hsrc ⊢
          rw [← hqe'] at htgt ⊢
          exact ⟨⟨hc₁, hp⟩, (isSome_after_second h₁ h₁₂ hq).2 hsrc,
            (isSome_after_second h₁ h₁₂ hq').2 htgt⟩
  constructor
  · rintro ⟨_, hcont⟩ c hc₁ hsrc htgt
    have hmem : (c, Json.emptyObj) ∈ containment g₁₂ :=
      (hcont₁₂ c _).2 ⟨rfl, Or.inr ⟨hc₁, hsrc, htgt⟩⟩
    rw [hcont] at hmem
    exact ((hcont₂ c _).1 hmem).1
  · intro hstale
    refine ⟨hrows, ?_⟩
    ext ⟨c, p⟩
    rw [hcont₁₂, hcont₂]
    constructor
    · rintro ⟨hp, hc₂ | ⟨hc₁, hsrc, htgt⟩⟩
      · exact ⟨hc₂, hp⟩
      · exact ⟨hstale c hc₁ hsrc htgt, hp⟩
    · rintro ⟨hc₂, hp⟩
      exact ⟨hp, Or.inl hc₂⟩

end SecondPass

/-- **The spine is complete and exact** for `entries₂`, on a store as it is and on one that a pass
for `entries₁` has run on. -/
def SpineExact (project : String) (g : Graph) (entries₁ entries₂ : List InventoryEntry) : Prop :=
  ∃ g₁ g₂ g₁₂, buildStructural project entries₁ g = .ok g₁ ∧
    buildStructural project entries₂ g = .ok g₂ ∧ buildStructural project entries₂ g₁ = .ok g₁₂ ∧
    SpineComplete g₂ project entries₂ ∧
    spineRows g₁₂ project = spineRows g₂ project ∧ containment g₁₂ = containment g₂

theorem built_of_ok {project : String} {entries : List InventoryEntry} {g g' : Graph}
    (hp : (g.projects.find? project).isSome) (h : buildStructural project entries g = .ok g') :
    Built project entries g g' := by
  obtain ⟨g₁, hok, _, hbuilt⟩ := buildStructural_spec entries hp
  rw [h] at hok
  cases hok
  exact hbuilt

/-- **When the spine is complete and exact.**  On a store that has the project and no spine yet, the
pass gives one File per entry and one Folder per directory with the right parents, and forgets what
a pass for other entries left, exactly when the qualified names of the spine are pairwise distinct
and no containment of the other entries joins two of these names otherwise. -/
theorem spine_exact_iff (project : String) (g : Graph) (hp : (g.projects.find? project).isSome)
    (hs : Spineless g project) (entries₁ entries₂ : List InventoryEntry) :
    SpineExact project g entries₁ entries₂ ↔
      (spineNames project entries₂).Nodup ∧ NoStaleContainment project entries₁ entries₂ := by
  obtain ⟨g₁, hb₁, hp₁, h₁⟩ := buildStructural_spec entries₁ hp
  obtain ⟨g₂, hb₂, _, h₂⟩ := buildStructural_spec entries₂ hp
  obtain ⟨g₁₂, hb₁₂, _, h₁₂⟩ := buildStructural_spec (g := g₁) entries₂ (hp₁ ▸ hp)
  rw [← second_pass_iff hs h₁ h₂ h₁₂]
  constructor
  · rintro ⟨a, b, c, ha, hb, hc, hcomplete, hsame⟩
    rw [hb₁] at ha
    cases ha
    rw [hb₂] at hb
    cases hb
    rw [hb₁₂] at hc
    cases hc
    exact ⟨h₂.nodup_of_complete hs hcomplete, hsame⟩
  · rintro ⟨hnd, hsame⟩
    exact ⟨g₁, g₂, g₁₂, hb₁, hb₂, hb₁₂, h₂.complete_of_nodup hs hnd, hsame⟩

/-- A store with nothing but the project `p`. -/
def bareProject : Graph := Graph.empty.upsertProject ⟨"p", "2026-06-29T00:00:00Z", "/repos/p"⟩

theorem spineless_bareProject : Spineless bareProject "p" :=
  ⟨by simp [bareProject, Graph.empty], by simp [bareProject, Graph.empty]⟩

/-- An entry whose stat the walk did not read. -/
def entryAt (relPath : String) : InventoryEntry := ⟨relPath, "/repos/p/" ++ relPath, none, none, none, none⟩

theorem spine_exact_iff_src :
    (bareProject.projects.find? "p").isSome ∧ Spineless bareProject "p" ∧
      (SpineExact "p" bareProject [entryAt "a/x.rs"] [entryAt "b/y.rs", entryAt "main.rs"] ↔
        (spineNames "p" [entryAt "b/y.rs", entryAt "main.rs"]).Nodup ∧
          NoStaleContainment "p" [entryAt "a/x.rs"] [entryAt "b/y.rs", entryAt "main.rs"]) :=
  ⟨by decide, spineless_bareProject,
    spine_exact_iff "p" bareProject (by decide) spineless_bareProject _ _⟩

theorem names_collide : ¬ (spineNames "p" [entryAt "a.rs", entryAt "a.py"]).Nodup := by
  intro hnd
  have hfiles := (List.nodup_append.1 hnd).2.1
  simp only [relPaths, List.map_cons, List.map_nil, List.nodup_cons] at hfiles
  have hsame : fileQn "p" (norm (entryAt "a.rs").relPath) =
      fileQn "p" (norm (entryAt "a.py").relPath) := by decide +kernel
  rw [hsame] at hfiles
  exact hfiles.1 List.mem_cons_self

/-- The two files are one File node. -/
theorem not_spineExact_extensions :
    ([entryAt "a.rs", entryAt "a.py"].map InventoryEntry.relPath).Nodup ∧
      ¬ SpineExact "p" bareProject [] [entryAt "a.rs", entryAt "a.py"] := by
  refine ⟨by decide, ?_⟩
  rintro ⟨_, g₂, _, _, hb, _, hcomplete, _⟩
  have hp : (bareProject.projects.find? "p").isSome := by decide
  exact names_collide ((built_of_ok hp hb).nodup_of_complete spineless_bareProject hcomplete)

end Greppy
