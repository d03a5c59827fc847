/-
**One index run.**

`index_with_options` (`crates/indexer/src/lib.rs`) brings the store up to date with a working tree.
Without a usable earlier run it goes through every file (`run_full`); otherwise it diffs the inventory
against the persisted rows and goes through what changed (`run_incremental`).  Either way a file ends
up in one of a few ways: it is extracted, and gets nodes, raw edges and a `file_state` row; or it is
given up on, and gets an `index_skips` row with the reason.  Files of an unsupported language get both
kinds of row.  Then the edges are resolved, the structural spine is rebuilt and imports of files are
linked.

The parser is a parameter, and so are the hash function, the language table and the disk.  The limits
on the number of files and on the time are not in force, and extraction, which is parallel in the
source with the results put back in order, is a map.
-/

import Greppy.EdgeResolve
import Greppy.FileDiff
import Greppy.Structural

set_option autoImplicit false

namespace Greppy

/-! ### What a run depends on -/

/-- A language of the parser, as far as the indexer asks. -/
structure Language where
  name : String
  supported : Bool

/-- A definition as the parser extracts it. -/
structure ExtractedNode where
  label : String
  name : String
  qualifiedName : String
  filePath : String
  startLine : ℕ
  endLine : ℕ
  properties : Json

structure Extraction where
  nodes : List ExtractedNode
  edges : List ExtractedEdge

/-- What stays the same from run to run: the hash, the size cap, the languages and the parser. -/
structure Env where
  sha256Hex : Bytes → String
  maxSize : UInt64
  languageForPath : String → Language
  parserExtract : Language → Bytes → String → Except String Extraction
  /-- `ProviderOutput::from_extraction(…).validate().is_ok()`. -/
  providerValid : Language → String → Extraction → Bool

/-- What a single run sees: the disk, the generation it stamps and the time. -/
structure Run where
  disk : Disk
  generation : ℕ
  now : String

/-! ### One file -/

inductive FileOutcome where
  | extracted (relPath absPath : String) (bytes : Bytes) (metadata : StableFileMetadata)
      (nodes : List ExtractedNode) (edges : List ExtractedEdge)
  | unreadable (entry : InventoryEntry) (language : Language) (reason detail : String)

def extractOne (env : Env) (disk : Disk) (entry : InventoryEntry) (lang : Language) :
    FileOutcome :=
  match readStableFile disk entry.absPath with
  | .error e => .unreadable entry lang "unreadable" ("read failed: " ++ e)
  | .ok (bytes, metadata) =>
    match env.parserExtract lang bytes entry.relPath with
    | .error e => .unreadable entry lang "parse_failed" e
    | .ok extraction =>
      if env.providerValid lang entry.relPath extraction then
        .extracted entry.relPath entry.absPath bytes metadata extraction.nodes extraction.edges
      else .unreadable entry lang "provider_invalid"
        "provider output failed contract validation"

def fileModuleQname (relPath : String) : String := relPath ++ "::__file__"

def moduleNameFor (relPath : String) : String :=
  ((fileStem? relPath).map String.ofList).getD relPath

def moduleNode (relPath : String) : ExtractedNode where
  label := "Module"
  name := moduleNameFor relPath
  qualifiedName := fileModuleQname relPath
  filePath := relPath
  startLine := 1
  endLine := 1
  properties := .obj [("kind", .str "module"), ("synthetic", .bool true)]

def newNodeFor (project relPath : String) (n : ExtractedNode) : NewNode :=
  ⟨project, n.label, n.name, n.qualifiedName, relPath, n.startLine, n.endLine, n.properties⟩

/-- The nodes a file's extraction is written as. -/
def fileNodes (project relPath : String) (nodes : List ExtractedNode) : List NewNode :=
  (moduleNode relPath :: nodes).map (newNodeFor project relPath)

def oversizeSentinelSha : String := "<oversize>"

/-- The `file_state` row of a file. -/
def stateRow (env : Env) (run : Run) (project relPath absPath sha256 : String) (size : UInt64)
    (metadata : StableFileMetadata) : FileState where
  project := project
  relPath := relPath
  language := (env.languageForPath absPath).name
  sha256 := sha256
  mtimeNs := metadata.mtimeNs.getD 0
  size := size.toInt64
  parserVersion := "tree-sitter-0.25"
  extractorVersion := "greppy-extractor-v1"
  lastIndexedGeneration := run.generation

/-- Write the `file_state` row of a file and its identity. -/
def recordFileState (env : Env) (run : Run) (project relPath absPath sha256 : String)
    (size : UInt64) (metadata : StableFileMetadata) (t : FileTables) : FileTables :=
  (t.upsertFileState
    (stateRow env run project relPath absPath sha256 size metadata)).upsertFileIdentity project
      relPath ⟨metadata.ctimeNs, metadata.fileId⟩

/-- `record_unsupported_file_state`: an oversized file is never read. -/
def recordUnsupportedFileState (env : Env) (run : Run) (project : String) (entry : InventoryEntry)
    (t : FileTables) : FileTables :=
  match run.disk.metadata entry.absPath with
  | .error _ => t
  | .ok md =>
    if env.maxSize < md.size then
      recordFileState env run project entry.relPath entry.absPath oversizeSentinelSha md.size md t
    else
      match readStableFile run.disk entry.absPath with
      | .error _ => t
      | .ok (bytes, metadata) =>
        recordFileState env run project entry.relPath entry.absPath (env.sha256Hex bytes)
          (lenU64 bytes) metadata t

/-- What `record_index_skip` takes for the stat of a file it cannot stat. -/
def unknownStat : StableFileMetadata := ⟨0, none, none, none⟩

/-- The `index_skips` row of a file, with its stat at this moment. -/
def skipRow (run : Run) (project : String) (entry : InventoryEntry)
    (language reason detail : String) : IndexSkip :=
  let metadata := match run.disk.metadata entry.absPath with
    | .ok md => md
    | .error _ => unknownStat
  { project := project, relPath := entry.relPath, language := language, reason := reason
    detail := detail, size := metadata.size.toInt64, mtimeNs := metadata.mtimeNs.getD 0
    ctimeNs := metadata.ctimeNs, fileId := metadata.fileId
    lastIndexedGeneration := run.generation, updatedAt := run.now }

def recordIndexSkip (run : Run) (project : String) (entry : InventoryEntry)
    (language reason detail : String) (t : FileTables) : FileTables :=
  t.upsertIndexSkip (skipRow run project entry language reason detail)

/-- `apply_file_nodes`: the store after it, and whether it succeeded. -/
def applyFileNodes (env : Env) (run : Run) (project relPath absPath : String) (bytes : Bytes)
    (metadata : StableFileMetadata) (nodes : List ExtractedNode) (s : Store) : Store × Bool :=
  let s := { s with graph := s.graph.deleteNodesForFile project relPath }
  match s.graph.insertNodes (fileNodes project relPath nodes) with
  | .error _ => (s, false)
  | .ok (g, _) =>
    ({ s with
        graph := g
        files := recordFileState env run project relPath absPath (env.sha256Hex bytes)
          (lenU64 bytes) metadata s.files }, true)

def persistRawEdgesForFile (project ownerFile : String) (edges : List ExtractedEdge) (s : Store) :
    Store :=
  (s.deleteRawEdgesForFile project ownerFile).insertRawEdges
    (edges.map (newRawEdgeFor project ownerFile))

/-- One turn of the serial write loop. -/
def applyOutcome (env : Env) (run : Run) (project : String) (s : Store) : FileOutcome → Store
  | .extracted relPath absPath bytes metadata nodes edges =>
    match applyFileNodes env run project relPath absPath bytes metadata nodes s with
    | (s, true) =>
      persistRawEdgesForFile project relPath edges
        { s with files := s.files.deleteIndexSkip project relPath }
    | (s, false) => s
  | .unreadable entry language reason detail =>
    { s with files := recordIndexSkip run project entry language.name reason detail s.files }

/-- How a file is dealt with before it is read. -/
inductive Triage where
  | unsupported (lang : Language)
  | oversize (lang : Language) (md : StableFileMetadata)
  | extract (lang : Language)

def triage (env : Env) (disk : Disk) (entry : InventoryEntry) : Triage :=
  let lang := env.languageForPath entry.absPath
  if lang.supported then
    match disk.metadata entry.absPath with
    | .ok md => if env.maxSize < md.size then .oversize lang md else .extract lang
    | .error _ => .extract lang
  else .unsupported lang

/-- The rows a file of an unsupported language gets. -/
def skipUnsupported (env : Env) (run : Run) (project : String) (entry : InventoryEntry)
    (lang : Language) (t : FileTables) : FileTables :=
  recordIndexSkip run project entry lang.name "unsupported_language"
    "language provider is unsupported" (recordUnsupportedFileState env run project entry t)

def skipOversize (env : Env) (run : Run) (project : String) (entry : InventoryEntry)
    (lang : Language) (md : StableFileMetadata) (t : FileTables) : FileTables :=
  recordIndexSkip run project entry lang.name "oversize"
    s!"file size {md.size.toNat} exceeds cap {env.maxSize.toNat}" t

/-- Drop a file's nodes (its edges go with them) and its raw edges. -/
def dropGraphOf (project relPath : String) (s : Store) : Store :=
  { s with graph := s.graph.deleteNodesForFile project relPath }.deleteRawEdgesForFile project
    relPath

/-- The file that has to be extracted, with its language. -/
def toExtract (env : Env) (disk : Disk) (entry : InventoryEntry) :
    Option (InventoryEntry × Language) :=
  match triage env disk entry with
  | .extract lang => some (entry, lang)
  | _ => none

/-! ### The full run -/

/-- One turn of the classification loop of `run_full`. -/
def classifyFull (env : Env) (run : Run) (project : String) (s : Store) (entry : InventoryEntry) :
    Store :=
  match triage env run.disk entry with
  | .unsupported lang => { s with files := skipUnsupported env run project entry lang s.files }
  | .oversize lang md => { s with files := skipOversize env run project entry lang md s.files }
  | .extract _ => s

def runFull (env : Env) (run : Run) (project : String) (entries : List InventoryEntry)
    (s : Store) : Store :=
  let s := entries.foldl (classifyFull env run project) s
  let supported := entries.filterMap (toExtract env run.disk)
  (supported.map fun p => extractOne env run.disk p.1 p.2).foldl (applyOutcome env run project) s

/-! ### The incremental run -/

/-- `by_rel`: the inventory entry of a path. -/
def entryOf (entries : List InventoryEntry) (relPath : String) : Option InventoryEntry :=
  lastWrite InventoryEntry.relPath entries relPath

/-- The entry of a diff that is to be processed. -/
def changedEntry (entries : List InventoryEntry) : FileDiff → Option InventoryEntry
  | .added entry => entryOf entries entry.relPath
  | .modified entry _ => entryOf entries entry.relPath
  | _ => none

/-- `changed_files`: the paths a run changes. -/
def changedFileOf : FileDiff → Option String
  | .added entry => some entry.relPath
  | .modified entry _ => some entry.relPath
  | .deleted rel => some rel
  | .unchanged => none

/-- A changed file that is not going to be extracted. -/
def applyTriage (env : Env) (run : Run) (project : String) (s : Store) (entry : InventoryEntry) :
    Store :=
  match triage env run.disk entry with
  | .unsupported lang =>
    dropGraphOf project entry.relPath
      { s with files := skipUnsupported env run project entry lang s.files }
  | .oversize lang md =>
    dropGraphOf project entry.relPath
      { s with files := skipOversize env run project entry lang md s.files }
  | .extract _ => s

/-- One turn of the loop over the diff. -/
def applyDiff (env : Env) (run : Run) (project : String) (entries : List InventoryEntry)
    (s : Store) (diff : FileDiff) : Store :=
  match diff with
  | .deleted rel =>
    dropGraphOf project rel
      { s with files := (s.files.deleteFileState project rel).deleteIndexSkip project rel }
  | _ =>
    match changedEntry entries diff with
    | some entry => applyTriage env run project s entry
    | none => s

/-- `run_incremental`: the store, and the changed files. -/
def runIncremental (env : Env) (run : Run) (project : String) (entries : List InventoryEntry)
    (s : Store) : Except Error (Store × List String) := do
  let diffs ← computeFileDiff run.disk env.sha256Hex env.maxSize s.files project entries
  let s := diffs.foldl (applyDiff env run project entries) s
  let changed := (diffs.filterMap (changedEntry entries)).filterMap (toExtract env run.disk)
  let s := (changed.map fun p => extractOne env run.disk p.1 p.2).foldl
    (applyOutcome env run project) s
  return ({ s with files := s.files.bumpFileAndSkipGenerations project run.generation },
    diffs.filterMap changedFileOf)

/-! ### The run -/

/-- A refused statement, as the error the run ends with. -/
def StoreError.toError : StoreError → Error
  | .foreignKey => .store "sqlite: FOREIGN KEY constraint failed"

def SpineError.toError : SpineError → Error
  | .store e => e.toError
  | .noFolder dir => .store ("no folder " ++ dir)

/-- Whether a run may rely on what an earlier run left. -/
def isIncremental (s : Store) (project : String) : Bool :=
  !(s.files.listFileStates project).isEmpty &&
    (decide (0 < s.countRawEdges project) || !s.legacySidecar)

/-- What follows the edges in every run: the spine, then the imports of files. -/
def finishRun (project : String) (entries : List InventoryEntry) (s : Store) :
    Except Error Store := do
  let g ← (buildStructural project entries s.graph).mapError SpineError.toError
  let g ← (resolveFileImports project (loadAllRawEdges s project) g).mapError StoreError.toError
  return { s with graph := g }

/-- `index_with_options`, from the discovered entries on. -/
def indexRun (env : Env) (run : Run) (project rootPath : String) (entries : List InventoryEntry)
    (s : Store) : Except Error Store := do
  let s := { s with graph := s.graph.upsertProject ⟨project, run.now, rootPath⟩ }
  if isIncremental s project then
    let defFpBefore := defFingerprint s.graph project
    let (s, changedFiles) ← runIncremental env run project entries s
    let g ← (resolveEdgesIncremental project changedFiles defFpBefore (loadAllRawEdges s project)
      s.graph).mapError StoreError.toError
    finishRun project entries { s with graph := g }
  else
    let s := runFull env run project entries s
    let g ← (resolveAndPersistEdges project (loadAllRawEdges s project) s.graph).mapError
      StoreError.toError
    finishRun project entries { s with graph := g }

end Greppy
