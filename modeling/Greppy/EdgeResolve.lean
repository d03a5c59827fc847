/-
**Resolving raw edges to edges of the graph.**

The parser names the ends of an edge; the indexer looks the names up once all nodes are there
(`crates/indexer/src/lib.rs`).  Imports are resolved first, because a file's imports break ties
between its references.  After a full run every raw edge is resolved.  After an incremental run only
those are that the run may have affected: when the set of definitions is what it was
(`def_fingerprint`), the raw edges of the changed files and those that name a definition of a changed
file; otherwise everything again.  The import of a whole file is resolved last, once the File nodes
are there.
-/

import Greppy.GraphIndex
import Greppy.GraphWrites
import Greppy.IndexStore
import Mathlib.Data.Finset.Basic

set_option autoImplicit false

namespace Greppy

/-! ### Edges in three forms -/

/-- The properties of an edge with its line folded in. -/
def withLine (edge : ExtractedEdge) : Json :=
  if 0 < edge.line then edge.properties.insert "line" (.int edge.line) else edge.properties

def newRawEdgeFor (project ownerFile : String) (e : ExtractedEdge) : RawEdge where
  project := project
  filePath := ownerFile
  sourceQname := e.sourceQualifiedName
  targetQname := e.targetQualifiedName
  edgeType := e.edgeType
  properties := withLine e

/-- `extracted_edge_from_raw`: the line is read back from the properties, as a `u32`. -/
def extractedEdgeFromRaw (r : RawEdge) : ExtractedEdge where
  edgeType := r.edgeType
  sourceQualifiedName := r.sourceQname
  targetQualifiedName := r.targetQname
  filePath := r.filePath
  line := (((r.properties.get "line").bind Json.asU64).getD 0) % 2 ^ 32
  properties := r.properties

def loadAllRawEdges (s : Store) (project : String) : List ExtractedEdge :=
  (s.listRawEdges project).map extractedEdgeFromRaw

def usagePersistLabel (edgeType : String) : String :=
  if edgeType = "TYPE_REF" ∨ edgeType = "USES" ∨ edgeType = "USAGE" then "USAGE" else edgeType

def newEdge (project : String) (sourceId targetId : ℕ) (edge : ExtractedEdge) : Edge :=
  ⟨project, sourceId, targetId, usagePersistLabel edge.edgeType, withLine edge⟩

/-! ### The two passes -/

namespace GraphIndex

variable {ι : Type} [DecidableEq ι]

/-- The definition an import names, a tie being broken by the module segment of its path. -/
def importTarget (index : GraphIndex ι) (edge : ExtractedEdge) : Option ι :=
  match nonemptyProp edge "imported_name" with
  | some name =>
    index.uniqueDefNamedWithPath importableLabels name ((edge.properties.getStr "path").getD "")
  | none => none

def referenceTarget (index : GraphIndex ι) (edge : ExtractedEdge) (srcId : ι) : Option ι :=
  if edge.edgeType = "CALLS" then index.resolveCallTarget edge
  else if edge.edgeType = "TYPE_REF" then index.resolveDirectOrName edge "type_name" typeLabels
  else if edge.edgeType = "USES" then
    match nonemptyProp edge "ref_name" with
    | some name => index.resolveUniqueWithImports defLabels name srcId
    | none => none
  else if edge.edgeType = "USAGE" then
    match nonemptyProp edge "ref_name" with
    | some name => index.resolveUniqueWithImports usageLabels name srcId
    | none => none
  else (index.byQname edge.targetQualifiedName).map IndexRow.id

/-- One import: its source row and its target, unless the two are one. -/
def resolveImport (index : GraphIndex ι) (edge : ExtractedEdge) : Option (IndexRow ι × ι) :=
  match index.byQname edge.sourceQualifiedName, index.importTarget edge with
  | some src, some target => if target = src.id then none else some (src, target)
  | _, _ => none

/-- Pass 1: the imports that `consider` admits (by edge and by the source's file) are recorded in the
index; those that `persist` admits are also kept. -/
def importPass (consider : ExtractedEdge → String → Bool) (persist : ExtractedEdge → Bool) :
    List ExtractedEdge → GraphIndex ι → GraphIndex ι × List (ι × ι × ExtractedEdge)
  | [], index => (index, [])
  | edge :: edges, index =>
    if edge.edgeType = "IMPORTS" then
      match index.resolveImport edge with
      | some (src, target) =>
        if consider edge src.filePath then
          let (index, rest) := importPass consider persist edges
            (index.recordImport src.filePath target)
          (index, if persist edge then (src.id, target, edge) :: rest else rest)
        else importPass consider persist edges index
      | none => importPass consider persist edges index
    else importPass consider persist edges index

/-- One reference: its source and its target; only calls may be self-loops. -/
def resolveReference (index : GraphIndex ι) (edge : ExtractedEdge) : Option (ι × ι) :=
  match index.byQname edge.sourceQualifiedName with
  | some src =>
    match index.referenceTarget edge src.id with
    | some target =>
      if target = src.id ∧ edge.edgeType ≠ "CALLS" then none else some (src.id, target)
    | none => none
  | none => none

/-- Pass 2: the reference edges that `consider` admits. -/
def referencePass (index : GraphIndex ι) (consider : ExtractedEdge → Bool)
    (edges : List ExtractedEdge) : List (ι × ι × ExtractedEdge) :=
  edges.filterMap fun edge =>
    if edge.edgeType ≠ "IMPORTS" ∧ consider edge = true then
      (index.resolveReference edge).map fun p => (p.1, p.2, edge)
    else none

/-- Both passes over a selection of the edges. -/
def resolveSelected (index : GraphIndex ι) (considerImport : ExtractedEdge → String → Bool)
    (candidate : ExtractedEdge → Bool) (edges : List ExtractedEdge) :
    List (ι × ι × ExtractedEdge) :=
  let (index, imports) := importPass considerImport candidate edges index
  imports ++ index.referencePass candidate edges

def resolveEdges (index : GraphIndex ι) (edges : List ExtractedEdge) :
    List (ι × ι × ExtractedEdge) :=
  index.resolveSelected (fun _ _ => true) (fun _ => true) edges

/-- `names_in_files`: the names of the nodes that live in one of the files. -/
def namesInFiles (index : GraphIndex ι) (files : List String) : List String :=
  (index.nodes.filter fun n => decide (n.filePath ∈ files)).map IndexRow.name

end GraphIndex

def newEdges (project : String) (resolved : List (ℕ × ℕ × ExtractedEdge)) : List Edge :=
  resolved.map fun p => newEdge project p.1 p.2.1 p.2.2

def resolveAndPersistEdges (project : String) (edges : List ExtractedEdge) (g : Graph) :
    Except StoreError Graph :=
  g.insertEdges (newEdges project ((GraphIndex.load g project).resolveEdges edges))

/-! ### The incremental path -/

/-- One line of the fingerprint: the columns resolution consults, joined by U+001F. -/
def fingerprintLine (n : Node) : String :=
  n.qualifiedName ++ "\x1f" ++ n.name ++ "\x1f" ++ n.label ++ "\x1f" ++ n.filePath

/-- `def_fingerprint`: the lines of the nodes outside the structural spine, as a set. -/
def defFingerprint (g : Graph) (project : String) : Finset String :=
  ((g.nodes.rows.filter fun n =>
    decide (n.project = project ∧ n.label ∉ ["Project", "Folder", "File"])).map
      fingerprintLine).toFinset

def edgeReferencesName (edge : ExtractedEdge) (names : List String) : Bool :=
  let prop :=
    if edge.edgeType = "CALLS" then some "callee_name"
    else if edge.edgeType = "TYPE_REF" then some "type_name"
    else if edge.edgeType = "USES" then some "ref_name"
    else if edge.edgeType = "IMPORTS" then some "imported_name"
    else none
  match prop.bind edge.properties.getStr with
  | some name => decide (name ∈ names)
  | none => false

/-- `is_candidate`: owned by a changed file, or naming a definition of one. -/
def isCandidate (changedFiles changedDefNames : List String) (edge : ExtractedEdge) : Bool :=
  decide (edge.filePath ∈ changedFiles) || edgeReferencesName edge changedDefNames

/-- `candidate_owner_files`: the files that own a candidate reference edge. -/
def candidateOwnerFiles (candidate : ExtractedEdge → Bool) (edges : List ExtractedEdge) :
    List String :=
  (edges.filter fun e => decide (e.edgeType ≠ "IMPORTS") && candidate e).map
    ExtractedEdge.filePath

/-- What the cheap path resolves: the candidates, with the imports of the files that own one. -/
def resolveCandidates (g : Graph) (project : String) (changedFiles : List String)
    (edges : List ExtractedEdge) : List (ℕ × ℕ × ExtractedEdge) :=
  let index := GraphIndex.load g project
  let candidate := isCandidate changedFiles (index.namesInFiles changedFiles)
  let owners := candidateOwnerFiles candidate edges
  index.resolveSelected (fun edge srcFile => candidate edge || decide (srcFile ∈ owners))
    candidate edges

def resolveEdgesIncremental (project : String) (changedFiles : List String)
    (defFpBefore : Finset String) (rawEdges : List ExtractedEdge) (g : Graph) :
    Except StoreError Graph :=
  if changedFiles.isEmpty then .ok g
  else if defFingerprint g project ≠ defFpBefore then
    resolveAndPersistEdges project rawEdges
      (g.deleteEdgesWhere fun e => decide (e.project = project))
  else g.insertEdges (newEdges project (resolveCandidates g project changedFiles rawEdges))

/-! ### Imports of files -/

/-- The stem under which `GraphIndex::load` files a File node: the base name before its last dot. -/
def stemOfFile (filePath : String) : List Char :=
  let base := (splitOnChar '/' filePath.toList).getLast?.getD []
  ((rsplitOnce '.' base).map Prod.fst).getD base

def GraphIndex.filesByStem {ι : Type} (index : GraphIndex ι) (stem : List Char) : List ι :=
  (index.nodes.filter fun n => decide (n.label = "File" ∧ stemOfFile n.filePath = stem)).map
    IndexRow.id

/-- `b.is_ascii_lowercase() || b.is_ascii_digit()`, for the bytes of a character. -/
def isLowerOrDigit (c : Char) : Bool := decide ('a' ≤ c ∧ c ≤ 'z' ∨ '0' ≤ c ∧ c ≤ '9')

/-- The stem an import names: its last path segment, less a short lowercase extension.  An extension
of these characters has as many bytes as characters. -/
def importStem (name : String) : List Char :=
  let lastPath := (splitOnChar '/' (name.toList.map fun c => if c = '\\' then '/' else c)).getLast?.getD []
  match rsplitOnce '.' lastPath with
  | some (base, ext) =>
    if ext ≠ [] ∧ ext.length ≤ 4 ∧ ext.all isLowerOrDigit = true then base else lastPath
  | none => lastPath

/-- One import that names no definition but exactly one file: the importer and the file. -/
def GraphIndex.resolveFileImport {ι : Type} [DecidableEq ι] (index : GraphIndex ι)
    (edge : ExtractedEdge) : Option (ι × ι) :=
  if edge.edgeType ≠ "IMPORTS" then none
  else
    match nonemptyProp edge "imported_name" with
    | none => none
    | some name =>
      if (index.importTarget edge).isSome then none
      else
        let stem := importStem name
        if '.' ∈ stem then none
        else
          match (index.filesByStem stem).only, index.byQname edge.sourceQualifiedName with
          | some fileId, some src => if fileId = src.id then none else some (src.id, fileId)
          | _, _ => none

def resolveFileImports (project : String) (rawEdges : List ExtractedEdge) (g : Graph) :
    Except StoreError Graph :=
  let index := GraphIndex.load g project
  g.insertEdges (newEdges project (rawEdges.filterMap fun edge =>
    (index.resolveFileImport edge).map fun p => (p.1, p.2, edge)))

end Greppy
