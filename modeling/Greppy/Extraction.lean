/-
**What is extracted from a syntax tree.**

The passes over the tree of a file produce nodes, which are definitions, and edges between qualified
names.  An edge is resolved later: its source has to be the qualified name of a node of the file, or
it is dropped.  So the passes that emit edges rebuild the names of the definitions around a
reference by walks of their own.
-/

import Greppy.SyntaxTree

set_option autoImplicit false

namespace Extract

structure ExtractedNode where
  label : String
  name : String
  qualifiedName : String
  filePath : String
  startLine : ℕ
  endLine : ℕ
deriving DecidableEq

structure ExtractedEdge where
  edgeType : String
  sourceQualifiedName : String
  targetQualifiedName : String
  filePath : String
  line : ℕ
deriving DecidableEq

/-- `ImportedItem`: one name that an import binds, or a glob. -/
structure ImportedItem where
  path : String
  importedName : String
  originalName : String
  isGlob : Bool
deriving DecidableEq

/-- The name of the file, the source of what stands outside of all definitions. -/
def fileQname (filePath : String) : String := filePath ++ "::__file__"

/-- The name of a definition: `{file}::{segment}::{name}`. -/
def qname (filePath segment name : String) : String := filePath ++ "::" ++ segment ++ "::" ++ name

def line (n : SyntaxNode) : ℕ := n.startRow + 1

/-- A node for a definition that extends over a node of the tree. -/
def nodeAt (filePath label name qualifiedName : String) (span : SyntaxNode) : ExtractedNode :=
  ⟨label, name, qualifiedName, filePath, span.startRow + 1, span.endRow + 1⟩

/-- `named_child_of_kinds`: the first child of one of these kinds. -/
def namedChildOfKinds (n : SyntaxNode) (kinds : List String) : Option SyntaxNode :=
  n.children.find? fun c => kinds.contains c.kind

/-- `is_definition_name`: the node has the span of the name of its parent. -/
def isDefinitionName (n : SyntaxNode) : Bool :=
  match n.parent with
  | none => false
  | some p =>
    match p.childByFieldName "name" with
    | some name => name.startByte == n.startByte && name.endByte == n.endByte
    | none => false

/-- An ancestor of one of these kinds among the nearest. -/
def isInsideKindWithin (depth : ℕ) (n : SyntaxNode) (kinds : List String) : Bool :=
  (n.ancestors.take depth).any fun a => kinds.contains a.kind

def isInsideKind (n : SyntaxNode) (kinds : List String) : Bool := isInsideKindWithin 12 n kinds

/-- The nearest ancestor of one of these kinds. -/
def enclosing (kinds : List String) (n : SyntaxNode) : Option SyntaxNode :=
  n.ancestors.find? fun a => kinds.contains a.kind

theorem kind_of_enclosing {kinds : List String} {n a : SyntaxNode} (h : enclosing kinds n = some a) :
    a.kind ∈ kinds :=
  List.contains_iff_mem.1 (List.find?_some (p := fun a : SyntaxNode => kinds.contains a.kind) h)

theorem enclosing_mem_nodes {tree : SyntaxTree} {kinds : List String} {n a : SyntaxNode}
    (hn : n ∈ tree.nodes) (h : enclosing kinds n = some a) : a ∈ tree.nodes :=
  SyntaxTree.ancestors_mem_nodes hn (List.mem_of_find?_eq_some h)

/-- The child of a node that is not of these kinds sees the same ancestor of these kinds. -/
theorem enclosing_of_parent {kinds : List String} {n p : SyntaxNode} (hp : n.parent = some p)
    (hkind : p.kind ∉ kinds) : enclosing kinds n = enclosing kinds p := by
  rw [enclosing, SyntaxNode.ancestors_of_parent hp, List.find?_cons_of_neg]
  · rfl
  · rw [List.contains_iff_mem]
    exact hkind

end Extract
