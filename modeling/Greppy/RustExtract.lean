/-
**Extraction from Rust files.**

Rust has an extractor of its own.  Its definition pass takes the names that a query captures and gives
each definition a qualified name: a method, an associated item or the variant of an enum is named
after the type it belongs to, a field after its struct or enum, and everything else after its label
alone.  The other passes emit edges, and name their sources by walking up to the function or the type
around a reference.
-/

import Greppy.Extraction

set_option autoImplicit false

namespace Extract

namespace Rust

/-! ### Queries -/

/-- A definition with a name of a kind. -/
def named (kind nameKind capture whole : String) : Pattern :=
  pattern [kind] (some whole) [(some "name", pattern [nameKind] (some capture) [])]

/-- `rust_queries::DEFINITIONS`. -/
def definitions : List Pattern := [
  named "function_item" "identifier" "name" "def",
  named "struct_item" "type_identifier" "name" "def",
  named "union_item" "type_identifier" "name" "def",
  named "enum_item" "type_identifier" "name" "def",
  named "trait_item" "type_identifier" "name" "def",
  pattern ["impl_item"] (some "def") [(some "type", pattern ["type_identifier"] (some "name") [])],
  named "type_item" "type_identifier" "name" "def",
  pattern ["field_declaration"] (some "field_decl") [
    (some "name", pattern ["field_identifier"] (some "field") []),
    (some "type", pattern [] none [])],
  named "const_item" "identifier" "var" "var_item",
  named "static_item" "identifier" "var" "var_item"]

/-- `rust_queries::CALLS`. -/
def calls : List Pattern := [
  pattern ["call_expression"] none [(some "function", pattern ["identifier"] (some "callee") [])],
  pattern ["call_expression"] none [
    (some "function", pattern ["field_expression"] none [
      (some "field", pattern ["field_identifier"] (some "callee") [])])],
  pattern ["call_expression"] none [
    (some "function", pattern ["scoped_identifier"] none [
      (some "name", pattern ["identifier"] (some "callee") [])])],
  pattern ["call_expression"] none [
    (some "function", pattern ["generic_function"] none [
      (some "function", pattern ["scoped_identifier"] none [
        (some "name", pattern ["identifier"] (some "callee") [])])])],
  pattern ["call_expression"] none [
    (some "function", pattern ["generic_function"] none [
      (some "function", pattern ["identifier"] (some "callee") [])])]]

def typed (kind : String) : Pattern :=
  pattern [kind] (some "assign") [(some "type", pattern [] none [])]

/-- `rust_queries::TYPE_ASSIGNS`. -/
def typeAssigns : List Pattern :=
  [typed "let_declaration", typed "const_item", typed "static_item", typed "field_declaration"]

/-- `rust_queries::INHERITANCE`. -/
def inheritance : List Pattern := [
  pattern ["impl_item"] (some "impl_trait") [
    (some "trait", pattern [] (some "trait_name") []),
    (some "type", pattern [] (some "impl_type") [])],
  pattern ["enum_item"] none [
    (some "name", pattern ["type_identifier"] (some "enum_name") []),
    (some "body", pattern ["enum_variant_list"] none [
      (none, pattern ["enum_variant"] none [
        (some "name", pattern ["identifier"] (some "enum_variant") [])])])],
  named "const_item" "identifier" "assoc_const" "assoc_const_item",
  named "associated_type" "type_identifier" "assoc_type" "assoc_type_item",
  named "type_item" "type_identifier" "assoc_type" "assoc_type_item"]

/-! ### The type of an impl block -/

mutual

def implTypeName : SyntaxTree → String
  | .node data children =>
    if data.kind = "type_identifier" then data.text
    else if data.kind = "scoped_type_identifier" then (firstTypeIdentifier children).getD data.text
    else if data.kind = "generic_type" then (typeFieldName children).getD data.text
    else data.text

def firstTypeIdentifier : SyntaxForest → Option String
  | .nil => none
  | .cons _ tree rest =>
    if tree.data.kind = "type_identifier" then some tree.data.text else firstTypeIdentifier rest

/-- The name of the type in the field `type`. -/
def typeFieldName : SyntaxForest → Option String
  | .nil => none
  | .cons field tree rest =>
    if field = some "type" then some (implTypeName tree) else typeFieldName rest

end

def implOwnerType (item : SyntaxNode) : Option String :=
  if item.kind = "trait_item" then (item.childByFieldName "name").map SyntaxNode.text
  else if item.kind = "impl_item" then
    (item.childByFieldName "type").map fun type => implTypeName type.tree
  else none

/-! ### Walks -/

def enclosingImplType (node : SyntaxNode) : Option String :=
  (enclosing ["impl_item", "trait_item"] node).bind implOwnerType

/-- The name of a function, as the walks form it. -/
def functionQname (filePath : String) (function name : SyntaxNode) : String :=
  match enclosingImplType function with
  | some type => qname filePath type name.text
  | none => qname filePath "Function" name.text

def enclosingFunctionQname (filePath : String) (node : SyntaxNode) : Option String := do
  let function ← enclosing ["function_item"] node
  let name ← namedChildOfKinds function ["identifier", "type_identifier"]
  some (functionQname filePath function name)

def enclosingDefQname (filePath : String) (node : SyntaxNode) : Option String := do
  let item ← enclosing ["function_item", "struct_item", "union_item", "enum_item", "trait_item"] node
  if item.kind = "function_item" then
    let name ← namedChildOfKinds item ["identifier", "type_identifier"]
    some (functionQname filePath item name)
  else
    let name ← namedChildOfKinds item ["type_identifier"]
    if item.kind = "enum_item" then some (qname filePath "Enum" name.text)
    else if item.kind = "trait_item" then some (qname filePath "Interface" name.text)
    else some (qname filePath "Class" name.text)

/-! ### Definitions -/

def label (node : SyntaxNode) : String :=
  match node.parent.map SyntaxNode.kind with
  | none => "Item"
  | some kind =>
    if kind = "function_item" then
      if (enclosingImplType node).isSome then "Method" else "Function"
    else if kind = "struct_item" ∨ kind = "union_item" then "Class"
    else if kind = "enum_item" then "Enum"
    else if kind = "trait_item" then "Interface"
    else if kind = "impl_item" then "Impl"
    else if kind = "type_item" then "Type"
    else "Item"

theorem label_of_function {node p : SyntaxNode} (hp : node.parent = some p)
    (hkind : p.kind = "function_item") :
    label node = if (enclosingImplType node).isSome then "Method" else "Function" := by
  simp only [label, hp, Option.map_some, if_pos hkind]

/-- The qualified name of a captured name. -/
def definitionQname (filePath : String) (node : SyntaxNode) : String :=
  if label node = "Method" ∨ label node = "Function" then
    match enclosingImplType node with
    | some type => qname filePath type node.text
    | none => qname filePath "Function" node.text
  else qname filePath (label node) node.text

def fieldNode (filePath : String) (node : SyntaxNode) : Option ExtractedNode :=
  if node.text = "" then none
  else (enclosingDefQname filePath node).map fun owner =>
    nodeAt filePath "Field" node.text (owner ++ "::" ++ node.text) (node.parent.getD node)

/-- The node of a captured constant or static. -/
def variableNode (filePath : String) (node : SyntaxNode) : Option ExtractedNode :=
  if node.text = "" ∨ node.text = "_" ∨ (enclosingImplType node).isSome then none
  else some (nodeAt filePath "Variable" node.text (qname filePath "Variable" node.text)
    (node.parent.getD node))

/-- The node of a captured name.  An `impl` block is no definition. -/
def itemNode (filePath : String) (node : SyntaxNode) : Option ExtractedNode :=
  if label node = "Impl" then none
  else some (nodeAt filePath (label node) node.text (definitionQname filePath node)
    (node.parent.getD node))

/-- The definition pass, for one capture. -/
def definitionNode (filePath : String) (capture : String × SyntaxNode) : Option ExtractedNode :=
  if capture.1 = "field" then fieldNode filePath capture.2
  else if capture.1 = "var" then variableNode filePath capture.2
  else if capture.1 = "name" then itemNode filePath capture.2
  else none

/-! ### Bounds -/

mutual

def typeIdentifiersIn : SyntaxTree → List String
  | .node data children =>
    if data.kind = "type_identifier" then [data.text]
    else if data.kind = "scoped_type_identifier" then (firstTypeIdentifier children).toList
    else typeIdentifiersUnder children

def typeIdentifiersUnder : SyntaxForest → List String
  | .nil => []
  | .cons _ tree rest => typeIdentifiersIn tree ++ typeIdentifiersUnder rest

end

def isBuiltinRustType (name : String) : Bool :=
  ["u8", "u16", "u32", "u64", "u128", "usize", "i8", "i16", "i32", "i64", "i128", "isize", "f32",
    "f64", "bool", "char", "str", "Self"].contains name

/-- `push_trait_bounds`: the traits of a `trait_bounds` node. -/
def traitBounds (bounds : SyntaxNode) : List String :=
  bounds.namedChildren.filterMap fun b =>
    if b.kind = "lifetime" then none
    else (typeIdentifiersIn b.tree).head?.filter fun bound => bound != "" && !isBuiltinRustType bound

/-- The bounds of a type parameter `T: A + B`. -/
def parameterBounds (parameter : SyntaxNode) : List String :=
  if parameter.kind = "type_parameter" then
    match namedChildOfKinds parameter ["type_identifier"] with
    | none => []
    | some _ => ((namedChildOfKinds parameter ["trait_bounds"]).map traitBounds).getD []
  else []

/-- The bounds of a predicate `T: A` of a `where` clause. -/
def predicateBounds (predicate : SyntaxNode) : List String :=
  if predicate.kind = "where_predicate" then
    match (predicate.childByFieldName "left").or (namedChildOfKinds predicate ["type_identifier"]) with
    | none => []
    | some _ => ((namedChildOfKinds predicate ["trait_bounds"]).map traitBounds).getD []
  else []

/-- `generic_bounds`: the traits that the type parameters of a function are bound by. -/
def genericBounds (function : SyntaxNode) : List String :=
  (match function.childByFieldName "type_parameters" with
    | none => []
    | some parameters => parameters.namedChildren.flatMap parameterBounds) ++
  (function.children.filter fun c => c.kind = "where_clause").flatMap fun clause =>
    clause.namedChildren.flatMap predicateBounds

/-- The `BOUND` edges of a captured name. -/
def boundEdges (filePath : String) (capture : String × SyntaxNode) : List ExtractedEdge :=
  let node := capture.2
  let definition := node.parent.getD node
  if capture.1 = "name" ∧ (label node = "Method" ∨ label node = "Function") ∧
      definition.kind = "function_item" then
    (genericBounds definition).map fun bound =>
      ⟨"BOUND", definitionQname filePath node, qname filePath "Interface" bound, filePath, line node⟩
  else []

/-! ### Calls -/

/-- The `CALLS` edge of a captured callee, inside of a function. -/
def callEdge (filePath : String) (capture : String × SyntaxNode) : Option ExtractedEdge :=
  if capture.1 = "callee" then
    (enclosingFunctionQname filePath capture.2).map fun caller =>
      ⟨"CALLS", caller, qname filePath "Function" capture.2.text, filePath, line capture.2⟩
  else none

/-! ### Usages -/

def isRustKeywordOrSelf (name : String) : Bool :=
  ["as", "async", "await", "break", "const", "continue", "crate", "dyn", "else", "enum", "extern",
    "false", "fn", "for", "if", "impl", "in", "let", "loop", "match", "mod", "move", "mut", "pub",
    "ref", "return", "self", "Self", "static", "struct", "super", "trait", "true", "type", "unsafe",
    "use", "where", "while", "abstract", "become", "box", "do", "final", "macro", "override", "priv",
    "try", "typeof", "unsized", "virtual", "yield", "Some", "None", "Ok", "Err", "Vec", "String",
    "Box", "Rc", "Arc", "Option", "Result", "println", "eprintln", "format", "write", "writeln",
    "print", "eprint", "panic", "assert", "assert_eq", "assert_ne", "debug_assert", "todo",
    "unimplemented", "cfg", "derive", "test", "allow", "deny", "warn", "forbid",
    "deprecated"].contains name

def isRustReferenceKind (kind : String) : Bool :=
  ["identifier", "type_identifier", "field_identifier", "scoped_identifier",
    "scoped_type_identifier"].contains kind

/-- The kinds of a path with several segments. -/
def isScoped (kind : String) : Bool := ["scoped_identifier", "scoped_type_identifier"].contains kind

def nodeContains (parent child : SyntaxNode) : Bool :=
  decide (parent.startByte ≤ child.startByte) && decide (child.endByte ≤ parent.endByte)

/-- `rust_node_is_call_target`. -/
def isCallTarget (node call : SyntaxNode) : Bool :=
  match call.childByFieldName "function" with
  | some function => nodeContains function node
  | none => false

/-- `rust_usage_is_suppressed`. -/
def usageIsSuppressed (node : SyntaxNode) : Bool :=
  (node.ancestors.take 10).any fun a =>
    ["use_declaration", "extern_crate_declaration"].contains a.kind ||
      (a.kind == "call_expression" && isCallTarget node a) || a.kind == "macro_invocation"

mutual

/-- `rust_reference_leaf`: the last segment of a path. -/
def referenceLeaf (above : List (SyntaxTree × ℕ)) : SyntaxTree → SyntaxNode
  | .node data children =>
    let node : SyntaxNode := ⟨.node data children, above⟩
    if isScoped data.kind then (leafUnder node.tree above 0 none children).getD node else node

/-- The last segment among the children. -/
def leafUnder (parent : SyntaxTree) (above : List (SyntaxTree × ℕ)) :
    ℕ → Option SyntaxNode → SyntaxForest → Option SyntaxNode
  | _, best, .nil => best
  | i, best, .cons _ tree rest =>
    let better :=
      if ["identifier", "type_identifier", "field_identifier"].contains tree.data.kind then
        some ⟨tree, (parent, i) :: above⟩
      else if isScoped tree.data.kind then some (referenceLeaf ((parent, i) :: above) tree)
      else best
    leafUnder parent above (i + 1) better rest

end

def isUsage (node : SyntaxNode) : Bool :=
  isRustReferenceKind node.kind && !usageIsSuppressed node && !isDefinitionName node

/-- The node that is emitted for a reference, if its text is a name. -/
def usageLeaf (node : SyntaxNode) : Option SyntaxNode :=
  if isUsage node then
    let leaf := referenceLeaf node.above node.tree
    if leaf.text ≠ "" ∧ isRustKeywordOrSelf leaf.text = false then some leaf else none
  else none

mutual

/-- `walk_rust_usages`: the nodes that are emitted, without going down into a path. -/
def usagesAt (above : List (SyntaxTree × ℕ)) : SyntaxTree → List SyntaxNode
  | .node data children =>
    let node : SyntaxNode := ⟨.node data children, above⟩
    (usageLeaf node).toList ++
      if isUsage node && isScoped data.kind then [] else usagesUnder node.tree above 0 children

def usagesUnder (parent : SyntaxTree) (above : List (SyntaxTree × ℕ)) :
    ℕ → SyntaxForest → List SyntaxNode
  | _, .nil => []
  | i, .cons _ tree rest =>
    usagesAt ((parent, i) :: above) tree ++ usagesUnder parent above (i + 1) rest

end

/-- The `USAGE` edge of a reference. -/
def usageEdge (filePath : String) (node : SyntaxNode) : ExtractedEdge :=
  ⟨"USAGE", (enclosingFunctionQname filePath node).getD (fileQname filePath),
    qname filePath "__ref__" node.text, filePath, line node⟩

/-! ### Declared types -/

/-- The `TYPE_ASSIGN` edge of a captured declaration. -/
def typeAssignEdge (filePath : String) (capture : String × SyntaxNode) : Option ExtractedEdge := do
  let node := capture.2
  if capture.1 = "assign" then
    let var ← (node.childByFieldName "pattern").or (node.childByFieldName "name")
    if ["identifier", "field_identifier"].contains var.kind then
      let type ← node.childByFieldName "type"
      let source ← enclosingDefQname filePath node
      let name ← (typeIdentifiersIn type.tree).head?
      if name = "" ∨ isBuiltinRustType name then none
      else some ⟨"TYPE_ASSIGN", source, qname filePath "Class" name, filePath, line node⟩
    else none
  else none

/-! ### Enum members and associated items -/

/-- What a match captured under a name. -/
def captured (m : Match) (name : String) : Option SyntaxNode :=
  (m.find? fun cap => cap.1 == name).map Prod.snd

/-- The `IMPLEMENTS` edge of a trait impl. -/
def implementsEdge (filePath : String) (m : Match) : Option ExtractedEdge := do
  let trait ← captured m "trait_name"
  let type ← captured m "impl_type"
  let traitName := implTypeName trait.tree
  let typeName := implTypeName type.tree
  if traitName ≠ "" ∧ typeName ≠ "" then
    some ⟨"IMPLEMENTS", qname filePath "Class" typeName, qname filePath "Interface" traitName, filePath,
      line type⟩
  else none

/-- The node of an enum variant, with the name node it is for. -/
def variantNode (filePath : String) (m : Match) : Option (SyntaxNode × ExtractedNode) := do
  let enum ← captured m "enum_name"
  let variant ← captured m "enum_variant"
  if enum.text ≠ "" ∧ variant.text ≠ "" then
    some (variant, nodeAt filePath "EnumVariant" variant.text
      (qname filePath enum.text variant.text) variant)
  else none

/-- The `DEFINES` edge of an enum variant. -/
def variantEdge (filePath : String) (m : Match) : Option ExtractedEdge := do
  let enum ← captured m "enum_name"
  let variant ← captured m "enum_variant"
  if enum.text ≠ "" ∧ variant.text ≠ "" then
    some ⟨"DEFINES", qname filePath "Enum" enum.text, qname filePath enum.text variant.text, filePath,
      line variant⟩
  else none

/-- The node of an associated constant or type, with the name node it is for. -/
def associatedNode (filePath capture label : String) (m : Match) :
    Option (SyntaxNode × ExtractedNode) := do
  let node ← captured m capture
  let owner ← enclosingImplType node
  some (node, nodeAt filePath label node.text (qname filePath owner node.text) (node.parent.getD node))

/-! ### The file -/

/-- The nodes of the definition pass, each with the name node it is for. -/
def definitionNodes (filePath : String) (tree : SyntaxTree) : List (SyntaxNode × ExtractedNode) :=
  (tree.captures definitions).filterMap fun capture =>
    (definitionNode filePath capture).map fun node => (capture.2, node)

/-- The nodes of the pass for enum members and associated items. -/
def memberNodes (filePath : String) (tree : SyntaxTree) : List (SyntaxNode × ExtractedNode) :=
  (tree.matches inheritance).flatMap fun m =>
    (variantNode filePath m).toList ++ (associatedNode filePath "assoc_const" "AssocConst" m).toList ++
      (associatedNode filePath "assoc_type" "AssocType" m).toList

/-- All nodes of a file, each with the name node it is for. -/
def items (filePath : String) (tree : SyntaxTree) : List (SyntaxNode × ExtractedNode) :=
  definitionNodes filePath tree ++ memberNodes filePath tree

/-- The `CALLS` edges, each with the callee. -/
def callEdges (filePath : String) (tree : SyntaxTree) : List (SyntaxNode × ExtractedEdge) :=
  (tree.captures calls).filterMap fun capture =>
    (callEdge filePath capture).map fun edge => (capture.2, edge)

/-- The `USAGE` edges, each with the reference. -/
def usageEdges (filePath : String) (tree : SyntaxTree) : List (SyntaxNode × ExtractedEdge) :=
  (usagesAt [] tree).map fun node => (node, usageEdge filePath node)

/-- `extract_rust`, without the imports. -/
def extractRust (filePath : String) (tree : SyntaxTree) : List ExtractedNode × List ExtractedEdge :=
  ((items filePath tree).map Prod.snd,
    (tree.captures definitions).flatMap (boundEdges filePath) ++
      (callEdges filePath tree).map Prod.snd ++ (usageEdges filePath tree).map Prod.snd ++
      (tree.captures typeAssigns).filterMap (typeAssignEdge filePath) ++
      (tree.matches inheritance).flatMap fun m =>
        (implementsEdge filePath m).toList ++ (variantEdge filePath m).toList)

end Rust

end Extract
