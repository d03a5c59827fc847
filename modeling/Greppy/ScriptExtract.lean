/-
**Extraction from Python, Ruby, JavaScript and TypeScript.**

These languages are described to the declarative engine, which finds their definitions.  Their usages,
and the calls of JavaScript and TypeScript, come from passes of their own, and each pass names the
function around a reference by a walk of its own.
-/

import Greppy.SpecExtract

set_option autoImplicit false

namespace Extract

/-! ### Queries for names -/

/-- A pattern for definitions of a kind: the kinds of the name, and those of the value if it asks for
one. -/
structure NameRule where
  kind : String
  nameKinds : List String
  values : List String
deriving DecidableEq

/-- The children that a rule asks for after the name. -/
def NameRule.others (r : NameRule) : List (Option String × Pattern) :=
  if r.values = [] then [] else [(some "value", pattern r.values none [])]

/-- `(kind name: (nameKind) @name value: (…)) @def`. -/
def NameRule.toPattern (r : NameRule) : Pattern :=
  pattern [r.kind] (some "def") ((some "name", pattern r.nameKinds (some "name") []) :: r.others)

theorem NameRule.toPattern_stays (r : NameRule) (name : String) :
    CapturesOnly r.toPattern name fun _ => True := by
  refine capturesOnly_pattern (fun _ _ _ => trivial) fun child hchild => ?_
  rcases List.mem_cons.1 hchild with rfl | hother
  · exact capturesOnly_nil
  · unfold NameRule.others at hother
    split_ifs at hother
    · cases hother
    · rw [List.mem_singleton.1 hother]
      exact capturesOnly_nil

def nameQuery (rules : List NameRule) : Query where
  patterns := rules.map NameRule.toPattern
  stays p hp name := by
    obtain ⟨r, _, rfl⟩ := List.mem_map.1 hp
    exact r.toPattern_stays name

/-! ### Descriptions -/

def python : LangSpec where
  name := .capture
  defs := [DefRule.ty "class_definition" "Class", DefRule.method "function_definition"]
  ownerKinds := ["class_definition"]
  skipCallees := []

/-- `python_queries::DEFINITIONS`. -/
def pythonDefinitions : List NameRule :=
  [⟨"function_definition", ["identifier"], []⟩, ⟨"class_definition", ["identifier"], []⟩]

def ruby : LangSpec where
  name := .capture
  defs := [
    DefRule.ty "class" "Class",
    DefRule.ty "module" "Module",
    DefRule.method "method",
    DefRule.method "singleton_method"]
  ownerKinds := ["class", "module"]
  skipCallees := ["require", "require_relative"]

/-- `ruby_queries::DEFINITIONS`. -/
def rubyDefinitions : List NameRule :=
  [⟨"method", [], []⟩, ⟨"singleton_method", [], []⟩, ⟨"class", ["constant"], []⟩,
    ⟨"module", ["constant"], []⟩]

/-- The two languages with the same passes. -/
inductive JsTs where
  | javascript
  | typescript
deriving DecidableEq

/-- `JAVASCRIPT` and `TYPESCRIPT`. -/
def JsTs.spec (language : JsTs) : LangSpec where
  name := .capture
  defs := [
    DefRule.func "function_declaration",
    DefRule.ty "class_declaration" "Class",
    DefRule.method "method_definition",
    DefRule.method "variable_declarator"] ++
    match language with
    | .javascript => []
    | .typescript => [
        DefRule.ty "interface_declaration" "Interface",
        DefRule.ty "type_alias_declaration" "Type",
        DefRule.ty "enum_declaration" "Enum"]
  ownerKinds := ["class_declaration", "class"]
  skipCallees := ["require"]

/-- `js_queries::DEFINITIONS` and `ts_queries::DEFINITIONS`. -/
def JsTs.definitions : JsTs → List NameRule
  | .javascript => [
      ⟨"function_declaration", ["identifier"], []⟩,
      ⟨"class_declaration", ["identifier"], []⟩,
      ⟨"method_definition", ["property_identifier"], []⟩,
      ⟨"variable_declarator", ["identifier"], ["arrow_function", "function_expression"]⟩]
  | .typescript => [
      ⟨"function_declaration", ["identifier"], []⟩,
      ⟨"class_declaration", ["type_identifier"], []⟩,
      ⟨"method_definition", ["property_identifier"], []⟩,
      ⟨"variable_declarator", ["identifier"], ["arrow_function", "function_expression"]⟩,
      ⟨"interface_declaration", ["type_identifier"], []⟩,
      ⟨"type_alias_declaration", ["type_identifier"], []⟩,
      ⟨"enum_declaration", ["identifier"], []⟩]

/-! ### Functions that classes own -/

/-- The name of the owner of a function: of the nearest class, unless another function is nearer. -/
def nearestOwner (functions classes : List String) (function : SyntaxNode) : Option String := do
  let scope ← enclosing (classes ++ functions) function
  if classes.contains scope.kind then (scope.childByFieldName "name").map SyntaxNode.text else none

/-- The name of the innermost function around a node. -/
def enclosingOwnedQname (functions classes : List String) (filePath : String) (node : SyntaxNode) :
    Option String := do
  let function ← enclosing functions node
  let name ← function.childByFieldName "name"
  some (qname filePath ((nearestOwner functions classes function).getD "Function") name.text)

def pythonEnclosingUsageQname : String → SyntaxNode → Option String :=
  enclosingOwnedQname ["function_definition"] ["class_definition"]

def rubyEnclosingQname : String → SyntaxNode → Option String :=
  enclosingOwnedQname ["method", "singleton_method"] ["class", "module"]

/-! ### Usages -/

/-- The `USAGE` edge of a reference. -/
def refEdge (filePath source : String) (node : SyntaxNode) : ExtractedEdge :=
  ⟨"USAGE", source, qname filePath "__ref__" node.text, filePath, line node⟩

/-- `is_python_usage_keyword`. -/
def pythonUsageKeywords : List String := [
  "False", "None", "True", "and", "as", "assert", "async", "await", "break", "class", "continue",
  "def", "del", "elif", "else", "except", "finally", "for", "from", "global", "if", "import", "in",
  "is", "lambda", "nonlocal", "not", "or", "pass", "raise", "return", "try", "while", "with",
  "yield", "self", "cls", "__init__", "__name__", "__main__", "super", "print", "len", "range",
  "enumerate", "zip", "map", "filter", "type", "int", "str", "float", "bool", "list", "dict",
  "set", "tuple", "bytes"]

/-- The references that `emit_python_usages` emits. -/
def isPythonUsage (node : SyntaxNode) : Bool :=
  ["identifier", "type_identifier", "attribute"].contains node.kind &&
    !isInsideKindWithin 10 node ["call", "with_statement"] &&
    !isInsideKindWithin 10 node ["import_statement"] && !isDefinitionName node &&
    node.text != "" && !pythonUsageKeywords.contains node.text

/-- `emit_python_usages`, each edge with its reference. -/
def pythonUsages (filePath : String) (tree : SyntaxTree) : List (SyntaxNode × ExtractedEdge) :=
  (tree.namedNodes.filter isPythonUsage).map fun node =>
    (node, refEdge filePath ((pythonEnclosingUsageQname filePath node).getD (fileQname filePath)) node)

/-- `is_ruby_usage_keyword`. -/
def rubyUsageKeywords : List String := [
  "true", "false", "null", "nil", "None", "undefined", "void", "if", "else", "for", "while", "do",
  "switch", "case", "default", "break", "continue", "return", "throw", "try", "catch", "finally",
  "class", "struct", "enum", "interface", "trait", "impl", "import", "export", "package", "module",
  "use", "require", "include", "new", "delete", "this", "self", "super", "public", "private",
  "protected", "static", "const", "var", "let", "function", "def", "fn", "func", "fun", "proc",
  "sub", "method", "async", "await", "yield"]

/-- The references that `ruby_emit_usages` emits. -/
def isRubyUsage (node : SyntaxNode) : Bool :=
  node.kind == "identifier" && !isInsideKind node ["call", "command_call"] &&
    !isDefinitionName node && node.text != "" && !rubyUsageKeywords.contains node.text

/-- `ruby_emit_usages`, each edge with its reference. -/
def rubyUsages (filePath : String) (tree : SyntaxTree) : List (SyntaxNode × ExtractedEdge) :=
  (tree.namedNodes.filter isRubyUsage).map fun node =>
    (node, refEdge filePath ((rubyEnclosingQname filePath node).getD (fileQname filePath)) node)

/-! ### Functions of JavaScript and TypeScript -/

def jsTsFuncKinds : List String := [
  "function_declaration", "method_definition", "arrow_function", "function_expression",
  "generator_function", "generator_function_declaration"]

def jsTsClassKinds : List String := ["class_declaration", "class"]

def jsTsCallKinds : List String := ["call_expression", "new_expression"]

def jsTsImportKinds : List String := [
  "import_statement", "lexical_declaration", "export_statement", "import", "extends", "require"]

def jsTsKeywords : List String := [
  "break", "case", "catch", "class", "const", "continue", "debugger", "default", "delete", "do",
  "else", "export", "extends", "false", "finally", "for", "function", "if", "import", "in",
  "instanceof", "let", "new", "null", "return", "super", "switch", "this", "throw", "true", "try",
  "typeof", "undefined", "var", "void", "while", "with", "yield", "async", "await", "of", "static",
  "get", "set", "from", "as", "constructor", "prototype", "console", "window", "document",
  "process", "module", "exports", "require", "Array", "Object", "String", "Number", "Boolean",
  "Symbol", "Map", "Set", "Promise", "Error", "RegExp", "Date", "Math", "JSON", "parseInt",
  "parseFloat", "setTimeout", "setInterval", "clearTimeout", "clearInterval"]

/-- The name that a function expression is bound to, and the declarator. -/
def jsTsBoundName (func : SyntaxNode) : Option (String × SyntaxNode) := do
  let parent ← func.parent
  if ["arrow_function", "function_expression"].contains func.kind ∧
      parent.kind = "variable_declarator" then
    let name ← parent.childByFieldName "name"
    if name.kind = "identifier" ∧ name.text ≠ "" then some (name.text, parent) else none
  else none

/-- `js_ts_func_name`: the function's own name, or else the name that it is bound to. -/
def jsTsFuncName (func : SyntaxNode) : Option (String × SyntaxNode) :=
  match func.childByFieldName "name" with
  | some name => if name.text ≠ "" then some (name.text, func) else jsTsBoundName func
  | none => jsTsBoundName func

def jsTsEnclosingClassName (node : SyntaxNode) : Option String :=
  (enclosingOwnerName node jsTsClassKinds).filter (· ≠ "")

def jsTsFuncQname (filePath : String) (func : SyntaxNode) : Option String := do
  let (name, owned) ← jsTsFuncName func
  let owner := if func.kind = "function_declaration" then none else jsTsEnclosingClassName owned
  some (qname filePath (owner.getD "Function") name)

/-- `js_ts_enclosing_qname`: functions without a name are passed over. -/
def jsTsEnclosingQname (filePath : String) (node : SyntaxNode) : String :=
  (node.ancestors.findSome? fun cur =>
    if jsTsFuncKinds.contains cur.kind then jsTsFuncQname filePath cur else none).getD
    (fileQname filePath)

/-! ### Calls and usages of JavaScript and TypeScript -/

def lastSegment (text : String) : String :=
  String.ofList (text.toList.reverse.takeWhile (· != '.')).reverse

def jsTsSimpleName (node : SyntaxNode) : String :=
  match node.childByFieldName "property" with
  | some property =>
    if node.kind = "member_expression" then property.text else lastSegment node.text
  | none => lastSegment node.text

def jsTsCalleeName (call : SyntaxNode) : Option String :=
  if call.kind = "new_expression" then
    ((call.childByFieldName "constructor").or call.namedChildren.head?).map jsTsSimpleName
  else (call.childByFieldName "function").map jsTsSimpleName

/-- `extract_js_ts_calls`, each edge with the call. -/
def jsTsCalls (filePath : String) (tree : SyntaxTree) : List (SyntaxNode × ExtractedEdge) :=
  tree.stackNodes.filterMap fun node => do
    if jsTsCallKinds.contains node.kind then
      let callee ← jsTsCalleeName node
      if callee ≠ "" ∧ callee ≠ "require" then
        some (node, ⟨"CALLS", jsTsEnclosingQname filePath node, qname filePath "Function" callee,
          filePath, line node⟩)
      else none
    else none

def jsTsAncestorIn : SyntaxNode → List String → Bool := isInsideKindWithin 10

def jsTsExportOfDeclaration (export_ : SyntaxNode) : Bool :=
  export_.children.any fun c => ["function_declaration", "class_declaration", "lexical_declaration",
    "abstract_class_declaration", "interface_declaration", "enum_declaration",
    "type_alias_declaration", "variable_declaration", "generator_function_declaration"].contains c.kind

def jsTsInsideImport (node : SyntaxNode) : Bool :=
  (node.ancestors.take 10).any fun cur =>
    jsTsImportKinds.contains cur.kind &&
      !(cur.kind == "export_statement" && jsTsExportOfDeclaration cur)

/-- The references that `try_emit_js_ts_usage` emits. -/
def isJsTsUsage (node : SyntaxNode) : Bool :=
  ["identifier", "type_identifier"].contains node.kind &&
    !(jsTsAncestorIn node jsTsCallKinds || jsTsInsideImport node) && !isDefinitionName node &&
    node.text != "" && !jsTsKeywords.contains node.text

/-- `extract_js_ts_usages`, each edge with its reference. -/
def jsTsUsages (filePath : String) (tree : SyntaxTree) : List (SyntaxNode × ExtractedEdge) :=
  (tree.stackNodes.filter isJsTsUsage).map fun node =>
    (node, refEdge filePath (jsTsEnclosingQname filePath node) node)

end Extract
