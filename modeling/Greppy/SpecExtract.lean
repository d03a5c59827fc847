/-
**The declarative extraction engine.**

Most languages are extracted by one engine from a description of the language: rules for the kinds of
its definitions, how their names are found, and who owns them.  The definition pass names a definition
from what a query captured; the pass for calls names the function around a call by walking up to it.
-/

import Greppy.Extraction

set_option autoImplicit false

namespace Extract

/-! ### Descriptions of languages -/

inductive NameStrategy where
  | capture
  | cStructural
  | rAssign
deriving DecidableEq

inductive Owner where
  | none
  | enclosingName
  | goReceiver
  | cppClass
deriving DecidableEq

structure DefRule where
  nodeKind : String
  label : String
  methodLabel : String
  owner : Owner
  callable : Bool
deriving DecidableEq

namespace DefRule

/-- `DefRule::ty`. -/
def ty (nodeKind label : String) : DefRule := ⟨nodeKind, label, label, .none, false⟩

/-- `DefRule::func`. -/
def func (nodeKind : String) : DefRule := ⟨nodeKind, "Function", "Function", .none, true⟩

/-- `DefRule::method`. -/
def method (nodeKind : String) : DefRule := ⟨nodeKind, "Function", "Method", .enclosingName, true⟩

end DefRule

/-- `LangSpec`, as far as definitions and calls go. -/
structure LangSpec where
  name : NameStrategy
  defs : List DefRule
  ownerKinds : List String
  skipCallees : List String

def go : LangSpec where
  name := .capture
  defs := [
    DefRule.func "function_declaration",
    ⟨"method_declaration", "Function", "Method", .goReceiver, true⟩,
    DefRule.ty "type_spec" "Type"]
  ownerKinds := []
  skipCallees := []

/-! ### Owners -/

def enclosingOwnerName (node : SyntaxNode) (kinds : List String) : Option String := do
  let owner ← enclosing kinds node
  (owner.childByFieldName "name").map SyntaxNode.text

mutual

/-- The base type of a Go type: pointers, type arguments and packages are taken off.  Where there is
none of them, the type identifier is found among the children. -/
def goBaseType (fallback : Option String → SyntaxTree → Bool) : SyntaxTree → String
  | .node data children =>
    if data.kind = "type_identifier" then data.text
    else if data.kind = "pointer_type" then (goNamedBaseType fallback children).getD data.text
    else if data.kind = "generic_type" then (goFieldBaseType fallback children).getD data.text
    else if data.kind = "qualified_type" then
      ((children.find? fun field _ => field == some "name").map fun t => t.data.text).getD data.text
    else ((children.find? fallback).map fun t => t.data.text).getD data.text

def goNamedBaseType (fallback : Option String → SyntaxTree → Bool) : SyntaxForest → Option String
  | .nil => none
  | .cons _ tree rest =>
    if tree.data.isNamed then some (goBaseType fallback tree) else goNamedBaseType fallback rest

/-- The base type of the child in the field `type`. -/
def goFieldBaseType (fallback : Option String → SyntaxTree → Bool) : SyntaxForest → Option String
  | .nil => none
  | .cons field tree rest =>
    if field = some "type" then some (goBaseType fallback tree) else goFieldBaseType fallback rest

end

/-- `go_base_type_name`: the fallback looks at all children. -/
def goBaseTypeName : SyntaxTree → String := goBaseType fun _ t => t.data.kind == "type_identifier"

/-- `go_base_type_text`: the fallback looks at the named children. -/
def goBaseTypeText : SyntaxTree → String :=
  goBaseType fun _ t => t.data.isNamed && t.data.kind == "type_identifier"

/-- The type of the first parameter of a receiver. -/
def goReceiver (method : SyntaxNode) : Option SyntaxNode := do
  let receiver ← method.childByFieldName "receiver"
  let parameter ← receiver.namedChildren.find? fun c => c.kind == "parameter_declaration"
  parameter.childByFieldName "type"

def goReceiverType (method : SyntaxNode) : Option String :=
  (goReceiver method).map fun type => goBaseTypeName type.tree

def goReceiverTypeName (method : SyntaxNode) : Option String :=
  (goReceiver method).map fun type => goBaseTypeText type.tree

mutual

/-- `c_declarator_name`: the name under a declarator, and the class that qualifies it. -/
def cDeclaratorName : SyntaxTree → Option (String × Option String)
  | .node data children =>
    if data.kind = "identifier" ∨ data.kind = "field_identifier" then some (data.text, none)
    else if data.kind = "qualified_identifier" then
      (cFieldDeclaratorName "name" children).map fun name =>
        (name.1, (children.find? fun field _ => field == some "scope").map fun t => t.data.text)
    else cFieldDeclaratorName "declarator" children

def cFieldDeclaratorName (wanted : String) : SyntaxForest → Option (String × Option String)
  | .nil => none
  | .cons field tree rest =>
    if field = some wanted then cDeclaratorName tree else cFieldDeclaratorName wanted rest

end

/-- `cpp_enclosing_class`: the nearest class that has a name. -/
def cppEnclosingClass (node : SyntaxNode) : Option String :=
  node.ancestors.findSome? fun a =>
    if a.kind = "class_specifier" ∨ a.kind = "struct_specifier" then
      (a.childByFieldName "name").map SyntaxNode.text
    else none

def cFunctionName (function : SyntaxNode) : Option (String × Option String) := do
  let declarator ← function.childByFieldName "declarator"
  let (name, qualifier) ← cDeclaratorName declarator.tree
  some (name, qualifier.or (cppEnclosingClass function))

def cppFunctionOwner (node : SyntaxNode) : Option String :=
  if node.kind = "function_definition" then (cFunctionName node).bind Prod.snd else none

mutual

def cTypedefDeclaratorName : SyntaxTree → Option String
  | .node data children =>
    if data.kind = "type_identifier" then some data.text
    else if ["pointer_declarator", "parenthesized_declarator", "function_declarator"].contains
        data.kind then cFieldTypedefName children
    else none

def cFieldTypedefName : SyntaxForest → Option String
  | .nil => none
  | .cons field tree rest =>
    if field = some "declarator" then cTypedefDeclaratorName tree else cFieldTypedefName rest

end

def cDefName (node : SyntaxNode) : Option String :=
  if node.kind = "function_definition" then (cFunctionName node).map Prod.fst
  else if ["struct_specifier", "union_specifier", "enum_specifier", "class_specifier",
      "namespace_definition"].contains node.kind then
    (node.childByFieldName "name").map SyntaxNode.text
  else if node.kind = "type_definition" then
    (node.childByFieldName "declarator").bind fun d => cTypedefDeclaratorName d.tree
  else none

/-- `r_def_name`: the name that a function is assigned to. -/
def rDefName (node : SyntaxNode) : Option String :=
  if node.kind = "binary_operator" then do
    let lhs ← node.childByFieldName "lhs"
    let rhs ← node.childByFieldName "rhs"
    if lhs.kind = "identifier" ∧ rhs.kind = "function_definition" then some lhs.text else none
  else none

/-! ### Definitions -/

def ruleFor (spec : LangSpec) (kind : String) : Option DefRule :=
  spec.defs.find? fun r => r.nodeKind == kind

/-- The owner of a definition, by the rule. -/
def ownerOf (spec : LangSpec) (rule : DefRule) (node : SyntaxNode) : Option String :=
  match rule.owner with
  | .none => none
  | .enclosingName => enclosingOwnerName node spec.ownerKinds
  | .goReceiver => goReceiverType node
  | .cppClass => cppFunctionOwner node

def defLabelAndQname (spec : LangSpec) (rule : DefRule) (node : SyntaxNode) (name filePath : String) :
    String × String :=
  match ownerOf spec rule node with
  | some owner => (rule.methodLabel, qname filePath owner name)
  | none => (rule.label, qname filePath rule.label name)

/-- `adjusted_rule`: the label of a Go type is taken from its body. -/
def adjustedRule (rule : DefRule) (node : SyntaxNode) : Option DefRule :=
  if node.kind = "type_spec" then
    let label :=
      match (node.childByFieldName "type").map SyntaxNode.kind with
      | some kind =>
        if kind = "struct_type" then "Struct"
        else if kind = "interface_type" then "Interface"
        else "Type"
      | none => "Type"
    some { rule with label := label, methodLabel := label }
  else none

def wantedCapture (spec : LangSpec) : String :=
  match spec.name with
  | .capture => "name"
  | .cStructural => "def"
  | .rAssign => "def"

/-- The definition that a captured node is part of, and its name. -/
def defNodeAndName (spec : LangSpec) (node : SyntaxNode) : Option (SyntaxNode × String) :=
  match spec.name with
  | .capture => some (node.parent.getD node, node.text)
  | .cStructural => (cDefName node).map (node, ·)
  | .rAssign => (rDefName node).map (node, ·)

/-- The node for a capture, with the definition that it is for. -/
def specDefinition (spec : LangSpec) (filePath : String) (node : SyntaxNode) :
    Option (SyntaxNode × ExtractedNode) := do
  let (definition, name) ← defNodeAndName spec node
  let rule ← ruleFor spec definition.kind
  let rule := (adjustedRule rule definition).getD rule
  let (label, qualifiedName) := defLabelAndQname spec rule definition name filePath
  some (definition, nodeAt filePath label name qualifiedName definition)

def specDefinitions (spec : LangSpec) (query : Query) (filePath : String) (tree : SyntaxTree) :
    List (SyntaxNode × ExtractedNode) :=
  (tree.capturedAs query (wantedCapture spec)).filterMap (specDefinition spec filePath)

/-! ### Calls -/

def callableName (spec : LangSpec) (node : SyntaxNode) : Option String :=
  match spec.name with
  | .capture => (node.childByFieldName "name").map SyntaxNode.text
  | .cStructural => cDefName node
  | .rAssign => rDefName node

/-- Whether a node is of a callable kind. -/
def isCallable (spec : LangSpec) (node : SyntaxNode) : Bool :=
  match ruleFor spec node.kind with
  | some rule => rule.callable
  | none => false

/-- The innermost node of a callable kind around a node. -/
def enclosingCallable (spec : LangSpec) (node : SyntaxNode) : Option SyntaxNode :=
  node.ancestors.find? (isCallable spec)

def enclosingCallableQname (spec : LangSpec) (filePath : String) (node : SyntaxNode) :
    Option String := do
  let callable ← enclosingCallable spec node
  let rule ← ruleFor spec callable.kind
  let name ← callableName spec callable
  some (defLabelAndQname spec rule callable name filePath).2

/-- `spec_calls`, each edge with its callee. -/
def specCalls (spec : LangSpec) (query : Query) (filePath : String) (tree : SyntaxTree) :
    List (SyntaxNode × ExtractedEdge) :=
  (tree.capturedAs query "callee").filterMap fun node =>
    if spec.skipCallees.contains node.text then none
    else (enclosingCallableQname spec filePath node).map fun caller =>
      (node, ⟨"CALLS", caller, qname filePath "Function" node.text, filePath, line node⟩)

/-! ### Usages of Go -/

def goEnclosingFuncQname (filePath : String) (node : SyntaxNode) : Option String := do
  let function ← enclosing ["function_declaration", "method_declaration"] node
  let name ← function.childByFieldName "name"
  if function.kind = "function_declaration" then some (qname filePath "Function" name.text)
  else match goReceiverTypeName function with
    | some type => some (qname filePath type name.text)
    | none => some (qname filePath "Function" name.text)

/-! ### Calls come from definitions -/

/-- What has to be captured for a callable definition: its name, or itself where the name is found by
structure. -/
def wantedNodes (spec : LangSpec) (d : SyntaxNode) : List SyntaxNode :=
  match spec.name with
  | .capture => (d.childByFieldName "name").toList
  | .cStructural => [d]
  | .rAssign => [d]

/-- The query for definitions captures the name of each node of a callable kind. -/
def CapturesCallables (spec : LangSpec) (query : Query) (tree : SyntaxTree) : Prop :=
  ∀ d ∈ tree.nodes, isCallable spec d = true → ∀ n ∈ wantedNodes spec d,
    n ∈ tree.capturedAs query (wantedCapture spec)

/-- The rule for the nodes whose label is adjusted is for types. -/
def AdjustsTypes (spec : LangSpec) : Prop :=
  ∀ rule ∈ spec.defs, rule.callable = true → rule.nodeKind ≠ "type_spec"

variable {spec : LangSpec} {filePath : String} {tree : SyntaxTree}

theorem ruleFor_eq_some {kind : String} {rule : DefRule} (h : ruleFor spec kind = some rule) :
    rule ∈ spec.defs ∧ rule.nodeKind = kind :=
  ⟨List.mem_of_find?_eq_some h, eq_of_beq (List.find?_some (p := fun r : DefRule => r.nodeKind == kind) h)⟩

theorem isCallable_iff {node : SyntaxNode} :
    isCallable spec node = true ↔ ∃ rule, ruleFor spec node.kind = some rule ∧ rule.callable = true := by
  unfold isCallable
  cases ruleFor spec node.kind with
  | none => simp
  | some rule => simp

theorem enclosingCallable_spec {node d : SyntaxNode} (hnode : node ∈ tree.nodes)
    (h : enclosingCallable spec node = some d) : d ∈ tree.nodes ∧ isCallable spec d = true :=
  ⟨SyntaxTree.ancestors_mem_nodes hnode (List.mem_of_find?_eq_some h), List.find?_some h⟩

variable (filePath) in
/-- The definition pass names a callable definition by its rule, as the walk does. -/
theorem specDefinition_callable (hadjust : AdjustsTypes spec) {d node : SyntaxNode} {name : String}
    {rule : DefRule} (hrule : ruleFor spec d.kind = some rule) (hcallable : rule.callable = true)
    (hname : defNodeAndName spec node = some (d, name)) :
    ∃ e, specDefinition spec filePath node = some (d, e) ∧
      e.qualifiedName = (defLabelAndQname spec rule d name filePath).2 := by
  obtain ⟨hmem, hkind⟩ := ruleFor_eq_some hrule
  have hplain : adjustedRule rule d = none := by
    have hne : d.kind ≠ "type_spec" := hkind ▸ hadjust rule hmem hcallable
    rw [adjustedRule, if_neg hne]
  exact ⟨_, by simp [specDefinition, hname, hrule, hplain]; rfl, rfl⟩

/-- **A call comes from the node of the innermost function around it.** -/
theorem specCalls_defined {definitions calls : Query}
    (hcaptures : CapturesCallables spec definitions tree) (hadjust : AdjustsTypes spec)
    {c : SyntaxNode × ExtractedEdge} (hc : c ∈ specCalls spec calls filePath tree) :
    ∃ d, enclosingCallable spec c.1 = some d ∧ ∃ n ∈ specDefinitions spec definitions filePath tree,
      n.1 = d ∧ c.2.sourceQualifiedName = n.2.qualifiedName := by
  obtain ⟨node, hnode, hc⟩ := List.mem_filterMap.1 hc
  split_ifs at hc with hskip
  obtain ⟨caller, hcaller, rfl⟩ := Option.map_eq_some_iff.1 hc
  obtain ⟨d, hd, hcaller⟩ := Option.bind_eq_some_iff.1 hcaller
  obtain ⟨rule, hrule, hcaller⟩ := Option.bind_eq_some_iff.1 hcaller
  obtain ⟨name, hname, hcaller⟩ := Option.bind_eq_some_iff.1 hcaller
  cases hcaller
  obtain ⟨hmem, hcallable⟩ := enclosingCallable_spec (SyntaxTree.mem_nodes_of_capturedAs hnode) hd
  have hrules : rule.callable = true := by
    obtain ⟨found, hfound, htrue⟩ := isCallable_iff.1 hcallable
    rw [hrule] at hfound
    cases hfound
    exact htrue
  refine ⟨d, hd, ?_⟩
  -- The captured node from which the definition pass finds the same definition and name.
  have hfound : ∃ node ∈ tree.capturedAs definitions (wantedCapture spec),
      defNodeAndName spec node = some (d, name) := by
    have hcaptured := hcaptures d hmem hcallable
    unfold wantedNodes at hcaptured
    unfold callableName at hname
    unfold defNodeAndName
    cases hstrategy : spec.name with
    | capture =>
      rw [hstrategy] at hname hcaptured
      obtain ⟨child, hchild, rfl⟩ := Option.map_eq_some_iff.1 hname
      refine ⟨child, hcaptured child (Option.mem_toList.2 hchild), ?_⟩
      simp [SyntaxNode.parent_of_childByFieldName hchild]
    | cStructural =>
      rw [hstrategy] at hname hcaptured
      exact ⟨d, hcaptured d (List.mem_singleton.2 rfl), by simp [hname]⟩
    | rAssign =>
      rw [hstrategy] at hname hcaptured
      exact ⟨d, hcaptured d (List.mem_singleton.2 rfl), by simp [hname]⟩
  obtain ⟨captured, hcaptured, hpair⟩ := hfound
  obtain ⟨e, he, hqname⟩ := specDefinition_callable filePath hadjust hrule hrules hpair
  exact ⟨(d, e), List.mem_filterMap.2 ⟨captured, hcaptured, he⟩, rfl, hqname.symm⟩

/-! ### The walk for Go -/

def TypeIdentifiersNamed (tree : SyntaxTree) : Prop :=
  ∀ n ∈ tree.nodes, n.kind = "type_identifier" → n.isNamed = true

theorem find?_typeIdentifier {parent : SyntaxTree} {above : List (SyntaxTree × ℕ)} {i : ℕ}
    (forest : SyntaxForest)
    (h : ∀ n ∈ forest.nodesAt parent above i, n.kind = "type_identifier" → n.isNamed = true) :
    forest.find? (fun _ t => t.data.isNamed && t.data.kind == "type_identifier") =
      forest.find? fun _ t => t.data.kind == "type_identifier" := by
  cases forest with
  | nil => rfl
  | cons field t rest =>
    rw [SyntaxForest.nodesAt] at h
    have hrest := find?_typeIdentifier rest fun n hn => h n (List.mem_append_right _ hn)
    have hhere := h ⟨t, (parent, i) :: above⟩
      (List.mem_append_left _ (SyntaxTree.self_mem_nodesAt _ t))
    change t.data.kind = "type_identifier" → t.data.isNamed = true at hhere
    rw [SyntaxForest.find?, SyntaxForest.find?, hrest]
    by_cases hkind : t.data.kind = "type_identifier"
    · rw [hkind, hhere hkind]
      rfl
    · have hbeq : (t.data.kind == "type_identifier") = false := beq_false_of_ne hkind
      rw [hbeq, Bool.and_false]

mutual

theorem goBaseTypeText_eq {above : List (SyntaxTree × ℕ)} :
    ∀ t : SyntaxTree,
      (∀ n ∈ t.nodesAt above, n.kind = "type_identifier" → n.isNamed = true) →
      goBaseTypeText t = goBaseTypeName t
  | .node data children => by
    intro h
    rw [SyntaxTree.nodesAt] at h
    have hbelow : ∀ n ∈ children.nodesAt (.node data children) above 0,
        n.kind = "type_identifier" → n.isNamed = true := fun n hn => h n (List.mem_cons_of_mem _ hn)
    unfold goBaseTypeText goBaseTypeName
    rw [goBaseType, goBaseType, goNamedBaseType_eq children hbelow,
      goFieldBaseType_eq children hbelow, find?_typeIdentifier children hbelow]

theorem goNamedBaseType_eq {parent : SyntaxTree} {above : List (SyntaxTree × ℕ)} {i : ℕ} :
    ∀ forest : SyntaxForest,
      (∀ n ∈ forest.nodesAt parent above i, n.kind = "type_identifier" → n.isNamed = true) →
      goNamedBaseType (fun _ t => t.data.isNamed && t.data.kind == "type_identifier") forest =
        goNamedBaseType (fun _ t => t.data.kind == "type_identifier") forest
  | .nil => fun _ => rfl
  | .cons field t rest => by
    intro h
    rw [SyntaxForest.nodesAt] at h
    have hhere := goBaseTypeText_eq t fun n hn => h n (List.mem_append_left _ hn)
    unfold goBaseTypeText goBaseTypeName at hhere
    rw [goNamedBaseType, goNamedBaseType, hhere,
      goNamedBaseType_eq rest fun n hn => h n (List.mem_append_right _ hn)]

theorem goFieldBaseType_eq {parent : SyntaxTree} {above : List (SyntaxTree × ℕ)} {i : ℕ} :
    ∀ forest : SyntaxForest,
      (∀ n ∈ forest.nodesAt parent above i, n.kind = "type_identifier" → n.isNamed = true) →
      goFieldBaseType (fun _ t => t.data.isNamed && t.data.kind == "type_identifier") forest =
        goFieldBaseType (fun _ t => t.data.kind == "type_identifier") forest
  | .nil => fun _ => rfl
  | .cons field t rest => by
    intro h
    rw [SyntaxForest.nodesAt] at h
    have hhere := goBaseTypeText_eq t fun n hn => h n (List.mem_append_left _ hn)
    unfold goBaseTypeText goBaseTypeName at hhere
    rw [goFieldBaseType, goFieldBaseType, hhere,
      goFieldBaseType_eq rest fun n hn => h n (List.mem_append_right _ hn)]

end

theorem goReceiver_mem {method type : SyntaxNode} (hmethod : method ∈ tree.nodes)
    (h : goReceiver method = some type) : type ∈ tree.nodes := by
  obtain ⟨receiver, hreceiver, h⟩ := Option.bind_eq_some_iff.1 h
  obtain ⟨parameter, hparameter, htype⟩ := Option.bind_eq_some_iff.1 h
  have hmem := SyntaxTree.childByFieldName_mem_nodes hmethod hreceiver
  have hchild : parameter ∈ receiver.children :=
    List.mem_of_mem_filter (List.mem_of_find?_eq_some hparameter)
  exact SyntaxTree.childByFieldName_mem_nodes (SyntaxTree.children_mem_nodes hmem hchild) htype

theorem goReceiverTypeName_eq (h : TypeIdentifiersNamed tree) {method : SyntaxNode}
    (hmethod : method ∈ tree.nodes) : goReceiverTypeName method = goReceiverType method := by
  unfold goReceiverTypeName goReceiverType
  cases htype : goReceiver method with
  | none => rfl
  | some type =>
    have hmem := goReceiver_mem hmethod htype
    rw [Option.map_some, Option.map_some, goBaseTypeText_eq type.tree]
    exact fun n hn => h n (SyntaxTree.mem_nodes_of_below hmem hn)

theorem isCallable_go (node : SyntaxNode) :
    isCallable go node = ["function_declaration", "method_declaration"].contains node.kind := by
  by_cases hfunction : node.kind = "function_declaration"
  · rw [hfunction, isCallable, hfunction]
    rfl
  · by_cases hmethod : node.kind = "method_declaration"
    · rw [hmethod, isCallable, hmethod]
      rfl
    · have hnot : ["function_declaration", "method_declaration"].contains node.kind = false := by
        simp [hfunction, hmethod]
      rw [hnot, ← Bool.not_eq_true, isCallable_iff]
      rintro ⟨rule, hrule, hcallable⟩
      obtain ⟨hmem, hkind⟩ := ruleFor_eq_some hrule
      simp only [go, List.mem_cons, List.not_mem_nil, or_false] at hmem
      rcases hmem with rfl | rfl | rfl
      · exact hfunction hkind.symm
      · exact hmethod hkind.symm
      · cases hcallable

/-- **The walk for the usages of Go finds what the engine finds.** -/
theorem goEnclosingFuncQname_eq (h : TypeIdentifiersNamed tree) {node : SyntaxNode}
    (hnode : node ∈ tree.nodes) :
    goEnclosingFuncQname filePath node = enclosingCallableQname go filePath node := by
  have hwalk : enclosing ["function_declaration", "method_declaration"] node =
      enclosingCallable go node := by
    unfold enclosing enclosingCallable
    congr 1
    funext a
    exact (isCallable_go a).symm
  unfold goEnclosingFuncQname enclosingCallableQname
  rw [← hwalk]
  cases hf : enclosing ["function_declaration", "method_declaration"] node with
  | none => rfl
  | some f =>
    have hmem := enclosing_mem_nodes hnode hf
    have hkind := kind_of_enclosing hf
    simp only [Option.bind_eq_bind, Option.bind_some, callableName]
    simp only [List.mem_cons, List.not_mem_nil, or_false] at hkind
    rcases hkind with hfunction | hmethod
    · have hrule : ruleFor go f.kind = some (DefRule.func "function_declaration") := by
        rw [hfunction]
        rfl
      rw [hrule]
      cases hname : f.childByFieldName "name" with
      | none => simp [go]
      | some name => simp [go, hfunction, defLabelAndQname, ownerOf, DefRule.func]
    · have hrule : ruleFor go f.kind =
          some ⟨"method_declaration", "Function", "Method", .goReceiver, true⟩ := by
        rw [hmethod]
        rfl
      rw [hrule, goReceiverTypeName_eq h hmem]
      cases hname : f.childByFieldName "name" with
      | none => simp [go]
      | some name =>
        cases howner : goReceiverType f with
        | none => simp [go, hmethod, defLabelAndQname, ownerOf, howner]
        | some type => simp [go, hmethod, defLabelAndQname, ownerOf, howner]

theorem go_adjustsTypes : AdjustsTypes go := by
  unfold AdjustsTypes
  decide

/-- The name that the engine gives to a function or method of Go is the one of the walk. -/
theorem goEnclosingFuncQname_defined (h : TypeIdentifiersNamed tree) {node : SyntaxNode}
    (hnode : node ∈ tree.nodes) :
    match enclosingCallable go node with
    | none => goEnclosingFuncQname filePath node = none
    | some d => ∀ name, d.childByFieldName "name" = some name →
        ∃ e, specDefinition go filePath name = some (d, e) ∧
          goEnclosingFuncQname filePath node = some e.qualifiedName := by
  rw [goEnclosingFuncQname_eq h hnode, enclosingCallableQname]
  cases hd : enclosingCallable go node with
  | none => rfl
  | some d =>
    intro name hname
    obtain ⟨rule, hrule, hcallable⟩ := isCallable_iff.1 (enclosingCallable_spec hnode hd).2
    have hpair : defNodeAndName go name = some (d, name.text) := by
      simp [defNodeAndName, go, SyntaxNode.parent_of_childByFieldName hname]
    obtain ⟨e, he, hqname⟩ := specDefinition_callable filePath go_adjustsTypes
      hrule hcallable hpair
    refine ⟨e, he, ?_⟩
    rw [hqname]
    simp [callableName, go, hname] at hrule ⊢
    simp [hrule]

/-- **The names of callers agree with the names of definitions**: in the engine, for every description
that captures its callables and adjusts the labels of types only, and in the walk for the usages of
Go. -/
theorem callers_agree :
    (∀ (spec : LangSpec) (definitions calls : Query) (filePath : String) (tree : SyntaxTree),
      CapturesCallables spec definitions tree → AdjustsTypes spec →
      ∀ c ∈ specCalls spec calls filePath tree, ∃ d, enclosingCallable spec c.1 = some d ∧
        ∃ n ∈ specDefinitions spec definitions filePath tree,
          n.1 = d ∧ c.2.sourceQualifiedName = n.2.qualifiedName) ∧
    ∀ (filePath : String) (tree : SyntaxTree), TypeIdentifiersNamed tree → ∀ node ∈ tree.nodes,
      match enclosingCallable go node with
      | none => goEnclosingFuncQname filePath node = none
      | some d => ∀ name, d.childByFieldName "name" = some name →
          ∃ e, specDefinition go filePath name = some (d, e) ∧
            goEnclosingFuncQname filePath node = some e.qualifiedName :=
  ⟨fun _ _ _ _ _ hcaptures hadjust _ hc => specCalls_defined hcaptures hadjust hc,
    fun _ _ h _ hnode => goEnclosingFuncQname_defined h hnode⟩

/-! ### Queries of Go -/

/-- `go_queries::DEFINITIONS`. -/
def goDefinitions : Query where
  patterns := [
    pattern ["function_declaration"] (some "def") [(some "name", pattern ["identifier"] (some "name") [])],
    pattern ["method_declaration"] (some "def") [
      (some "name", pattern ["field_identifier"] (some "name") [])],
    pattern ["type_spec"] (some "def") [(some "name", pattern ["type_identifier"] (some "name") [])]]
  stays p hp name := by
    simp only [List.mem_cons, List.not_mem_nil, or_false] at hp
    rcases hp with rfl | rfl | rfl <;> exact capturesOnly_one capturesOnly_nil

/-- `go_queries::CALLS`. -/
def goCalls : Query where
  patterns := [
    pattern ["call_expression"] none [(some "function", pattern ["identifier"] (some "callee") [])],
    pattern ["call_expression"] none [(some "function", pattern ["selector_expression"] none [
      (some "field", pattern ["field_identifier"] (some "callee") [])])]]
  stays p hp name := by
    simp only [List.mem_cons, List.not_mem_nil, or_false] at hp
    rcases hp with rfl | rfl
    · exact capturesOnly_one capturesOnly_nil
    · exact capturesOnly_one (capturesOnly_one capturesOnly_nil)

/-- `g ( )`. -/
def goCall : Grown :=
  group "call_expression" [("function", word "identifier" "g"),
    ("arguments", group "argument_list" [("", sign "("), ("", sign ")")])]

/-- `func ( p * T ) m ( ) { g ( ) }`. -/
def goMethod : SyntaxTree := (group "source_file" [("", group "method_declaration" [
  ("", sign "func"),
  ("receiver", group "parameter_list" [("", sign "("), ("", group "parameter_declaration" [
    ("name", word "identifier" "p"),
    ("type", group "pointer_type" [("", sign "*"), ("", word "type_identifier" "T")])]),
    ("", sign ")")]),
  ("name", word "field_identifier" "m"),
  ("parameters", group "parameter_list" [("", sign "("), ("", sign ")")]),
  ("body", group "block" [("", sign "\x7b"), ("", goCall), ("", sign "\x7d")])])]).tree

/-- The call in a method comes from the method. -/
theorem callers_agree_goMethod :
    ((specCalls go goCalls "main.go" goMethod).map fun c => c.2.sourceQualifiedName) =
        ["main.go::T::m"] ∧
      ∀ c ∈ specCalls go goCalls "main.go" goMethod, ∃ d, enclosingCallable go c.1 = some d ∧
        ∃ n ∈ specDefinitions go goDefinitions "main.go" goMethod,
          n.1 = d ∧ c.2.sourceQualifiedName = n.2.qualifiedName :=
  ⟨by decide +kernel, callers_agree.1 go goDefinitions goCalls "main.go" goMethod
    (by unfold CapturesCallables; decide +kernel) go_adjustsTypes⟩

def callingTypes : LangSpec := { go with defs := [DefRule.func "type_spec"] }

/-- `type T [ g ( ) ] int`. -/
def goArrayType : SyntaxTree := (group "source_file" [("", group "type_declaration" [
  ("", sign "type"), ("", group "type_spec" [("name", word "type_identifier" "T"),
    ("type", group "array_type" [("", sign "["), ("length", goCall), ("", sign "]"),
      ("element", word "type_identifier" "int")])])])]).tree

/-- Where the rule for types is callable, the definition pass adjusts its label and the walk does not. -/
theorem callingTypes_disagree :
    CapturesCallables callingTypes goDefinitions goArrayType ∧
      ∃ c ∈ specCalls callingTypes goCalls "main.go" goArrayType,
        ∀ n ∈ specDefinitions callingTypes goDefinitions "main.go" goArrayType,
          c.2.sourceQualifiedName ≠ n.2.qualifiedName := by
  constructor
  · unfold CapturesCallables
    decide +kernel
  · decide +kernel

end Extract
