/-
**The calls of a Python file.**

Two passes emit the calls of a Python file.  The engine's query captures the callees, and each is called
from the innermost function around it; a callee outside of all functions is left out there.  The second
pass walks down from the root, turns back at functions, and lets the file call what it finds.
-/

import Greppy.ScriptSources
import Greppy.TreeWalks

set_option autoImplicit false

namespace Extract

/-! ### The two passes -/

/-- `python_queries::CALLS`. -/
def pythonCalls : Query where
  patterns := [
    pattern ["call"] none [(some "function", pattern ["identifier"] (some "callee") [])],
    pattern ["call"] none [(some "function", pattern ["attribute"] none [
      (some "attribute", pattern ["identifier"] (some "callee") [])])]]
  stays p hp name := by
    simp only [List.mem_cons, List.not_mem_nil, or_false] at hp
    rcases hp with rfl | rfl
    · exact capturesOnly_one capturesOnly_nil
    · exact capturesOnly_one (capturesOnly_one capturesOnly_nil)

/-- `python_call_callee_text`: the node whose text it is. -/
def pythonCallCallee (call : SyntaxNode) : Option SyntaxNode := do
  let func ← call.childByFieldName "function"
  if func.kind = "identifier" then some func
  else if func.kind = "attribute" then do
    let attr ← func.childByFieldName "attribute"
    if attr.kind = "identifier" then some attr else none
  else none

def pythonCalleeOf (node : SyntaxNode) : Option SyntaxNode :=
  if node.kind = "call" then pythonCallCallee node else none

/-- Where `emit_python_module_scope_calls` turns back. -/
def isFunctionDefinition (data : NodeData) : Bool := data.kind == "function_definition"

/-- The edge of a call that the file makes, with its callee. -/
def moduleScopeCall (filePath : String) (call : SyntaxNode) : Option (SyntaxNode × ExtractedEdge) := do
  let callee ← pythonCalleeOf call
  if callee.text = "" then none
  else some (callee,
    ⟨"CALLS", fileQname filePath, qname filePath "Function" callee.text, filePath, line call⟩)

/-- `emit_python_module_scope_calls`, each edge with its callee. -/
def pythonModuleScopeCalls (filePath : String) (tree : SyntaxTree) : List (SyntaxNode × ExtractedEdge) :=
  (tree.walkNodes isFunctionDefinition).filterMap (moduleScopeCall filePath)

/-- The calls of `extract_python`, each edge with its callee. -/
def extractPythonCalls (filePath : String) (tree : SyntaxTree) : List (SyntaxNode × ExtractedEdge) :=
  specCalls python pythonCalls filePath tree ++ pythonModuleScopeCalls filePath tree

/-- A node of a kind has at most one child in a field. -/
def OneInField (tree : SyntaxTree) (kind field : String) : Prop :=
  ∀ n ∈ tree.nodes, n.kind = kind → (n.fieldChildren.filter fun c => c.1 == some field).length ≤ 1

instance (tree : SyntaxTree) (kind field : String) : Decidable (OneInField tree kind field) :=
  inferInstanceAs (Decidable (∀ n ∈ tree.nodes, _))

/-- What the grammar of Python says about a tree. -/
structure PythonTree (tree : SyntaxTree) : Prop where
  leaves : TokensAreLeaves tree
  named : ∀ n ∈ tree.nodes, n.kind ∈ ["call", "attribute", "identifier"] → n.isNamed = true
  oneFunction : OneInField tree "call" "function"
  oneAttribute : OneInField tree "attribute" "attribute"
  functions : FunctionsNamed ["function_definition"] ["identifier"] tree

/-! ### What the query captures -/

variable {filePath : String} {tree : SyntaxTree}

variable {n call callee : SyntaxNode}

theorem matchChildren_field {field : String} {p : Pattern}
    (hone : (n.fieldChildren.filter fun c => c.1 == some field).length ≤ 1) :
    matchChildren n.fieldChildren [(some field, p)] =
      (n.childByFieldName field).toList.flatMap p := by
  have hflat (cs : List (Option String × SyntaxNode)) : matchChildren cs [(some field, p)] =
      (cs.filter fun c => c.1 == some field).flatMap fun c => p c.2 := by
    induction cs with
    | nil => rfl
    | cons c rest ih =>
      obtain ⟨found, c⟩ := c
      rw [matchChildren, ih, List.filter_cons]
      by_cases hfield : found = some field
      · simp [hfield, matchChildren_nil]
      · simp [hfield, Ne.symm hfield]
  rw [hflat, SyntaxNode.childByFieldName, ← List.head?_filter]
  generalize n.fieldChildren.filter (fun c => c.1 == some field) = found at hone ⊢
  rcases found with _ | ⟨c, _ | ⟨d, rest⟩⟩
  · rfl
  · simp
  · exact absurd hone (by simp)

theorem pattern_of_kind {kind : String} (hnamed : n.kind = kind → n.isNamed = true)
    (capture : Option String) (children : List (Option String × Pattern)) :
    pattern [kind] capture children n = if n.kind = kind then
      (matchChildren n.fieldChildren children).map ((capture.map fun name => (name, n)).toList ++ ·)
      else [] := by
  have hof : IsOf [kind] n ↔ n.kind = kind := by
    simp only [IsOf, reduceCtorEq, List.mem_singleton, false_or]
    exact ⟨And.right, fun hkind => ⟨hnamed hkind, hkind⟩⟩
  simp only [pattern, hof]

theorem captures_at (h : PythonTree tree) (hn : n ∈ tree.nodes) :
    (pythonCalls.patterns.flatMap fun p => p n).flatten =
      (pythonCalleeOf n).toList.map fun callee => ("callee", callee) := by
  have hcallee (m : SyntaxNode) (hm : m ∈ tree.nodes) : pattern ["identifier"] (some "callee") [] m =
      if m.kind = "identifier" then [[("callee", m)]] else [] := by
    rw [pattern_of_kind (fun hkind => h.named m hm (by simp [hkind])), matchChildren_nil]
    rfl
  simp only [pythonCalls, List.flatMap_cons, List.flatMap_nil, List.append_nil,
    pattern_of_kind (fun hkind : n.kind = "call" => h.named n hn (by simp [hkind]))]
  by_cases hcall : n.kind = "call"
  · rw [if_pos hcall, if_pos hcall, matchChildren_field (h.oneFunction n hn hcall),
      matchChildren_field (h.oneFunction n hn hcall), pythonCalleeOf, if_pos hcall, pythonCallCallee]
    cases hf : n.childByFieldName "function" with
    | none => rfl
    | some f =>
      have hfmem := SyntaxTree.childByFieldName_mem_nodes hn hf
      simp only [Option.toList_some, List.flatMap_cons, List.flatMap_nil, List.append_nil,
        hcallee f hfmem, pattern_of_kind (fun hkind : f.kind = "attribute" => h.named f hfmem (by simp [hkind]))]
      by_cases hidentifier : f.kind = "identifier"
      · simp [hidentifier]
      · by_cases hattr : f.kind = "attribute"
        · rw [matchChildren_field (h.oneAttribute f hfmem hattr)]
          cases ha : f.childByFieldName "attribute" with
          | none => simp [hattr, ha]
          | some a =>
            simp only [Option.toList_some, List.flatMap_cons, List.flatMap_nil, List.append_nil,
              hcallee a (SyntaxTree.childByFieldName_mem_nodes hfmem ha)]
            by_cases hname : a.kind = "identifier"
            · simp [hattr, ha, hname]
            · simp [hattr, ha, hname]
        · simp [hidentifier, hattr]
  · rw [if_neg hcall, if_neg hcall, pythonCalleeOf, if_neg hcall]
    rfl

/-- **The query captures the callees that the walk would see.** -/
theorem capturedAs_pythonCalls (h : PythonTree tree) :
    tree.capturedAs pythonCalls "callee" = tree.nodes.filterMap pythonCalleeOf := by
  have hat (l : List SyntaxNode) (hl : ∀ n ∈ l, n ∈ tree.nodes) :
      ((l.flatMap fun n => pythonCalls.patterns.flatMap fun p => p n).flatten.filter
        fun cap => cap.1 == "callee").map Prod.snd = l.filterMap pythonCalleeOf := by
    induction l with
    | nil => rfl
    | cons n rest ih =>
      rw [List.flatMap_cons, List.flatten_append, List.filter_append, List.map_append,
        ih fun m hm => hl m (List.mem_cons_of_mem _ hm), captures_at h (hl n List.mem_cons_self),
        List.filterMap_cons]
      cases pythonCalleeOf n <;> simp
  exact hat tree.nodes fun _ hn => hn

/-! ### The boundary between the passes -/

/-- A callee is the function of its call, or the attribute of that. -/
theorem parent_of_pythonCallee (h : pythonCalleeOf call = some callee) :
    call.kind = "call" ∧ (callee.parent = some call ∨
      ∃ func, callee.parent = some func ∧ func.kind = "attribute" ∧ func.parent = some call) := by
  unfold pythonCalleeOf at h
  split_ifs at h with hcall
  refine ⟨hcall, ?_⟩
  obtain ⟨func, hfunc, h⟩ := Option.bind_eq_some_iff.1 h
  have hparent := SyntaxNode.parent_of_childByFieldName hfunc
  split_ifs at h with hidentifier hattr
  · cases h
    exact .inl hparent
  · obtain ⟨attr, hattr', h⟩ := Option.bind_eq_some_iff.1 h
    split_ifs at h
    cases h
    exact .inr ⟨func, SyntaxNode.parent_of_childByFieldName hattr', hattr, hparent⟩

theorem pythonCalleeOf_inj {call' : SyntaxNode} (h : pythonCalleeOf call = some callee)
    (h' : pythonCalleeOf call' = some callee) : call = call' := by
  obtain ⟨hkind, hparent⟩ := parent_of_pythonCallee h
  obtain ⟨hkind', hparent'⟩ := parent_of_pythonCallee h'
  rcases hparent with hp | ⟨func, hp, hattr, hfunc⟩
  · rcases hparent' with hp' | ⟨func', hp', hattr', -⟩
    · exact Option.some.inj (hp.symm.trans hp')
    · cases hp.symm.trans hp'
      rw [hkind] at hattr'
      exact absurd hattr' (by decide)
  · rcases hparent' with hp' | ⟨func', hp', -, hfunc'⟩
    · cases hp.symm.trans hp'
      rw [hkind'] at hattr
      exact absurd hattr (by decide)
    · cases hp.symm.trans hp'
      exact Option.some.inj (hfunc.symm.trans hfunc')

theorem enclosing_pythonCallee (h : pythonCalleeOf call = some callee) :
    enclosing ["function_definition"] callee = enclosing ["function_definition"] call := by
  obtain ⟨hkind, hparent⟩ := parent_of_pythonCallee h
  have hcall : call.kind ∉ ["function_definition"] := by rw [hkind]; decide
  rcases hparent with hp | ⟨func, hp, hattr, hfunc⟩
  · exact enclosing_of_parent hp hcall
  · have hnot : func.kind ∉ ["function_definition"] := by rw [hattr]; decide
    rw [enclosing_of_parent hp hnot, enclosing_of_parent hfunc hcall]

theorem enclosingCallable_python (node : SyntaxNode) :
    enclosingCallable python node = enclosing ["function_definition"] node := by
  unfold enclosingCallable enclosing
  congr 1
  funext a
  have hmethod := python_owned.method "function_definition" (by decide)
  by_cases hfunction : a.kind = "function_definition"
  · rw [isCallable, hfunction, hmethod]
    rfl
  · have hnot : ["function_definition"].contains a.kind = false := by simp [hfunction]
    rw [hnot, ← Bool.not_eq_true, isCallable_iff]
    rintro ⟨rule, hrule, hcallable⟩
    obtain ⟨hmem, hkind⟩ := ruleFor_eq_some hrule
    simp only [python, List.mem_cons, List.not_mem_nil, or_false] at hmem
    rcases hmem with rfl | rfl
    · cases hcallable
    · exact hfunction hkind.symm

/-- The walk comes to a call exactly when no function stands around it. -/
theorem isOutside_call (hcall : call.kind = "call") :
    SyntaxTree.isOutside isFunctionDefinition call = (enclosing ["function_definition"] call).isNone := by
  have hself : isFunctionDefinition call.tree.data = false := by
    change (call.kind == "function_definition") = false
    rw [hcall]
    rfl
  rw [SyntaxTree.isOutside, hself, enclosing, Bool.not_false, Bool.true_and]
  induction call.ancestors with
  | nil => rfl
  | cons a rest ih =>
    rw [List.all_cons, ih, List.find?_cons]
    by_cases hkind : a.kind = "function_definition"
    · simp [isFunctionDefinition, show a.tree.data.kind = "function_definition" from hkind, hkind]
    · simp [isFunctionDefinition, show a.tree.data.kind ≠ "function_definition" from hkind, hkind]

/-- The edge of a call that a function makes, with its callee. -/
def functionCall (filePath : String) (call : SyntaxNode) : Option (SyntaxNode × ExtractedEdge) := do
  let callee ← pythonCalleeOf call
  let caller ← enclosingCallableQname python filePath callee
  some (callee, ⟨"CALLS", caller, qname filePath "Function" callee.text, filePath, line callee⟩)

theorem specCalls_python (h : PythonTree tree) :
    specCalls python pythonCalls filePath tree = tree.nodes.filterMap (functionCall filePath) := by
  rw [specCalls, capturedAs_pythonCalls h, List.filterMap_filterMap]
  refine List.filterMap_congr fun call _ => ?_
  rw [functionCall]
  cases pythonCalleeOf call with
  | none => rfl
  | some callee =>
    have hskip : python.skipCallees.contains callee.text = false := rfl
    simp only [Option.bind_some, Option.bind_eq_bind, hskip, Bool.false_eq_true, if_false]
    cases enclosingCallableQname python filePath callee <;> rfl

theorem pythonModuleScopeCalls_eq (h : PythonTree tree) :
    pythonModuleScopeCalls filePath tree = tree.nodes.filterMap fun call =>
      if enclosing ["function_definition"] call = none then moduleScopeCall filePath call else none := by
  have hseen : ((tree.walkNodes isFunctionDefinition).filter
      fun n => n.isNamed && n.kind == "call").filterMap (moduleScopeCall filePath) =
        (tree.walkNodes isFunctionDefinition).filterMap (moduleScopeCall filePath) := by
    rw [List.filterMap_filter]
    refine List.filterMap_congr fun n hn => ?_
    split_ifs with hcall
    · rfl
    · have hkind : n.kind ≠ "call" := fun hkind => hcall (by
        simp [hkind, h.named n (SyntaxTree.mem_nodes_of_walkNodes hn) (by simp [hkind])])
      rw [moduleScopeCall, pythonCalleeOf, if_neg hkind]
      rfl
  rw [pythonModuleScopeCalls, ← hseen,
    SyntaxTree.walkNodes_filter _ (fun n hn => (Bool.and_eq_true_iff.1 hn).1) h.leaves, List.filterMap_filter]
  refine List.filterMap_congr fun n hn => ?_
  by_cases hkind : n.kind = "call"
  · rw [isOutside_call hkind, h.named n hn (by simp [hkind]), hkind]
    simp
  · rw [moduleScopeCall, pythonCalleeOf, if_neg hkind]
    simp

/-! ### Every call once -/

theorem filterMap_of_only {α β : Type} {l : List α} (hl : l.Nodup) {a : α} (ha : a ∈ l) {f : α → Option β}
    (honly : ∀ b ∈ l, b ≠ a → f b = none) : l.filterMap f = (f a).toList := by
  induction l with
  | nil => cases ha
  | cons b rest ih =>
    obtain ⟨hb, hrest⟩ := List.nodup_cons.1 hl
    rw [List.filterMap_cons]
    by_cases hba : b = a
    · subst hba
      have hnone : rest.filterMap f = [] := List.filterMap_eq_nil_iff.2 fun c hc =>
        honly c (List.mem_cons_of_mem _ hc) fun h => hb (h ▸ hc)
      cases f b <;> simp [hnone]
    · rw [honly b List.mem_cons_self hba]
      exact ih hrest ((List.mem_cons.1 ha).resolve_left (Ne.symm hba)) fun c hc =>
        honly c (List.mem_cons_of_mem _ hc)

theorem filter_filterMap_calls (hcall : call ∈ tree.nodes)
    (hcallee : pythonCalleeOf call = some callee)
    {f : SyntaxNode → Option (SyntaxNode × ExtractedEdge)}
    (hf : ∀ n e, f n = some e → pythonCalleeOf n = some e.1) :
    (tree.nodes.filterMap f).filter (fun e => e.1 = callee) = (f call).toList := by
  have hself : (f call).filter (fun e => e.1 = callee) = f call := by
    cases hfc : f call with
    | none => rfl
    | some e =>
      have he := Option.some.inj ((hf call e hfc).symm.trans hcallee)
      simp [he]
  rw [List.filter_filterMap, filterMap_of_only tree.nodes_nodup hcall, hself]
  intro n _ hne
  cases hfn : f n with
  | none => rfl
  | some e =>
    have hother : e.1 ≠ callee := fun he =>
      hne (pythonCalleeOf_inj (he ▸ hf n e hfn) hcallee)
    simp [hother]

/-- The function around a call has a name, by which the definition pass knows it. -/
theorem enclosing_defined (filePath : String) (h : PythonTree tree) {f : SyntaxNode}
    (hcall : call ∈ tree.nodes) (hcallee : pythonCalleeOf call = some callee)
    (hf : enclosing ["function_definition"] call = some f) :
    ∃ d ∈ specDefinitions python (nameQuery pythonDefinitions) filePath tree, d.1 = f ∧
      enclosingCallableQname python filePath callee = some d.2.qualifiedName := by
  have hmem := enclosing_mem_nodes hcall hf
  have hkind := kind_of_enclosing hf
  obtain ⟨hnamed, c, hc, hcKind, hunique⟩ := h.functions.name hmem hkind
  have hname := SyntaxNode.childByFieldName_of_unique hc hunique
  have hrule := python_owned.method f.kind hkind
  refine ⟨(f, _), (mem_specDefinitions python_owned.plain).2 ⟨hmem, _, python_owned.named _ hkind, c,
    ⟨⟨hnamed, .inr (List.mem_singleton.2 rfl)⟩, hcKind, hc⟩, _, hrule, rfl⟩, rfl, ?_⟩
  have hcallable : callableName python f = some c.text := by
    rw [callableName]
    simp [python, hname]
  simp only [enclosingCallableQname, enclosingCallable_python, enclosing_pythonCallee hcallee, hf, hrule,
    hcallable, Option.bind_eq_bind, Option.bind_some]
  rfl

/-- **Every call of a Python file is emitted once**, from the innermost function around it, by the name
that the definition pass gives to it, or else from the file. -/
theorem python_calls_partition (filePath : String) {tree : SyntaxTree} (h : PythonTree tree)
    {call callee : SyntaxNode} (hcall : call ∈ tree.nodes) (hkind : call.kind = "call")
    (hcallee : pythonCallCallee call = some callee) (htext : callee.text ≠ "") :
    ∃ edge, (extractPythonCalls filePath tree).filter (fun e => e.1 = callee) = [(callee, edge)] ∧
      edge.edgeType = "CALLS" ∧ edge.targetQualifiedName = qname filePath "Function" callee.text ∧
      match enclosing ["function_definition"] call with
      | none => edge.sourceQualifiedName = fileQname filePath
      | some f => ∃ d ∈ specDefinitions python (nameQuery pythonDefinitions) filePath tree,
          d.1 = f ∧ edge.sourceQualifiedName = d.2.qualifiedName := by
  have hof : pythonCalleeOf call = some callee := by rw [pythonCalleeOf, if_pos hkind, hcallee]
  have hfunction := filter_filterMap_calls hcall hof (f := functionCall filePath) fun n e he => by
    obtain ⟨found, hfound, he⟩ := Option.bind_eq_some_iff.1 he
    obtain ⟨caller, -, he⟩ := Option.bind_eq_some_iff.1 he
    cases he
    exact hfound
  have hscope := filter_filterMap_calls hcall hof (f := fun call =>
    if enclosing ["function_definition"] call = none then moduleScopeCall filePath call else none)
    fun n e he => by
      split_ifs at he
      obtain ⟨found, hfound, he⟩ := Option.bind_eq_some_iff.1 he
      split_ifs at he
      cases he
      exact hfound
  rw [extractPythonCalls, List.filter_append, specCalls_python h, hfunction, pythonModuleScopeCalls_eq h,
    hscope]
  cases hf : enclosing ["function_definition"] call with
  | none =>
    have hcaller : enclosingCallableQname python filePath callee = none := by
      rw [enclosingCallableQname, enclosingCallable_python, enclosing_pythonCallee hof, hf]
      rfl
    refine ⟨⟨"CALLS", fileQname filePath, qname filePath "Function" callee.text, filePath, line call⟩, ?_,
      rfl, rfl, rfl⟩
    simp [functionCall, moduleScopeCall, hof, hcaller, htext]
  | some f =>
    obtain ⟨d, hd, hdf, hcaller⟩ := enclosing_defined filePath h hcall hof hf
    refine ⟨⟨"CALLS", d.2.qualifiedName, qname filePath "Function" callee.text, filePath, line callee⟩, ?_,
      rfl, rfl, d, hd, hdf, rfl⟩
    simp [functionCall, hof, hcaller]

/-! ### A decorated function -/

/-- `name ( )`. -/
def pythonCall (function : Grown) : Grown :=
  group "call" [("function", function), ("arguments", group "argument_list" [("", sign "("), ("", sign ")")])]

/-- `@ d ( ) def f ( a = e ( ) ) : x . g ( )`. -/
def pythonDecorated : SyntaxTree := (group "module" [("", group "decorated_definition" [
  ("", group "decorator" [("", sign "@"), ("", pythonCall (word "identifier" "d"))]),
  ("definition", group "function_definition" [("", sign "def"), ("name", word "identifier" "f"),
    ("parameters", group "parameters" [("", sign "("), ("", group "default_parameter" [
      ("name", word "identifier" "a"), ("", sign "="), ("value", pythonCall (word "identifier" "e"))]),
      ("", sign ")")]), ("", sign ":"),
    ("body", group "block" [("", group "expression_statement" [("", pythonCall (group "attribute" [
      ("object", word "identifier" "x"), ("", sign "."), ("attribute", word "identifier" "g")]))])])])])]).tree

theorem pythonDecorated_grammar : PythonTree pythonDecorated where
  leaves := by decide +kernel
  named := by decide +kernel
  oneFunction := by decide +kernel
  oneAttribute := by decide +kernel
  functions := by decide +kernel

/-- The call of the default value comes from the function, and that of the decorator from the file. -/
theorem python_calls_partition_decorated :
    ((extractPythonCalls "a.py" pythonDecorated).map fun e => (e.1.text, e.2.sourceQualifiedName)) =
        [("e", "a.py::Function::f"), ("g", "a.py::Function::f"), ("d", "a.py::__file__")] ∧
      ∃ call ∈ pythonDecorated.nodes, ∃ callee, pythonCallCallee call = some callee ∧ callee.text = "d" ∧
        ∃ edge, (extractPythonCalls "a.py" pythonDecorated).filter (fun e => e.1 = callee) = [(callee, edge)] ∧
          edge.edgeType = "CALLS" ∧ edge.targetQualifiedName = qname "a.py" "Function" callee.text ∧
          match enclosing ["function_definition"] call with
          | none => edge.sourceQualifiedName = fileQname "a.py"
          | some f => ∃ d ∈ specDefinitions python (nameQuery pythonDefinitions) "a.py" pythonDecorated,
              d.1 = f ∧ edge.sourceQualifiedName = d.2.qualifiedName := by
  refine ⟨by decide +kernel, ?_⟩
  have hfound : ∃ call ∈ pythonDecorated.nodes, call.kind = "call" ∧
      (pythonCallCallee call).map SyntaxNode.text = some "d" := by decide +kernel
  obtain ⟨call, hcall, hkind, hname⟩ := hfound
  obtain ⟨callee, hcallee, htext⟩ := Option.map_eq_some_iff.1 hname
  exact ⟨call, hcall, callee, hcallee, htext, python_calls_partition "a.py" pythonDecorated_grammar hcall hkind
    hcallee (by rw [htext]; decide)⟩

end Extract
