/-
**The sources of the edges of a Rust file.**

An edge whose source is not the name of a node is dropped without notice.  The names are built by three
walks: the definition pass goes from a captured name to its item, calls and usages go up to a function,
declared types up to a function or a type.  They agree because they ask for the owner in the same way
and find the same name child, as the grammar of Rust has it.
-/

import Greppy.RustExtract

set_option autoImplicit false

namespace Extract

namespace Rust

def typeItems : List String := ["struct_item", "union_item", "enum_item", "trait_item"]

/-- An item is named by its field `name`, of a kind, and this is its first child of these kinds. -/
def NamedBy (item : SyntaxNode) (kind : String) (kinds : List String) : Prop :=
  item.isNamed = true ∧ ∃ name, item.childByFieldName "name" = some name ∧ name.isNamed = true ∧
    name.kind = kind ∧ namedChildOfKinds item kinds = some name

instance (item : SyntaxNode) (kind : String) (kinds : List String) :
    Decidable (NamedBy item kind kinds) :=
  match h : item.childByFieldName "name" with
  | none => isFalse fun ⟨_, name, hname, _⟩ => by rw [h] at hname; cases hname
  | some name =>
    decidable_of_iff (item.isNamed = true ∧ name.isNamed = true ∧ name.kind = kind ∧
        namedChildOfKinds item kinds = some name)
      ⟨fun ⟨hitem, hrest⟩ => ⟨hitem, name, h, hrest⟩, fun ⟨hitem, found, hfound, hrest⟩ => by
        rw [h] at hfound
        cases hfound
        exact ⟨hitem, hrest⟩⟩

/-- The grammar of Rust: a function is named by an identifier, a type by a type identifier, and what
stands before the name is of another kind.  The variable of a macro stands for a name in the body of a
macro only, which is a tree of tokens without items. -/
structure WellNamed (tree : SyntaxTree) : Prop where
  functions : ∀ f ∈ tree.nodes, f.kind = "function_item" →
    NamedBy f "identifier" ["identifier", "type_identifier"]
  types : ∀ t ∈ tree.nodes, t.kind ∈ typeItems → NamedBy t "type_identifier" ["type_identifier"]

variable {filePath : String} {tree : SyntaxTree}

/-! ### References are in the tree -/

mutual

theorem referenceLeaf_mem {above : List (SyntaxTree × ℕ)} :
    ∀ tree : SyntaxTree, referenceLeaf above tree ∈ tree.nodesAt above
  | .node data children => by
    have hself := SyntaxTree.self_mem_nodesAt above (.node data children)
    rw [referenceLeaf]
    split
    · cases hleaf : leafUnder (.node data children) above 0 none children with
      | none => exact hself
      | some leaf =>
        rw [SyntaxTree.nodesAt]
        refine List.mem_cons_of_mem _ ?_
        exact (leafUnder_mem children none leaf hleaf).resolve_right (by simp)
    · exact hself

theorem leafUnder_mem {parent : SyntaxTree} {above : List (SyntaxTree × ℕ)} {i : ℕ} :
    ∀ (forest : SyntaxForest) (best : Option SyntaxNode) (leaf : SyntaxNode),
      leafUnder parent above i best forest = some leaf →
        leaf ∈ forest.nodesAt parent above i ∨ best = some leaf
  | .nil, best, leaf => fun h => .inr h
  | .cons field tree rest, best, leaf => by
    intro h
    rw [leafUnder] at h
    rw [SyntaxForest.nodesAt]
    rcases leafUnder_mem rest _ leaf h with hrest | hbest
    · exact .inl (List.mem_append_right _ hrest)
    · split_ifs at hbest with hname hscoped
      · cases hbest
        exact .inl (List.mem_append_left _ (SyntaxTree.self_mem_nodesAt _ tree))
      · cases hbest
        exact .inl (List.mem_append_left _ (referenceLeaf_mem tree))
      · exact .inr hbest

end

theorem usageLeaf_eq {node leaf : SyntaxNode} (h : usageLeaf node = some leaf) :
    leaf = referenceLeaf node.above node.tree := by
  unfold usageLeaf at h
  dsimp only at h
  split at h
  · split at h
    · exact (Option.some.inj h).symm
    · cases h
  · cases h

mutual

theorem usagesAt_mem {n : SyntaxNode} {above : List (SyntaxTree × ℕ)} :
    ∀ tree : SyntaxTree, n ∈ usagesAt above tree → n ∈ tree.nodesAt above
  | .node data children => by
    intro h
    rw [usagesAt] at h
    rcases List.mem_append.1 h with hhere | hbelow
    · have hleaf := Option.mem_toList.1 hhere
      rw [usageLeaf_eq hleaf]
      exact referenceLeaf_mem (.node data children)
    · split_ifs at hbelow
      · cases hbelow
      · rw [SyntaxTree.nodesAt]
        exact List.mem_cons_of_mem _ (usagesUnder_mem children hbelow)

theorem usagesUnder_mem {n : SyntaxNode} {parent : SyntaxTree} {above : List (SyntaxTree × ℕ)}
    {i : ℕ} :
    ∀ forest : SyntaxForest, n ∈ usagesUnder parent above i forest →
      n ∈ forest.nodesAt parent above i
  | .nil => fun h => by cases h
  | .cons field tree rest => by
    intro h
    rw [usagesUnder] at h
    rw [SyntaxForest.nodesAt]
    rcases List.mem_append.1 h with hhere | hrest
    · exact List.mem_append_left _ (usagesAt_mem tree hhere)
    · exact List.mem_append_right _ (usagesUnder_mem rest hrest)

end

/-! ### Names that the definition pass captures -/

theorem mem_captures_named {kind nameKind : String} (hquery : named kind nameKind "name" "def" ∈ definitions)
    {item name : SyntaxNode} (hitem : item ∈ tree.nodes) (hkind : item.kind = kind)
    (hnamed : item.isNamed = true) (hname : item.childByFieldName "name" = some name)
    (hnameKind : name.kind = nameKind) (hnameNamed : name.isNamed = true) :
    ("name", name) ∈ tree.captures definitions := by
  refine SyntaxTree.mem_captures.2 ⟨[("def", item), ("name", name)],
    SyntaxTree.mem_matches.2 ⟨item, hitem, _, hquery, ?_⟩, by simp⟩
  refine mem_pattern_one.2 ⟨⟨hnamed, .inr (List.mem_singleton.2 hkind)⟩, (some "name", name),
    SyntaxNode.mem_of_childByFieldName hname, .inr rfl, [("name", name)], ?_, rfl⟩
  exact mem_pattern_nil.2 ⟨⟨hnameNamed, .inr (List.mem_singleton.2 hnameKind)⟩, rfl⟩

/-- A captured name that is not the type of an `impl` block becomes a node. -/
theorem mem_definitionNodes {node : SyntaxNode} (h : ("name", node) ∈ tree.captures definitions)
    (himpl : label node ≠ "Impl") :
    (node, nodeAt filePath (label node) node.text (definitionQname filePath node)
      (node.parent.getD node)) ∈ definitionNodes filePath tree := by
  refine List.mem_filterMap.2 ⟨("name", node), h, ?_⟩
  simp [definitionNode, itemNode, himpl]

/-- The definition pass asks for the owner from the name, the walks from the function. -/
theorem definitionQname_function {name f : SyntaxNode} (hparent : name.parent = some f)
    (hkind : f.kind = "function_item") : definitionQname filePath name = functionQname filePath f name := by
  have howner : enclosingImplType name = enclosingImplType f := by
    unfold enclosingImplType
    rw [enclosing_of_parent hparent]
    rw [hkind]
    decide
  have hlabel := label_of_function hparent hkind
  unfold definitionQname functionQname
  rw [if_pos, howner]
  rw [hlabel]
  cases enclosingImplType name with
  | none => exact .inr rfl
  | some type => exact .inl rfl

variable (filePath) in
/-- **The name of a function around a reference is the one of its definition.** -/
theorem functionQname_defined (h : WellNamed tree) {f name : SyntaxNode} (hf : f ∈ tree.nodes)
    (hkind : f.kind = "function_item")
    (hname : namedChildOfKinds f ["identifier", "type_identifier"] = some name) :
    ∃ d ∈ definitionNodes filePath tree, d.1.parent = some f ∧
      d.2.qualifiedName = functionQname filePath f name := by
  obtain ⟨hnamed, found, hfield, hfoundNamed, hfoundKind, hfirst⟩ := h.functions f hf hkind
  rw [hname] at hfirst
  cases hfirst
  have hparent := SyntaxNode.parent_of_childByFieldName hfield
  have hcaptured : ("name", name) ∈ tree.captures definitions :=
    mem_captures_named (by simp [definitions]) hf hkind hnamed hfield hfoundKind hfoundNamed
  have hlabel : label name ≠ "Impl" := by
    rw [label_of_function hparent hkind]
    split <;> decide
  exact ⟨_, mem_definitionNodes hcaptured hlabel, hparent, definitionQname_function hparent hkind⟩

theorem type_defined {t name : SyntaxNode} {itemLabel : String} (ht : t ∈ tree.nodes)
    (hnamedBy : NamedBy t "type_identifier" ["type_identifier"])
    (hquery : named t.kind "type_identifier" "name" "def" ∈ definitions)
    (hlabel : ∀ n : SyntaxNode, n.parent = some t → label n = itemLabel)
    (hfree : itemLabel ∉ ["Method", "Function", "Impl"])
    (hname : namedChildOfKinds t ["type_identifier"] = some name) :
    ∃ d ∈ definitionNodes filePath tree, d.2.qualifiedName = qname filePath itemLabel name.text := by
  obtain ⟨hnamed, found, hfield, hfoundNamed, hfoundKind, hfirst⟩ := hnamedBy
  rw [hname] at hfirst
  cases hfirst
  have hparent := SyntaxNode.parent_of_childByFieldName hfield
  have hcaptured : ("name", name) ∈ tree.captures definitions :=
    mem_captures_named hquery ht rfl hnamed hfield hfoundKind hfoundNamed
  simp only [List.mem_cons, List.not_mem_nil, or_false, not_or] at hfree
  have himpl : label name ≠ "Impl" := by
    rw [hlabel name hparent]
    exact hfree.2.2
  refine ⟨_, mem_definitionNodes hcaptured himpl, ?_⟩
  change definitionQname filePath name = _
  rw [definitionQname, hlabel name hparent, if_neg]
  rintro (hmethod | hfunction)
  · exact hfree.1 hmethod
  · exact hfree.2.1 hfunction

/-- **The name of a function or a type around a declaration is the one of its definition.** -/
theorem enclosingDefQname_defined (h : WellNamed tree) {node : SyntaxNode} {source : String}
    (hnode : node ∈ tree.nodes) (hsource : enclosingDefQname filePath node = some source) :
    ∃ d ∈ definitionNodes filePath tree, d.2.qualifiedName = source := by
  obtain ⟨item, hitem, hsource⟩ := Option.bind_eq_some_iff.1 hsource
  have hmem := enclosing_mem_nodes hnode hitem
  have hkind := kind_of_enclosing hitem
  by_cases hfunction : item.kind = "function_item"
  · rw [if_pos hfunction] at hsource
    obtain ⟨name, hname, hsource⟩ := Option.bind_eq_some_iff.1 hsource
    cases hsource
    obtain ⟨d, hd, _, hdname⟩ := functionQname_defined filePath h hmem hfunction hname
    exact ⟨d, hd, hdname⟩
  · rw [if_neg hfunction] at hsource
    obtain ⟨name, hname, hsource⟩ := Option.bind_eq_some_iff.1 hsource
    have htype : item.kind ∈ typeItems := by
      rcases List.mem_cons.1 hkind with heq | hmem
      · exact absurd heq hfunction
      · exact hmem
    have hnamed := h.types item hmem htype
    have hlabels : ∀ n : SyntaxNode, n.parent = some item → label n =
        if item.kind = "struct_item" ∨ item.kind = "union_item" then "Class"
        else if item.kind = "enum_item" then "Enum" else "Interface" := by
      intro n hn
      simp only [label, hn, Option.map_some, if_neg hfunction]
      simp only [typeItems, List.mem_cons, List.not_mem_nil, or_false] at htype
      rcases htype with heq | heq | heq | heq <;> rw [heq] <;> decide
    simp only [typeItems, List.mem_cons, List.not_mem_nil, or_false] at htype
    rcases htype with heq | heq | heq | heq
    all_goals
      rw [heq] at hsource hlabels
      cases hsource
      exact type_defined hmem hnamed (by simp [heq, definitions]) (fun n hn => hlabels n hn) (by decide)
        hname

/-! ### The sources of the edges -/

variable (filePath) in
/-- The name of the function around a node is the one of its definition. -/
theorem enclosingFunctionQname_defined (h : WellNamed tree) {node : SyntaxNode}
    (hnode : node ∈ tree.nodes) :
    match enclosing ["function_item"] node with
    | none => enclosingFunctionQname filePath node = none
    | some f => ∃ d ∈ definitionNodes filePath tree, d.1.parent = some f ∧
        enclosingFunctionQname filePath node = some d.2.qualifiedName := by
  cases hf : enclosing ["function_item"] node with
  | none => simp [enclosingFunctionQname, hf]
  | some f =>
    have hmem := enclosing_mem_nodes hnode hf
    have hkind := List.mem_singleton.1 (kind_of_enclosing hf)
    obtain ⟨_, name, _, _, _, hname⟩ := h.functions f hmem hkind
    obtain ⟨d, hd, hparent, hdname⟩ := functionQname_defined filePath h hmem hkind hname
    refine ⟨d, hd, hparent, ?_⟩
    rw [hdname]
    simp [enclosingFunctionQname, hf, hname]

theorem calls_mem {name : String} {node : SyntaxNode} (h : (name, node) ∈ tree.captures calls) :
    node ∈ tree.nodes := by
  refine (SyntaxTree.of_mem_captures (K := fun _ => True) (fun p hp => ?_) h).1
  simp only [calls, List.mem_cons, List.not_mem_nil, or_false] at hp
  rcases hp with rfl | rfl | rfl | rfl | rfl
  · exact capturesOnly_one capturesOnly_nil
  · exact capturesOnly_one (capturesOnly_one capturesOnly_nil)
  · exact capturesOnly_one (capturesOnly_one capturesOnly_nil)
  · exact capturesOnly_one (capturesOnly_one (capturesOnly_one capturesOnly_nil))
  · exact capturesOnly_one (capturesOnly_one capturesOnly_nil)

theorem typeAssigns_mem {name : String} {node : SyntaxNode}
    (h : (name, node) ∈ tree.captures typeAssigns) : node ∈ tree.nodes := by
  refine (SyntaxTree.of_mem_captures (K := fun _ => True) (fun p hp => ?_) h).1
  simp only [typeAssigns, List.mem_cons, List.not_mem_nil, or_false] at hp
  rcases hp with rfl | rfl | rfl | rfl <;> exact capturesOnly_one capturesOnly_nil

theorem callEdge_defined (h : WellNamed tree) {c : SyntaxNode × ExtractedEdge}
    (hc : c ∈ callEdges filePath tree) :
    ∃ f, enclosing ["function_item"] c.1 = some f ∧ ∃ d ∈ definitionNodes filePath tree,
      d.1.parent = some f ∧ c.2.sourceQualifiedName = d.2.qualifiedName := by
  obtain ⟨⟨name, node⟩, hcapture, hc⟩ := List.mem_filterMap.1 hc
  obtain ⟨edge, hedge, rfl⟩ := Option.map_eq_some_iff.1 hc
  unfold callEdge at hedge
  split_ifs at hedge
  obtain ⟨caller, hcaller, rfl⟩ := Option.map_eq_some_iff.1 hedge
  have hdefined := enclosingFunctionQname_defined filePath h (calls_mem hcapture)
  cases hf : enclosing ["function_item"] node with
  | none =>
    rw [hf] at hdefined
    exact absurd (hcaller.symm.trans hdefined) (Option.some_ne_none _)
  | some f =>
    rw [hf] at hdefined
    obtain ⟨d, hd, hparent, hdname⟩ := hdefined
    exact ⟨f, rfl, d, hd, hparent, Option.some.inj (hcaller.symm.trans hdname)⟩

theorem usageEdge_defined (h : WellNamed tree) {u : SyntaxNode × ExtractedEdge}
    (hu : u ∈ usageEdges filePath tree) :
    match enclosing ["function_item"] u.1 with
    | none => u.2.sourceQualifiedName = fileQname filePath
    | some f => ∃ d ∈ definitionNodes filePath tree, d.1.parent = some f ∧
        u.2.sourceQualifiedName = d.2.qualifiedName := by
  obtain ⟨node, hnode, rfl⟩ := List.mem_map.1 hu
  have hdefined := enclosingFunctionQname_defined filePath h (usagesAt_mem tree hnode)
  dsimp only
  cases hf : enclosing ["function_item"] node with
  | none =>
    rw [hf] at hdefined
    simp only [usageEdge]
    rw [hdefined, Option.getD_none]
  | some f =>
    rw [hf] at hdefined
    obtain ⟨d, hd, hparent, hdname⟩ := hdefined
    refine ⟨d, hd, hparent, ?_⟩
    simp only [usageEdge]
    rw [hdname, Option.getD_some]

theorem typeAssignEdge_defined (h : WellNamed tree) {capture : String × SyntaxNode}
    {edge : ExtractedEdge} (hcapture : capture ∈ tree.captures typeAssigns)
    (hedge : typeAssignEdge filePath capture = some edge) :
    ∃ d ∈ definitionNodes filePath tree, d.2.qualifiedName = edge.sourceQualifiedName := by
  unfold typeAssignEdge at hedge
  dsimp only at hedge
  split_ifs at hedge with hassign
  obtain ⟨var, hvar, hedge⟩ := Option.bind_eq_some_iff.1 hedge
  split_ifs at hedge with hkind
  obtain ⟨type, htype, hedge⟩ := Option.bind_eq_some_iff.1 hedge
  obtain ⟨source, hsource, hedge⟩ := Option.bind_eq_some_iff.1 hedge
  obtain ⟨name, hname, hedge⟩ := Option.bind_eq_some_iff.1 hedge
  split_ifs at hedge with hskip
  cases hedge
  exact enclosingDefQname_defined h (typeAssigns_mem hcapture) hsource

theorem boundEdge_defined {capture : String × SyntaxNode} {edge : ExtractedEdge}
    (hcapture : capture ∈ tree.captures definitions) (hedge : edge ∈ boundEdges filePath capture) :
    ∃ d ∈ definitionNodes filePath tree, d.2.qualifiedName = edge.sourceQualifiedName := by
  unfold boundEdges at hedge
  dsimp only at hedge
  split_ifs at hedge with hcond
  · obtain ⟨bound, _, rfl⟩ := List.mem_map.1 hedge
    obtain ⟨name, node⟩ := capture
    obtain ⟨rfl, hlabel, _⟩ := hcond
    have himpl : label node ≠ "Impl" := by
      rcases hlabel with heq | heq <;> rw [heq] <;> decide
    exact ⟨_, mem_definitionNodes hcapture himpl, rfl⟩
  · cases hedge

/-- `impl T { fn f < U : A > ( ) { let y : T = g ( x ) ; } }`. -/
def callingMethod : SyntaxTree := (group "source_file" [("", group "impl_item" [("", sign "impl"),
  ("type", word "type_identifier" "T"), ("body", group "declaration_list" [("", sign "\x7b"),
    ("", group "function_item" [("", sign "fn"), ("name", word "identifier" "f"),
      ("type_parameters", group "type_parameters" [("", sign "<"),
        ("", group "type_parameter" [("name", word "type_identifier" "U"),
          ("bounds", group "trait_bounds" [("", sign ":"), ("", word "type_identifier" "A")])]),
        ("", sign ">")]),
      ("parameters", group "parameters" [("", sign "("), ("", sign ")")]),
      ("body", group "block" [("", sign "\x7b"),
        ("", group "let_declaration" [("", sign "let"), ("pattern", word "identifier" "y"),
          ("", sign ":"), ("type", word "type_identifier" "T"), ("", sign "="),
          ("value", group "call_expression" [("function", word "identifier" "g"),
            ("arguments", group "arguments" [("", sign "("), ("", word "identifier" "x"),
              ("", sign ")")])]), ("", sign ";")]),
        ("", sign "\x7d")])]),
    ("", sign "\x7d")])])]).tree

end Rust

end Extract
