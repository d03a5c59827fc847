/-
**When Rust definitions collide.**

The store keeps one node for each qualified name, so two definitions of a file with the same qualified
name become one.  The extractor means its names to be free of collisions: a method carries the type
of its block.  But the names are flat.  Of all the modules, blocks, traits and variants around a
definition the qualified name keeps one segment only: a label, the base name of a type, or a label
and the name of the struct or enum of a field.
-/

import Greppy.RustExtract
import Mathlib.Data.List.TakeWhile

set_option autoImplicit false

namespace Extract

/-! ### Qualified names -/

theorem append_colons_inj {xs ys ns ms : List Char} (hn : ':' ∉ ns) (hm : ':' ∉ ms)
    (h : xs ++ ':' :: ns = ys ++ ':' :: ms) : xs = ys ∧ ns = ms := by
  -- The part after the last colon is what one reads from the end up to a colon.
  have hlast : ∀ xs ns : List Char, ':' ∉ ns →
      (xs ++ ':' :: ns).reverse.takeWhile (fun c => c != ':') = ns.reverse := by
    intro xs ns hn
    rw [List.reverse_append, List.reverse_cons, List.append_assoc, List.takeWhile_append_of_pos]
    · rw [List.singleton_append, List.takeWhile_cons_of_neg]
      · exact List.append_nil _
      · decide
    · intro c hc
      have hne : c ≠ ':' := by
        rintro rfl
        exact hn (List.mem_reverse.1 hc)
      exact bne_iff_ne.2 hne
  have hrev : ns.reverse = ms.reverse := by rw [← hlast xs ns hn, h, hlast ys ms hm]
  have hnames : ns = ms := List.reverse_injective hrev
  subst hnames
  exact ⟨List.append_cancel_right h, rfl⟩

/-- **A qualified name determines its segment and its name.** -/
theorem qname_inj {filePath segment segment' name name' : String} (hn : ':' ∉ name.toList)
    (hm : ':' ∉ name'.toList) :
    qname filePath segment name = qname filePath segment' name' ↔
      segment = segment' ∧ name = name' := by
  constructor
  · intro h
    have hlist := congrArg String.toList h
    simp only [qname, String.toList_append] at hlist
    have hcolons : "::".toList = [':', ':'] := by decide
    rw [hcolons] at hlist
    have hsplit : ∀ xs ns : List Char, xs ++ [':', ':'] ++ ns = (xs ++ [':']) ++ ':' :: ns :=
      fun xs ns => by simp
    rw [hsplit (filePath.toList ++ [':', ':'] ++ segment.toList),
      hsplit (filePath.toList ++ [':', ':'] ++ segment'.toList)] at hlist
    obtain ⟨hfront, hback⟩ := append_colons_inj hn hm hlist
    have hsegment := List.append_cancel_left (List.append_cancel_right hfront)
    exact ⟨String.toList_inj.1 hsegment, String.toList_inj.1 hback⟩
  · rintro ⟨rfl, rfl⟩
    rfl

namespace Rust

/-! ### Segments -/

/-- What is kept of the scope of a definition. -/
inductive Scope where
  | label (text : String)
  | owner (type : String)
  | member (segment container : String)

/-- The text of the segment in a qualified name. -/
def Scope.text : Scope → String
  | .label text => text
  | .owner type => type
  | .member segment container => segment ++ "::" ++ container

/-- The scope of a field: the struct, union or enum around it, or the function. -/
def containerOf (node : SyntaxNode) : Option Scope := do
  let item ← enclosing ["function_item", "struct_item", "union_item", "enum_item", "trait_item"] node
  if item.kind = "function_item" then
    let name ← namedChildOfKinds item ["identifier", "type_identifier"]
    some (.member ((enclosingImplType item).getD "Function") name.text)
  else
    let name ← namedChildOfKinds item ["type_identifier"]
    if item.kind = "enum_item" then some (.member "Enum" name.text)
    else if item.kind = "trait_item" then some (.member "Interface" name.text)
    else some (.member "Class" name.text)

/-- The definitions of a tree, each with the scope that it is filed under: a free function, a type or a
module-level constant under its label; a method, an associated item or a variant under the base name
of the type of its block, of its trait or of its enum; a field under its container. -/
inductive FiledUnder (tree : SyntaxTree) : SyntaxNode → Scope → Prop
  | item {node : SyntaxNode} (h : ("name", node) ∈ tree.captures definitions)
      (himpl : label node ≠ "Impl") (hfree : label node ≠ "Method") :
      FiledUnder tree node (.label (label node))
  | method {node : SyntaxNode} {type : String} (h : ("name", node) ∈ tree.captures definitions)
      (hmethod : label node = "Method") (howner : enclosingImplType node = some type) :
      FiledUnder tree node (.owner type)
  | variable {node : SyntaxNode} (h : ("var", node) ∈ tree.captures definitions)
      (hname : node.text ≠ "" ∧ node.text ≠ "_") (hfree : enclosingImplType node = none) :
      FiledUnder tree node (.label "Variable")
  | field {node : SyntaxNode} {scope : Scope} (h : ("field", node) ∈ tree.captures definitions)
      (hname : node.text ≠ "") (hcontainer : containerOf node = some scope) :
      FiledUnder tree node scope
  | variant {m : Match} {enum node : SyntaxNode} (h : m ∈ tree.matches inheritance)
      (henum : captured m "enum_name" = some enum) (hvariant : captured m "enum_variant" = some node)
      (hnames : enum.text ≠ "" ∧ node.text ≠ "") : FiledUnder tree node (.owner enum.text)
  | associated {m : Match} {node : SyntaxNode} {capture type : String}
      (h : m ∈ tree.matches inheritance) (hcapture : capture = "assoc_const" ∨ capture = "assoc_type")
      (hnode : captured m capture = some node) (howner : enclosingImplType node = some type) :
      FiledUnder tree node (.owner type)

def nameKinds : List String := ["identifier", "type_identifier", "field_identifier"]

def PlainNames (tree : SyntaxTree) : Prop :=
  ∀ n ∈ tree.nodes, n.kind ∈ nameKinds →
    ':' ∉ n.text.toList

/-! ### The names of the definitions -/

variable {filePath : String} {tree : SyntaxTree}

theorem qname_member (segment container : String) :
    qname filePath segment container = filePath ++ "::" ++ (Scope.member segment container).text := by
  simp only [qname, Scope.text, String.append_assoc]

theorem enclosingDefQname_eq (node : SyntaxNode) :
    enclosingDefQname filePath node =
      (containerOf node).map fun scope => filePath ++ "::" ++ scope.text := by
  unfold enclosingDefQname containerOf
  cases enclosing ["function_item", "struct_item", "union_item", "enum_item", "trait_item"] node with
  | none => rfl
  | some item =>
    simp only [Option.bind_eq_bind, Option.bind_some]
    by_cases hfunction : item.kind = "function_item"
    · rw [if_pos hfunction, if_pos hfunction]
      cases namedChildOfKinds item ["identifier", "type_identifier"] with
      | none => rfl
      | some name =>
        simp only [Option.bind_some, Option.map_some, functionQname]
        cases enclosingImplType item with
        | none => exact congrArg some (qname_member _ _)
        | some type => exact congrArg some (qname_member _ _)
    · rw [if_neg hfunction, if_neg hfunction]
      cases namedChildOfKinds item ["type_identifier"] with
      | none => rfl
      | some name =>
        simp only [Option.bind_some]
        split
        · exact congrArg some (qname_member _ _)
        · split
          · exact congrArg some (qname_member _ _)
          · exact congrArg some (qname_member _ _)

variable {node : SyntaxNode}

theorem function_of_label (h : label node = "Method" ∨ label node = "Function") :
    ∃ p, node.parent = some p ∧ p.kind = "function_item" := by
  cases hp : node.parent with
  | none => simp [label, hp] at h
  | some p =>
    refine ⟨p, rfl, ?_⟩
    by_contra hkind
    simp only [label, hp, Option.map_some, if_neg hkind] at h
    split_ifs at h <;> simp at h

theorem owner_of_method (h : label node = "Method") :
    ∃ type, enclosingImplType node = some type := by
  obtain ⟨p, hp, hkind⟩ := function_of_label (.inl h)
  rw [label_of_function hp hkind] at h
  cases howner : enclosingImplType node with
  | none => simp [howner] at h
  | some type => exact ⟨type, rfl⟩

theorem no_owner_of_function (h : label node = "Function") : enclosingImplType node = none := by
  obtain ⟨p, hp, hkind⟩ := function_of_label (.inr h)
  rw [label_of_function hp hkind] at h
  cases howner : enclosingImplType node with
  | none => rfl
  | some type => simp [howner] at h

theorem definitionQname_of_free (h : label node ≠ "Method") :
    definitionQname filePath node = qname filePath (label node) node.text := by
  unfold definitionQname
  by_cases hfunction : label node = "Function"
  · rw [if_pos (.inr hfunction), no_owner_of_function hfunction, hfunction]
  · rw [if_neg fun hor => hor.elim h hfunction]

theorem definitionQname_of_method {type : String} (h : label node = "Method")
    (howner : enclosingImplType node = some type) :
    definitionQname filePath node = qname filePath type node.text := by
  rw [definitionQname, if_pos (.inl h), howner]

theorem definitionNode_name (h : label node ≠ "Impl") :
    definitionNode filePath ("name", node) =
      some (nodeAt filePath (label node) node.text (definitionQname filePath node)
        (node.parent.getD node)) := by
  simp [definitionNode, itemNode, h]

theorem definitionNode_var (hname : node.text ≠ "" ∧ node.text ≠ "_")
    (hfree : enclosingImplType node = none) :
    definitionNode filePath ("var", node) =
      some (nodeAt filePath "Variable" node.text (qname filePath "Variable" node.text)
        (node.parent.getD node)) := by
  simp [definitionNode, variableNode, hname.1, hname.2, hfree]

theorem definitionNode_field {scope : Scope} (hname : node.text ≠ "")
    (hcontainer : containerOf node = some scope) :
    definitionNode filePath ("field", node) =
      some (nodeAt filePath "Field" node.text (qname filePath scope.text node.text)
        (node.parent.getD node)) := by
  simp [definitionNode, fieldNode, hname, enclosingDefQname_eq, hcontainer, qname]

variable (filePath) in
theorem associatedNode_eq {m : Match} {capture type : String} {node : SyntaxNode}
    (hnode : captured m capture = some node) (howner : enclosingImplType node = some type)
    (label : String) :
    associatedNode filePath capture label m =
      some (node, nodeAt filePath label node.text (qname filePath type node.text)
        (node.parent.getD node)) := by
  simp [associatedNode, hnode, howner]

/-- Every node is a definition that is filed under a scope, and named after it. -/
theorem filedUnder_of_mem_items {node : SyntaxNode} {x : ExtractedNode}
    (hx : (node, x) ∈ items filePath tree) :
    ∃ scope, FiledUnder tree node scope ∧ x.qualifiedName = qname filePath scope.text node.text := by
  rcases List.mem_append.1 hx with hdefinition | hmember
  · obtain ⟨⟨capture, n⟩, hcapture, hnode⟩ := List.mem_filterMap.1 hdefinition
    obtain ⟨y, hy, hpair⟩ := Option.map_eq_some_iff.1 hnode
    cases hpair
    unfold definitionNode at hy
    dsimp only at hy hcapture
    split_ifs at hy with hf hv hn
    · subst hf
      unfold fieldNode at hy
      split_ifs at hy with hempty
      obtain ⟨owner, howner, rfl⟩ := Option.map_eq_some_iff.1 hy
      rw [enclosingDefQname_eq] at howner
      obtain ⟨scope, hscope, rfl⟩ := Option.map_eq_some_iff.1 howner
      exact ⟨scope, .field hcapture hempty hscope, rfl⟩
    · subst hv
      unfold variableNode at hy
      split_ifs at hy with hskip
      cases hy
      simp only [not_or, Option.not_isSome_iff_eq_none] at hskip
      exact ⟨.label "Variable", .variable hcapture ⟨hskip.1, hskip.2.1⟩ hskip.2.2, rfl⟩
    · subst hn
      unfold itemNode at hy
      split_ifs at hy with himpl
      cases hy
      by_cases hmethod : label n = "Method"
      · obtain ⟨type, howner⟩ := owner_of_method hmethod
        exact ⟨.owner type, .method hcapture hmethod howner, definitionQname_of_method hmethod howner⟩
      · exact ⟨.label (label n), .item hcapture himpl hmethod, definitionQname_of_free hmethod⟩
  · obtain ⟨m, hm, hnode⟩ := List.mem_flatMap.1 hmember
    rw [List.mem_append, List.mem_append, Option.mem_toList, Option.mem_toList,
      Option.mem_toList] at hnode
    have hassociated : ∀ capture label, capture = "assoc_const" ∨ capture = "assoc_type" →
        associatedNode filePath capture label m = some (node, x) →
        ∃ scope, FiledUnder tree node scope ∧
          x.qualifiedName = qname filePath scope.text node.text := by
      intro capture label hcapture h
      obtain ⟨n, hn, h⟩ := Option.bind_eq_some_iff.1 h
      obtain ⟨type, howner, h⟩ := Option.bind_eq_some_iff.1 h
      cases h
      exact ⟨.owner type, .associated hm hcapture hn howner, rfl⟩
    rcases hnode with (hvariant | hconst) | htype
    · obtain ⟨enum, henum, h⟩ := Option.bind_eq_some_iff.1 hvariant
      obtain ⟨n, hn, h⟩ := Option.bind_eq_some_iff.1 h
      split_ifs at h with hnames
      cases h
      exact ⟨.owner enum.text, .variant hm henum hn hnames, rfl⟩
    · exact hassociated _ _ (.inl rfl) hconst
    · exact hassociated _ _ (.inr rfl) htype

variable (filePath) in
/-- Every definition that is filed under a scope has a node that is named after it. -/
theorem exists_item_of_filedUnder {node : SyntaxNode} {scope : Scope}
    (hfiled : FiledUnder tree node scope) :
    ∃ x, (node, x) ∈ items filePath tree ∧
      x.qualifiedName = qname filePath scope.text node.text := by
  have hdefinition : ∀ {capture x}, (capture, node) ∈ tree.captures definitions →
      definitionNode filePath (capture, node) = some x → (node, x) ∈ items filePath tree := by
    intro capture x hcapture h
    refine List.mem_append_left _ (List.mem_filterMap.2 ⟨(capture, node), hcapture, ?_⟩)
    rw [h]
    rfl
  cases hfiled with
  | item h himpl hfree =>
    exact ⟨_, hdefinition h (definitionNode_name himpl), definitionQname_of_free hfree⟩
  | method h hmethod howner =>
    have himpl : label node ≠ "Impl" := by
      rw [hmethod]
      decide
    exact ⟨_, hdefinition h (definitionNode_name himpl), definitionQname_of_method hmethod howner⟩
  | «variable» h hname hfree =>
    exact ⟨_, hdefinition h (definitionNode_var hname hfree), rfl⟩
  | field h hname hcontainer =>
    exact ⟨_, hdefinition h (definitionNode_field hname hcontainer), rfl⟩
  | @variant m enum _ h henum hvariant hnames =>
    have hsome : variantNode filePath m = some (node, nodeAt filePath "EnumVariant" node.text
        (qname filePath enum.text node.text) node) := by
      simp [variantNode, henum, hvariant, hnames.1, hnames.2]
    refine ⟨_, List.mem_append_right _ (List.mem_flatMap.2 ⟨m, h, List.mem_append_left _
      (List.mem_append_left _ (Option.mem_toList.2 hsome))⟩), rfl⟩
  | @associated m _ capture type h hcapture hnode howner =>
    have hsome := associatedNode_eq filePath hnode howner
    rcases hcapture with rfl | rfl
    · exact ⟨_, List.mem_append_right _ (List.mem_flatMap.2 ⟨m, h, List.mem_append_left _
        (List.mem_append_right _ (Option.mem_toList.2 (hsome "AssocConst")))⟩), rfl⟩
    · exact ⟨_, List.mem_append_right _ (List.mem_flatMap.2 ⟨m, h, List.mem_append_right _
        (Option.mem_toList.2 (hsome "AssocType"))⟩), rfl⟩

/-! ### Plain names -/

theorem capturesOnly_named {kind nameKind capture whole name : String} (hkind : nameKind ∈ nameKinds)
    (hname : whole ≠ name) :
    CapturesOnly (named kind nameKind capture whole) name fun n => n.kind ∈ nameKinds := by
  refine capturesOnly_pattern (fun h => absurd (Option.some.inj h) hname) ?_
  rintro child hchild
  rw [List.mem_singleton.1 hchild]
  refine capturesOnly_pattern (fun _ n hn => ?_) fun _ h => by cases h
  rcases hn.2 with hnil | hmem
  · cases hnil
  · rw [List.mem_singleton.1 hmem]
    exact hkind

theorem capturesOnly_leaf {kinds : List String} {capture : Option String} {name : String}
    (hkinds : capture = some name → kinds ≠ [] ∧ ∀ kind ∈ kinds, kind ∈ nameKinds) :
    CapturesOnly (pattern kinds capture []) name fun n => n.kind ∈ nameKinds := by
  refine capturesOnly_pattern (fun h n hn => ?_) fun _ h => by cases h
  rcases hn.2 with hnil | hmem
  · exact absurd hnil (hkinds h).1
  · exact (hkinds h).2 _ hmem

theorem definitions_capture {name : String} (hname : name ∈ ["name", "var", "field"]) :
    ∀ p ∈ definitions, CapturesOnly p name fun n => n.kind ∈ nameKinds := by
  have hwhole : ∀ whole ∈ ["def", "var_item", "field_decl"], whole ≠ name := by
    rintro whole hwhole rfl
    revert hwhole hname
    simp only [List.mem_cons, List.not_mem_nil, or_false]
    rintro (rfl | rfl | rfl) <;> decide
  have hdef := hwhole "def" (by decide)
  have hitem := hwhole "var_item" (by decide)
  intro p hp
  simp only [definitions, List.mem_cons, List.not_mem_nil, or_false] at hp
  rcases hp with rfl | rfl | rfl | rfl | rfl | rfl | rfl | rfl | rfl | rfl
  · exact capturesOnly_named (by decide) hdef
  · exact capturesOnly_named (by decide) hdef
  · exact capturesOnly_named (by decide) hdef
  · exact capturesOnly_named (by decide) hdef
  · exact capturesOnly_named (by decide) hdef
  · refine capturesOnly_pattern (fun h => absurd (Option.some.inj h) hdef) ?_
    rintro child hchild
    rw [List.mem_singleton.1 hchild]
    exact capturesOnly_leaf fun _ => ⟨by decide, by decide⟩
  · exact capturesOnly_named (by decide) hdef
  · refine capturesOnly_pattern
      (fun h => absurd (Option.some.inj h) (hwhole "field_decl" (by decide))) ?_
    rintro child hchild
    rcases List.mem_cons.1 hchild with rfl | htype
    · exact capturesOnly_leaf fun _ => ⟨by decide, by decide⟩
    · rw [List.mem_singleton.1 htype]
      exact capturesOnly_leaf fun h => by cases h
  · exact capturesOnly_named (by decide) hitem
  · exact capturesOnly_named (by decide) hitem

theorem inheritance_capture {name : String}
    (hname : name ∈ ["enum_variant", "assoc_const", "assoc_type"]) :
    ∀ p ∈ inheritance, CapturesOnly p name fun n => n.kind ∈ nameKinds := by
  have hother : ∀ other ∈ ["impl_trait", "trait_name", "impl_type", "assoc_const_item",
      "assoc_type_item"], other ≠ name := by
    rintro other hother rfl
    revert hother hname
    simp only [List.mem_cons, List.not_mem_nil, or_false]
    rintro (rfl | rfl | rfl | rfl | rfl) <;> decide
  intro p hp
  simp only [inheritance, List.mem_cons, List.not_mem_nil, or_false] at hp
  rcases hp with rfl | rfl | rfl | rfl | rfl
  · refine capturesOnly_pattern
      (fun h => absurd (Option.some.inj h) (hother "impl_trait" (by decide))) ?_
    rintro child hchild
    rcases List.mem_cons.1 hchild with rfl | htype
    · exact capturesOnly_leaf fun h => absurd (Option.some.inj h) (hother "trait_name" (by decide))
    · rw [List.mem_singleton.1 htype]
      exact capturesOnly_leaf fun h => absurd (Option.some.inj h) (hother "impl_type" (by decide))
  · refine capturesOnly_pattern (fun h => by cases h) ?_
    rintro child hchild
    rcases List.mem_cons.1 hchild with rfl | hbody
    · exact capturesOnly_leaf fun _ => ⟨by decide, by decide⟩
    · rw [List.mem_singleton.1 hbody]
      refine capturesOnly_pattern (fun h => by cases h) fun child hchild => ?_
      rw [List.mem_singleton.1 hchild]
      refine capturesOnly_pattern (fun h => by cases h) fun child hchild => ?_
      rw [List.mem_singleton.1 hchild]
      exact capturesOnly_leaf fun _ => ⟨by decide, by decide⟩
  · exact capturesOnly_named (by decide) (hother "assoc_const_item" (by decide))
  · exact capturesOnly_named (by decide) (hother "assoc_type_item" (by decide))
  · exact capturesOnly_named (by decide) (hother "assoc_type_item" (by decide))

theorem mem_of_captured {m : Match} {name : String} {node : SyntaxNode}
    (h : captured m name = some node) : (name, node) ∈ m := by
  obtain ⟨⟨found, n⟩, hfind, rfl⟩ := Option.map_eq_some_iff.1 h
  have hname := List.find?_some hfind
  have hfound : found = name := eq_of_beq hname
  subst hfound
  exact List.mem_of_find?_eq_some hfind

theorem FiledUnder.plain {node : SyntaxNode} {scope : Scope} (h : FiledUnder tree node scope)
    (hplain : PlainNames tree) : ':' ∉ node.text.toList := by
  have hkind : node ∈ tree.nodes ∧ node.kind ∈ nameKinds := by
    cases h with
    | item h => exact SyntaxTree.of_mem_captures (definitions_capture (by decide)) h
    | method h => exact SyntaxTree.of_mem_captures (definitions_capture (by decide)) h
    | «variable» h => exact SyntaxTree.of_mem_captures (definitions_capture (by decide)) h
    | field h => exact SyntaxTree.of_mem_captures (definitions_capture (by decide)) h
    | «variant» h _ hvariant =>
      exact SyntaxTree.of_mem_matches (inheritance_capture (by decide)) h (mem_of_captured hvariant)
    | associated h hcapture hnode =>
      rcases hcapture with rfl | rfl
      · exact SyntaxTree.of_mem_matches (inheritance_capture (by decide)) h (mem_of_captured hnode)
      · exact SyntaxTree.of_mem_matches (inheritance_capture (by decide)) h (mem_of_captured hnode)
  exact hplain node hkind.1 hkind.2

/-- Different definitions of the file have different qualified names. -/
def DefinitionsDiffer (filePath : String) (tree : SyntaxTree) : Prop :=
  ∀ a ∈ items filePath tree, ∀ b ∈ items filePath tree, a.1.path ≠ b.1.path →
    a.2.qualifiedName ≠ b.2.qualifiedName

/-- **Definitions get different names exactly when no two of the same name are filed under the same
segment.** -/
theorem definitionsDiffer_iff (filePath : String) (tree : SyntaxTree) (hplain : PlainNames tree) :
    DefinitionsDiffer filePath tree ↔
      ∀ n n' scope scope', FiledUnder tree n scope → FiledUnder tree n' scope' → n.path ≠ n'.path →
        n.text = n'.text → scope.text ≠ scope'.text := by
  constructor
  · intro h n n' scope scope' hn hn' hpath htext hscope
    obtain ⟨x, hx, hxname⟩ := exists_item_of_filedUnder filePath hn
    obtain ⟨y, hy, hyname⟩ := exists_item_of_filedUnder filePath hn'
    refine h (n, x) hx (n', y) hy hpath ?_
    rw [hxname, hyname, hscope, htext]
  · intro h a ha b hb hpath hname
    obtain ⟨scope, hscope, haname⟩ := filedUnder_of_mem_items ha
    obtain ⟨scope', hscope', hbname⟩ := filedUnder_of_mem_items hb
    rw [haname, hbname, qname_inj (hscope.plain hplain) (hscope'.plain hplain)] at hname
    exact h a.1 b.1 scope scope' hscope hscope' hpath hname.2 hname.1

/-! ### Legal files -/

instance (filePath : String) (tree : SyntaxTree) : Decidable (DefinitionsDiffer filePath tree) :=
  inferInstanceAs (Decidable (∀ a ∈ _, ∀ b ∈ _, _))

instance (tree : SyntaxTree) : Decidable (PlainNames tree) :=
  inferInstanceAs (Decidable (∀ n ∈ _, _))

/-- No two definitions in one scope have the same name: they are not children of the same body. -/
def ScopesDiffer (filePath : String) (tree : SyntaxTree) : Prop :=
  ∀ a ∈ items filePath tree, ∀ b ∈ items filePath tree, a.1.path ≠ b.1.path →
    a.1.path.drop 2 = b.1.path.drop 2 → a.2.name ≠ b.2.name

instance (filePath : String) (tree : SyntaxTree) : Decidable (ScopesDiffer filePath tree) :=
  inferInstanceAs (Decidable (∀ a ∈ _, ∀ b ∈ _, _))

/-- `fn name ( ) { }`. -/
def functionItem (name : String) : Grown :=
  group "function_item" [("", sign "fn"), ("name", word "identifier" name),
    ("parameters", group "parameters" [("", sign "("), ("", sign ")")]),
    ("body", group "block" [("", sign "\x7b"), ("", sign "\x7d")])]

def declarationList (items : List Grown) : Grown :=
  group "declaration_list" ([("", sign "\x7b")] ++ items.map (("", ·)) ++ [("", sign "\x7d")])

/-- `impl Trait for Type { fn name ( ) { } }`. -/
def implItem (trait type name : String) : Grown :=
  group "impl_item" [("", sign "impl"), ("trait", word "type_identifier" trait), ("", sign "for"),
    ("type", word "type_identifier" type), ("body", declarationList [functionItem name])]

/-- `struct Name ;`. -/
def structItem (name : String) : Grown :=
  group "struct_item" [("", sign "struct"), ("name", word "type_identifier" name), ("", sign ";")]

/-- `mod name { fn f ( ) { } }`. -/
def modItem (name : String) : Grown :=
  group "mod_item" [("", sign "mod"), ("name", word "identifier" name),
    ("body", declarationList [functionItem "f"])]

/-- `Name { field : u8 }`. -/
def enumVariant (name field : String) : Grown :=
  group "enum_variant" [("name", word "identifier" name),
    ("body", group "field_declaration_list" [("", sign "\x7b"),
      ("", group "field_declaration" [("name", word "field_identifier" field), ("", sign ":"),
        ("type", word "primitive_type" "u8")]), ("", sign "\x7d")])]

def sourceFile (items : List Grown) : SyntaxTree :=
  (group "source_file" (items.map (("", ·)))).tree

/-- `struct T ; impl A for T { fn f ( ) { } } impl B for T { fn f ( ) { } }`. -/
def twoImpls : SyntaxTree := sourceFile [structItem "T", implItem "A" "T" "f", implItem "B" "T" "f"]

/-- `mod a { fn f ( ) { } } mod b { fn f ( ) { } }`. -/
def twoModules : SyntaxTree := sourceFile [modItem "a", modItem "b"]

/-- `enum E { A { x : u8 } , B { x : u8 } }`. -/
def twoVariants : SyntaxTree := sourceFile [
  group "enum_item" [("", sign "enum"), ("name", word "type_identifier" "E"),
    ("body", group "enum_variant_list" [("", sign "\x7b"), ("", enumVariant "A" "x"), ("", sign ","),
      ("", enumVariant "B" "x"), ("", sign "\x7d")])]]

/-- In legal files the methods of two trait impls of one type, the functions of two modules, and the
fields of two variants of an enum get the same names. -/
theorem legal_collisions :
    (ScopesDiffer "lib.rs" twoImpls ∧ ¬ DefinitionsDiffer "lib.rs" twoImpls) ∧
      (ScopesDiffer "lib.rs" twoModules ∧ ¬ DefinitionsDiffer "lib.rs" twoModules) ∧
      ScopesDiffer "lib.rs" twoVariants ∧ ¬ DefinitionsDiffer "lib.rs" twoVariants := by
  refine ⟨⟨?_, ?_⟩, ⟨?_, ?_⟩, ?_, ?_⟩ <;> decide +kernel

/-- `struct T ; impl A for T { fn f ( ) { } }`. -/
def oneImpl : SyntaxTree := sourceFile [structItem "T", implItem "A" "T" "f"]

/-- A file whose definitions differ. -/
theorem definitionsDiffer_oneImpl :
    DefinitionsDiffer "lib.rs" oneImpl ∧
      ∀ n n' scope scope', FiledUnder oneImpl n scope → FiledUnder oneImpl n' scope' →
        n.path ≠ n'.path → n.text = n'.text → scope.text ≠ scope'.text :=
  ⟨by decide +kernel, (definitionsDiffer_iff "lib.rs" oneImpl (by decide +kernel)).1 (by decide +kernel)⟩

end Rust

end Extract
