/-
**The sources of the edges of Python, Ruby, JavaScript and TypeScript files.**

The walks of these languages are written apart from the engine, and they agree with it only in part.
For Python and Ruby a function that is nested in a method is free, for the engine it is owned by the
class all the same.  In JavaScript and TypeScript a function expression is called by its own name, and
the engine knows it by the name it is bound to, or not at all.
-/

import Greppy.ScriptExtract

set_option autoImplicit false

namespace Extract

/-! ### Sources -/

/-- The node that defines a function: the function, or the declarator that it is bound by. -/
def Defines (d f : SyntaxNode) : Prop :=
  d = f ∨ (f.parent = some d ∧ d.kind = "variable_declarator")

instance (d f : SyntaxNode) : Decidable (Defines d f) := inferInstanceAs (Decidable (_ ∨ (_ ∧ _)))

/-- An edge has for its source the name that the definition pass gave to the function, or the file
where there is no function. -/
def Sourced (definitions : List (SyntaxNode × ExtractedNode)) (filePath : String)
    (function : Option SyntaxNode) (edge : ExtractedEdge) : Prop :=
  match function with
  | none => edge.sourceQualifiedName = fileQname filePath
  | some f => ∃ d ∈ definitions, Defines d.1 f ∧ edge.sourceQualifiedName = d.2.qualifiedName

instance (definitions : List (SyntaxNode × ExtractedNode)) (filePath : String)
    (function : Option SyntaxNode) (edge : ExtractedEdge) :
    Decidable (Sourced definitions filePath function edge) :=
  match function with
  | none => inferInstanceAs (Decidable (_ = _))
  | some _ => inferInstanceAs (Decidable (∃ d ∈ definitions, _))

variable {filePath : String} {tree : SyntaxTree}

theorem qname_segment_inj {segment segment' name : String} :
    qname filePath segment name = qname filePath segment' name ↔ segment = segment' := by
  constructor
  · intro h
    have hlist := congrArg String.toList h
    simp only [qname, String.toList_append, List.append_assoc] at hlist
    have hcut := List.append_cancel_left (List.append_cancel_left hlist)
    rw [← List.append_assoc, ← List.append_assoc] at hcut
    exact String.toList_inj.1 (List.append_cancel_right (List.append_cancel_right hcut))
  · rintro rfl
    rfl

theorem qname_name_inj {segment name name' : String} :
    qname filePath segment name = qname filePath segment name' ↔ name = name' := by
  constructor
  · intro h
    have hlist := congrArg String.toList h
    simp only [qname, String.toList_append, List.append_assoc] at hlist
    have hcut := List.append_cancel_left (List.append_cancel_left hlist)
    exact String.toList_inj.1 (List.append_cancel_left (List.append_cancel_left hcut))
  · rintro rfl
    rfl

/-- A free function is not named like the function of a class without a name. -/
theorem qname_function_ne {name name' : String} :
    qname filePath "Function" name ≠ qname filePath "" name' := by
  intro h
  have hlist := congrArg String.toList h
  simp only [qname, String.toList_append, List.append_assoc] at hlist
  have hcut := List.append_cancel_left (List.append_cancel_left hlist)
  have hfunction : "Function".toList = ['F', 'u', 'n', 'c', 't', 'i', 'o', 'n'] := by decide
  have hcolons : "::".toList = [':', ':'] := by decide
  rw [hfunction, hcolons] at hcut
  simp at hcut

/-! ### What a query for names captures -/

def NameRule.Names (r : NameRule) (d x : SyntaxNode) : Prop :=
  IsOf [r.kind] d ∧ IsOf r.nameKinds x ∧
    if r.values = [] then (some "name", x) ∈ d.fieldChildren
    else ∃ v, IsOf r.values v ∧ [(some "name", x), (some "value", v)].Sublist d.fieldChildren

namespace NameRule

variable {r : NameRule} {d x : SyntaxNode}

theorem Names.mem_fieldChildren (h : r.Names d x) : (some "name", x) ∈ d.fieldChildren := by
  obtain ⟨_, _, h⟩ := h
  split_ifs at h
  · exact h
  · obtain ⟨v, _, hsub⟩ := h
    exact hsub.subset List.mem_cons_self

theorem Names.kind (h : r.Names d x) : d.kind = r.kind := by
  rcases h.1.2 with hnil | hmem
  · cases hnil
  · exact List.mem_singleton.1 hmem

theorem mem_toPattern : (∃ m ∈ r.toPattern d, ("name", x) ∈ m) ↔ r.Names d x := by
  have hname : ∀ m c, m ∈ pattern r.nameKinds (some "name") [] c ↔
      IsOf r.nameKinds c ∧ m = [("name", c)] := fun m c => mem_pattern_nil
  have hvalue : ∀ m c, m ∈ pattern r.values none [] c ↔ IsOf r.values c ∧ m = [] :=
    fun m c => mem_pattern_nil
  unfold toPattern others Names
  by_cases hvalues : r.values = []
  · simp only [if_pos hvalues, mem_pattern_one, hname]
    constructor
    · rintro ⟨_, ⟨hkind, ⟨field, c⟩, hc, hfield, _, ⟨hnameKind, rfl⟩, rfl⟩, hx⟩
      have heq : x = c := by simpa using hx
      subst heq
      refine ⟨hkind, hnameKind, ?_⟩
      rcases hfield with hnone | rfl
      · cases hnone
      · exact hc
    · rintro ⟨hkind, hnameKind, hx⟩
      exact ⟨_, ⟨hkind, _, hx, .inr rfl, _, ⟨hnameKind, rfl⟩, rfl⟩, by simp⟩
  · simp only [if_neg hvalues, mem_pattern, mem_matchChildren_two, hname, hvalue]
    constructor
    · rintro ⟨_, ⟨hkind, _, ⟨⟨field, c⟩, ⟨field', v⟩, hsub, hfield, hfield', _, ⟨hnameKind, rfl⟩, _,
        ⟨hvalueKind, rfl⟩, rfl⟩, rfl⟩, hx⟩
      have heq : x = c := by simpa using hx
      subst heq
      refine ⟨hkind, hnameKind, v, hvalueKind, ?_⟩
      rcases hfield with hnone | rfl
      · cases hnone
      · rcases hfield' with hnone | rfl
        · cases hnone
        · exact hsub
    · rintro ⟨hkind, hnameKind, v, hvalueKind, hsub⟩
      exact ⟨_, ⟨hkind, _, ⟨_, _, hsub, .inr rfl, .inr rfl, _, ⟨hnameKind, rfl⟩, _, ⟨hvalueKind, rfl⟩,
        rfl⟩, rfl⟩, by simp⟩

end NameRule

variable {rules : List NameRule} {spec : LangSpec} {d f n owned : SyntaxNode} {edge : ExtractedEdge}

theorem mem_capturedAs_nameQuery {x : SyntaxNode} :
    x ∈ tree.capturedAs (nameQuery rules) "name" ↔
      ∃ d ∈ tree.nodes, ∃ r ∈ rules, r.Names d x := by
  simp only [SyntaxTree.mem_capturedAs, SyntaxTree.mem_captures, SyntaxTree.mem_matches, nameQuery,
    List.mem_map]
  constructor
  · rintro ⟨m, ⟨d, hd, _, ⟨r, hr, rfl⟩, hm⟩, hx⟩
    exact ⟨d, hd, r, hr, NameRule.mem_toPattern.1 ⟨m, hm, hx⟩⟩
  · rintro ⟨d, hd, r, hr, hnames⟩
    obtain ⟨m, hm, hx⟩ := NameRule.mem_toPattern.2 hnames
    exact ⟨m, ⟨d, hd, _, ⟨r, hr, rfl⟩, hm⟩, hx⟩

/-- A description whose definitions are captured by their names, and whose labels are not adjusted. -/
structure Plain (spec : LangSpec) : Prop where
  capture : spec.name = .capture
  labels : ∀ rule ∈ spec.defs, rule.nodeKind ≠ "type_spec"

/-- **The definitions that the engine finds through a query for names.** -/
theorem mem_specDefinitions (hplain : Plain spec) {e : ExtractedNode} :
    (d, e) ∈ specDefinitions spec (nameQuery rules) filePath tree ↔
      d ∈ tree.nodes ∧ ∃ r ∈ rules, ∃ x, r.Names d x ∧ ∃ rule, ruleFor spec d.kind = some rule ∧
        e = nodeAt filePath (defLabelAndQname spec rule d x.text filePath).1 x.text
          (defLabelAndQname spec rule d x.text filePath).2 d := by
  have hwanted : wantedCapture spec = "name" := by rw [wantedCapture, hplain.capture]
  have hone : ∀ x : SyntaxNode, x.parent = some d →
      (specDefinition spec filePath x = some (d, e) ↔ ∃ rule, ruleFor spec d.kind = some rule ∧
        e = nodeAt filePath (defLabelAndQname spec rule d x.text filePath).1 x.text
          (defLabelAndQname spec rule d x.text filePath).2 d) := by
    intro x hparent
    have hpair : defNodeAndName spec x = some (d, x.text) := by
      rw [defNodeAndName, hplain.capture, hparent]
      rfl
    cases hrule : ruleFor spec d.kind with
    | none => simp [specDefinition, hpair, hrule]
    | some rule =>
      obtain ⟨hmem, hkind⟩ := ruleFor_eq_some hrule
      have hadjusted : adjustedRule rule d = none := by
        rw [adjustedRule, if_neg (hkind ▸ hplain.labels rule hmem)]
      simp [specDefinition, hpair, hrule, hadjusted, eq_comm]
  rw [specDefinitions, List.mem_filterMap, hwanted]
  constructor
  · rintro ⟨x, hx, hdef⟩
    obtain ⟨p, hp, r, hr, hnames⟩ := mem_capturedAs_nameQuery.1 hx
    have hparent := SyntaxNode.parent_of_mem_fieldChildren hnames.mem_fieldChildren
    -- The definition is the parent of the captured name.
    have hpd : p = d := by
      obtain ⟨⟨found, name⟩, hpair, hrest⟩ := Option.bind_eq_some_iff.1 hdef
      rw [defNodeAndName, hplain.capture, hparent] at hpair
      cases hpair
      obtain ⟨rule, _, hrest⟩ := Option.bind_eq_some_iff.1 hrest
      cases hrest
      rfl
    subst hpd
    exact ⟨hp, r, hr, x, hnames, (hone x hparent).1 hdef⟩
  · rintro ⟨hd, r, hr, x, hnames, hrule⟩
    have hparent := SyntaxNode.parent_of_mem_fieldChildren hnames.mem_fieldChildren
    exact ⟨x, mem_capturedAs_nameQuery.2 ⟨d, hd, r, hr, hnames⟩, (hone x hparent).2 hrule⟩

theorem sourced_some (hplain : Plain spec) :
    Sourced (specDefinitions spec (nameQuery rules) filePath tree) filePath (some f) edge ↔
      ∃ d ∈ tree.nodes, Defines d f ∧ ∃ r ∈ rules, ∃ x, r.Names d x ∧
        ∃ rule, ruleFor spec d.kind = some rule ∧
          edge.sourceQualifiedName = (defLabelAndQname spec rule d x.text filePath).2 := by
  constructor
  · rintro ⟨⟨d, e⟩, hmem, hdefines, hsource⟩
    obtain ⟨hd, r, hr, x, hnames, rule, hrule, rfl⟩ := (mem_specDefinitions hplain).1 hmem
    exact ⟨d, hd, hdefines, r, hr, x, hnames, rule, hrule, hsource⟩
  · rintro ⟨d, hd, hdefines, r, hr, x, hnames, rule, hrule, hsource⟩
    exact ⟨(d, _), (mem_specDefinitions hplain).2 ⟨hd, r, hr, x, hnames, rule, hrule, rfl⟩, hdefines,
      hsource⟩

/-! ### Functions that classes own -/

/-- The grammar of a language: its functions are named by a child of some kind. -/
def FunctionsNamed (functions nameKinds : List String) (tree : SyntaxTree) : Prop :=
  ∀ f ∈ tree.nodes, f.kind ∈ functions → f.isNamed = true ∧
    ∃ c ∈ f.fieldChildren, c.1 = some "name" ∧ IsOf nameKinds c.2 ∧
      ∀ other ∈ f.fieldChildren, other.1 = some "name" → other.2 = c.2

instance (functions nameKinds : List String) (tree : SyntaxTree) :
    Decidable (FunctionsNamed functions nameKinds tree) :=
  inferInstanceAs (Decidable (∀ f ∈ tree.nodes, _ → _ ∧ ∃ c ∈ f.fieldChildren, _))

theorem FunctionsNamed.name {functions nameKinds : List String}
    (h : FunctionsNamed functions nameKinds tree) {f : SyntaxNode} (hf : f ∈ tree.nodes)
    (hkind : f.kind ∈ functions) :
    f.isNamed = true ∧ ∃ c, (some "name", c) ∈ f.fieldChildren ∧ IsOf nameKinds c ∧
      ∀ x, (some "name", x) ∈ f.fieldChildren → x = c := by
  obtain ⟨hnamed, ⟨field, c⟩, hc, rfl, hcKind, hunique⟩ := h f hf hkind
  exact ⟨hnamed, c, hc, hcKind, fun x hx => hunique _ hx rfl⟩

/-- The walk sees the owner that the engine sees: no other function stands between a function and a
class around it, unless that class has no name, or the name of a free function. -/
def OwnedAlike (functions classes : List String) (f : SyntaxNode) : Prop :=
  ∀ scope, enclosing (classes ++ functions) f = some scope → scope.kind ∈ functions →
    ∀ owner, enclosingOwnerName f classes = some owner → owner = "Function"

/-- A language whose functions are owned by classes, as the engine describes it. -/
structure Owned (spec : LangSpec) (rules : List NameRule) (functions classes nameKinds : List String) :
    Prop where
  plain : Plain spec
  method : ∀ kind ∈ functions, ruleFor spec kind = some (DefRule.method kind)
  named : ∀ kind ∈ functions, ⟨kind, nameKinds, []⟩ ∈ rules
  owners : spec.ownerKinds = classes
  apart : ∀ kind ∈ functions, kind ∉ classes
  unbound : ruleFor spec "variable_declarator" = none

variable {kinds others functions classes : List String} {a : SyntaxNode}
  {u : SyntaxNode × ExtractedEdge}

/-- The nearest node of some kinds is the nearest of fewer kinds, if it is of one of them. -/
theorem enclosing_of_append (h : enclosing (kinds ++ others) n = some a) (hkind : a.kind ∈ kinds) :
    enclosing kinds n = some a := by
  unfold enclosing at h ⊢
  rw [List.find?_eq_some_iff_append] at h ⊢
  obtain ⟨_, before, after, heq, hbefore⟩ := h
  refine ⟨List.contains_iff_mem.2 hkind, before, after, heq, fun b hb => ?_⟩
  have hnot := hbefore b hb
  simp only [Bool.not_eq_true', List.contains_eq_mem, decide_eq_false_iff_not, List.mem_append,
    not_or] at hnot ⊢
  exact hnot.1

theorem enclosing_none_of_append (h : enclosing (kinds ++ others) n = none) :
    enclosing kinds n = none := by
  unfold enclosing at h ⊢
  rw [List.find?_eq_none] at h ⊢
  intro b hb hkind
  refine h b hb (List.contains_iff_mem.2 ?_)
  exact List.mem_append_left _ (List.contains_iff_mem.1 hkind)

/-- The walk and the engine take the same segment exactly when they see the same owner. -/
theorem nearestOwner_iff (hapart : ∀ kind ∈ functions, kind ∉ classes) (f : SyntaxNode) :
    (nearestOwner functions classes f).getD "Function" =
        (enclosingOwnerName f classes).getD "Function" ↔
      OwnedAlike functions classes f := by
  unfold OwnedAlike nearestOwner
  cases hscope : enclosing (classes ++ functions) f with
  | none =>
    have hnone := enclosing_none_of_append hscope
    simp [enclosingOwnerName, hnone]
  | some scope =>
    simp only [Option.bind_eq_bind, Option.bind_some]
    by_cases hclass : scope.kind ∈ classes
    · -- The nearest scope is a class, which is what the engine finds.
      rw [if_pos (List.contains_iff_mem.2 hclass)]
      have hsame := enclosing_of_append hscope hclass
      constructor
      · rintro _ found hfound hfunction
        cases hfound
        exact absurd hclass (hapart _ hfunction)
      · intro _
        simp [enclosingOwnerName, hsame]
    · -- The nearest scope is a function, and the walk stops.
      rw [if_neg fun h => hclass (List.contains_iff_mem.1 h), Option.getD_none]
      have hfunction : scope.kind ∈ functions :=
        (List.mem_append.1 (kind_of_enclosing hscope)).resolve_left hclass
      constructor
      · rintro hsegment found hfound _ owner howner
        rw [howner, Option.getD_some] at hsegment
        exact hsegment.symm
      · intro h
        cases howner : enclosingOwnerName f classes with
        | none => rfl
        | some owner => rw [Option.getD_some, h scope rfl hfunction owner howner]

/-- **An edge comes from the definition of the function around it exactly when the walk and the engine
see the same owner.** -/
theorem owned_sourced {nameKinds : List String} (h : Owned spec rules functions classes nameKinds)
    (hnamed : FunctionsNamed functions nameKinds tree) {node : SyntaxNode}
    (hnode : node ∈ tree.nodes)
    (hedge : edge.sourceQualifiedName =
      (enclosingOwnedQname functions classes filePath node).getD (fileQname filePath)) :
    Sourced (specDefinitions spec (nameQuery rules) filePath tree) filePath
        (enclosing functions node) edge ↔
      ∀ f, enclosing functions node = some f → OwnedAlike functions classes f := by
  rw [enclosingOwnedQname] at hedge
  cases hf : enclosing functions node with
  | none =>
    rw [hf] at hedge
    simp [Sourced, hedge]
  | some f =>
    have hmem := enclosing_mem_nodes hnode hf
    have hkind := kind_of_enclosing hf
    obtain ⟨hfNamed, c, hc, hcKind, hunique⟩ := hnamed.name hmem hkind
    -- Both find the same name.
    have hname := SyntaxNode.childByFieldName_of_unique hc hunique
    rw [hf] at hedge
    simp only [Option.bind_eq_bind, Option.bind_some, hname, Option.getD_some] at hedge
    have hengine : ∀ x, (some "name", x) ∈ f.fieldChildren →
        (defLabelAndQname spec (DefRule.method f.kind) f x.text filePath).2 =
          qname filePath ((enclosingOwnerName f classes).getD "Function") c.text := by
      intro x hx
      rw [hunique x hx]
      simp only [defLabelAndQname, ownerOf, DefRule.method, h.owners]
      cases enclosingOwnerName f classes <;> rfl
    have hsource : Sourced (specDefinitions spec (nameQuery rules) filePath tree) filePath (some f)
        edge ↔ edge.sourceQualifiedName =
          qname filePath ((enclosingOwnerName f classes).getD "Function") c.text := by
      rw [sourced_some h.plain]
      constructor
      · rintro ⟨d, _, hdefines, r, hr, x, hnames, rule, hrule, hsource⟩
        rcases hdefines with rfl | ⟨_, hdeclarator⟩
        · rw [h.method _ hkind] at hrule
          cases hrule
          rw [hsource, hengine x hnames.mem_fieldChildren]
        · rw [hdeclarator, h.unbound] at hrule
          cases hrule
      · intro hsource
        refine ⟨f, hmem, .inl rfl, _, h.named _ hkind, c, ⟨⟨hfNamed, .inr ?_⟩, hcKind, hc⟩, _,
          h.method _ hkind, ?_⟩
        · exact List.mem_singleton.2 rfl
        · rw [hsource, hengine c hc]
    rw [hsource, hedge, qname_segment_inj, nearestOwner_iff h.apart]
    constructor
    · rintro halike found hfound
      cases hfound
      exact halike
    · intro halike
      exact halike f rfl

theorem python_owned : Owned python pythonDefinitions ["function_definition"] ["class_definition"]
    ["identifier"] where
  plain := ⟨rfl, by decide⟩
  method := by decide
  named := by decide
  owners := rfl
  apart := by decide
  unbound := by decide

theorem ruby_owned : Owned ruby rubyDefinitions ["method", "singleton_method"] ["class", "module"]
    [] where
  plain := ⟨rfl, by decide⟩
  method := by decide
  named := by decide
  owners := rfl
  apart := by decide
  unbound := by decide

theorem pythonUsages_sourced (hnamed : FunctionsNamed ["function_definition"] ["identifier"] tree)
    (hu : u ∈ pythonUsages filePath tree) :
    Sourced (specDefinitions python (nameQuery pythonDefinitions) filePath tree) filePath
        (enclosing ["function_definition"] u.1) u.2 ↔
      ∀ f, enclosing ["function_definition"] u.1 = some f →
        OwnedAlike ["function_definition"] ["class_definition"] f := by
  obtain ⟨node, hnode, rfl⟩ := List.mem_map.1 hu
  exact owned_sourced python_owned hnamed
    (SyntaxTree.mem_nodes_of_namedNodes (List.mem_of_mem_filter hnode)) rfl

theorem rubyUsages_sourced (hnamed : FunctionsNamed ["method", "singleton_method"] [] tree)
    (hu : u ∈ rubyUsages filePath tree) :
    Sourced (specDefinitions ruby (nameQuery rubyDefinitions) filePath tree) filePath
        (enclosing ["method", "singleton_method"] u.1) u.2 ↔
      ∀ f, enclosing ["method", "singleton_method"] u.1 = some f →
        OwnedAlike ["method", "singleton_method"] ["class", "module"] f := by
  obtain ⟨node, hnode, rfl⟩ := List.mem_map.1 hu
  exact owned_sourced ruby_owned hnamed
    (SyntaxTree.mem_nodes_of_namedNodes (List.mem_of_mem_filter hnode)) rfl

/-! ### Functions with two names -/

/-- A function with a name, of its own or by its binding. -/
def isJsTsNamed (f : SyntaxNode) : Bool := jsTsFuncKinds.contains f.kind && (jsTsFuncName f).isSome

/-- The innermost function with a name around a node. -/
def jsTsEnclosing (node : SyntaxNode) : Option SyntaxNode := node.ancestors.find? isJsTsNamed

/-- There is one name and one value in a place. -/
def OneChild (tree : SyntaxTree) : Prop :=
  ∀ p ∈ tree.nodes, p.kind ∈ ["method_definition", "variable_declarator"] →
    ∀ a ∈ p.fieldChildren, ∀ b ∈ p.fieldChildren, a.1 ∈ [some "name", some "value"] → a.1 = b.1 →
      a.2 = b.2

instance (tree : SyntaxTree) : Decidable (OneChild tree) :=
  inferInstanceAs (Decidable (∀ p ∈ tree.nodes, _))

/-- A function under a declarator is its value, and stands after the name. -/
def ValueAfterName (tree : SyntaxTree) : Prop :=
  ∀ f ∈ tree.nodes, f.kind ∈ jsTsFuncKinds → ∀ d ∈ f.parent, d.kind = "variable_declarator" →
    ∃ n ∈ d.children, [(some "name", n), (some "value", f)].Sublist d.fieldChildren

instance (tree : SyntaxTree) : Decidable (ValueAfterName tree) :=
  inferInstanceAs (Decidable (∀ f ∈ tree.nodes, _))

/-- The grammar of JavaScript and TypeScript. -/
structure JsTsNamed (tree : SyntaxTree) : Prop where
  declarations : FunctionsNamed ["function_declaration"] ["identifier"] tree
  named : ∀ n ∈ tree.nodes, n.kind ∈ ["method_definition", "variable_declarator", "arrow_function",
    "function_expression", "identifier", "property_identifier"] → n.isNamed = true
  one : OneChild tree
  bound : ValueAfterName tree

/-- The class around a function is not one with an empty name. -/
def ClassNamed (f : SyntaxNode) : Prop := enclosingOwnerName f jsTsClassKinds ≠ some ""

/-- The engine defines the function, and by the name that the walk calls it: it is a function
declaration, a method with a plain name, or a function expression that is bound to an identifier and
has no other name of its own. -/
def NamedAlike (f : SyntaxNode) : Prop :=
  f.kind = "function_declaration" ∨
  (f.kind = "method_definition" ∧
    (∃ n, f.childByFieldName "name" = some n ∧ n.kind = "property_identifier") ∧ ClassNamed f) ∨
  (f.kind ∈ ["arrow_function", "function_expression"] ∧
    (∃ d n, f.parent = some d ∧ d.kind = "variable_declarator" ∧ d.childByFieldName "name" = some n ∧
      n.kind = "identifier" ∧
      ∀ own, f.childByFieldName "name" = some own → own.text ≠ "" → own.text = n.text) ∧
    ClassNamed f)

theorem jsTsBoundName_eq_some {name : String} :
    jsTsBoundName f = some (name, d) ↔
      f.kind ∈ ["arrow_function", "function_expression"] ∧ f.parent = some d ∧
        d.kind = "variable_declarator" ∧ ∃ n, d.childByFieldName "name" = some n ∧
          n.kind = "identifier" ∧ n.text ≠ "" ∧ n.text = name := by
  unfold jsTsBoundName
  constructor
  · intro h
    obtain ⟨parent, hparent, h⟩ := Option.bind_eq_some_iff.1 h
    split_ifs at h with hkinds
    obtain ⟨n, hn, h⟩ := Option.bind_eq_some_iff.1 h
    split_ifs at h with hname
    cases h
    exact ⟨List.contains_iff_mem.1 hkinds.1, hparent, hkinds.2, n, hn, hname.1, hname.2, rfl⟩
  · rintro ⟨hkind, hparent, hdeclarator, n, hn, hident, hne, rfl⟩
    simp only [hparent, Option.bind_eq_bind, Option.bind_some]
    rw [if_pos ⟨List.contains_iff_mem.2 hkind, hdeclarator⟩, hn, Option.bind_some,
      if_pos ⟨hident, hne⟩]

theorem jsTsFuncName_eq_some {name : String} :
    jsTsFuncName f = some (name, owned) ↔
      (∃ n, f.childByFieldName "name" = some n ∧ n.text ≠ "" ∧ n.text = name ∧ f = owned) ∨
        ((∀ n, f.childByFieldName "name" = some n → n.text = "") ∧
          jsTsBoundName f = some (name, owned)) := by
  unfold jsTsFuncName
  cases hname : f.childByFieldName "name" with
  | none => simp
  | some n =>
    by_cases hempty : n.text = ""
    · simp [hempty]
    · simp [hempty]

theorem enclosingOwnerName_binding (hparent : f.parent = some d)
    (hdeclarator : d.kind = "variable_declarator") :
    enclosingOwnerName d jsTsClassKinds = enclosingOwnerName f jsTsClassKinds := by
  unfold enclosingOwnerName
  rw [enclosing_of_parent hparent]
  rw [hdeclarator]
  decide

/-- The walk looks for the class from the function, or from its declarator. -/
theorem jsTsEnclosingClassName_owned {name : String} (h : jsTsFuncName f = some (name, owned)) :
    jsTsEnclosingClassName owned = jsTsEnclosingClassName f := by
  rcases jsTsFuncName_eq_some.1 h with ⟨_, _, _, _, rfl⟩ | ⟨_, hbound⟩
  · rfl
  · obtain ⟨_, hparent, hdeclarator, _⟩ := jsTsBoundName_eq_some.1 hbound
    rw [jsTsEnclosingClassName, enclosingOwnerName_binding hparent hdeclarator, jsTsEnclosingClassName]

theorem text_of_jsTsFuncName {name : String} (h : jsTsFuncName f = some (name, owned))
    (hkind : f.kind ∉ ["arrow_function", "function_expression"])
    (hn : f.childByFieldName "name" = some n) : n.text = name := by
  rcases jsTsFuncName_eq_some.1 h with ⟨own, hown, _, htext, _⟩ | ⟨_, hbound⟩
  · rw [hn] at hown
    cases hown
    exact htext
  · exact absurd (jsTsBoundName_eq_some.1 hbound).1 hkind

/-- The walk and the engine give one name exactly when the class is named and the names are the same. -/
theorem jsTs_qname_iff {name name' : String} :
    qname filePath ((jsTsEnclosingClassName f).getD "Function") name =
        qname filePath ((enclosingOwnerName f jsTsClassKinds).getD "Function") name' ↔
      ClassNamed f ∧ name = name' := by
  unfold ClassNamed jsTsEnclosingClassName
  cases howner : enclosingOwnerName f jsTsClassKinds with
  | none => simp [qname_name_inj]
  | some owner =>
    by_cases hempty : owner = ""
    · subst hempty
      simp [Option.filter, qname_function_ne]
    · simp [Option.filter, hempty, qname_name_inj]

theorem findSome?_eq_bind_find? {α β : Type} (g : α → Option β) (l : List α) :
    l.findSome? g = (l.find? fun a => (g a).isSome).bind g := by
  induction l with
  | nil => rfl
  | cons a l ih =>
    cases h : g a with
    | none => simp [h, ih]
    | some b => simp [h]

theorem jsTsEnclosingQname_eq (node : SyntaxNode) :
    jsTsEnclosingQname filePath node =
      ((jsTsEnclosing node).bind (jsTsFuncQname filePath)).getD (fileQname filePath) := by
  have hsome : ∀ a : SyntaxNode, (if jsTsFuncKinds.contains a.kind then jsTsFuncQname filePath a
      else none).isSome = isJsTsNamed a := by
    intro a
    unfold isJsTsNamed
    by_cases hkind : jsTsFuncKinds.contains a.kind
    · rw [if_pos hkind, hkind, Bool.true_and, jsTsFuncQname]
      cases jsTsFuncName a <;> rfl
    · rw [if_neg hkind, Bool.eq_false_iff.2 hkind]
      rfl
  unfold jsTsEnclosingQname jsTsEnclosing
  rw [findSome?_eq_bind_find?]
  simp only [hsome]
  cases hf : node.ancestors.find? isJsTsNamed with
  | none => rfl
  | some f =>
    have hnamed := List.find?_some hf
    rw [Option.bind_some, Option.bind_some, if_pos (Bool.and_eq_true_iff.1 hnamed).1]

theorem JsTs.plain (language : JsTs) : Plain language.spec := by
  cases language with
  | javascript => exact ⟨rfl, by decide⟩
  | typescript => exact ⟨rfl, by decide⟩

theorem JsTs.ruleFor_eq (language : JsTs) :
    ruleFor language.spec "function_declaration" = some (DefRule.func "function_declaration") ∧
      ruleFor language.spec "method_definition" = some (DefRule.method "method_definition") ∧
      ruleFor language.spec "variable_declarator" = some (DefRule.method "variable_declarator") := by
  cases language with
  | javascript => decide
  | typescript => decide

theorem JsTs.definitions_function (language : JsTs) :
    ⟨"function_declaration", ["identifier"], []⟩ ∈ language.definitions ∧
      ⟨"method_definition", ["property_identifier"], []⟩ ∈ language.definitions ∧
      ⟨"variable_declarator", ["identifier"], ["arrow_function", "function_expression"]⟩ ∈
        language.definitions := by
  cases language with
  | javascript => decide
  | typescript => decide

theorem JsTs.of_mem_definitions (language : JsTs) : ∀ r ∈ language.definitions,
    (r.kind ∈ jsTsFuncKinds → r.kind = "function_declaration" ∨
      r = ⟨"method_definition", ["property_identifier"], []⟩) ∧
    (r.kind = "variable_declarator" →
      r = ⟨"variable_declarator", ["identifier"], ["arrow_function", "function_expression"]⟩) := by
  cases language with
  | javascript => decide
  | typescript => decide

/-- The name that the engine gives to a method or to a bound function. -/
theorem JsTs.method_qname (language : JsTs) (d : SyntaxNode) (kind name : String) :
    (defLabelAndQname language.spec (DefRule.method kind) d name filePath).2 =
      qname filePath ((enclosingOwnerName d jsTsClassKinds).getD "Function") name := by
  have howner : language.spec.ownerKinds = jsTsClassKinds := by
    cases language <;> rfl
  simp only [defLabelAndQname, ownerOf, DefRule.method, howner]
  cases enclosingOwnerName d jsTsClassKinds <;> rfl

theorem JsTsNamed.child_unique (h : JsTsNamed tree) {p b : SyntaxNode} {field : String}
    (hp : p ∈ tree.nodes) (hkind : p.kind ∈ ["method_definition", "variable_declarator"])
    (hfield : field ∈ ["name", "value"]) (ha : (some field, a) ∈ p.fieldChildren)
    (hb : (some field, b) ∈ p.fieldChildren) : a = b := by
  refine h.one p hp hkind _ ha _ hb ?_ rfl
  rcases List.mem_cons.1 hfield with rfl | hvalue
  · exact List.mem_cons_self
  · rw [List.mem_singleton.1 hvalue]
    exact List.mem_cons_of_mem _ List.mem_cons_self

theorem declaration_sourced (h : JsTsNamed tree) (language : JsTs) (hf : f ∈ tree.nodes)
    (hkind : f.kind = "function_declaration")
    (hedge : jsTsFuncQname filePath f = some edge.sourceQualifiedName) :
    Sourced (specDefinitions language.spec (nameQuery language.definitions) filePath tree) filePath
      (some f) edge := by
  obtain ⟨hnamed, c, hc, hcKind, hunique⟩ := h.declarations.name hf (List.mem_singleton.2 hkind)
  obtain ⟨⟨name, owned⟩, hfound, hsource⟩ := Option.bind_eq_some_iff.1 hedge
  have htext : c.text = name :=
    text_of_jsTsFuncName hfound (by simp [hkind]) (SyntaxNode.childByFieldName_of_unique hc hunique)
  rw [sourced_some language.plain]
  refine ⟨f, hf, .inl rfl, _, language.definitions_function.1, c,
    ⟨⟨hnamed, .inr (List.mem_singleton.2 hkind)⟩, hcKind, hc⟩, _, hkind ▸ language.ruleFor_eq.1, ?_⟩
  have heq := Option.some.inj hsource
  rw [← heq, if_pos hkind, htext]
  rfl

section Functions

variable {language : JsTs} {f owned : SyntaxNode} {name : String} {edge : ExtractedEdge}

/-- The source that the walk gives to the edges in a function other than a declaration. -/
def WalkSource (filePath : String) (f : SyntaxNode) (name : String) (edge : ExtractedEdge) : Prop :=
  edge.sourceQualifiedName = qname filePath ((jsTsEnclosingClassName f).getD "Function") name

theorem method_sourced (h : JsTsNamed tree) (hf : f ∈ tree.nodes) (hkind : f.kind = "method_definition")
    (hfound : jsTsFuncName f = some (name, owned)) (hedge : WalkSource filePath f name edge)
    {n : SyntaxNode} (hn : f.childByFieldName "name" = some n) (hnKind : n.kind = "property_identifier")
    (hclass : ClassNamed f) :
    Sourced (specDefinitions language.spec (nameQuery language.definitions) filePath tree) filePath
      (some f) edge := by
  have hmem := SyntaxTree.childByFieldName_mem_nodes hf hn
  have htext : n.text = name := text_of_jsTsFuncName hfound (by simp [hkind]) hn
  rw [sourced_some language.plain]
  refine ⟨f, hf, .inl rfl, _, language.definitions_function.2.1, n,
    ⟨⟨h.named f hf (by simp [hkind]), .inr (List.mem_singleton.2 hkind)⟩,
      ⟨h.named n hmem (by simp [hnKind]), .inr (List.mem_singleton.2 hnKind)⟩,
      SyntaxNode.mem_of_childByFieldName hn⟩, _, hkind ▸ language.ruleFor_eq.2.1, ?_⟩
  rw [hedge, language.method_qname, jsTs_qname_iff]
  exact ⟨hclass, htext.symm⟩

/-- A function expression is defined by the name that it is bound to. -/
theorem binding_sourced (h : JsTsNamed tree) (hf : f ∈ tree.nodes) (hkind : f.kind ∈ jsTsFuncKinds)
    (hkinds : f.kind ∈ ["arrow_function", "function_expression"])
    (hfound : jsTsFuncName f = some (name, owned)) (hedge : WalkSource filePath f name edge)
    {d n : SyntaxNode} (hparent : f.parent = some d) (hdeclarator : d.kind = "variable_declarator")
    (hn : d.childByFieldName "name" = some n) (hnKind : n.kind = "identifier")
    (hown : ∀ own, f.childByFieldName "name" = some own → own.text ≠ "" → own.text = n.text)
    (hclass : ClassNamed f) :
    Sourced (specDefinitions language.spec (nameQuery language.definitions) filePath tree) filePath
      (some f) edge := by
  have hd := SyntaxTree.parent_mem_nodes hf hparent
  have hnMem := SyntaxTree.childByFieldName_mem_nodes hd hn
  obtain ⟨before, _, hsub⟩ := h.bound f hf hkind d hparent hdeclarator
  -- The name before the value is the one that is found.
  have hbefore : before = n := h.child_unique hd (by simp [hdeclarator]) (by simp)
    (hsub.subset List.mem_cons_self) (SyntaxNode.mem_of_childByFieldName hn)
  subst hbefore
  have htext : before.text = name := by
    rcases jsTsFuncName_eq_some.1 hfound with ⟨own, hownName, hne, htext, _⟩ | ⟨_, hbound⟩
    · rw [← hown own hownName hne, htext]
    · obtain ⟨_, hparent', _, found, hfound', _, _, htext⟩ := jsTsBoundName_eq_some.1 hbound
      rw [hparent] at hparent'
      cases hparent'
      rw [hn] at hfound'
      cases hfound'
      exact htext
  have hfNamed : f.isNamed = true := by
    refine h.named f hf ?_
    simp only [List.mem_cons, List.not_mem_nil, or_false] at hkinds ⊢
    rcases hkinds with hk | hk <;> simp [hk]
  rw [sourced_some language.plain]
  refine ⟨d, hd, .inr ⟨hparent, hdeclarator⟩, _, language.definitions_function.2.2, before,
    ⟨⟨h.named d hd (by simp [hdeclarator]), .inr (List.mem_singleton.2 hdeclarator)⟩,
      ⟨h.named before hnMem (by simp [hnKind]), .inr (List.mem_singleton.2 hnKind)⟩, ?_⟩, _,
    hdeclarator ▸ language.ruleFor_eq.2.2, ?_⟩
  · simp only [List.cons_ne_nil, if_false]
    exact ⟨f, ⟨hfNamed, .inr hkinds⟩, hsub⟩
  · rw [hedge, language.method_qname, enclosingOwnerName_binding hparent hdeclarator, jsTs_qname_iff]
    exact ⟨hclass, htext.symm⟩

/-- A node that is defined by itself, other than a declaration, is a method. -/
theorem namedAlike_of_method (h : JsTsNamed tree) (hf : f ∈ tree.nodes) (hkind : f.kind ∈ jsTsFuncKinds)
    (hnot : f.kind ≠ "function_declaration") (hedge : WalkSource filePath f name edge)
    {r : NameRule} (hr : r ∈ language.definitions) {x : SyntaxNode} (hnames : r.Names f x)
    {rule : DefRule} (hrule : ruleFor language.spec f.kind = some rule)
    (heq : edge.sourceQualifiedName = (defLabelAndQname language.spec rule f x.text filePath).2) :
    NamedAlike f := by
  rcases (language.of_mem_definitions r hr).1 (hnames.kind ▸ hkind) with hfunction | rfl
  · exact absurd (hnames.kind.trans hfunction) hnot
  · have hmethod : f.kind = "method_definition" := hnames.kind
    rw [hmethod, language.ruleFor_eq.2.1] at hrule
    cases hrule
    rw [hedge, language.method_qname, jsTs_qname_iff] at heq
    have hx := hnames.mem_fieldChildren
    refine .inr (.inl ⟨hmethod, ⟨x, ?_, ?_⟩, heq.1⟩)
    · exact SyntaxNode.childByFieldName_of_unique hx fun y hy =>
        h.child_unique hf (by simp [hmethod]) (by simp) hy hx
    · simpa using hnames.2.1.2

theorem namedAlike_of_binding (h : JsTsNamed tree) (hf : f ∈ tree.nodes)
    (hkind : f.kind ∈ jsTsFuncKinds) (hfound : jsTsFuncName f = some (name, owned))
    (hedge : WalkSource filePath f name edge) {d : SyntaxNode} (hparent : f.parent = some d)
    (hdeclarator : d.kind = "variable_declarator") {r : NameRule} (hr : r ∈ language.definitions)
    {x : SyntaxNode} (hnames : r.Names d x) {rule : DefRule}
    (hrule : ruleFor language.spec d.kind = some rule)
    (heq : edge.sourceQualifiedName = (defLabelAndQname language.spec rule d x.text filePath).2) :
    NamedAlike f := by
  have hd := SyntaxTree.parent_mem_nodes hf hparent
  obtain rfl := (language.of_mem_definitions r hr).2 (hnames.kind.symm.trans hdeclarator)
  rw [hdeclarator, language.ruleFor_eq.2.2] at hrule
  cases hrule
  obtain ⟨_, hxKind, hvalue⟩ := hnames
  simp only [List.cons_ne_nil, if_false] at hvalue
  obtain ⟨v, hvKind, hsub⟩ := hvalue
  obtain ⟨n, _, hnf⟩ := h.bound f hf hkind d hparent hdeclarator
  -- The value of the declarator is the function.
  have hvf : v = f := h.child_unique hd (by simp [hdeclarator]) (by simp)
    (hsub.subset (List.mem_cons_of_mem _ List.mem_cons_self))
    (hnf.subset (List.mem_cons_of_mem _ List.mem_cons_self))
  subst hvf
  have hx := hsub.subset List.mem_cons_self
  have hdName : d.childByFieldName "name" = some x :=
    SyntaxNode.childByFieldName_of_unique hx fun y hy =>
      h.child_unique hd (by simp [hdeclarator]) (by simp) hy hx
  rw [hedge, language.method_qname, enclosingOwnerName_binding hparent hdeclarator, jsTs_qname_iff]
    at heq
  refine .inr (.inr ⟨by simpa using hvKind.2, ⟨d, x, hparent, hdeclarator, hdName,
    by simpa using hxKind.2, fun own hown hne => ?_⟩, heq.1⟩)
  rcases jsTsFuncName_eq_some.1 hfound with ⟨found, hfoundName, _, htext, _⟩ | ⟨hempty, _⟩
  · rw [hown] at hfoundName
    cases hfoundName
    rw [htext, heq.2]
  · exact absurd (hempty own hown) hne

end Functions

/-- The walk has the name of the definition exactly for the functions that are named alike. -/
theorem function_sourced (h : JsTsNamed tree) (language : JsTs) {f : SyntaxNode} (hf : f ∈ tree.nodes)
    (hkind : f.kind ∈ jsTsFuncKinds) {edge : ExtractedEdge}
    (hedge : jsTsFuncQname filePath f = some edge.sourceQualifiedName) :
    Sourced (specDefinitions language.spec (nameQuery language.definitions) filePath tree) filePath
      (some f) edge ↔ NamedAlike f := by
  by_cases hfunction : f.kind = "function_declaration"
  · exact ⟨fun _ => .inl hfunction, fun _ => declaration_sourced h language hf hfunction hedge⟩
  obtain ⟨⟨name, owned⟩, hfound, hsource⟩ := Option.bind_eq_some_iff.1 hedge
  have hwalk : WalkSource filePath f name edge := by
    have heq := Option.some.inj hsource
    rw [WalkSource, ← heq, if_neg hfunction, jsTsEnclosingClassName_owned hfound]
  constructor
  · intro hsourced
    obtain ⟨d, _, hdefines, r, hr, x, hnames, rule, hrule, heq⟩ :=
      (sourced_some language.plain).1 hsourced
    rcases hdefines with rfl | ⟨hparent, hdeclarator⟩
    · exact namedAlike_of_method h hf hkind hfunction hwalk hr hnames hrule heq
    · exact namedAlike_of_binding h hf hkind hfound hwalk hparent hdeclarator hr hnames hrule heq
  · rintro (hfunction' | ⟨hmethod, ⟨n, hn, hnKind⟩, hclass⟩ |
      ⟨hkinds, ⟨d, n, hparent, hdeclarator, hn, hnKind, hown⟩, hclass⟩)
    · exact absurd hfunction' hfunction
    · exact method_sourced h hf hmethod hfound hwalk hn hnKind hclass
    · exact binding_sourced h hf hkind hkinds hfound hwalk hparent hdeclarator hn hnKind hown hclass

/-- **An edge comes from the definition of the innermost function with a name exactly when that function
is named alike.** -/
theorem jsTs_sourced (h : JsTsNamed tree) (language : JsTs) {node : SyntaxNode} (hnode : node ∈ tree.nodes)
    {edge : ExtractedEdge} (hedge : edge.sourceQualifiedName = jsTsEnclosingQname filePath node) :
    Sourced (specDefinitions language.spec (nameQuery language.definitions) filePath tree) filePath
        (jsTsEnclosing node) edge ↔
      ∀ f, jsTsEnclosing node = some f → NamedAlike f := by
  rw [jsTsEnclosingQname_eq] at hedge
  cases hf : jsTsEnclosing node with
  | none =>
    rw [hf] at hedge
    simp [Sourced, hedge]
  | some f =>
    have hmem := SyntaxTree.ancestors_mem_nodes hnode (List.mem_of_find?_eq_some hf)
    have hnamed : isJsTsNamed f = true := List.find?_some hf
    obtain ⟨hkind, hsome⟩ := Bool.and_eq_true_iff.1 hnamed
    obtain ⟨⟨name, owned⟩, hfound⟩ := Option.isSome_iff_exists.1 hsome
    have hqname : jsTsFuncQname filePath f = some edge.sourceQualifiedName := by
      rw [hf, Option.bind_some] at hedge
      cases hq : jsTsFuncQname filePath f with
      | none => simp [jsTsFuncQname, hfound] at hq
      | some source => rw [hedge, hq, Option.getD_some]
    rw [function_sourced h language hmem (List.contains_iff_mem.1 hkind) hqname]
    constructor
    · rintro halike found hfound
      cases hfound
      exact halike
    · intro halike
      exact halike f rfl

theorem jsTsEdges_source {u : SyntaxNode × ExtractedEdge}
    (hu : u ∈ jsTsCalls filePath tree ++ jsTsUsages filePath tree) :
    u.1 ∈ tree.nodes ∧ u.2.sourceQualifiedName = jsTsEnclosingQname filePath u.1 := by
  rcases List.mem_append.1 hu with hcall | husage
  · obtain ⟨node, hnode, h⟩ := List.mem_filterMap.1 hcall
    split_ifs at h
    obtain ⟨callee, _, h⟩ := Option.bind_eq_some_iff.1 h
    split_ifs at h
    cases h
    exact ⟨SyntaxTree.mem_nodes_of_stackNodes hnode, rfl⟩
  · obtain ⟨node, hnode, rfl⟩ := List.mem_map.1 husage
    exact ⟨SyntaxTree.mem_nodes_of_stackNodes (List.mem_of_mem_filter hnode), rfl⟩

/-- **The supplementary passes name their sources as the definition pass does exactly where the owner is
seen alike and the function is named alike.** -/
theorem script_sources (filePath : String) (pythonTree rubyTree jsTsTree : SyntaxTree)
    (language : JsTs)
    (hpython : FunctionsNamed ["function_definition"] ["identifier"] pythonTree)
    (hruby : FunctionsNamed ["method", "singleton_method"] [] rubyTree)
    (hjsTs : JsTsNamed jsTsTree) :
    (∀ u ∈ pythonUsages filePath pythonTree,
      Sourced (specDefinitions python (nameQuery pythonDefinitions) filePath pythonTree) filePath
          (enclosing ["function_definition"] u.1) u.2 ↔
        ∀ f, enclosing ["function_definition"] u.1 = some f →
          OwnedAlike ["function_definition"] ["class_definition"] f) ∧
    (∀ u ∈ rubyUsages filePath rubyTree,
      Sourced (specDefinitions ruby (nameQuery rubyDefinitions) filePath rubyTree) filePath
          (enclosing ["method", "singleton_method"] u.1) u.2 ↔
        ∀ f, enclosing ["method", "singleton_method"] u.1 = some f →
          OwnedAlike ["method", "singleton_method"] ["class", "module"] f) ∧
    ∀ u ∈ jsTsCalls filePath jsTsTree ++ jsTsUsages filePath jsTsTree,
      Sourced (specDefinitions language.spec (nameQuery language.definitions) filePath jsTsTree) filePath
          (jsTsEnclosing u.1) u.2 ↔
        ∀ f, jsTsEnclosing u.1 = some f → NamedAlike f :=
  ⟨fun _ hu => pythonUsages_sourced hpython hu, fun _ hu => rubyUsages_sourced hruby hu,
    fun _ hu => jsTs_sourced hjsTs language (jsTsEdges_source hu).1 (jsTsEdges_source hu).2⟩

/-! ### Nested functions and functions with two names -/

instance (tree : SyntaxTree) : Decidable (JsTsNamed tree) :=
  decidable_of_iff (FunctionsNamed ["function_declaration"] ["identifier"] tree ∧
      (∀ n ∈ tree.nodes, n.kind ∈ ["method_definition", "variable_declarator", "arrow_function",
        "function_expression", "identifier", "property_identifier"] → n.isNamed = true) ∧
      OneChild tree ∧ ValueAfterName tree)
    ⟨fun ⟨h₁, h₂, h₃, h₄⟩ => ⟨h₁, h₂, h₃, h₄⟩, fun ⟨h₁, h₂, h₃, h₄⟩ => ⟨h₁, h₂, h₃, h₄⟩⟩

/-- `def name ( ) : body`. -/
def pythonDef (name : String) (body : Grown) : Grown :=
  group "function_definition" [("", sign "def"), ("name", word "identifier" name),
    ("parameters", group "parameters" [("", sign "("), ("", sign ")")]), ("", sign ":"),
    ("body", group "block" [("", body)])]

/-- `class C : body`. -/
def pythonClass (body : Grown) : SyntaxTree := (group "module" [("", group "class_definition" [
  ("", sign "class"), ("name", word "identifier" "C"), ("", sign ":"),
  ("body", group "block" [("", body)])])]).tree

/-- `x`, as a statement. -/
def pythonUse : Grown := group "expression_statement" [("", word "identifier" "x")]

/-- `def name body end`. -/
def rubyDef (name : String) (body : Grown) : Grown :=
  group "method" [("", sign "def"), ("name", word "identifier" name),
    ("body", group "body_statement" [("", body)]), ("", sign "end")]

/-- `class C body end`. -/
def rubyClass (body : Grown) : SyntaxTree := (group "program" [("", group "class" [
  ("", sign "class"), ("name", word "constant" "C"),
  ("body", group "body_statement" [("", body)]), ("", sign "end")])]).tree

/-- The parameters and the body of a function that calls `h`. -/
def jsCallingBody : List (String × Grown) := [
  ("parameters", group "formal_parameters" [("", sign "("), ("", sign ")")]),
  ("body", group "statement_block" [("", sign "\x7b"), ("", group "expression_statement" [
    ("", group "call_expression" [("function", word "identifier" "h"),
      ("arguments", group "arguments" [("", sign "("), ("", sign ")")])])]), ("", sign "\x7d")])]

/-- `const f = function … ( ) { h ( ) }`, with a name or without. -/
def jsBinding (own : List (String × Grown)) : SyntaxTree :=
  (group "program" [("", group "lexical_declaration" [("kind", sign "const"),
    ("", group "variable_declarator" [("name", word "identifier" "f"), ("", sign "="),
      ("value", group "function_expression" (("", sign "function") :: own ++ jsCallingBody))])])]).tree

/-- `function * g ( ) { h ( ) }`. -/
def jsGenerator : SyntaxTree := (group "program" [("", group "generator_function_declaration"
  ([("", sign "function"), ("", sign "*"), ("name", word "identifier" "g")] ++ jsCallingBody))]).tree

/-- `class C { name ( ) { h ( ) } }`. -/
def jsMethod (name : Grown) : SyntaxTree := (group "program" [("", group "class_declaration" [
  ("", sign "class"), ("name", word "identifier" "C"), ("body", group "class_body" [
    ("", sign "\x7b"), ("", group "method_definition" (("name", name) :: jsCallingBody)),
    ("", sign "\x7d")])])]).tree

/-- The sources in a method and in a function that is bound to a name. -/
theorem script_sources_method :
    ((pythonUsages "a.py" (pythonClass (pythonDef "m" pythonUse))).map
          fun u => u.2.sourceQualifiedName) = ["a.py::C::m"] ∧
      ((jsTsCalls "a.js" (jsBinding [])).map fun u => u.2.sourceQualifiedName) =
        ["a.js::Function::f"] ∧
      (∀ u ∈ pythonUsages "a.js" (pythonClass (pythonDef "m" pythonUse)),
        Sourced (specDefinitions python (nameQuery pythonDefinitions) "a.js"
            (pythonClass (pythonDef "m" pythonUse))) "a.js"
            (enclosing ["function_definition"] u.1) u.2 ↔
          ∀ f, enclosing ["function_definition"] u.1 = some f →
            OwnedAlike ["function_definition"] ["class_definition"] f) ∧
      ∀ u ∈ jsTsCalls "a.js" (jsBinding []) ++ jsTsUsages "a.js" (jsBinding []),
        Sourced (specDefinitions JsTs.javascript.spec (nameQuery JsTs.javascript.definitions) "a.js"
            (jsBinding [])) "a.js" (jsTsEnclosing u.1) u.2 ↔
          ∀ f, jsTsEnclosing u.1 = some f → NamedAlike f := by
  have h := script_sources "a.js" (pythonClass (pythonDef "m" pythonUse))
    (rubyClass (rubyDef "m" (word "identifier" "x"))) (jsBinding []) .javascript
    (by decide +kernel) (by decide +kernel) (by decide +kernel)
  exact ⟨by decide +kernel, by decide +kernel, h.1, h.2.2⟩

/-- A function that is nested in a method, in Python and in Ruby; a function expression with two names,
a generator, and a private method. -/
theorem nested_sources :
    (FunctionsNamed ["function_definition"] ["identifier"]
        (pythonClass (pythonDef "m" (pythonDef "inner" pythonUse))) ∧
      ∃ u ∈ pythonUsages "a.py" (pythonClass (pythonDef "m" (pythonDef "inner" pythonUse))),
        ¬Sourced (specDefinitions python (nameQuery pythonDefinitions) "a.py"
            (pythonClass (pythonDef "m" (pythonDef "inner" pythonUse)))) "a.py"
          (enclosing ["function_definition"] u.1) u.2) ∧
    (FunctionsNamed ["method", "singleton_method"] []
        (rubyClass (rubyDef "m" (rubyDef "inner" (word "identifier" "x")))) ∧
      ∃ u ∈ rubyUsages "a.rb" (rubyClass (rubyDef "m" (rubyDef "inner" (word "identifier" "x")))),
        ¬Sourced (specDefinitions ruby (nameQuery rubyDefinitions) "a.rb"
            (rubyClass (rubyDef "m" (rubyDef "inner" (word "identifier" "x"))))) "a.rb"
          (enclosing ["method", "singleton_method"] u.1) u.2) ∧
    ∀ tree ∈ [jsBinding [("name", word "identifier" "g")], jsGenerator,
        jsMethod (word "private_property_identifier" "#m")],
      JsTsNamed tree ∧ ∃ u ∈ jsTsCalls "a.js" tree,
        ¬Sourced (specDefinitions JsTs.javascript.spec (nameQuery JsTs.javascript.definitions) "a.js"
          tree) "a.js" (jsTsEnclosing u.1) u.2 := by
  refine ⟨⟨?_, ?_⟩, ⟨?_, ?_⟩, ?_⟩ <;> decide +kernel

end Extract
