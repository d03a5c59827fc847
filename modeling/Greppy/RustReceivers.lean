/-
**The owner of a Rust method call.**

For a call `x.m()` the extractor looks for the type of `x` in the syntax: it goes up from the call to the
function around it, and in every block on the way looks for the nearest `let` before the call whose pattern is
`x`; without one it looks among the parameters of the function.  What it finds tells the type if it has an
annotation, or is set to a struct literal.

The name `x` may be bound by other things in between: a closure parameter, the pattern of a `for`, of an
`if let` or `while let`, of a match arm, or a `let` with a compound pattern.  The walk does not see them.
-/

import Greppy.RustExtract
import Greppy.RustStr

set_option autoImplicit false

namespace Extract

namespace Rust

/-- `node_text(source, node).trim()`. -/
def trimmedText (node : SyntaxNode) : String := String.ofList (Greppy.trimWhitespace node.text.toList)

/-! ### The walk -/

/-- The pattern of a binding is the name itself. -/
def matchesReceiver (name : String) (binding : SyntaxNode) : Bool :=
  match binding.childByFieldName "pattern" with
  | some pattern => trimmedText pattern == name
  | none => false

def firstTypeName (type : SyntaxNode) : Option String := (typeIdentifiersIn type.tree).head?

/-- The type that a `let` tells of: its annotation decides, and without one a struct literal. -/
def letOwner (binding : SyntaxNode) : Option String :=
  match binding.childByFieldName "type" with
  | some type => firstTypeName type
  | none =>
    match binding.childByFieldName "value" with
    | none => none
    | some value =>
      if value.kind = "struct_expression" then
        ((value.childByFieldName "name").or value.namedChildren.head?).bind firstTypeName
      else none

/-- The type that a parameter tells of. -/
def parameterOwner (parameter : SyntaxNode) : Option String :=
  (parameter.childByFieldName "type").bind firstTypeName

/-- The statements of a block that bind names at a call, the nearest first. -/
def letsBefore (callee block : SyntaxNode) : List SyntaxNode :=
  block.namedChildren.reverse.filter fun binding =>
    !(decide (callee.startByte < binding.endByte) || binding.kind != "let_declaration")

/-- `rust_local_binding_owner`, from an ancestor on. -/
def localBindingOwnerIn (callee : SyntaxNode) (name : String) : List SyntaxNode → Bool × Option String
  | [] => (false, none)
  | node :: ancestors =>
    if node.kind = "function_item" then (false, none)
    else if node.kind = "block" then
      match (letsBefore callee node).find? (matchesReceiver name) with
      | some binding => (true, letOwner binding)
      | none => localBindingOwnerIn callee name ancestors
    else localBindingOwnerIn callee name ancestors

/-- `rust_local_binding_owner`: whether there is a binding, and the type that it tells of. -/
def rustLocalBindingOwner (callee : SyntaxNode) (name : String) : Bool × Option String :=
  localBindingOwnerIn callee name callee.ancestors

def parametersOf (function : SyntaxNode) : List SyntaxNode :=
  match function.childByFieldName "parameters" with
  | some parameters => parameters.namedChildren.filter fun parameter => parameter.kind == "parameter"
  | none => []

def rustReceiverOwner (callee : SyntaxNode) : Option String := do
  let field ← callee.parent
  if field.kind ≠ "field_expression" then none
  else
    let receiver ← field.childByFieldName "value"
    let name := trimmedText receiver
    if name = "self" then enclosingImplType callee
    else if receiver.kind ≠ "identifier" ∨ name = "" then none
    else
      let function ← enclosing ["function_item"] field
      match rustLocalBindingOwner callee name with
      | (true, owner) => owner
      | (false, _) => ((parametersOf function).find? (matchesReceiver name)).bind parameterOwner

/-! ### Bindings -/

mutual

/-- The names that a pattern binds.  Paths, ranges and constants in it bind nothing, and neither does the
name of its type. -/
def patternNames : SyntaxTree → List String
  | .node data children =>
    if ["identifier", "shorthand_field_identifier"].contains data.kind then [data.text]
    else if ["scoped_identifier", "generic_pattern", "range_pattern", "macro_invocation",
      "const_block"].contains data.kind then []
    else patternNamesUnder children

def patternNamesUnder : SyntaxForest → List String
  | .nil => []
  | .cons field tree rest =>
    (if field = some "type" then [] else patternNames tree) ++ patternNamesUnder rest

end

inductive BinderKind where
  | letStatement
  | functionParameter
  | closureParameter
  | forPattern
  | letCondition
  | matchPattern
deriving DecidableEq

/-- A binding: the node that makes it, and its pattern. -/
structure Binder where
  kind : BinderKind
  node : SyntaxNode
  pattern : SyntaxNode
deriving DecidableEq

namespace Binder

/-- A `let` statement or a parameter of the function. -/
def isDeclaration (b : Binder) : Bool := b.kind == .letStatement || b.kind == .functionParameter

/-- The type that a binding names by its annotation or its struct literal. -/
def declaredOwner (b : Binder) : Option String :=
  match b.kind with
  | .letStatement => letOwner b.node
  | .functionParameter => parameterOwner b.node
  | _ => none

def isPlain (name : String) (b : Binder) : Bool := b.isDeclaration && (trimmedText b.pattern == name)

def binds (name : String) (b : Binder) : Bool :=
  (trimmedText b.pattern == name) || (patternNames b.pattern.tree).contains name

theorem binds_of_isPlain {name : String} {b : Binder} (h : b.isPlain name = true) :
    b.binds name = true := by
  obtain ⟨-, htext⟩ := Bool.and_eq_true_iff.1 h
  exact Bool.or_eq_true_iff.2 (.inl htext)

end Binder

/-- The bindings of nodes that have a pattern. -/
def withPattern (kind : BinderKind) (nodes : List SyntaxNode) : List Binder :=
  nodes.filterMap fun node => (node.childByFieldName "pattern").map fun pattern => ⟨kind, node, pattern⟩

/-- The `let`s among the parts of a condition, the last one first. -/
def letConditions (parts : List SyntaxNode) : List Binder :=
  withPattern .letCondition (parts.reverse.filter fun part => part.kind == "let_condition")

/-- The `let`s of a condition: it is one, or a chain with some among its parts. -/
def conditionBinders (node : SyntaxNode) : List Binder :=
  match node.childByFieldName "condition" with
  | none => []
  | some condition =>
    if condition.kind = "let_chain" then letConditions condition.children
    else letConditions [condition]

def armPattern (pattern : SyntaxNode) : List Binder :=
  pattern.children.head?.toList.map fun first => ⟨.matchPattern, pattern, first⟩

/-- The parameters of a closure, with a type or without one. -/
def closureParameters (closure : SyntaxNode) : List Binder :=
  match closure.childByFieldName "parameters" with
  | none => []
  | some parameters =>
    parameters.namedChildren.map fun parameter =>
      ⟨.closureParameter, parameter, (parameter.childByFieldName "pattern").getD parameter⟩

/-- What a node binds at a call that stands in one of its children, the innermost first. -/
def bindersAt (callee child parent : SyntaxNode) : List Binder :=
  let isIn (field : String) : Bool := decide (parent.childByFieldName field = some child)
  if parent.kind = "block" then withPattern .letStatement (letsBefore callee parent)
  else if parent.kind = "function_item" then
    if isIn "body" then withPattern .functionParameter (parametersOf parent) else []
  else if parent.kind = "closure_expression" then
    if isIn "body" then closureParameters parent else []
  else if parent.kind = "for_expression" then
    if isIn "body" then withPattern .forPattern [parent] else []
  else if parent.kind = "if_expression" then
    if isIn "consequence" then conditionBinders parent else []
  else if parent.kind = "while_expression" then
    if isIn "body" then conditionBinders parent else []
  else if parent.kind = "let_chain" then letConditions (parent.children.takeWhile (· ≠ child))
  else if parent.kind = "match_arm" then
    if isIn "value" then
      match parent.childByFieldName "pattern" with
      | some pattern => conditionBinders pattern ++ armPattern pattern
      | none => []
    else []
  else if parent.kind = "match_pattern" then
    if isIn "condition" then armPattern parent else []
  else []

/-- The bindings on the way up from a child, as far as the function around it. -/
def bindersAbove (callee : SyntaxNode) : SyntaxNode → List SyntaxNode → List Binder
  | _, [] => []
  | child, parent :: ancestors =>
    bindersAt callee child parent ++
      if parent.kind = "function_item" then [] else bindersAbove callee parent ancestors

/-- A method call on a receiver with a name, in the body of a function. -/
structure NamedCall where
  callee : SyntaxNode
  field : SyntaxNode
  receiver : SyntaxNode
  /-- What stands between the call and the body of the function. -/
  inner : List SyntaxNode
  body : SyntaxNode
  function : SyntaxNode
  outer : List SyntaxNode
  parent_eq : callee.parent = some field
  field_kind : field.kind = "field_expression"
  receiver_eq : field.childByFieldName "value" = some receiver
  receiver_kind : receiver.kind = "identifier"
  name_ne_self : trimmedText receiver ≠ "self"
  name_ne_empty : trimmedText receiver ≠ ""
  ancestors_eq : callee.ancestors = inner ++ body :: function :: outer
  inner_kind : ∀ a ∈ inner, a.kind ≠ "function_item"
  body_kind : body.kind = "block"
  function_kind : function.kind = "function_item"
  body_eq : function.childByFieldName "body" = some body

namespace NamedCall

variable (call : NamedCall)

def name : String := trimmedText call.receiver

/-- What binds names at the call, the innermost first. -/
def binders : List Binder := bindersAbove call.callee call.callee call.callee.ancestors

/-- The innermost binding of the name. -/
def innermost : Option Binder := call.binders.find? (Binder.binds call.name)

/-- An owner is named by the innermost binding of the name, which is a `let` or a parameter of the function; a
binding of any other kind has none. -/
def OwnersFollowScope : Prop :=
  (∀ owner, rustReceiverOwner call.callee = some owner →
    ∃ b, call.innermost = some b ∧ b.isDeclaration = true ∧ b.declaredOwner = some owner) ∧
  ∀ b, call.innermost = some b → b.isDeclaration = false → rustReceiverOwner call.callee = none

/-- The innermost binding whose pattern is the name itself. -/
def innermostPlain : Option Binder := call.binders.find? (Binder.isPlain call.name)

/-- If the innermost plain binding declares an owner, then the innermost binding of the name is plain too, or
it is a `let` or a parameter with a compound pattern that declares the same owner. -/
def IsRightlyBound : Prop :=
  ∀ p, call.innermostPlain = some p → ∀ owner, p.declaredOwner = some owner →
    ∃ b, call.innermost = some b ∧ (b.isPlain call.name = true ∨ b.declaredOwner = some owner)

end NamedCall

/-! ### What the walk finds -/

section Walk

variable {kind : BinderKind} {name : String} {nodes : List SyntaxNode}

theorem isDeclaration_of_declaredOwner {b : Binder} {owner : String} (h : b.declaredOwner = some owner) :
    b.isDeclaration = true := by
  obtain ⟨bkind, node, pattern⟩ := b
  cases bkind with
  | letStatement => rfl
  | functionParameter => rfl
  | _ => cases h

theorem kind_of_mem_withPattern {b : Binder} (h : b ∈ withPattern kind nodes) : b.kind = kind := by
  obtain ⟨node, -, hb⟩ := List.mem_filterMap.1 h
  obtain ⟨pattern, -, rfl⟩ := Option.map_eq_some_iff.1 hb
  rfl

/-- The first node whose pattern is the name makes the first plain binding. -/
theorem find?_withPattern (name : String) (kind : BinderKind) (nodes : List SyntaxNode) (hkind : kind = .letStatement ∨ kind = .functionParameter) :
    ((withPattern kind nodes).find? (Binder.isPlain name)).map Binder.node =
      nodes.find? (matchesReceiver name) := by
  have hdecl (node pattern : SyntaxNode) : (⟨kind, node, pattern⟩ : Binder).isDeclaration = true := by
    rcases hkind with rfl | rfl <;> rfl
  induction nodes with
  | nil => rfl
  | cons node rest ih =>
    rw [withPattern, List.filterMap_cons, List.find?_cons, matchesReceiver]
    cases hpattern : node.childByFieldName "pattern" with
    | none => exact ih
    | some pattern =>
      dsimp only
      rw [Option.map_some, List.find?_cons, Binder.isPlain, hdecl, Bool.true_and]
      cases trimmedText pattern == name with
      | true => rfl
      | false => exact ih

/-- What a node other than a block and a function binds is neither a `let` statement nor a parameter of a
function. -/
theorem not_isDeclaration_bindersAt {callee child parent : SyntaxNode} (hblock : parent.kind ≠ "block")
    (hfunction : parent.kind ≠ "function_item") {b : Binder} (hb : b ∈ bindersAt callee child parent) :
    b.isDeclaration = false := by
  have hother : b.kind = .closureParameter ∨ b.kind = .forPattern ∨ b.kind = .letCondition ∨
      b.kind = .matchPattern := by
    have hclosure {closure : SyntaxNode} (h : b ∈ closureParameters closure) : b.kind = .closureParameter := by
      unfold closureParameters at h
      split at h
      · cases h
      · obtain ⟨parameter, -, rfl⟩ := List.mem_map.1 h
        rfl
    have hcondition {node : SyntaxNode} (h : b ∈ conditionBinders node) : b.kind = .letCondition := by
      unfold conditionBinders letConditions at h
      split at h
      · cases h
      · split_ifs at h
        · exact kind_of_mem_withPattern h
        · exact kind_of_mem_withPattern h
    have harm {pattern : SyntaxNode} (h : b ∈ armPattern pattern) : b.kind = .matchPattern := by
      obtain ⟨first, -, rfl⟩ := List.mem_map.1 h
      rfl
    simp only [bindersAt, if_neg hblock, if_neg hfunction] at hb
    split_ifs at hb
    · exact .inl (hclosure hb)
    · cases hb
    · exact .inr (.inl (kind_of_mem_withPattern hb))
    · cases hb
    · exact .inr (.inr (.inl (hcondition hb)))
    · cases hb
    · exact .inr (.inr (.inl (hcondition hb)))
    · cases hb
    · exact .inr (.inr (.inl (kind_of_mem_withPattern hb)))
    · split at hb
      · rcases List.mem_append.1 hb with hb | hb
        · exact .inr (.inr (.inl (hcondition hb)))
        · exact .inr (.inr (.inr (harm hb)))
      · cases hb
    · cases hb
    · exact .inr (.inr (.inr (harm hb)))
    · cases hb
    · cases hb
  rw [Binder.isDeclaration]
  rcases hother with h | h | h | h <;> rw [h] <;> rfl

/-- The owner that the first plain binding declares. -/
def plainOwner (name : String) (binders : List Binder) : Option String :=
  (binders.find? (Binder.isPlain name)).bind Binder.declaredOwner

theorem plainOwner_append (front back : List Binder) :
    plainOwner name (front ++ back) =
      if (front.find? (Binder.isPlain name)).isSome then plainOwner name front else plainOwner name back := by
  rw [plainOwner, List.find?_append]
  cases hfront : front.find? (Binder.isPlain name) with
  | none => rfl
  | some b => rw [plainOwner, hfront]; rfl

theorem plainOwner_lets (callee block : SyntaxNode) (back : List Binder) :
    plainOwner name (withPattern .letStatement (letsBefore callee block) ++ back) =
      match (letsBefore callee block).find? (matchesReceiver name) with
      | some binding => letOwner binding
      | none => plainOwner name back := by
  rw [plainOwner_append, plainOwner,
    ← find?_withPattern name .letStatement (letsBefore callee block) (.inl rfl)]
  cases hfind : (withPattern .letStatement (letsBefore callee block)).find? (Binder.isPlain name) with
  | none => rfl
  | some b =>
    have hkind := kind_of_mem_withPattern (List.mem_of_find?_eq_some hfind)
    simp only [Option.isSome_some, if_true, Option.bind_some, Option.map_some]
    rw [Binder.declaredOwner, hkind]

theorem plainOwner_parameters (function : SyntaxNode) :
    plainOwner name (withPattern .functionParameter (parametersOf function)) =
      ((parametersOf function).find? (matchesReceiver name)).bind parameterOwner := by
  rw [plainOwner, ← find?_withPattern name .functionParameter (parametersOf function) (.inr rfl)]
  cases hfind : (withPattern .functionParameter (parametersOf function)).find? (Binder.isPlain name) with
  | none => rfl
  | some b =>
    have hkind := kind_of_mem_withPattern (List.mem_of_find?_eq_some hfind)
    simp only [Option.bind_some, Option.map_some]
    rw [Binder.declaredOwner, hkind]

/-- The walk up to the body of the function and then to its parameters is a search for the first plain
binding. -/
theorem plainOwner_bindersAbove {callee body function : SyntaxNode} {inner outer : List SyntaxNode}
    (hinner : ∀ a ∈ inner, a.kind ≠ "function_item") (hbody : body.kind = "block")
    (hfunction : function.kind = "function_item")
    (hfield : function.childByFieldName "body" = some body) (child : SyntaxNode) :
    plainOwner name (bindersAbove callee child (inner ++ body :: function :: outer)) =
      match localBindingOwnerIn callee name (inner ++ body :: function :: outer) with
      | (true, owner) => owner
      | (false, _) => ((parametersOf function).find? (matchesReceiver name)).bind parameterOwner := by
  induction inner generalizing child with
  | nil =>
    have hne : body.kind ≠ "function_item" := by rw [hbody]; decide
    have hparameters : bindersAbove callee body (function :: outer) =
        withPattern .functionParameter (parametersOf function) := by
      rw [bindersAbove, if_pos hfunction, List.append_nil]
      simp [bindersAt, hfunction, hfield]
    rw [List.nil_append, bindersAbove, if_neg hne, hparameters, bindersAt, if_pos hbody, plainOwner_lets,
      plainOwner_parameters, localBindingOwnerIn, if_neg hne, if_pos hbody]
    cases (letsBefore callee body).find? (matchesReceiver name) with
    | none =>
      dsimp only
      rw [localBindingOwnerIn, if_pos hfunction]
    | some binding => rfl
  | cons node inner ih =>
    have hne := hinner node List.mem_cons_self
    have hrest := ih (fun a ha => hinner a (List.mem_cons_of_mem _ ha)) node
    rw [List.cons_append, bindersAbove, if_neg hne, localBindingOwnerIn, if_neg hne]
    by_cases hblock : node.kind = "block"
    · rw [bindersAt, if_pos hblock, if_pos hblock, plainOwner_lets]
      cases (letsBefore callee node).find? (matchesReceiver name) with
      | none => exact hrest
      | some binding => rfl
    · have hnone : (bindersAt callee child node).find? (Binder.isPlain name) = none := by
        refine List.find?_eq_none.2 fun b hb hplain => ?_
        have hdecl := not_isDeclaration_bindersAt hblock hne hb
        rw [Binder.isPlain, hdecl] at hplain
        cases hplain
      rw [if_neg hblock, plainOwner_append, hnone]
      exact hrest

end Walk

namespace NamedCall

variable (call : NamedCall)

/-- **What the walk finds**: the owner that the innermost plain binding of the name declares. -/
theorem receiverOwner : rustReceiverOwner call.callee = call.innermostPlain.bind Binder.declaredOwner := by
  have hancestors := SyntaxNode.ancestors_of_parent call.parent_eq
  have hfunction : enclosing ["function_item"] call.field = some call.function := by
    have hnot : call.field.kind ∉ ["function_item"] := by rw [call.field_kind]; decide
    have hcontains (a : SyntaxNode) : (["function_item"].contains a.kind = true) ↔ a.kind = "function_item" := by
      simp
    rw [← enclosing_of_parent call.parent_eq hnot, enclosing, call.ancestors_eq, List.find?_append,
      List.find?_eq_none.2 fun a ha => by rw [hcontains]; exact call.inner_kind a ha, Option.none_or,
      List.find?_cons_of_neg (by rw [hcontains, call.body_kind]; decide),
      List.find?_cons, (hcontains _).2 call.function_kind]
  have hwalk : plainOwner call.name (bindersAbove call.callee call.callee
      (call.inner ++ call.body :: call.function :: call.outer)) = _ :=
    plainOwner_bindersAbove call.inner_kind call.body_kind call.function_kind call.body_eq call.callee
  rw [← call.ancestors_eq] at hwalk
  have hnamed : ¬(call.receiver.kind ≠ "identifier" ∨ trimmedText call.receiver = "") := by
    rintro (h | h)
    · exact h call.receiver_kind
    · exact call.name_ne_empty h
  rw [innermostPlain]
  refine Eq.trans ?_ hwalk.symm
  simp only [rustReceiverOwner, call.parent_eq, call.receiver_eq, call.field_kind, hfunction, Option.bind_eq_bind,
    Option.bind_some, ne_eq, not_true_eq_false, if_false, if_neg call.name_ne_self]
  rw [if_neg hnamed]
  rfl

/-- Where the innermost binding of the name is plain, it is the innermost plain one. -/
theorem innermostPlain_of_isPlain {b : Binder} (hb : call.innermost = some b)
    (hplain : b.isPlain call.name = true) : call.innermostPlain = some b := by
  obtain ⟨-, before, after, hsplit, hbefore⟩ := List.find?_eq_some_iff_append.1 hb
  refine List.find?_eq_some_iff_append.2 ⟨hplain, before, after, hsplit, fun a ha => ?_⟩
  have hnot := hbefore a ha
  rw [Bool.not_eq_true'] at hnot ⊢
  by_contra hp
  rw [Binder.binds_of_isPlain (Bool.not_eq_false _ ▸ hp)] at hnot
  cases hnot

/-- When the owners of a call follow scope: when nothing of another kind that binds the name stands between
the call and a plain binding that declares an owner. -/
theorem ownersFollowScope_iff : call.OwnersFollowScope ↔ call.IsRightlyBound := by
  constructor
  · rintro ⟨howner, -⟩ p hp owner hdeclared
    obtain ⟨b, hb, -, hsame⟩ := howner owner (by rw [call.receiverOwner, hp, Option.bind_some, hdeclared])
    exact ⟨b, hb, .inr hsame⟩
  · intro hright
    have howner : ∀ owner, rustReceiverOwner call.callee = some owner →
        ∃ b, call.innermost = some b ∧ b.isDeclaration = true ∧ b.declaredOwner = some owner := by
      intro owner hsome
      rw [call.receiverOwner, Option.bind_eq_some_iff] at hsome
      obtain ⟨p, hp, hdeclared⟩ := hsome
      obtain ⟨b, hb, hplain | hsame⟩ := hright p hp owner hdeclared
      · have hsame := call.innermostPlain_of_isPlain hb hplain
        rw [hp, Option.some.injEq] at hsame
        subst hsame
        exact ⟨p, hb, (Bool.and_eq_true_iff.1 hplain).1, hdeclared⟩
      · exact ⟨b, hb, isDeclaration_of_declaredOwner hsame, hsame⟩
    refine ⟨howner, fun b hb hother => ?_⟩
    cases hsome : rustReceiverOwner call.callee with
    | none => rfl
    | some owner =>
      obtain ⟨b', hb', hdecl, -⟩ := howner owner hsome
      rw [hb, Option.some.injEq] at hb'
      rw [← hb', hother] at hdecl
      cases hdecl

end NamedCall

/-! ### A loop variable -/

/-- `fn f(x: A) { for x in x { x.m() } }`. -/
def loopShadow : SyntaxTree :=
  (group "function_item" [
    ("", sign "fn"),
    ("name", word "identifier" "f"),
    ("parameters", group "parameters" [
      ("", sign "("),
      ("", group "parameter" [
        ("pattern", word "identifier" "x"), ("", sign ":"), ("type", word "type_identifier" "A")]),
      ("", sign ")")]),
    ("body", group "block" [
      ("", sign "\x7b"),
      ("", group "expression_statement" [
        ("", group "for_expression" [
          ("", sign "for"), ("pattern", word "identifier" "x"), ("", sign "in"),
          ("value", word "identifier" "x"),
          ("body", group "block" [
            ("", sign "\x7b"),
            ("", group "call_expression" [
              ("function", group "field_expression" [
                ("value", word "identifier" "x"), ("", sign "."),
                ("field", word "field_identifier" "m")]),
              ("arguments", group "arguments" [("", sign "("), ("", sign ")")])]),
            ("", sign "\x7d")])])]),
      ("", sign "\x7d")])]).tree

/-- The node that the numbers of the children lead to, from the function on. -/
def loopNode (path : List ℕ) : SyntaxNode :=
  path.foldl (fun node i => node.children[i]?.getD node) loopShadow.root

/-- The nodes between the function and the call of `m`, the innermost first. -/
def loopInner : List SyntaxNode :=
  [loopNode [3, 1, 0, 4, 1, 0], loopNode [3, 1, 0, 4, 1], loopNode [3, 1, 0, 4], loopNode [3, 1, 0],
    loopNode [3, 1]]

/-- The call of `m` gets the owner of the parameter, though `x` is the variable of the loop. -/
theorem loopCall_owner :
    ∃ call : NamedCall, call.function = loopShadow.root ∧ call.callee.text = "m" ∧ call.name = "x" ∧
      rustReceiverOwner call.callee = some "A" ∧
      call.innermost.map Binder.kind = some .forPattern ∧ ¬call.OwnersFollowScope := by
  let call : NamedCall :=
    { callee := loopNode [3, 1, 0, 4, 1, 0, 2]
      field := loopNode [3, 1, 0, 4, 1, 0]
      receiver := loopNode [3, 1, 0, 4, 1, 0, 0]
      inner := loopInner
      body := loopNode [3]
      function := loopNode []
      outer := []
      parent_eq := by decide +kernel
      field_kind := by decide +kernel
      receiver_eq := by decide +kernel
      receiver_kind := by decide +kernel
      name_ne_self := by decide +kernel
      name_ne_empty := by decide +kernel
      ancestors_eq := by decide +kernel
      inner_kind := by decide +kernel
      body_kind := by decide +kernel
      function_kind := by decide +kernel
      body_eq := by decide +kernel }
  have howner : rustReceiverOwner call.callee = some "A" := by decide +kernel
  have hloop : call.innermost.map Binder.kind = some .forPattern := by decide +kernel
  refine ⟨call, rfl, by decide +kernel, by decide +kernel, howner, hloop, fun ⟨_, hother⟩ => ?_⟩
  obtain ⟨b, hb, hkind⟩ := Option.map_eq_some_iff.1 hloop
  have hnone := hother b hb (by rw [Binder.isDeclaration, hkind]; rfl)
  rw [howner] at hnone
  cases hnone

end Rust

end Extract
