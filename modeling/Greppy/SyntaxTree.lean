/-
**Syntax trees, their nodes, and queries.**

A syntax tree is what a parsing library returns: every node has a kind, a span and the text of the
source under it, and its children may be the values of fields.  A node is looked at from inside its
tree, so that one can go up to its parent as well as down to its children: it is a subtree together
with the trees above it.

A query is a list of patterns.  A pattern matches a node by its kind, asks for children that match
patterns of their own, in their order, and captures some of the nodes that it matched.

Main definitions:

* `SyntaxTree`, `SyntaxNode` — trees, and the nodes of a tree;
* `SyntaxNode.parent`, `ancestors`, `children`, `childByFieldName` — the ways around in a tree;
* `SyntaxTree.nodes` — all nodes, parents before children;
* `SyntaxTree.namedNodes`, `stackNodes` — other orders of visiting the nodes;
* `Pattern`, `pattern`, `SyntaxTree.matches`, `captures` — queries and what they capture;
* `Grown`, `word`, `sign`, `group` — the tree of a text on one line.

Main results:

* `SyntaxTree.children_mem_nodes`, `SyntaxTree.ancestors_mem_nodes` — the nodes of a tree are closed
  under going down and up;
* `mem_pattern_one` — what a pattern with one child matches;
* `capturesOnly_pattern` — what a pattern captures, from what its parts capture.
-/

import Mathlib.Data.List.Basic

set_option autoImplicit false

/-! ### Trees -/

/-- The place of a node in the source, and what stands there. -/
structure NodeData where
  kind : String
  /-- Whether the node is named in the grammar; the others are its fixed tokens. -/
  isNamed : Bool
  startByte : ℕ
  endByte : ℕ
  startRow : ℕ
  endRow : ℕ
  text : String
deriving DecidableEq

mutual

inductive SyntaxTree where
  | node (data : NodeData) (children : SyntaxForest)

/-- The children of a node, each with the field that it is the value of. -/
inductive SyntaxForest where
  | nil
  | cons (field : Option String) (tree : SyntaxTree) (rest : SyntaxForest)

end

deriving instance DecidableEq for SyntaxTree, SyntaxForest

def SyntaxTree.data : SyntaxTree → NodeData
  | .node data _ => data

def SyntaxTree.forest : SyntaxTree → SyntaxForest
  | .node _ children => children

/-- The first tree of a forest with a property, and its field. -/
def SyntaxForest.find? (p : Option String → SyntaxTree → Bool) : SyntaxForest → Option SyntaxTree
  | .nil => none
  | .cons field tree rest => if p field tree then some tree else rest.find? p

/-- A node of a tree: the tree under it, and the trees above it, the nearest first, each with the number
of the child that leads down. -/
structure SyntaxNode where
  tree : SyntaxTree
  above : List (SyntaxTree × ℕ)
deriving DecidableEq

namespace SyntaxNode

def kind (n : SyntaxNode) : String := n.tree.data.kind

def isNamed (n : SyntaxNode) : Bool := n.tree.data.isNamed

def text (n : SyntaxNode) : String := n.tree.data.text

def startByte (n : SyntaxNode) : ℕ := n.tree.data.startByte

def endByte (n : SyntaxNode) : ℕ := n.tree.data.endByte

def startRow (n : SyntaxNode) : ℕ := n.tree.data.startRow

def endRow (n : SyntaxNode) : ℕ := n.tree.data.endRow

/-- The numbers of the children on the way from the root, the last one first. -/
def path (n : SyntaxNode) : List ℕ := n.above.map Prod.snd

/-! ### Up -/

def parent : SyntaxNode → Option SyntaxNode
  | ⟨_, []⟩ => none
  | ⟨_, (tree, _) :: above⟩ => some ⟨tree, above⟩

def nodesAbove : List (SyntaxTree × ℕ) → List SyntaxNode
  | [] => []
  | (tree, _) :: above => ⟨tree, above⟩ :: nodesAbove above

/-- The ancestors of a node, its parent first. -/
def ancestors (n : SyntaxNode) : List SyntaxNode := nodesAbove n.above

theorem ancestors_eq (n : SyntaxNode) :
    n.ancestors = match n.parent with
      | none => []
      | some p => p :: p.ancestors := by
  obtain ⟨tree, above⟩ := n
  cases above with
  | nil => rfl
  | cons frame above => rfl

variable {n c : SyntaxNode} {field : Option String}

theorem ancestors_of_parent {p : SyntaxNode} (h : n.parent = some p) :
    n.ancestors = p :: p.ancestors := by
  rw [ancestors_eq, h]

/-! ### Down -/

def childrenFrom (n : SyntaxNode) : ℕ → SyntaxForest → List (Option String × SyntaxNode)
  | _, .nil => []
  | i, .cons field tree rest =>
    (field, ⟨tree, (n.tree, i) :: n.above⟩) :: childrenFrom n (i + 1) rest

def fieldChildren (n : SyntaxNode) : List (Option String × SyntaxNode) :=
  n.childrenFrom 0 n.tree.forest

def children (n : SyntaxNode) : List SyntaxNode := n.fieldChildren.map Prod.snd

def namedChildren (n : SyntaxNode) : List SyntaxNode := n.children.filter isNamed

def childByFieldName (n : SyntaxNode) (field : String) : Option SyntaxNode :=
  (n.fieldChildren.find? fun c => c.1 == some field).map Prod.snd

theorem parent_of_mem_childrenFrom {i : ℕ} {forest : SyntaxForest}
    (h : (field, c) ∈ n.childrenFrom i forest) : c.parent = some n := by
  match forest with
  | .nil => cases h
  | .cons field tree rest =>
    rcases List.mem_cons.1 h with heq | hrest
    · cases heq
      rfl
    · exact parent_of_mem_childrenFrom hrest

theorem parent_of_mem_fieldChildren (h : (field, c) ∈ n.fieldChildren) : c.parent = some n :=
  parent_of_mem_childrenFrom h

theorem mem_children_of_mem_fieldChildren (h : (field, c) ∈ n.fieldChildren) : c ∈ n.children :=
  List.mem_map.2 ⟨(field, c), h, rfl⟩

theorem mem_of_childByFieldName {field : String} (h : n.childByFieldName field = some c) :
    (some field, c) ∈ n.fieldChildren := by
  obtain ⟨⟨found, c⟩, hfind, rfl⟩ := Option.map_eq_some_iff.1 h
  have hsome := List.find?_some hfind
  have hfield : found = some field := eq_of_beq hsome
  subst hfield
  exact List.mem_of_find?_eq_some hfind

theorem parent_of_childByFieldName {field : String} (h : n.childByFieldName field = some c) :
    c.parent = some n :=
  parent_of_mem_fieldChildren (mem_of_childByFieldName h)

theorem childByFieldName_of_unique {field : String} (hc : (some field, c) ∈ n.fieldChildren)
    (hunique : ∀ x, (some field, x) ∈ n.fieldChildren → x = c) :
    n.childByFieldName field = some c := by
  cases hfound : n.childByFieldName field with
  | some found => rw [hunique found (mem_of_childByFieldName hfound)]
  | none =>
    rw [childByFieldName, Option.map_eq_none_iff, List.find?_eq_none] at hfound
    exact absurd (beq_self_eq_true _) (hfound _ hc)

end SyntaxNode

/-! ### All nodes -/

mutual

def SyntaxTree.nodesAt (above : List (SyntaxTree × ℕ)) : SyntaxTree → List SyntaxNode
  | .node data children =>
    ⟨.node data children, above⟩ :: children.nodesAt (.node data children) above 0

/-- The nodes of the trees from a number on. -/
def SyntaxForest.nodesAt (parent : SyntaxTree) (above : List (SyntaxTree × ℕ)) :
    ℕ → SyntaxForest → List SyntaxNode
  | _, .nil => []
  | i, .cons _ tree rest =>
    tree.nodesAt ((parent, i) :: above) ++ rest.nodesAt parent above (i + 1)

end

namespace SyntaxTree

def root (tree : SyntaxTree) : SyntaxNode := ⟨tree, []⟩

/-- All nodes of the tree, parents before children. -/
def nodes (tree : SyntaxTree) : List SyntaxNode := tree.nodesAt []

theorem self_mem_nodesAt (above : List (SyntaxTree × ℕ)) (tree : SyntaxTree) :
    (⟨tree, above⟩ : SyntaxNode) ∈ tree.nodesAt above := by
  cases tree
  exact List.mem_cons_self

theorem mem_nodesAt_of_mem_childrenFrom {parent : SyntaxTree} {above : List (SyntaxTree × ℕ)}
    {i : ℕ} {forest : SyntaxForest} {c : Option String × SyntaxNode}
    (h : c ∈ SyntaxNode.childrenFrom ⟨parent, above⟩ i forest) :
    c.2 ∈ forest.nodesAt parent above i := by
  match forest with
  | .nil => cases h
  | .cons field tree rest =>
    rw [SyntaxForest.nodesAt]
    rcases List.mem_cons.1 h with rfl | hrest
    · exact List.mem_append_left _ (self_mem_nodesAt _ tree)
    · exact List.mem_append_right _ (mem_nodesAt_of_mem_childrenFrom hrest)

mutual

theorem nodesAt_closed {n c : SyntaxNode} (hc : c ∈ n.children) {above : List (SyntaxTree × ℕ)} :
    ∀ tree : SyntaxTree, n ∈ tree.nodesAt above → c ∈ tree.nodesAt above
  | .node data children => by
    intro h
    rw [nodesAt] at h ⊢
    refine List.mem_cons_of_mem _ ?_
    rcases List.mem_cons.1 h with rfl | hbelow
    · obtain ⟨child, hchild, rfl⟩ := List.mem_map.1 hc
      exact mem_nodesAt_of_mem_childrenFrom hchild
    · exact forest_nodesAt_closed hc children hbelow

theorem forest_nodesAt_closed {n c : SyntaxNode} (hc : c ∈ n.children) {parent : SyntaxTree}
    {above : List (SyntaxTree × ℕ)} {i : ℕ} :
    ∀ forest : SyntaxForest, n ∈ forest.nodesAt parent above i → c ∈ forest.nodesAt parent above i
  | .nil => fun h => by cases h
  | .cons field tree rest => by
    intro h
    rw [SyntaxForest.nodesAt] at h ⊢
    rcases List.mem_append.1 h with hhere | hrest
    · exact List.mem_append_left _ (nodesAt_closed hc tree hhere)
    · exact List.mem_append_right _ (forest_nodesAt_closed hc rest hrest)

end

mutual

/-- A node of a tree is its root, or the child of another node of it. -/
theorem nodesAt_inv {n : SyntaxNode} {above : List (SyntaxTree × ℕ)} :
    ∀ tree : SyntaxTree, n ∈ tree.nodesAt above →
      n = ⟨tree, above⟩ ∨ ∃ p ∈ tree.nodesAt above, n.parent = some p
  | .node data children => by
    intro h
    rw [nodesAt] at h ⊢
    rcases List.mem_cons.1 h with rfl | hbelow
    · exact .inl rfl
    · right
      rcases forest_nodesAt_inv children hbelow with hparent | ⟨p, hp, hparent⟩
      · exact ⟨_, List.mem_cons_self, hparent⟩
      · exact ⟨p, List.mem_cons_of_mem _ hp, hparent⟩

theorem forest_nodesAt_inv {n : SyntaxNode} {parent : SyntaxTree} {above : List (SyntaxTree × ℕ)}
    {i : ℕ} :
    ∀ forest : SyntaxForest, n ∈ forest.nodesAt parent above i →
      n.parent = some ⟨parent, above⟩ ∨ ∃ p ∈ forest.nodesAt parent above i, n.parent = some p
  | .nil => fun h => by cases h
  | .cons field tree rest => by
    intro h
    rw [SyntaxForest.nodesAt] at h ⊢
    rcases List.mem_append.1 h with hhere | hrest
    · rcases nodesAt_inv tree hhere with rfl | ⟨p, hp, hparent⟩
      · exact .inl rfl
      · exact .inr ⟨p, List.mem_append_left _ hp, hparent⟩
    · rcases forest_nodesAt_inv rest hrest with hparent | ⟨p, hp, hparent⟩
      · exact .inl hparent
      · exact .inr ⟨p, List.mem_append_right _ hp, hparent⟩

end

variable {tree : SyntaxTree} {n p c : SyntaxNode}

theorem children_mem_nodes (h : n ∈ tree.nodes) (hc : c ∈ n.children) : c ∈ tree.nodes :=
  nodesAt_closed hc tree h

theorem parent_mem_nodes (h : n ∈ tree.nodes) (hp : n.parent = some p) : p ∈ tree.nodes := by
  rcases nodesAt_inv tree h with rfl | ⟨q, hq, hparent⟩
  · cases hp
  · rw [hp] at hparent
    cases hparent
    exact hq

theorem ancestors_mem_nodes (h : n ∈ tree.nodes) (hp : p ∈ n.ancestors) : p ∈ tree.nodes := by
  obtain ⟨subtree, above⟩ := n
  induction above generalizing subtree with
  | nil => cases hp
  | cons frame above ih =>
    have hparent : (⟨frame.1, above⟩ : SyntaxNode) ∈ tree.nodes := parent_mem_nodes h rfl
    rcases List.mem_cons.1 hp with rfl | hrest
    · exact hparent
    · exact ih frame.1 hparent hrest

mutual

theorem nodesAt_subset {tree : SyntaxTree} {above : List (SyntaxTree × ℕ)} :
    ∀ t : SyntaxTree, (⟨t, above⟩ : SyntaxNode) ∈ tree.nodes → ∀ m ∈ t.nodesAt above, m ∈ tree.nodes
  | .node data children => by
    intro h m hm
    rw [nodesAt] at hm
    rcases List.mem_cons.1 hm with rfl | hbelow
    · exact h
    · refine forest_nodesAt_subset children (fun c hc => ?_) m hbelow
      exact children_mem_nodes h (List.mem_map.2 ⟨c, hc, rfl⟩)

theorem forest_nodesAt_subset {tree parent : SyntaxTree} {above : List (SyntaxTree × ℕ)} {i : ℕ} :
    ∀ forest : SyntaxForest,
      (∀ c ∈ SyntaxNode.childrenFrom ⟨parent, above⟩ i forest, c.2 ∈ tree.nodes) →
      ∀ m ∈ forest.nodesAt parent above i, m ∈ tree.nodes
  | .nil => fun _ m hm => by cases hm
  | .cons field t rest => by
    intro h m hm
    rw [SyntaxForest.nodesAt] at hm
    rcases List.mem_append.1 hm with hhere | hrest
    · exact nodesAt_subset t (h _ List.mem_cons_self) m hhere
    · exact forest_nodesAt_subset rest (fun c hc => h c (List.mem_cons_of_mem _ hc)) m hrest

end

theorem mem_nodes_of_below (h : n ∈ tree.nodes) {m : SyntaxNode} (hm : m ∈ n.tree.nodesAt n.above) :
    m ∈ tree.nodes := nodesAt_subset n.tree h m hm

theorem childByFieldName_mem_nodes (h : n ∈ tree.nodes) {field : String}
    (hc : n.childByFieldName field = some c) : c ∈ tree.nodes :=
  children_mem_nodes h
    (SyntaxNode.mem_children_of_mem_fieldChildren (SyntaxNode.mem_of_childByFieldName hc))

/-! ### Orders of visiting -/

mutual

/-- The nodes that one comes to by going down to named children only. -/
def namedAt (above : List (SyntaxTree × ℕ)) : SyntaxTree → List SyntaxNode
  | .node data children =>
    ⟨.node data children, above⟩ :: namedUnder (.node data children) above 0 children

def namedUnder (parent : SyntaxTree) (above : List (SyntaxTree × ℕ)) :
    ℕ → SyntaxForest → List SyntaxNode
  | _, .nil => []
  | i, .cons _ tree rest =>
    (if tree.data.isNamed then namedAt ((parent, i) :: above) tree else []) ++
      namedUnder parent above (i + 1) rest

end

mutual

/-- The nodes in the order in which a stack gives them back: the last child first. -/
def stackAt (above : List (SyntaxTree × ℕ)) : SyntaxTree → List SyntaxNode
  | .node data children =>
    ⟨.node data children, above⟩ :: stackUnder (.node data children) above 0 children

def stackUnder (parent : SyntaxTree) (above : List (SyntaxTree × ℕ)) :
    ℕ → SyntaxForest → List SyntaxNode
  | _, .nil => []
  | i, .cons _ tree rest =>
    stackUnder parent above (i + 1) rest ++ stackAt ((parent, i) :: above) tree

end

def namedNodes (tree : SyntaxTree) : List SyntaxNode := namedAt [] tree

/-- The nodes of the tree, the last child first. -/
def stackNodes (tree : SyntaxTree) : List SyntaxNode := stackAt [] tree

mutual

theorem mem_nodesAt_of_namedAt {n : SyntaxNode} {above : List (SyntaxTree × ℕ)} :
    ∀ tree : SyntaxTree, n ∈ namedAt above tree → n ∈ tree.nodesAt above
  | .node data children => by
    intro h
    rw [namedAt] at h
    rw [nodesAt]
    rcases List.mem_cons.1 h with rfl | hbelow
    · exact List.mem_cons_self
    · exact List.mem_cons_of_mem _ (mem_nodesAt_of_namedUnder children hbelow)

theorem mem_nodesAt_of_namedUnder {n : SyntaxNode} {parent : SyntaxTree}
    {above : List (SyntaxTree × ℕ)} {i : ℕ} :
    ∀ forest : SyntaxForest, n ∈ namedUnder parent above i forest →
      n ∈ forest.nodesAt parent above i
  | .nil => fun h => by cases h
  | .cons field tree rest => by
    intro h
    rw [namedUnder] at h
    rw [SyntaxForest.nodesAt]
    rcases List.mem_append.1 h with hhere | hrest
    · split_ifs at hhere
      · exact List.mem_append_left _ (mem_nodesAt_of_namedAt tree hhere)
      · cases hhere
    · exact List.mem_append_right _ (mem_nodesAt_of_namedUnder rest hrest)

end

mutual

theorem mem_nodesAt_of_stackAt {n : SyntaxNode} {above : List (SyntaxTree × ℕ)} :
    ∀ tree : SyntaxTree, n ∈ stackAt above tree → n ∈ tree.nodesAt above
  | .node data children => by
    intro h
    rw [stackAt] at h
    rw [nodesAt]
    rcases List.mem_cons.1 h with rfl | hbelow
    · exact List.mem_cons_self
    · exact List.mem_cons_of_mem _ (mem_nodesAt_of_stackUnder children hbelow)

theorem mem_nodesAt_of_stackUnder {n : SyntaxNode} {parent : SyntaxTree}
    {above : List (SyntaxTree × ℕ)} {i : ℕ} :
    ∀ forest : SyntaxForest, n ∈ stackUnder parent above i forest →
      n ∈ forest.nodesAt parent above i
  | .nil => fun h => by cases h
  | .cons field tree rest => by
    intro h
    rw [stackUnder] at h
    rw [SyntaxForest.nodesAt]
    rcases List.mem_append.1 h with hrest | hhere
    · exact List.mem_append_right _ (mem_nodesAt_of_stackUnder rest hrest)
    · exact List.mem_append_left _ (mem_nodesAt_of_stackAt tree hhere)

end

theorem mem_nodes_of_namedNodes (h : n ∈ tree.namedNodes) : n ∈ tree.nodes :=
  mem_nodesAt_of_namedAt tree h

theorem mem_nodes_of_stackNodes (h : n ∈ tree.stackNodes) : n ∈ tree.nodes :=
  mem_nodesAt_of_stackAt tree h

end SyntaxTree

/-! ### Queries -/

/-- What a pattern captured: nodes under the names of the captures. -/
abbrev Match : Type := List (String × SyntaxNode)

/-- A pattern, as the ways in which it matches a node. -/
abbrev Pattern : Type := SyntaxNode → List Match

/-- The ways in which children match patterns, one after the other; a pattern may ask for a field. -/
def matchChildren : List (Option String × SyntaxNode) → List (Option String × Pattern) → List Match
  | _, [] => [[]]
  | [], _ :: _ => []
  | (field, c) :: rest, (wanted, p) :: patterns =>
    (if wanted = none ∨ wanted = field then
      (p c).flatMap fun m => (matchChildren rest patterns).map (m ++ ·)
    else []) ++ matchChildren rest ((wanted, p) :: patterns)

/-- Whether a node is of one of these kinds; without any it only has to be named. -/
def IsOf (kinds : List String) (n : SyntaxNode) : Prop :=
  n.isNamed = true ∧ (kinds = [] ∨ n.kind ∈ kinds)

instance (kinds : List String) (n : SyntaxNode) : Decidable (IsOf kinds n) :=
  inferInstanceAs (Decidable (_ ∧ (_ ∨ _)))

/-- The pattern of a node of one of these kinds, with patterns for its children. -/
def pattern (kinds : List String) (capture : Option String)
    (children : List (Option String × Pattern)) : Pattern := fun n =>
  if IsOf kinds n then
    (matchChildren n.fieldChildren children).map fun m =>
      (capture.map fun name => (name, n)).toList ++ m
  else []

def SyntaxTree.matches (tree : SyntaxTree) (query : List Pattern) : List Match :=
  tree.nodes.flatMap fun n => query.flatMap fun p => p n

def SyntaxTree.captures (tree : SyntaxTree) (query : List Pattern) : Match :=
  (tree.matches query).flatten

variable {query : List Pattern} {m : Match} {cs : List (Option String × SyntaxNode)}
  {wanted capture : Option String} {p : Pattern} {kinds : List String} {n x : SyntaxNode}
  {name : String} {K : SyntaxNode → Prop}

theorem SyntaxTree.mem_matches {tree : SyntaxTree} :
    m ∈ tree.matches query ↔ ∃ n ∈ tree.nodes, ∃ p ∈ query, m ∈ p n := by
  simp only [SyntaxTree.matches, List.mem_flatMap]

theorem SyntaxTree.mem_captures {tree : SyntaxTree} {cap : String × SyntaxNode} :
    cap ∈ tree.captures query ↔ ∃ m ∈ tree.matches query, cap ∈ m := List.mem_flatten

theorem matchChildren_nil (cs : List (Option String × SyntaxNode)) : matchChildren cs [] = [[]] := by
  cases cs <;> rfl

theorem mem_matchChildren_one :
    m ∈ matchChildren cs [(wanted, p)] ↔
      ∃ c ∈ cs, (wanted = none ∨ wanted = c.1) ∧ m ∈ p c.2 := by
  induction cs with
  | nil => simp [matchChildren]
  | cons c rest ih =>
    obtain ⟨field, c⟩ := c
    rw [matchChildren, List.mem_append, ih]
    by_cases hfield : wanted = none ∨ wanted = field
    · simp [hfield, matchChildren_nil]
    · simp [hfield]

/-- Patterns for two children match each two children that they fit, in their order. -/
theorem mem_matchChildren_two {wanted' : Option String} {p' : Pattern} :
    m ∈ matchChildren cs [(wanted, p), (wanted', p')] ↔
      ∃ c c', [c, c'].Sublist cs ∧ (wanted = none ∨ wanted = c.1) ∧
        (wanted' = none ∨ wanted' = c'.1) ∧ ∃ first ∈ p c.2, ∃ second ∈ p' c'.2,
          m = first ++ second := by
  induction cs with
  | nil => simp [matchChildren]
  | cons c rest ih =>
    obtain ⟨field, c⟩ := c
    rw [matchChildren, List.mem_append, ih]
    constructor
    · rintro (hhere | ⟨a, b, hsub, hab⟩)
      · split_ifs at hhere with hfield
        · obtain ⟨first, hfirst, hmap⟩ := List.mem_flatMap.1 hhere
          obtain ⟨second, hsecond, rfl⟩ := List.mem_map.1 hmap
          obtain ⟨b, hb, hfield', hsecond⟩ := mem_matchChildren_one.1 hsecond
          exact ⟨(field, c), b, (List.singleton_sublist.2 hb).cons_cons _, hfield, hfield', first,
            hfirst, second, hsecond, rfl⟩
        · cases hhere
      · exact ⟨a, b, hsub.cons _, hab⟩
    · rintro ⟨a, b, hsub, hfield, hfield', first, hfirst, second, hsecond, rfl⟩
      cases hsub with
      | cons _ hsub => exact .inr ⟨a, b, hsub, hfield, hfield', first, hfirst, second, hsecond, rfl⟩
      | cons_cons _ hsub =>
        left
        rw [if_pos hfield]
        refine List.mem_flatMap.2 ⟨first, hfirst, List.mem_map.2 ⟨second, ?_, rfl⟩⟩
        exact mem_matchChildren_one.2 ⟨b, List.singleton_sublist.1 hsub, hfield', hsecond⟩

theorem mem_pattern {children : List (Option String × Pattern)} :
    m ∈ pattern kinds capture children n ↔
      IsOf kinds n ∧ ∃ rest ∈ matchChildren n.fieldChildren children,
        m = (capture.map fun name => (name, n)).toList ++ rest := by
  by_cases hkind : IsOf kinds n
  · rw [pattern, if_pos hkind, List.mem_map]
    constructor
    · rintro ⟨rest, hrest, rfl⟩
      exact ⟨hkind, rest, hrest, rfl⟩
    · rintro ⟨_, rest, hrest, rfl⟩
      exact ⟨rest, hrest, rfl⟩
  · simp [pattern, hkind]

/-- A pattern without children captures the node, if it has a name for it. -/
theorem mem_pattern_nil :
    m ∈ pattern kinds capture [] n ↔
      IsOf kinds n ∧ m = (capture.map fun name => (name, n)).toList := by
  by_cases hkind : IsOf kinds n
  · simp [pattern, hkind, matchChildren_nil]
  · simp [pattern, hkind]

theorem mem_pattern_one :
    m ∈ pattern kinds capture [(wanted, p)] n ↔
      IsOf kinds n ∧ ∃ c ∈ n.fieldChildren, (wanted = none ∨ wanted = c.1) ∧
        ∃ rest ∈ p c.2, m = (capture.map fun name => (name, n)).toList ++ rest := by
  simp only [mem_pattern, mem_matchChildren_one]
  constructor
  · rintro ⟨hkind, rest, ⟨c, hc, hfield, hrest⟩, rfl⟩
    exact ⟨hkind, c, hc, hfield, rest, hrest, rfl⟩
  · rintro ⟨hkind, c, hc, hfield, rest, hrest, rfl⟩
    exact ⟨hkind, rest, ⟨c, hc, hfield, hrest⟩, rfl⟩

/-- What a pattern captures under a name is in the tree and has the property. -/
def CapturesOnly (p : Pattern) (name : String) (K : SyntaxNode → Prop) : Prop :=
  ∀ ⦃tree : SyntaxTree⦄ ⦃n x : SyntaxNode⦄ ⦃m : Match⦄,
    n ∈ tree.nodes → m ∈ p n → (name, x) ∈ m → x ∈ tree.nodes ∧ K x

theorem capturesOnly_matchChildren {patterns : List (Option String × Pattern)}
    (h : ∀ child ∈ patterns, CapturesOnly child.2 name K) {tree : SyntaxTree}
    (hcs : ∀ c ∈ cs, c.2 ∈ tree.nodes) (hm : m ∈ matchChildren cs patterns) (hx : (name, x) ∈ m) :
    x ∈ tree.nodes ∧ K x := by
  induction cs generalizing patterns m with
  | nil =>
    cases patterns with
    | nil =>
      cases List.mem_singleton.1 hm
      cases hx
    | cons child patterns => cases hm
  | cons c rest ih =>
    obtain ⟨field, c⟩ := c
    have hrest : ∀ c ∈ rest, c.2 ∈ tree.nodes := fun c hc => hcs c (List.mem_cons_of_mem _ hc)
    cases patterns with
    | nil =>
      cases List.mem_singleton.1 hm
      cases hx
    | cons child patterns =>
      obtain ⟨wanted, p⟩ := child
      rw [matchChildren, List.mem_append] at hm
      rcases hm with hhere | hlater
      · split_ifs at hhere with hfield
        · obtain ⟨first, hfirst, hmap⟩ := List.mem_flatMap.1 hhere
          obtain ⟨second, hsecond, rfl⟩ := List.mem_map.1 hmap
          rcases List.mem_append.1 hx with hx | hx
          · exact h _ List.mem_cons_self (hcs _ List.mem_cons_self) hfirst hx
          · exact ih (fun child hchild => h child (List.mem_cons_of_mem _ hchild)) hrest hsecond hx
        · cases hhere
      · exact ih h hrest hlater hx

/-- The rule for a pattern: its own capture, and the captures of its children. -/
theorem capturesOnly_pattern {children : List (Option String × Pattern)}
    (hself : capture = some name → ∀ n, IsOf kinds n → K n)
    (hchildren : ∀ child ∈ children, CapturesOnly child.2 name K) :
    CapturesOnly (pattern kinds capture children) name K := by
  intro tree n x m hn hm hx
  unfold pattern at hm
  split_ifs at hm with hkind
  · obtain ⟨rest, hrest, rfl⟩ := List.mem_map.1 hm
    rcases List.mem_append.1 hx with hx | hx
    · obtain ⟨found, hfound, heq⟩ := Option.map_eq_some_iff.1 (Option.mem_toList.1 hx)
      cases heq
      exact ⟨hn, hself hfound _ hkind⟩
    · refine capturesOnly_matchChildren hchildren (fun c hc => ?_) hrest hx
      exact SyntaxTree.children_mem_nodes hn (SyntaxNode.mem_children_of_mem_fieldChildren hc)
  · cases hm

theorem capturesOnly_nil : CapturesOnly (pattern kinds capture []) name fun _ => True :=
  capturesOnly_pattern (fun _ _ _ => trivial) fun _ h => by cases h

theorem capturesOnly_one (h : CapturesOnly p name fun _ => True) :
    CapturesOnly (pattern kinds capture [(wanted, p)]) name fun _ => True := by
  refine capturesOnly_pattern (fun _ _ _ => trivial) fun child hchild => ?_
  rw [List.mem_singleton.1 hchild]
  exact h

/-- A query: it captures nodes of the tree that it is asked about. -/
structure Query where
  patterns : List Pattern
  stays : ∀ p ∈ patterns, ∀ name, CapturesOnly p name fun _ => True

theorem SyntaxTree.of_mem_matches {tree : SyntaxTree} (h : ∀ p ∈ query, CapturesOnly p name K)
    (hm : m ∈ tree.matches query) (hx : (name, x) ∈ m) : x ∈ tree.nodes ∧ K x := by
  obtain ⟨n, hn, p, hp, hmatch⟩ := SyntaxTree.mem_matches.1 hm
  exact h p hp hn hmatch hx

theorem SyntaxTree.of_mem_captures {tree : SyntaxTree} (h : ∀ p ∈ query, CapturesOnly p name K)
    (hx : (name, x) ∈ tree.captures query) : x ∈ tree.nodes ∧ K x := by
  obtain ⟨m, hm, hmem⟩ := SyntaxTree.mem_captures.1 hx
  exact SyntaxTree.of_mem_matches h hm hmem

/-- The nodes that a query captures under a name. -/
def SyntaxTree.capturedAs (tree : SyntaxTree) (query : Query) (name : String) : List SyntaxNode :=
  ((tree.captures query.patterns).filter fun cap => cap.1 == name).map Prod.snd

theorem SyntaxTree.mem_capturedAs {tree : SyntaxTree} {query : Query} :
    n ∈ tree.capturedAs query name ↔ (name, n) ∈ tree.captures query.patterns := by
  constructor
  · intro h
    obtain ⟨⟨found, n⟩, hmem, rfl⟩ := List.mem_map.1 h
    obtain ⟨hmem, hname⟩ := List.mem_filter.1 hmem
    rw [← eq_of_beq hname]
    exact hmem
  · intro h
    exact List.mem_map.2 ⟨(name, n), List.mem_filter.2 ⟨h, beq_self_eq_true name⟩, rfl⟩

theorem SyntaxTree.mem_nodes_of_capturedAs {tree : SyntaxTree} {query : Query}
    (h : n ∈ tree.capturedAs query name) : n ∈ tree.nodes :=
  (SyntaxTree.of_mem_captures (fun p hp => query.stays p hp name)
    (SyntaxTree.mem_capturedAs.1 h)).1

/-! ### Trees of small texts -/

/-- A tree that begins at a byte, and the byte where the next one begins. -/
abbrev Grown : Type := ℕ → SyntaxTree × ℕ

/-- A node without children on one line, followed by a blank. -/
def leaf (isNamed : Bool) (kind text : String) : Grown := fun start =>
  let stop := start + text.utf8ByteSize
  (.node ⟨kind, isNamed, start, stop, 0, 0, text⟩ .nil, stop + 1)

def word (kind text : String) : Grown := leaf true kind text

def sign (text : String) : Grown := leaf false text text

/-- Trees one after the other, and their texts. -/
def growAll : List (String × Grown) → ℕ → SyntaxForest × List String × ℕ
  | [], start => (.nil, [], start)
  | (field, g) :: rest, start =>
    let (tree, next) := g start
    let (forest, texts, stop) := growAll rest next
    (.cons (if field = "" then none else some field) tree forest, tree.data.text :: texts, stop)

/-- A named node with children; a child without a field is given the empty one. -/
def group (kind : String) (children : List (String × Grown)) : Grown := fun start =>
  let (forest, texts, next) := growAll children start
  (.node ⟨kind, true, start, next - 1, 0, 0, " ".intercalate texts⟩ forest, next)

def Grown.tree (g : Grown) : SyntaxTree := (g 0).1
