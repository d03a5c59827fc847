/-
**Walks down a syntax tree.**

A pass over a tree goes down from the root through the named children, and may turn back at nodes of some
kinds.  A query looks at all nodes.  Where the tokens of a grammar are leaves, the two see the same named
nodes, in the same order, apart from those that stand in or under a node where the walk turns back.

Main definitions:

* `SyntaxTree.walkAt`, `SyntaxTree.walkNodes` — the walk through the named children that does not go into
  nodes of a kind;
* `TokensAreLeaves` — the tokens of a tree have no children.
-/

import Greppy.SyntaxTree

set_option autoImplicit false

def TokensAreLeaves (tree : SyntaxTree) : Prop :=
  ∀ n ∈ tree.nodes, n.isNamed = false → n.tree.forest = .nil

instance (tree : SyntaxTree) : Decidable (TokensAreLeaves tree) :=
  inferInstanceAs (Decidable (∀ n ∈ tree.nodes, _))

namespace SyntaxNode

theorem mem_nodesAbove_of_suffix {above above' : List (SyntaxTree × ℕ)} {a : SyntaxNode}
    (h : above <:+ above') (ha : a ∈ nodesAbove above) : a ∈ nodesAbove above' := by
  induction above' with
  | nil =>
    rw [List.suffix_nil.1 h] at ha
    exact ha
  | cons frame above' ih =>
    rcases List.suffix_cons_iff.1 h with rfl | hrest
    · exact ha
    · exact List.mem_cons_of_mem _ (ih hrest)

end SyntaxNode

namespace SyntaxTree

/-! ### Every node once -/

mutual

theorem above_suffix {n : SyntaxNode} {above : List (SyntaxTree × ℕ)} :
    ∀ tree : SyntaxTree, n ∈ tree.nodesAt above → above <:+ n.above
  | .node data children => by
    intro h
    rw [nodesAt] at h
    rcases List.mem_cons.1 h with rfl | hbelow
    · exact List.suffix_rfl
    · obtain ⟨j, _, hsuffix⟩ := frame_suffix children hbelow
      exact (List.suffix_cons _ _).trans hsuffix

theorem frame_suffix {n : SyntaxNode} {parent : SyntaxTree} {above : List (SyntaxTree × ℕ)} {i : ℕ} :
    ∀ forest : SyntaxForest, n ∈ forest.nodesAt parent above i →
      ∃ j, i ≤ j ∧ (parent, j) :: above <:+ n.above
  | .nil => fun h => by cases h
  | .cons field tree rest => by
    intro h
    rw [SyntaxForest.nodesAt] at h
    rcases List.mem_append.1 h with hhere | hrest
    · exact ⟨i, Nat.le_refl i, above_suffix tree hhere⟩
    · obtain ⟨j, hj, hsuffix⟩ := frame_suffix rest hrest
      exact ⟨j, by omega, hsuffix⟩

end

theorem parent_mem_ancestors {n : SyntaxNode} {parent : SyntaxTree} {above : List (SyntaxTree × ℕ)} {i : ℕ}
    {forest : SyntaxForest} (h : n ∈ forest.nodesAt parent above i) : ⟨parent, above⟩ ∈ n.ancestors := by
  obtain ⟨j, _, hsuffix⟩ := frame_suffix forest h
  exact SyntaxNode.mem_nodesAbove_of_suffix hsuffix List.mem_cons_self

mutual

theorem nodesAt_nodup {above : List (SyntaxTree × ℕ)} : ∀ tree : SyntaxTree, (tree.nodesAt above).Nodup
  | .node data children => by
    rw [nodesAt]
    refine List.nodup_cons.2 ⟨fun h => ?_, forest_nodesAt_nodup children⟩
    -- the root would stand below itself
    obtain ⟨j, _, hsuffix⟩ := frame_suffix children h
    have hlen := hsuffix.length_le
    exact absurd hlen (Nat.not_succ_le_self _)

theorem forest_nodesAt_nodup {parent : SyntaxTree} {above : List (SyntaxTree × ℕ)} {i : ℕ} :
    ∀ forest : SyntaxForest, (forest.nodesAt parent above i).Nodup
  | .nil => List.nodup_nil
  | .cons field tree rest => by
    rw [SyntaxForest.nodesAt]
    refine List.nodup_append.2 ⟨nodesAt_nodup tree, forest_nodesAt_nodup rest, ?_⟩
    rintro n hhere m hrest rfl
    -- a node below two children would go through both
    have hi := above_suffix tree hhere
    obtain ⟨j, hj, hsuffix⟩ := frame_suffix rest hrest
    have heq := (List.suffix_of_suffix_length_le hi hsuffix (by simp)).eq_of_length (by simp)
    simp only [List.cons.injEq, Prod.mk.injEq] at heq
    omega

end

theorem nodes_nodup (tree : SyntaxTree) : tree.nodes.Nodup := nodesAt_nodup tree

/-! ### Walks -/

mutual

/-- The nodes that one comes to through named children, without going into those where one turns back. -/
def walkAt (stop : NodeData → Bool) (above : List (SyntaxTree × ℕ)) : SyntaxTree → List SyntaxNode
  | .node data children =>
    if stop data then []
    else ⟨.node data children, above⟩ :: walkUnder stop (.node data children) above 0 children

def walkUnder (stop : NodeData → Bool) (parent : SyntaxTree) (above : List (SyntaxTree × ℕ)) :
    ℕ → SyntaxForest → List SyntaxNode
  | _, .nil => []
  | i, .cons _ tree rest =>
    (if tree.data.isNamed then walkAt stop ((parent, i) :: above) tree else []) ++
      walkUnder stop parent above (i + 1) rest

end

def walkNodes (tree : SyntaxTree) (stop : NodeData → Bool) : List SyntaxNode := walkAt stop [] tree

mutual

theorem mem_nodesAt_of_walkAt {stop : NodeData → Bool} {n : SyntaxNode} {above : List (SyntaxTree × ℕ)} :
    ∀ tree : SyntaxTree, n ∈ walkAt stop above tree → n ∈ tree.nodesAt above
  | .node data children => by
    intro h
    rw [walkAt] at h
    rw [nodesAt]
    split_ifs at h
    · cases h
    · rcases List.mem_cons.1 h with rfl | hbelow
      · exact List.mem_cons_self
      · exact List.mem_cons_of_mem _ (mem_nodesAt_of_walkUnder children hbelow)

theorem mem_nodesAt_of_walkUnder {stop : NodeData → Bool} {n : SyntaxNode} {parent : SyntaxTree}
    {above : List (SyntaxTree × ℕ)} {i : ℕ} :
    ∀ forest : SyntaxForest, n ∈ walkUnder stop parent above i forest → n ∈ forest.nodesAt parent above i
  | .nil => fun h => by cases h
  | .cons field tree rest => by
    intro h
    rw [walkUnder] at h
    rw [SyntaxForest.nodesAt]
    rcases List.mem_append.1 h with hhere | hrest
    · split_ifs at hhere
      · exact List.mem_append_left _ (mem_nodesAt_of_walkAt tree hhere)
      · cases hhere
    · exact List.mem_append_right _ (mem_nodesAt_of_walkUnder rest hrest)

end

theorem mem_nodes_of_walkNodes {tree : SyntaxTree} {stop : NodeData → Bool} {n : SyntaxNode}
    (h : n ∈ tree.walkNodes stop) : n ∈ tree.nodes := mem_nodesAt_of_walkAt tree h

/-- A node where no walk turns back, nor above it. -/
def isOutside (stop : NodeData → Bool) (n : SyntaxNode) : Bool :=
  !stop n.tree.data && n.ancestors.all fun a => !stop a.tree.data

section Filter

variable {stop : NodeData → Bool} {p : SyntaxNode → Bool}

mutual

theorem walkAt_filter (hp : ∀ n, p n = true → n.isNamed = true) {above : List (SyntaxTree × ℕ)}
    (habove : ∀ a ∈ SyntaxNode.nodesAbove above, stop a.tree.data = false) :
    ∀ tree : SyntaxTree, (∀ n ∈ tree.nodesAt above, n.isNamed = false → n.tree.forest = .nil) →
      (walkAt stop above tree).filter p = (tree.nodesAt above).filter fun n => p n && isOutside stop n
  | .node data children => by
    intro hleaves
    rw [nodesAt] at hleaves ⊢
    rw [walkAt]
    by_cases hstop : stop data = true
    · rw [if_pos hstop, List.filter_nil, eq_comm, List.filter_eq_nil_iff]
      intro n hn hout
      obtain ⟨-, hout⟩ := Bool.and_eq_true_iff.1 hout
      obtain ⟨hself, hall⟩ := Bool.and_eq_true_iff.1 hout
      rcases List.mem_cons.1 hn with rfl | hbelow
      · change (!stop data) = true at hself
        rw [hstop] at hself
        cases hself
      · have hroot := List.all_eq_true.1 hall _ (parent_mem_ancestors hbelow)
        change (!stop data) = true at hroot
        rw [hstop] at hroot
        cases hroot
    · have hgo : stop data = false := Bool.not_eq_true _ ▸ hstop
      have hroot : isOutside stop ⟨.node data children, above⟩ = true :=
        Bool.and_eq_true_iff.2 ⟨by change (!stop data) = true; rw [hgo]; rfl,
          List.all_eq_true.2 fun a ha => by rw [habove a ha]; rfl⟩
      rw [if_neg hstop, List.filter_cons, List.filter_cons, hroot, Bool.and_true,
        walkUnder_filter hp (.node data children) hgo habove children fun n hn => hleaves n (List.mem_cons_of_mem _ hn)]

theorem walkUnder_filter (hp : ∀ n, p n = true → n.isNamed = true) (parent : SyntaxTree)
    (hparent : stop parent.data = false) {above : List (SyntaxTree × ℕ)}
    (habove : ∀ a ∈ SyntaxNode.nodesAbove above, stop a.tree.data = false) {i : ℕ} :
    ∀ forest : SyntaxForest,
      (∀ n ∈ forest.nodesAt parent above i, n.isNamed = false → n.tree.forest = .nil) →
      (walkUnder stop parent above i forest).filter p =
        (forest.nodesAt parent above i).filter fun n => p n && isOutside stop n
  | .nil => fun _ => rfl
  | .cons field tree rest => by
    intro hleaves
    rw [SyntaxForest.nodesAt] at hleaves ⊢
    have hhere : ∀ n ∈ tree.nodesAt ((parent, i) :: above), n.isNamed = false → n.tree.forest = .nil :=
      fun n hn => hleaves n (List.mem_append_left _ hn)
    rw [walkUnder, List.filter_append, List.filter_append, walkUnder_filter hp parent hparent habove rest
      fun n hn => hleaves n (List.mem_append_right _ hn)]
    congr 1
    by_cases hnamed : tree.data.isNamed = true
    · rw [if_pos hnamed]
      refine walkAt_filter hp (fun a ha => ?_) tree hhere
      rcases List.mem_cons.1 ha with rfl | hrest
      · exact hparent
      · exact habove a hrest
    · -- a token has nothing below it, and is not named itself
      rw [if_neg hnamed, List.filter_nil, eq_comm, List.filter_eq_nil_iff]
      intro n hn hpn
      have hn' : n = ⟨tree, (parent, i) :: above⟩ := by
        have hforest := hhere ⟨tree, (parent, i) :: above⟩ (self_mem_nodesAt _ tree)
          (Bool.not_eq_true _ ▸ hnamed)
        cases tree with
        | node data children =>
          change children = .nil at hforest
          rw [hforest] at hn ⊢
          exact List.mem_singleton.1 hn
      rw [hn'] at hpn
      exact hnamed (hp _ (Bool.and_eq_true_iff.1 hpn).1)

end

/-- **What a walk sees** among the named nodes: those that are not in or under a node where it turns
back. -/
theorem walkNodes_filter (stop : NodeData → Bool) (hp : ∀ n, p n = true → n.isNamed = true)
    {tree : SyntaxTree} (hleaves : TokensAreLeaves tree) :
    (tree.walkNodes stop).filter p = tree.nodes.filter fun n => p n && isOutside stop n :=
  walkAt_filter hp (fun _ ha => by cases ha) tree hleaves

mutual

theorem walkAt_never {above : List (SyntaxTree × ℕ)} :
    ∀ tree : SyntaxTree, walkAt (fun _ => false) above tree = namedAt above tree
  | .node data children => by
    rw [walkAt, namedAt, if_neg Bool.false_ne_true, walkUnder_never children]

theorem walkUnder_never {parent : SyntaxTree} {above : List (SyntaxTree × ℕ)} {i : ℕ} :
    ∀ forest : SyntaxForest,
      walkUnder (fun _ => false) parent above i forest = namedUnder parent above i forest
  | .nil => rfl
  | .cons field tree rest => by rw [walkUnder, namedUnder, walkAt_never tree, walkUnder_never rest]

end

theorem namedNodes_filter (hp : ∀ n, p n = true → n.isNamed = true) {tree : SyntaxTree}
    (hleaves : TokensAreLeaves tree) :
    tree.namedNodes.filter p = tree.nodes.filter p := by
  have h := walkNodes_filter (fun _ => false) hp hleaves
  rw [walkNodes, walkAt_never] at h
  rw [namedNodes, h]
  refine List.filter_congr fun n _ => ?_
  rw [isOutside, Bool.not_false, Bool.true_and, List.all_eq_true.2 fun _ _ => rfl, Bool.and_true]

end Filter

end SyntaxTree
