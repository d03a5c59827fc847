/-
**Edges as the traversals see them.**

Every graph query of `crates/search/src/{graph,trace}.rs` walks along edges in one of two directions,
fetching the edges of a node through the store with a cap.  What a node is joined to, with and without
the cap, is stated here once for all of them.
-/

import Greppy.BreadthFirst
import Greppy.SemanticQuery

set_option autoImplicit false

namespace Greppy

/-- `ReachDirection`, and `TraceDirection` likewise. -/
inductive ReachDirection where
  | outgoing
  | incoming
  deriving DecidableEq, Repr

namespace ReachDirection

/-- The end at which an edge is taken. -/
def here : ReachDirection → Edge → ℕ
  | outgoing, e => e.sourceId
  | incoming, e => e.targetId

def next : ReachDirection → Edge → ℕ
  | outgoing, e => e.targetId
  | incoming, e => e.sourceId

end ReachDirection

namespace Graph

def nodeIds (g : Graph) : List ℕ := g.nodes.rows.map Node.id

def getNode (g : Graph) (id : ℕ) : Option Node := g.nodes.rows.find? fun n => decide (n.id = id)

/-- `outgoing_edges` or `incoming_edges`, by the direction; without a type, edges of all types. -/
def edgesFrom (g : Graph) (direction : ReachDirection) (id : ℕ) (edgeType : Option String)
    (limit : ℕ) : List Edge :=
  sqlLimit limit <| g.edges.rows.filter fun e =>
    decide (direction.here e = id ∧ ∀ ty ∈ edgeType, e.edgeType = ty)

/-- One step along stored edges whose type is one of `types`. -/
def Joined (g : Graph) (direction : ReachDirection) (types : List String) (a b : ℕ) : Prop :=
  ∃ e ∈ g.edges.rows, e.edgeType ∈ types ∧ direction.here e = a ∧ direction.next e = b

instance (g : Graph) (direction : ReachDirection) (types : List String) (a b : ℕ) :
    Decidable (g.Joined direction types a b) :=
  inferInstanceAs (Decidable (∃ e ∈ g.edges.rows, _))

/-- One step along the edges fetched for a node, at most `cap` of each type. -/
def Fetched (g : Graph) (direction : ReachDirection) (types : List String) (cap a b : ℕ) : Prop :=
  ∃ ty ∈ types, ∃ e ∈ g.edgesFrom direction a (some ty) cap, direction.next e = b

/-- No node has more than `cap` edges of a type. -/
def WithinCap (g : Graph) (direction : ReachDirection) (types : List String) (cap : ℕ) : Prop :=
  ∀ a, ∀ ty ∈ types,
    (g.edges.rows.filter fun e => decide (direction.here e = a ∧ e.edgeType = ty)).length ≤ cap

/-! ### Nodes -/

variable {g : Graph} {id : ℕ}

theorem getNode_eq_some_iff {n : Node} : g.getNode id = some n ↔ n ∈ g.nodes.rows ∧ n.id = id := by
  constructor
  · intro h
    exact ⟨List.mem_of_find?_eq_some h, by simpa using List.find?_some h⟩
  · rintro ⟨hn, rfl⟩
    cases hf : g.getNode n.id with
    | none =>
      have hne := List.find?_eq_none.1 hf n hn
      simp at hne
    | some m =>
      have hid : m.id = n.id := by simpa using List.find?_some hf
      rw [g.node_eq_of_id_eq (List.mem_of_find?_eq_some hf) hn hid]

theorem getNode_isSome_iff : (g.getNode id).isSome ↔ id ∈ g.nodeIds := by
  rw [Option.isSome_iff_exists, nodeIds, List.mem_map]
  simp only [getNode_eq_some_iff]

theorem getNode_eq_none_iff : g.getNode id = none ↔ id ∉ g.nodeIds := by
  rw [← getNode_isSome_iff, Option.not_isSome_iff_eq_none]

theorem id_of_getNode {n : Node} (h : g.getNode id = some n) : n.id = id :=
  (getNode_eq_some_iff.1 h).2

/-! ### Edges -/

/-- A cap that fits an `i64` cuts the rows off. -/
theorem sqlLimit_eq_take {α : Type} {limit : ℕ} (h : limit < 2 ^ 63) (rows : List α) :
    sqlLimit limit rows = rows.take limit := by
  have hmod : limit % 2 ^ 64 = limit := Nat.mod_eq_of_lt (by omega)
  rw [sqlLimit, hmod, if_pos h]

variable {g : Graph} {d : ReachDirection} {types : List String} {cap : ℕ} {a b : ℕ}

theorem length_edgesFrom_le (h : cap < 2 ^ 63) (ty : Option String) :
    (g.edgesFrom d a ty cap).length ≤ cap := by
  rw [edgesFrom, sqlLimit_eq_take h, List.length_take]
  exact min_le_left _ _

theorem mem_of_mem_edgesFrom {ty : String} {e : Edge} (h : e ∈ g.edgesFrom d a (some ty) cap) :
    e ∈ g.edges.rows ∧ d.here e = a ∧ e.edgeType = ty := by
  have hmem := List.mem_filter.1 (mem_sqlLimit h)
  simpa using hmem

theorem next_mem_nodeIds {e : Edge} (he : e ∈ g.edges.rows) : d.next e ∈ g.nodeIds := by
  cases d with
  | outgoing => exact (g.edges_fk e he).2.2
  | incoming => exact (g.edges_fk e he).2.1

theorem here_mem_nodeIds {e : Edge} (he : e ∈ g.edges.rows) : d.here e ∈ g.nodeIds := by
  cases d with
  | outgoing => exact (g.edges_fk e he).2.1
  | incoming => exact (g.edges_fk e he).2.2

theorem mem_nodeIds_of_joined (h : g.Joined d types a b) : b ∈ g.nodeIds := by
  obtain ⟨e, he, -, -, rfl⟩ := h
  exact next_mem_nodeIds he

theorem mem_nodeIds_of_joined_left (h : g.Joined d types a b) : a ∈ g.nodeIds := by
  obtain ⟨e, he, -, rfl, -⟩ := h
  exact here_mem_nodeIds he

theorem mem_nodeIds_of_walk {n : ℕ} (ha : a ∈ g.nodeIds) (h : Walk (g.Joined d types) n a b) :
    b ∈ g.nodeIds := by
  cases h with
  | nil => exact ha
  | snoc _ hbc => exact mem_nodeIds_of_joined hbc

theorem joined_of_fetched (h : g.Fetched d types cap a b) : g.Joined d types a b := by
  obtain ⟨ty, hty, e, he, hb⟩ := h
  obtain ⟨hmem, ha, rfl⟩ := mem_of_mem_edgesFrom he
  exact ⟨e, hmem, hty, ha, hb⟩

theorem mem_edgesFrom (hcap : cap < 2 ^ 63) (h : g.WithinCap d types cap) {e : Edge}
    (he : e ∈ g.edges.rows) (hty : e.edgeType ∈ types) :
    e ∈ g.edgesFrom d (d.here e) (some e.edgeType) cap := by
  have hlen := h (d.here e) e.edgeType hty
  rw [edgesFrom, sqlLimit_eq_take hcap, List.take_of_length_le (by simpa using hlen)]
  exact List.mem_filter.2 ⟨he, by simp⟩

theorem fetched_iff_joined (hcap : cap < 2 ^ 63) (h : g.WithinCap d types cap) :
    g.Fetched d types cap a b ↔ g.Joined d types a b := by
  refine ⟨joined_of_fetched, ?_⟩
  rintro ⟨e, he, hty, rfl, hb⟩
  exact ⟨e.edgeType, hty, e, mem_edgesFrom hcap h he hty, hb⟩

theorem withinCap_of_length_le (h : g.edges.rows.length ≤ cap) : g.WithinCap d types cap :=
  fun _ _ _ => (List.length_filter_le _ _).trans h

theorem WithinCap.mono {cap' : ℕ} (h : g.WithinCap d types cap) (hle : cap ≤ cap') :
    g.WithinCap d types cap' :=
  fun a ty hty => (h a ty hty).trans hle

variable (cap) in
theorem fetched_eq_joined (hcap : cap < 2 ^ 63) (h : g.WithinCap d types cap) :
    g.Fetched d types cap = g.Joined d types := by
  funext a b
  exact propext (fetched_iff_joined hcap h)

theorem joined_congr {types' : List String} (h : ∀ ty, ty ∈ types ↔ ty ∈ types') :
    g.Joined d types = g.Joined d types' := by
  funext a b
  simp only [Joined, h]

end Graph

/-- A graph of functions, numbered from one in the order of their names, with edges between them. -/
def functionGraph (names : List String) (edges : List (ℕ × ℕ × String)) : Graph :=
  Graph.ofInserts ⟨"p", "2026-06-29T00:00:00Z", "/p"⟩
    (names.map fun name => ⟨"p", "Function", name, name, "src/lib.rs", 1, 1, .null⟩)
    (edges.map fun e => ⟨"p", e.1, e.2.1, e.2.2, .null⟩)

end Greppy
