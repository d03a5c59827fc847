/-
**Call cycles.**

`cycles` of `crates/search/src/graph.rs` lists the simple cycles of the call graph.  From every node it
searches depth first along paths that only go on through larger ids, so that a cycle is come to from its
smallest node and from no other.  The search pushes a node on the path before it goes on and takes it off
on the way back, from the path and from the set of nodes on it.
-/

import Greppy.GraphEdges
import Mathlib.Data.Finset.Max
import Mathlib.Data.List.Cycle
import Mathlib.Data.Prod.Lex

set_option autoImplicit false

namespace Greppy

def maxCycleLen : ℕ := 16

/-- `MAX_REACH_RESULTS`, here the limit with which the edges of a node are fetched. -/
def cycleFanout : ℕ := 10000

/-- `DEFAULT_LIMIT` of the graph search. -/
def defaultLimit : ℕ := 10000

/-- What the search reads and writes: `path`, `on_path` and `found`. -/
structure CycleSearch where
  path : List ℕ
  onPath : Finset ℕ
  found : List (List ℕ)

/-- One turn of the loop over the targets of a node; `dfs` is the recursive call. -/
def cycleTurn (start maxLen : ℕ) (dfs : ℕ → CycleSearch → CycleSearch) (s : CycleSearch) (next : ℕ) :
    CycleSearch :=
  if next = start then
    if s.path.length ≤ maxLen then { s with found := s.found.insert s.path } else s
  else if next < start ∨ next ∈ s.onPath ∨ maxLen ≤ s.path.length then s
  else
    let s := dfs next { s with path := s.path ++ [next], onPath := insert next s.onPath }
    { s with onPath := s.onPath.erase next, path := s.path.dropLast }

/-- `dfs_cycles`.  A path grows with every call and is never longer than `max_len`. -/
def dfsCycles (adj : List (ℕ × List ℕ)) (start maxLen : ℕ) : ℕ → ℕ → CycleSearch → CycleSearch
  | 0, _, s => s
  | fuel + 1, node, s =>
    match adj.lookup node with
    | some targets => targets.foldl (cycleTurn start maxLen (dfsCycles adj start maxLen fuel)) s
    | none => s

/-- The targets of each node that are in scope. -/
def cycleTargets (g : Graph) (rows : List SearchGraphRow) : List (ℕ × List ℕ) :=
  rows.map fun r =>
    (r.id, ((g.outgoingEdges r.id "CALLS" cycleFanout).map Edge.targetId).filter
      fun id => decide (id ∈ rows.map SearchGraphRow.id))

/-- The order of the result: shorter cycles first, then by their nodes. -/
def cycleKey (nodes : List ℕ) : ℕ ×ₗ List ℕ := toLex (nodes.length, nodes)

/-- `cycles`; a cycle is the list of its nodes. -/
def cycles (g : Graph) (project : Option String) (maxLen limit : ℕ) : List (List ℕ) :=
  let maxLen := min maxLen maxCycleLen
  if maxLen = 0 ∨ limit = 0 then []
  else
    let rows := searchGraph g project defaultLimit
    let adj := cycleTargets g rows
    let found := rows.foldl
      (fun found r => (dfsCycles adj r.id maxLen maxLen r.id ⟨[r.id], {r.id}, found⟩).found) []
    (found.insertionSort fun a b => cycleKey a ≤ cycleKey b).take limit

/-! ### The search -/

/-- `path ++ tail` is a path without repeats that goes on to `next`, through larger ids than `start`, and
closes at `start`. -/
structure Continues (R : ℕ → ℕ → Prop) (start maxLen : ℕ) (path : List ℕ) (next : ℕ)
    (tail : List ℕ) : Prop where
  first : (tail ++ [start]).head? = some next
  joined : (tail ++ [start]).IsChain R
  nodup : (path ++ tail).Nodup
  above : ∀ x ∈ tail, start < x
  length : (path ++ tail).length ≤ maxLen

/-- `found'` adds to `found` the ways to close `path` through one of the nodes in `targets`. -/
structure Adds (R : ℕ → ℕ → Prop) (start maxLen : ℕ) (path : List ℕ) (targets : ℕ → Prop)
    (found found' : List (List ℕ)) : Prop where
  nodup : found.Nodup → found'.Nodup
  mem_iff : ∀ c, c ∈ found' ↔ c ∈ found ∨
    ∃ next, targets next ∧ ∃ tail, c = path ++ tail ∧ Continues R start maxLen path next tail

section Search

variable {R : ℕ → ℕ → Prop} {start maxLen : ℕ}

theorem continues_iff {path tail : List ℕ} {next : ℕ} (hne : next ≠ start) :
    Continues R start maxLen path next tail ↔ start < next ∧ ∃ next' tail', tail = next :: tail' ∧
      R next next' ∧ Continues R start maxLen (path ++ [next]) next' tail' := by
  constructor
  · rintro ⟨hfirst, hjoined, hnodup, habove, hlen⟩
    cases tail with
    | nil =>
      cases hfirst
      exact absurd rfl hne
    | cons a tail =>
      cases hfirst
      obtain ⟨next', hnext'⟩ : ∃ b, (tail ++ [start]).head? = some b := by
        cases tail <;> exact ⟨_, rfl⟩
      rw [List.cons_append, List.isChain_cons] at hjoined
      refine ⟨habove _ List.mem_cons_self, next', tail, rfl, hjoined.1 _ hnext', ?_⟩
      exact ⟨hnext', hjoined.2, by simpa using hnodup,
        fun x hx => habove x (List.mem_cons_of_mem _ hx), by simpa using hlen⟩
  · rintro ⟨hlt, next', tail', rfl, hR, hfirst, hjoined, hnodup, habove, hlen⟩
    refine ⟨rfl, ?_, by simpa using hnodup, ?_, by simpa using hlen⟩
    · rw [List.cons_append, List.isChain_cons]
      refine ⟨fun y hy => ?_, hjoined⟩
      rw [hfirst] at hy
      cases hy
      exact hR
    · intro x hx
      rcases List.mem_cons.1 hx with rfl | hx
      · exact hlt
      · exact habove x hx

theorem continues_start_iff {path tail : List ℕ} (hnd : path.Nodup) (hlen : path.length ≤ maxLen) :
    Continues R start maxLen path start tail ↔ tail = [] := by
  constructor
  · intro h
    cases tail with
    | nil => rfl
    | cons a tail =>
      have hfirst : a = start := by simpa using h.first
      have habove := h.above a List.mem_cons_self
      omega
  · rintro rfl
    refine ⟨rfl, List.isChain_singleton _, ?_, fun x hx => absurd hx List.not_mem_nil, ?_⟩
    · rwa [List.append_nil]
    · rwa [List.append_nil]

/-- One turn of the loop restores the path and the set, and adds the ways to close the path through one
target, if the recursive call does so for longer paths. -/
theorem cycleTurn_spec (dfs : ℕ → CycleSearch → CycleSearch) (s : CycleSearch)
    (hset : s.onPath = s.path.toFinset) (hnd : s.path.Nodup) (hlen : s.path.length ≤ maxLen) (next : ℕ)
    (hdfs : ∀ found, next ∉ s.path → s.path.length < maxLen → ∃ found',
      dfs next ⟨s.path ++ [next], insert next s.onPath, found⟩ =
        ⟨s.path ++ [next], insert next s.onPath, found'⟩ ∧
      Adds R start maxLen (s.path ++ [next]) (R next) found found') :
    ∃ found', cycleTurn start maxLen dfs s next = { s with found := found' } ∧
      Adds R start maxLen s.path (· = next) s.found found' := by
  rw [cycleTurn]
  by_cases hclose : next = start
  · subst hclose
    rw [if_pos rfl, if_pos hlen]
    refine ⟨_, rfl, fun h => h.insert, fun c => ?_⟩
    simp only [List.mem_insert_iff, exists_eq_left, continues_start_iff hnd hlen]
    simp [or_comm]
  · rw [if_neg hclose]
    by_cases hskip : next < start ∨ next ∈ s.onPath ∨ maxLen ≤ s.path.length
    · rw [if_pos hskip]
      refine ⟨s.found, rfl, id, fun c => ⟨.inl, ?_⟩⟩
      rintro (hc | ⟨_, rfl, tail, -, hcont⟩)
      · exact hc
      · -- nothing goes on through a node that is skipped
        obtain ⟨hlt, next', tail', rfl, -, -⟩ := (continues_iff hclose).1 hcont
        rcases hskip with hsmall | hin | hfull
        · omega
        · rw [hset, List.mem_toFinset] at hin
          exact absurd rfl ((List.nodup_append.1 hcont.nodup).2.2 _ hin _ List.mem_cons_self)
        · have hlen' := hcont.length
          simp only [List.length_append, List.length_cons] at hlen'
          omega
    · rw [if_neg hskip]
      rw [not_or, not_or, hset, List.mem_toFinset, not_le] at hskip
      obtain ⟨hge, hnot, hroom⟩ := hskip
      obtain ⟨found', hrun, hadds⟩ := hdfs s.found hnot hroom
      refine ⟨found', ?_, hadds.nodup, fun c => ?_⟩
      · simp only [hrun]
        have herase : (insert next s.onPath).erase next = s.onPath :=
          Finset.erase_insert (by rwa [hset, List.mem_toFinset])
        rw [herase, List.dropLast_concat]
      · rw [hadds.mem_iff c]
        refine or_congr_right ⟨?_, ?_⟩
        · rintro ⟨next', hR, tail', rfl, hcont⟩
          refine ⟨next, rfl, next :: tail', by simp, (continues_iff hclose).2 ?_⟩
          exact ⟨by omega, next', tail', rfl, hR, hcont⟩
        · rintro ⟨_, rfl, tail, rfl, hcont⟩
          obtain ⟨-, next', tail', rfl, hR, hcont'⟩ := (continues_iff hclose).1 hcont
          exact ⟨next', hR, tail', by simp, hcont'⟩

theorem Adds.trans {path : List ℕ} {p q : ℕ → Prop} {a b c : List (List ℕ)}
    (h : Adds R start maxLen path p a b) (h' : Adds R start maxLen path q b c) :
    Adds R start maxLen path (fun x => p x ∨ q x) a c where
  nodup := fun ha => h'.nodup (h.nodup ha)
  mem_iff := by
    intro l
    rw [h'.mem_iff l, h.mem_iff l]
    constructor
    · rintro ((hl | ⟨x, hx, hrest⟩) | ⟨x, hx, hrest⟩)
      · exact .inl hl
      · exact .inr ⟨x, .inl hx, hrest⟩
      · exact .inr ⟨x, .inr hx, hrest⟩
    · rintro (hl | ⟨x, hx | hx, hrest⟩)
      · exact .inl (.inl hl)
      · exact .inl (.inr ⟨x, hx, hrest⟩)
      · exact .inr ⟨x, hx, hrest⟩

variable (start maxLen) in
/-- The search restores the path and the set, and finds every way to close the path. -/
theorem dfsCycles_spec {adj : List (ℕ × List ℕ)}
    (hadj : ∀ a b, R a b ↔ ∃ targets, adj.lookup a = some targets ∧ b ∈ targets) {fuel : ℕ}
    (node : ℕ) (s : CycleSearch) (hset : s.onPath = s.path.toFinset) (hnd : s.path.Nodup)
    (hlen : s.path.length ≤ maxLen) (hfuel : maxLen + 1 = fuel + s.path.length) :
    ∃ found', dfsCycles adj start maxLen fuel node s = { s with found := found' } ∧
      Adds R start maxLen s.path (R node) s.found found' := by
  induction fuel generalizing node s with
  | zero => omega
  | succ fuel ih =>
    -- the loop over some targets
    have hloop : ∀ (targets : List ℕ) (found : List (List ℕ)), ∃ found',
        targets.foldl (cycleTurn start maxLen (dfsCycles adj start maxLen fuel))
          { s with found := found } = { s with found := found' } ∧
        Adds R start maxLen s.path (· ∈ targets) found found' := by
      intro targets
      induction targets with
      | nil => exact fun found => ⟨found, rfl, id, fun c => by simp⟩
      | cons next targets ihTargets =>
        intro found
        obtain ⟨found₁, hturn, hadds₁⟩ := cycleTurn_spec
          (dfsCycles adj start maxLen fuel) { s with found := found } hset hnd hlen next
          (fun found hnot hroom => ih next ⟨s.path ++ [next], insert next s.onPath, found⟩
            (by ext a; simp [hset])
            (by
              rw [← List.concat_eq_append]
              exact hnd.concat hnot)
            (by rw [List.length_append]; exact hroom)
            (by simp only [List.length_append, List.length_singleton]; omega))
        obtain ⟨found₂, hrest, hadds₂⟩ := ihTargets found₁
        refine ⟨found₂, by rw [List.foldl_cons, hturn, hrest], ?_⟩
        simpa only [List.mem_cons] using hadds₁.trans hadds₂
    rw [dfsCycles]
    cases hlook : adj.lookup node with
    | none =>
      refine ⟨s.found, rfl, id, fun c => ⟨.inl, ?_⟩⟩
      rintro (hc | ⟨next, hR, -⟩)
      · exact hc
      · obtain ⟨targets, htargets, -⟩ := (hadj node next).1 hR
        rw [hlook] at htargets
        cases htargets
    | some targets =>
      obtain ⟨found', hrun, hadds⟩ := hloop targets s.found
      have hR : R node = (· ∈ targets) := by
        funext b
        rw [hadj node b, hlook]
        simp
      exact ⟨found', hrun, hR ▸ hadds⟩

end Search

/-! ### The scope -/

section Scope

variable {g : Graph} {project : Option String} {a b : ℕ}

/-- A stored node, of the project if one is given. -/
def InScope (g : Graph) (project : Option String) (id : ℕ) : Prop :=
  ∃ n ∈ g.nodes.rows, n.id = id ∧ ∀ p ∈ project, n.project = p

/-- The ids of the rows that the graph search delivers. -/
def scopeIds (g : Graph) (project : Option String) : List ℕ :=
  (searchGraph g project defaultLimit).map SearchGraphRow.id

def ScopeCall (g : Graph) (project : Option String) (a b : ℕ) : Prop :=
  a ∈ scopeIds g project ∧ b ∈ scopeIds g project ∧ g.Joined .outgoing ["CALLS"] a b

/-- The limit of the graph search does not cut a graph that is not larger. -/
theorem mem_scopeIds (hnodes : g.nodes.rows.length ≤ defaultLimit) :
    a ∈ scopeIds g project ↔ InScope g project a := by
  have hcut : ∀ rows : List Node, rows.length ≤ defaultLimit →
      Graph.sqlLimit defaultLimit rows = rows := fun rows h => by
    rw [Graph.sqlLimit_eq_take (by decide), List.take_of_length_le h]
  rw [scopeIds, searchGraph, hcut, List.map_map, List.mem_map, InScope]
  · refine exists_congr fun n => ?_
    rw [orderByQnameId, (List.perm_insertionSort _ _).mem_iff, List.mem_filter, and_assoc]
    refine and_congr_right fun _ => ?_
    rw [and_comm]
    refine and_congr Iff.rfl ?_
    cases project with
    | none => simp
    | some p => simp
  · rw [orderByQnameId, List.length_insertionSort]
    exact (List.length_filter_le _ _).trans hnodes

/-- The edges of one type from a node lead to different nodes, so there are no more of them than nodes. -/
theorem length_calls_le (g : Graph) (a : ℕ) :
    (g.edges.rows.filter fun e => decide (e.sourceId = a ∧ e.edgeType = "CALLS")).length ≤
      g.nodes.rows.length := by
  set calls := g.edges.rows.filter fun e => decide (e.sourceId = a ∧ e.edgeType = "CALLS") with hcalls
  have hcall : ∀ e ∈ calls, e ∈ g.edges.rows ∧ e.sourceId = a ∧ e.edgeType = "CALLS" := by
    intro e he
    simpa [hcalls] using he
  have hnd : (calls.map Edge.targetId).Nodup := by
    refine List.Nodup.map_on ?_ (g.edges.rows_nodup.filter _)
    intro e he e' he' htarget
    obtain ⟨hmem, hsource, htype⟩ := hcall e he
    obtain ⟨hmem', hsource', htype'⟩ := hcall e' he'
    refine g.edges.eq_of_key_eq hmem hmem' ?_
    rw [Edge.key, Edge.key, hsource, hsource', htarget, htype, htype']
  have hsub : calls.map Edge.targetId ⊆ g.nodeIds := by
    intro b hb
    obtain ⟨e, he, rfl⟩ := List.mem_map.1 hb
    exact (g.edges_fk e (hcall e he).1).2.2
  have hlen := (List.subperm_of_subset hnd hsub).length_le
  simpa [Graph.nodeIds] using hlen

variable (project a b) in
theorem lookup_cycleTargets (hnodes : g.nodes.rows.length ≤ defaultLimit) :
    ScopeCall g project a b ↔ ∃ targets,
      (cycleTargets g (searchGraph g project defaultLimit)).lookup a = some targets ∧ b ∈ targets := by
  set f : ℕ → List ℕ := fun id => ((g.outgoingEdges id "CALLS" cycleFanout).map Edge.targetId).filter
    fun id => decide (id ∈ scopeIds g project) with hf
  have hlookup : ∀ rows : List SearchGraphRow,
      (rows.map fun r => (r.id, f r.id)).lookup a =
        if a ∈ rows.map SearchGraphRow.id then some (f a) else none := by
    intro rows
    induction rows with
    | nil => rfl
    | cons r rows ih =>
      rw [List.map_cons, List.lookup_cons, ih]
      by_cases ha : a = r.id
      · simp [ha]
      · have hbeq : (a == r.id) = false := by simpa using ha
        simp [hbeq, ha]
  have hmem : b ∈ f a ↔ g.Joined .outgoing ["CALLS"] a b ∧ b ∈ scopeIds g project := by
    have hcut : g.outgoingEdges a "CALLS" cycleFanout =
        g.edges.rows.filter fun e => decide (e.sourceId = a ∧ e.edgeType = "CALLS") := by
      rw [Graph.outgoingEdges, Graph.sqlLimit_eq_take (by decide),
        List.take_of_length_le (i := cycleFanout) ((length_calls_le g a).trans hnodes)]
    rw [hf]
    dsimp only
    rw [List.mem_filter, decide_eq_true_eq, hcut, List.mem_map]
    refine and_congr_left fun _ => exists_congr fun e => ?_
    simp only [List.mem_filter, decide_eq_true_eq, List.mem_singleton, ReachDirection.here,
      ReachDirection.next]
    tauto
  have hadj : cycleTargets g (searchGraph g project defaultLimit) =
      (searchGraph g project defaultLimit).map fun r => (r.id, f r.id) := rfl
  rw [hadj, hlookup, ScopeCall]
  by_cases ha : a ∈ (searchGraph g project defaultLimit).map SearchGraphRow.id
  · rw [if_pos ha]
    simp only [Option.some.injEq, exists_eq_left', hmem]
    exact ⟨fun h => ⟨h.2.2, h.2.1⟩, fun h => ⟨ha, h.2, h.1⟩⟩
  · rw [if_neg ha]
    refine iff_of_false (fun h => ha h.1) ?_
    rintro ⟨_, h, -⟩
    cases h

end Scope

/-! ### Rotations -/

section Rotations

variable {R : ℕ → ℕ → Prop}

/-- A list of the nodes of a simple cycle, its smallest node first. -/
structure IsCanonical (R : ℕ → ℕ → Prop) (maxLen : ℕ) (nodes : List ℕ) : Prop where
  nonempty : nodes ≠ []
  nodup : nodes.Nodup
  chain : Cycle.Chain R (nodes : Cycle ℕ)
  smallest : ∀ m ∈ nodes.head?, ∀ x ∈ nodes, m ≤ x
  length : nodes.length ≤ maxLen

/-- Two rotations of a list without repeats, both with the smallest node first, are one. -/
theorem eq_of_isRotated {l l' : List ℕ} (h : l ~r l') (hnd : l.Nodup)
    (hl : ∀ m ∈ l.head?, ∀ x ∈ l, m ≤ x) (hl' : ∀ m ∈ l'.head?, ∀ x ∈ l', m ≤ x) : l = l' := by
  cases l with
  | nil => exact (List.isRotated_nil_iff'.1 h)
  | cons a l =>
    obtain ⟨n, hn, rfl⟩ := List.isRotated_iff_mod.1 h
    rcases hn.lt_or_eq with hlt | rfl
    · have hhead := List.head?_rotate hlt
      obtain ⟨b, hb⟩ : ∃ b, (a :: l)[n]? = some b := ⟨_, List.getElem?_eq_getElem hlt⟩
      rw [hb] at hhead
      -- both start with the smallest node
      have hab : a ≤ b := hl a rfl b (List.mem_of_getElem? hb)
      have hba : b ≤ a := hl' b hhead a (List.mem_rotate.2 List.mem_cons_self)
      have hzero : (a :: l)[n]? = (a :: l)[0]? := by
        rw [hb, le_antisymm hba hab]
        rfl
      have hn0 : n = 0 := (List.getElem?_inj hlt hnd).1 hzero
      rw [hn0, List.rotate_zero]
    · rw [List.rotate_length]

/-- Every simple cycle has a rotation with its smallest node first. -/
theorem exists_canonical {maxLen : ℕ} {c : Cycle ℕ} (hne : c ≠ Cycle.nil) (hnd : c.Nodup)
    (hchain : c.Chain R) (hlen : c.length ≤ maxLen) :
    ∃ nodes, IsCanonical R maxLen nodes ∧ (nodes : Cycle ℕ) = c := by
  induction c using Quotient.inductionOn' with
  | h l =>
    have hl : l ≠ [] := fun h => hne ((Cycle.coe_eq_nil l).2 h)
    have hfin : l.toFinset.Nonempty := (List.toFinset_nonempty_iff l).2 hl
    obtain ⟨u, v, huv⟩ := List.append_of_mem (List.mem_toFinset.1 (l.toFinset.min'_mem hfin))
    have hrot : (l.toFinset.min' hfin :: (v ++ u)) ~r l := by
      nth_rewrite 2 [huv]
      exact List.isRotated_append (l := l.toFinset.min' hfin :: v)
    have hcoe : ((l.toFinset.min' hfin :: (v ++ u) : List ℕ) : Cycle ℕ) = (l : Cycle ℕ) :=
      Cycle.coe_eq_coe.2 hrot
    refine ⟨_, ⟨List.cons_ne_nil _ _, hrot.nodup_iff.2 hnd, ?_, ?_, ?_⟩, hcoe⟩
    · rw [hcoe]
      exact hchain
    · rintro m ⟨⟩ x hx
      exact Finset.min'_le _ _ (List.mem_toFinset.2 (hrot.mem_iff.1 hx))
    · rw [hrot.perm.length_eq]
      exact hlen

end Rotations

/-! ### The query -/

section Query

variable {g : Graph} {project : Option String} {maxLen : ℕ}

/-- What closes a path of one node is the rest of a cycle from its smallest node. -/
theorem isCanonical_cons_iff {R : ℕ → ℕ → Prop} {start : ℕ} {tail : List ℕ} :
    IsCanonical R maxLen (start :: tail) ↔
      ∃ next, R start next ∧ Continues R start maxLen [start] next tail := by
  constructor
  · rintro ⟨-, hnd, hchain, hsmall, hlen⟩
    rw [Cycle.chain_coe_cons, List.isChain_cons] at hchain
    obtain ⟨next, hnext⟩ : ∃ b, (tail ++ [start]).head? = some b := by
      cases tail <;> exact ⟨_, rfl⟩
    refine ⟨next, hchain.1 next hnext, hnext, hchain.2, hnd, fun x hx => ?_, hlen⟩
    refine lt_of_le_of_ne (hsmall start rfl x (List.mem_cons_of_mem _ hx)) ?_
    rintro rfl
    exact (List.nodup_cons.1 hnd).1 hx
  · rintro ⟨next, hR, hfirst, hjoined, hnd, habove, hlen⟩
    refine ⟨List.cons_ne_nil _ _, hnd, ?_, ?_, hlen⟩
    · rw [Cycle.chain_coe_cons, List.isChain_cons]
      refine ⟨fun y hy => ?_, hjoined⟩
      rw [hfirst] at hy
      cases hy
      exact hR
    · rintro m ⟨⟩ x hx
      rcases List.mem_cons.1 hx with rfl | hx
      · exact le_rfl
      · exact (habove x hx).le

theorem mem_foldl_dfsCycles {adj : List (ℕ × List ℕ)} {R : ℕ → ℕ → Prop}
    (hadj : ∀ a b, R a b ↔ ∃ targets, adj.lookup a = some targets ∧ b ∈ targets)
    (hmax : 1 ≤ maxLen) (rows : List SearchGraphRow) (found : List (List ℕ)) :
    (found.Nodup → (rows.foldl (fun found r =>
      (dfsCycles adj r.id maxLen maxLen r.id ⟨[r.id], {r.id}, found⟩).found) found).Nodup) ∧
    ∀ c, c ∈ rows.foldl (fun found r =>
        (dfsCycles adj r.id maxLen maxLen r.id ⟨[r.id], {r.id}, found⟩).found) found ↔
      c ∈ found ∨ ∃ r ∈ rows, ∃ tail, c = r.id :: tail ∧ IsCanonical R maxLen c := by
  induction rows generalizing found with
  | nil => simp
  | cons r rows ih =>
    obtain ⟨found₁, hrun, hadds⟩ := dfsCycles_spec r.id maxLen hadj r.id
      ⟨[r.id], {r.id}, found⟩ rfl (List.nodup_singleton _)
      hmax rfl
    obtain ⟨hnd, hmem⟩ := ih found₁
    rw [List.foldl_cons, hrun]
    refine ⟨fun h => hnd (hadds.nodup h), fun c => ?_⟩
    rw [hmem c, hadds.mem_iff c]
    constructor
    · rintro ((hc | ⟨next, hR, tail, rfl, hcont⟩) | ⟨r', hr', htail⟩)
      · exact .inl hc
      · exact .inr ⟨r, List.mem_cons_self, tail, rfl, isCanonical_cons_iff.2 ⟨next, hR, hcont⟩⟩
      · exact .inr ⟨r', List.mem_cons_of_mem _ hr', htail⟩
    · rintro (hc | ⟨r', hr', tail, rfl, hcanon⟩)
      · exact .inl (.inl hc)
      · rcases List.mem_cons.1 hr' with rfl | hr'
        · obtain ⟨next, hR, hcont⟩ := isCanonical_cons_iff.1 hcanon
          exact .inl (.inr ⟨next, hR, tail, rfl, hcont⟩)
        · exact .inr ⟨r', hr', tail, rfl, hcanon⟩

theorem chain_scopeCall_iff {nodes : List ℕ} :
    Cycle.Chain (ScopeCall g project) (nodes : Cycle ℕ) ↔
      Cycle.Chain (g.Joined .outgoing ["CALLS"]) (nodes : Cycle ℕ) ∧
        ∀ id ∈ nodes, id ∈ scopeIds g project := by
  have hlist : ∀ (l : List ℕ) (a b : ℕ), (a :: (l ++ [b])).IsChain (ScopeCall g project) ↔
      (a :: (l ++ [b])).IsChain (g.Joined .outgoing ["CALLS"]) ∧
        ∀ id ∈ a :: (l ++ [b]), id ∈ scopeIds g project := by
    intro l
    induction l with
    | nil =>
      intro a b
      simp only [List.nil_append, List.isChain_pair, ScopeCall, List.forall_mem_cons,
        List.not_mem_nil, false_imp_iff, implies_true, and_true]
      tauto
    | cons c l ih =>
      intro a b
      rw [List.cons_append, List.isChain_cons_cons, List.isChain_cons_cons, ih c b, ScopeCall]
      simp only [List.forall_mem_cons]
      tauto
  cases nodes with
  | nil => simp
  | cons a l =>
    rw [Cycle.chain_coe_cons, Cycle.chain_coe_cons, hlist]
    refine and_congr_right fun _ => ?_
    simp only [List.mem_cons, List.mem_append, List.not_mem_nil, or_false]
    exact ⟨fun h id hid => h id (by tauto), fun h id hid => h id (by tauto)⟩

variable (project maxLen) in
/-- What the query lists when its limit does not cut: the simple cycles in scope, each once and from its
smallest node, in order. -/
theorem exists_cycles (hnodes : g.nodes.rows.length ≤ defaultLimit) (limit : ℕ) :
    ∃ all : List (List ℕ), cycles g project maxLen limit = all.take limit ∧ all.Nodup ∧
      all.Pairwise (fun c c' => cycleKey c ≤ cycleKey c') ∧
      ∀ c, c ∈ all ↔ IsCanonical (ScopeCall g project) (min maxLen maxCycleLen) c := by
  -- the rows' cycles, sorted
  set rows := searchGraph g project defaultLimit with hrows
  set found := rows.foldl (fun found r => (dfsCycles (cycleTargets g rows) r.id (min maxLen maxCycleLen)
    (min maxLen maxCycleLen) r.id ⟨[r.id], {r.id}, found⟩).found) [] with hfound
  by_cases hmax : min maxLen maxCycleLen = 0
  · refine ⟨[], by rw [cycles, if_pos (.inl hmax), List.take_nil], List.nodup_nil,
      List.Pairwise.nil, fun c => iff_of_false List.not_mem_nil fun h => ?_⟩
    have hlen := h.length
    rw [hmax] at hlen
    exact h.nonempty (List.length_eq_zero_iff.1 (Nat.le_zero.1 hlen))
  · obtain ⟨hnd, hmem⟩ := mem_foldl_dfsCycles
      (fun a b => lookup_cycleTargets project a b hnodes)
      (Nat.one_le_iff_ne_zero.2 hmax) rows []
    refine ⟨found.insertionSort fun a b => cycleKey a ≤ cycleKey b, ?_, ?_, ?_, fun c => ?_⟩
    · rw [cycles]
      by_cases hlimit : limit = 0
      · rw [if_pos (.inr hlimit), hlimit, List.take_zero]
      · rw [if_neg (by tauto)]
    · exact (List.perm_insertionSort _ _).nodup_iff.2 (hnd List.nodup_nil)
    · exact List.pairwise_insertionSort _ _
    · rw [(List.perm_insertionSort _ _).mem_iff, hfound, hmem c]
      constructor
      · rintro (hc | ⟨-, -, -, -, hcanon⟩)
        · cases hc
        · exact hcanon
      · intro hcanon
        right
        cases c with
        | nil => exact absurd rfl hcanon.nonempty
        | cons a tail =>
          have ha : a ∈ rows.map SearchGraphRow.id :=
            (chain_scopeCall_iff.1 hcanon.chain).2 a List.mem_cons_self
          obtain ⟨r, hr, rfl⟩ := List.mem_map.1 ha
          exact ⟨r, hr, tail, rfl, hcanon⟩

/-- **Every call cycle is listed once**: in a graph of at most 10000 nodes, the lists that the query
returns when its limit does not cut stand for exactly the simple cycles of calls, in the project if one is
given, of a length within the bound; no two of them stand for one cycle; and each starts at its smallest
node. -/
theorem cycles_exact (g : Graph) (project : Option String) (maxLen limit : ℕ)
    (hnodes : g.nodes.rows.length ≤ 10000) :
    ∃ all : List (List ℕ), cycles g project maxLen limit = all.take limit ∧
      (∀ c : Cycle ℕ, (∃ nodes ∈ all, (nodes : Cycle ℕ) = c) ↔
        c ≠ Cycle.nil ∧ c.Nodup ∧ c.Chain (g.Joined .outgoing ["CALLS"]) ∧ c.length ≤ min maxLen 16 ∧
          ∀ id ∈ c, InScope g project id) ∧
      (all.map Cycle.ofList).Nodup ∧
      ∀ nodes ∈ all, ∀ m ∈ nodes.head?, ∀ id ∈ nodes, m ≤ id := by
  obtain ⟨all, hrun, hnd, -, hmem⟩ := exists_cycles project maxLen hnodes limit
  refine ⟨all, hrun, fun c => ?_, ?_, fun nodes hn => ((hmem nodes).1 hn).smallest⟩
  · constructor
    · rintro ⟨nodes, hn, rfl⟩
      obtain ⟨hne, hnd', hchain, -, hlen⟩ := (hmem nodes).1 hn
      obtain ⟨hchain, hscope⟩ := chain_scopeCall_iff.1 hchain
      exact ⟨fun h => hne ((Cycle.coe_eq_nil _).1 h), hnd', hchain, hlen,
        fun id hid => (mem_scopeIds hnodes).1 (hscope id hid)⟩
    · rintro ⟨hne, hnd', hchain, hlen, hscope⟩
      obtain ⟨nodes, ⟨hne', hnd'', hchain', hsmall, hlen'⟩, rfl⟩ :=
        exists_canonical hne hnd' hchain hlen
      refine ⟨nodes, (hmem nodes).2 ⟨hne', hnd'', ?_, hsmall, hlen'⟩, rfl⟩
      exact chain_scopeCall_iff.2 ⟨hchain', fun id hid => (mem_scopeIds hnodes).2 (hscope id hid)⟩
  · refine List.Nodup.map_on (fun l hl l' hl' heq => ?_) hnd
    obtain ⟨-, hnd', -, hsmall, -⟩ := (hmem l).1 hl
    exact eq_of_isRotated (Cycle.coe_eq_coe.1 heq) hnd' hsmall ((hmem l').1 hl').smallest

/-- Two cycles through one function, and a function that calls itself. -/
def twoCycles : Graph :=
  functionGraph ["a", "b", "c"] [(3, 1, "CALLS"), (1, 3, "CALLS"), (1, 2, "CALLS"), (2, 3, "CALLS"),
    (2, 2, "CALLS")]

/-- The cycles of that graph. -/
theorem cycles_exact_two :
    (∃ all : List (List ℕ), cycles twoCycles none 5 10 = all.take 10 ∧
      (∀ c : Cycle ℕ, (∃ nodes ∈ all, (nodes : Cycle ℕ) = c) ↔
        c ≠ Cycle.nil ∧ c.Nodup ∧ c.Chain (twoCycles.Joined .outgoing ["CALLS"]) ∧
          c.length ≤ min 5 16 ∧ ∀ id ∈ c, InScope twoCycles none id) ∧
      (all.map Cycle.ofList).Nodup ∧
      ∀ nodes ∈ all, ∀ m ∈ nodes.head?, ∀ id ∈ nodes, m ≤ id) ∧
    cycles twoCycles none 5 10 = [[2], [1, 3], [1, 2, 3]] :=
  ⟨cycles_exact twoCycles none 5 10 (by decide +kernel), by decide +kernel⟩

end Query

end Greppy
