/-
**Totals of the navigation commands.**

`who-calls`, `callees`, `find-usages`, `impact` and `search-symbols` of `crates/cli/src/lib.rs` print how
many results there are, how many of them are shown and how many are left out, so that the count alone
answers "how many".  Each of them counts what it has fetched, and fetches through a cap of its own: so
many edges of a node and type, so many reached nodes of a start, and a clamp on the hops.
`search-symbols` counts with a query of its own, which does not know the `--kind` filter.

The nodes to which a symbol resolves are given, and so are the rows that the full-text index matches, with
their rank.
-/

import Greppy.CallHierarchy
import Mathlib.Data.Set.Card

set_option autoImplicit false

namespace Greppy

/-! ### Reports -/

def navLimit : ℕ := 40

def codeNavLimit : ℕ := 6

/-- The number of symbols shown by `search-symbols`. -/
def symbolLimit : ℕ := 20

/-- What a command prints in JSON: whether the symbol was found, the counts and the rows shown. -/
structure NavReport (α : Type) where
  symbolFound : Bool
  totalExact : ℕ
  shown : ℕ
  omitted : ℕ
  hits : List α

/-- The display limit: tighter where the code is printed along. -/
def displayLimit (code : Bool) : ℕ := if code then codeNavLimit else navLimit

/-- The report of the collected rows: all of them are counted, and those up to the limit are shown. -/
def navReport {α : Type} (symbolFound all : Bool) (limit : ℕ) (rows : List α) : NavReport α :=
  let total := rows.length
  let shown := if all then total else min total limit
  { symbolFound := symbolFound
    totalExact := total
    shown := shown
    omitted := total - shown
    hits := rows.take shown }

/-! ### The commands -/

/-- The limit with which the navigation commands fetch the edges of a node. -/
def navFanout : ℕ := 1024

/-- `who-calls`: the callers of the nodes to which the symbol resolves. -/
def whoCalls (g : Graph) (targets : List ℕ) (code all : Bool) : NavReport Node :=
  let edges := targets.flatMap fun t => g.edgesFrom .incoming t (some "CALLS") navFanout
  let nodes := (BreadthFirst.firsts Edge.sourceId [] edges).filterMap fun e => g.getNode e.sourceId
  navReport (!targets.isEmpty) all (displayLimit code) nodes

def referenceEdgeTypes : List String := ["CALLS", "USAGE", "USES", "TYPE_REF", "IMPORTS"]

/-- `find-usages`: the referring nodes, each with the type of its reference. -/
def findUsages (g : Graph) (targets : List ℕ) (code all : Bool) : NavReport (String × Node) :=
  let edges := targets.flatMap fun t => referenceEdgeTypes.flatMap fun et =>
    g.edgesFrom .incoming t (some et) navFanout
  let rows := (BreadthFirst.firsts (fun e => (e.edgeType, e.sourceId)) [] edges).filterMap fun e =>
    (g.getNode e.sourceId).map fun n => (e.edgeType, n)
  navReport (!targets.isEmpty) all (displayLimit code) rows

/-- `callees`: the callees of the source nodes of the symbol, in the order of their ids. -/
def callees (g : Graph) (sources : List ℕ) (code all : Bool) : NavReport Node :=
  let steps := sources.flatMap fun s => calleesOf g s
  let nodes := (BreadthFirst.firsts Node.id [] (steps.filterMap TraceStep.node)).insertionSort
    fun a b => a.id ≤ b.id
  navReport (!sources.isEmpty) all (displayLimit code) nodes

/-- The limit with which `impact` asks for the nodes that a start reaches. -/
def impactFetch : ℕ := 4096

/-- An entry of `by_id` is added, or its hop count lowered. -/
def mergeReach (acc : List ReachableNode) (n : ReachableNode) : List ReachableNode :=
  if n.node.id ∈ acc.map fun e => e.node.id then
    acc.map fun e => if e.node.id = n.node.id ∧ n.hops < e.hops then { e with hops := n.hops } else e
  else acc ++ [n]

/-- The nodes that the starts reach, without the starts. -/
def impactReached (g : Graph) (startIds : List ℕ) (direction : ReachDirection)
    (edgeTypes : List String) (depth : ℕ) : List ℕ → List ReachableNode → Option (List ReachableNode)
  | [], acc => some acc
  | s :: starts, acc =>
    (reachableWithinAnyEdgeType g s direction edgeTypes depth impactFetch).bind fun rows =>
      impactReached g startIds direction edgeTypes depth starts
        ((rows.filter fun r => decide (r.node.id ∉ startIds)).foldl mergeReach acc)

/-- `nav_sample_rank`: anchors of files come last, and tests after product code. -/
def navSampleRank (filePath name : String) : ℕ × ℕ :=
  let path := filePath.toList
  let test := ["/tests/", "/test/", ".test.", "_test.", ".spec."].any (fun s => decide (s.toList <:+: path)) ||
    ["tests/", "test/"].any fun s => decide (s.toList <+: path)
  (if name = "__file__" then 1 else 0, if test then 1 else 0)

/-- `impact`; a list that is not shown whole is put into the order of its ranks. -/
def impact (g : Graph) (starts : List ℕ) (direction : ReachDirection) (edgeTypes : List String)
    (depth : ℕ) (all : Bool) : Option (NavReport ReachableNode) :=
  (impactReached g starts direction edgeTypes depth starts []).map fun reached =>
    let sorted := reached.insertionSort fun a b => a.hops < b.hops ∨ a.hops = b.hops ∧ a.node.id ≤ b.node.id
    let rank (r : ReachableNode) : ℕ ×ₗ ℕ ×ₗ ℕ :=
      let k := navSampleRank r.node.filePath r.node.name
      toLex (k.1, toLex (k.2, r.hops))
    let total := sorted.length
    let shown := if all then total else min total navLimit
    let ordered := if shown < total then sorted.insertionSort fun a b => rank a ≤ rank b else sorted
    navReport true all navLimit ordered

/-- `LIKE` for a pattern of letters and `_` at the end of a text: letters match without their case. -/
def likeSuffix (pattern text : List Char) : Bool :=
  decide (pattern.length ≤ text.length) &&
    (pattern.zip (text.drop (text.length - pattern.length))).all fun pc =>
      pc.1 == '_' || pc.1.toLower == pc.2.toLower

/-- The filter that `search_fts_in_project` and `count_fts_in_project` put on the matches. -/
def symbolFilter (project : String) (n : Node) : Bool :=
  decide (n.project = project) &&
    decide (n.label ∉ ["Call", "Import", "File", "Folder", "Project"]) &&
    decide (n.name ≠ "__file__") &&
    !likeSuffix "::__file__".toList n.qualifiedName.toList &&
    !likeSuffix ".__file__".toList n.qualifiedName.toList

/-- `to_ascii_lowercase`. -/
def asciiLowercase (s : String) : String := String.ofList (s.toList.map Char.toLower)

/-- `search-symbols`: `ftsMatch` says which rows the full-text index matches, and `rank` in which order. -/
def searchSymbols (g : Graph) (ftsMatch : Node → Bool) (rank : Node → ℕ) (project : String)
    (kind : Option String) : NavReport Node :=
  let rows := g.nodes.rows.filter fun n => ftsMatch n && symbolFilter project n
  let fetch := if kind.isSome then 100 else symbolLimit
  let ranked := (rows.insertionSort fun a b => rank a ≤ rank b).take fetch
  let hits := match kind with
    | none => ranked
    | some k =>
      (ranked.filter fun n => decide (asciiLowercase n.label = asciiLowercase k)).take symbolLimit
  { symbolFound := true
    totalExact := rows.length
    shown := hits.length
    omitted := rows.length - hits.length
    hits := hits }

/-! ### What they ought to count -/

def callersOfTargets (g : Graph) (targets : List ℕ) : Set ℕ :=
  {a | ∃ t ∈ targets, g.Joined .incoming ["CALLS"] t a}

/-- The references to some targets, each with its type. -/
def usagesOfTargets (g : Graph) (targets : List ℕ) : Set (String × ℕ) :=
  {p | p.1 ∈ referenceEdgeTypes ∧ ∃ t ∈ targets, g.Joined .incoming [p.1] t p.2}

/-- The callees of some sources other than each itself. -/
def calleesOfSources (g : Graph) (sources : List ℕ) : Set ℕ :=
  {b | ∃ s ∈ sources, b ≠ s ∧ g.Joined .outgoing ["CALLS"] s b}

/-- The nodes that the starts reach within the bound, without the starts. -/
def impactOf (g : Graph) (starts : List ℕ) (direction : ReachDirection) (edgeTypes : List String)
    (depth : ℕ) : Set ℕ :=
  {b | b ∉ starts ∧ ∃ s ∈ starts, ∃ n ≤ depth, Distance (g.Joined direction (trimmedTypes edgeTypes)) s b n}

def symbolsOfKind (g : Graph) (ftsMatch : Node → Bool) (project : String) (kind : Option String) :
    Set ℕ :=
  {id | ∃ n ∈ g.nodes.rows, n.id = id ∧ ftsMatch n = true ∧ symbolFilter project n = true ∧
    ∀ k ∈ kind, asciiLowercase n.label = asciiLowercase k}

/-- What a report promises about the results: their exact number, the split into shown and omitted, and
all of them where the limit leaves room. -/
structure NavReport.Exact {α ρ : Type} (r : NavReport α) (limit : ℕ) (key : α → ρ)
    (results : Set ρ) : Prop where
  total : r.totalExact = results.ncard
  split : r.shown + r.omitted = r.totalExact
  hits : r.hits.length = r.shown
  whole : r.totalExact ≤ limit → ∀ x, x ∈ results ↔ ∃ h ∈ r.hits, key h = x

/-! ### Exactness -/

section Exactness

variable {α ρ : Type} {key : α → ρ} {results : Set ρ} {rows : List α}

/-- Counting part of the results gives their number only where it is all of them. -/
theorem length_eq_ncard_iff (hfin : results.Finite) (hnd : (rows.map key).Nodup)
    (hsub : ∀ r ∈ rows, key r ∈ results) :
    rows.length = results.ncard ↔ ∀ x ∈ results, ∃ r ∈ rows, key r = x := by
  classical
  have hcard : rows.length = ((rows.map key).toFinset : Set ρ).ncard := by
    rw [Set.ncard_coe_finset, List.toFinset_card_of_nodup hnd, List.length_map]
  have hle : ((rows.map key).toFinset : Set ρ) ⊆ results := by
    intro x hx
    obtain ⟨r, hr, rfl⟩ := List.mem_map.1 (List.mem_toFinset.1 hx)
    exact hsub r hr
  constructor
  · intro h x hx
    have heq := Set.eq_of_subset_of_ncard_le hle (by rw [← hcard, h]) hfin
    rw [← heq] at hx
    obtain ⟨r, hr, hkey⟩ := List.mem_map.1 (List.mem_toFinset.1 hx)
    exact ⟨r, hr, hkey⟩
  · intro h
    have heq : ((rows.map key).toFinset : Set ρ) = results := by
      refine Set.Subset.antisymm hle fun x hx => ?_
      obtain ⟨r, hr, rfl⟩ := h x hx
      exact List.mem_toFinset.2 (List.mem_map_of_mem hr)
    rw [hcard, heq]

/-- A report of part of the results is exact when it is all of them. -/
theorem exact_navReport_iff (symbolFound all : Bool) (limit : ℕ) (hfin : results.Finite)
    (hnd : (rows.map key).Nodup) (hsub : ∀ r ∈ rows, key r ∈ results) :
    (navReport symbolFound all limit rows).Exact limit key results ↔
      ∀ x ∈ results, ∃ r ∈ rows, key r = x := by
  rw [← length_eq_ncard_iff hfin hnd hsub]
  have hshown : (if all then rows.length else min rows.length limit) ≤ rows.length := by
    split_ifs <;> omega
  constructor
  · intro h
    exact h.total
  · intro h
    refine ⟨h, Nat.add_sub_cancel' hshown, List.length_take_of_le hshown, fun hle x => ?_⟩
    -- the limit leaves room for every row
    have hall : (if all then rows.length else min rows.length limit) = rows.length := by
      have hle' : rows.length ≤ limit := hle
      split_ifs <;> omega
    simp only [navReport, hall, List.take_length]
    refine ⟨(length_eq_ncard_iff hfin hnd hsub).1 h x, ?_⟩
    rintro ⟨r, hr, rfl⟩
    exact hsub r hr

end Exactness

/-! ### Callers, usages and callees -/

section Edges

variable {g : Graph} {targets sources : List ℕ} {code all : Bool}

variable {κ β : Type} {keyOf : Edge → κ} {row : Edge → Option β} {key : β → κ}

/-- The rows of the sources of some edges are as many as there are such nodes. -/
theorem nodup_rows {edges : List Edge} [DecidableEq κ]
    (hrow : ∀ e r, row e = some r → key r = keyOf e) :
    (((BreadthFirst.firsts keyOf [] edges).filterMap row).map key).Nodup :=
  (sublist_filterMap keyOf hrow _).nodup (BreadthFirst.nodup_firsts [] edges)

theorem exists_row_iff (edges : List Edge) [DecidableEq κ]
    (hrow : ∀ e r, row e = some r → key r = keyOf e) (hsome : ∀ e ∈ edges, (row e).isSome) (x : κ) :
    (∃ r ∈ (BreadthFirst.firsts keyOf [] edges).filterMap row, key r = x) ↔
      ∃ e ∈ edges, keyOf e = x := by
  constructor
  · rintro ⟨r, hr, rfl⟩
    obtain ⟨e, he, hre⟩ := List.mem_filterMap.1 hr
    exact ⟨e, (BreadthFirst.mem_of_mem_firsts he).1, (hrow e r hre).symm⟩
  · rintro ⟨e, he, rfl⟩
    obtain ⟨e', he', hkey⟩ := BreadthFirst.exists_mem_firsts keyOf he List.not_mem_nil
    obtain ⟨r, hr⟩ := Option.isSome_iff_exists.1 (hsome e' (BreadthFirst.mem_of_mem_firsts he').1)
    exact ⟨r, List.mem_filterMap.2 ⟨e', he', hr⟩, (hrow e' r hr).trans hkey⟩

theorem getNode_source_isSome {t : ℕ} {ty : String}
    {e : Edge} (he : e ∈ g.edgesFrom .incoming t (some ty) navFanout) :
    (g.getNode e.sourceId).isSome := by
  rw [Graph.getNode_isSome_iff]
  exact Graph.next_mem_nodeIds (d := .incoming) (Graph.mem_of_mem_edgesFrom he).1

theorem finite_of_subset_nodeIds {results : Set ℕ} (h : ∀ a ∈ results, a ∈ g.nodeIds) :
    results.Finite :=
  (List.finite_toSet g.nodeIds).subset h

/-- `who-calls` is exact when every caller shows among the edges fetched for some target. -/
theorem whoCalls_exact_iff :
    (whoCalls g targets code all).Exact (displayLimit code) Node.id (callersOfTargets g targets) ↔
      ∀ a ∈ callersOfTargets g targets, ∃ t ∈ targets, g.Fetched .incoming ["CALLS"] 1024 t a := by
  have hrow : ∀ (e : Edge) (n : Node), g.getNode e.sourceId = some n → n.id = e.sourceId :=
    fun e n hn => Graph.id_of_getNode hn
  have hiff := exists_row_iff (targets.flatMap fun t =>
    g.edgesFrom .incoming t (some "CALLS") navFanout) hrow (fun e he => by
      obtain ⟨t, -, he⟩ := List.mem_flatMap.1 he
      exact getNode_source_isSome he)
  have hfetched : ∀ a, (∃ e ∈ targets.flatMap fun t =>
      g.edgesFrom .incoming t (some "CALLS") navFanout, e.sourceId = a) ↔
        ∃ t ∈ targets, g.Fetched .incoming ["CALLS"] 1024 t a := by
    intro a
    simp only [List.mem_flatMap, Graph.Fetched, List.mem_singleton, exists_eq_left]
    constructor
    · rintro ⟨e, ⟨t, ht, he⟩, rfl⟩
      exact ⟨t, ht, e, he, rfl⟩
    · rintro ⟨t, ht, e, he, hnext⟩
      exact ⟨e, ⟨t, ht, he⟩, hnext⟩
  rw [whoCalls, exact_navReport_iff _ _ _ (finite_of_subset_nodeIds (g := g) ?_) (nodup_rows hrow)]
  · refine forall₂_congr fun a _ => ?_
    rw [hiff, hfetched]
  · intro n hn
    obtain ⟨t, ht, hR⟩ := (hfetched n.id).1 ((hiff n.id).1 ⟨n, hn, rfl⟩)
    exact ⟨t, ht, Graph.joined_of_fetched hR⟩
  · rintro a ⟨t, -, hR⟩
    exact Graph.mem_nodeIds_of_joined hR

/-- `find-usages` is exact when every reference shows among the edges fetched for some target. -/
theorem findUsages_exact_iff :
    (findUsages g targets code all).Exact (displayLimit code) (fun r => (r.1, r.2.id))
        (usagesOfTargets g targets) ↔
      ∀ p ∈ usagesOfTargets g targets, ∃ t ∈ targets, g.Fetched .incoming [p.1] 1024 t p.2 := by
  have hrow : ∀ (e : Edge) (r : String × Node),
      ((g.getNode e.sourceId).map fun n => (e.edgeType, n)) = some r →
        (r.1, r.2.id) = (e.edgeType, e.sourceId) := by
    intro e r hr
    obtain ⟨n, hn, rfl⟩ := Option.map_eq_some_iff.1 hr
    rw [Graph.id_of_getNode hn]
  have hiff := exists_row_iff (targets.flatMap fun t => referenceEdgeTypes.flatMap fun et =>
    g.edgesFrom .incoming t (some et) navFanout) hrow (fun e he => by
      obtain ⟨t, -, he⟩ := List.mem_flatMap.1 he
      obtain ⟨et, -, he⟩ := List.mem_flatMap.1 he
      rw [Option.isSome_map]
      exact getNode_source_isSome he)
  have hfetched : ∀ p : String × ℕ, (∃ e ∈ targets.flatMap fun t => referenceEdgeTypes.flatMap fun et =>
      g.edgesFrom .incoming t (some et) navFanout, (e.edgeType, e.sourceId) = p) ↔
        p.1 ∈ referenceEdgeTypes ∧ ∃ t ∈ targets, g.Fetched .incoming [p.1] 1024 t p.2 := by
    intro p
    simp only [List.mem_flatMap, Graph.Fetched, List.mem_singleton, exists_eq_left]
    constructor
    · rintro ⟨e, ⟨t, ht, et, het, he⟩, rfl⟩
      obtain rfl := (Graph.mem_of_mem_edgesFrom he).2.2
      exact ⟨het, t, ht, e, he, rfl⟩
    · rintro ⟨het, t, ht, e, he, hnext⟩
      refine ⟨e, ⟨t, ht, p.1, het, he⟩, Prod.ext ?_ hnext⟩
      exact (Graph.mem_of_mem_edgesFrom he).2.2
  rw [findUsages, exact_navReport_iff _ _ _ ?_ (nodup_rows hrow)]
  · refine forall₂_congr fun p hp => ?_
    rw [hiff, hfetched]
    exact and_iff_right hp.1
  · intro r hr
    obtain ⟨het, t, ht, hR⟩ := (hfetched (r.1, r.2.id)).1 ((hiff (r.1, r.2.id)).1 ⟨r, hr, rfl⟩)
    exact ⟨het, t, ht, Graph.joined_of_fetched hR⟩
  · refine ((List.finite_toSet referenceEdgeTypes).prod (List.finite_toSet g.nodeIds)).subset ?_
    rintro p ⟨het, t, -, hR⟩
    exact ⟨het, Graph.mem_nodeIds_of_joined hR⟩

theorem exists_calleesOf_iff {s b : ℕ} : (∃ t ∈ calleesOf g s, ∃ n, t.node = some n ∧ n.id = b) ↔
    b ≠ s ∧ g.Fetched .outgoing ["CALLS"] traceFanout s b := by
  rw [calleesOf, oneLevel]
  by_cases hstart : s ∈ g.nodeIds
  · have hsome : (g.getNode s).isNone = false := by
      rw [Option.isNone_eq_false_iff, Graph.getNode_isSome_iff]
      exact hstart
    rw [hsome, if_neg Bool.false_ne_true, oneLevelFrom_eq ⟨0, s, none⟩ rfl]
    constructor
    · rintro ⟨t, ht, n, hn, rfl⟩
      obtain ⟨p, hp, rfl⟩ := List.mem_map.1 ht
      obtain ⟨hp, hne⟩ := BreadthFirst.mem_of_mem_firsts hp
      obtain ⟨e, he, rfl⟩ := List.mem_map.1 hp
      have hid : n.id = ReachDirection.next .outgoing e := Graph.id_of_getNode hn
      rw [hid]
      exact ⟨by simpa [Pending.along] using hne, "CALLS", List.mem_singleton_self _, e, he, rfl⟩
    · rintro ⟨hne, ty, hty, e, he, rfl⟩
      have hjoined := (Graph.mem_of_mem_edgesFrom he).1
      rw [List.mem_singleton.1 hty] at he
      have hp := List.mem_map_of_mem (f := Pending.along .outgoing ⟨0, s, none⟩) he
      obtain ⟨p, hp, hid⟩ := BreadthFirst.exists_mem_firsts Pending.nodeId hp
        fun hin => hne (List.mem_singleton.1 hin)
      obtain ⟨n, hn⟩ := Option.isSome_iff_exists.1
        (Graph.getNode_isSome_iff.2 (Graph.next_mem_nodeIds (d := .outgoing) hjoined))
      refine ⟨p.step g, List.mem_map_of_mem hp, n, ?_, Graph.id_of_getNode hn⟩
      rw [Pending.step, hid]
      exact hn
  · have hnone : (g.getNode s).isNone = true := by
      rw [Option.isNone_iff_eq_none, Graph.getNode_eq_none_iff]
      exact hstart
    rw [hnone]
    refine iff_of_false ?_ fun h => hstart
      (Graph.mem_nodeIds_of_joined_left (Graph.joined_of_fetched h.2))
    rintro ⟨t, ht, -⟩
    cases ht

/-- `callees` is exact when every callee shows among the edges fetched for some source. -/
theorem callees_exact_iff :
    (callees g sources code all).Exact (displayLimit code) Node.id (calleesOfSources g sources) ↔
      ∀ b ∈ calleesOfSources g sources, ∃ s ∈ sources,
        b ≠ s ∧ g.Fetched .outgoing ["CALLS"] 1024 s b := by
  set nodes := (sources.flatMap fun s => calleesOf g s).filterMap TraceStep.node with hnodes
  have hperm := List.perm_insertionSort (fun a b : Node => a.id ≤ b.id)
    (BreadthFirst.firsts Node.id [] nodes)
  have hiff : ∀ b, (∃ n ∈ (BreadthFirst.firsts Node.id [] nodes).insertionSort
      fun a b => a.id ≤ b.id, n.id = b) ↔
        ∃ s ∈ sources, b ≠ s ∧ g.Fetched .outgoing ["CALLS"] 1024 s b := by
    intro b
    have hmem : (∃ n ∈ nodes, n.id = b) ↔
        ∃ s ∈ sources, b ≠ s ∧ g.Fetched .outgoing ["CALLS"] 1024 s b := by
      rw [hnodes]
      simp only [List.mem_filterMap, List.mem_flatMap]
      constructor
      · rintro ⟨n, ⟨t, ⟨s, hs, ht⟩, hn⟩, hid⟩
        exact ⟨s, hs, exists_calleesOf_iff.1 ⟨t, ht, n, hn, hid⟩⟩
      · rintro ⟨s, hs, h⟩
        obtain ⟨t, ht, n, hn, hid⟩ := exists_calleesOf_iff.2 h
        exact ⟨n, ⟨t, ⟨s, hs, ht⟩, hn⟩, hid⟩
    rw [← hmem]
    constructor
    · rintro ⟨n, hn, hid⟩
      exact ⟨n, (BreadthFirst.mem_of_mem_firsts (hperm.mem_iff.1 hn)).1, hid⟩
    · rintro ⟨n, hn, rfl⟩
      obtain ⟨m, hm, hid⟩ := BreadthFirst.exists_mem_firsts Node.id hn List.not_mem_nil
      exact ⟨m, hperm.mem_iff.2 hm, hid⟩
  rw [callees, exact_navReport_iff _ _ _ (finite_of_subset_nodeIds (g := g) ?_)]
  · exact forall₂_congr fun b _ => hiff b
  · exact (hperm.map Node.id).nodup_iff.2 (BreadthFirst.nodup_firsts [] nodes)
  · intro n hn
    obtain ⟨s, hs, hne, hR⟩ := (hiff n.id).1 ⟨n, hn, rfl⟩
    exact ⟨s, hs, hne, Graph.joined_of_fetched hR⟩
  · rintro b ⟨s, -, -, hR⟩
    exact Graph.mem_nodeIds_of_joined hR

end Edges

/-! ### Impact -/

section Impact

variable {g : Graph} {starts startIds : List ℕ} {direction : ReachDirection} {edgeTypes : List String}
  {depth : ℕ} {all : Bool}

def reachedIds (rows : List ReachableNode) : List ℕ := rows.map fun r => r.node.id

theorem reachedIds_mergeReach (acc : List ReachableNode) (n : ReachableNode) :
    reachedIds (mergeReach acc n) =
      if n.node.id ∈ reachedIds acc then reachedIds acc else reachedIds acc ++ [n.node.id] := by
  rw [mergeReach]
  by_cases hin : n.node.id ∈ acc.map fun e => e.node.id
  · rw [if_pos hin, reachedIds, reachedIds, if_pos hin, List.map_map]
    refine List.map_congr_left fun e _ => ?_
    simp only [Function.comp_apply]
    split_ifs <;> rfl
  · rw [if_neg hin, reachedIds, reachedIds, if_neg hin, List.map_append]
    rfl

theorem foldl_mergeReach {acc : List ReachableNode} (rows : List ReachableNode)
    (hnd : (reachedIds acc).Nodup) : (reachedIds (rows.foldl mergeReach acc)).Nodup ∧
      ∀ b, b ∈ reachedIds (rows.foldl mergeReach acc) ↔ b ∈ reachedIds acc ∨ b ∈ reachedIds rows := by
  induction rows generalizing acc with
  | nil => exact ⟨hnd, fun b => by simp [reachedIds]⟩
  | cons n rows ih =>
    have hids := reachedIds_mergeReach acc n
    have hnd' : (reachedIds (mergeReach acc n)).Nodup := by
      rw [hids]
      split_ifs with hin
      · exact hnd
      · rw [← List.concat_eq_append]
        exact hnd.concat hin
    have hmem : ∀ b, b ∈ reachedIds (mergeReach acc n) ↔ b ∈ reachedIds acc ∨ b = n.node.id := by
      intro b
      rw [hids]
      split_ifs with hin
      · exact ⟨.inl, fun h => h.elim id fun heq => heq ▸ hin⟩
      · simp
    obtain ⟨hrest, hmemRest⟩ := ih hnd'
    refine ⟨hrest, fun b => ?_⟩
    rw [List.foldl_cons, hmemRest b, hmem b]
    simp only [reachedIds, List.map_cons, List.mem_cons]
    tauto

/-- Some start shows the node among the nearest ones that are fetched for it. -/
def ShownBy (g : Graph) (starts : List ℕ) (direction : ReachDirection) (edgeTypes : List String)
    (depth b : ℕ) : Prop :=
  ∃ s ∈ starts, ∃ rows, NearestFirst g (g.Fetched direction (trimmedTypes edgeTypes) 4096) s
    (min depth 32) rows ∧ b ∈ reachedIds (rows.take 4096)

/-- What a list that is sorted by a key without ties is determined by. -/
theorem NearestFirst.unique {R : ℕ → ℕ → Prop} {s bound : ℕ} {rows rows' : List ReachableNode}
    (h : NearestFirst g R s bound rows) (h' : NearestFirst g R s bound rows') : rows = rows' := by
  have hperm : rows.Perm rows' := by
    refine (List.perm_ext_iff_of_nodup ?_ ?_).2 fun r => (h.mem_iff r).trans (h'.mem_iff r).symm
    · exact h.nodup.of_map
    · exact h'.nodup.of_map
  refine hperm.eq_of_pairwise ?_ h.ordered h'.ordered
  intro a b _ _ hab hba
  exact absurd hab hba.asymm

variable (g starts startIds direction edgeTypes depth) in
theorem impactReached_spec (acc : List ReachableNode) (hnd : (reachedIds acc).Nodup) :
    ∃ reached, impactReached g startIds direction edgeTypes depth starts acc = some reached ∧
      (reachedIds reached).Nodup ∧ ∀ b, b ∈ reachedIds reached ↔
        b ∈ reachedIds acc ∨ b ∉ startIds ∧ ShownBy g starts direction edgeTypes depth b := by
  induction starts generalizing acc with
  | nil => exact ⟨acc, rfl, hnd, fun b => by simp [ShownBy]⟩
  | cons s starts ih =>
    obtain ⟨rows, hrows, hrun⟩ :=
      reachable_nearestFirst g s direction edgeTypes depth impactFetch
    set kept := (rows.take 4096).filter fun r => decide (r.node.id ∉ startIds) with hkept
    obtain ⟨hnd', hmem'⟩ := foldl_mergeReach kept hnd
    obtain ⟨reached, hreached, hndr, hmem⟩ := ih _ hnd'
    refine ⟨reached, ?_, hndr, fun b => ?_⟩
    · rw [impactReached, hrun]
      exact hreached
    · have hb : b ∈ reachedIds kept ↔ b ∉ startIds ∧ b ∈ reachedIds (rows.take 4096) := by
        simp only [hkept, reachedIds, List.mem_map, List.mem_filter, decide_eq_true_eq]
        constructor
        · rintro ⟨r, ⟨hr, hnot⟩, rfl⟩
          exact ⟨hnot, r, hr, rfl⟩
        · rintro ⟨hnot, r, hr, rfl⟩
          exact ⟨r, ⟨hr, hnot⟩, rfl⟩
      have hshown : ShownBy g (s :: starts) direction edgeTypes depth b ↔
          b ∈ reachedIds (rows.take 4096) ∨ ShownBy g starts direction edgeTypes depth b := by
        constructor
        · rintro ⟨s', hs', rows', hrows', hb'⟩
          rcases List.mem_cons.1 hs' with rfl | hs'
          · rw [hrows.unique hrows']
            exact .inl hb'
          · exact .inr ⟨s', hs', rows', hrows', hb'⟩
        · rintro (hb' | ⟨s', hs', hrest⟩)
          · exact ⟨s, List.mem_cons_self, rows, hrows, hb'⟩
          · exact ⟨s', List.mem_cons_of_mem _ hs', hrest⟩
      rw [hmem b, hmem' b, hb, hshown]
      tauto

theorem mem_impactOf_of_shownBy {b : ℕ} (hb : b ∉ starts)
    (h : ShownBy g starts direction edgeTypes depth b) : b ∈ impactOf g starts direction edgeTypes depth := by
  obtain ⟨s, hs, rows, hrows, hmem⟩ := h
  obtain ⟨r, hr, rfl⟩ := List.mem_map.1 hmem
  obtain ⟨-, -, -, hle, hdist⟩ := (hrows.mem_iff r).1 (List.mem_of_mem_take hr)
  obtain ⟨n, hn, hdist'⟩ := (hdist.1.mono fun _ _ => Graph.joined_of_fetched).exists_distance
  exact ⟨hb, s, hs, n, by omega, hdist'⟩

/-- `impact` is exact when every node within the bound shows among those fetched for some start. -/
theorem impact_exact_iff : ∃ report, impact g starts direction edgeTypes depth all = some report ∧
    (report.Exact navLimit (fun r => r.node.id) (impactOf g starts direction edgeTypes depth) ↔
      ∀ b ∈ impactOf g starts direction edgeTypes depth, ShownBy g starts direction edgeTypes depth b) := by
  obtain ⟨reached, hrun, hnd, hmem⟩ :=
    impactReached_spec g starts starts direction edgeTypes depth [] List.nodup_nil
  refine ⟨_, by rw [impact, hrun]; rfl, ?_⟩
  -- in whichever order the rows are shown
  have horder : ∀ ordered : List ReachableNode, ordered.Perm reached →
      ((navReport true all navLimit ordered).Exact navLimit (fun r => r.node.id)
        (impactOf g starts direction edgeTypes depth) ↔
      ∀ b ∈ impactOf g starts direction edgeTypes depth,
        ShownBy g starts direction edgeTypes depth b) := by
    intro ordered hperm
    have hids : ∀ b, (∃ r ∈ ordered, r.node.id = b) ↔
        b ∉ starts ∧ ShownBy g starts direction edgeTypes depth b := by
      intro b
      have hb : b ∈ reachedIds ordered ↔ b ∈ reachedIds reached := (hperm.map _).mem_iff
      rw [hmem b] at hb
      simpa [reachedIds] using hb
    rw [exact_navReport_iff _ _ _ ?_ ((hperm.map _).nodup_iff.2 hnd)]
    · refine forall₂_congr fun b hb => ?_
      rw [hids]
      exact and_iff_right hb.1
    · intro r hr
      obtain ⟨hnot, hshown⟩ := (hids r.node.id).1 ⟨r, hr, rfl⟩
      exact mem_impactOf_of_shownBy hnot hshown
    · refine finite_of_subset_nodeIds (g := g) ?_
      rintro b ⟨hnot, s, hs, n, -, hdist⟩
      have hstart : s ∈ g.nodeIds := by
        by_contra hstart
        have hzero := hdist.1.eq_zero_of_stuck fun c hc =>
          hstart (Graph.mem_nodeIds_of_joined_left hc)
        rw [hzero] at hdist
        exact hnot (hdist.1.of_zero ▸ hs)
      exact Graph.mem_nodeIds_of_walk hstart hdist.1
  refine horder _ ?_
  split_ifs
  · exact (List.perm_insertionSort _ _).trans (List.perm_insertionSort _ _)
  · exact List.perm_insertionSort _ _
  · exact (List.perm_insertionSort _ _).trans (List.perm_insertionSort _ _)
  · exact List.perm_insertionSort _ _

end Impact

/-! ### Symbols -/

section Symbols

variable {g : Graph} {ftsMatch : Node → Bool} {rank : Node → ℕ} {project : String}

/-- `search-symbols` is exact when every match is of the kind asked for. -/
theorem searchSymbols_exact_iff (kind : Option String) :
    (searchSymbols g ftsMatch rank project kind).Exact symbolLimit Node.id
        (symbolsOfKind g ftsMatch project kind) ↔
      ∀ n ∈ g.nodes.rows, ftsMatch n = true → symbolFilter project n = true →
        ∀ k ∈ kind, asciiLowercase n.label = asciiLowercase k := by
  set rows := g.nodes.rows.filter fun n => ftsMatch n && symbolFilter project n with hrows
  have hrow : ∀ n, n ∈ rows ↔
      n ∈ g.nodes.rows ∧ ftsMatch n = true ∧ symbolFilter project n = true := by
    intro n
    rw [hrows, List.mem_filter, Bool.and_eq_true]
  have hsub : ∀ id ∈ symbolsOfKind g ftsMatch project kind, ∃ n ∈ rows, n.id = id ∧
      ∀ k ∈ kind, asciiLowercase n.label = asciiLowercase k := by
    rintro id ⟨n, hn, hid, hmatch, hfilter, hkind⟩
    exact ⟨n, (hrow n).2 ⟨hn, hmatch, hfilter⟩, hid, hkind⟩
  have hnd : (rows.map Node.id).Nodup := (List.filter_sublist.map Node.id).nodup g.ids_nodup
  have hfin : (symbolsOfKind g ftsMatch project kind).Finite := by
    refine (List.finite_toSet (rows.map Node.id)).subset fun id hid => ?_
    obtain ⟨n, hn, rfl, -⟩ := hsub id hid
    exact List.mem_map_of_mem hn
  constructor
  · intro h n hn hmatch hfilter
    -- all matches are counted, so those of the kind must be all of them
    have hall : {id | id ∈ rows.map Node.id} = symbolsOfKind g ftsMatch project kind := by
      refine (Set.eq_of_subset_of_ncard_le (fun id hid => ?_) ?_ (List.finite_toSet _)).symm
      · obtain ⟨m, hm, rfl, -⟩ := hsub id hid
        exact List.mem_map_of_mem hm
      · have hcard : {id | id ∈ rows.map Node.id}.ncard = rows.length := by
          rw [← List.coe_toFinset, Set.ncard_coe_finset, List.toFinset_card_of_nodup hnd,
            List.length_map]
        rw [hcard]
        exact h.total.le
    have hin : n.id ∈ symbolsOfKind g ftsMatch project kind := by
      rw [← hall]
      exact List.mem_map_of_mem ((hrow n).2 ⟨hn, hmatch, hfilter⟩)
    obtain ⟨m, hm, hid, -, -, hkind⟩ := hin
    rwa [g.node_eq_of_id_eq hm hn hid] at hkind
  · intro h
    have hiff : ∀ id, id ∈ symbolsOfKind g ftsMatch project kind ↔ ∃ n ∈ rows, n.id = id := by
      intro id
      constructor
      · intro hid
        obtain ⟨n, hn, hnid, -⟩ := hsub id hid
        exact ⟨n, hn, hnid⟩
      · rintro ⟨n, hn, rfl⟩
        obtain ⟨hmem, hmatch, hfilter⟩ := (hrow n).1 hn
        exact ⟨n, hmem, rfl, hmatch, hfilter, h n hmem hmatch hfilter⟩
    have hperm := List.perm_insertionSort (fun a b : Node => rank a ≤ rank b) rows
    -- nothing is filtered out
    have hhits : (searchSymbols g ftsMatch rank project kind).hits =
        ((rows.insertionSort fun a b => rank a ≤ rank b).take
          (if kind.isSome then 100 else symbolLimit)).take symbolLimit := by
      cases kind with
      | none =>
        rw [List.take_take]
        rfl
      | some k =>
        rw [searchSymbols]
        dsimp only
        rw [List.filter_eq_self.2]
        intro n hn
        obtain ⟨hmem, hmatch, hfilter⟩ := (hrow n).1 (hperm.mem_iff.1 (List.mem_of_mem_take hn))
        exact decide_eq_true (h n hmem hmatch hfilter k rfl)
    have hlen : (searchSymbols g ftsMatch rank project kind).hits.length ≤ rows.length := by
      rw [hhits]
      simp only [List.length_take, hperm.length_eq]
      omega
    refine ⟨?_, Nat.add_sub_cancel' hlen, rfl, fun hle id => ?_⟩
    · refine (length_eq_ncard_iff hfin hnd fun n hn => (hiff n.id).2 ⟨n, hn, rfl⟩).2 fun id hid => ?_
      exact (hiff id).1 hid
    · have hle' : rows.length ≤ 20 := hle
      rw [hhits, List.take_take, List.take_of_length_le, hiff id]
      · exact exists_congr fun n => and_congr_left fun _ => hperm.mem_iff.symm
      · rw [hperm.length_eq]
        cases kind with
        | none => exact le_min hle' hle'
        | some k => exact le_min hle' (hle'.trans (by simp))

end Symbols

/-- **When the totals are exact**: for the navigation commands when every result shows among what the caps
let through, for a symbol search when every match is of the kind asked for. -/
theorem totals_exact_iff (g : Graph) :
    (∀ targets code all,
      (whoCalls g targets code all).Exact (displayLimit code) Node.id (callersOfTargets g targets) ↔
        ∀ a ∈ callersOfTargets g targets, ∃ t ∈ targets, g.Fetched .incoming ["CALLS"] 1024 t a) ∧
    (∀ sources code all,
      (callees g sources code all).Exact (displayLimit code) Node.id (calleesOfSources g sources) ↔
        ∀ b ∈ calleesOfSources g sources, ∃ s ∈ sources,
          b ≠ s ∧ g.Fetched .outgoing ["CALLS"] 1024 s b) ∧
    (∀ targets code all,
      (findUsages g targets code all).Exact (displayLimit code) (fun r => (r.1, r.2.id))
          (usagesOfTargets g targets) ↔
        ∀ p ∈ usagesOfTargets g targets, ∃ t ∈ targets, g.Fetched .incoming [p.1] 1024 t p.2) ∧
    (∀ starts direction edgeTypes depth all, ∃ report,
      impact g starts direction edgeTypes depth all = some report ∧
      (report.Exact navLimit (fun r => r.node.id) (impactOf g starts direction edgeTypes depth) ↔
        ∀ b ∈ impactOf g starts direction edgeTypes depth,
          ShownBy g starts direction edgeTypes depth b)) ∧
    ∀ ftsMatch rank project kind,
      (searchSymbols g ftsMatch rank project kind).Exact symbolLimit Node.id
          (symbolsOfKind g ftsMatch project kind) ↔
        ∀ n ∈ g.nodes.rows, ftsMatch n = true → symbolFilter project n = true →
          ∀ k ∈ kind, asciiLowercase n.label = asciiLowercase k :=
  ⟨fun _ _ _ => whoCalls_exact_iff, fun _ _ _ => callees_exact_iff, fun _ _ _ => findUsages_exact_iff,
    fun _ _ _ _ _ => impact_exact_iff, fun _ _ _ => searchSymbols_exact_iff⟩

/-- A function and a type of similar names. -/
def runAndRunner : Graph :=
  Graph.ofInserts ⟨"p", "2026-06-29T00:00:00Z", "/p"⟩
    [⟨"p", "Function", "run", "p::run", "src/lib.rs", 1, 3, .null⟩,
      ⟨"p", "Struct", "Runner", "p::Runner", "src/lib.rs", 5, 7, .null⟩] []

/-- A search for functions counts the type along, and of more callees than the cap only so many are
counted. -/
theorem totals_not_exact :
    ¬ (searchSymbols runAndRunner (fun _ => true) (fun _ => 0) "p" (some "function")).Exact symbolLimit
        Node.id (symbolsOfKind runAndRunner (fun _ => true) "p" (some "function")) ∧
      ¬ (callees (hub 1025) [1] false false).Exact (displayLimit false) Node.id
        (calleesOfSources (hub 1025) [1]) := by
  constructor
  · intro h
    have htotal : (searchSymbols runAndRunner (fun _ => true) (fun _ => 0) "p"
        (some "function")).totalExact = 2 := by decide +kernel
    have hone : ∀ n ∈ runAndRunner.nodes.rows,
        asciiLowercase n.label = asciiLowercase "function" → n.id = 1 := by decide +kernel
    have hsub : symbolsOfKind runAndRunner (fun _ => true) "p" (some "function") ⊆ {1} := by
      rintro id ⟨n, hn, rfl, -, -, hkind⟩
      exact hone n hn (hkind "function" rfl)
    have hle := Set.ncard_le_ncard hsub (Set.finite_singleton 1)
    rw [Set.ncard_singleton, ← h.total, htotal] at hle
    omega
  · intro h
    have hedge : (⟨"p", 1, 1026, "CALLS", .null⟩ : Edge) ∈ (hub 1025).edges.rows :=
      mem_edges_hub (i := 1024) (by omega)
    obtain ⟨s, hs, -, ty, hty, e, he, hnext⟩ := callees_exact_iff.1 h 1026
      ⟨1, List.mem_singleton_self 1, by omega, _, hedge, List.mem_singleton_self _, rfl, rfl⟩
    rw [List.mem_singleton.1 hs, List.mem_singleton.1 hty] at he
    rw [edgesFrom_hub 1025 (by decide)] at he
    obtain ⟨i, hi, rfl⟩ := List.mem_map.1 he
    have hlt : i < 1024 := (List.mem_range.1 hi).trans_le (min_le_left _ _)
    have heq : i + 2 = 1026 := hnext
    omega

end Greppy
