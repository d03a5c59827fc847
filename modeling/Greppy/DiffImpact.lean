/-
**The impact of a diff.**

`impact --since` looks up the definition at each changed line.  These definitions are the sources.  It then
asks what each source reaches, and puts the answers together: a node is a hit with the least number of hops
and the sources that reach it.

A line is looked up by its number in the new version, so a hunk that only deletes lines has no line to look
up.  A hunk is looked up line by line, so where it covers whole definitions these are the sources, and not the
definition around them.  No source reaches itself.
-/

import Greppy.DefinitionAt
import Greppy.DiffLines
import Greppy.SourceMerge
import Mathlib.Data.Finset.Sort
import Mathlib.Data.Int.ConditionallyCompleteOrder

set_option autoImplicit false

namespace Greppy

/-! ### The sources -/

def graphImpactSourceRow (row : SearchGraphRow) : Bool :=
  ! ["Module", "Import", "Call"].contains row.label &&
    !decide ("::__file__".toList <:+ row.qualifiedName.toList)

/-- The map of the changed lines as it is gone through: the files in their order, and the lines of each. -/
structure IsEntriesOf (changed : ChangedLines) (entries : List (String × List ℤ)) : Prop where
  ordered : entries.Pairwise fun a b => a.1 < b.1
  mem_iff : ∀ file lines, (file, lines) ∈ entries ↔
    ∃ set, changed file.toList = some set ∧ lines = set.sort (· ≤ ·)

/-- The order of the sources: `file_path`, `start_line`, `qualified_name`, `id`. -/
def SearchGraphRow.impactKey (r : SearchGraphRow) : String ×ₗ ℤ ×ₗ String ×ₗ ℕ :=
  toLex (r.filePath, toLex (r.startLine, toLex (r.qualifiedName, r.id)))

/-- The definitions at the changed lines. -/
def touchedRows (g : Graph) (project : String) (changedLines : List (String × List ℤ)) : List SearchGraphRow :=
  changedLines.flatMap fun entry => entry.2.filterMap fun line =>
    (definitionAt g (some project) entry.1 line).filter graphImpactSourceRow

def diffImpactSources (g : Graph) (project : String) (changedLines : List (String × List ℤ)) :
    List SearchGraphRow :=
  let byId := BreadthFirst.firsts SearchGraphRow.id [] (touchedRows g project changedLines)
  Ranking.ranked SearchGraphRow.impactKey byId

/-! ### The hits -/

structure DiffImpactHit where
  node : SearchGraphRow
  hops : ℕ
  sources : List SearchGraphRow
  deriving DecidableEq

/-- The order of the hits: nearest first, then by qualified name, then by id. -/
def DiffImpactHit.key (h : DiffImpactHit) : ℕ ×ₗ String ×ₗ ℕ :=
  toLex (h.hops, toLex (h.node.qualifiedName, h.node.id))

/-- What a source is reported to reach. -/
def reportOf (source : SearchGraphRow) (hit : ReachableNode) : SourceMerge.Report SearchGraphRow ℕ :=
  ⟨source.id, hit.hops, hit.node⟩

/-- What the sources are reported to reach, one after the other. -/
def diffReports (g : Graph) (direction : ReachDirection) (edgeTypes : List String) (maxHops : ℕ) :
    List SearchGraphRow → Option (List (SourceMerge.Report SearchGraphRow ℕ))
  | [] => some []
  | source :: sources =>
    (reachableWithinAnyEdgeType g source.id direction edgeTypes maxHops 4096).bind fun reached =>
      (diffReports g direction edgeTypes maxHops sources).map fun reports =>
        reached.map (reportOf source) ++ reports

/-- A hit, with the rows of its sources in the order of their ids. -/
def impactHitOf (sources : List SearchGraphRow) (e : SourceMerge.Entry SearchGraphRow ℕ) : DiffImpactHit where
  node := e.node
  hops := e.hops
  sources := (e.sources.sort (· ≤ ·)).filterMap (lastWrite SearchGraphRow.id sources)

def diffImpactHits (g : Graph) (sources : List SearchGraphRow) (direction : ReachDirection)
    (edgeTypes : List String) (maxHops : ℕ) : Option (List DiffImpactHit) :=
  (diffReports g direction edgeTypes maxHops sources).map fun reports =>
    let hits := SourceMerge.collect SearchGraphRow.id reports
    Ranking.ranked DiffImpactHit.key (hits.rows.map (impactHitOf sources))

/-! ### The definitions at the changed lines -/

section Sources

variable {g : Graph} {project : String}

variable {file : String} {line : ℤ} {entries : List (String × List ℤ)}

theorem exists_node_of_definitionAt {r : SearchGraphRow}
    (h : definitionAt g (some project) file line = some r) :
    ∃ n ∈ g.nodes.rows, n.searchRow = r := by
  obtain ⟨⟨hr, -⟩, -⟩ := innermost_of_definitionAt h
  obtain ⟨n, hn, hrow⟩ := List.mem_map.1 hr
  exact ⟨n, List.mem_of_mem_filter hn, hrow⟩

theorem mem_touchedRows {r : SearchGraphRow} :
    r ∈ touchedRows g project entries ↔ ∃ file lines, (file, lines) ∈ entries ∧ ∃ line ∈ lines,
      definitionAt g (some project) file line = some r ∧ graphImpactSourceRow r = true := by
  simp only [touchedRows, List.mem_flatMap, List.mem_filterMap, Option.filter_eq_some_iff, Prod.exists]

/-- The sources are the definitions at the changed lines, but for modules, imports, calls and files. -/
theorem mem_diffImpactSources {r : SearchGraphRow} :
    r ∈ diffImpactSources g project entries ↔ ∃ file lines, (file, lines) ∈ entries ∧ ∃ line ∈ lines,
      definitionAt g (some project) file line = some r ∧ graphImpactSourceRow r = true := by
  have hnode {t : SearchGraphRow} (ht : t ∈ touchedRows g project entries) :
      ∃ n ∈ g.nodes.rows, n.searchRow = t := by
    obtain ⟨file, lines, -, line, -, hdef, -⟩ := mem_touchedRows.1 ht
    exact exists_node_of_definitionAt hdef
  rw [diffImpactSources, Ranking.mem_ranked, ← mem_touchedRows]
  refine ⟨fun h => (BreadthFirst.mem_of_mem_firsts h).1, fun h => ?_⟩
  -- rows with one id are rows of one node
  obtain ⟨t, ht, hid⟩ := BreadthFirst.exists_mem_firsts SearchGraphRow.id h List.not_mem_nil
  obtain ⟨n, hn, rfl⟩ := hnode h
  obtain ⟨m, hm, rfl⟩ := hnode (BreadthFirst.mem_of_mem_firsts ht).1
  rwa [← g.node_eq_of_id_eq hm hn hid]

theorem nodup_diffImpactSources (entries : List (String × List ℤ)) :
    ((diffImpactSources g project entries).map SearchGraphRow.id).Nodup :=
  ((Ranking.perm_ranked _ _).map _).nodup_iff.2 (BreadthFirst.nodup_firsts [] _)

/-- The innermost definition at a line, of those that are fetched: it begins last, and of those that begin
with it, it ends first. -/
structure Innermost (g : Graph) (project file : String) (line : ℤ) (r : SearchGraphRow) : Prop where
  fetched : Fetched g (some project) file r
  brackets : Brackets r line
  least : ∀ s, Fetched g (some project) file s → Brackets s line → r.innermostKey ≤ s.innermostKey

theorem definitionAt_eq_some_iff {r : SearchGraphRow} :
    definitionAt g (some project) file line = some r ↔ Innermost g project file line r := by
  constructor
  · intro h
    obtain ⟨hfetched, hbrackets, hfirst⟩ := innermost_of_definitionAt h
    exact ⟨hfetched, hbrackets, hfirst⟩
  · intro h
    cases hdef : definitionAt g (some project) file line with
    | none => exact absurd h.brackets (definitionAt_eq_none_iff.1 hdef r h.fetched)
    | some d =>
      obtain ⟨hfetched, hbrackets, hfirst⟩ := innermost_of_definitionAt hdef
      have hkey : d.innermostKey = r.innermostKey :=
        le_antisymm (hfirst r h.fetched h.brackets) (h.least d hfetched hbrackets)
      have hid : d.id = r.id := congrArg (fun k => (ofLex (ofLex (ofLex k).2).2).2) hkey
      obtain ⟨n, hn, rfl⟩ := List.mem_map.1 hfetched.1
      obtain ⟨m, hm, rfl⟩ := List.mem_map.1 h.fetched.1
      rw [g.node_eq_of_id_eq (List.mem_of_mem_filter hn) (List.mem_of_mem_filter hm) hid]

/-- Where some definition is around a line, one of them is the innermost. -/
theorem exists_innermost {outer : SearchGraphRow} (houter : Fetched g (some project) file outer)
    (hline : Brackets outer line) : ∃ r, Innermost g project file line r := by
  cases hdef : definitionAt g (some project) file line with
  | none => exact absurd hline (definitionAt_eq_none_iff.1 hdef outer houter)
  | some d => exact ⟨d, definitionAt_eq_some_iff.1 hdef⟩

end Sources

/-! ### The entries of the map -/

/-- The entries of a map, for the files that are asked for. -/
def changedEntries (changed : ChangedLines) (files : List String) : List (String × List ℤ) :=
  (Ranking.ranked id files.dedup).filterMap fun file =>
    (changed file.toList).map fun set => (file, set.sort (· ≤ ·))

theorem isEntriesOf_changedEntries {changed : ChangedLines} {files : List String}
    (h : ∀ path, (changed path).isSome = true → String.ofList path ∈ files) :
    IsEntriesOf changed (changedEntries changed files) where
  ordered := by
    have hsorted : (Ranking.ranked id files.dedup).Pairwise fun a b => a < b :=
      Ranking.strict_ranked (by
        rw [List.map_id']
        exact List.nodup_dedup files)
    refine List.Pairwise.filterMap _ (fun a b hab x hx y hy => ?_) hsorted
    obtain ⟨_, -, rfl⟩ := Option.map_eq_some_iff.1 hx
    obtain ⟨_, -, rfl⟩ := Option.map_eq_some_iff.1 hy
    exact hab
  mem_iff := by
    intro file lines
    simp only [changedEntries, List.mem_filterMap, Ranking.mem_ranked, List.mem_dedup,
      Option.map_eq_some_iff, Prod.mk.injEq]
    constructor
    · rintro ⟨name, -, set, hset, rfl, rfl⟩
      exact ⟨set, hset, rfl⟩
    · rintro ⟨set, hset, rfl⟩
      refine ⟨file, ?_, set, hset, rfl, rfl⟩
      have hmem := h file.toList (by rw [hset]; rfl)
      rwa [String.ofList_toList] at hmem

/-- The files that the reader has in mind at the hunks. -/
def namedFiles (d : List DiffFile) : List String := ((credits d).filterMap Credit.named).map String.ofList

theorem isEntriesOf_credits (d : List DiffFile) :
    IsEntriesOf ((credits d).foldl creditLines fun _ => none)
      (changedEntries ((credits d).foldl creditLines fun _ => none) (namedFiles d)) := by
  refine isEntriesOf_changedEntries fun path hpath => ?_
  rcases isSome_foldl_creditLines hpath with hnone | ⟨c, hc, n, hnamed, -⟩
  · cases hnone
  · exact List.mem_map.2 ⟨path, List.mem_filterMap.2 ⟨c, hc, hnamed⟩, rfl⟩

/-! ### What the sources reach -/

section Hits

/-- A node is another one than the source, and reached within a bound of hops. -/
def Reaches (R : ℕ → ℕ → Prop) (bound a b : ℕ) : Prop := a ≠ b ∧ ∃ n ≤ bound, Distance R a b n

/-- The hits of some sources within a bound of hops: each node that one of them reaches, once, with the least
distance and the sources that reach it, in the order of the query. -/
structure NearestHits (g : Graph) (R : ℕ → ℕ → Prop) (bound : ℕ) (sources : List SearchGraphRow)
    (hits : List DiffImpactHit) : Prop where
  ordered : hits.Pairwise fun a b => a.key < b.key
  nodup : (hits.map fun h => h.node.id).Nodup
  stored : ∀ h ∈ hits, ∃ n, g.getNode h.node.id = some n ∧ h.node = n.searchRow
  complete : ∀ b, (∃ h ∈ hits, h.node.id = b) ↔ ∃ s ∈ sources, Reaches R bound s.id b
  least : ∀ h ∈ hits, IsLeast {n | ∃ s ∈ sources, s.id ≠ h.node.id ∧ Distance R s.id h.node.id n} h.hops
  sources_iff : ∀ h ∈ hits, ∀ s, s ∈ h.sources ↔ s ∈ sources ∧ Reaches R bound s.id h.node.id
  sources_ordered : ∀ h ∈ hits, h.sources.Pairwise fun a b => a.id < b.id

variable {g : Graph} {direction : ReachDirection} {types : List String} {bound : ℕ}

theorem exists_getNode_of_reaches {a b : ℕ} (h : Reaches (g.Joined direction types) bound a b) :
    ∃ n, g.getNode b = some n := by
  obtain ⟨hne, n, -, hdist⟩ := h
  cases hdist.1 with
  | nil => exact absurd rfl hne
  | snoc hwalk hstep =>
    exact Option.isSome_iff_exists.1 (Graph.getNode_isSome_iff.2 (Graph.mem_nodeIds_of_joined hstep))

theorem NearestFirst.exists_iff {rows : List ReachableNode} {a b : ℕ}
    (h : NearestFirst g (g.Joined direction types) a bound rows) :
    (∃ r ∈ rows, r.node.id = b) ↔ Reaches (g.Joined direction types) bound a b := by
  constructor
  · rintro ⟨r, hr, rfl⟩
    obtain ⟨hne, -, -, hle, hdist⟩ := (h.mem_iff r).1 hr
    exact ⟨hne.symm, r.hops, hle, hdist⟩
  · intro hreach
    obtain ⟨node, hnode⟩ := exists_getNode_of_reaches hreach
    obtain ⟨hne, n, hle, hdist⟩ := hreach
    have hid : node.searchRow.id = b := Graph.id_of_getNode hnode
    refine ⟨⟨n, node.searchRow⟩, (h.mem_iff _).2 ⟨?_, ⟨node, ?_, rfl⟩, hdist.pos hne, hle, ?_⟩, hid⟩
    · exact fun heq => hne (heq.symm.trans hid)
    · rw [hid]
      exact hnode
    · rw [hid]
      exact hdist

theorem NearestFirst.length_eq {rows : List ReachableNode} {a : ℕ}
    (h : NearestFirst g (g.Joined direction types) a bound rows) :
    rows.length = {b | Reaches (g.Joined direction types) bound a b}.ncard := by
  have hset : {b | Reaches (g.Joined direction types) bound a b} =
      ↑(rows.map fun r => r.node.id).toFinset := by
    ext b
    rw [Set.mem_ofPred_eq, ← h.exists_iff, Finset.mem_coe, List.mem_toFinset, List.mem_map]
  rw [hset, Set.ncard_coe_finset, List.toFinset_card_of_nodup h.nodup, List.length_map]

theorem ncard_reaches_le (a : ℕ) :
    {b | Reaches (g.Joined direction types) bound a b}.ncard ≤ g.nodes.rows.length := by
  have hsub : {b | Reaches (g.Joined direction types) bound a b} ⊆ ↑g.nodeIds.toFinset := by
    intro b hb
    obtain ⟨n, hn⟩ := exists_getNode_of_reaches hb
    rw [Finset.mem_coe, List.mem_toFinset, ← Graph.getNode_isSome_iff, hn]
    rfl
  refine (Set.ncard_le_ncard hsub (Finset.finite_toSet _)).trans ?_
  rw [Set.ncard_coe_finset]
  exact (List.toFinset_card_le _).trans (List.length_map _).le

/-- What each source reaches is reported, as far as the limit goes. -/
theorem exists_diffReports (g : Graph) (direction : ReachDirection) (edgeTypes : List String) (maxHops : ℕ)
    (sources : List SearchGraphRow) : ∃ rowsOf : SearchGraphRow → List ReachableNode,
      (∀ s, NearestFirst g (g.Fetched direction (trimmedTypes edgeTypes) reachFanout) s.id
        (min maxHops maxReachHops) (rowsOf s)) ∧
      diffReports g direction edgeTypes maxHops sources =
        some (sources.flatMap fun s => ((rowsOf s).take 4096).map (reportOf s)) := by
  choose rowsOf hrows hrun using fun s : SearchGraphRow =>
    reachable_nearestFirst g s.id direction edgeTypes maxHops 4096
  refine ⟨rowsOf, hrows, ?_⟩
  induction sources with
  | nil => rfl
  | cons s sources ih =>
    rw [diffReports, hrun, ih]
    rfl

theorem exists_diffImpactHits (g : Graph) (sources : List SearchGraphRow) (direction : ReachDirection)
    (edgeTypes : List String) (maxHops : ℕ) :
    ∃ hits, diffImpactHits g sources direction edgeTypes maxHops = some hits := by
  obtain ⟨rowsOf, -, hreports⟩ := exists_diffReports g direction edgeTypes maxHops sources
  exact ⟨_, by rw [diffImpactHits, hreports]; rfl⟩

/-- The reports of some sources are complete: each source reports what it reaches. -/
structure Complete (g : Graph) (R : ℕ → ℕ → Prop) (bound : ℕ) (sources : List SearchGraphRow)
    (reports : List (SourceMerge.Report SearchGraphRow ℕ)) : Prop where
  sound : ∀ r ∈ reports, ∃ s ∈ sources, s.id = r.source ∧ s.id ≠ r.node.id ∧ r.hops ≤ bound ∧
    Distance R s.id r.node.id r.hops ∧ ∃ n, g.getNode r.node.id = some n ∧ r.node = n.searchRow
  all : ∀ s ∈ sources, ∀ b, Reaches R bound s.id b →
    ∃ r ∈ reports, r.source = s.id ∧ r.node.id = b ∧ Distance R s.id b r.hops

variable {sources : List SearchGraphRow} {reports : List (SourceMerge.Report SearchGraphRow ℕ)}
  {e : SourceMerge.Entry SearchGraphRow ℕ}

theorem complete_reports {rowsOf : SearchGraphRow → List ReachableNode}
    (hrows : ∀ s, NearestFirst g (g.Joined direction types) s.id bound (rowsOf s))
    (hreach : ∀ s ∈ sources, {b | Reaches (g.Joined direction types) bound s.id b}.ncard ≤ 4096) :
    Complete g (g.Joined direction types) bound sources
      (sources.flatMap fun s => ((rowsOf s).take 4096).map (reportOf s)) where
  sound := by
    intro r hr
    obtain ⟨s, hs, hr⟩ := List.mem_flatMap.1 hr
    obtain ⟨row, hrow, rfl⟩ := List.mem_map.1 hr
    obtain ⟨hne, hstored, -, hle, hdist⟩ := ((hrows s).mem_iff row).1 (List.mem_of_mem_take hrow)
    exact ⟨s, hs, rfl, hne.symm, hle, hdist, hstored⟩
  all := by
    intro s hs b hb
    have hlen : (rowsOf s).length ≤ 4096 := (hrows s).length_eq ▸ hreach s hs
    obtain ⟨row, hrow, rfl⟩ := (hrows s).exists_iff.2 hb
    refine ⟨reportOf s row, List.mem_flatMap.2 ⟨s, hs, List.mem_map.2 ⟨row, ?_, rfl⟩⟩, rfl, rfl, ?_⟩
    · rwa [List.take_of_length_le hlen]
    · exact (((hrows s).mem_iff row).1 hrow).2.2.2.2

variable {R : ℕ → ℕ → Prop}

theorem Complete.mem_sources_iff (h : Complete g R bound sources reports)
    (he : SourceMerge.Merges SearchGraphRow.id reports e) {id : ℕ} :
    id ∈ e.sources ↔ ∃ s ∈ sources, s.id = id ∧ Reaches R bound s.id e.node.id := by
  rw [he.sources]
  constructor
  · rintro ⟨r, hr, hnode, rfl⟩
    obtain ⟨s, hs, hid, hne, hle, hdist, -⟩ := h.sound r hr
    rw [hnode] at hne hdist
    exact ⟨s, hs, hid, hne, r.hops, hle, hdist⟩
  · rintro ⟨s, hs, rfl, hreach⟩
    obtain ⟨r, hr, hsource, hnode, -⟩ := h.all s hs _ hreach
    exact ⟨r, hr, hnode, hsource⟩

theorem Complete.isLeast (h : Complete g R bound sources reports)
    (he : SourceMerge.Merges SearchGraphRow.id reports e) :
    IsLeast {n | ∃ s ∈ sources, s.id ≠ e.node.id ∧ Distance R s.id e.node.id n} e.hops := by
  obtain ⟨r, hr, hnode, hhops⟩ := he.attained
  obtain ⟨s, hs, -, hne, hle, hdist, -⟩ := h.sound r hr
  rw [hnode] at hne hdist
  rw [hhops] at hle hdist
  refine ⟨⟨s, hs, hne, hdist⟩, ?_⟩
  rintro n ⟨t, ht, hne', hdist'⟩
  -- what is farther away than the bound is not nearer than the entry
  by_cases hn : n ≤ bound
  · obtain ⟨r', hr', -, hnode', hdist''⟩ := h.all t ht _ ⟨hne', n, hn, hdist'⟩
    rw [hdist'.unique hdist'']
    exact he.least r' hr' hnode'
  · omega

theorem mem_sources_impactHitOf (hnd : (sources.map SearchGraphRow.id).Nodup) {s : SearchGraphRow} :
    s ∈ (impactHitOf sources e).sources ↔ s ∈ sources ∧ s.id ∈ e.sources := by
  rw [impactHitOf, List.mem_filterMap]
  constructor
  · rintro ⟨id, hid, hlast⟩
    obtain ⟨hs, rfl⟩ := mem_of_lastWrite hlast
    exact ⟨hs, (Finset.mem_sort _).1 hid⟩
  · rintro ⟨hs, hid⟩
    exact ⟨s.id, (Finset.mem_sort _).2 hid, lastWrite_of_nodup hnd hs⟩

theorem pairwise_sources_impactHitOf :
    (impactHitOf sources e).sources.Pairwise fun a b => a.id < b.id := by
  refine List.Pairwise.filterMap _ (fun a b hab x hx y hy => ?_) (Finset.sortedLT_sort e.sources).pairwise
  rw [(mem_of_lastWrite hx).2, (mem_of_lastWrite hy).2]
  exact hab

/-- **The hits are what the sources reach**, each with the least distance and the sources that reach it. -/
theorem nearestHits (g : Graph) {sources : List SearchGraphRow} (direction : ReachDirection)
    (edgeTypes : List String) (maxHops : ℕ) (hnd : (sources.map SearchGraphRow.id).Nodup)
    (hcap : g.WithinCap direction (trimmedTypes edgeTypes) reachFanout)
    (hreach : ∀ s ∈ sources, {b | Reaches (g.Joined direction (trimmedTypes edgeTypes))
      (min maxHops maxReachHops) s.id b}.ncard ≤ 4096) :
    ∃ hits, diffImpactHits g sources direction edgeTypes maxHops = some hits ∧
      NearestHits g (g.Joined direction (trimmedTypes edgeTypes)) (min maxHops maxReachHops) sources hits := by
  obtain ⟨rowsOf, hrows, hrun⟩ := exists_diffReports g direction edgeTypes maxHops sources
  rw [Graph.fetched_eq_joined reachFanout (by decide) hcap] at hrows
  set reports := sources.flatMap fun s => ((rowsOf s).take 4096).map (reportOf s) with hreports
  have hcomplete := complete_reports hrows hreach
  rw [← hreports] at hcomplete
  set entries := SourceMerge.collect SearchGraphRow.id reports with hentries
  have hmerges (e : SourceMerge.Entry SearchGraphRow ℕ) (he : e ∈ entries.rows) :
      SourceMerge.Merges SearchGraphRow.id reports e := SourceMerge.merges_of_mem_collect he
  have hmem (h : DiffImpactHit) : h ∈ Ranking.ranked DiffImpactHit.key (entries.rows.map (impactHitOf sources)) ↔
      ∃ e ∈ entries.rows, impactHitOf sources e = h := by rw [Ranking.mem_ranked, List.mem_map]
  have hids : ((entries.rows.map (impactHitOf sources)).map fun h => h.node.id).Nodup := by
    rw [List.map_map]
    exact entries.keys_nodup
  have hkeys : ((entries.rows.map (impactHitOf sources)).map DiffImpactHit.key).Nodup := by
    refine List.Nodup.of_map (fun k => (ofLex (ofLex k).2).2) ?_
    rw [List.map_map]
    exact hids
  refine ⟨_, by rw [diffImpactHits, hrun]; rfl, ?_⟩
  refine ⟨Ranking.strict_ranked hkeys, ((Ranking.perm_ranked _ _).map _).nodup_iff.2 hids, ?_, ?_, ?_, ?_, ?_⟩
  · intro h hh
    obtain ⟨e, he, rfl⟩ := (hmem h).1 hh
    obtain ⟨r, hr, hnode⟩ := SourceMerge.exists_report he
    obtain ⟨-, -, -, -, -, -, hstored⟩ := hcomplete.sound r hr
    rw [hnode] at hstored
    exact hstored
  · intro b
    constructor
    · rintro ⟨h, hh, rfl⟩
      obtain ⟨e, he, rfl⟩ := (hmem h).1 hh
      obtain ⟨r, hr, hnode⟩ := SourceMerge.exists_report he
      obtain ⟨s, hs, -, hne, hle, hdist, -⟩ := hcomplete.sound r hr
      rw [hnode] at hne hdist
      exact ⟨s, hs, hne, r.hops, hle, hdist⟩
    · rintro ⟨s, hs, hb⟩
      obtain ⟨r, hr, -, hnode, -⟩ := hcomplete.all s hs b hb
      obtain ⟨e, he, hkey⟩ : ∃ e ∈ entries.rows, e.node.id = r.node.id := SourceMerge.exists_mem_collect _ hr
      exact ⟨impactHitOf sources e, (hmem _).2 ⟨e, he, rfl⟩, hkey.trans hnode⟩
  · intro h hh
    obtain ⟨e, he, rfl⟩ := (hmem h).1 hh
    exact hcomplete.isLeast (hmerges e he)
  · intro h hh s
    obtain ⟨e, he, rfl⟩ := (hmem h).1 hh
    rw [mem_sources_impactHitOf hnd, hcomplete.mem_sources_iff (hmerges e he)]
    refine and_congr_right fun hs => ⟨?_, fun hreaches => ⟨s, hs, rfl, hreaches⟩⟩
    rintro ⟨t, -, hid, hreaches⟩
    exact hid ▸ hreaches
  · intro h hh
    obtain ⟨e, -, rfl⟩ := (hmem h).1 hh
    exact pairwise_sources_impactHitOf

end Hits

/-! ### The impact -/

/-- No edited definition is missed: around every line that a hunk adds or replaces, where some definition is
around it, the innermost one is a source, unless it is a module, an import, a call or a file. -/
def MissesNothing (g : Graph) (project : String) (d : List DiffFile) (sources : List SearchGraphRow) : Prop :=
  ∀ f ∈ d, ∀ h ∈ f.hunks, ∀ line ∈ h.newLines, ∀ outer,
    Fetched g (some project) (String.ofList f.path) outer → Brackets outer line →
    ∃ r, Innermost g project (String.ofList f.path) line r ∧ (graphImpactSourceRow r = true → r ∈ sources)

/-- **The innermost definition at a changed line is a source, and the hits are exact.** -/
theorem diffImpact_spec {git : List (List Char) → CommandRun} {diffRev : List Char} {d : List DiffFile}
    (hgit : PrintsDiff git diffRev d) (hbalance : CreditsBalance d) (g : Graph) (project : String)
    (direction : ReachDirection) (edgeTypes : List String) (depth : ℕ) :
    ∃ changed entries hits, gitDiffChangedLines git diffRev "impact".toList = .ok changed ∧
      IsEntriesOf changed entries ∧
      diffImpactHits g (diffImpactSources g project entries) direction edgeTypes depth = some hits ∧
      MissesNothing g project d (diffImpactSources g project entries) ∧
      (g.WithinCap direction (trimmedTypes edgeTypes) 4096 →
        (∀ s ∈ diffImpactSources g project entries,
          {b | Reaches (g.Joined direction (trimmedTypes edgeTypes)) (min depth 32) s.id b}.ncard ≤ 4096) →
        NearestHits g (g.Joined direction (trimmedTypes edgeTypes)) (min depth 32)
          (diffImpactSources g project entries) hits) := by
  have hread : gitDiffChangedLines git diffRev "impact".toList = _ := gitDiffChangedLines_eq hgit
  have hentries := isEntriesOf_credits d
  set entries := changedEntries ((credits d).foldl creditLines fun _ => none) (namedFiles d)
  obtain ⟨hits, hhits⟩ :=
    exists_diffImpactHits g (diffImpactSources g project entries) direction edgeTypes depth
  refine ⟨_, entries, hits, hread, hentries, hhits, ?_, fun hcap hreach => ?_⟩
  · intro f hf h hh line hline outer houter hbrackets
    obtain ⟨r, hr⟩ := exists_innermost houter hbrackets
    refine ⟨r, hr, fun hrow => mem_diffImpactSources.2 ?_⟩
    -- the line is read back for its file
    have hcredit := (hbalance f.path line).2
      ((exists_mem_creditsFrom (fun own h => own = f.path ∧ line ∈ h.newLines) none d).2
        ⟨f, hf, h, hh, rfl, hline⟩)
    have hmem := (mem_foldl_creditLines (credits d) (fun _ => none) f.path line).2 (.inr hcredit)
    cases hset : ((credits d).foldl creditLines fun _ => none) f.path with
    | none =>
      rw [hset] at hmem
      cases hmem
    | some set =>
      rw [hset] at hmem
      refine ⟨String.ofList f.path, set.sort (· ≤ ·), (hentries.mem_iff _ _).2 ⟨set, ?_, rfl⟩, line,
        (Finset.mem_sort _).2 hmem, definitionAt_eq_some_iff.2 hr, hrow⟩
      rw [String.toList_ofList, hset]
  · obtain ⟨hits', hhits', hnearest⟩ := nearestHits g direction edgeTypes depth
      (nodup_diffImpactSources entries) hcap hreach
    rw [hhits, Option.some.injEq] at hhits'
    rw [hhits']
    exact hnearest

/-! ### Where an edit is not seen -/

/-- A function from line 1 to line 10, and two in it on the lines 4 to 5 and 6 to 7; the first of these calls the
second. -/
def nestedFunctions : Graph :=
  Graph.ofInserts ⟨"p", "2026-06-29T00:00:00Z", "/p"⟩
    [⟨"p", "Function", "outer", "outer", "a.rs", 1, 10, .null⟩,
      ⟨"p", "Function", "first", "first", "a.rs", 4, 5, .null⟩,
      ⟨"p", "Function", "second", "second", "a.rs", 6, 7, .null⟩]
    [⟨"p", 2, 3, "CALLS", .null⟩]

def outerFunctionRow : SearchGraphRow := ⟨1, "p", "Function", "outer", "outer", "a.rs", 1, 10⟩

def firstInnerRow : SearchGraphRow := ⟨2, "p", "Function", "first", "first", "a.rs", 4, 5⟩

def secondInnerRow : SearchGraphRow := ⟨3, "p", "Function", "second", "second", "a.rs", 6, 7⟩

/-- A hunk of the line `x`, so many times removed and so many times added. -/
def editHunk (oldStart newStart removed added : ℕ) (h : newStart + added < 2 ^ 63) : DiffHunk where
  oldStart := oldStart
  newStart := newStart
  removed := List.replicate removed [120]
  added := List.replicate added [120]
  oldOpen := false
  newOpen := false
  heading := []
  oneLine := by
    intro line hline
    simp only [List.mem_cons, List.mem_append, List.mem_replicate] at hline
    rcases hline with rfl | ⟨-, rfl⟩ | ⟨-, rfl⟩
    · exact List.not_mem_nil
    · decide
    · decide
  fits := by rwa [List.length_replicate]

def editDiff (h : DiffHunk) : List DiffFile :=
  [⟨['a', '.', 'r', 's'], [], [h], fun _ hline => absurd hline List.not_mem_nil⟩]

def deletedLine : List DiffFile := editDiff (editHunk 9 8 1 0 (by decide))

def replacedFunctions : List DiffFile := editDiff (editHunk 4 4 4 4 (by decide))

theorem creditsBalance_replacedFunctions : CreditsBalance replacedFunctions :=
  creditsBalance_of_plain (by decide) (by decide)

theorem entries_replacedFunctions :
    changedEntries ((credits replacedFunctions).foldl creditLines fun _ => none)
      (namedFiles replacedFunctions) = [("a.rs", [4, 5, 6, 7])] := by
  have hfiles : Ranking.ranked id (namedFiles replacedFunctions).dedup = ["a.rs"] := by decide
  have hset : ((credits replacedFunctions).foldl creditLines fun _ => none) "a.rs".toList =
      some [4, 5, 6, 7].toFinset := by decide
  rw [changedEntries, hfiles, List.filterMap_cons, hset, Option.map_some,
    (List.toFinset_sort (· ≤ ·) (by decide)).2 (by decide)]
  rfl

theorem entries_deletedLine :
    changedEntries ((credits deletedLine).foldl creditLines fun _ => none) (namedFiles deletedLine) = [] := by
  decide

theorem sources_replacedFunctions :
    diffImpactSources nestedFunctions "p" [("a.rs", [4, 5, 6, 7])] = [firstInnerRow, secondInnerRow] := by
  decide

/-- The impact of the edit of the two inner functions. -/
theorem diffImpact_spec_replacedFunctions :
    ∃ changed entries hits,
      gitDiffChangedLines (gitPrinting replacedFunctions) "HEAD~1".toList "impact".toList = .ok changed ∧
      IsEntriesOf changed entries ∧
      diffImpactHits nestedFunctions (diffImpactSources nestedFunctions "p" entries) .outgoing ["CALLS"] 6 =
        some hits ∧
      MissesNothing nestedFunctions "p" replacedFunctions (diffImpactSources nestedFunctions "p" entries) ∧
      NearestHits nestedFunctions (nestedFunctions.Joined .outgoing (trimmedTypes ["CALLS"])) (min 6 32)
        (diffImpactSources nestedFunctions "p" entries) hits := by
  have hgit : PrintsDiff (gitPrinting replacedFunctions) "HEAD~1".toList replacedFunctions := ⟨[], rfl⟩
  obtain ⟨changed, entries, hits, hread, hentries, hhits, hmisses, hnearest⟩ :=
    diffImpact_spec hgit creditsBalance_replacedFunctions nestedFunctions "p" .outgoing ["CALLS"] 6
  refine ⟨changed, entries, hits, hread, hentries, hhits, hmisses, hnearest ?_ fun s _ => ?_⟩
  · exact Graph.withinCap_of_length_le (by decide +kernel)
  · exact (ncard_reaches_le s.id).trans (by decide +kernel)

theorem innermost_outerFunctionRow {line : ℤ} (h : line = 8 ∨ line = 9) :
    Innermost nestedFunctions "p" "a.rs" line outerFunctionRow := by
  rw [← definitionAt_eq_some_iff]
  rcases h with rfl | rfl <;> decide

/-- An edit that is not seen, or not as it is asked for.  A line of a function is deleted, and there is no source.
A hunk covers two functions in the function around it, and this is no source.  And of the two sources of that hunk
one reaches the other, which is nearest to itself. -/
theorem diffImpact_misses :
    (∃ changed entries, gitDiffChangedLines (gitPrinting deletedLine) "HEAD~1".toList "impact".toList =
        .ok changed ∧ IsEntriesOf changed entries ∧ diffImpactSources nestedFunctions "p" entries = [] ∧
      PrintsDiff (gitPrinting deletedLine) "HEAD~1".toList deletedLine ∧
      Innermost nestedFunctions "p" "a.rs" 8 outerFunctionRow ∧
      Innermost nestedFunctions "p" "a.rs" 9 outerFunctionRow ∧
      graphImpactSourceRow outerFunctionRow = true) ∧
    (∃ changed entries hits, gitDiffChangedLines (gitPrinting replacedFunctions) "HEAD~1".toList
        "impact".toList = .ok changed ∧ IsEntriesOf changed entries ∧
      diffImpactSources nestedFunctions "p" entries = [firstInnerRow, secondInnerRow] ∧
      PrintsDiff (gitPrinting replacedFunctions) "HEAD~1".toList replacedFunctions ∧
      (∀ r ∈ fileRows nestedFunctions (some "p") "a.rs",
        (∀ line ∈ ({4, 5, 6, 7} : Finset ℤ), Brackets r line) → r = outerFunctionRow) ∧
      diffImpactHits nestedFunctions (diffImpactSources nestedFunctions "p" entries) .outgoing ["CALLS"] 6 =
        some hits ∧
      ∃ h ∈ hits, h.node = secondInnerRow ∧ h.hops ≠ 0 ∧ secondInnerRow ∉ h.sources ∧
        Distance (nestedFunctions.Joined .outgoing ["CALLS"]) secondInnerRow.id h.node.id 0) := by
  have hdeleted : PrintsDiff (gitPrinting deletedLine) "HEAD~1".toList deletedLine := ⟨[], rfl⟩
  have hreplaced : PrintsDiff (gitPrinting replacedFunctions) "HEAD~1".toList replacedFunctions := ⟨[], rfl⟩
  have hnone := isEntriesOf_credits deletedLine
  rw [entries_deletedLine] at hnone
  have hentries := isEntriesOf_credits replacedFunctions
  rw [entries_replacedFunctions] at hentries
  obtain ⟨hits, hhits, hnearest⟩ := nearestHits nestedFunctions .outgoing ["CALLS"] 6
    (nodup_diffImpactSources [("a.rs", [4, 5, 6, 7])] :
      ((diffImpactSources nestedFunctions "p" [("a.rs", [4, 5, 6, 7])]).map SearchGraphRow.id).Nodup)
    (Graph.withinCap_of_length_le (by decide +kernel)) fun s _ => (ncard_reaches_le s.id).trans (by decide +kernel)
  refine ⟨⟨_, [], gitDiffChangedLines_eq hdeleted, hnone, rfl, hdeleted, innermost_outerFunctionRow (.inl rfl),
    innermost_outerFunctionRow (.inr rfl), by decide +kernel⟩,
    ⟨_, _, hits, gitDiffChangedLines_eq hreplaced, hentries, sources_replacedFunctions, hreplaced, ?_, hhits,
      ?_⟩⟩
  · have hrows : fileRows nestedFunctions (some "p") "a.rs" =
        [outerFunctionRow, firstInnerRow, secondInnerRow] := by decide +kernel
    intro r hr hlines
    rw [hrows] at hr
    have hfirst := (hlines 4 (by decide)).1
    have hlast := (hlines 7 (by decide)).2
    rcases List.mem_cons.1 hr with rfl | hr
    · rfl
    · rcases List.mem_cons.1 hr with rfl | hr
      · exact absurd hlast (by decide)
      · rw [List.mem_singleton.1 hr] at hfirst
        exact absurd hfirst (by decide)
  · have hcall : Reaches (nestedFunctions.Joined .outgoing (trimmedTypes ["CALLS"])) (min 6 maxReachHops)
        firstInnerRow.id secondInnerRow.id :=
      ⟨by decide, 1, by decide, (Distance.one_iff (by decide)).2 (by decide +kernel)⟩
    obtain ⟨h, hh, hid⟩ := (hnearest.complete secondInnerRow.id).2
      ⟨firstInnerRow, by rw [sources_replacedFunctions]; exact List.mem_cons_self, hcall⟩
    refine ⟨h, hh, ?_, ?_, ?_, ?_⟩
    · obtain ⟨n, hn, hrow⟩ := hnearest.stored h hh
      have hsecond : nestedFunctions.getNode secondInnerRow.id =
          some ⟨⟨"p", "Function", "second", "second", "a.rs", 6, 7, .null⟩, 3⟩ := by decide +kernel
      rw [hid, hsecond, Option.some.injEq] at hn
      rw [hrow, ← hn]
      rfl
    · obtain ⟨s, -, hne, hdist⟩ := (hnearest.least h hh).1
      exact (hdist.pos hne).ne'
    · intro hmem
      exact ((hnearest.sources_iff h hh secondInnerRow).1 hmem).2.1 hid.symm
    · rw [Distance.zero_iff, hid]

end Greppy
