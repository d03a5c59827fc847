/-
**The definition at a line.**

`definition_at` takes the symbols of a file, as far as they are fetched, keeps those whose lines include the
one asked about, and gives the one that begins last.  Of two that begin on the same line it gives the one
that ends first.

Where the ranges are nested this is the innermost.  Of two ranges that overlap neither is inside the other,
and the one that begins later is given even if the other is shorter.
-/

import Greppy.GraphSearch

set_option autoImplicit false

namespace Greppy

/-! ### The search -/

-- line numbers are compared as integers are; named here so that the keys below compute
local instance lineOrder : LinearOrder ℤ := Int.instLinearOrder

local instance linePreorder : Preorder ℤ := lineOrder.toPreorder

/-- The order of the symbols of a file: `start_line`, `end_line` from the last on, `qualified_name`, `id`. -/
def SearchGraphRow.sourceKey (r : SearchGraphRow) : ℤ ×ₗ ℤᵒᵈ ×ₗ String ×ₗ ℕ :=
  toLex (r.startLine, toLex (OrderDual.toDual r.endLine, toLex (r.qualifiedName, r.id)))

/-- The order in which a definition is chosen: `start_line` from the last on, `end_line`,
`qualified_name`, `id`. -/
def SearchGraphRow.innermostKey (r : SearchGraphRow) : ℤᵒᵈ ×ₗ ℤ ×ₗ String ×ₗ ℕ :=
  toLex (OrderDual.toDual r.startLine, toLex (r.endLine, toLex (r.qualifiedName, r.id)))

/-- The query of `symbols_in_file`. -/
def symbolsQuery (project : Option String) (file : String) : GraphQuery :=
  { project := project, orderBy := .file, filePathExact := some file }

def symbolsInFile (g : Graph) (project : Option String) (file : String) (limit : ℕ) :
    List SearchGraphRow :=
  let rows := (symbolsQuery project file).searchGraph g
  (Ranking.ranked SearchGraphRow.sourceKey rows).take limit

def definitionAt (g : Graph) (project : Option String) (file : String) (line : ℤ) :
    Option SearchGraphRow :=
  let rows := symbolsInFile g project file 10000
  (rows.filter fun r => decide (r.startLine ≤ line ∧ line ≤ r.endLine)).argmin
    SearchGraphRow.innermostKey

/-! ### The symbols of a file -/

section Symbols

variable (g : Graph) (project : Option String) (file : String)

/-- The rows of the nodes of a file, in a project or in all of them. -/
def fileRows : List SearchGraphRow :=
  (g.nodes.rows.filter fun n => decide ((∀ p ∈ project, n.project = p) ∧ n.filePath = file)).map
    Node.searchRow

/-- The symbols of a file that are fetched: those with fewer than ten thousand others in front of them, by
`start_line` and `id`. -/
def Fetched (r : SearchGraphRow) : Prop :=
  r ∈ fileRows g project file ∧
    (fileRows g project file).countP (fun s =>
      decide (s.startLine < r.startLine ∨ s.startLine = r.startLine ∧ s.id < r.id)) < 10000

/-- The lines of a symbol include a line. -/
def Brackets (r : SearchGraphRow) (line : ℤ) : Prop := r.startLine ≤ line ∧ line ≤ r.endLine

/-- The lines of a symbol are some of those of another one, but not all. -/
def StrictlyInside (r s : SearchGraphRow) : Prop :=
  s.startLine ≤ r.startLine ∧ r.endLine ≤ s.endLine ∧
    (s.startLine < r.startLine ∨ r.endLine < s.endLine)

variable {g project file}

theorem selected_symbolsQuery : (symbolsQuery project file).selected g = fileRows g project file := by
  rw [GraphQuery.selected, fileRows]
  refine congrArg (List.map Node.searchRow) (List.filter_congr fun n _ => ?_)
  rw [Bool.eq_iff_iff, passes_appendGraphFilters, decide_eq_true_eq]
  cases project <;> simp [symbolsQuery, GraphQuery.filters, GraphClause.holds]

/-- The rows are ordered by `start_line` and `id`, as they have one path. -/
theorem file_columns_lt_iff {r s : SearchGraphRow} (hr : r ∈ fileRows g project file)
    (hs : s ∈ fileRows g project file) :
    GraphOrder.file.columns s < GraphOrder.file.columns r ↔
      s.startLine < r.startLine ∨ s.startLine = r.startLine ∧ s.id < r.id := by
  have hpath : ∀ t ∈ fileRows g project file, t.filePath = file := by
    intro t ht
    obtain ⟨n, hn, rfl⟩ := List.mem_map.1 ht
    exact (of_decide_eq_true (List.mem_filter.1 hn).2).2
  simp [GraphOrder.columns, hpath r hr, hpath s hs, Prod.Lex.toLex_lt_toLex]

theorem mem_symbolsInFile {r : SearchGraphRow} :
    r ∈ symbolsInFile g project file 10000 ↔ Fetched g project file r := by
  have hrows : (symbolsQuery project file).searchGraph g =
      (Ranking.ranked GraphOrder.file.columns (fileRows g project file)).take 10000 := by
    have hplain : (symbolsQuery project file).orderBy.direction = none := rfl
    have hlimit : (symbolsQuery project file).limit.toNat = 10000 := rfl
    rw [GraphQuery.searchGraph, hplain, if_neg (by simp), hlimit, selected_symbolsQuery]
    exact Graph.sqlLimit_eq_take (by decide) _
  have hlen : (Ranking.ranked SearchGraphRow.sourceKey
      ((symbolsQuery project file).searchGraph g)).length ≤ 10000 := by
    rw [Ranking.length_ranked, hrows]
    exact List.length_take_le _ _
  have hnodup : ((fileRows g project file).map GraphOrder.file.columns).Nodup := nodup_columns _ _
  rw [symbolsInFile, List.take_of_length_le hlen, Ranking.mem_ranked, hrows,
    Ranking.mem_take_ranked hnodup]
  refine and_congr_right fun hr => ?_
  rw [Ranking.ahead]
  refine iff_of_eq (congrArg (· < 10000) (List.countP_congr fun s hs => ?_))
  rw [decide_eq_true_eq, decide_eq_true_eq, file_columns_lt_iff hr hs]

theorem fetched_of_length_le (h : (fileRows g project file).length ≤ 10000) {r : SearchGraphRow} :
    Fetched g project file r ↔ r ∈ fileRows g project file := by
  refine and_iff_left_of_imp fun hr => ?_
  refine Nat.lt_of_lt_of_le ?_ h
  rw [List.countP_lt_length_iff]
  exact ⟨r, hr, by simp⟩

theorem mem_bracketing {line : ℤ} {r : SearchGraphRow} :
    r ∈ (symbolsInFile g project file 10000).filter (fun r =>
      decide (r.startLine ≤ line ∧ line ≤ r.endLine)) ↔ Fetched g project file r ∧ Brackets r line := by
  rw [List.mem_filter, mem_symbolsInFile, decide_eq_true_eq]
  rfl

/-- There is nothing where no symbol that is fetched brackets the line. -/
theorem definitionAt_eq_none_iff {line : ℤ} :
    definitionAt g project file line = none ↔ ∀ r, Fetched g project file r → ¬ Brackets r line := by
  rw [definitionAt, List.argmin_eq_none, List.eq_nil_iff_forall_not_mem]
  exact forall_congr' fun r => by rw [mem_bracketing, not_and]

/-- What is given is fetched, brackets the line, and comes first of what does. -/
theorem innermost_of_definitionAt {line : ℤ} {d : SearchGraphRow}
    (h : definitionAt g project file line = some d) :
    Fetched g project file d ∧ Brackets d line ∧
      ∀ r, Fetched g project file r → Brackets r line → d.innermostKey ≤ r.innermostKey := by
  obtain ⟨hfetched, hbrackets⟩ := mem_bracketing.1 (List.argmin_mem h)
  exact ⟨hfetched, hbrackets, fun r hr hline => List.le_of_mem_argmin (mem_bracketing.2 ⟨hr, hline⟩) h⟩

/-- **What is given brackets the line, and nothing that does is inside it.**  There is nothing where no
symbol that is fetched brackets the line.  Else the symbol that is given begins last of those that do, and ends
first of those that begin with it; whatever is shorter than it begins and ends in front of it. -/
theorem definitionAt_spec (g : Graph) (project : Option String) (file : String) (line : ℤ) :
    (definitionAt g project file line = none ↔ ∀ r, Fetched g project file r → ¬ Brackets r line) ∧
    (∀ d, definitionAt g project file line = some d →
      Fetched g project file d ∧ Brackets d line ∧
      ∀ r, Fetched g project file r → Brackets r line →
        d.innermostKey ≤ r.innermostKey ∧ ¬ StrictlyInside r d ∧
        (r.endLine - r.startLine < d.endLine - d.startLine →
          r.startLine < d.startLine ∧ r.endLine < d.endLine)) ∧
    ((fileRows g project file).length ≤ 10000 →
      ∀ r, Fetched g project file r ↔ r ∈ fileRows g project file) := by
  refine ⟨definitionAt_eq_none_iff, ?_, fun hlen r => fetched_of_length_le hlen⟩
  · intro d hd
    obtain ⟨hfetched, hbrackets, hfirst⟩ := innermost_of_definitionAt hd
    refine ⟨hfetched, hbrackets, ?_⟩
    intro r hr hline
    have hle := hfirst r hr hline
    have hlines : r.startLine < d.startLine ∨ r.startLine = d.startLine ∧ d.endLine ≤ r.endLine := by
      simp only [SearchGraphRow.innermostKey, Prod.Lex.toLex_le_toLex, OrderDual.toDual_lt_toDual,
        OrderDual.toDual_inj] at hle
      omega
    refine ⟨hle, ?_, ?_⟩
    · rintro ⟨hstart, hend, hstrict⟩
      omega
    · intro hshorter
      omega

end Symbols

/-- Two functions whose lines overlap, the first of them shorter. -/
def overlappingFile : Graph :=
  Graph.ofInserts ⟨"p", "2026-06-29T00:00:00Z", "/p"⟩
    [⟨"p", "Function", "f", "f", "a.rs", 1, 5, .null⟩,
      ⟨"p", "Function", "g", "g", "a.rs", 3, 100, .null⟩] []

/-- The functions of a file with `n + 1` of them: all but the last are on the first line. -/
def crowdedNode (n i : ℕ) : Node where
  id := i + 1
  project := "p"
  label := "Function"
  name := String.ofList (List.replicate i 'f')
  qualifiedName := String.ofList (List.replicate i 'f')
  filePath := "a.rs"
  startLine := if i < n then 1 else 2
  endLine := if i < n then 1 else 2
  properties := .null

theorem nodup_key_crowdedNode (n : ℕ) :
    (((List.range (n + 1)).map (crowdedNode n)).map Node.key).Nodup := by
  rw [List.map_map]
  refine List.nodup_range.map fun i j h => ?_
  have hname := congrArg (fun k : String × String => k.2.toList.length) h
  simpa [Node.key, crowdedNode] using hname

theorem nodup_id_crowdedNode (n : ℕ) :
    (((List.range (n + 1)).map (crowdedNode n)).map Node.id).Nodup := by
  rw [List.map_map]
  exact List.nodup_range.map fun i j h => Nat.succ.inj h

theorem ids_lt_crowdedNode (n : ℕ) : ∀ m ∈ (List.range (n + 1)).map (crowdedNode n), m.id < n + 2 := by
  intro m hm
  obtain ⟨i, hi, rfl⟩ := List.mem_map.1 hm
  have := List.mem_range.1 hi
  simp only [crowdedNode]
  omega

def crowdedProjects : KeyedTable Project Project.name :=
  KeyedTable.empty.upsert ⟨"p", "2026-06-29T00:00:00Z", "/p"⟩

theorem nodes_fk_crowdedNode (n : ℕ) :
    ∀ m ∈ (List.range (n + 1)).map (crowdedNode n), (crowdedProjects.find? m.project).isSome := by
  intro m hm
  obtain ⟨i, -, rfl⟩ := List.mem_map.1 hm
  rfl

/-- A file with `n + 1` functions. -/
def crowdedFile (n : ℕ) : Graph where
  projects := crowdedProjects
  nodes := ⟨(List.range (n + 1)).map (crowdedNode n), nodup_key_crowdedNode n⟩
  nextNodeId := n + 2
  edges := KeyedTable.empty
  ids_nodup := nodup_id_crowdedNode n
  ids_lt := ids_lt_crowdedNode n
  nodes_fk := nodes_fk_crowdedNode n
  edges_fk := by simp

theorem fileRows_crowdedFile (n : ℕ) : fileRows (crowdedFile n) (some "p") "a.rs" =
    (List.range (n + 1)).map fun i => (crowdedNode n i).searchRow := by
  have hall : ((List.range (n + 1)).map (crowdedNode n)).filter (fun m =>
      decide ((∀ p ∈ some "p", m.project = p) ∧ m.filePath = "a.rs")) =
      (List.range (n + 1)).map (crowdedNode n) := by
    refine List.filter_eq_self.2 fun m hm => ?_
    obtain ⟨i, -, rfl⟩ := List.mem_map.1 hm
    simp [crowdedNode]
  rw [fileRows, crowdedFile, hall, List.map_map]
  rfl

theorem exists_brackets_crowdedFile (n : ℕ) :
    ∃ r ∈ fileRows (crowdedFile n) (some "p") "a.rs", Brackets r 2 := by
  refine ⟨(crowdedNode n n).searchRow, ?_, ?_⟩
  · rw [fileRows_crowdedFile]
    exact List.mem_map.2 ⟨n, List.mem_range.2 (Nat.lt_succ_self n), rfl⟩
  · constructor <;> simp [Node.searchRow, crowdedNode]

/-- The function on the second line has the others in front of it, and is not fetched if there are ten
thousand. -/
theorem definitionAt_crowdedFile {n : ℕ} (hn : 10000 ≤ n) :
    definitionAt (crowdedFile n) (some "p") "a.rs" 2 = none := by
  rw [definitionAt_eq_none_iff]
  rintro r ⟨hr, hahead⟩ hline
  rw [fileRows_crowdedFile] at hr hahead
  obtain ⟨i, -, rfl⟩ := List.mem_map.1 hr
  have hlast : ¬ i < n := by
    intro hi
    have hend := hline.2
    simp [Node.searchRow, crowdedNode, hi] at hend
  rw [List.countP_map, List.range_succ, List.countP_append] at hahead
  have hall : (List.range n).countP ((fun s : SearchGraphRow =>
      decide (s.startLine < (crowdedNode n i).searchRow.startLine ∨
        s.startLine = (crowdedNode n i).searchRow.startLine ∧ s.id < (crowdedNode n i).searchRow.id)) ∘
      fun i => (crowdedNode n i).searchRow) = (List.range n).length := by
    rw [List.countP_eq_length]
    intro j hj
    simp [Node.searchRow, crowdedNode, hlast, List.mem_range.1 hj]
  rw [hall, List.length_range] at hahead
  omega

/-- Of two functions that overlap the longer one is given, where it begins later.  In a file with more than
ten thousand functions none is given for a line that the last of them is on. -/
theorem definitionAt_not_narrowest :
    (∃ d, definitionAt overlappingFile (some "p") "a.rs" 4 = some d ∧
      ∃ r ∈ fileRows overlappingFile (some "p") "a.rs",
        Brackets r 4 ∧ r.endLine - r.startLine < d.endLine - d.startLine) ∧
    definitionAt (crowdedFile 10000) (some "p") "a.rs" 2 = none ∧
      ∃ r ∈ fileRows (crowdedFile 10000) (some "p") "a.rs", Brackets r 2 := by
  refine ⟨⟨⟨2, "p", "Function", "g", "g", "a.rs", 3, 100⟩, by decide +kernel,
    ⟨1, "p", "Function", "f", "f", "a.rs", 1, 5⟩, by decide +kernel, ⟨by decide, by decide⟩, by decide⟩,
    definitionAt_crowdedFile le_rfl, exists_brackets_crowdedFile 10000⟩

end Greppy
