/-
**The structured graph search.**

`search_graph` of `crates/search/src/graph.rs` puts the filters of a query together into one SQL statement,
with a parameter for each.  Substrings and prefixes are looked up with `LIKE`, after the characters with a
meaning in a pattern have been escaped.  The order by columns and the limit are left to the database; an
order by degree is made from the edges that are fetched for each row.

The escaping is right, so that what is looked for is looked for literally.  But `LIKE` takes no notice of
the case of ASCII letters, the edges of a row are fetched up to a cap, and a limit that does not fit the
database's integers is none.
-/

import Greppy.MostConnected
import Greppy.SqlLike

set_option autoImplicit false

namespace Greppy

/-! ### Queries -/

inductive GraphOrder where
  | qualifiedName
  | name
  | file
  | outDegreeDesc
  | inDegreeDesc
  deriving DecidableEq

structure GraphQuery where
  project : Option String := none
  label : Option String := none
  name : Option String := none
  qnameContains : Option String := none
  qnameExact : Option String := none
  filePathContains : Option String := none
  nameContains : Option String := none
  namePrefix : Option String := none
  filePathPrefix : Option String := none
  filePathExact : Option String := none
  hasOutgoingEdge : Option String := none
  hasIncomingEdge : Option String := none
  orderBy : GraphOrder := .qualifiedName
  orderEdgeType : Option String := none
  limit : UInt64 := 10000

def likeEscape (s : List Char) : List Char :=
  s.foldl (fun out ch =>
    match ch with
    | '\\' | '%' | '_' => out ++ ['\\'] ++ [ch]
    | _ => out ++ [ch]) []

/-- The clauses of the statement, each with one parameter. -/
inductive GraphClause where
  | projectIs
  | labelIs
  | nameIs
  | qualifiedNameLike
  | qualifiedNameIs
  | filePathLike
  | nameLike
  | filePathIs
  | outgoingEdgeExists
  | incomingEdgeExists
  deriving DecidableEq

/-- The clause holds of a row, for a value of its parameter. -/
def GraphClause.holds (g : Graph) (n : Node) (bind : String) : GraphClause → Bool
  | projectIs => decide (n.project = bind)
  | labelIs => decide (n.label = bind)
  | nameIs => decide (n.name = bind)
  | qualifiedNameLike => SqlLike.like bind.toList n.qualifiedName.toList
  | qualifiedNameIs => decide (n.qualifiedName = bind)
  | filePathLike => SqlLike.like bind.toList n.filePath.toList
  | nameLike => SqlLike.like bind.toList n.name.toList
  | filePathIs => decide (n.filePath = bind)
  | outgoingEdgeExists => g.edges.rows.any fun e => decide (e.sourceId = n.id ∧ e.edgeType = bind)
  | incomingEdgeExists => g.edges.rows.any fun e => decide (e.targetId = n.id ∧ e.edgeType = bind)

/-- The statement as far as it is built: its clauses, and the values bound so far. -/
abbrev GraphSql : Type := List GraphClause × List String

/-- A filter that is given appends its clause and binds its value. -/
def GraphSql.push (sql : GraphSql) (clause : GraphClause) (bind : Option String) : GraphSql :=
  match bind with
  | some b => (sql.1 ++ [clause], sql.2 ++ [b])
  | none => sql

/-- `format!("%{}%", like_escape(s))`. -/
def containsPattern (s : String) : String := String.ofList ('%' :: (likeEscape s.toList ++ ['%']))

/-- `format!("{}%", like_escape(s))`. -/
def prefixPattern (s : String) : String := String.ofList (likeEscape s.toList ++ ['%'])

def appendGraphFilters (q : GraphQuery) : GraphSql :=
  let sql : GraphSql := ([], [])
  let sql := sql.push .projectIs q.project
  let sql := sql.push .labelIs q.label
  let sql := sql.push .nameIs q.name
  let sql := sql.push .qualifiedNameLike (q.qnameContains.map containsPattern)
  let sql := sql.push .qualifiedNameIs q.qnameExact
  let sql := sql.push .filePathLike (q.filePathContains.map containsPattern)
  let sql := sql.push .nameLike (q.nameContains.map containsPattern)
  let sql := sql.push .nameLike (q.namePrefix.map prefixPattern)
  let sql := sql.push .filePathLike (q.filePathPrefix.map prefixPattern)
  let sql := sql.push .filePathIs q.filePathExact
  let sql := sql.push .outgoingEdgeExists q.hasOutgoingEdge
  sql.push .incomingEdgeExists q.hasIncomingEdge

/-- The row passes: each clause holds with the value at its position. -/
def GraphSql.passes (sql : GraphSql) (g : Graph) (n : Node) : Bool :=
  (sql.1.zip sql.2).all fun cb => cb.1.holds g n cb.2

/-! ### The search -/

/-- The end at which an order by degree counts edges; the other orders are by columns. -/
def GraphOrder.direction : GraphOrder → Option ReachDirection
  | outDegreeDesc => some .outgoing
  | inDegreeDesc => some .incoming
  | _ => none

/-- The degree by which a row is ordered, for a way of counting; zero for an order by columns. -/
def GraphOrder.degree (order : GraphOrder) (count : ReachDirection → ℕ → ℕ) (r : SearchGraphRow) : ℕ :=
  match order.direction with
  | some d => count d r.id
  | none => 0

/-- The columns by which rows of one degree are ordered: one or two texts, a line and the id, of which an
order uses some. -/
def GraphOrder.columns (order : GraphOrder) (r : SearchGraphRow) : String ×ₗ String ×ₗ ℤ ×ₗ ℕ :=
  let key (text text' : String) (line : ℤ) : String ×ₗ String ×ₗ ℤ ×ₗ ℕ :=
    toLex (text, toLex (text', toLex (line, r.id)))
  match order with
  | name => key r.name r.qualifiedName 0
  | file => key r.filePath "" r.startLine
  | qualifiedName | outDegreeDesc | inDegreeDesc => key r.qualifiedName "" 0

namespace GraphQuery

/-- The rows that pass the filters, as they are stored. -/
def selected (q : GraphQuery) (g : Graph) : List SearchGraphRow :=
  (g.nodes.rows.filter fun n => (appendGraphFilters q).passes g n).map Node.searchRow

def searchGraph (q : GraphQuery) (g : Graph) : List SearchGraphRow :=
  if q.orderBy.direction.isSome then
    let rows := Ranking.ranked GraphOrder.qualifiedName.columns (q.selected g)
    let degree := q.orderBy.degree fun d id =>
      (g.edgesFrom d id q.orderEdgeType maxReachResults).length
    (Ranking.ranked (Ranking.byDegree GraphOrder.qualifiedName.columns degree) rows).take q.limit.toNat
  else
    Graph.sqlLimit q.limit.toNat (Ranking.ranked q.orderBy.columns (q.selected g))

def countSearchGraph (q : GraphQuery) (g : Graph) : ℕ := (q.selected g).length

/-! ### What a query asks for -/

/-- What the filters mean, for a meaning of "contains" and "starts with". -/
structure Meets (q : GraphQuery) (g : Graph) (contains startsWith : String → String → Prop) (n : Node) :
    Prop where
  project : ∀ p ∈ q.project, n.project = p
  label : ∀ l ∈ q.label, n.label = l
  name : ∀ s ∈ q.name, n.name = s
  qnameContains : ∀ s ∈ q.qnameContains, contains s n.qualifiedName
  qnameExact : ∀ s ∈ q.qnameExact, n.qualifiedName = s
  filePathContains : ∀ s ∈ q.filePathContains, contains s n.filePath
  nameContains : ∀ s ∈ q.nameContains, contains s n.name
  namePrefix : ∀ s ∈ q.namePrefix, startsWith s n.name
  filePathPrefix : ∀ s ∈ q.filePathPrefix, startsWith s n.filePath
  filePathExact : ∀ s ∈ q.filePathExact, n.filePath = s
  hasOutgoingEdge : ∀ t ∈ q.hasOutgoingEdge, ∃ e ∈ g.edges.rows, e.sourceId = n.id ∧ e.edgeType = t
  hasIncomingEdge : ∀ t ∈ q.hasIncomingEdge, ∃ e ∈ g.edges.rows, e.targetId = n.id ∧ e.edgeType = t

def MeetsLiterally (q : GraphQuery) (g : Graph) (n : Node) : Prop :=
  q.Meets g (fun s text => s.toList <:+: text.toList) (fun s text => s.toList <+: text.toList) n

/-- The filters are met when upper and lower case of ASCII letters are not told apart in substrings and
prefixes. -/
def MeetsUpToCase (q : GraphQuery) (g : Graph) (n : Node) : Prop :=
  q.Meets g (fun s text => SqlLike.fold s.toList <:+: SqlLike.fold text.toList)
    (fun s text => SqlLike.fold s.toList <+: SqlLike.fold text.toList) n

open Classical in
/-- The rows asked for. -/
noncomputable def wanted (q : GraphQuery) (g : Graph) : List SearchGraphRow :=
  (g.nodes.rows.filter fun n => decide (q.MeetsLiterally g n)).map Node.searchRow

/-- The rows asked for, in the order of the query. -/
noncomputable def inOrder (q : GraphQuery) (g : Graph) : List SearchGraphRow :=
  Ranking.ranked (Ranking.byDegree q.orderBy.columns
    (q.orderBy.degree (edgeCount g q.orderEdgeType))) (q.wanted g)

end GraphQuery

/-- The search finds what is asked for, in its order and up to the limit, and counts it. -/
structure SearchExact (q : GraphQuery) (g : Graph) : Prop where
  rows : q.searchGraph g = (q.inOrder g).take q.limit.toNat
  count : q.countSearchGraph g = (q.wanted g).length

/-! ### The clauses -/

section Clauses

variable {g : Graph} {q : GraphQuery} {n : Node}

theorem likeEscape_eq (s : List Char) : likeEscape s = SqlLike.quote s := by
  have hfold : ∀ out : List Char, s.foldl (fun out ch =>
      match ch with
      | '\\' | '%' | '_' => out ++ ['\\'] ++ [ch]
      | _ => out ++ [ch]) out = out ++ SqlLike.quote s := by
    induction s with
    | nil => simp [SqlLike.quote]
    | cons c s ih =>
      intro out
      rw [List.foldl_cons, ih, SqlLike.quote_cons]
      split <;> simp_all [SqlLike.isSpecial]
  exact hfold []

theorem like_containsPattern (s text : String) :
    SqlLike.like (containsPattern s).toList text.toList = true ↔
      SqlLike.fold s.toList <:+: SqlLike.fold text.toList := by
  rw [containsPattern, String.toList_ofList, likeEscape_eq, SqlLike.like_contains]

theorem like_prefixPattern (s text : String) :
    SqlLike.like (prefixPattern s).toList text.toList = true ↔
      SqlLike.fold s.toList <+: SqlLike.fold text.toList := by
  rw [prefixPattern, String.toList_ofList, likeEscape_eq, SqlLike.like_startsWith]

def GraphSql.Balanced (sql : GraphSql) : Prop := sql.1.length = sql.2.length

theorem GraphSql.Balanced.push {sql : GraphSql} (h : sql.Balanced) (clause : GraphClause)
    (bind : Option String) : (sql.push clause bind).Balanced := by
  cases bind with
  | none => exact h
  | some b =>
    have hlen : sql.1.length = sql.2.length := h
    simp [GraphSql.Balanced, GraphSql.push, hlen]

theorem GraphSql.passes_push {sql : GraphSql} (h : sql.Balanced) (clause : GraphClause)
    (bind : Option String) : (sql.push clause bind).passes g n =
      (sql.passes g n && bind.all fun b => clause.holds g n b) := by
  cases bind with
  | none => simp [GraphSql.push]
  | some b =>
    have hlen : sql.1.length = sql.2.length := h
    rw [GraphSql.passes, GraphSql.push, List.zip_append hlen, List.all_append]
    simp [GraphSql.passes]

def GraphQuery.filters (q : GraphQuery) : List (GraphClause × Option String) :=
  [(.projectIs, q.project), (.labelIs, q.label), (.nameIs, q.name),
    (.qualifiedNameLike, q.qnameContains.map containsPattern), (.qualifiedNameIs, q.qnameExact),
    (.filePathLike, q.filePathContains.map containsPattern), (.nameLike, q.nameContains.map containsPattern),
    (.nameLike, q.namePrefix.map prefixPattern), (.filePathLike, q.filePathPrefix.map prefixPattern),
    (.filePathIs, q.filePathExact), (.outgoingEdgeExists, q.hasOutgoingEdge),
    (.incomingEdgeExists, q.hasIncomingEdge)]

theorem passes_foldl_push (filters : List (GraphClause × Option String)) (sql : GraphSql)
    (h : sql.Balanced) : (filters.foldl (fun sql f => sql.push f.1 f.2) sql).passes g n =
      (sql.passes g n && filters.all fun f => f.2.all fun b => f.1.holds g n b) := by
  induction filters generalizing sql with
  | nil => simp
  | cons f filters ih =>
    rw [List.foldl_cons, ih _ (h.push f.1 f.2), GraphSql.passes_push h, List.all_cons, Bool.and_assoc]

theorem passes_appendGraphFilters : (appendGraphFilters q).passes g n = true ↔
    ∀ f ∈ q.filters, ∀ b ∈ f.2, f.1.holds g n b = true := by
  have hfold : appendGraphFilters q =
      q.filters.foldl (fun (sql : GraphSql) f => sql.push f.1 f.2) ([], []) := rfl
  rw [hfold, passes_foldl_push q.filters ([], []) rfl, Bool.and_eq_true]
  simp [GraphSql.passes, List.all_eq_true, Option.all_eq_true]

/-- **The clauses say what the filters mean**, but for case. -/
theorem passes_iff : (appendGraphFilters q).passes g n = true ↔ q.MeetsUpToCase g n := by
  rw [passes_appendGraphFilters]
  simp only [GraphQuery.filters, List.forall_mem_cons, Option.mem_map, forall_exists_index, and_imp,
    forall_apply_eq_imp_iff₂, GraphClause.holds, like_containsPattern, like_prefixPattern,
    decide_eq_true_eq, List.any_eq_true]
  constructor
  · rintro ⟨h₁, h₂, h₃, h₄, h₅, h₆, h₇, h₈, h₉, h₁₀, h₁₁, h₁₂, -⟩
    exact ⟨h₁, h₂, h₃, h₄, h₅, h₆, h₇, h₈, h₉, h₁₀, h₁₁, h₁₂⟩
  · rintro ⟨h₁, h₂, h₃, h₄, h₅, h₆, h₇, h₈, h₉, h₁₀, h₁₁, h₁₂⟩
    refine ⟨h₁, h₂, h₃, h₄, h₅, h₆, h₇, h₈, h₉, h₁₀, h₁₁, h₁₂, ?_⟩
    simp

theorem GraphQuery.MeetsLiterally.upToCase (h : q.MeetsLiterally g n) : q.MeetsUpToCase g n where
  project := h.project
  label := h.label
  name := h.name
  qnameContains := fun s hs => (h.qnameContains s hs).map Char.toLower
  qnameExact := h.qnameExact
  filePathContains := fun s hs => (h.filePathContains s hs).map Char.toLower
  nameContains := fun s hs => (h.nameContains s hs).map Char.toLower
  namePrefix := fun s hs => (h.namePrefix s hs).map Char.toLower
  filePathPrefix := fun s hs => (h.filePathPrefix s hs).map Char.toLower
  filePathExact := h.filePathExact
  hasOutgoingEdge := h.hasOutgoingEdge
  hasIncomingEdge := h.hasIncomingEdge

end Clauses

/-! ### Exactness -/

section Exact

variable {g : Graph} {q : GraphQuery}

theorem wanted_sublist (q : GraphQuery) (g : Graph) : (q.wanted g).Sublist (q.selected g) := by
  refine List.Sublist.map Node.searchRow (List.monotone_filter_right _ fun n hn => ?_)
  have hmeets : q.MeetsLiterally g n := by simpa using hn
  exact passes_iff.2 hmeets.upToCase

/-- As many rows are selected as are asked for when the case of letters makes no difference. -/
theorem length_selected_eq_iff : (q.selected g).length = (q.wanted g).length ↔
    ∀ n ∈ g.nodes.rows, q.MeetsUpToCase g n → q.MeetsLiterally g n := by
  have hlength : ∀ p : Node → Bool, ((g.nodes.rows.filter p).map Node.searchRow).length =
      g.nodes.rows.countP p := fun p => by rw [List.length_map, List.countP_eq_length_filter]
  rw [GraphQuery.selected, GraphQuery.wanted, hlength, hlength, eq_comm, countP_eq_countP_iff]
  · simp only [decide_eq_true_eq, passes_iff]
  · intro n _ hn
    have hmeets : q.MeetsLiterally g n := by simpa using hn
    exact passes_iff.2 hmeets.upToCase

theorem nodup_columns (order : GraphOrder) (p : Node → Bool) :
    (((g.nodes.rows.filter p).map Node.searchRow).map order.columns).Nodup := by
  have hids : (((g.nodes.rows.filter p).map Node.searchRow).map order.columns).map
      (fun k => (ofLex (ofLex (ofLex k).2).2).2) = (g.nodes.rows.filter p).map Node.id := by
    rw [List.map_map, List.map_map]
    refine List.map_congr_left fun n _ => ?_
    cases order <;> rfl
  refine List.Nodup.of_map (fun k => (ofLex (ofLex (ofLex k).2).2).2) (hids ▸ ?_)
  exact (List.filter_sublist.map _).nodup g.ids_nodup

/-- A limit that does not fit the integers of the database is none. -/
theorem sqlLimit_eq_take_iff {α : Type} (limit : UInt64) (rows : List α) :
    Graph.sqlLimit limit.toNat rows = rows.take limit.toNat ↔
      limit.toNat < 2 ^ 63 ∨ rows.length ≤ limit.toNat := by
  have hmod : limit.toNat % 2 ^ 64 = limit.toNat := Nat.mod_eq_of_lt limit.toNat_lt
  rw [Graph.sqlLimit, hmod]
  split_ifs with hlt
  · exact iff_of_true rfl (.inl hlt)
  · rw [eq_comm, List.take_eq_self_iff]
    exact (or_iff_right hlt).symm

theorem nodup_columns_wanted : ((q.wanted g).map q.orderBy.columns).Nodup := nodup_columns _ _

theorem searchGraph_eq_iff_of_columns (h : q.selected g = q.wanted g) (hd : q.orderBy.direction = none) :
    q.searchGraph g = (q.inOrder g).take q.limit.toNat ↔
      q.limit.toNat < 2 ^ 63 ∨ (q.wanted g).length ≤ q.limit.toNat := by
  have hzero : ∀ a b, q.orderBy.degree (edgeCount g q.orderEdgeType) a =
      q.orderBy.degree (edgeCount g q.orderEdgeType) b := by
    intro a b
    rw [GraphOrder.degree, GraphOrder.degree, hd]
  rw [GraphQuery.searchGraph, hd, if_neg (by simp), h, GraphQuery.inOrder,
    Ranking.ranked_byDegree_of_forall_eq hzero, sqlLimit_eq_take_iff,
    Ranking.length_ranked]

/-- An order by degree is right when the first rows keep their places. -/
theorem searchGraph_eq_iff_of_degree (h : q.selected g = q.wanted g) {d : ReachDirection}
    (hd : q.orderBy.direction = some d) : q.searchGraph g = (q.inOrder g).take q.limit.toNat ↔
      ∀ a ∈ (q.inOrder g).take q.limit.toNat, ∀ b ∈ q.wanted g,
        10000 ≤ q.orderBy.degree (edgeCount g q.orderEdgeType) b →
          q.orderBy.degree (edgeCount g q.orderEdgeType) b <
            q.orderBy.degree (edgeCount g q.orderEdgeType) a →
          q.orderBy.columns a < q.orderBy.columns b := by
  have hcolumns : GraphOrder.qualifiedName.columns = q.orderBy.columns := by
    cases horder : q.orderBy with
    | qualifiedName => rfl
    | outDegreeDesc => rfl
    | inDegreeDesc => rfl
    | name => rw [horder] at hd; cases hd
    | file => rw [horder] at hd; cases hd
  have hdegree : (q.orderBy.degree fun d id => (g.edgesFrom d id q.orderEdgeType maxReachResults).length) =
      fun r => min 10000 (q.orderBy.degree (edgeCount g q.orderEdgeType) r) := by
    funext r
    simp only [GraphOrder.degree, hd, length_edgesFrom]
  rw [GraphQuery.searchGraph, hd, Option.isSome_some, if_pos rfl, h]
  simp only [hcolumns, hdegree]
  rw [← Ranking.ranked_eq_of_perm (Ranking.nodup_byDegree nodup_columns_wanted)
    (Ranking.perm_ranked _ _).symm, GraphQuery.inOrder,
    Ranking.take_byDegree_min_eq_iff nodup_columns_wanted]

/-- **When the search is exact**: when no row meets the filters but for the case of letters only, when the
limit of an order by columns is one or leaves room for every row, and when of any two rows with at least as
many edges as are fetched, the one with more edges comes first by its columns too, if it is among the first
rows up to the limit. -/
theorem searchExact_iff (q : GraphQuery) (g : Graph) : SearchExact q g ↔
    (∀ n ∈ g.nodes.rows, q.MeetsUpToCase g n → q.MeetsLiterally g n) ∧
    (q.orderBy.direction = none → q.limit.toNat < 2 ^ 63 ∨ (q.wanted g).length ≤ q.limit.toNat) ∧
    ∀ a ∈ (q.inOrder g).take q.limit.toNat, ∀ b ∈ q.wanted g,
      10000 ≤ q.orderBy.degree (edgeCount g q.orderEdgeType) b →
        q.orderBy.degree (edgeCount g q.orderEdgeType) b <
          q.orderBy.degree (edgeCount g q.orderEdgeType) a →
        q.orderBy.columns a < q.orderBy.columns b := by
  rw [← length_selected_eq_iff]
  constructor
  · rintro ⟨hrows, hcount⟩
    have h : q.selected g = q.wanted g := ((wanted_sublist q g).eq_of_length hcount.symm).symm
    refine ⟨hcount, fun hd => (searchGraph_eq_iff_of_columns h hd).1 hrows, ?_⟩
    cases hd : q.orderBy.direction with
    | some d => exact (searchGraph_eq_iff_of_degree h hd).1 hrows
    | none =>
      intro a _ b _ hcap
      rw [GraphOrder.degree, hd] at hcap
      cases hcap
  · rintro ⟨hcount, hlimit, hdegree⟩
    have h : q.selected g = q.wanted g := ((wanted_sublist q g).eq_of_length hcount.symm).symm
    refine ⟨?_, hcount⟩
    cases hd : q.orderBy.direction with
    | some d => exact (searchGraph_eq_iff_of_degree h hd).2 hdegree
    | none => exact (searchGraph_eq_iff_of_columns h hd).2 (hlimit hd)

end Exact

def capitalName : Graph := functionGraph ["Parse"] []

/-- The search for a part of its name in small letters finds it. -/
theorem search_ignores_case : ¬ SearchExact { nameContains := some "parse" } capitalName := by
  intro h
  have hone : ∀ n ∈ capitalName.nodes.rows,
      (appendGraphFilters { nameContains := some "parse" }).passes capitalName n = true ∧
        ¬ "parse".toList <:+: n.name.toList := by decide +kernel
  obtain ⟨n, hn⟩ : ∃ n, n ∈ capitalName.nodes.rows :=
    List.exists_mem_of_length_pos (by decide +kernel)
  obtain ⟨hpasses, hname⟩ := hone n hn
  exact hname ((length_selected_eq_iff.1 h.count n hn (passes_iff.1 hpasses)).nameContains "parse" rfl)

/-! ### Plain searches -/

/-- `search_graph` for a project and a label, in the order of the names. -/
theorem searchGraph_of_label (g : Graph) (project label : Option String) (limit : UInt64) :
    ({ project := project, label := label, limit := limit } : GraphQuery).searchGraph g =
      Graph.sqlLimit limit.toNat (Ranking.ranked SearchGraphRow.qnameKey
        ((projectRows g project).filter fun r => label.all fun l => decide (r.label = l))) := by
  have hselected : ({ project := project, label := label, limit := limit } : GraphQuery).selected g =
      (projectRows g project).filter fun r => label.all fun l => decide (r.label = l) := by
    rw [GraphQuery.selected, projectRows, List.filter_map, List.filter_filter]
    refine congrArg (List.map Node.searchRow) (List.filter_congr fun n _ => ?_)
    have hlabel : (label.all fun l => decide (n.searchRow.label = l)) = true ↔
        ∀ l ∈ label, n.label = l := by
      rw [Option.all_eq_true]
      exact forall₂_congr fun l _ => decide_eq_true_iff
    rw [Bool.eq_iff_iff, passes_appendGraphFilters, Bool.and_eq_true, Function.comp_apply, hlabel]
    cases project <;> simp [GraphQuery.filters, GraphClause.holds, and_comm]
  have hkeys : ∀ rows, Ranking.ranked GraphOrder.qualifiedName.columns rows =
      Ranking.ranked SearchGraphRow.qnameKey rows :=
    Ranking.ranked_congr fun a b => by
      simp [GraphOrder.columns, SearchGraphRow.qnameKey, Prod.Lex.toLex_le_toLex]
  have hplain : ({ project := project, label := label, limit := limit } : GraphQuery).orderBy =
      .qualifiedName := rfl
  have hcolumns : ¬ (GraphOrder.direction .qualifiedName).isSome := by decide
  rw [GraphQuery.searchGraph, hplain, if_neg hcolumns, hselected, hkeys]

end Greppy
