/-
**Symbol queries.**

A command takes a symbol as it is typed: a plain name, or an owner and a member with `.` or `::` between
them.  The nodes of that name are fetched from the store; when there are none, a spelling that differs in
case is taken if it is the only one.  From these rows one resolver takes a set of nodes and another a single
node.
-/

import Greppy.GraphSearch

set_option autoImplicit false

namespace Greppy

/-! ### Labels -/

def labelRank (label : String) : ℕ :=
  if ["Class", "Interface", "Type", "Struct", "Enum", "Trait", "Function", "Method", "TypeAlias"].contains label
  then 0
  else if ["Impl", "EnumVariant", "AssocConst", "AssocType", "Module"].contains label then 1
  else if ["Call", "Import"].contains label then 3
  else 2

def isPrimaryLabel (label : String) : Bool := decide (labelRank label ≤ 1)

/-! ### Owners and members -/

/-- The texts before and behind the last occurrence of a pattern, which `rfind` finds. -/
def rsplitAt (pattern : List Char) : List Char → Option (List Char × List Char)
  | [] => none
  | c :: s =>
    match rsplitAt pattern s with
    | some (before, behind) => some (c :: before, behind)
    | none => if pattern <+: c :: s then some ([], (c :: s).drop pattern.length) else none

/-- `rsplit(pattern).next()`. -/
def lastPiece (pattern s : List Char) : List Char := ((rsplitAt pattern s).map Prod.snd).getD s

/-- The later of the last `::` and the last `.`. -/
def lastSeparator (symbol : List Char) : Option (List Char × List Char) :=
  match rsplitAt [':', ':'] symbol, rsplitAt ['.'] symbol with
  | some c, some d => if d.1.length ≤ c.1.length then some c else some d
  | some c, none => some c
  | none, some d => some d
  | none, none => none

def splitQualified (symbol : List Char) : Option (List Char × List Char) :=
  match lastSeparator symbol with
  | some (owner, member) => if owner = [] ∨ member = [] then none else some (owner, member)
  | none => none

def qnameOwnerSegment (qualifiedName : List Char) : Option (List Char) :=
  (rsplitAt [':', ':'] qualifiedName).map fun split => lastPiece [':', ':'] split.1

/-- `owner_tail`: the last segment of the owner of a query. -/
def ownerTail (owner : List Char) : List Char := lastPiece ['.'] (lastPiece [':', ':'] owner)

/-! ### Rows -/

def eqIgnoreAsciiCase (a b : String) : Bool := decide (SqlLike.fold a.toList = SqlLike.fold b.toList)

/-- `list_projects`, the names. -/
def listProjects (g : Graph) : List String := Ranking.ranked id (g.projects.rows.map Project.name)

/-- `replace(c, "\\c")`. -/
def escapeChar (c : Char) (s : List Char) : List Char := s.flatMap fun x => if x = c then ['\\', c] else [x]

/-- `escaped` of `similar_node_names`. -/
def escapeFragment (s : List Char) : List Char := escapeChar '_' (escapeChar '%' (escapeChar '\\' s))

/-- The order of the suggestions: the length, then the name. -/
def lengthKey (name : String) : ℕ ×ₗ String := toLex (name.toList.length, name)

def similarNodeNames (g : Graph) (project fragment : String) (limit : ℕ) : List String :=
  let matching := g.nodes.rows.filter fun n =>
    decide (n.project = project) &&
      SqlLike.like ('%' :: (escapeFragment fragment.toList ++ ['%'])) n.name.toList
  Graph.sqlLimit limit (Ranking.ranked lengthKey (matching.map fun n => n.name).dedup)

/-- `search_graph` for one node of an exact qualified name. -/
def searchByQualifiedName (g : Graph) (qualifiedName : String) : List SearchGraphRow :=
  ({ qnameExact := some qualifiedName, limit := 1 } : GraphQuery).searchGraph g

/-- `search_graph` for an exact name. -/
def searchByName (g : Graph) (name : String) : List SearchGraphRow :=
  ({ name := some name, limit := 10000 } : GraphQuery).searchGraph g

def lookupName (s : String) : String := ((splitQualified s.toList).map fun q => String.ofList q.2).getD s

def symbolCandidateRows (g : Graph) (symbol : Option String) : List SearchGraphRow :=
  let rows := match symbol with
    | some s => searchByName g (lookupName s)
    | none => ({ limit := 1 } : GraphQuery).searchGraph g
  if rows ≠ [] then rows
  else
    match symbol with
    | none => rows
    | some s =>
      match (listProjects g).head? with
      | none => rows
      | some project =>
        match (similarNodeNames g project (lookupName s) 10).filter fun n => eqIgnoreAsciiCase n (lookupName s) with
        | [name] => searchByName g name
        | _ => rows

/-- The row passes the filter of `resolve_qualified_ids`. -/
def fitsOwner (owner member : List Char) (r : SearchGraphRow) : Bool :=
  decide (r.name.toList = member) && isPrimaryLabel r.label &&
    decide (qnameOwnerSegment r.qualifiedName.toList = some (ownerTail owner))

def resolveQualifiedIds (rows : List SearchGraphRow) (symbol : String) : Option (List ℕ) :=
  (splitQualified symbol.toList).map fun q =>
    (((rows.filter (fitsOwner q.1 q.2)).map SearchGraphRow.id).insertionSort (· ≤ ·)).dedup

/-- The order of the candidates: the rank of the label, then the id. -/
def rankKey (r : SearchGraphRow) : ℕ ×ₗ ℕ := toLex (labelRank r.label, r.id)

/-- `min_by`, which takes the first of the least rows. -/
def bestRow (rows : List SearchGraphRow) : Option SearchGraphRow := rows.argmin rankKey

def resolveSymbolId (g : Graph) (symbol : Option String) : Option ℕ :=
  let rows := symbolCandidateRows g symbol
  match symbol with
  | some s =>
    if (splitQualified s.toList).isSome then
      (resolveQualifiedIds rows s).bind fun ids =>
        (bestRow (rows.filter fun r => ids.contains r.id)).map SearchGraphRow.id
    else
      match bestRow (rows.filter fun r => eqIgnoreAsciiCase r.name s) with
      | some best => some best.id
      | none => (searchByQualifiedName g s).head?.map SearchGraphRow.id
  | none => rows.head?.map SearchGraphRow.id

def resolveSymbolNodes (g : Graph) (symbol : Option String) : List ℕ :=
  match symbol with
  | none => (resolveSymbolId g none).toList
  | some s =>
    let rows := symbolCandidateRows g (some s)
    match resolveQualifiedIds rows s with
    | some ids => ids
    | none =>
      let ids := (((rows.filter fun r => eqIgnoreAsciiCase r.name s && isPrimaryLabel r.label).map
        SearchGraphRow.id).insertionSort (· ≤ ·)).dedup
      if ids = [] then (resolveSymbolId g (some s)).toList else ids

/-! ### The rows of a name -/

section Rows

variable {g : Graph}

theorem escapeFragment_eq (s : List Char) : escapeFragment s = SqlLike.quote s := by
  induction s with
  | nil => rfl
  | cons c s ih =>
    have happend (x : Char) (a b : List Char) : escapeChar x (a ++ b) = escapeChar x a ++ escapeChar x b :=
      List.flatMap_append
    have hcons : c :: s = [c] ++ s := rfl
    rw [SqlLike.quote_cons, ← ih, escapeFragment, escapeFragment, hcons, happend, happend, happend]
    refine congrArg (· ++ _) ?_
    by_cases hescape : c = '\\'
    · subst hescape
      rfl
    · by_cases hpercent : c = '%'
      · subst hpercent
        rfl
      · by_cases hunderscore : c = '_'
        · subst hunderscore
          rfl
        · simp [escapeChar, SqlLike.isSpecial, hescape, hpercent, hunderscore]

theorem selected_name (g : Graph) (name : String) (limit : UInt64) :
    ({ name := some name, limit := limit } : GraphQuery).selected g =
      (g.nodes.rows.filter fun n => decide (n.name = name)).map Node.searchRow := by
  refine congrArg (List.map Node.searchRow) (List.filter_congr fun n _ => ?_)
  rw [Bool.eq_iff_iff, passes_appendGraphFilters]
  simp [GraphQuery.filters, GraphClause.holds]

theorem selected_qualifiedName (g : Graph) (qualifiedName : String) (limit : UInt64) :
    ({ qnameExact := some qualifiedName, limit := limit } : GraphQuery).selected g =
      (g.nodes.rows.filter fun n => decide (n.qualifiedName = qualifiedName)).map Node.searchRow := by
  refine congrArg (List.map Node.searchRow) (List.filter_congr fun n _ => ?_)
  rw [Bool.eq_iff_iff, passes_appendGraphFilters]
  simp [GraphQuery.filters, GraphClause.holds]

theorem searchByName_eq (g : Graph) (name : String) : searchByName g name =
    (Ranking.ranked GraphOrder.qualifiedName.columns
      ((g.nodes.rows.filter fun n => decide (n.name = name)).map Node.searchRow)).take 10000 := by
  have hcolumns : ¬ (GraphOrder.direction .qualifiedName).isSome := by decide
  rw [searchByName, GraphQuery.searchGraph, if_neg hcolumns, selected_name]
  exact Graph.sqlLimit_eq_take (show 10000 < 2 ^ 63 by decide) _

theorem searchByQualifiedName_eq (g : Graph) (qualifiedName : String) : searchByQualifiedName g qualifiedName =
    (Ranking.ranked GraphOrder.qualifiedName.columns
      ((g.nodes.rows.filter fun n => decide (n.qualifiedName = qualifiedName)).map Node.searchRow)).take 1 := by
  have hcolumns : ¬ (GraphOrder.direction .qualifiedName).isSome := by decide
  rw [searchByQualifiedName, GraphQuery.searchGraph, if_neg hcolumns, selected_qualifiedName]
  exact Graph.sqlLimit_eq_take (show 1 < 2 ^ 63 by decide) _

variable {r : SearchGraphRow} {name : String}

theorem head?_searchByQualifiedName {qualifiedName : String}
    (h : (searchByQualifiedName g qualifiedName).head? = some r) :
    ∃ n ∈ g.nodes.rows, n.qualifiedName = qualifiedName ∧ n.searchRow = r := by
  have hmem := List.mem_of_mem_head? h
  rw [searchByQualifiedName_eq] at hmem
  obtain ⟨n, hn, rfl⟩ := List.mem_map.1 ((Ranking.mem_ranked _ _).1 (List.mem_of_mem_take hmem))
  obtain ⟨hn, hname⟩ := List.mem_filter.1 hn
  exact ⟨n, hn, by simpa using hname, rfl⟩

theorem searchByQualifiedName_eq_nil_iff {qualifiedName : String} :
    searchByQualifiedName g qualifiedName = [] ↔ ∀ n ∈ g.nodes.rows, n.qualifiedName ≠ qualifiedName := by
  rw [searchByQualifiedName_eq, List.take_eq_nil_iff, or_iff_right (by decide), ← List.length_eq_zero_iff,
    Ranking.length_ranked, List.length_map, List.length_eq_zero_iff, List.filter_eq_nil_iff]
  exact forall₂_congr fun n _ => by rw [decide_eq_true_eq]

/-- A node of the name with fewer than 10000 others of that name before it, by qualified name and id. -/
structure NameFetched (g : Graph) (name : String) (n : Node) : Prop where
  mem : n ∈ g.nodes.rows
  named : n.name = name
  ahead : g.nodes.rows.countP (fun m => decide (m.name = name ∧
    toLex (m.qualifiedName, m.id) < toLex (n.qualifiedName, n.id))) < 10000

/-- **The rows of a name.** -/
theorem mem_searchByName :
    r ∈ searchByName g name ↔ ∃ n, NameFetched g name n ∧ n.searchRow = r := by
  have hahead (n : Node) : Ranking.ahead GraphOrder.qualifiedName.columns
      ((g.nodes.rows.filter fun m => decide (m.name = name)).map Node.searchRow) n.searchRow =
      g.nodes.rows.countP fun m => decide (m.name = name ∧
        toLex (m.qualifiedName, m.id) < toLex (n.qualifiedName, n.id)) := by
    rw [Ranking.ahead, List.countP_map, List.countP_filter]
    refine List.countP_congr fun m _ => ?_
    have hkey : GraphOrder.qualifiedName.columns m.searchRow < GraphOrder.qualifiedName.columns n.searchRow ↔
        toLex (m.qualifiedName, m.id) < toLex (n.qualifiedName, n.id) := by
      simp only [GraphOrder.columns, Node.searchRow, Prod.Lex.toLex_lt_toLex, lt_irrefl, true_and, false_or]
    rw [Function.comp_apply, Bool.and_eq_true, decide_eq_true_eq, decide_eq_true_eq, decide_eq_true_eq, hkey,
      and_comm]
  rw [searchByName_eq, Ranking.mem_take_ranked (nodup_columns .qualifiedName _), List.mem_map]
  constructor
  · rintro ⟨⟨n, hn, rfl⟩, hlt⟩
    rw [List.mem_filter, decide_eq_true_eq] at hn
    exact ⟨n, ⟨hn.1, hn.2, hahead n ▸ hlt⟩, rfl⟩
  · rintro ⟨n, hn, rfl⟩
    exact ⟨⟨n, List.mem_filter.2 ⟨hn.mem, decide_eq_true hn.named⟩, rfl⟩, (hahead n).symm ▸ hn.ahead⟩

theorem fetched_iff_of_cap
    (hcap : (g.nodes.rows.filter fun n => decide (n.name = name)).length ≤ 10000) {n : Node} :
    NameFetched g name n ↔ n ∈ g.nodes.rows ∧ n.name = name := by
  refine ⟨fun h => ⟨h.mem, h.named⟩, fun h => ⟨h.1, h.2, ?_⟩⟩
  rw [← List.countP_eq_length_filter] at hcap
  have himp : ∀ m : Node, decide (m.name = name ∧
      toLex (m.qualifiedName, m.id) < toLex (n.qualifiedName, n.id)) = true → decide (m.name = name) = true :=
    fun m hm => decide_eq_true (of_decide_eq_true hm).1
  refine lt_of_lt_of_le (lt_of_le_of_ne (List.countP_mono_left fun m _ => himp m) fun heq => ?_) hcap
  -- the node itself is not before itself
  have hself := (countP_eq_countP_iff fun m _ => himp m).1 heq n h.1 (decide_eq_true h.2)
  exact lt_irrefl _ (of_decide_eq_true hself).2

theorem mem_searchByName_of_cap
    (hcap : (g.nodes.rows.filter fun n => decide (n.name = name)).length ≤ 10000) :
    r ∈ searchByName g name ↔ ∃ n ∈ g.nodes.rows, n.name = name ∧ n.searchRow = r := by
  rw [mem_searchByName]
  exact exists_congr fun n => by rw [fetched_iff_of_cap hcap, and_assoc]

theorem searchByName_eq_nil_iff : searchByName g name = [] ↔ ∀ n ∈ g.nodes.rows, n.name ≠ name := by
  rw [searchByName_eq, List.take_eq_nil_iff, or_iff_right (by decide), ← List.length_eq_zero_iff,
    Ranking.length_ranked, List.length_map, List.length_eq_zero_iff, List.filter_eq_nil_iff]
  exact forall₂_congr fun n _ => by rw [decide_eq_true_eq]

end Rows

/-! ### Spellings -/

section Spellings

variable {g : Graph}

/-- Where the elements of a kind come first, cutting and picking them is picking and cutting. -/
theorem filter_take_of_first {α : Type} {p : α → Bool} {l : List α}
    (h : l.Pairwise fun a b => p b = true → p a = true) (n : ℕ) : (l.take n).filter p = (l.filter p).take n := by
  induction l generalizing n with
  | nil => simp
  | cons a l ih =>
    rw [List.pairwise_cons] at h
    cases n with
    | zero => simp
    | succ n =>
      by_cases ha : p a = true
      · rw [List.take_succ_cons, List.filter_cons_of_pos ha, List.filter_cons_of_pos ha, ih h.2,
          List.take_succ_cons]
      · have hnone : l.filter p = [] := List.filter_eq_nil_iff.2 fun b hb hpb => ha (h.1 b hb hpb)
        rw [List.take_succ_cons, List.filter_cons_of_neg ha, List.filter_cons_of_neg ha, ih h.2, hnone]
        simp

/-- `t` is the only spelling of `s` among the names of the project. -/
structure OnlySpelling (g : Graph) (project s t : String) : Prop where
  occurs : ∃ n ∈ g.nodes.rows, n.project = project ∧ n.name = t
  same : SqlLike.fold t.toList = SqlLike.fold s.toList
  only : ∀ n ∈ g.nodes.rows, n.project = project → SqlLike.fold n.name.toList = SqlLike.fold s.toList →
    n.name = t

theorem eqIgnoreAsciiCase_iff {a b : String} :
    eqIgnoreAsciiCase a b = true ↔ SqlLike.fold a.toList = SqlLike.fold b.toList := decide_eq_true_iff

/-- The names that contain a fragment, the case of letters disregarded. -/
def matchingNames (g : Graph) (project fragment : String) : List String :=
  ((g.nodes.rows.filter fun n => decide (n.project = project) &&
    SqlLike.like ('%' :: (escapeFragment fragment.toList ++ ['%'])) n.name.toList).map fun n => n.name).dedup

theorem mem_matchingNames {project fragment name : String} : name ∈ matchingNames g project fragment ↔
    (∃ n ∈ g.nodes.rows, n.project = project ∧ n.name = name) ∧
      SqlLike.fold fragment.toList <:+: SqlLike.fold name.toList := by
  rw [matchingNames, List.mem_dedup, List.mem_map]
  constructor
  · rintro ⟨n, hn, rfl⟩
    rw [List.mem_filter, Bool.and_eq_true, decide_eq_true_eq, escapeFragment_eq, SqlLike.like_contains] at hn
    exact ⟨⟨n, hn.1, hn.2.1, rfl⟩, hn.2.2⟩
  · rintro ⟨⟨n, hn, hproject, rfl⟩, hcontains⟩
    refine ⟨n, ?_, rfl⟩
    rw [List.mem_filter, Bool.and_eq_true, decide_eq_true_eq, escapeFragment_eq, SqlLike.like_contains]
    exact ⟨hn, hproject, hcontains⟩

/-- Among the suggestions, the spellings of the fragment come first. -/
theorem spellings_first (g : Graph) (project fragment : String) :
    (Ranking.ranked lengthKey (matchingNames g project fragment)).Pairwise fun a b =>
      eqIgnoreAsciiCase b fragment = true → eqIgnoreAsciiCase a fragment = true := by
  refine List.Pairwise.imp ?_ (List.Pairwise.and_mem.1 (Ranking.pairwise_ranked lengthKey
    (matchingNames g project fragment)))
  rintro a b ⟨ha, -, hle⟩ hb
  rw [eqIgnoreAsciiCase_iff] at hb ⊢
  have hcontains := (mem_matchingNames.1 ((Ranking.mem_ranked _ _).1 ha)).2
  have hlength (l : List Char) : (SqlLike.fold l).length = l.length := List.length_map ..
  have hab : a.toList.length ≤ b.toList.length := (Prod.Lex.toLex_le_toLex.1 hle).elim le_of_lt fun h => h.1.le
  have hbf := congrArg List.length hb
  rw [hlength, hlength] at hbf
  refine (hcontains.eq_of_length_le ?_).symm
  rw [hlength, hlength]
  omega

/-- **The suggestions show one spelling exactly if there is only one.** -/
theorem exactCi_eq_singleton_iff {project s t : String} :
    (similarNodeNames g project s 10).filter (fun n => eqIgnoreAsciiCase n s) = [t] ↔
      OnlySpelling g project s t := by
  let names := Ranking.ranked lengthKey (matchingNames g project s)
  have hnames : similarNodeNames g project s 10 = names.take 10 :=
    Graph.sqlLimit_eq_take (show 10 < 2 ^ 63 by decide) _
  have hmem (x : String) : x ∈ names.filter (fun n => eqIgnoreAsciiCase n s) ↔
      (∃ n ∈ g.nodes.rows, n.project = project ∧ n.name = x) ∧
        SqlLike.fold x.toList = SqlLike.fold s.toList := by
    rw [List.mem_filter, Ranking.mem_ranked, mem_matchingNames, eqIgnoreAsciiCase_iff]
    exact ⟨fun h => ⟨h.1.1, h.2⟩, fun h => ⟨⟨h.1, h.2 ▸ List.infix_refl _⟩, h.2⟩⟩
  have hnodup : (names.filter fun n => eqIgnoreAsciiCase n s).Nodup :=
    ((Ranking.perm_ranked _ _).nodup_iff.2 (List.nodup_dedup _)).filter _
  rw [hnames, filter_take_of_first (spellings_first g project s)]
  constructor
  · intro h
    -- a cut that leaves one element has cut nothing off
    have hone : names.filter (fun n => eqIgnoreAsciiCase n s) = [t] := by
      rwa [List.take_of_length_le] at h
      by_contra hlong
      have hlength := congrArg List.length h
      rw [List.length_take] at hlength
      simp only [List.length_singleton] at hlength
      omega
    obtain ⟨hoccurs, hsame⟩ := (hmem t).1 (by rw [hone]; exact List.mem_singleton_self t)
    refine ⟨hoccurs, hsame, fun n hn hproject hfold => ?_⟩
    have hn' := (hmem n.name).2 ⟨⟨n, hn, hproject, rfl⟩, hfold⟩
    rwa [hone, List.mem_singleton] at hn'
  · intro h
    have hone : names.filter (fun n => eqIgnoreAsciiCase n s) = [t] := by
      refine List.perm_singleton.1 ((List.perm_ext_iff_of_nodup hnodup (List.nodup_singleton t)).2 fun x => ?_)
      rw [hmem, List.mem_singleton]
      constructor
      · rintro ⟨⟨n, hn, hproject, rfl⟩, hfold⟩
        exact h.only n hn hproject hfold
      · rintro rfl
        exact ⟨h.occurs, h.same⟩
    rw [hone]
    rfl

end Spellings

/-! ### The rows of a query -/

section Candidates

variable {g : Graph} {s : String}

theorem symbolCandidateRows_of_named (h : ∃ n ∈ g.nodes.rows, n.name = lookupName s) :
    symbolCandidateRows g (some s) = searchByName g (lookupName s) := by
  have hne : searchByName g (lookupName s) ≠ [] := fun hnil => by
    obtain ⟨n, hn, hname⟩ := h
    exact searchByName_eq_nil_iff.1 hnil n hn hname
  rw [symbolCandidateRows]
  exact if_pos hne

variable {project : String} {owner member : List Char}

theorem symbolCandidateRows_of_unnamed (h : ∀ n ∈ g.nodes.rows, n.name ≠ lookupName s)
    (hproject : (listProjects g).head? = some project) :
    symbolCandidateRows g (some s) =
      match (similarNodeNames g project (lookupName s) 10).filter fun n => eqIgnoreAsciiCase n (lookupName s) with
      | [name] => searchByName g name
      | _ => [] := by
  have hnil := searchByName_eq_nil_iff.2 h
  simp only [symbolCandidateRows, hnil, hproject, ne_eq, not_true_eq_false, if_false]

theorem symbolCandidateRows_of_spelling (h : ∀ n ∈ g.nodes.rows, n.name ≠ lookupName s) {t : String}
    (hproject : (listProjects g).head? = some project)
    (ht : OnlySpelling g project (lookupName s) t) :
    symbolCandidateRows g (some s) = searchByName g t := by
  rw [symbolCandidateRows_of_unnamed h hproject, exactCi_eq_singleton_iff.2 ht]

theorem symbolCandidateRows_of_ambiguous (h : ∀ n ∈ g.nodes.rows, n.name ≠ lookupName s)
    (hproject : (listProjects g).head? = some project)
    (ht : ∀ t, ¬ OnlySpelling g project (lookupName s) t) :
    symbolCandidateRows g (some s) = [] := by
  rw [symbolCandidateRows_of_unnamed h hproject]
  split
  · rename_i name hname
    exact absurd (exactCi_eq_singleton_iff.1 hname) (ht name)
  · rfl

theorem mem_symbolCandidateRows {r : SearchGraphRow} (hr : r ∈ symbolCandidateRows g (some s)) :
    ∃ n ∈ g.nodes.rows, n.searchRow = r ∧ SqlLike.fold n.name.toList = SqlLike.fold (lookupName s).toList := by
  by_cases hnamed : ∃ n ∈ g.nodes.rows, n.name = lookupName s
  · rw [symbolCandidateRows_of_named hnamed] at hr
    obtain ⟨n, hn, hrow⟩ := mem_searchByName.1 hr
    exact ⟨n, hn.mem, hrow, by rw [hn.named]⟩
  · have hunnamed : ∀ n ∈ g.nodes.rows, n.name ≠ lookupName s := fun n hn hname => hnamed ⟨n, hn, hname⟩
    cases hproject : (listProjects g).head? with
    | none =>
      simp only [symbolCandidateRows, searchByName_eq_nil_iff.2 hunnamed, hproject, ne_eq, not_true_eq_false,
        if_false, List.not_mem_nil] at hr
    | some project =>
      by_cases hspelling : ∃ t, OnlySpelling g project (lookupName s) t
      · obtain ⟨t, ht⟩ := hspelling
        rw [symbolCandidateRows_of_spelling hunnamed hproject ht] at hr
        obtain ⟨n, hn, hrow⟩ := mem_searchByName.1 hr
        exact ⟨n, hn.mem, hrow, by rw [hn.named, ht.same]⟩
      · rw [symbolCandidateRows_of_ambiguous hunnamed hproject (not_exists.1 hspelling)] at hr
        cases hr

/-- The rows that name the member of a qualified query are those of its exact name. -/
theorem filter_fitsOwner_candidates (h : splitQualified s.toList = some (owner, member)) :
    (symbolCandidateRows g (some s)).filter (fitsOwner owner member) =
      (searchByName g (lookupName s)).filter (fitsOwner owner member) := by
  have hlookup : (lookupName s).toList = member := by
    rw [lookupName, h]
    exact String.toList_ofList
  by_cases hnamed : ∃ n ∈ g.nodes.rows, n.name = lookupName s
  · rw [symbolCandidateRows_of_named hnamed]
  · have hunnamed : ∀ n ∈ g.nodes.rows, n.name ≠ lookupName s := fun n hn hname => hnamed ⟨n, hn, hname⟩
    rw [searchByName_eq_nil_iff.2 hunnamed, List.filter_nil, List.filter_eq_nil_iff]
    intro r hr hfits
    obtain ⟨n, hn, rfl, -⟩ := mem_symbolCandidateRows hr
    rw [fitsOwner, Bool.and_eq_true, Bool.and_eq_true, decide_eq_true_eq] at hfits
    exact hunnamed n hn (String.toList_inj.1 (hfits.1.1.trans hlookup.symm))

theorem eq_of_id_eq {r r' : SearchGraphRow} (hr : r ∈ symbolCandidateRows g (some s))
    (hr' : r' ∈ symbolCandidateRows g (some s)) (h : r.id = r'.id) : r = r' := by
  obtain ⟨n, hn, rfl, -⟩ := mem_symbolCandidateRows hr
  obtain ⟨n', hn', rfl, -⟩ := mem_symbolCandidateRows hr'
  rw [g.node_eq_of_id_eq hn hn' h]

/-! ### The resolvers -/

theorem resolveSymbolNodes_qualified (h : splitQualified s.toList = some (owner, member)) :
    resolveSymbolNodes g (some s) =
      ((((searchByName g (lookupName s)).filter (fitsOwner owner member)).map
        SearchGraphRow.id).insertionSort (· ≤ ·)).dedup := by
  rw [← filter_fitsOwner_candidates h]
  simp only [resolveSymbolNodes, resolveQualifiedIds, h, Option.map_some]

theorem resolveSymbolId_qualified (h : splitQualified s.toList = some (owner, member)) :
    resolveSymbolId g (some s) =
      (bestRow ((searchByName g (lookupName s)).filter (fitsOwner owner member))).map SearchGraphRow.id := by
  have hids : (symbolCandidateRows g (some s)).filter (fun r =>
      ((((symbolCandidateRows g (some s)).filter (fitsOwner owner member)).map
        SearchGraphRow.id).insertionSort (· ≤ ·)).dedup.contains r.id) =
      (symbolCandidateRows g (some s)).filter (fitsOwner owner member) := by
    refine List.filter_congr fun r hr => ?_
    rw [Bool.eq_iff_iff, List.contains_iff_mem, List.mem_dedup, List.mem_insertionSort, List.mem_map]
    constructor
    · rintro ⟨r', hr', hid⟩
      rw [List.mem_filter] at hr'
      rw [← eq_of_id_eq hr'.1 hr hid]
      exact hr'.2
    · intro hfits
      exact ⟨r, List.mem_filter.2 ⟨hr, hfits⟩, rfl⟩
  rw [← filter_fitsOwner_candidates h, ← hids]
  simp only [resolveSymbolId, resolveQualifiedIds, h, Option.isSome_some, if_true, Option.map_some,
    Option.bind_some]

theorem filter_sameSpelling_candidates (h : splitQualified s.toList = none) :
    (symbolCandidateRows g (some s)).filter (fun r => eqIgnoreAsciiCase r.name s) =
      symbolCandidateRows g (some s) := by
  have hlookup : lookupName s = s := by
    rw [lookupName, h]
    rfl
  refine List.filter_eq_self.2 fun r hr => ?_
  obtain ⟨n, -, rfl, hfold⟩ := mem_symbolCandidateRows hr
  rw [hlookup] at hfold
  exact eqIgnoreAsciiCase_iff.2 hfold

end Candidates

end Greppy
