/-
**The algorithmic semantic search.**

`crates/search/src/semantic.rs` ranks the nodes of the graph against a free-text query by the tokens
they share with it, weighted by how rare the tokens are among the candidates, and by a few further
signals.  There are two entry points that are documented to behave alike: `semantic_query_filtered`
and `semantic_query_expanded`, each with its own copy of the pipeline.  The second copy leaves out
the step that drops the pseudo-nodes (the parser's `Call` and `Import` nodes and the synthetic node
of a file), and this module says exactly when that shows.

The signals are computed as the code computes them; what the floating-point arithmetic makes of them
is a parameter, so that every statement here holds whatever it is.
-/

import Greppy.CamelSplit
import Greppy.GraphStore
import Mathlib.Data.Finset.Card
import Mathlib.Data.Finset.Union
import Mathlib.Data.Rat.Defs

set_option autoImplicit false

namespace Greppy

/-! ### Tokens -/

abbrev Token : Type := List Char

def tokenize (u : Unicode) (s : List Char) : Finset Token := (tokens u s).toFinset

def expandQueryTokens (u : Unicode) (query : List Char) : Finset Token :=
  ((expandTokens u query).filter fun t => !t.isEmpty).toFinset

variable {u : Unicode} {t : Token}

theorem ne_nil_of_mem_tokens {s : List Char} (h : t ∈ tokens u s) : t ≠ [] := by
  rw [tokens, words, List.mem_filter] at h
  simpa using h.2

/-- **Both entry points compute the same tokens of a query.** -/
theorem expandQueryTokens_eq (u : Unicode) (query : List Char) :
    expandQueryTokens u query = tokenize u query := by
  rw [expandQueryTokens, tokenize, expandTokens_eq_tokens, List.filter_eq_self.2]
  intro t ht
  simpa using ne_nil_of_mem_tokens ht

/-! ### Candidates -/

structure SearchGraphRow where
  id : ℕ
  project : String
  label : String
  name : String
  qualifiedName : String
  filePath : String
  startLine : ℤ
  endLine : ℤ
  deriving DecidableEq

/-- The columns of a node that the graph search selects. -/
def Node.searchRow (n : Node) : SearchGraphRow where
  id := n.id
  project := n.project
  label := n.label
  name := n.name
  qualifiedName := n.qualifiedName
  filePath := n.filePath
  startLine := n.startLine
  endLine := n.endLine

/-- `ORDER BY qualified_name, id`. -/
def orderByQnameId (rows : List Node) : List Node :=
  rows.insertionSort fun a b =>
    a.qualifiedName < b.qualifiedName ∨ (a.qualifiedName = b.qualifiedName ∧ a.id ≤ b.id)

/-- `search_graph` for the query of at most `limit` nodes of a project, or of all projects. -/
def searchGraph (g : Graph) (project : Option String) (limit : ℕ) : List SearchGraphRow :=
  (Graph.sqlLimit limit <| orderByQnameId <| g.nodes.rows.filter fun n =>
    match project with
    | some p => decide (n.project = p)
    | none => true).map Node.searchRow

theorem length_searchGraph_le (g : Graph) (project : Option String) :
    (searchGraph g project 10000).length ≤ 10000 := by
  rw [searchGraph, List.length_map, Graph.sqlLimit, if_pos (by decide)]
  exact List.length_take_le _ _

/-- `incoming_edges` of one type. -/
def Graph.incomingEdges (g : Graph) (targetId : ℕ) (edgeType : String) (limit : ℕ) : List Edge :=
  sqlLimit limit <|
    g.edges.rows.filter fun e => decide (e.targetId = targetId ∧ e.edgeType = edgeType)

def proximityEdgeTypes : List String := ["CALLS", "USES", "IMPORTS"]

def proximityFanout : ℕ := 4096

/-- `proximity_neighbors`: the nodes one edge away from the anchor, in either direction. -/
def proximityNeighbors (g : Graph) (anchorId : ℕ) : Finset ℕ :=
  (proximityEdgeTypes.flatMap fun ty =>
    ((g.outgoingEdges anchorId ty proximityFanout).map Edge.targetId ++
      (g.incomingEdges anchorId ty proximityFanout).map Edge.sourceId).filter
        fun id => decide (id ≠ anchorId)).toFinset

/-! ### Signals -/

/-- The tokens of a node: those of its name and qualified name. -/
def SearchGraphRow.tokens (u : Unicode) (r : SearchGraphRow) : Finset Token :=
  tokenize u (r.name.toList ++ ' ' :: r.qualifiedName.toList)

/-- `(row.qualified_name, row.id) < (cur.qualified_name, cur.id)`. -/
def SearchGraphRow.before (r cur : SearchGraphRow) : Bool :=
  decide (r.qualifiedName < cur.qualifiedName ∨
    (r.qualifiedName = cur.qualifiedName ∧ r.id < cur.id))

/-- The query names the node: all tokens of its name are tokens of the query. -/
def namedBy (u : Unicode) (qTokens : Finset Token) (r : SearchGraphRow) : Bool :=
  !(tokens u r.name.toList).isEmpty &&
    (tokens u r.name.toList).all fun t => decide (t ∈ qTokens)

/-- One round of `resolve_anchor`. -/
def anchorStep (u : Unicode) (qTokens : Finset Token) (best : Option SearchGraphRow)
    (row : SearchGraphRow) : Option SearchGraphRow :=
  if namedBy u qTokens row then
    match best with
    | none => some row
    | some cur => if row.before cur then some row else some cur
  else best

/-- `resolve_anchor`: the first, by qualified name and id, of the nodes the query names. -/
def resolveAnchor (u : Unicode) (rows : List SearchGraphRow) (qTokens : Finset Token) : Option ℕ :=
  (rows.foldl (anchorStep u qTokens) none).map SearchGraphRow.id

/-- How many nodes there are, and how many of them have each token. -/
structure TokenIdf where
  df : Token → ℕ
  n : ℕ

/-- One round of `TokenIdf::from_rows`. -/
def TokenIdf.add (u : Unicode) (idf : TokenIdf) (row : SearchGraphRow) : TokenIdf :=
  if row.tokens u = ∅ then idf
  else
    { df := fun t => if t ∈ row.tokens u then idf.df t + 1 else idf.df t
      n := idf.n + 1 }

/-- `TokenIdf::from_rows`. -/
def TokenIdf.fromRows (u : Unicode) (rows : List SearchGraphRow) : TokenIdf :=
  rows.foldl (TokenIdf.add u) { df := fun _ => 0, n := 0 }

/-- The number of slots of a signature. -/
def minhashK : ℕ := 64

/-- `seeded_hash`: FNV-1a with a seed, then a finalizer, of which the low half is kept. -/
def seededHash (bytes : List UInt8) (seed : UInt64) : ℕ :=
  let prime : UInt64 := 0x00000100000001b3
  let h := bytes.foldl (fun h b => (h ^^^ b.toUInt64) * prime) (0xcbf29ce484222325 ^^^ seed * prime)
  let h := (h ^^^ (h >>> 30)) * 0xbf58476d1ce4e5b9
  let h := (h ^^^ (h >>> 27)) * 0x94d049bb133111eb
  (h ^^^ (h >>> 31)).toNat % 2 ^ 32

/-- A signature: the least hash in every slot. -/
abbrev MinHash : Type := List ℕ

/-- `MinHash::from_tokens`. -/
def MinHash.fromTokens (ts : Finset Token) : MinHash :=
  (List.range minhashK).map fun k =>
    (ts.filter fun t => t ≠ []).fold min (2 ^ 32 - 1) fun t =>
      seededHash (t.flatMap String.utf8EncodeChar) k.toUInt64

/-- `MinHash::hamming`: the number of slots that differ. -/
def MinHash.hamming (a b : MinHash) : ℕ :=
  ((a.zip b).filter fun p => decide (p.1 ≠ p.2)).length

def knownLabels : List String :=
  ["function", "functions", "method", "methods", "struct", "structs", "class", "classes", "trait",
    "traits", "enum", "enums", "module", "modules", "import", "imports", "impl", "call", "calls",
    "type", "typealias"]

/-- `label_words_in_query`: the label words that stand between spaces in the query. -/
def labelWordsInQuery (u : Unicode) (query : List Char) : List String :=
  knownLabels.filter fun w =>
    decide (' ' :: w.toList ++ [' '] <:+: ' ' :: u.toLowercase query ++ [' '])

def labelKey (label : String) : String :=
  match label with
  | "Function" => "function"
  | "Method" => "method"
  | "Struct" => "struct"
  | "Class" => "class"
  | "Trait" => "trait"
  | "Enum" => "enum"
  | "Module" => "module"
  | "Import" => "import"
  | "Impl" => "impl"
  | "Call" => "call"
  | "TypeAlias" => "typealias"
  | _ => ""

/-- The directory part of a path, empty without a slash. -/
def dirOf (path : String) : List Char := (beforeLast '/' path.toList).getD []

def pathsShareDir (a b : String) : Bool := decide (dirOf a = dirOf b) && !(dirOf a).isEmpty

/-- The separators of `qname_path_segments`. -/
def isPathSeparator (c : Char) : Bool := c == ':' || c == '/' || c == '.'

/-- `qname_path_segments`: the tokens of the segments before the leaf. -/
def qnamePathSegments (u : Unicode) (qname : String) : Finset Token :=
  let raw := (qname.toList.splitOnP isPathSeparator).filter fun s => !s.isEmpty
  if raw.length ≤ 1 then ∅
  else ((raw.dropLast.flatMap (tokens u)).filter fun t => !t.isEmpty).toFinset

/-! ### Scoring -/

/-- What the score of a node is computed from. -/
structure ScoreInput where
  qTokens : Finset Token
  nodeTokens : Finset Token
  idf : TokenIdf
  labelMatch : Bool
  sharesDir : Bool
  /-- The path segments named in the query, and their number. -/
  matchedSegments : ℕ
  segments : ℕ
  hamming : ℕ
  neighbor : Bool

/-- `SemanticBreakdown`: what each signal contributes. -/
structure SemanticBreakdown where
  tokenOverlap : ℚ
  labelAffinity : ℚ
  fileProximity : ℚ
  simhash : ℚ
  qnamePath : ℚ
  edgeProximity : ℚ
  deriving DecidableEq

/-- The floating-point part of `score_one`: a function of the signals. -/
structure Arithmetic where
  score : ScoreInput → ℚ
  breakdown : ScoreInput → SemanticBreakdown

/-- `SemanticSignal`: which signals fired. -/
structure SemanticSignal where
  tokenOverlap : Bool
  labelAffinity : Bool
  fileProximity : Bool
  simhash : Bool
  qnamePath : Bool
  edgeProximity : Bool
  deriving DecidableEq

structure SemanticHit where
  node : SearchGraphRow
  score : ℚ
  signals : SemanticSignal
  breakdown : SemanticBreakdown
  deriving DecidableEq

structure QuerySignals where
  qTokens : Finset Token
  qLabels : List String
  qSig : MinHash
  nearFile : Option String

def scoreInput (u : Unicode) (q : QuerySignals) (proximitySet : Finset ℕ) (idf : TokenIdf)
    (row : SearchGraphRow) : ScoreInput :=
  let segments := qnamePathSegments u row.qualifiedName
  { qTokens := q.qTokens
    nodeTokens := row.tokens u
    idf := idf
    labelMatch := q.qLabels.contains (labelKey row.label)
    sharesDir := (q.nearFile.map fun f => pathsShareDir f row.filePath).getD false
    matchedSegments := (segments.filter fun seg => seg ∈ q.qTokens).card
    segments := segments.card
    hamming := MinHash.hamming (MinHash.fromTokens (row.tokens u)) q.qSig
    neighbor := decide (row.id ∈ proximitySet) }

/-- The hit `score_one` makes of a node that it scores.  The simhash signal fires when more than 30
of 100 slots agree. -/
def hitOf (u : Unicode) (arith : Arithmetic) (q : QuerySignals) (proximitySet : Finset ℕ)
    (idf : TokenIdf) (row : SearchGraphRow) : SemanticHit :=
  let input := scoreInput u q proximitySet idf row
  { node := row
    score := arith.score input
    signals :=
      { tokenOverlap := true
        labelAffinity := input.labelMatch
        fileProximity := input.sharesDir
        simhash := decide (30 * minhashK < 100 * (minhashK - input.hamming))
        qnamePath := decide (input.matchedSegments ≠ 0)
        edgeProximity := input.neighbor }
    breakdown := arith.breakdown input }

/-- `score_one`: nodes without tokens are not scored, and neither are nodes that share no token with
the query, unless they are neighbours of the anchor. -/
def scoreOne (u : Unicode) (arith : Arithmetic) (q : QuerySignals) (proximitySet : Finset ℕ)
    (idf : TokenIdf) (row : SearchGraphRow) : Option SemanticHit :=
  if row.tokens u = ∅ then none
  else if (q.qTokens ∩ row.tokens u).card = 0 ∧ row.id ∉ proximitySet then none
  else some (hitOf u arith q proximitySet idf row)

/-- The order of the hits: score descending, qualified name ascending, id descending. -/
def SemanticHit.le (a b : SemanticHit) : Prop :=
  b.score < a.score ∨ (a.score = b.score ∧ (a.node.qualifiedName < b.node.qualifiedName ∨
    (a.node.qualifiedName = b.node.qualifiedName ∧ b.node.id ≤ a.node.id)))

instance : DecidableRel SemanticHit.le := fun a b => by
  unfold SemanticHit.le
  infer_instance

/-- The neighbours of the node the query names; none when it names no node. -/
def anchorNeighbors (u : Unicode) (g : Graph) (qTokens : Finset Token)
    (rows : List SearchGraphRow) : Finset ℕ :=
  match resolveAnchor u rows qTokens with
  | some anchorId => proximityNeighbors g anchorId
  | none => ∅

/-- What both entry points do with their candidates: weights, anchor, scores, order, limit. -/
def rankRows (u : Unicode) (arith : Arithmetic) (g : Graph) (q : QuerySignals)
    (rows : List SearchGraphRow) (limit : ℕ) : List SemanticHit :=
  let idf := TokenIdf.fromRows u rows
  let proximitySet := anchorNeighbors u g q.qTokens rows
  ((rows.filterMap (scoreOne u arith q proximitySet idf)).insertionSort SemanticHit.le).take limit

/-! ### The two entry points -/

/-- The label filter: an empty list of labels lets everything pass. -/
def hasLabel (labels : List String) (r : SearchGraphRow) : Bool :=
  labels.isEmpty || labels.contains r.label

/-- An edge endpoint of the parser that the caller has not asked for. -/
def isCallOrImport (labels : List String) (r : SearchGraphRow) : Bool :=
  (r.label == "Call" || r.label == "Import") && !labels.contains r.label

def isFileNode (r : SearchGraphRow) : Bool :=
  "::__file__".toList.isSuffixOf r.qualifiedName.toList

def semanticQueryFiltered (u : Unicode) (arith : Arithmetic) (g : Graph) (query : List Char)
    (nearFile project : Option String) (labels : List String) (limit : ℕ) : List SemanticHit :=
  let qTokens := tokenize u query
  if qTokens = ∅ then []
  else
    let q : QuerySignals :=
      { qTokens := qTokens
        qLabels := labelWordsInQuery u query
        qSig := MinHash.fromTokens qTokens
        nearFile := nearFile }
    let rows := searchGraph g project 10000
    let rows := rows.filter fun r => !isCallOrImport labels r
    let rows := rows.filter fun r => !isFileNode r
    let rows := rows.filter (hasLabel labels)
    rankRows u arith g q rows limit

def semanticQueryExpanded (u : Unicode) (arith : Arithmetic) (g : Graph) (query : List Char)
    (nearFile project : Option String) (labels : List String) (limit : ℕ) : List SemanticHit :=
  let qTokens := expandQueryTokens u query
  if qTokens = ∅ then []
  else
    let q : QuerySignals :=
      { qTokens := qTokens
        qLabels := labelWordsInQuery u query
        qSig := MinHash.fromTokens qTokens
        nearFile := nearFile }
    let rows := searchGraph g project 10000
    let rows := rows.filter (hasLabel labels)
    rankRows u arith g q rows limit

/-! ### Nodes without tokens -/

variable {r : SearchGraphRow} {rows : List SearchGraphRow} {q : QuerySignals}

theorem mem_row_tokens :
    t ∈ r.tokens u ↔ t ∈ tokens u r.name.toList ∨ t ∈ tokens u r.qualifiedName.toList := by
  rw [SearchGraphRow.tokens, tokenize, List.mem_toFinset, tokens_append_space u (by decide),
    List.mem_append]

variable {qTokens : Finset Token} {arith : Arithmetic} {hit : SemanticHit} {limit : ℕ}

theorem exists_shared_of_namedBy (h : namedBy u qTokens r = true) :
    ∃ t ∈ qTokens, t ∈ r.tokens u := by
  rw [namedBy, Bool.and_eq_true, List.all_eq_true] at h
  obtain ⟨hne, hall⟩ := h
  cases htokens : tokens u r.name.toList with
  | nil => simp [htokens] at hne
  | cons t ts =>
    have hmem : t ∈ tokens u r.name.toList := htokens ▸ List.mem_cons_self
    exact ⟨t, of_decide_eq_true (hall t hmem), mem_row_tokens.2 (Or.inl hmem)⟩

def hasTokens (u : Unicode) (r : SearchGraphRow) : Bool := decide (r.tokens u ≠ ∅)

theorem hasTokens_of_mem (h : t ∈ r.tokens u) : hasTokens u r = true := by
  rw [hasTokens, decide_eq_true_eq]
  exact Finset.ne_empty_of_mem h

theorem tokens_eq_empty_of_not (h : hasTokens u r = false) : r.tokens u = ∅ := by
  simpa [hasTokens] using h

theorem foldl_filter_of_skip {α σ : Type} {f : σ → α → σ} {p : α → Bool}
    (h : ∀ a, p a = false → ∀ s, f s a = s) (l : List α) (s : σ) :
    (l.filter p).foldl f s = l.foldl f s := by
  induction l generalizing s with
  | nil => rfl
  | cons a l ih =>
    cases hp : p a with
    | true => rw [List.filter_cons_of_pos hp, List.foldl_cons, List.foldl_cons, ih]
    | false =>
      rw [List.filter_cons_of_neg (by simp [hp]), List.foldl_cons, h a hp s, ih]

theorem fromRows_filter_tokens (u : Unicode) (rows : List SearchGraphRow) :
    TokenIdf.fromRows u (rows.filter (hasTokens u)) = TokenIdf.fromRows u rows := by
  apply foldl_filter_of_skip
  intro r hr idf
  rw [TokenIdf.add, if_pos (tokens_eq_empty_of_not hr)]

theorem resolveAnchor_filter_tokens (u : Unicode) (qTokens : Finset Token)
    (rows : List SearchGraphRow) :
    resolveAnchor u (rows.filter (hasTokens u)) qTokens = resolveAnchor u rows qTokens := by
  rw [resolveAnchor, foldl_filter_of_skip, resolveAnchor]
  intro r hr best
  have hnamed : ¬ namedBy u qTokens r = true := by
    intro hnamed
    obtain ⟨t, -, ht⟩ := exists_shared_of_namedBy hnamed
    rw [hasTokens_of_mem ht] at hr
    cases hr
  simp only [anchorStep, if_neg hnamed]

/-- **Nodes without tokens have no influence on a ranking**: they are no documents of the weights,
cannot be the anchor and are never scored. -/
theorem rankRows_filter_tokens (u : Unicode) (arith : Arithmetic) (g : Graph) (q : QuerySignals)
    (rows : List SearchGraphRow) (limit : ℕ) :
    rankRows u arith g q (rows.filter (hasTokens u)) limit = rankRows u arith g q rows limit := by
  have hscored : ∀ near idf, (rows.filter (hasTokens u)).filterMap (scoreOne u arith q near idf) =
      rows.filterMap (scoreOne u arith q near idf) := by
    intro near idf
    rw [List.filterMap_filter]
    apply List.filterMap_congr
    intro r _
    cases hr : hasTokens u r with
    | true => rw [if_pos rfl]
    | false => rw [if_neg nofun, scoreOne, if_pos (tokens_eq_empty_of_not hr)]
  simp only [rankRows, anchorNeighbors, fromRows_filter_tokens, resolveAnchor_filter_tokens,
    hscored]

/-! ### What is ranked -/

theorem resolveAnchor_eq_none (h : ∀ r ∈ rows, ∀ t ∈ qTokens, t ∉ r.tokens u) :
    resolveAnchor u rows qTokens = none := by
  have hfold : rows.foldl (anchorStep u qTokens) none = none := by
    induction rows with
    | nil => rfl
    | cons r rows ih =>
      have hstep : anchorStep u qTokens none r = none := by
        have hnamed : ¬ namedBy u qTokens r = true := by
          intro hnamed
          obtain ⟨t, hq, hr⟩ := exists_shared_of_namedBy hnamed
          exact h r List.mem_cons_self t hq hr
        simp only [anchorStep, if_neg hnamed]
      rw [List.foldl_cons, hstep, ih fun r hr => h r (List.mem_cons_of_mem _ hr)]
  rw [resolveAnchor, hfold]
  rfl

/-- **A ranking is empty when no node shares a token with the query**: then there is no anchor, so
no node is ranked for being its neighbour either. -/
theorem rankRows_eq_nil (u : Unicode) (arith : Arithmetic) (g : Graph)
    (h : ∀ r ∈ rows, ∀ t ∈ q.qTokens, t ∉ r.tokens u) (limit : ℕ) :
    rankRows u arith g q rows limit = [] := by
  have hnone : rows.filterMap (scoreOne u arith q ∅ (TokenIdf.fromRows u rows)) = [] := by
    rw [List.filterMap_eq_nil_iff]
    intro r hr
    have hdisjoint : q.qTokens ∩ r.tokens u = ∅ := by
      rw [Finset.eq_empty_iff_forall_notMem]
      intro t ht
      rw [Finset.mem_inter] at ht
      exact h r hr t ht.1 ht.2
    simp [scoreOne, hdisjoint]
  simp only [rankRows, anchorNeighbors, resolveAnchor_eq_none h, hnone, List.insertionSort_nil, List.take_nil]

theorem scoreOne_of_shared (arith : Arithmetic) (near : Finset ℕ) (idf : TokenIdf)
    (hq : t ∈ q.qTokens) (hr : t ∈ r.tokens u) :
    scoreOne u arith q near idf r = some (hitOf u arith q near idf r) := by
  have htokens : r.tokens u ≠ ∅ := Finset.ne_empty_of_mem hr
  have hshared : (q.qTokens ∩ r.tokens u).card ≠ 0 := by
    rw [Finset.card_ne_zero]
    exact ⟨t, Finset.mem_inter.2 ⟨hq, hr⟩⟩
  rw [scoreOne, if_neg htokens, if_neg fun h => hshared h.1]

theorem eq_hitOf_of_scoreOne {near : Finset ℕ} {idf : TokenIdf}
    (h : scoreOne u arith q near idf r = some hit) : hit = hitOf u arith q near idf r := by
  rw [scoreOne] at h
  split at h
  · exact absurd h nofun
  split at h
  · exact absurd h nofun
  · exact (Option.some.inj h).symm

@[simp] theorem rankRows_zero (u : Unicode) (arith : Arithmetic) (g : Graph) (q : QuerySignals)
    (rows : List SearchGraphRow) : rankRows u arith g q rows 0 = [] := by
  simp only [rankRows, List.take_zero]

theorem rankRows_ne_nil (u : Unicode) (arith : Arithmetic) (g : Graph) (hlimit : limit ≠ 0)
    (hmem : r ∈ rows) (hq : t ∈ q.qTokens) (hr : t ∈ r.tokens u) :
    rankRows u arith g q rows limit ≠ [] := by
  rw [rankRows]
  intro hnil
  rw [List.take_eq_nil_iff] at hnil
  rcases hnil with hzero | hsorted
  · exact hlimit hzero
  · have hhit := List.mem_filterMap.2 ⟨r, hmem, scoreOne_of_shared arith
      (anchorNeighbors u g q.qTokens rows) (TokenIdf.fromRows u rows) hq hr⟩
    rw [← (List.perm_insertionSort SemanticHit.le _).mem_iff, hsorted] at hhit
    cases hhit

/-- The scores of a ranking are computed with the weights of its candidates. -/
theorem score_of_mem_rankRows {g : Graph} (h : hit ∈ rankRows u arith g q rows limit) :
    ∃ input, input.idf = TokenIdf.fromRows u rows ∧ hit.score = arith.score input := by
  have hsorted := List.mem_of_mem_take h
  rw [(List.perm_insertionSort SemanticHit.le _).mem_iff] at hsorted
  obtain ⟨r, -, hscore⟩ := List.mem_filterMap.1 hsorted
  rw [eq_hitOf_of_scoreOne hscore]
  exact ⟨_, rfl, rfl⟩

theorem n_fromRows (u : Unicode) (rows : List SearchGraphRow) :
    (TokenIdf.fromRows u rows).n = rows.countP (hasTokens u) := by
  have hfold : ∀ idf : TokenIdf, (rows.foldl (TokenIdf.add u) idf).n =
      idf.n + rows.countP (hasTokens u) := by
    induction rows with
    | nil => intro idf; rfl
    | cons r rows ih =>
      intro idf
      rw [List.foldl_cons, ih, TokenIdf.add, List.countP_cons]
      by_cases hr : r.tokens u = ∅
      · simp [hasTokens, hr]
      · simp [hasTokens, hr]
        omega
  rw [TokenIdf.fromRows, hfold]
  exact Nat.zero_add _

/-! ### When the entry points agree -/

/-- The nodes that only `semantic_query_filtered` drops. -/
def isPseudo (labels : List String) (r : SearchGraphRow) : Bool :=
  isCallOrImport labels r || isFileNode r

/-- The nodes of the project that pass the label filter. -/
def labelledRows (g : Graph) (project : Option String) (labels : List String) : List SearchGraphRow :=
  (searchGraph g project 10000).filter (hasLabel labels)

/-- The query as both entry points match it. -/
def querySignals (u : Unicode) (query : List Char) (nearFile : Option String) : QuerySignals where
  qTokens := tokenize u query
  qLabels := labelWordsInQuery u query
  qSig := MinHash.fromTokens (tokenize u query)
  nearFile := nearFile

section Agree

variable (u : Unicode) (g : Graph) (query : List Char) (nearFile project : Option String)
  (labels : List String) (limit : ℕ)

theorem semanticQueryExpanded_eq (arith : Arithmetic) :
    semanticQueryExpanded u arith g query nearFile project labels limit =
      rankRows u arith g (querySignals u query nearFile) (labelledRows g project labels) limit := by
  rw [semanticQueryExpanded, expandQueryTokens_eq]
  split
  · rename_i hempty
    rw [rankRows_eq_nil]
    intro r _ t ht
    rw [querySignals, hempty] at ht
    exact absurd ht (Finset.notMem_empty t)
  · rfl

theorem semanticQueryFiltered_eq (arith : Arithmetic) :
    semanticQueryFiltered u arith g query nearFile project labels limit =
      rankRows u arith g (querySignals u query nearFile)
        ((labelledRows g project labels).filter fun r => !isPseudo labels r) limit := by
  rw [semanticQueryFiltered]
  split
  · rename_i hempty
    rw [rankRows_eq_nil]
    intro r _ t ht
    rw [querySignals, hempty] at ht
    exact absurd ht (Finset.notMem_empty t)
  · have hrows : (((searchGraph g project 10000).filter fun r => !isCallOrImport labels r).filter
        fun r => !isFileNode r).filter (hasLabel labels) =
          (labelledRows g project labels).filter fun r => !isPseudo labels r := by
      rw [labelledRows, List.filter_filter, List.filter_filter, List.filter_filter]
      congr 1
      funext r
      rw [isPseudo, Bool.not_or]
      cases isCallOrImport labels r <;> cases isFileNode r <;> cases hasLabel labels r <;> rfl
    simp only [hrows]
    rfl

theorem rankRows_filter_pseudo {arith : Arithmetic} {q : QuerySignals}
    {rows : List SearchGraphRow} (h : ∀ r ∈ rows, isPseudo labels r = true → r.tokens u = ∅) :
    rankRows u arith g q rows limit =
      rankRows u arith g q (rows.filter fun r => !isPseudo labels r) limit := by
  rw [← rankRows_filter_tokens u arith g q rows,
    ← rankRows_filter_tokens u arith g q (rows.filter fun r => !isPseudo labels r),
    List.filter_filter]
  have hsame : rows.filter (hasTokens u) =
      rows.filter fun r => hasTokens u r && !isPseudo labels r := by
    apply List.filter_congr
    intro r hr
    cases hpseudo : isPseudo labels r with
    | false => rw [Bool.not_false, Bool.and_true]
    | true => rw [Bool.not_true, Bool.and_false, hasTokens, h r hr hpseudo, decide_eq_false nofun]
  rw [hsame]

/-- **The two entry points agree, whatever the arithmetic, exactly when** nothing is asked for, or
no candidate shares a token with the query, or no candidate that has tokens is a pseudo-node. -/
theorem semanticQueryExpanded_eq_iff :
    (∀ arith : Arithmetic,
      semanticQueryExpanded u arith g query nearFile project labels limit =
        semanticQueryFiltered u arith g query nearFile project labels limit) ↔
    (limit = 0 ∨
      (∀ r ∈ labelledRows g project labels, ∀ t ∈ tokenize u query, t ∉ r.tokens u) ∨
      (∀ r ∈ labelledRows g project labels, isPseudo labels r = true → r.tokens u = ∅)) := by
  simp only [semanticQueryExpanded_eq, semanticQueryFiltered_eq]
  constructor
  · intro hagree
    by_contra hnot
    push Not at hnot
    obtain ⟨hlimit, ⟨r, hr, t, hquery, hrow⟩, pseudo, hmem, hpseudo, htokens⟩ := hnot
    -- an arithmetic that shows how many candidates were weighed
    let arith : Arithmetic := ⟨fun input => input.idf.n, fun _ => ⟨0, 0, 0, 0, 0, 0⟩⟩
    have hne := rankRows_ne_nil u arith g (q := querySignals u query nearFile) hlimit hr hquery hrow
    obtain ⟨hit, hhit⟩ := List.exists_mem_of_ne_nil _ hne
    obtain ⟨input, hidf, hscore⟩ := score_of_mem_rankRows hhit
    rw [hagree arith] at hhit
    obtain ⟨input', hidf', hscore'⟩ := score_of_mem_rankRows hhit
    have hcount : input.idf.n = input'.idf.n := by
      have hsame := hscore.symm.trans hscore'
      exact Rat.natCast_inj.1 hsame
    rw [hidf, hidf', n_fromRows, n_fromRows,
      List.countP_eq_countP_filter_add _ _ (isPseudo labels)] at hcount
    have hpos : 0 < ((labelledRows g project labels).filter (isPseudo labels)).countP (hasTokens u) := by
      rw [List.countP_pos_iff]
      exact ⟨pseudo, List.mem_filter.2 ⟨hmem, hpseudo⟩, decide_eq_true htokens.ne_empty⟩
    omega
  · rintro (hlimit | hnone | hempty) arith
    · rw [hlimit, rankRows_zero, rankRows_zero]
    · rw [rankRows_eq_nil u arith g hnone, rankRows_eq_nil u arith g]
      intro r hr
      exact hnone r (List.mem_of_mem_filter hr)
    · exact rankRows_filter_pseudo u g labels limit hempty

end Agree

/-- A type and a call of it, as the parser stores them. -/
def storeAndCall : Graph :=
  Graph.ofInserts ⟨"p", "2026-06-29T00:00:00Z", "/p"⟩
    [⟨"p", "Struct", "Store", "p::Struct::Store", "src/store.rs", 1, 1, .null⟩,
      ⟨"p", "Call", "Store", "p::caller::Call::Store", "src/store.rs", 1, 1, .null⟩] []

/-- Only one of the entry points shows the call when the type is searched for. -/
theorem call_shown_by_expanded :
    (semanticQueryExpanded .ascii ⟨fun _ => 0, fun _ => ⟨0, 0, 0, 0, 0, 0⟩⟩ storeAndCall
        "Store".toList none none [] 10).map (fun hit => hit.node.label) = ["Struct", "Call"] ∧
      (semanticQueryFiltered .ascii ⟨fun _ => 0, fun _ => ⟨0, 0, 0, 0, 0, 0⟩⟩ storeAndCall
        "Store".toList none none [] 10).map (fun hit => hit.node.label) = ["Struct"] := by
  decide +kernel

end Greppy
