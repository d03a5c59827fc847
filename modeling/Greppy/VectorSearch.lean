/-
**Exact search over the vectors of chunks.**

`vector_search_exact` goes over the rows of `vector_embeddings` twice.  The first pass scores every row of
the scope, with the bytes of its `i8` copy where there is one, keeps the best row of each definition, and
selects a number of definitions.  The second pass scores all rows of the definitions selected with their
floats, keeps the best row of each, and cuts the list.

The first pass only selects.  A definition that it leaves out is not in the answer, however well it would
do in the second pass; of the others, the answer has the best ones, each with its best row.

The floats are the elements of a linear order with operations on them, about which nothing is assumed.
The order in which SQLite returns the rows is open, in both passes.
-/

import Greppy.EmbeddingIndex
import Greppy.GroupBest
import Greppy.QueryCache

set_option autoImplicit false

namespace Greppy

/-! ### Floats -/

/-- The arithmetic of `f32`. -/
structure F32Ops (F : Type) where
  ofInt : ℤ → F
  ofBits : UInt32 → F
  isFinite : F → Bool
  add : F → F → F
  sub : F → F → F
  mul : F → F → F
  div : F → F → F
  mulAdd : F → F → F → F
  sqrt : F → F
  abs : F → F
  /-- `0.01`. -/
  hundredth : F
  /-- `round().clamp(-127.0, 127.0) as i8 as u8`. -/
  toI8 : F → UInt8

section Floats

variable {F : Type} (ops : F32Ops F)

/-- The four sums of `dot`, over the parts of four that both have. -/
def dotParts : List F → List F → F × F × F × F → F × F × F × F
  | x0 :: x1 :: x2 :: x3 :: xs, y0 :: y1 :: y2 :: y3 :: ys, (s0, s1, s2, s3) =>
    dotParts xs ys (ops.mulAdd x0 y0 s0, ops.mulAdd x1 y1 s1, ops.mulAdd x2 y2 s2,
      ops.mulAdd x3 y3 s3)
  | _, _, s => s

/-- `chunks_exact(4).remainder()`. -/
def remainder4 {α : Type} (l : List α) : List α := l.drop (l.length / 4 * 4)

def dot (a b : List F) : F :=
  let zero := ops.ofInt 0
  let (s0, s1, s2, s3) := dotParts ops a b (zero, zero, zero, zero)
  ((remainder4 a).zip (remainder4 b)).foldl (fun t xy => ops.mulAdd xy.1 xy.2 t)
    (ops.add (ops.add s0 s1) (ops.add s2 s3))

def vectorNorm (v : List F) : F := ops.sqrt (dot ops v v)

/-- The four sums of `dot_i8`. -/
def dotI8Parts : List UInt8 → List UInt8 → Int32 × Int32 × Int32 × Int32 →
    Int32 × Int32 × Int32 × Int32
  | x0 :: x1 :: x2 :: x3 :: xs, y0 :: y1 :: y2 :: y3 :: ys, (s0, s1, s2, s3) =>
    dotI8Parts xs ys (s0 + x0.toInt8.toInt32 * y0.toInt8.toInt32,
      s1 + x1.toInt8.toInt32 * y1.toInt8.toInt32, s2 + x2.toInt8.toInt32 * y2.toInt8.toInt32,
      s3 + x3.toInt8.toInt32 * y3.toInt8.toInt32)
  | _, _, s => s

def dotI8 (a b : List UInt8) : ℤ :=
  let (s0, s1, s2, s3) := dotI8Parts a b (0, 0, 0, 0)
  ((remainder4 a).zip (remainder4 b)).foldl (fun t xy => t + xy.1.toInt8.toInt * xy.2.toInt8.toInt)
    ((s0.toInt + s1.toInt) + (s2.toInt + s3.toInt))

/-- `decode_f32_le` and `decode_f32_le_into`; `none` when the length is wrong. -/
def decodeF32Le (bytes : Bytes) (dim : ℕ) : Option (List F) :=
  if bytes.length ≠ dim * 4 then none else some ((readFloats bytes).map ops.ofBits)

variable [LinearOrder F]

def quantizeI8 (v : List F) : List UInt8 × F :=
  let maxAbs := v.foldl (fun m x => max m (ops.abs x)) (ops.ofInt 0)
  if maxAbs = ops.ofInt 0 ∨ !ops.isFinite maxAbs then (List.replicate v.length 0, ops.ofInt 1)
  else
    let scale := ops.div maxAbs (ops.ofInt 127)
    let inv := ops.div (ops.ofInt 127) maxAbs
    (v.map fun x => ops.toI8 (ops.mul x inv), scale)

def validateQueryVector (v : List F) : Except String Unit :=
  if v.isEmpty then .error "vector must not be empty"
  else if !v.all ops.isFinite then .error "vector contains non-finite values"
  else if vectorNorm ops v ≤ ops.ofInt 0 ∨ !ops.isFinite (vectorNorm ops v) then
    .error "vector norm must be positive"
  else .ok ()

end Floats

/-! ### Rows and queries -/

/-- A row of `vector_embeddings`. -/
structure EmbeddingRow (F : Type) extends VectorRow Bytes where
  id : ℕ
  dim : ℤ
  vectorNorm : F
  createdAt : String
  vectorI8 : Option Bytes
  i8Scale : Option F

/-- The nodes, and the vectors of their chunks. -/
structure VectorStore (F : Type) where
  graph : Graph
  embeddings : KeyedTable (EmbeddingRow F) EmbeddingRow.id

structure VectorSearchQuery (F : Type) where
  project : String
  modelId : String
  promptVersion : String
  task : String
  graphGeneration : Option ℕ
  filePath : Option String
  limit : ℕ
  minScore : Option F

structure VectorEmbedding (F : Type) extends VectorRow (List F) where
  id : ℕ
  dim : ℕ
  vectorNorm : F
  createdAt : String

structure VectorSearchHit (F : Type) where
  embedding : VectorEmbedding F
  score : F

def vectorDedupKey (nodeId : Option ℕ) (qualifiedName : String) : String :=
  match nodeId with
  | some id => "node:" ++ toString id
  | none => "name:" ++ qualifiedName

/-- The definition that a row belongs to: its node, or a name where there is no node. -/
def definitionOf (nodeId : Option ℕ) (qualifiedName : String) : ℕ ⊕ String :=
  match nodeId with
  | some id => .inl id
  | none => .inr qualifiedName

/-- **A key stands for a definition.** -/
theorem vectorDedupKey_eq_iff {nodeId nodeId' : Option ℕ} {name name' : String} :
    vectorDedupKey nodeId name = vectorDedupKey nodeId' name' ↔
      definitionOf nodeId name = definitionOf nodeId' name' := by
  have hprefix : ∀ a b : String, "node:" ++ a ≠ "name:" ++ b := by
    intro a b h
    have hlist := congrArg String.toList h
    simp at hlist
  have hcancel : ∀ p a b : String, p ++ a = p ++ b → a = b := by
    intro p a b h
    have hlist := congrArg String.toList h
    rw [String.toList_append, String.toList_append] at hlist
    exact String.toList_injective (List.append_cancel_left hlist)
  have hdigits : ∀ m n : ℕ, toString m = toString n → m = n := by
    intro m n h
    have hlist := congrArg String.toList h
    rw [Nat.toString_eq_ofList_toDigits, Nat.toString_eq_ofList_toDigits, String.toList_ofList,
      String.toList_ofList] at hlist
    have hvalue := congrArg (fun l => Nat.ofDigitChars 10 l 0) hlist
    simpa only [Nat.ofDigitChars_ten_toDigits] using hvalue
  cases nodeId with
  | some id =>
    cases nodeId' with
    | some id' =>
      simp only [vectorDedupKey, definitionOf, Sum.inl.injEq]
      exact ⟨fun h => hdigits id id' (hcancel _ _ _ h), fun h => by rw [h]⟩
    | none =>
      simp only [vectorDedupKey, definitionOf, reduceCtorEq, iff_false]
      exact hprefix _ _
  | none =>
    cases nodeId' with
    | some id' =>
      simp only [vectorDedupKey, definitionOf, reduceCtorEq, iff_false]
      exact fun h => hprefix _ _ h.symm
    | none =>
      simp only [vectorDedupKey, definitionOf, Sum.inr.injEq]
      exact ⟨hcancel _ _ _, fun h => by rw [h]⟩

namespace VectorStore

variable {F : Type} [LinearOrder F] (ops : F32Ops F)

/-- The conditions of both statements on a row. -/
def inScope (q : VectorSearchQuery F) (row : EmbeddingRow F) : Bool :=
  let file := q.filePath.getD ""
  decide (row.project = q.project ∧ row.modelId = q.modelId ∧ row.promptVersion = q.promptVersion ∧
    row.task = q.task ∧ (∀ g ∈ q.graphGeneration, asI64 row.graphGeneration = asI64 g) ∧
    (file = "" ∨ row.filePath = file))

/-! ### The first pass -/

structure Cand (F : Type) where
  id : ℕ
  nodeId : Option ℕ
  score : F
  qualifiedName : String

def Cand.key (c : Cand F) : String := vectorDedupKey c.nodeId c.qualifiedName

/-- The score that the first pass computes for a row, unless something is wrong with it. -/
def scanScore (queryVector : List F) (row : EmbeddingRow F) : Except String F :=
  let queryNorm := Greppy.vectorNorm ops queryVector
  let (queryI8, queryScale) := quantizeI8 ops queryVector
  let dim := asU64 row.dim
  let norm := row.vectorNorm
  let blob := row.vectorI8.getD row.vector
  if dim ≠ queryVector.length then
    .error ("stored vector dimension mismatch for " ++ row.qualifiedName ++ ": stored " ++ toString dim ++
      ", query " ++ toString queryVector.length)
  else if norm ≤ ops.ofInt 0 ∨ !ops.isFinite norm then
    .error ("stored vector has invalid norm for " ++ row.qualifiedName)
  else
    match row.i8Scale with
    | some vscale =>
      if blob.length ≠ dim then
        .error ("vector_i8 blob length mismatch for " ++ row.qualifiedName ++ ": bytes " ++
          toString blob.length ++ ", dim " ++ toString dim)
      else
        .ok (ops.div (ops.mul (ops.mul (ops.ofInt (dotI8 queryI8 blob)) queryScale) vscale)
          (ops.mul queryNorm norm))
    | none =>
      match decodeF32Le ops blob dim with
      | none =>
        .error ("vector blob length mismatch for " ++ row.qualifiedName ++ ": bytes " ++
          toString blob.length ++ ", dim " ++ toString dim)
      | some v => .ok (ops.div (dot ops queryVector v) (ops.mul queryNorm norm))

def scanRow (queryVector : List F) (row : EmbeddingRow F) : Except String (Cand F) :=
  (scanScore ops queryVector row).map fun score =>
    { id := row.id, nodeId := row.nodeId, score := score, qualifiedName := row.qualifiedName }

/-- Whether a score is below the floor, if there is one. -/
def below (floor : Option F) (score : F) : Bool := floor.any fun m => decide (score < m)

/-- `score > best.score || (score == best.score && id < best.id)`. -/
def candReplaces (best new : Cand F) : Bool :=
  decide (best.score < new.score) || (decide (new.score = best.score) && decide (new.id < best.id))

/-- `best_by_node`, after one more candidate. -/
def keepCand (floor : Option F) (best : KeyedTable (Cand F) Cand.key) (c : Cand F) :
    KeyedTable (Cand F) Cand.key :=
  if below floor c.score then best
  else
    best.upsertWith (fun old new => if candReplaces old new then new else old)
      (fun old new h => by
        split
        · rfl
        · exact h) c

/-- `limit.saturating_mul(8).saturating_add(32)`. -/
def overfetch (limit : ℕ) : ℕ := usizeSaturatingAdd (usizeSaturatingMul limit 8) 32

/-- `min_score` less `0.01`. -/
def approxMin (q : VectorSearchQuery F) : Option F := q.minScore.map fun m => ops.sub m ops.hundredth

/-- The order of the candidates: the best score first, then the qualified name, then the id. -/
def Cand.rank (c : Cand F) : Fᵒᵈ ×ₗ String ×ₗ ℕ :=
  toLex (OrderDual.toDual c.score, toLex (c.qualifiedName, c.id))

/-- The first pass over the rows, in the order in which they are read. -/
def scan (queryVector : List F) (q : VectorSearchQuery F) (rows : List (EmbeddingRow F)) :
    Except String (List (Cand F)) :=
  ((rows.filter (inScope q)).foldlM
    (fun best row => (scanRow ops queryVector row).map (keepCand (approxMin ops q) best))
    KeyedTable.empty).map fun best => (Ranking.ranked Cand.rank best.rows).take (overfetch q.limit)

/-! ### The second pass -/

def rowToVectorEmbedding (row : EmbeddingRow F) : Except String (VectorEmbedding F) :=
  if row.dim < 0 then .error "out of range integral type conversion attempted"
  else
    match decodeF32Le ops row.vector row.dim.toNat with
    | none =>
      .error ("vector blob length mismatch for " ++ row.qualifiedName ++ ": bytes " ++
        toString row.vector.length ++ ", dim " ++ toString row.dim.toNat)
    | some v =>
      .ok { row with vector := v, dim := row.dim.toNat }

def canonicalizeVectorEmbedding (g : Graph) (e : VectorEmbedding F) : VectorEmbedding F :=
  match e.nodeId.bind g.getNode with
  | none => e
  | some node =>
    { e with
      qualifiedName := node.qualifiedName
      filePath := node.filePath
      startLine := node.startLine
      endLine := node.endLine }

/-- A row of the second pass, with the score of its floats. -/
def rescore (g : Graph) (queryVector : List F) (row : EmbeddingRow F) :
    Except String (VectorSearchHit F) :=
  (rowToVectorEmbedding ops row).map fun e =>
    let e := canonicalizeVectorEmbedding g e
    { embedding := e
      score := ops.div (dot ops queryVector e.vector)
        (ops.mul (Greppy.vectorNorm ops queryVector) e.vectorNorm) }

end VectorStore

def VectorSearchHit.key {F : Type} (h : VectorSearchHit F) : String :=
  vectorDedupKey h.embedding.nodeId h.embedding.qualifiedName

/-- `vector_hit_rank_cmp`: the best score first, then the qualified name, the number of the chunk, and
the id. -/
def VectorSearchHit.rank {F : Type} (h : VectorSearchHit F) : Fᵒᵈ ×ₗ String ×ₗ ℤ ×ₗ ℕ :=
  toLex (OrderDual.toDual h.score,
    toLex (h.embedding.qualifiedName, toLex (h.embedding.chunkIdx, h.embedding.id)))

namespace VectorStore

variable {F : Type} [LinearOrder F] (ops : F32Ops F)

/-- `best_exact`, after one more hit. -/
def keepHit (floor : Option F) (best : KeyedTable (VectorSearchHit F) VectorSearchHit.key)
    (h : VectorSearchHit F) : KeyedTable (VectorSearchHit F) VectorSearchHit.key :=
  if below floor h.score then best else GroupBest.keep VectorSearchHit.key VectorSearchHit.rank best h

/-- `node_ids`. -/
def nodeIdsOf (top : List (Cand F)) : List ℕ :=
  ((top.filterMap Cand.nodeId).insertionSort (· ≤ ·)).dedup

def qnamesWithoutNode (top : List (Cand F)) : List String :=
  (((top.filter fun c => c.nodeId.isNone).map Cand.qualifiedName).insertionSort (· ≤ ·)).dedup

/-- `node_id IN (…) OR (node_id IS NULL AND qualified_name IN (…))`. -/
def ofSelected (nodeIds : List ℕ) (names : List String) (row : EmbeddingRow F) : Bool :=
  match row.nodeId with
  | some id => nodeIds.contains id
  | none => names.contains row.qualifiedName

/-- `SQLITE_MAX_VARIABLE_NUMBER`. -/
def sqlVariables : ℕ := 32766

/-- `vector_search_exact`; each pass reads the rows in an order of its own. -/
def vectorSearchExact (g : Graph) (scanned decoded : List (EmbeddingRow F)) (queryVector : List F)
    (q : VectorSearchQuery F) : Except String (List (VectorSearchHit F)) :=
  match validateQueryVector ops queryVector with
  | .error e => .error e
  | .ok () =>
    if q.limit = 0 then .ok []
    else
      match scan ops queryVector q scanned with
      | .error e => .error e
      | .ok top =>
        if top.isEmpty then .ok []
        else
          let nodeIds := nodeIdsOf top
          let names := qnamesWithoutNode top
          if sqlVariables < 8 + nodeIds.length + names.length then .error "too many SQL variables"
          else
            ((decoded.filter fun row => inScope q row && ofSelected nodeIds names row).foldlM
              (fun best row => (rescore ops g queryVector row).map (keepHit q.minScore best))
              KeyedTable.empty).map fun best =>
                (Ranking.ranked VectorSearchHit.rank best.rows).take q.limit

/-! ### The candidates of the first pass -/

/-- The rows of the scope as candidates, without those below the floor. -/
def cands (queryVector : List F) (q : VectorSearchQuery F) (rows : List (EmbeddingRow F)) :
    List (Cand F) :=
  ((rows.filter (inScope q)).filterMap fun row => (scanRow ops queryVector row).toOption).filter
    fun c => !below (approxMin ops q) c.score

/-- The order in which the rows of one definition are preferred. -/
def Cand.groupRank (c : Cand F) : Fᵒᵈ ×ₗ ℕ := toLex (OrderDual.toDual c.score, c.id)

/-- The candidates that the first pass selects: of each definition the best one, and of these the
first. -/
def selectedCands (queryVector : List F) (q : VectorSearchQuery F) (rows : List (EmbeddingRow F)) :
    List (Cand F) :=
  (Ranking.ranked Cand.rank
    (GroupBest.best Cand.key Cand.groupRank (cands ops queryVector q rows)).rows).take
      (overfetch q.limit)

variable {ops} {queryVector : List F} {q : VectorSearchQuery F} {rows : List (EmbeddingRow F)}

theorem candReplaces_iff {best new : Cand F} :
    candReplaces best new = true ↔ new.groupRank < best.groupRank := by
  simp only [candReplaces, Cand.groupRank, Prod.Lex.toLex_lt_toLex, OrderDual.toDual_lt_toDual,
    OrderDual.toDual_inj, Bool.or_eq_true, Bool.and_eq_true, decide_eq_true_eq]

theorem keepCand_eq (floor : Option F) (best : KeyedTable (Cand F) Cand.key) (c : Cand F) :
    keepCand floor best c =
      if !below floor c.score then GroupBest.keep Cand.key Cand.groupRank best c else best := by
  have hmerge : (fun old new : Cand F => if candReplaces old new then new else old) =
      GroupBest.better Cand.groupRank := by
    funext old new
    rw [GroupBest.better]
    simp only [candReplaces_iff]
  unfold keepCand GroupBest.keep
  cases below floor c.score
  · simp only [Bool.false_eq_true, if_false, Bool.not_false, if_true]
    congr
  · rfl

/-- **The first pass selects the candidates**, when nothing is wrong with the rows. -/
theorem scan_eq_ok_iff {top : List (Cand F)} : scan ops queryVector q rows = .ok top ↔
    (∀ row ∈ rows, inScope q row = true → ∃ s, scanScore ops queryVector row = .ok s) ∧
      top = selectedCands ops queryVector q rows := by
  have hloop : ∀ l : List (Cand F), l.foldl (keepCand (approxMin ops q)) KeyedTable.empty =
      GroupBest.best Cand.key Cand.groupRank
        (l.filter fun c => !below (approxMin ops q) c.score) := by
    intro l
    rw [GroupBest.best, List.foldl_filter]
    refine congrArg (fun step => l.foldl step KeyedTable.empty) ?_
    funext best c
    exact keepCand_eq _ best c
  have hread : (∀ row ∈ rows.filter (inScope q), ∃ c, scanRow ops queryVector row = .ok c) ↔
      ∀ row ∈ rows, inScope q row = true → ∃ s, scanScore ops queryVector row = .ok s := by
    simp only [List.mem_filter, and_imp]
    refine forall₂_congr fun row _ => forall_congr' fun _ => ?_
    rw [scanRow]
    cases scanScore ops queryVector row <;> simp [Except.map]
  rw [scan, List.map_foldlM_map_eq_ok_iff, hread, hloop]
  rfl

theorem mem_cands {c : Cand F} : c ∈ cands ops queryVector q rows ↔ ∃ row ∈ rows,
    inScope q row = true ∧ scanRow ops queryVector row = .ok c ∧
      below (approxMin ops q) c.score = false := by
  simp only [cands, List.mem_filter, List.mem_filterMap_toOption, Bool.not_eq_true']
  constructor
  · rintro ⟨⟨row, ⟨hrow, hscope⟩, hread⟩, hfloor⟩
    exact ⟨row, hrow, hscope, hread, hfloor⟩
  · rintro ⟨row, hrow, hscope, hread, hfloor⟩
    exact ⟨⟨row, ⟨hrow, hscope⟩, hread⟩, hfloor⟩

theorem id_of_scanRow {row : EmbeddingRow F} {c : Cand F} (h : scanRow ops queryVector row = .ok c) :
    c.id = row.id := by
  unfold scanRow at h
  obtain ⟨s, hscore, rfl⟩ := Except.map_eq_ok_iff.1 h
  rfl

theorem cands_inj (hnd : (rows.map EmbeddingRow.id).Nodup) {a b : Cand F}
    (ha : a ∈ cands ops queryVector q rows) (hb : b ∈ cands ops queryVector q rows)
    (h : a.id = b.id) : a = b := by
  obtain ⟨r, hr, -, hra, -⟩ := mem_cands.1 ha
  obtain ⟨r', hr', -, hrb, -⟩ := mem_cands.1 hb
  have hsame : r = r' := List.inj_on_of_nodup_map hnd hr hr'
    ((id_of_scanRow hra).symm.trans (h.trans (id_of_scanRow hrb)))
  rw [hsame, hrb] at hra
  exact (Except.ok.inj hra).symm

theorem groupRank_inj (hnd : (rows.map EmbeddingRow.id).Nodup) :
    ∀ a ∈ cands ops queryVector q rows, ∀ b ∈ cands ops queryVector q rows,
      a.groupRank = b.groupRank → a = b := by
  intro a ha b hb heq
  exact cands_inj hnd ha hb (congrArg (fun k => (ofLex k).2) heq)

/-- The first pass selects the same in whatever order it reads the rows. -/
theorem selectedCands_congr {rows' : List (EmbeddingRow F)} (hnd : (rows.map EmbeddingRow.id).Nodup)
    (hperm : rows.Perm rows') :
    selectedCands ops queryVector q rows = selectedCands ops queryVector q rows' := by
  have hmem : ∀ c, c ∈ cands ops queryVector q rows ↔ c ∈ cands ops queryVector q rows' := by
    intro c
    simp only [mem_cands, hperm.mem_iff]
  have hbest : (GroupBest.best Cand.key Cand.groupRank (cands ops queryVector q rows)).rows.Perm
      (GroupBest.best Cand.key Cand.groupRank (cands ops queryVector q rows')).rows :=
    GroupBest.perm_best (groupRank_inj hnd) hmem
  have hranks : ((GroupBest.best Cand.key Cand.groupRank
      (cands ops queryVector q rows)).rows.map Cand.rank).Nodup := by
    refine List.Nodup.map_on ?_ (KeyedTable.rows_nodup _)
    intro a ha b hb heq
    refine cands_inj hnd ((GroupBest.mem_best (groupRank_inj hnd)).1 ha).1
      ((GroupBest.mem_best (groupRank_inj hnd)).1 hb).1 ?_
    exact congrArg (fun k => (ofLex (ofLex k).2).2) heq
  rw [selectedCands, selectedCands, Ranking.ranked_eq_of_perm hranks hbest]

/-! ### The hits of the second pass -/

/-- The rows of the scope as hits, without those below the floor. -/
def hitsOf (ops : F32Ops F) (g : Graph) (queryVector : List F) (q : VectorSearchQuery F)
    (rows : List (EmbeddingRow F)) : List (VectorSearchHit F) :=
  ((rows.filter (inScope q)).filterMap fun row => (rescore ops g queryVector row).toOption).filter
    fun h => !below q.minScore h.score

/-- A definition of this key is selected. -/
def isSelected (top : List (Cand F)) (key : String) : Bool := top.any fun c => decide (c.key = key)

/-- The hits of the definitions selected: of each the best one, and of these the first. -/
def foundHits (ops : F32Ops F) (g : Graph) (queryVector : List F) (q : VectorSearchQuery F)
    (rows : List (EmbeddingRow F)) : List (VectorSearchHit F) :=
  (Ranking.ranked VectorSearchHit.rank (GroupBest.best VectorSearchHit.key VectorSearchHit.rank
    ((hitsOf ops g queryVector q rows).filter fun h =>
      isSelected (selectedCands ops queryVector q rows) h.key)).rows).take q.limit

/-- What a search finds that scores every row of the scope with its floats. -/
def exactHits (ops : F32Ops F) (g : Graph) (queryVector : List F) (q : VectorSearchQuery F)
    (rows : List (EmbeddingRow F)) : List (VectorSearchHit F) :=
  (Ranking.ranked VectorSearchHit.rank (GroupBest.best VectorSearchHit.key VectorSearchHit.rank
    (hitsOf ops g queryVector q rows)).rows).take q.limit

variable {g : Graph}

theorem mem_hitsOf {h : VectorSearchHit F} : h ∈ hitsOf ops g queryVector q rows ↔ ∃ row ∈ rows,
    inScope q row = true ∧ rescore ops g queryVector row = .ok h ∧ below q.minScore h.score = false := by
  simp only [hitsOf, List.mem_filter, List.mem_filterMap_toOption, Bool.not_eq_true']
  constructor
  · rintro ⟨⟨row, ⟨hrow, hscope⟩, hread⟩, hfloor⟩
    exact ⟨row, hrow, hscope, hread, hfloor⟩
  · rintro ⟨row, hrow, hscope, hread, hfloor⟩
    exact ⟨⟨row, ⟨hrow, hscope⟩, hread⟩, hfloor⟩

omit [LinearOrder F] in
theorem fields_of_rescore {row : EmbeddingRow F} {h : VectorSearchHit F}
    (hread : rescore ops g queryVector row = .ok h) :
    h.embedding.id = row.id ∧
      definitionOf h.embedding.nodeId h.embedding.qualifiedName =
        definitionOf row.nodeId row.qualifiedName := by
  unfold rescore rowToVectorEmbedding at hread
  split at hread
  · cases hread
  · cases hdecode : decodeF32Le ops row.vector row.dim.toNat with
    | none =>
      rw [hdecode] at hread
      cases hread
    | some v =>
      rw [hdecode] at hread
      cases hread
      unfold canonicalizeVectorEmbedding
      dsimp only
      cases hnode : row.nodeId with
      | none => exact ⟨rfl, by simp⟩
      | some id =>
        cases hget : g.getNode id with
        | none => simp [hget, definitionOf]
        | some node => simp [hget, definitionOf]

def rowKey (row : EmbeddingRow F) : String := vectorDedupKey row.nodeId row.qualifiedName

omit [LinearOrder F] in
theorem key_of_rescore {row : EmbeddingRow F} {h : VectorSearchHit F}
    (hread : rescore ops g queryVector row = .ok h) : h.key = rowKey row :=
  vectorDedupKey_eq_iff.2 (fields_of_rescore hread).2

theorem hitRank_inj (hnd : (rows.map EmbeddingRow.id).Nodup) :
    ∀ a ∈ hitsOf ops g queryVector q rows, ∀ b ∈ hitsOf ops g queryVector q rows,
      a.rank = b.rank → a = b := by
  intro a ha b hb heq
  have hid : a.embedding.id = b.embedding.id :=
    congrArg (fun k => (ofLex (ofLex (ofLex k).2).2).2) heq
  obtain ⟨r, hr, -, hra, -⟩ := mem_hitsOf.1 ha
  obtain ⟨r', hr', -, hrb, -⟩ := mem_hitsOf.1 hb
  have hsame : r = r' := List.inj_on_of_nodup_map hnd hr hr'
    ((fields_of_rescore hra).1.symm.trans (hid.trans (fields_of_rescore hrb).1))
  rw [hsame, hrb] at hra
  exact (Except.ok.inj hra).symm

omit [LinearOrder F] in
/-- The second statement reads the rows of the definitions selected. -/
theorem ofSelected_eq (top : List (Cand F)) (row : EmbeddingRow F) :
    ofSelected (nodeIdsOf top) (qnamesWithoutNode top) row = isSelected top (rowKey row) := by
  rw [Bool.eq_iff_iff, isSelected, List.any_eq_true]
  have hkey : (∃ c ∈ top, decide (c.key = rowKey row) = true) ↔ ∃ c ∈ top,
      definitionOf c.nodeId c.qualifiedName = definitionOf row.nodeId row.qualifiedName := by
    simp only [decide_eq_true_eq, Cand.key, rowKey, vectorDedupKey_eq_iff]
  rw [hkey, ofSelected]
  cases row.nodeId with
  | some id =>
    simp only [List.contains_iff_mem, nodeIdsOf, List.mem_dedup, List.mem_insertionSort,
      List.mem_filterMap, definitionOf]
    refine exists_congr fun c => and_congr_right fun _ => ?_
    cases c.nodeId <;> simp
  | none =>
    simp only [List.contains_iff_mem, qnamesWithoutNode, List.mem_dedup, List.mem_insertionSort,
      List.mem_map, List.mem_filter, definitionOf]
    constructor
    · rintro ⟨c, ⟨hc, hnone⟩, hname⟩
      refine ⟨c, hc, ?_⟩
      rw [Option.isNone_iff_eq_none.1 hnone, hname]
    · rintro ⟨c, hc, hsame⟩
      cases hnode : c.nodeId with
      | some id =>
        rw [hnode] at hsame
        cases hsame
      | none =>
        rw [hnode] at hsame
        exact ⟨c, ⟨hc, by rw [hnode]; rfl⟩, Sum.inr.inj hsame⟩

omit [LinearOrder F] in
theorem length_keys_le (top : List (Cand F)) :
    (nodeIdsOf top).length + (qnamesWithoutNode top).length ≤ top.length := by
  have hsplit : (top.filterMap Cand.nodeId).length +
      (top.filter fun c => c.nodeId.isNone).length = top.length := by
    induction top with
    | nil => rfl
    | cons c top ih =>
      rw [List.filterMap_cons, List.filter_cons]
      cases c.nodeId <;> simp <;> omega
  have hids := (List.dedup_sublist ((top.filterMap Cand.nodeId).insertionSort (· ≤ ·))).length_le
  have hnames := (List.dedup_sublist
    (((top.filter fun c => c.nodeId.isNone).map Cand.qualifiedName).insertionSort (· ≤ ·))).length_le
  rw [List.length_insertionSort] at hids hnames
  rw [List.length_map] at hnames
  unfold nodeIdsOf qnamesWithoutNode
  omega

/-- **The second pass finds the hits of the definitions selected**, when nothing is wrong with their
rows. -/
theorem secondPass_eq_ok_iff {top : List (Cand F)} {found : List (VectorSearchHit F)} :
    ((rows.filter fun row =>
        inScope q row && ofSelected (nodeIdsOf top) (qnamesWithoutNode top) row).foldlM
      (fun best row => (rescore ops g queryVector row).map (keepHit q.minScore best))
      KeyedTable.empty).map (fun best =>
        (Ranking.ranked VectorSearchHit.rank best.rows).take q.limit) = .ok found ↔
    (∀ row ∈ rows, inScope q row = true → isSelected top (rowKey row) = true →
      ∃ h, rescore ops g queryVector row = .ok h) ∧
    found = (Ranking.ranked VectorSearchHit.rank (GroupBest.best VectorSearchHit.key VectorSearchHit.rank
      ((hitsOf ops g queryVector q rows).filter fun h => isSelected top h.key)).rows).take q.limit := by
  have hrows : (rows.filter fun row =>
      inScope q row && ofSelected (nodeIdsOf top) (qnamesWithoutNode top) row) =
      (rows.filter (inScope q)).filter fun row => isSelected top (rowKey row) := by
    rw [List.filter_filter]
    refine List.filter_congr fun row _ => ?_
    rw [ofSelected_eq, Bool.and_comm]
  have hloop : ∀ l : List (VectorSearchHit F), l.foldl (keepHit q.minScore) KeyedTable.empty =
      GroupBest.best VectorSearchHit.key VectorSearchHit.rank
        (l.filter fun h => !below q.minScore h.score) := by
    intro l
    rw [GroupBest.best, List.foldl_filter]
    refine congrArg (fun step => l.foldl step KeyedTable.empty) ?_
    funext best h
    unfold keepHit
    cases below q.minScore h.score <;> rfl
  have hselected : ((rows.filter (inScope q)).filter fun row => isSelected top (rowKey row)).filterMap
      (fun row => (rescore ops g queryVector row).toOption) =
      ((rows.filter (inScope q)).filterMap fun row => (rescore ops g queryVector row).toOption).filter
        fun h => isSelected top h.key := by
    refine List.filterMap_filter_comm (fun row h hread => ?_) _
    have hok : rescore ops g queryVector row = .ok h := by
      cases hrescore : rescore ops g queryVector row with
      | error e =>
        rw [hrescore] at hread
        cases hread
      | ok h' =>
        rw [hrescore] at hread
        cases hread
        rfl
    rw [key_of_rescore hok]
  have hread : (∀ row ∈ (rows.filter (inScope q)).filter (fun row => isSelected top (rowKey row)),
      ∃ h, rescore ops g queryVector row = .ok h) ↔
      ∀ row ∈ rows, inScope q row = true → isSelected top (rowKey row) = true →
        ∃ h, rescore ops g queryVector row = .ok h := by
    simp only [List.mem_filter, and_imp]
  rw [hrows, List.map_foldlM_map_eq_ok_iff, hread, hloop, hselected, hitsOf,
    List.filter_comm fun h : VectorSearchHit F => !below q.minScore h.score]

/-! ### The search -/

/-- Nothing is wrong with the query, nor with the rows that are read. -/
def Answers (ops : F32Ops F) (g : Graph) (queryVector : List F) (q : VectorSearchQuery F)
    (rows : List (EmbeddingRow F)) : Prop :=
  validateQueryVector ops queryVector = .ok () ∧ (q.limit ≠ 0 →
    (∀ row ∈ rows, inScope q row = true → ∃ s, scanScore ops queryVector row = .ok s) ∧
    (selectedCands ops queryVector q rows ≠ [] →
      8 + (nodeIdsOf (selectedCands ops queryVector q rows)).length +
        (qnamesWithoutNode (selectedCands ops queryVector q rows)).length ≤ sqlVariables ∧
      ∀ row ∈ rows, inScope q row = true →
        isSelected (selectedCands ops queryVector q rows) (rowKey row) = true →
        ∃ h, rescore ops g queryVector row = .ok h))

theorem best_hits_congr {rows' : List (EmbeddingRow F)} (hnd : (rows.map EmbeddingRow.id).Nodup)
    (hperm : rows.Perm rows') (p : String → Bool) :
    Ranking.ranked VectorSearchHit.rank (GroupBest.best VectorSearchHit.key VectorSearchHit.rank
        ((hitsOf ops g queryVector q rows).filter fun h => p h.key)).rows =
      Ranking.ranked VectorSearchHit.rank (GroupBest.best VectorSearchHit.key VectorSearchHit.rank
        ((hitsOf ops g queryVector q rows').filter fun h => p h.key)).rows := by
  have hinj : ∀ a ∈ (hitsOf ops g queryVector q rows).filter (fun h => p h.key),
      ∀ b ∈ (hitsOf ops g queryVector q rows).filter (fun h => p h.key), a.rank = b.rank → a = b :=
    fun a ha b hb => hitRank_inj hnd a (List.mem_filter.1 ha).1 b (List.mem_filter.1 hb).1
  refine Ranking.ranked_eq_of_perm (GroupBest.nodup_rank_best hinj) (GroupBest.perm_best hinj ?_)
  intro h
  simp only [List.mem_filter, mem_hitsOf, hperm.mem_iff]

/-- **What the search returns, and when.** -/
theorem vectorSearchExact_eq_ok_iff {scanned decoded : List (EmbeddingRow F)}
    (hnd : (rows.map EmbeddingRow.id).Nodup) (hscanned : rows.Perm scanned)
    (hdecoded : rows.Perm decoded) {found : List (VectorSearchHit F)} :
    vectorSearchExact ops g scanned decoded queryVector q = .ok found ↔
      Answers ops g queryVector q rows ∧ found = foundHits ops g queryVector q rows := by
  unfold vectorSearchExact Answers
  cases hvalid : validateQueryVector ops queryVector with
  | error e => simp
  | ok u =>
    dsimp only
    by_cases hlimit : q.limit = 0
    · rw [if_pos hlimit, foundHits, hlimit, List.take_zero]
      simp only [ne_eq, not_true_eq_false, false_implies, and_true, true_and, Except.ok.injEq]
      exact eq_comm
    · rw [if_neg hlimit]
      have hscan := @scan_eq_ok_iff F _ ops queryVector q scanned
      rw [← selectedCands_congr hnd hscanned] at hscan
      simp only [← hscanned.mem_iff] at hscan
      cases hpass : scan ops queryVector q scanned with
      | error e =>
        have hnot : ¬ ∀ row ∈ rows, inScope q row = true →
            ∃ s, scanScore ops queryVector row = .ok s := by
          intro hall
          have hok := hscan.2 ⟨hall, rfl⟩
          rw [hpass] at hok
          cases hok
        simp only [reduceCtorEq, false_iff]
        exact fun h => hnot (h.1.2 hlimit).1
      | ok top =>
        obtain ⟨hall, rfl⟩ := hscan.1 hpass
        simp only [true_and, hlimit, ne_eq, not_false_eq_true, forall_const]
        by_cases htop : selectedCands ops queryVector q rows = []
        · have hnil : foundHits ops g queryVector q rows = [] := by
            rw [foundHits, htop]
            simp [isSelected, GroupBest.best, Ranking.ranked]
          rw [hnil, htop]
          simp only [List.isEmpty_nil, if_true, Except.ok.injEq, not_true_eq_false,
            false_implies, and_true]
          exact ⟨fun h => ⟨hall, h.symm⟩, fun h => h.2.symm⟩
        · rw [if_neg (by simpa using htop)]
          by_cases hvars : sqlVariables < 8 + (nodeIdsOf (selectedCands ops queryVector q rows)).length +
              (qnamesWithoutNode (selectedCands ops queryVector q rows)).length
          · rw [if_pos hvars]
            simp only [reduceCtorEq, false_iff]
            rintro ⟨⟨-, h⟩, -⟩
            exact absurd (h htop).1 (Nat.not_le.2 hvars)
          · rw [if_neg hvars, secondPass_eq_ok_iff, ← best_hits_congr hnd hdecoded]
            simp only [← hdecoded.mem_iff, htop, not_false_eq_true, forall_const]
            constructor
            · rintro ⟨hread, hfound⟩
              exact ⟨⟨hall, Nat.not_lt.1 hvars, hread⟩, hfound⟩
            · rintro ⟨⟨-, -, hread⟩, hfound⟩
              exact ⟨hread, hfound⟩

end VectorStore

end Greppy
