/-
**What an exact search finds.**

The answer of `vector_search_exact` has a definition at most once, with the best of its rows, in the order
of the exact scores, and has no more than the limit.  Of the definitions that the first pass selects it
has the first ones.  So it is what a search finds that scores every row exactly, as long as the first pass
selects all that this search would find.

The first pass selects `8 * limit + 32` definitions by scores that are off by a little; a definition may
have a good score and rank behind so many others.
-/

import Mathlib.Data.Rat.Floor
import Mathlib.Data.Rat.Sqrt
import Greppy.VectorSearch

set_option autoImplicit false

namespace Greppy

/-! ### Definitions -/

def EmbeddingRow.definition {F : Type} (row : EmbeddingRow F) : ℕ ⊕ String :=
  definitionOf row.nodeId row.qualifiedName

def VectorSearchHit.definition {F : Type} (h : VectorSearchHit F) : ℕ ⊕ String :=
  definitionOf h.embedding.nodeId h.embedding.qualifiedName

namespace VectorStore

variable {F : Type} [LinearOrder F] (ops : F32Ops F)

/-- The definitions that the first pass selects. -/
def Selected (queryVector : List F) (q : VectorSearchQuery F) (rows : List (EmbeddingRow F))
    (d : ℕ ⊕ String) : Prop :=
  ∃ c ∈ selectedCands ops queryVector q rows, definitionOf c.nodeId c.qualifiedName = d

/-- What the search promises of an answer. -/
structure SearchPromises (store : VectorStore F) (queryVector : List F) (q : VectorSearchQuery F)
    (found : List (VectorSearchHit F)) : Prop where
  /-- No definition is there twice. -/
  once : (found.map VectorSearchHit.definition).Nodup
  /-- A hit is a row of the scope whose score is not below the floor, and no other row of its definition
  comes before it. -/
  best : ∀ h ∈ found, ∃ row ∈ store.embeddings.rows, inScope q row = true ∧
    rescore ops store.graph queryVector row = .ok h ∧ (∀ m ∈ q.minScore, m ≤ h.score) ∧
    ∀ row' ∈ store.embeddings.rows, inScope q row' = true → row'.definition = row.definition →
      ∀ h', rescore ops store.graph queryVector row' = .ok h' → h.rank ≤ h'.rank
  /-- A definition that was selected is left out because of the limit, and comes after all that is
  there. -/
  omitted : ∀ row ∈ store.embeddings.rows, inScope q row = true →
    Selected ops queryVector q store.embeddings.rows row.definition →
    ∀ h, rescore ops store.graph queryVector row = .ok h → (∀ m ∈ q.minScore, m ≤ h.score) →
      (∀ h' ∈ found, h'.definition ≠ row.definition) →
      found.length = q.limit ∧ ∀ h' ∈ found, h'.rank < h.rank
  sorted : found.Pairwise fun a b => a.rank < b.rank
  few : found.length ≤ q.limit
  /-- The answer is the exact one when all of the exact one was selected. -/
  exact : found = exactHits ops store.graph queryVector q store.embeddings.rows ↔
    ∀ h ∈ exactHits ops store.graph queryVector q store.embeddings.rows,
      Selected ops queryVector q store.embeddings.rows h.definition

/-! ### Rows that are well formed -/

/-- The row of a vector with as many components as the query has. -/
structure WellFormed (n : ℕ) (row : EmbeddingRow F) : Prop where
  dim : row.dim = n
  lt : row.dim < 2 ^ 63
  norm : ops.ofInt 0 < row.vectorNorm ∧ ops.isFinite row.vectorNorm = true
  vector : row.vector.length = n * 4
  /-- An `i8` copy has a scale. -/
  i8 : (row.i8Scale = none ∧ row.vectorI8 = none) ∨
    (row.i8Scale.isSome ∧ ∃ bytes, row.vectorI8 = some bytes ∧ bytes.length = n)

variable {ops} {queryVector : List F} {q : VectorSearchQuery F} {row : EmbeddingRow F}

theorem WellFormed.scanScore (h : WellFormed ops queryVector.length row) :
    ∃ s, scanScore ops queryVector row = .ok s := by
  have hlt := h.lt
  have hdim : asU64 row.dim = queryVector.length := by
    rw [h.dim] at hlt ⊢
    unfold asU64
    omega
  have hnorm : ¬ (row.vectorNorm ≤ ops.ofInt 0 ∨ (!ops.isFinite row.vectorNorm) = true) := by
    simp [h.norm.1, h.norm.2]
  unfold VectorStore.scanScore
  dsimp only
  rw [if_neg (not_not.2 hdim), if_neg hnorm]
  rcases h.i8 with ⟨hscale, hcopy⟩ | ⟨hscale, bytes, hcopy, hlen⟩
  · rw [hscale, hcopy, decodeF32Le, Option.getD_none, if_neg (not_not.2 (by rw [h.vector, hdim]))]
    exact ⟨_, rfl⟩
  · obtain ⟨scale, hscale⟩ := Option.isSome_iff_exists.1 hscale
    rw [hscale, hcopy, Option.getD_some]
    dsimp only
    rw [if_neg (not_not.2 (hlen.trans hdim.symm))]
    exact ⟨_, rfl⟩

theorem WellFormed.rescore (h : WellFormed ops queryVector.length row) (g : Graph) :
    ∃ hit, rescore ops g queryVector row = .ok hit := by
  have hdim := h.dim
  unfold VectorStore.rescore rowToVectorEmbedding
  rw [if_neg (by omega), decodeF32Le, if_neg (not_not.2 (by rw [h.vector, hdim, Int.toNat_natCast]))]
  exact ⟨_, rfl⟩

/-! ### The promises -/

theorem below_eq_false_iff {floor : Option F} {score : F} :
    below floor score = false ↔ ∀ m ∈ floor, m ≤ score := by
  cases floor <;> simp [below]

omit [LinearOrder F] in
theorem isSelected_iff {top : List (Cand F)} {nodeId : Option ℕ} {name : String} :
    isSelected top (vectorDedupKey nodeId name) = true ↔
      ∃ c ∈ top, definitionOf c.nodeId c.qualifiedName = definitionOf nodeId name := by
  simp only [isSelected, List.any_eq_true, decide_eq_true_eq, Cand.key, vectorDedupKey_eq_iff]

variable {store : VectorStore F}

theorem promises_foundHits : SearchPromises ops store queryVector q
    (foundHits ops store.graph queryVector q store.embeddings.rows) := by
  have hinj : ∀ a ∈ hitsOf ops store.graph queryVector q store.embeddings.rows,
      ∀ b ∈ hitsOf ops store.graph queryVector q store.embeddings.rows, a.rank = b.rank → a = b :=
    hitRank_inj store.embeddings.keys_nodup
  set selected := (hitsOf ops store.graph queryVector q store.embeddings.rows).filter fun h =>
    isSelected (selectedCands ops queryVector q store.embeddings.rows) h.key with hselected
  have hinj' : ∀ a ∈ selected, ∀ b ∈ selected, a.rank = b.rank → a = b := fun a ha b hb =>
    hinj a (List.mem_filter.1 ha).1 b (List.mem_filter.1 hb).1
  set kept := (GroupBest.best VectorSearchHit.key VectorSearchHit.rank selected).rows with hkept
  have hfound : foundHits ops store.graph queryVector q store.embeddings.rows =
      (Ranking.ranked VectorSearchHit.rank kept).take q.limit := rfl
  have hmem : ∀ h ∈ foundHits ops store.graph queryVector q store.embeddings.rows, h ∈ kept :=
    fun h hh => (Ranking.mem_ranked _ _).1 (List.mem_of_mem_take (hfound ▸ hh))
  -- what is selected and not below the floor is a hit
  have hhit : ∀ row ∈ store.embeddings.rows, inScope q row = true →
      Selected ops queryVector q store.embeddings.rows row.definition →
      ∀ h, rescore ops store.graph queryVector row = .ok h → (∀ m ∈ q.minScore, m ≤ h.score) →
        h ∈ selected := by
    intro row hrow hscope hsel h hread hfloor
    refine List.mem_filter.2 ⟨mem_hitsOf.2 ⟨row, hrow, hscope, hread, below_eq_false_iff.2 hfloor⟩, ?_⟩
    rw [key_of_rescore hread, rowKey, isSelected_iff]
    exact hsel
  refine ⟨?_, ?_, ?_, ?_, ?_, ?_⟩
  · -- the keys are those of a table
    have hkeys : (foundHits ops store.graph queryVector q store.embeddings.rows).Pairwise
        fun a b => a.key ≠ b.key := by
      have hnodup : ((Ranking.ranked VectorSearchHit.rank kept).map VectorSearchHit.key).Nodup :=
        (((Ranking.perm_ranked _ kept).map _).nodup_iff).2 (KeyedTable.keys_nodup _)
      rw [hfound]
      exact (List.pairwise_map.1 hnodup).sublist (List.take_sublist _ _)
    refine List.pairwise_map.2 (hkeys.imp fun hne heq => hne ?_)
    exact vectorDedupKey_eq_iff.2 heq
  · intro h hh
    obtain ⟨hsel, hbest⟩ := (GroupBest.mem_best hinj').1 (hmem h hh)
    obtain ⟨hhits, hkey⟩ := List.mem_filter.1 hsel
    obtain ⟨row, hrow, hscope, hread, hfloor⟩ := mem_hitsOf.1 hhits
    refine ⟨row, hrow, hscope, hread, below_eq_false_iff.1 hfloor, ?_⟩
    intro row' hrow' hscope' hsame h' hread'
    have hdef : h'.key = h.key := by
      rw [key_of_rescore hread, key_of_rescore hread']
      exact vectorDedupKey_eq_iff.2 hsame
    cases hfloor' : below q.minScore h'.score with
    | false =>
      refine hbest h' (List.mem_filter.2 ⟨mem_hitsOf.2 ⟨row', hrow', hscope', hread', hfloor'⟩, ?_⟩) hdef
      rw [hdef]
      exact hkey
    | true =>
      -- a row below the floor has a smaller score
      obtain ⟨m, hm, hlow⟩ := Option.any_eq_true _ _ |>.1 hfloor'
      have hlt : h'.score < h.score :=
        (of_decide_eq_true hlow).trans_le (below_eq_false_iff.1 hfloor m hm)
      exact (Prod.Lex.toLex_lt_toLex.2 (.inl (OrderDual.toDual_lt_toDual.2 hlt))).le
  · intro row hrow hscope hsel h hread hfloor hout
    have hin := hhit row hrow hscope hsel h hread hfloor
    obtain ⟨b, hb, hbkey⟩ : ∃ b ∈ kept, b.key = h.key := GroupBest.exists_mem_best hin
    have hle : b.rank ≤ h.rank := ((GroupBest.mem_best hinj').1 hb).2 h hin hbkey.symm
    have hbdef : b.definition = row.definition := by
      rw [key_of_rescore hread] at hbkey
      exact vectorDedupKey_eq_iff.1 hbkey
    have hbout : b ∉ (Ranking.ranked VectorSearchHit.rank kept).take q.limit := fun hbin =>
      hout b hbin hbdef
    refine ⟨?_, fun h' hh' => ?_⟩
    · rw [hfound, List.length_take, Ranking.length_ranked]
      by_contra hshort
      refine hbout ?_
      rw [List.take_of_length_le (by rw [Ranking.length_ranked]; omega)]
      exact (Ranking.mem_ranked _ _).2 hb
    · exact (Ranking.lt_of_mem_take (GroupBest.nodup_rank_best hinj') hh' hb hbout).trans_le hle
  · exact (Ranking.strict_ranked (GroupBest.nodup_rank_best hinj')).sublist (List.take_sublist _ _)
  · exact List.length_take_le _ _
  · rw [foundHits, exactHits, GroupBest.take_best_filter_eq_iff hinj]
    exact forall₂_congr fun h _ => isSelected_iff

end VectorStore

open VectorStore in
/-- **The search keeps its promises.**  In whatever order either pass reads the rows, the answer is the
same, and there is one when the query and the rows of the scope are well formed and the second statement
does not have too many variables. -/
theorem vectorSearchExact_spec {F : Type} [LinearOrder F] (ops : F32Ops F) (store : VectorStore F)
    (queryVector : List F) (q : VectorSearchQuery F) (scanned decoded : List (EmbeddingRow F))
    (hscanned : store.embeddings.rows.Perm scanned) (hdecoded : store.embeddings.rows.Perm decoded) :
    (∀ found, vectorSearchExact ops store.graph scanned decoded queryVector q = .ok found →
      SearchPromises ops store queryVector q found ∧
      ∀ scanned' decoded', store.embeddings.rows.Perm scanned' → store.embeddings.rows.Perm decoded' →
        vectorSearchExact ops store.graph scanned' decoded' queryVector q = .ok found) ∧
    (validateQueryVector ops queryVector = .ok () →
      (∀ row ∈ store.embeddings.rows, inScope q row = true → WellFormed ops queryVector.length row) →
      (selectedCands ops queryVector q store.embeddings.rows).length ≤ 32758 →
      ∃ found, vectorSearchExact ops store.graph scanned decoded queryVector q = .ok found) := by
  constructor
  · intro found hfound
    obtain ⟨hanswers, rfl⟩ :=
      (vectorSearchExact_eq_ok_iff store.embeddings.keys_nodup hscanned hdecoded).1 hfound
    refine ⟨promises_foundHits, fun scanned' decoded' hscanned' hdecoded' => ?_⟩
    exact (vectorSearchExact_eq_ok_iff store.embeddings.keys_nodup hscanned' hdecoded').2
      ⟨hanswers, rfl⟩
  · intro hquery hrows hfew
    refine ⟨_, (vectorSearchExact_eq_ok_iff store.embeddings.keys_nodup hscanned hdecoded).2
      ⟨⟨hquery, fun _ => ⟨?_, fun _ => ⟨?_, ?_⟩⟩⟩, rfl⟩⟩
    · exact fun row hrow hscope => (hrows row hrow hscope).scanScore
    · have hkeys := length_keys_le (selectedCands ops queryVector q store.embeddings.rows)
      unfold sqlVariables
      omega
    · exact fun row hrow hscope _ => (hrows row hrow hscope).rescore store.graph

/-! ### A definition that is left out -/

/-- `f32` arithmetic without rounding. -/
def rationalF32 : F32Ops ℚ where
  ofInt z := z
  ofBits bits :=
    let exponent : ℕ := bits.toNat / 2 ^ 23 % 2 ^ 8
    let mantissa : ℕ := bits.toNat % 2 ^ 23
    let size : ℚ := if exponent = 0 then mantissa / 2 ^ 149
      else ((2 ^ 23 + mantissa : ℕ) : ℚ) * 2 ^ exponent / 2 ^ 150
    if bits.toNat < 2 ^ 31 then size else -size
  isFinite _ := true
  add x y := x + y
  sub x y := x - y
  mul x y := x * y
  div x y := x / y
  mulAdd x y z := x * y + z
  sqrt x := Rat.sqrt x
  abs x := |x|
  hundredth := 1 / 100
  toI8 x :=
    let rounded := if 0 ≤ x then ⌊x + 1 / 2⌋ else -⌊-x + 1 / 2⌋
    (Int8.ofInt (max (-127) (min 127 rounded))).toUInt8

/-- The row of a vector of two components, with its copy. -/
def chunkRow (id : ℕ) (name : String) (bits : List UInt32) : EmbeddingRow ℚ :=
  let v := bits.map rationalF32.ofBits
  let (copy, scale) := quantizeI8 rationalF32 v
  { project := "p", modelId := "m", promptVersion := "v", task := "t", nodeId := none, chunkIdx := 0,
    qualifiedName := name, filePath := "a.rs", startLine := 1, endLine := 2, contentSha256 := name,
    graphGeneration := 1, vector := floatBytes bits, id := id, dim := v.length,
    vectorNorm := vectorNorm rationalF32 v, createdAt := "", vectorI8 := some copy, i8Scale := some scale }

/-- Forty times `(69, 260)`, and `(60, 221)`. -/
def crowdedRows : List (EmbeddingRow ℚ) :=
  (List.range 40).map (fun k => chunkRow k (String.singleton (Char.ofNat (65 + k)))
    [0x428A0000, 0x43820000]) ++ [chunkRow 40 "~" [0x42700000, 0x435D0000]]

def crowdedStore : VectorStore ℚ := ⟨Graph.empty, ⟨crowdedRows, by decide +kernel⟩⟩

/-- The best one, from the scope of all rows. -/
def crowdedQuery : VectorSearchQuery ℚ where
  project := "p"
  modelId := "m"
  promptVersion := "v"
  task := "t"
  graphGeneration := some 1
  filePath := none
  limit := 1
  minScore := none

def namesAndScores (found : List (VectorSearchHit ℚ)) : List (String × ℚ) :=
  found.map fun h => (h.embedding.qualifiedName, h.score)

open VectorStore in
/-- The first pass scores forty definitions a little too high, and so the one with the best score is not
selected. -/
theorem vectorSearchExact_misses :
    (vectorSearchExact rationalF32 crowdedStore.graph crowdedRows crowdedRows [1, 0]
      crowdedQuery).toOption.map namesAndScores = some [("A", 69 / 269)] ∧
    namesAndScores (exactHits rationalF32 crowdedStore.graph [1, 0] crowdedQuery crowdedRows) =
      [("~", 60 / 229)] := by
  decide +kernel

open VectorStore in
/-- The first pass may read the rows from the last one on. -/
theorem vectorSearchExact_spec_crowded :
    ∃ found, vectorSearchExact rationalF32 crowdedStore.graph crowdedRows.reverse crowdedRows [1, 0]
        crowdedQuery = .ok found ∧
      namesAndScores found = [("A", 69 / 269)] ∧
      SearchPromises rationalF32 crowdedStore [1, 0] crowdedQuery found := by
  have hvalue : (vectorSearchExact rationalF32 crowdedStore.graph crowdedRows.reverse crowdedRows [1, 0]
      crowdedQuery).toOption.map namesAndScores = some [("A", 69 / 269)] := by
    decide +kernel
  cases hsearch : vectorSearchExact rationalF32 crowdedStore.graph crowdedRows.reverse crowdedRows
    [1, 0] crowdedQuery with
  | error e =>
    rw [hsearch] at hvalue
    cases hvalue
  | ok found =>
    rw [hsearch] at hvalue
    refine ⟨found, rfl, Option.some_inj.1 hvalue, ?_⟩
    exact ((vectorSearchExact_spec rationalF32 crowdedStore [1, 0] crowdedQuery crowdedRows.reverse
      crowdedRows (List.reverse_perm crowdedRows).symm (List.Perm.refl _)).1 found hsearch).1

end Greppy
