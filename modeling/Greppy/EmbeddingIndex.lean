/-
**The embedding pass.**

The pass goes through the nodes of a project, page by page, cuts the source of each definition into
documents, and leaves a row in `vector_embeddings` for each of them.  A document whose row is there from
an earlier generation only gets the new generation.  The others are collected, and embedded in batches of
similar length when enough have come together.  A batch that the model fails on is dropped and counted;
the pass goes on.

What the pass needs from outside is the model: its tokenizer, which decides where a span is cut, and its
vectors, which come or do not come.  `count_code_embedding_documents_for_project` cuts the same spans.
-/

import Greppy.CacheManifest
import Greppy.GraphEdges
import Greppy.Usize
import Greppy.WorkspaceGeneration

set_option autoImplicit false

namespace Greppy

/-! ### The nodes of a project -/

/-- `list_nodes` without filters, from an offset on.  No two nodes of a project share a qualified name, so
that the order by `id` does not come into it. -/
def Graph.listNodesPage (g : Graph) (project : String) (offset limit : ℕ) : List Node :=
  Graph.sqlLimit limit ((g.projectRows project).drop offset)

def nodePageSize : ℕ := 1000

/-- The pages from an offset on, until one is empty. -/
def Graph.pagesFrom (g : Graph) (project : String) : ℕ → ℕ → List Node
  | 0, _ => []
  | fuel + 1, offset =>
    match g.listNodesPage project offset nodePageSize with
    | [] => []
    | page => page ++ g.pagesFrom project fuel (offset + page.length)

/-- The nodes that the pass goes through.  It does not write to them, and so the pages fit together. -/
def Graph.pagedNodes (g : Graph) (project : String) : List Node :=
  g.pagesFrom project ((g.projectRows project).length + 1) 0

theorem Graph.pagesFrom_eq (g : Graph) (project : String) {fuel offset : ℕ}
    (h : (g.projectRows project).length < fuel + offset) :
    g.pagesFrom project fuel offset = (g.projectRows project).drop offset := by
  induction fuel generalizing offset with
  | zero =>
    rw [List.drop_eq_nil_of_le (by omega)]
    rfl
  | succ fuel ih =>
    have hpage : g.listNodesPage project offset nodePageSize =
        ((g.projectRows project).drop offset).take nodePageSize :=
      Graph.sqlLimit_eq_take (by decide) _
    have hprefix := List.take_prefix nodePageSize ((g.projectRows project).drop offset)
    rw [Graph.pagesFrom]
    rw [← hpage] at hprefix
    cases hcase : g.listNodesPage project offset nodePageSize with
    | nil =>
      -- a page of positive size is only empty behind the last node
      rw [hpage, List.take_eq_nil_iff] at hcase
      rcases hcase with hzero | hnil
      · cases hzero
      · exact hnil.symm
    | cons n rest =>
      rw [hcase, List.prefix_iff_eq_append, List.drop_drop] at hprefix
      have hlater := @ih (offset + (n :: rest).length) (by rw [List.length_cons]; omega)
      simp only [hlater, hprefix]

/-- **The pages are all the nodes.** -/
theorem Graph.pagedNodes_eq (g : Graph) (project : String) :
    g.pagedNodes project = g.projectRows project := by
  rw [Graph.pagedNodes, g.pagesFrom_eq project (by omega), List.drop_zero]

/-! ### Documents -/

structure EmbeddingChunk where
  chunkIdx : ℤ
  startLine : ℤ
  endLine : ℤ
  text : String
deriving DecidableEq

/-- `CodeEmbeddingProvider`, without its vectors. -/
structure CodeEmbeddingProvider where
  modelId : String
  promptVersion : String
  taskProfile : String
  maxInputTokens : ℕ
  documentTokenLen : String → String → Except String ℕ

/-- What cuts a span, as `embedding_chunks` does: the source, the lines of the span, the title, the
provider and `max_bytes`. -/
abbrev Chunker : Type :=
  String → ℤ → ℤ → String → CodeEmbeddingProvider → ℕ → Except String (List EmbeddingChunk)

def isEmbeddingCandidateLabel (label : String) : Bool :=
  ["Function", "Method", "Class", "Interface", "Type", "Enum", "Struct", "Trait", "TypeAlias"].contains
    label

def spanHasOverlongLine (source : String) (startLine endLine : ℤ) (maxLineBytes : ℕ) : Bool :=
  if startLine ≤ 0 then false
  else
    let start := startLine.toNat - 1
    let stop := if startLine ≤ endLine then endLine.toNat - 1 else start
    ((Text.lines source.toList).drop start).take (stop + 1 - start) |>.any fun line =>
      decide (maxLineBytes < (Utf8.encode line).length)

def documentTitle (n : Node) : String :=
  n.filePath ++ ":" ++ toString n.startLine ++ "-" ++ toString n.endLine ++ " " ++ n.qualifiedName

/-- The source of a node, or why there is none to embed. -/
inductive NodeSource where
  | nonDefinition
  | missingFile
  | oversize
  | source (text : String)

/-- What is looked at before a node is cut: its label, its file, which may be missing or not be read, and
the length of its lines. -/
def nodeSource (tree : String → Option String) (n : Node) : NodeSource :=
  if isEmbeddingCandidateLabel n.label then
    match tree n.filePath with
    | none => .missingFile
    | some text => if spanHasOverlongLine text n.startLine n.endLine 2048 then .oversize else .source text
  else .nonDefinition

structure EmbeddingIndexOptions where
  graphGeneration : ℕ
  maxSpanBytes : ℕ
  pruneBeforeGeneration : Bool

def EmbeddingIndexOptions.forGeneration (graphGeneration : ℕ) : EmbeddingIndexOptions where
  graphGeneration := graphGeneration
  maxSpanBytes := 32 * 1024
  pruneBeforeGeneration := true

section Pass

variable {V : Type} (embeddingChunks : Chunker) (sha256Hex : String → String)
  (g : Graph) (tree : String → Option String) (project : String) (p : CodeEmbeddingProvider)
  (options : EmbeddingIndexOptions)

def chunksOfNode (n : Node) (text : String) : Except String (List EmbeddingChunk) :=
  embeddingChunks text n.startLine n.endLine (documentTitle n) p options.maxSpanBytes

/-- `count_code_embedding_documents_for_project`. -/
def countCodeEmbeddingDocuments : Except String ℕ :=
  (g.pagedNodes project).foldlM
    (fun total n =>
      match nodeSource tree n with
      | .source text => (chunksOfNode embeddingChunks p options n text).map fun chunks =>
        usizeSaturatingAdd total chunks.length
      | _ => .ok total)
    0

structure CodeDocument where
  node : Node
  chunk : EmbeddingChunk

/-- The documents of a node.  Where a span cannot be cut, both the count and the pass fail. -/
def nodeDocuments (n : Node) : List CodeDocument :=
  match nodeSource tree n with
  | .source text =>
    match chunksOfNode embeddingChunks p options n text with
    | .ok chunks => chunks.map fun chunk => ⟨n, chunk⟩
    | .error _ => []
  | _ => []

def codeDocuments : List CodeDocument :=
  (g.projectRows project).flatMap (nodeDocuments embeddingChunks tree p options)

variable {embeddingChunks tree p options}

theorem nodeDocuments_of_source {n : Node} {text : String} {chunks : List EmbeddingChunk}
    (hsource : nodeSource tree n = .source text)
    (hchunks : chunksOfNode embeddingChunks p options n text = .ok chunks) :
    nodeDocuments embeddingChunks tree p options n = chunks.map fun chunk => ⟨n, chunk⟩ := by
  simp only [nodeDocuments, hsource, hchunks]

theorem nodeDocuments_of_no_source {n : Node} (h : ∀ text, nodeSource tree n ≠ .source text) :
    nodeDocuments embeddingChunks tree p options n = [] := by
  unfold nodeDocuments
  cases hsource : nodeSource tree n with
  | source text => exact absurd hsource (h text)
  | nonDefinition => rfl
  | missingFile => rfl
  | oversize => rfl

/-- **What is counted are the documents**, as long as a `usize` can count them. -/
theorem countCodeEmbeddingDocuments_eq {total : ℕ}
    (h : countCodeEmbeddingDocuments embeddingChunks g tree project p options = .ok total) :
    total = min (codeDocuments embeddingChunks g tree project p options).length (2 ^ 64 - 1) := by
  rw [countCodeEmbeddingDocuments, Graph.pagedNodes_eq] at h
  refine List.foldlM_ok_induction (P := fun done total =>
    total = min (done.flatMap (nodeDocuments embeddingChunks tree p options)).length (2 ^ 64 - 1))
    ?_ (by simp) h
  intro done n total total' htotal hstep
  rw [List.flatMap_append, List.length_append, List.flatMap_singleton]
  cases hsource : nodeSource tree n with
  | source text =>
    simp only [hsource] at hstep
    obtain ⟨chunks, hchunks, rfl⟩ := Except.map_eq_ok_iff.1 hstep
    simp only [nodeDocuments_of_source hsource hchunks, List.length_map, usizeSaturatingAdd]
    omega
  | nonDefinition | missingFile | oversize =>
    simp only [hsource] at hstep
    cases hstep
    rw [nodeDocuments_of_no_source (by simp [hsource]), htotal, List.length_nil, Nat.add_zero]

/-! ### Vectors -/

/-- `NewVectorEmbedding`, as it is kept in a row of `vector_embeddings`. -/
structure VectorRow (V : Type) where
  project : String
  modelId : String
  promptVersion : String
  task : String
  nodeId : Option ℕ
  chunkIdx : ℤ
  qualifiedName : String
  filePath : String
  startLine : ℤ
  endLine : ℤ
  contentSha256 : String
  graphGeneration : ℕ
  vector : V

/-- The unique index of `vector_embeddings`. -/
structure VectorKey where
  project : String
  modelId : String
  promptVersion : String
  task : String
  qualifiedName : String
  chunkIdx : ℤ
  contentSha256 : String
deriving DecidableEq

def VectorRow.key (row : VectorRow V) : VectorKey where
  project := row.project
  modelId := row.modelId
  promptVersion := row.promptVersion
  task := row.task
  qualifiedName := row.qualifiedName
  chunkIdx := row.chunkIdx
  contentSha256 := row.contentSha256

/-- The table `vector_embeddings`. -/
abbrev VectorTable (V : Type) : Type := KeyedTable (VectorRow V) VectorRow.key

/-- `str::trim` leaves nothing. -/
def isBlank (s : String) : Bool := (trimWhitespace s.toList).isEmpty

/-- `validate_embedding_input`, with the check of the vector as a parameter. -/
def validateEmbeddingInput (validateQueryVector : V → Except String Unit) (row : VectorRow V) :
    Except String Unit :=
  if isBlank row.project then .error "vector embedding project must not be empty"
  else if isBlank row.modelId then .error "vector embedding model_id must not be empty"
  else if isBlank row.promptVersion then .error "vector embedding prompt_version must not be empty"
  else if isBlank row.task then .error "vector embedding task must not be empty"
  else if isBlank row.qualifiedName then .error "vector embedding qualified_name must not be empty"
  else if row.chunkIdx < 0 then .error "vector embedding chunk_idx must be non-negative"
  else if !isHexId 64 row.contentSha256.toList then
    .error "vector embedding content_sha256 must be a 64-character hex digest"
  else validateQueryVector row.vector

/-- `upsert_vector_embedding`: every column outside the key is overwritten. -/
def upsertVectorEmbedding (validateQueryVector : V → Except String Unit) (row : VectorRow V)
    (t : VectorTable V) : Except String (VectorTable V) :=
  (validateEmbeddingInput validateQueryVector row).map fun _ => t.upsert row

/-- The rows of other projects, and of this generation or a later one. -/
def isCurrentRow (project : String) (generation : ℕ) (row : VectorRow V) : Bool :=
  decide (row.project ≠ project ∨ asI64 generation ≤ asI64 row.graphGeneration)

/-- `prune_vector_embeddings_before_generation`: the number of rows deleted, and the table. -/
def pruneVectorEmbeddingsBeforeGeneration (project : String) (generation : ℕ) (t : VectorTable V) :
    ℕ × VectorTable V :=
  let kept := t.filter (isCurrentRow project generation)
  (t.rows.length - kept.rows.length, kept)

def documentRow (p : CodeEmbeddingProvider) (generation : ℕ) (d : CodeDocument) (vector : V) :
    VectorRow V where
  project := d.node.project
  modelId := p.modelId
  promptVersion := p.promptVersion
  task := p.taskProfile
  nodeId := some d.node.id
  chunkIdx := d.chunk.chunkIdx
  qualifiedName := d.node.qualifiedName
  filePath := d.node.filePath
  startLine := d.chunk.startLine
  endLine := d.chunk.endLine
  contentSha256 := sha256Hex d.chunk.text
  graphGeneration := generation
  vector := vector

/-- `ReusableVectorEmbeddingKey`. -/
def documentKey (p : CodeEmbeddingProvider) (project : String) (d : CodeDocument) : VectorKey where
  project := project
  modelId := p.modelId
  promptVersion := p.promptVersion
  task := p.taskProfile
  qualifiedName := d.node.qualifiedName
  chunkIdx := d.chunk.chunkIdx
  contentSha256 := sha256Hex d.chunk.text

/-- A document has its row, of a generation. -/
def HasVector (p : CodeEmbeddingProvider) (generation : ℕ) (t : VectorTable V) (d : CodeDocument) :
    Prop :=
  ∃ row, t.find? (documentKey sha256Hex p d.node.project d) = some row ∧
    row.graphGeneration = generation

/-! ### Batches -/

/-- Whether a batch, of lengths in ascending order, is padded by at most an eighth of its tokens, and
its longest document is at most half as long again as its shortest. -/
def fitsBatch (lengths : List ℕ) : Bool :=
  let shortest := max (lengths.headD 0) 1
  let longest := max (lengths.getLastD 0) 1
  let actualTokens := lengths.foldlM (fun sum length => usizeAdd sum (max length 1)) 0
  let paddedTokens := usizeMul longest lengths.length
  let allowedPadding := actualTokens.bind fun actual => usizeAdd actual (actual / 8)
  let allowedRatio := (usizeAdd shortest (shortest / 2)).any fun limit => decide (longest ≤ limit)
  (match paddedTokens, allowedPadding with
    | some padded, some allowed => decide (padded ≤ allowed)
    | _, _ => false) && allowedRatio

/-- The size of the next batch, at most `size`: the last document leaves until the batch fits. -/
def shrinkBatch (lengths : List ℕ) : ℕ → ℕ
  | size + 2 => if fitsBatch (lengths.take (size + 2)) then size + 2 else shrinkBatch lengths (size + 1)
  | size => size

/-- The batches of the documents that are left; every batch takes one at least. -/
def planBatchesFrom (maxBatchSize : ℕ) : ℕ → List ℕ → List ℕ
  | 0, _ => []
  | _, [] => []
  | fuel + 1, lengths =>
    let size := shrinkBatch lengths (min maxBatchSize lengths.length)
    size :: planBatchesFrom maxBatchSize fuel (lengths.drop size)

def planAdaptiveBatches (sortedLengths : List ℕ) (maxBatchSize : ℕ) : List ℕ :=
  planBatchesFrom (max maxBatchSize 1) sortedLengths.length sortedLengths

theorem shrinkBatch_le (lengths : List ℕ) (size : ℕ) : shrinkBatch lengths size ≤ size := by
  induction size using shrinkBatch.induct lengths with
  | case1 size hfits => rw [shrinkBatch, if_pos hfits]
  | case2 size hfits ih =>
    rw [shrinkBatch, if_neg hfits]
    omega
  | case3 size hsmall => rw [shrinkBatch.eq_2 lengths size hsmall]

theorem shrinkBatch_pos (lengths : List ℕ) {size : ℕ} (h : 0 < size) :
    0 < shrinkBatch lengths size := by
  induction size using shrinkBatch.induct lengths with
  | case1 size hfits =>
    rw [shrinkBatch, if_pos hfits]
    omega
  | case2 size hfits ih =>
    rw [shrinkBatch, if_neg hfits]
    exact ih (by omega)
  | case3 size hsmall => rwa [shrinkBatch.eq_2 lengths size hsmall]

theorem sum_planBatchesFrom {maxBatchSize : ℕ} (hmax : 0 < maxBatchSize) {fuel : ℕ}
    {lengths : List ℕ} (h : lengths.length ≤ fuel) :
    (planBatchesFrom maxBatchSize fuel lengths).sum = lengths.length := by
  induction fuel generalizing lengths with
  | zero =>
    rw [Nat.le_zero.1 h]
    rfl
  | succ fuel ih =>
    cases lengths with
    | nil => rfl
    | cons l rest =>
      have hle := shrinkBatch_le (l :: rest) (min maxBatchSize (l :: rest).length)
      have hpos : 0 < shrinkBatch (l :: rest) (min maxBatchSize (l :: rest).length) :=
        shrinkBatch_pos _ (by rw [List.length_cons]; omega)
      have hrest : ((l :: rest).drop
          (shrinkBatch (l :: rest) (min maxBatchSize (l :: rest).length))).length ≤ fuel := by
        rw [List.length_drop]
        omega
      simp only [planBatchesFrom, List.sum_cons, ih hrest, List.length_drop]
      omega

/-- **The batches are all the documents.** -/
theorem sum_planAdaptiveBatches (lengths : List ℕ) (maxBatchSize : ℕ) :
    (planAdaptiveBatches lengths maxBatchSize).sum = lengths.length :=
  sum_planBatchesFrom (by omega) le_rfl

/-! ### The pass -/

structure EmbeddingIndexReport where
  nodesConsidered : ℕ
  nodesEmbedded : ℕ
  nodesReused : ℕ
  nodesSkippedNonDefinition : ℕ
  nodesSkippedMissingFile : ℕ
  nodesSkippedInvalidSpan : ℕ
  nodesSkippedOversize : ℕ
  staleRowsPruned : ℕ
  nodesFailed : ℕ
deriving DecidableEq

/-- `default`. -/
def EmbeddingIndexReport.zero : EmbeddingIndexReport := ⟨0, 0, 0, 0, 0, 0, 0, 0, 0⟩

def EmbeddingIndexReport.isComplete (report : EmbeddingIndexReport) : Bool := report.nodesFailed == 0

structure PendingDoc where
  document : CodeDocument
  title : String
  promptTokenLen : ℕ

/-- What a pass finds outside the database: the size of a batch, the vectors of the model for titles and
contents, at the call of each number, and the check of a vector. -/
structure EmbedEnv (V : Type) where
  batchSize : ℕ
  embedCodeDocuments : ℕ → List (String × String) → Except String (List V)
  validateQueryVector : V → Except String Unit

def embedScheduleWindow (batchSize : ℕ) : ℕ := max (usizeSaturatingMul batchSize 16) batchSize

structure EmbedState (V : Type) where
  report : EmbeddingIndexReport
  vectors : VectorTable V
  pending : List PendingDoc
  calls : ℕ

variable (embeddingChunks tree p options) (env : EmbedEnv V)

def writeVector (generation : ℕ) (s : EmbedState V) (doc : PendingDoc × V) :
    Except String (EmbedState V) :=
  (upsertVectorEmbedding env.validateQueryVector (documentRow sha256Hex p generation doc.1.document doc.2)
      s.vectors).map fun vectors =>
    { s with
      vectors := vectors
      report := { s.report with nodesEmbedded := s.report.nodesEmbedded + 1 } }

/-- The documents of a batch are dropped. -/
def EmbedState.failed (s : EmbedState V) (failedDocuments : ℕ) : EmbedState V :=
  { s with report := { s.report with nodesFailed := s.report.nodesFailed + failedDocuments } }

def flushLengthSortedBatch (generation : ℕ) (s : EmbedState V) (batch : List PendingDoc) :
    Except String (EmbedState V) :=
  let docs := batch.map fun doc => (doc.title, doc.document.chunk.text)
  let asked := { s with calls := s.calls + 1 }
  match env.embedCodeDocuments s.calls docs with
  | .error _ => .ok (asked.failed batch.length)
  | .ok vectors =>
    if vectors.length ≠ batch.length then .ok (asked.failed batch.length)
    else (batch.zip vectors).foldlM (writeVector sha256Hex p env generation) asked

/-- The planned batches are drained from the collected documents one after the other. -/
def flushPlannedBatches (generation : ℕ) : EmbedState V → List ℕ → Except String (EmbedState V)
  | s, [] => .ok s
  | s, size :: plan => do
      let batch := s.pending.take size
      let s ← flushLengthSortedBatch sha256Hex p env generation
        { s with pending := s.pending.drop size } batch
      flushPlannedBatches generation s plan

def flushEmbeddingBatch (generation : ℕ) (s : EmbedState V) : Except String (EmbedState V) :=
  if s.pending.isEmpty then .ok s
  else
    let pending := s.pending.insertionSort fun a b => a.promptTokenLen ≤ b.promptTokenLen
    flushPlannedBatches sha256Hex p env generation { s with pending := pending }
      (planAdaptiveBatches (pending.map PendingDoc.promptTokenLen) env.batchSize)

/-- A document: its row gets the new generation, or it is collected, and the collected documents are
embedded when there are enough of them. -/
def indexDocument (s : EmbedState V) (d : CodeDocument) : Except String (EmbedState V) :=
  let generation := options.graphGeneration
  match s.vectors.find? (documentKey sha256Hex p project d) with
  | some existing =>
    (upsertVectorEmbedding env.validateQueryVector (documentRow sha256Hex p generation d existing.vector)
        s.vectors).map fun vectors =>
      { s with
        vectors := vectors
        report := { s.report with
          nodesEmbedded := s.report.nodesEmbedded + 1
          nodesReused := s.report.nodesReused + 1 } }
  | none => do
      let title := documentTitle d.node
      let promptTokenLen ← p.documentTokenLen title d.chunk.text
      let s := { s with pending := s.pending ++ [⟨d, title, promptTokenLen⟩] }
      if embedScheduleWindow env.batchSize ≤ s.pending.length then
        flushEmbeddingBatch sha256Hex p env generation s
      else .ok s

def indexNode (s : EmbedState V) (n : Node) : Except String (EmbedState V) :=
  let report := { s.report with nodesConsidered := s.report.nodesConsidered + 1 }
  match nodeSource tree n with
  | .nonDefinition => .ok { s with report := { report with
      nodesSkippedNonDefinition := report.nodesSkippedNonDefinition + 1 } }
  | .missingFile => .ok { s with report := { report with
      nodesSkippedMissingFile := report.nodesSkippedMissingFile + 1 } }
  | .oversize => .ok { s with report := { report with
      nodesSkippedOversize := report.nodesSkippedOversize + 1 } }
  | .source text => do
      let chunks ← chunksOfNode embeddingChunks p options n text
      if chunks.isEmpty then
        .ok { s with report := { report with
          nodesSkippedInvalidSpan := report.nodesSkippedInvalidSpan + 1 } }
      else
        (chunks.map fun chunk => CodeDocument.mk n chunk).foldlM
          (indexDocument sha256Hex project p options env) { s with report := report }

/-- `index_code_embeddings_for_project`. -/
def indexCodeEmbeddings (vectors : VectorTable V) : Except String (EmbeddingIndexReport × VectorTable V) := do
  let s ← (g.pagedNodes project).foldlM (indexNode embeddingChunks sha256Hex tree project p options env)
    ⟨.zero, vectors, [], 0⟩
  let s ← flushEmbeddingBatch sha256Hex p env options.graphGeneration s
  if options.pruneBeforeGeneration && s.report.isComplete then
    let (pruned, vectors) :=
      pruneVectorEmbeddingsBeforeGeneration project options.graphGeneration s.vectors
    .ok ({ s.report with staleRowsPruned := pruned }, vectors)
  else .ok (s.report, s.vectors)

/-! ### What a pass achieves -/

variable {embeddingChunks sha256Hex tree project p options env} {generation : ℕ}

variable {t : VectorTable V} {d : CodeDocument} {docs docs' : List CodeDocument}
  {s s' : EmbedState V}

theorem HasVector.upsert (h : HasVector sha256Hex p generation t d) (written : CodeDocument)
    (vector : V) :
    HasVector sha256Hex p generation (t.upsert (documentRow sha256Hex p generation written vector)) d := by
  obtain ⟨row, hrow, hgeneration⟩ := h
  unfold HasVector
  rw [KeyedTable.find?_upsert]
  split
  · exact ⟨_, rfl, rfl⟩
  · exact ⟨row, hrow, hgeneration⟩

theorem HasVector.of_upsert (t : VectorTable V) (d : CodeDocument) (vector : V) :
    HasVector sha256Hex p generation (t.upsert (documentRow sha256Hex p generation d vector)) d := by
  refine ⟨documentRow sha256Hex p generation d vector, ?_, rfl⟩
  rw [KeyedTable.find?_upsert, if_pos]
  rfl

theorem HasVector.prune (h : HasVector sha256Hex p generation t d) (project : String) :
    HasVector sha256Hex p generation
      (pruneVectorEmbeddingsBeforeGeneration project generation t).2 d := by
  obtain ⟨row, hrow, hgeneration⟩ := h
  refine ⟨row, ?_, hgeneration⟩
  simp only [pruneVectorEmbeddingsBeforeGeneration]
  rw [KeyedTable.find?_filter, hrow, Option.filter_some, if_pos]
  simp [isCurrentRow, hgeneration]

/-- From one state of a pass to another, documents were embedded: unless one failed, those of a list have
their rows now, and no row was lost. -/
structure Embedded (sha256Hex : String → String) (p : CodeEmbeddingProvider) (generation : ℕ)
    (docs : List CodeDocument) (s s' : EmbedState V) : Prop where
  vectors : s'.report.nodesFailed = 0 →
    s.report.nodesFailed = 0 ∧ ∀ d ∈ docs, HasVector sha256Hex p generation s'.vectors d
  kept : ∀ d, HasVector sha256Hex p generation s.vectors d →
    HasVector sha256Hex p generation s'.vectors d

theorem Embedded.trans {s'' : EmbedState V} (h : Embedded sha256Hex p generation docs s s')
    (h' : Embedded sha256Hex p generation docs' s' s'') :
    Embedded sha256Hex p generation (docs ++ docs') s s'' := by
  constructor
  · intro hnone
    obtain ⟨hmid, hdocs'⟩ := h'.vectors hnone
    obtain ⟨hfirst, hdocs⟩ := h.vectors hmid
    refine ⟨hfirst, ?_⟩
    intro d hd
    rcases List.mem_append.1 hd with hd | hd
    · exact h'.kept d (hdocs d hd)
    · exact hdocs' d hd
  · intro d hd
    exact h'.kept d (h.kept d hd)

/-- No row is written.  Where there were documents, they have failed. -/
theorem Embedded.of_unwritten {failedDocuments : ℕ} (hvectors : s'.vectors = s.vectors)
    (hfailed : s'.report.nodesFailed = s.report.nodesFailed + failedDocuments)
    (h : docs ≠ [] → 0 < failedDocuments) : Embedded sha256Hex p generation docs s s' := by
  constructor
  · intro hnone
    refine ⟨by omega, ?_⟩
    intro d hd
    have hpos := h (List.ne_nil_of_mem hd)
    omega
  · intro d hd
    rwa [hvectors]

theorem Embedded.refl (s : EmbedState V) : Embedded sha256Hex p generation [] s s :=
  Embedded.of_unwritten rfl (Nat.add_zero _).symm fun h => absurd rfl h

theorem Embedded.subset (h : Embedded sha256Hex p generation docs s s') (hsub : docs' ⊆ docs) :
    Embedded sha256Hex p generation docs' s s' where
  vectors := fun hnone => ⟨(h.vectors hnone).1, fun d hd => (h.vectors hnone).2 d (hsub hd)⟩
  kept := h.kept

theorem upsertVectorEmbedding_ok {validateQueryVector : V → Except String Unit} {row : VectorRow V}
    {t' : VectorTable V} (h : upsertVectorEmbedding validateQueryVector row t = .ok t') :
    t' = t.upsert row := by
  unfold upsertVectorEmbedding at h
  obtain ⟨u, hvalid, rfl⟩ := Except.map_eq_ok_iff.1 h
  rfl

theorem writeVector_spec {doc : PendingDoc × V}
    (h : writeVector sha256Hex p env generation s doc = .ok s') :
    Embedded sha256Hex p generation [doc.1.document] s s' ∧ s'.pending = s.pending := by
  unfold writeVector at h
  obtain ⟨vectors, hwrite, rfl⟩ := Except.map_eq_ok_iff.1 h
  have hvectors := upsertVectorEmbedding_ok hwrite
  refine ⟨⟨?_, ?_⟩, rfl⟩
  · intro hnone
    refine ⟨hnone, ?_⟩
    intro d hd
    rw [List.mem_singleton.1 hd, hvectors]
    exact HasVector.of_upsert _ _ _
  · intro d hd
    rw [hvectors]
    exact hd.upsert _ _

theorem flushLengthSortedBatch_spec {batch : List PendingDoc}
    (h : flushLengthSortedBatch sha256Hex p env generation s batch = .ok s') :
    Embedded sha256Hex p generation (batch.map PendingDoc.document) s s' ∧ s'.pending = s.pending := by
  have hfailed : Embedded sha256Hex p generation (batch.map PendingDoc.document) s
      ({ s with calls := s.calls + 1 }.failed batch.length) := by
    refine Embedded.of_unwritten rfl rfl ?_
    intro hne
    exact List.length_pos_iff.2 fun hnil => hne (by rw [hnil, List.map_nil])
  unfold flushLengthSortedBatch at h
  cases hcall : env.embedCodeDocuments s.calls
      (batch.map fun doc => (doc.title, doc.document.chunk.text)) with
  | error e =>
    simp only [hcall] at h
    cases h
    exact ⟨hfailed, rfl⟩
  | ok vectors =>
    simp only [hcall] at h
    split at h
    · cases h
      exact ⟨hfailed, rfl⟩
    · rename_i hlen
      have hall : Embedded sha256Hex p generation
          ((batch.zip vectors).map fun doc => doc.1.document) s s' ∧ s'.pending = s.pending := by
        refine List.foldlM_ok_induction (P := fun done t =>
          Embedded sha256Hex p generation (done.map fun doc : PendingDoc × V => doc.1.document) s t ∧
            t.pending = s.pending) ?_ ?_ h
        · intro done doc t t' ht hwrite
          obtain ⟨hone, hpending⟩ := writeVector_spec hwrite
          rw [List.map_append]
          exact ⟨ht.1.trans hone, hpending.trans ht.2⟩
        · exact ⟨⟨(Embedded.refl s).vectors, (Embedded.refl s).kept⟩, rfl⟩
      have hdocs : ((batch.zip vectors).map fun doc => doc.1.document) =
          batch.map PendingDoc.document := by
        have hfst : (batch.zip vectors).map Prod.fst = batch := List.map_fst_zip (by omega)
        conv_rhs => rw [← hfst, List.map_map]
        rfl
      rwa [hdocs] at hall

theorem flushPlannedBatches_spec {plan : List ℕ} (hsum : plan.sum = s.pending.length)
    (h : flushPlannedBatches sha256Hex p env generation s plan = .ok s') :
    Embedded sha256Hex p generation (s.pending.map PendingDoc.document) s s' ∧ s'.pending = [] := by
  induction plan generalizing s with
  | nil =>
    cases h
    have hnil : s'.pending = [] := List.eq_nil_of_length_eq_zero (by simpa using hsum.symm)
    rw [hnil]
    exact ⟨Embedded.refl s', rfl⟩
  | cons size plan ih =>
    rw [flushPlannedBatches] at h
    obtain ⟨t, hbatch, h⟩ := Except.bind_eq_ok_iff.1 h
    obtain ⟨hone, hpending⟩ := flushLengthSortedBatch_spec hbatch
    have hrest := @ih t (by
      rw [hpending, List.length_drop]
      simp only [List.sum_cons] at hsum
      omega) h
    rw [hpending] at hrest
    have hall := Embedded.trans ⟨hone.vectors, hone.kept⟩ hrest.1
    rw [← List.map_append, List.take_append_drop] at hall
    exact ⟨⟨hall.vectors, hall.kept⟩, hrest.2⟩

/-- **A flush leaves nothing pending.**  What was pending has its rows, or it has failed. -/
theorem flushEmbeddingBatch_spec (h : flushEmbeddingBatch sha256Hex p env generation s = .ok s') :
    Embedded sha256Hex p generation (s.pending.map PendingDoc.document) s s' ∧ s'.pending = [] := by
  unfold flushEmbeddingBatch at h
  split at h
  · rename_i hempty
    cases h
    have hnil := List.isEmpty_iff.1 hempty
    refine ⟨?_, hnil⟩
    rw [hnil]
    exact Embedded.refl s
  · obtain ⟨hall, hnil⟩ := flushPlannedBatches_spec
      (by rw [sum_planAdaptiveBatches, List.length_map]) h
    refine ⟨Embedded.subset ⟨hall.vectors, hall.kept⟩ ?_, hnil⟩
    -- the order of the documents does not matter
    intro d hd
    exact ((List.perm_insertionSort _ s.pending).map PendingDoc.document).mem_iff.2 hd

/-- What has become of the documents that the pass has come by: unless one failed, each of them is pending
or has its row. -/
def Handled (sha256Hex : String → String) (p : CodeEmbeddingProvider) (generation : ℕ)
    (docs : List CodeDocument) (s : EmbedState V) : Prop :=
  s.report.nodesFailed = 0 → ∀ d ∈ docs,
    d ∈ s.pending.map PendingDoc.document ∨ HasVector sha256Hex p generation s.vectors d

theorem Handled.embedded {new : List CodeDocument} (h : Handled sha256Hex p generation docs s)
    (hstep : Embedded sha256Hex p generation new s s')
    (hpending : ∀ d ∈ s.pending.map PendingDoc.document,
      d ∈ s'.pending.map PendingDoc.document ∨ d ∈ new) :
    Handled sha256Hex p generation (docs ++ new) s' := by
  intro hnone d hd
  obtain ⟨hfirst, hnew⟩ := hstep.vectors hnone
  rcases List.mem_append.1 hd with hd | hd
  · rcases h hfirst d hd with hpend | hvector
    · rcases hpending d hpend with hstill | hflushed
      · exact Or.inl hstill
      · exact Or.inr (hnew d hflushed)
    · exact Or.inr (hstep.kept d hvector)
  · exact Or.inr (hnew d hd)

theorem Handled.subset (h : Handled sha256Hex p generation docs s) (hsub : docs' ⊆ docs) :
    Handled sha256Hex p generation docs' s :=
  fun hnone d hd => h hnone d (hsub hd)

theorem indexDocument_handled (hs : Handled sha256Hex p options.graphGeneration docs s)
    (h : indexDocument sha256Hex project p options env s d = .ok s') :
    Handled sha256Hex p options.graphGeneration (docs ++ [d]) s' := by
  unfold indexDocument at h
  cases hfind : s.vectors.find? (documentKey sha256Hex p project d) with
  | some existing =>
    simp only [hfind] at h
    obtain ⟨vectors, hwrite, rfl⟩ := Except.map_eq_ok_iff.1 h
    have hvectors := upsertVectorEmbedding_ok hwrite
    refine hs.embedded ⟨?_, ?_⟩ fun d hd => Or.inl hd
    · intro hnone
      refine ⟨hnone, ?_⟩
      intro d' hd'
      rw [List.mem_singleton.1 hd', hvectors]
      exact HasVector.of_upsert _ _ _
    · intro d' hd'
      rw [hvectors]
      exact hd'.upsert _ _
  | none =>
    simp only [hfind] at h
    obtain ⟨promptTokenLen, hlen, h⟩ := Except.bind_eq_ok_iff.1 h
    have hcollected : Handled sha256Hex p options.graphGeneration (docs ++ [d])
        { s with pending := s.pending ++ [⟨d, documentTitle d.node, promptTokenLen⟩] } := by
      intro hnone d' hd'
      rw [List.map_append, List.mem_append]
      rcases List.mem_append.1 hd' with hd' | hd'
      · rcases hs hnone d' hd' with hpend | hvector
        · exact Or.inl (Or.inl hpend)
        · exact Or.inr hvector
      · exact Or.inl (Or.inr hd')
    split at h
    · obtain ⟨hflush, hnil⟩ := flushEmbeddingBatch_spec h
      exact (hcollected.embedded hflush fun d hd => Or.inr hd).subset
        (List.subset_append_left _ _)
    · cases h
      exact hcollected

theorem indexNode_handled {n : Node} (hs : Handled sha256Hex p options.graphGeneration docs s)
    (h : indexNode embeddingChunks sha256Hex tree project p options env s n = .ok s') :
    Handled sha256Hex p options.graphGeneration
      (docs ++ nodeDocuments embeddingChunks tree p options n) s' := by
  unfold indexNode at h
  cases hsource : nodeSource tree n with
  | source text =>
    simp only [hsource] at h
    cases hchunks : chunksOfNode embeddingChunks p options n text with
    | error e =>
      simp only [hchunks] at h
      cases h
    | ok chunks =>
      rw [nodeDocuments_of_source hsource hchunks]
      simp only [hchunks, bind, Except.bind] at h
      split at h
      · rename_i hempty
        cases h
        rw [List.isEmpty_iff.1 hempty, List.map_nil, List.append_nil]
        exact hs
      · refine List.foldlM_ok_induction (P := fun done t =>
          Handled sha256Hex p options.graphGeneration (docs ++ done) t) ?_ ?_ h
        · intro done d t t' ht hstep
          rw [← List.append_assoc]
          exact indexDocument_handled ht hstep
        · rw [List.append_nil]
          exact hs
  | nonDefinition | missingFile | oversize =>
    simp only [hsource] at h
    cases h
    rw [nodeDocuments_of_no_source (by simp [hsource]), List.append_nil]
    exact hs

/-- **A pass without failures leaves no document without a vector.** -/
theorem indexCodeEmbeddings_complete {g : Graph} {vectors vectors' : VectorTable V}
    {report : EmbeddingIndexReport}
    (h : indexCodeEmbeddings embeddingChunks sha256Hex g tree project p options env vectors =
      .ok (report, vectors'))
    (hcomplete : report.isComplete = true) :
    ∀ d ∈ codeDocuments embeddingChunks g tree project p options,
      HasVector sha256Hex p options.graphGeneration vectors' d := by
  unfold indexCodeEmbeddings at h
  rw [Graph.pagedNodes_eq] at h
  obtain ⟨s, hnodes, h⟩ := Except.bind_eq_ok_iff.1 h
  have hhandled : Handled sha256Hex p options.graphGeneration
      (codeDocuments embeddingChunks g tree project p options) s := by
    refine List.foldlM_ok_induction (P := fun done t =>
      Handled sha256Hex p options.graphGeneration
        (done.flatMap (nodeDocuments embeddingChunks tree p options)) t) ?_ ?_ hnodes
    · intro done n t t' ht hstep
      rw [List.flatMap_append, List.flatMap_singleton]
      exact indexNode_handled ht hstep
    · intro hnone d hd
      cases hd
  obtain ⟨t, hflush, h⟩ := Except.bind_eq_ok_iff.1 h
  obtain ⟨hembedded, hnil⟩ := flushEmbeddingBatch_spec hflush
  have hall := (hhandled.embedded hembedded fun d hd => Or.inr hd).subset
    (List.subset_append_left _ _)
  have hvector : t.report.isComplete = true →
      ∀ d ∈ codeDocuments embeddingChunks g tree project p options,
        HasVector sha256Hex p options.graphGeneration t.vectors d := by
    intro hnone d hd
    rcases hall (beq_iff_eq.1 hnone) d hd with hpend | hvector
    · rw [hnil] at hpend
      cases hpend
    · exact hvector
  split at h
  · cases h
    intro d hd
    exact (hvector hcomplete d hd).prune project
  · cases h
    exact hvector hcomplete

end Pass

end Greppy
