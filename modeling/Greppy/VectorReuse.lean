/-
**When a vector may be taken over.**

An embedding run looks for the row of a document by the name of its definition, the number of the chunk
and the hash of the text, and takes over the vector it finds.  But the model is given a title as well,
and the title has the path and the lines of the definition, which are not part of that key.  They change
with every edit further up in the file, while the text stays.

So it rests with what changes the graph.  The indexer deletes the vectors of a file with its nodes, and
nothing is found for a definition that has moved.  `incremental_update` writes the moved definition over
the old one and leaves its vectors, which the next run takes over, under a title they were not made for.

Main results:

* `pass_vectors` — what a run leaves under every key;
* `fresh_of_replacesFile` — over the updates of the indexer every run is fresh;
* `fresh_run_iff` — **the runs are fresh exactly when no vector is found under another title**.
-/

import Greppy.EmbeddingAccount
import Greppy.GuardedRun
import Greppy.IncrementalUpdate

set_option autoImplicit false

namespace Greppy

section Reuse

variable {V : Type} {embeddingChunks : Chunker} {sha256Hex : String → String}
  {tree : String → Option String} {project : String} {p : CodeEmbeddingProvider}
  {options : EmbeddingIndexOptions} {env : EmbedEnv V} {f : String → String → V}

/-! ### What a run leaves -/

/-- The vectors of the model are a function of title and text. -/
def Answers (env : EmbedEnv V) (f : String → String → V) : Prop :=
  ∀ call docs vectors, env.embedCodeDocuments call docs = .ok vectors →
    vectors = docs.map fun doc => f doc.1 doc.2

/-- The vectors of a run under way, over the table `t` and with the documents `docs`. -/
structure Carried (sha256Hex : String → String) (project : String) (p : CodeEmbeddingProvider)
    (f : String → String → V) (t : VectorTable V) (docs : List CodeDocument) (s : EmbedState V) :
    Prop where
  /-- What is pending had no row. -/
  pending : ∀ doc ∈ s.pending, doc.document ∈ docs ∧ doc.title = documentTitle doc.document.node ∧
    t.find? (documentKey sha256Hex p project doc.document) = none
  /-- A vector that was there is carried along. -/
  carried : ∀ k row, t.find? k = some row → ∃ row', s.vectors.find? k = some row' ∧
    row'.vector = row.vector
  /-- A vector that was not is the model's. -/
  made : ∀ k row, t.find? k = none → s.vectors.find? k = some row →
    ∃ d ∈ docs, documentKey sha256Hex p project d = k ∧
      row.vector = f (documentTitle d.node) d.chunk.text
  /-- Other rows stay. -/
  others : ∀ k, (∀ d ∈ docs, documentKey sha256Hex p project d ≠ k) →
    s.vectors.find? k = t.find? k
  /-- A row that is written has the path of its document. -/
  filed : ∀ k row, s.vectors.find? k = some row → t.find? k = some row ∨
    ∃ d ∈ docs, documentKey sha256Hex p project d = k ∧ row.filePath = d.node.filePath

/-- The report and the calls do not come into it, and what is pending may be taken out. -/
theorem Carried.congr {t : VectorTable V} {docs : List CodeDocument} {s s' : EmbedState V}
    (h : Carried sha256Hex project p f t docs s) (hpending : ∀ doc ∈ s'.pending, doc ∈ s.pending)
    (hvectors : s'.vectors = s.vectors) : Carried sha256Hex project p f t docs s' where
  pending := fun doc hdoc => h.pending doc (hpending doc hdoc)
  carried := by
    rw [hvectors]
    exact h.carried
  made := by
    rw [hvectors]
    exact h.made
  others := by
    rw [hvectors]
    exact h.others
  filed := by
    rw [hvectors]
    exact h.filed

section Pass

variable {t : VectorTable V} {docs : List CodeDocument} (generation : ℕ)
  (hproject : ∀ d ∈ docs, d.node.project = project)
include hproject

variable {s s' : EmbedState V}

/-- A row is written, for a document that found it or for one that found none. -/
theorem Carried.write (h : Carried sha256Hex project p f t docs s) {d : CodeDocument}
    (hd : d ∈ docs) {vector : V}
    (hvector : (∃ row, s.vectors.find? (documentKey sha256Hex p project d) = some row ∧
        row.vector = vector) ∨
      t.find? (documentKey sha256Hex p project d) = none ∧
        vector = f (documentTitle d.node) d.chunk.text) :
    Carried sha256Hex project p f t docs
      { s with vectors := s.vectors.upsert (documentRow sha256Hex p generation d vector) } := by
  have hkey : (documentRow sha256Hex p generation d vector).key =
      documentKey sha256Hex p project d := by
    simp only [VectorRow.key, documentRow, documentKey, hproject d hd]
  refine ⟨h.pending, ?_, ?_, ?_, ?_⟩
  · intro k row hrow
    simp only [KeyedTable.find?_upsert, hkey]
    by_cases hk : documentKey sha256Hex p project d = k
    · rw [if_pos hk]
      subst hk
      refine ⟨_, rfl, ?_⟩
      rcases hvector with ⟨row', hrow', rfl⟩ | ⟨hnone, _⟩
      · obtain ⟨row'', hrow'', heq⟩ := h.carried _ row hrow
        rw [hrow', Option.some.injEq] at hrow''
        subst hrow''
        exact heq
      · rw [hrow] at hnone
        cases hnone
    · rw [if_neg hk]
      exact h.carried k row hrow
  · intro k row hnone hrow
    simp only [KeyedTable.find?_upsert, hkey] at hrow
    by_cases hk : documentKey sha256Hex p project d = k
    · rw [if_pos hk, Option.some.injEq] at hrow
      subst hk hrow
      rcases hvector with ⟨row', hrow', rfl⟩ | ⟨_, rfl⟩
      · exact h.made _ row' hnone hrow'
      · exact ⟨d, hd, rfl, rfl⟩
    · rw [if_neg hk] at hrow
      exact h.made k row hnone hrow
  · intro k hk
    simp only [KeyedTable.find?_upsert, hkey]
    rw [if_neg (hk d hd)]
    exact h.others k hk
  · intro k row hrow
    simp only [KeyedTable.find?_upsert, hkey] at hrow
    by_cases hk : documentKey sha256Hex p project d = k
    · rw [if_pos hk, Option.some.injEq] at hrow
      subst hrow
      exact Or.inr ⟨d, hd, hk, rfl⟩
    · rw [if_neg hk] at hrow
      exact h.filed k row hrow

theorem Carried.batch (henv : Answers env f) {batch : List PendingDoc}
    (hbatch : ∀ doc ∈ batch, doc.document ∈ docs ∧
      doc.title = documentTitle doc.document.node ∧
        t.find? (documentKey sha256Hex p project doc.document) = none)
    (hs : Carried sha256Hex project p f t docs s)
    (h : flushLengthSortedBatch sha256Hex p env generation s batch = .ok s') :
    Carried sha256Hex project p f t docs s' := by
  unfold flushLengthSortedBatch at h
  cases hcall : env.embedCodeDocuments s.calls
      (batch.map fun doc => (doc.title, doc.document.chunk.text)) with
  | error e =>
    simp only [hcall] at h
    cases h
    exact hs.congr (fun _ hdoc => hdoc) rfl
  | ok vectors =>
    simp only [hcall] at h
    split at h
    · cases h
      exact hs.congr (fun _ hdoc => hdoc) rfl
    · have hanswer := henv _ _ _ hcall
      have hzip : ∀ doc ∈ batch.zip vectors, doc.1 ∈ batch ∧
          doc.2 = f doc.1.title doc.1.document.chunk.text := by
        rw [hanswer, List.map_map, ← List.map_prod_left_eq_zip]
        intro doc hdoc
        obtain ⟨x, hx, rfl⟩ := List.mem_map.1 hdoc
        exact ⟨hx, rfl⟩
      refine List.foldlM_ok_invariant ?_ ?_ h
      · intro doc hmem s₁ s₂ hs₁ hwrite
        obtain ⟨hin, hvector⟩ := hzip doc hmem
        obtain ⟨hdoc, htitle, hnone⟩ := hbatch doc.1 hin
        rw [htitle] at hvector
        have hnew := hs₁.write generation hproject hdoc (Or.inr ⟨hnone, hvector⟩)
        rw [writeVector_ok hwrite]
        exact hnew.congr (fun _ hdoc => hdoc) rfl
      · exact hs.congr (fun _ hdoc => hdoc) rfl

theorem Carried.planned (henv : Answers env f) {plan : List ℕ}
    (hs : Carried sha256Hex project p f t docs s)
    (h : flushPlannedBatches sha256Hex p env generation s plan = .ok s') :
    Carried sha256Hex project p f t docs s' := by
  induction plan generalizing s with
  | nil =>
    cases h
    exact hs
  | cons size plan ih =>
    rw [flushPlannedBatches] at h
    obtain ⟨s₁, hbatch, h⟩ := Except.bind_eq_ok_iff.1 h
    refine ih ?_ h
    refine Carried.batch generation hproject henv ?_ ?_ hbatch
    · exact fun doc hdoc => hs.pending doc (List.mem_of_mem_take hdoc)
    · exact hs.congr (fun doc hdoc => List.mem_of_mem_drop hdoc) rfl

theorem Carried.flush (henv : Answers env f) (hs : Carried sha256Hex project p f t docs s)
    (h : flushEmbeddingBatch sha256Hex p env generation s = .ok s') :
    Carried sha256Hex project p f t docs s' := by
  unfold flushEmbeddingBatch at h
  split at h
  · cases h
    exact hs
  · have hsorted : Carried sha256Hex project p f t docs { s with
        pending := s.pending.insertionSort fun a b => a.promptTokenLen ≤ b.promptTokenLen } :=
      hs.congr (fun doc hdoc => (List.perm_insertionSort _ s.pending).mem_iff.1 hdoc) rfl
    exact Carried.planned generation hproject henv hsorted h

theorem Carried.document (henv : Answers env f) {d : CodeDocument} (hd : d ∈ docs)
    (hs : Carried sha256Hex project p f t docs s)
    (h : indexDocument sha256Hex project p options env s d = .ok s') :
    Carried sha256Hex project p f t docs s' := by
  unfold indexDocument at h
  cases hfind : s.vectors.find? (documentKey sha256Hex p project d) with
  | some existing =>
    simp only [hfind] at h
    obtain ⟨vectors, hwrite, rfl⟩ := Except.map_eq_ok_iff.1 h
    have hnew := hs.write options.graphGeneration hproject hd
      (Or.inl ⟨existing, hfind, rfl⟩)
    rw [← upsertVectorEmbedding_ok hwrite] at hnew
    exact hnew.congr (fun _ hdoc => hdoc) rfl
  | none =>
    simp only [hfind] at h
    obtain ⟨promptTokenLen, hlen, h⟩ := Except.bind_eq_ok_iff.1 h
    have hnone : t.find? (documentKey sha256Hex p project d) = none := by
      cases ht : t.find? (documentKey sha256Hex p project d) with
      | none => rfl
      | some row =>
        obtain ⟨row', hrow', _⟩ := hs.carried _ row ht
        rw [hfind] at hrow'
        cases hrow'
    have hcollected : Carried sha256Hex project p f t docs
        { s with pending := s.pending ++ [⟨d, documentTitle d.node, promptTokenLen⟩] } := by
      refine ⟨?_, hs.carried, hs.made, hs.others, hs.filed⟩
      intro doc hdoc
      rcases List.mem_append.1 hdoc with hdoc | hdoc
      · exact hs.pending doc hdoc
      · rw [List.mem_singleton.1 hdoc]
        exact ⟨hd, rfl, hnone⟩
    split at h
    · exact Carried.flush options.graphGeneration hproject henv hcollected h
    · cases h
      exact hcollected

theorem Carried.node (henv : Answers env f) {n : Node}
    (hdocs : ∀ d ∈ nodeDocuments embeddingChunks tree p options n, d ∈ docs)
    (hs : Carried sha256Hex project p f t docs s)
    (h : indexNode embeddingChunks sha256Hex tree project p options env s n = .ok s') :
    Carried sha256Hex project p f t docs s' := by
  unfold indexNode at h
  cases hsource : nodeSource tree n with
  | source text =>
    simp only [hsource] at h
    cases hchunks : chunksOfNode embeddingChunks p options n text with
    | error e =>
      simp only [hchunks] at h
      cases h
    | ok chunks =>
      rw [nodeDocuments_of_source hsource hchunks] at hdocs
      simp only [hchunks, bind, Except.bind] at h
      split at h
      · cases h
        exact hs.congr (fun _ hdoc => hdoc) rfl
      · refine List.foldlM_ok_invariant ?_ ?_ h
        · intro d hd s₁ s₂ hs₁ hstep
          exact hs₁.document hproject henv (hdocs d hd) hstep
        · exact hs.congr (fun _ hdoc => hdoc) rfl
  | nonDefinition | missingFile | oversize =>
    simp only [hsource] at h
    cases h
    exact hs.congr (fun _ hdoc => hdoc) rfl

end Pass

/-- The rows of a run, whether older ones were pruned or not: those of its documents are of its
generation, and the others were there. -/
structure PassVectors (sha256Hex : String → String) (project : String) (p : CodeEmbeddingProvider)
    (f : String → String → V) (generation : ℕ) (t : VectorTable V) (docs : List CodeDocument)
    (t' : VectorTable V) : Prop where
  found : ∀ d ∈ docs, ∃ row, t'.find? (documentKey sha256Hex p project d) = some row ∧
    row.graphGeneration = generation
  carried : ∀ d ∈ docs, ∀ row row', t.find? (documentKey sha256Hex p project d) = some row →
    t'.find? (documentKey sha256Hex p project d) = some row' → row'.vector = row.vector
  made : ∀ d ∈ docs, ∀ row, t.find? (documentKey sha256Hex p project d) = none →
    t'.find? (documentKey sha256Hex p project d) = some row →
    ∃ d' ∈ docs, documentKey sha256Hex p project d' = documentKey sha256Hex p project d ∧
      row.vector = f (documentTitle d'.node) d'.chunk.text
  others : ∀ k row, (∀ d ∈ docs, documentKey sha256Hex p project d ≠ k) →
    t'.find? k = some row → t.find? k = some row
  filed : ∀ k row, t'.find? k = some row → t.find? k = some row ∨
    ∃ d ∈ docs, documentKey sha256Hex p project d = k ∧ row.filePath = d.node.filePath

/-- **What a run without failures leaves under every key.** -/
theorem pass_vectors {g : Graph} {t t' : VectorTable V} {report : EmbeddingIndexReport}
    (henv : Answers env f)
    (h : indexCodeEmbeddings embeddingChunks sha256Hex g tree project p options env t =
      .ok (report, t'))
    (hcomplete : report.isComplete = true) :
    PassVectors sha256Hex project p f options.graphGeneration t
      (codeDocuments embeddingChunks g tree project p options) t' := by
  have hproject : ∀ d ∈ codeDocuments embeddingChunks g tree project p options,
      d.node.project = project := fun d hd => (node_of_mem_codeDocuments hd).2
  have hvectors := indexCodeEmbeddings_complete h hcomplete
  -- the last state of the run, of whose rows those that are left are some
  have hlast : ∃ s : EmbedState V, Carried sha256Hex project p f t
      (codeDocuments embeddingChunks g tree project p options) s ∧
      ∀ k row, t'.find? k = some row → s.vectors.find? k = some row := by
    unfold indexCodeEmbeddings at h
    rw [Graph.pagedNodes_eq] at h
    obtain ⟨s, hnodes, h⟩ := Except.bind_eq_ok_iff.1 h
    have hs : Carried sha256Hex project p f t
        (codeDocuments embeddingChunks g tree project p options) s := by
      refine List.foldlM_ok_invariant ?_ ?_ hnodes
      · intro n hn s₁ s₂ hs₁ hstep
        exact hs₁.node hproject henv (fun d hd => List.mem_flatMap.2 ⟨n, hn, hd⟩) hstep
      · refine ⟨?_, ?_, ?_, fun _ _ => rfl, fun _ _ hrow => Or.inl hrow⟩
        · intro doc hdoc
          cases hdoc
        · exact fun k row hrow => ⟨row, hrow, rfl⟩
        · intro k row hnone hrow
          rw [hnone] at hrow
          cases hrow
    obtain ⟨s₁, hflush, h⟩ := Except.bind_eq_ok_iff.1 h
    refine ⟨s₁, hs.flush options.graphGeneration hproject henv hflush, ?_⟩
    split at h
    · cases h
      intro k row hrow
      simp only [pruneVectorEmbeddingsBeforeGeneration, KeyedTable.find?_filter] at hrow
      exact (Option.filter_eq_some_iff.1 hrow).1
    · cases h
      exact fun _ _ hrow => hrow
  obtain ⟨s, hs, hsub⟩ := hlast
  refine ⟨?_, ?_, ?_, ?_, fun k row hrow => hs.filed k row (hsub k row hrow)⟩
  · intro d hd
    obtain ⟨row, hrow, hgeneration⟩ := hvectors d hd
    rw [hproject d hd] at hrow
    exact ⟨row, hrow, hgeneration⟩
  · intro d hd row row' hrow hrow'
    obtain ⟨row'', hrow'', heq⟩ := hs.carried _ row hrow
    rw [hsub _ row' hrow', Option.some.injEq] at hrow''
    rw [hrow'']
    exact heq
  · intro d hd row hnone hrow
    exact hs.made _ row hnone (hsub _ row hrow)
  · intro k row hk hrow
    rw [← hs.others k hk]
    exact hsub k row hrow

/-! ### Edits and runs -/

/-- A graph with its vectors.  The database does not keep the titles; they are here to speak of what
happened before. -/
structure EmbedStore (V : Type) where
  graph : Graph
  vectors : VectorTable V
  /-- The title of the document that a row was last written for. -/
  titles : VectorKey → Option String

/-- What happens to a graph and its vectors. -/
inductive EmbedEvent (V : Type) where
  /-- The graph follows an edit of the sources.  Some rows may be deleted with nodes or files; none is
  written. -/
  | graphUpdate (graph : Graph) (keep : VectorRow V → Bool)
  /-- The sources of the tree are embedded. -/
  | embeddingRun (tree : String → Option String) (options : EmbeddingIndexOptions) (env : EmbedEnv V)

variable (embeddingChunks sha256Hex project p)

/-- The titles after a run with the given documents. -/
def writtenTitles (docs : List CodeDocument) (titles : VectorKey → Option String) (k : VectorKey) :
    Option String :=
  match docs.find? fun d => decide (documentKey sha256Hex p project d = k) with
  | some d => some (documentTitle d.node)
  | none => titles k

/-- What an event makes of a graph and its vectors; a run that fails is not part of the model. -/
def embedStep (s : EmbedStore V) : EmbedEvent V → EmbedStore V
  | .graphUpdate graph keep => { s with graph := graph, vectors := s.vectors.filter keep }
  | .embeddingRun tree options env =>
    match indexCodeEmbeddings embeddingChunks sha256Hex s.graph tree project p options env
        s.vectors with
    | .ok (_, vectors) =>
      { s with
        vectors := vectors
        titles := writtenTitles sha256Hex project p
          (codeDocuments embeddingChunks s.graph tree project p options) s.titles }
    | .error _ => s

variable (f : String → String → V) (texts : Set String)

/-- The runs are complete, the provider's vectors are a function of title and text, and the texts that
are embedded are of a set. -/
def CompleteRun (s : EmbedStore V) : EmbedEvent V → Prop
  | .graphUpdate _ _ => True
  | .embeddingRun tree options env =>
    (∃ report vectors, indexCodeEmbeddings embeddingChunks sha256Hex s.graph tree project p options
      env s.vectors = .ok (report, vectors) ∧ report.isComplete = true) ∧
    Answers env f ∧
    ∀ d ∈ codeDocuments embeddingChunks s.graph tree project p options, d.chunk.text ∈ texts

/-- **A run stores what it would store over an empty table**: the vector of each document is the one
for the prompt that the document has. -/
structure FreshVectors (g : Graph) (t : VectorTable V) (tree : String → Option String)
    (options : EmbeddingIndexOptions) : Prop where
  prompt : ∀ d ∈ codeDocuments embeddingChunks g tree project p options,
    ∃ row, t.find? (documentKey sha256Hex p project d) = some row ∧
      row.graphGeneration = options.graphGeneration ∧
      row.vector = f (documentTitle d.node) d.chunk.text
  fromEmpty : ∀ env report t₀, Answers env f →
    indexCodeEmbeddings embeddingChunks sha256Hex g tree project p options env KeyedTable.empty =
      .ok (report, t₀) → report.isComplete = true →
    ∀ d ∈ codeDocuments embeddingChunks g tree project p options,
      (t.find? (documentKey sha256Hex p project d)).map VectorRow.vector =
        (t₀.find? (documentKey sha256Hex p project d)).map VectorRow.vector

def FreshAfter (s : EmbedStore V) : EmbedEvent V → Prop
  | .graphUpdate _ _ => True
  | .embeddingRun tree options env =>
    FreshVectors embeddingChunks sha256Hex project p f s.graph
      (embedStep embeddingChunks sha256Hex project p s (.embeddingRun tree options env)).vectors tree
      options

/-- Whatever a run finds was last written under the title of the document, or under one for which the
provider has the same vector. -/
def TitlesKept (s : EmbedStore V) : EmbedEvent V → Prop
  | .graphUpdate _ _ => True
  | .embeddingRun tree options _ =>
    ∀ d ∈ codeDocuments embeddingChunks s.graph tree project p options, ∀ row,
      s.vectors.find? (documentKey sha256Hex p project d) = some row →
      ∃ title, s.titles (documentKey sha256Hex p project d) = some title ∧
        f title d.chunk.text = f (documentTitle d.node) d.chunk.text

/-- Every vector is the one for the title that its row was last written under. -/
def TrueToTitles (s : EmbedStore V) : Prop :=
  ∀ row ∈ s.vectors.rows, ∃ title, s.titles row.key = some title ∧
    ∃ text ∈ texts, sha256Hex text = row.contentSha256 ∧ row.vector = f title text

variable {embeddingChunks sha256Hex project p f texts}

variable {g : Graph} {d : CodeDocument} {titles : VectorKey → Option String} {t : VectorTable V}
  {s : EmbedStore V} {e : EmbedEvent V}

theorem title_of_documentKey_eq {d' : CodeDocument}
    (hd : d ∈ codeDocuments embeddingChunks g tree project p options)
    (hd' : d' ∈ codeDocuments embeddingChunks g tree project p options)
    (hkey : documentKey sha256Hex p project d = documentKey sha256Hex p project d') :
    documentTitle d.node = documentTitle d'.node := by
  obtain ⟨hrow, hproject⟩ := node_of_mem_codeDocuments hd
  obtain ⟨hrow', hproject'⟩ := node_of_mem_codeDocuments hd'
  have hqname : d.node.qualifiedName = d'.node.qualifiedName := congrArg VectorKey.qualifiedName hkey
  rw [g.nodes.eq_of_key_eq hrow hrow' (Prod.ext (hproject.trans hproject'.symm) hqname)]

theorem writtenTitles_of_mem (hd : d ∈ codeDocuments embeddingChunks g tree project p options) :
    writtenTitles sha256Hex project p (codeDocuments embeddingChunks g tree project p options) titles
      (documentKey sha256Hex p project d) = some (documentTitle d.node) := by
  unfold writtenTitles
  cases hfind : (codeDocuments embeddingChunks g tree project p options).find? fun d' =>
      decide (documentKey sha256Hex p project d' = documentKey sha256Hex p project d) with
  | none =>
    have hno := List.find?_eq_none.1 hfind d hd
    simp at hno
  | some d' =>
    have hfound := List.find?_some hfind
    have hkey := of_decide_eq_true hfound
    simp only [title_of_documentKey_eq (List.mem_of_find?_eq_some hfind) hd hkey]

theorem writtenTitles_of_not_mem {docs : List CodeDocument} {k : VectorKey}
    (hk : ∀ d ∈ docs, documentKey sha256Hex p project d ≠ k) :
    writtenTitles sha256Hex project p docs titles k = titles k := by
  unfold writtenTitles
  rw [List.find?_eq_none.2 fun d hd => by simpa using hk d hd]

/-- What a run leaves for a document: the vector that it found, or the model's. -/
theorem vector_of_pass {t' : VectorTable V} (hsha : Set.InjOn sha256Hex texts)
    (htexts : ∀ d ∈ codeDocuments embeddingChunks g tree project p options, d.chunk.text ∈ texts)
    (hpass : PassVectors sha256Hex project p f options.graphGeneration t
      (codeDocuments embeddingChunks g tree project p options) t')
    (hd : d ∈ codeDocuments embeddingChunks g tree project p options) :
    ∃ row, t'.find? (documentKey sha256Hex p project d) = some row ∧
      row.graphGeneration = options.graphGeneration ∧
      (∀ found, t.find? (documentKey sha256Hex p project d) = some found →
        row.vector = found.vector) ∧
      (t.find? (documentKey sha256Hex p project d) = none →
        row.vector = f (documentTitle d.node) d.chunk.text) := by
  obtain ⟨row, hrow, hgeneration⟩ := hpass.found d hd
  refine ⟨row, hrow, hgeneration, fun found hfound => hpass.carried d hd found row hfound hrow, ?_⟩
  intro hnone
  obtain ⟨d', hd', hkey, hvector⟩ := hpass.made d hd row hnone hrow
  have htext : d'.chunk.text = d.chunk.text :=
    hsha (htexts d' hd') (htexts d hd) (congrArg VectorKey.contentSha256 hkey)
  rw [hvector, title_of_documentKey_eq hd' hd hkey, htext]

/-- Over an empty table every vector is the model's, and so it is enough to look at the prompts. -/
theorem FreshVectors.of_prompt (hsha : Set.InjOn sha256Hex texts)
    (htexts : ∀ d ∈ codeDocuments embeddingChunks g tree project p options, d.chunk.text ∈ texts)
    (h : ∀ d ∈ codeDocuments embeddingChunks g tree project p options,
      ∃ row, t.find? (documentKey sha256Hex p project d) = some row ∧
        row.graphGeneration = options.graphGeneration ∧
        row.vector = f (documentTitle d.node) d.chunk.text) :
    FreshVectors embeddingChunks sha256Hex project p f g t tree options where
  prompt := h
  fromEmpty := by
    intro env report t₀ henv hrun hcomplete d hd
    obtain ⟨row, hrow, _, hvector⟩ := h d hd
    obtain ⟨row₀, hrow₀, _, _, hmade⟩ :=
      vector_of_pass hsha htexts (pass_vectors henv hrun hcomplete) hd
    rw [hrow, hrow₀, Option.map_some, Option.map_some, hvector,
      hmade (KeyedTable.find?_empty _)]

theorem TrueToTitles.start (graph : Graph) (titles : VectorKey → Option String) :
    TrueToTitles (V := V) sha256Hex f texts ⟨graph, KeyedTable.empty, titles⟩ := by
  intro row hrow
  cases hrow

/-- **A complete run is fresh exactly when what it finds is.** -/
theorem fresh_iff_titlesKept (hsha : Set.InjOn sha256Hex texts)
    (hs : TrueToTitles sha256Hex f texts s)
    (hrun : CompleteRun embeddingChunks sha256Hex project p f texts s e) :
    FreshAfter embeddingChunks sha256Hex project p f s e ↔
      TitlesKept embeddingChunks sha256Hex project p f s e := by
  cases e with
  | graphUpdate graph keep => exact Iff.rfl
  | embeddingRun tree options env =>
    obtain ⟨⟨report, vectors, hok, hcomplete⟩, henv, htexts⟩ := hrun
    have hpass := pass_vectors henv hok hcomplete
    have hstep : (embedStep embeddingChunks sha256Hex project p s
        (.embeddingRun tree options env)).vectors = vectors := by
      simp only [embedStep, hok]
    -- the vector that a document finds, and the one it has afterwards
    have hfound : ∀ d ∈ codeDocuments embeddingChunks s.graph tree project p options, ∀ row,
        s.vectors.find? (documentKey sha256Hex p project d) = some row →
        ∃ title, s.titles (documentKey sha256Hex p project d) = some title ∧
          row.vector = f title d.chunk.text := by
      intro d hd row hrow
      obtain ⟨title, htitle, text, htext, hhash, hvector⟩ := hs row (KeyedTable.mem_of_find? hrow)
      have hkey := KeyedTable.key_of_find? hrow
      have heq : text = d.chunk.text :=
        hsha htext (htexts d hd) (hhash.trans (congrArg VectorKey.contentSha256 hkey))
      rw [hkey] at htitle
      exact ⟨title, htitle, by rw [hvector, heq]⟩
    simp only [FreshAfter, TitlesKept, hstep]
    constructor
    · intro hfresh d hd row hrow
      obtain ⟨title, htitle, hvector⟩ := hfound d hd row hrow
      obtain ⟨row', hrow', _, hvector'⟩ := hfresh.prompt d hd
      refine ⟨title, htitle, ?_⟩
      rw [← hvector, ← hvector', hpass.carried d hd row row' hrow hrow']
    · intro hkept
      refine FreshVectors.of_prompt hsha htexts fun d hd => ?_
      obtain ⟨row', hrow', hgeneration, hcarried, hmade⟩ := vector_of_pass hsha htexts hpass hd
      refine ⟨row', hrow', hgeneration, ?_⟩
      cases hrow : s.vectors.find? (documentKey sha256Hex p project d) with
      | none => exact hmade hrow
      | some row =>
        obtain ⟨title, htitle, hvector⟩ := hfound d hd row hrow
        obtain ⟨title', htitle', heq⟩ := hkept d hd row hrow
        rw [htitle, Option.some.injEq] at htitle'
        rw [hcarried row hrow, hvector, htitle', heq]

theorem TrueToTitles.step (hs : TrueToTitles sha256Hex f texts s)
    (hrun : CompleteRun embeddingChunks sha256Hex project p f texts s e)
    (hfresh : FreshAfter embeddingChunks sha256Hex project p f s e) :
    TrueToTitles sha256Hex f texts (embedStep embeddingChunks sha256Hex project p s e) := by
  cases e with
  | graphUpdate graph keep =>
    intro row hrow
    exact hs row (List.mem_filter.1 hrow).1
  | embeddingRun tree options env =>
    obtain ⟨⟨report, vectors, hok, hcomplete⟩, henv, htexts⟩ := hrun
    have hpass := pass_vectors henv hok hcomplete
    have hprompt := hfresh.prompt
    simp only [embedStep, hok] at hprompt ⊢
    intro row hrow
    have hfind := KeyedTable.find?_of_mem hrow
    by_cases hdoc : ∃ d ∈ codeDocuments embeddingChunks s.graph tree project p options,
        documentKey sha256Hex p project d = row.key
    · obtain ⟨d, hd, hkey⟩ := hdoc
      obtain ⟨row', hrow', _, hvector⟩ := hprompt d hd
      rw [hkey, hfind, Option.some.injEq] at hrow'
      subst hrow'
      refine ⟨documentTitle d.node, ?_, d.chunk.text, htexts d hd,
        congrArg VectorKey.contentSha256 hkey, hvector⟩
      rw [← hkey]
      exact writtenTitles_of_mem hd
    · have hno : ∀ d ∈ codeDocuments embeddingChunks s.graph tree project p options,
          documentKey sha256Hex p project d ≠ row.key := fun d hd hkey => hdoc ⟨d, hd, hkey⟩
      obtain ⟨title, htitle, htext⟩ :=
        hs row (KeyedTable.mem_of_find? (hpass.others row.key row hno hfind))
      exact ⟨title, (writtenTitles_of_not_mem hno).trans htitle, htext⟩

theorem fresh_of_titlesKept (hsha : Set.InjOn sha256Hex texts) {graph : Graph}
    {es : List (EmbedEvent V)}
    (hrun : Guarded (embedStep embeddingChunks sha256Hex project p)
      (CompleteRun embeddingChunks sha256Hex project p f texts)
      ⟨graph, KeyedTable.empty, fun _ => none⟩ es)
    (hkept : Guarded (embedStep embeddingChunks sha256Hex project p)
      (TitlesKept embeddingChunks sha256Hex project p f)
      ⟨graph, KeyedTable.empty, fun _ => none⟩ es) :
    Guarded (embedStep embeddingChunks sha256Hex project p)
      (FreshAfter embeddingChunks sha256Hex project p f) ⟨graph, KeyedTable.empty, fun _ => none⟩ es := by
  have hstart : TrueToTitles (V := V) sha256Hex f texts
      ⟨graph, KeyedTable.empty, fun _ => none⟩ := TrueToTitles.start _ _
  refine Guarded.of_invariant ?_ ?_ hstart (hrun.and hkept)
  · exact fun s e hs h => hs.step h.1 ((fresh_iff_titlesKept hsha hs h.1).2 h.2)
  · exact fun s e hs h => (fresh_iff_titlesKept hsha hs h.1).2 h.2

/-! ### Updates that delete the vectors of what they move -/

/-- The title of a definition, while it is in the graph. -/
def titleAt (g : Graph) (project q : String) : Option String :=
  (g.nodes.find? (project, q)).map documentTitle

variable (project) in
/-- An update deletes the rows of each definition whose title it changes. -/
def DropsRetitled (s : EmbedStore V) : EmbedEvent V → Prop
  | .graphUpdate graph keep => ∀ row ∈ s.vectors.rows, keep row = true →
      titleAt graph project row.qualifiedName = titleAt s.graph project row.qualifiedName
  | .embeddingRun _ _ _ => True

variable (project) in
/-- Every row was last written under the title that its definition has. -/
def TitlesCurrent (s : EmbedStore V) : Prop :=
  ∀ row ∈ s.vectors.rows, s.titles row.key = titleAt s.graph project row.qualifiedName

theorem titleAt_of_mem_codeDocuments {g : Graph} {d : CodeDocument}
    (hd : d ∈ codeDocuments embeddingChunks g tree project p options) :
    titleAt g project d.node.qualifiedName = some (documentTitle d.node) := by
  obtain ⟨hrow, hproject⟩ := node_of_mem_codeDocuments hd
  have hkey : d.node.key = (project, d.node.qualifiedName) := Prod.ext hproject rfl
  rw [titleAt, ← hkey, KeyedTable.find?_of_mem hrow]
  rfl

theorem row_of_run {s : EmbedStore V} {t' : VectorTable V}
    (hpass : PassVectors sha256Hex project p f options.graphGeneration s.vectors
      (codeDocuments embeddingChunks s.graph tree project p options) t') {row : VectorRow V}
    (hrow : row ∈ t'.rows) :
    (∃ d ∈ codeDocuments embeddingChunks s.graph tree project p options,
      documentKey sha256Hex p project d = row.key) ∨
    row ∈ s.vectors.rows ∧ ∀ d ∈ codeDocuments embeddingChunks s.graph tree project p options,
      documentKey sha256Hex p project d ≠ row.key := by
  by_cases hdoc : ∃ d ∈ codeDocuments embeddingChunks s.graph tree project p options,
      documentKey sha256Hex p project d = row.key
  · exact Or.inl hdoc
  · have hno : ∀ d ∈ codeDocuments embeddingChunks s.graph tree project p options,
        documentKey sha256Hex p project d ≠ row.key := fun d hd hkey => hdoc ⟨d, hd, hkey⟩
    have hold := hpass.others row.key row hno (KeyedTable.find?_of_mem hrow)
    exact Or.inr ⟨KeyedTable.mem_of_find? hold, hno⟩

theorem TitlesCurrent.step {s : EmbedStore V} {e : EmbedEvent V} (hs : TitlesCurrent project s)
    (hrun : CompleteRun embeddingChunks sha256Hex project p f texts s e)
    (hdrops : DropsRetitled project s e) :
    TitlesCurrent project (embedStep embeddingChunks sha256Hex project p s e) := by
  cases e with
  | graphUpdate graph keep =>
    intro row hrow
    obtain ⟨hrow, hkeep⟩ := List.mem_filter.1 hrow
    exact (hs row hrow).trans (hdrops row hrow hkeep).symm
  | embeddingRun tree options env =>
    obtain ⟨⟨report, vectors, hok, hcomplete⟩, henv, _⟩ := hrun
    have hpass := pass_vectors henv hok hcomplete
    simp only [embedStep, hok]
    intro row hrow
    rcases row_of_run hpass hrow with ⟨d, hd, hkey⟩ | ⟨hold, hno⟩
    · have hq : row.qualifiedName = d.node.qualifiedName :=
        (congrArg VectorKey.qualifiedName hkey).symm
      simp only [hq, titleAt_of_mem_codeDocuments hd, ← hkey]
      exact writtenTitles_of_mem hd
    · exact (writtenTitles_of_not_mem hno).trans (hs row hold)

/-- **What finds its row deleted when it moves is never found under another title.** -/
theorem titlesKept_of_dropsRetitled {graph : Graph} {es : List (EmbedEvent V)}
    (hrun : Guarded (embedStep embeddingChunks sha256Hex project p)
      (CompleteRun embeddingChunks sha256Hex project p f texts)
      ⟨graph, KeyedTable.empty, fun _ => none⟩ es)
    (hdrops : Guarded (embedStep embeddingChunks sha256Hex project p) (DropsRetitled project)
      ⟨graph, KeyedTable.empty, fun _ => none⟩ es) :
    Guarded (embedStep embeddingChunks sha256Hex project p)
      (TitlesKept embeddingChunks sha256Hex project p f)
      ⟨graph, KeyedTable.empty, fun _ => none⟩ es := by
  have hstart : TitlesCurrent (V := V) project ⟨graph, KeyedTable.empty, fun _ => none⟩ := by
    intro row hrow
    cases hrow
  refine Guarded.of_invariant ?_ ?_ hstart (hrun.and hdrops)
  · exact fun s e hs h => hs.step h.1 h.2
  · intro s e hs _
    cases e with
    | graphUpdate graph keep => trivial
    | embeddingRun tree options env =>
      intro d hd row hrow
      have hkey := KeyedTable.key_of_find? hrow
      have hq : row.qualifiedName = d.node.qualifiedName := congrArg VectorKey.qualifiedName hkey
      refine ⟨documentTitle d.node, ?_, rfl⟩
      rw [← hkey, hs row (KeyedTable.mem_of_find? hrow), hq, titleAt_of_mem_codeDocuments hd]

variable (project) in
/-- An update as `apply_file_nodes` makes it: `delete_nodes_for_file`, which takes the vectors of the
file along, and `insert_nodes`, of nodes whose names no other file has. -/
def ReplacesFile (s : EmbedStore V) : EmbedEvent V → Prop
  | .graphUpdate graph keep => ∃ r news ids,
      (s.graph.deleteNodesForFile project r).insertNodes news = .ok (graph, ids) ∧
      (∀ row, keep row = decide (¬ (row.project = project ∧ row.filePath = r))) ∧
      ∀ w ∈ news, w.project = project ∧ ∀ n ∈ s.graph.nodes.rows, n.project = project →
        n.qualifiedName = w.qualifiedName → n.filePath = r
  | .embeddingRun _ _ _ => True

variable (project) in
/-- Every row is under the path of its definition, which is in the graph. -/
def Filed (s : EmbedStore V) : Prop :=
  ∀ row ∈ s.vectors.rows, row.project = project ∧
    ∃ n, s.graph.nodes.find? (project, row.qualifiedName) = some n ∧ n.filePath = row.filePath

theorem find?_of_replaced {g g' : Graph} {r : String} {news : List NewNode} {ids : List ℕ}
    (hins : (g.deleteNodesForFile project r).insertNodes news = .ok (g', ids))
    (hown : ∀ w ∈ news, w.project = project ∧ ∀ n ∈ g.nodes.rows, n.project = project →
      n.qualifiedName = w.qualifiedName → n.filePath = r)
    {q : String} {n : Node} (hn : g.nodes.find? (project, q) = some n) (hpath : n.filePath ≠ r) :
    g'.nodes.find? (project, q) = some n := by
  have hrow := KeyedTable.mem_of_find? hn
  have hkey := KeyedTable.key_of_find? hn
  have hproject : n.project = project := congrArg Prod.fst hkey
  have hstays : n ∈ (g.deleteNodesForFile project r).nodes.rows := by
    rw [Graph.deleteNodesForFile, Graph.mem_nodes_deleteNodesWhere, decide_eq_false_iff_not]
    exact ⟨hrow, fun h => hpath h.2⟩
  have hnone : lastWrite NewNode.key news n.key = none := by
    rw [lastWrite_eq_none_iff]
    intro hmem
    obtain ⟨w, hw, hwk⟩ := List.mem_map.1 hmem
    exact hpath ((hown w hw).2 n hrow hproject (congrArg Prod.snd hwk).symm)
  rw [← hkey]
  exact KeyedTable.find?_of_mem ((wrote_of_insertNodes hins).mem_of_lastWrite_none hstays hnone)

/-- **The indexer deletes what it moves.** -/
theorem dropsRetitled_of_replacesFile {s : EmbedStore V} {e : EmbedEvent V} (hs : Filed project s)
    (h : ReplacesFile project s e) : DropsRetitled project s e := by
  cases e with
  | embeddingRun tree options env => trivial
  | graphUpdate graph keep =>
    obtain ⟨r, news, ids, hins, hkeep, hown⟩ := h
    intro row hrow hkept
    obtain ⟨hproject, n, hn, hpath⟩ := hs row hrow
    rw [hkeep, decide_eq_true_eq] at hkept
    have hother : n.filePath ≠ r := fun heq => hkept ⟨hproject, hpath.symm.trans heq⟩
    rw [titleAt, titleAt, hn, find?_of_replaced hins hown hn hother]

theorem Filed.step {s : EmbedStore V} {e : EmbedEvent V} (hs : Filed project s)
    (hrun : CompleteRun embeddingChunks sha256Hex project p f texts s e)
    (h : ReplacesFile project s e) :
    Filed project (embedStep embeddingChunks sha256Hex project p s e) := by
  cases e with
  | graphUpdate graph keep =>
    obtain ⟨r, news, ids, hins, hkeep, hown⟩ := h
    intro row hrow
    obtain ⟨hrow, hkept⟩ := List.mem_filter.1 hrow
    obtain ⟨hproject, n, hn, hpath⟩ := hs row hrow
    rw [hkeep, decide_eq_true_eq] at hkept
    have hother : n.filePath ≠ r := fun heq => hkept ⟨hproject, hpath.symm.trans heq⟩
    exact ⟨hproject, n, find?_of_replaced hins hown hn hother, hpath⟩
  | embeddingRun tree options env =>
    obtain ⟨⟨report, vectors, hok, hcomplete⟩, henv, _⟩ := hrun
    have hpass := pass_vectors henv hok hcomplete
    simp only [embedStep, hok]
    intro row hrow
    rcases hpass.filed row.key row (KeyedTable.find?_of_mem hrow) with hold | ⟨d, hd, hkey, hpath⟩
    · exact hs row (KeyedTable.mem_of_find? hold)
    · obtain ⟨hmem, hproject⟩ := node_of_mem_codeDocuments hd
      have hq : row.qualifiedName = d.node.qualifiedName :=
        (congrArg VectorKey.qualifiedName hkey).symm
      have hnode : d.node.key = (project, row.qualifiedName) := Prod.ext hproject hq.symm
      refine ⟨(congrArg VectorKey.project hkey).symm, d.node, ?_, hpath.symm⟩
      rw [← hnode]
      exact KeyedTable.find?_of_mem hmem

/-- **Over the indexer's updates every run is fresh.** -/
theorem fresh_of_replacesFile (hsha : Set.InjOn sha256Hex texts) {graph : Graph}
    {es : List (EmbedEvent V)}
    (hrun : Guarded (embedStep embeddingChunks sha256Hex project p)
      (CompleteRun embeddingChunks sha256Hex project p f texts)
      ⟨graph, KeyedTable.empty, fun _ => none⟩ es)
    (hfiles : Guarded (embedStep embeddingChunks sha256Hex project p) (ReplacesFile project)
      ⟨graph, KeyedTable.empty, fun _ => none⟩ es) :
    Guarded (embedStep embeddingChunks sha256Hex project p)
      (FreshAfter embeddingChunks sha256Hex project p f) ⟨graph, KeyedTable.empty, fun _ => none⟩ es := by
  have hstart : Filed (V := V) project ⟨graph, KeyedTable.empty, fun _ => none⟩ := by
    intro row hrow
    cases hrow
  have hdrops : Guarded (embedStep embeddingChunks sha256Hex project p) (DropsRetitled project)
      ⟨graph, KeyedTable.empty, fun _ => none⟩ es := by
    refine Guarded.of_invariant ?_ ?_ hstart (hrun.and hfiles)
    · exact fun s e hs h => hs.step h.1 h.2
    · exact fun s e hs h => dropsRetitled_of_replacesFile hs h.2
  exact fresh_of_titlesKept hsha hrun (titlesKept_of_dropsRetitled hrun hdrops)

/-- **The runs are fresh exactly when no vector is found under another title**, in every sequence of
edits and complete runs that begins without vectors; and none is where the updates of the graph delete
the rows of what they move.  The hash tells the texts that are embedded apart. -/
theorem fresh_run_iff (hsha : Set.InjOn sha256Hex texts) {graph : Graph} {es : List (EmbedEvent V)}
    (hrun : Guarded (embedStep embeddingChunks sha256Hex project p)
      (CompleteRun embeddingChunks sha256Hex project p f texts)
      ⟨graph, KeyedTable.empty, fun _ => none⟩ es) :
    (Guarded (embedStep embeddingChunks sha256Hex project p)
        (FreshAfter embeddingChunks sha256Hex project p f)
        ⟨graph, KeyedTable.empty, fun _ => none⟩ es ↔
      Guarded (embedStep embeddingChunks sha256Hex project p)
        (TitlesKept embeddingChunks sha256Hex project p f)
        ⟨graph, KeyedTable.empty, fun _ => none⟩ es) ∧
    (Guarded (embedStep embeddingChunks sha256Hex project p) (DropsRetitled project)
        ⟨graph, KeyedTable.empty, fun _ => none⟩ es →
      Guarded (embedStep embeddingChunks sha256Hex project p)
        (FreshAfter embeddingChunks sha256Hex project p f)
        ⟨graph, KeyedTable.empty, fun _ => none⟩ es) := by
  have hstart : TrueToTitles (V := V) sha256Hex f texts
      ⟨graph, KeyedTable.empty, fun _ => none⟩ := TrueToTitles.start _ _
  refine ⟨⟨?_, fresh_of_titlesKept hsha hrun⟩, ?_⟩
  · intro hfresh
    refine Guarded.of_invariant ?_ ?_ hstart (hrun.and hfresh)
    · exact fun s e hs h => hs.step h.1 h.2
    · exact fun s e hs h => (fresh_iff_titlesKept hsha hs h.1).1 h.2
  · exact fun hdrops => fresh_of_titlesKept hsha hrun (titlesKept_of_dropsRetitled hrun hdrops)

end Reuse

/-! ### A line above a function -/

deriving instance DecidableEq for CodeDocument

/-- A parser that finds one function, on the first line or behind an empty one. -/
def lineEnv : Env where
  sha256Hex := rustOnly.sha256Hex
  maxSize := 1000
  languageForPath := fun _ => ⟨"rust", true⟩
  parserExtract := fun _ bytes relPath =>
    let line := if bytes.head? = some 10 then 2 else 1
    .ok ⟨[⟨"Function", "f", relPath ++ "::Function::f", relPath, line, line, .obj []⟩], []⟩
  providerValid := fun _ _ _ => true

def lineBefore : Store where
  graph := Graph.ofInserts ⟨"p", "t", "/repos/p"⟩
    [⟨"p", "Function", "f", "a.rs::Function::f", "a.rs", 1, 1, .obj []⟩] []
  files := FileTables.empty.upsertFileState
    ⟨"p", "a.rs", "rust", "0", 5, 10, "tree-sitter-0.25", "greppy-extractor-v1", 1⟩
  rawEdges := []
  legacySidecar := false

/-- The file with an empty line in front. -/
def lineDisk : Disk := diskOf [("/repos/p/a.rs", [10, 102, 110, 32, 102, 40, 41, 32, 123, 125, 10])] 7

/-- What `incremental_update` makes of it. -/
def lineAfter : Store :=
  match incrementalUpdate lineEnv lineDisk "p" [entryAt "a.rs"] lineBefore with
  | .ok r => r.1
  | .error _ => lineBefore

theorem incrementalUpdate_lineBefore :
    incrementalUpdate lineEnv lineDisk "p" [entryAt "a.rs"] lineBefore = .ok (lineAfter, 1) := by
  have hcount : (incrementalUpdate lineEnv lineDisk "p" [entryAt "a.rs"] lineBefore).map Prod.snd =
      .ok 1 := by decide
  obtain ⟨s', hrun⟩ := exists_incrementalUpdate hcount
  simp only [lineAfter, hrun]

/-- A model whose vectors spell the prompt. -/
def echo (title text : String) : String := title ++ text

def echoEnv : EmbedEnv String where
  batchSize := 1
  embedCodeDocuments := fun _ docs => .ok (docs.map fun doc => echo doc.1 doc.2)
  validateQueryVector := fun _ => .ok ()

theorem answers_echoEnv : Answers echoEnv echo := by
  intro call docs vectors h
  exact (Except.ok.inj h).symm

def lineSha (_ : String) : String := "7ed4a69a138a907b2e98ccac2dc8b325fa193ec25819ba409c9ea38b4ee4c4ac"

/-- The two runs, and the update between them. -/
def lineEvents : List (EmbedEvent String) :=
  [.embeddingRun (fun _ => some "fn f() {}\n") (.forGeneration 1) echoEnv,
   .graphUpdate lineAfter.graph fun _ => true,
   .embeddingRun (fun _ => some "\nfn f() {}\n") (.forGeneration 2) echoEnv]

def lineStart : EmbedStore String := ⟨lineBefore.graph, KeyedTable.empty, fun _ => none⟩

def lineMid : EmbedStore String :=
  embedStep embeddingChunks lineSha "p" (charModel 100)
    (embedStep embeddingChunks lineSha "p" (charModel 100) lineStart
      (.embeddingRun (fun _ => some "fn f() {}\n") (.forGeneration 1) echoEnv))
    (.graphUpdate lineAfter.graph fun _ => true)

def lineDocument (line : ℤ) : CodeDocument :=
  ⟨⟨⟨"p", "Function", "f", "a.rs::Function::f", "a.rs", line, line, .obj []⟩, 1⟩,
    ⟨0, line, line, "fn f() {}\n"⟩⟩

theorem lineDocuments_before : codeDocuments embeddingChunks lineStart.graph
    (fun _ => some "fn f() {}\n") "p" (charModel 100) (.forGeneration 1) = [lineDocument 1] := by
  decide

theorem lineDocuments_after : codeDocuments embeddingChunks lineMid.graph
    (fun _ => some "\nfn f() {}\n") "p" (charModel 100) (.forGeneration 2) = [lineDocument 2] := by
  decide

theorem exists_complete {V : Type}
    {pass : Except String (EmbeddingIndexReport × VectorTable V)}
    (h : pass.map (fun r => r.1.isComplete) = .ok true) :
    ∃ report vectors, pass = .ok (report, vectors) ∧ report.isComplete = true := by
  cases pass with
  | error e => cases h
  | ok r => exact ⟨r.1, r.2, rfl, Except.ok.inj h⟩

theorem completeRun_lineEvents :
    Guarded (embedStep embeddingChunks lineSha "p" (charModel 100))
      (CompleteRun embeddingChunks lineSha "p" (charModel 100) echo {"fn f() {}\n"}) lineStart
      lineEvents := by
  refine ⟨⟨exists_complete (by decide), answers_echoEnv, ?_⟩, trivial,
    ⟨exists_complete ?_, answers_echoEnv, ?_⟩, trivial⟩
  · rw [lineDocuments_before]
    simp [lineDocument]
  · have hpass : (indexCodeEmbeddings embeddingChunks lineSha lineMid.graph
        (fun _ => some "\nfn f() {}\n") "p" (charModel 100) (.forGeneration 2) echoEnv
        lineMid.vectors).map (fun r => r.1.isComplete) = .ok true := by decide
    exact hpass
  · have hdocs := lineDocuments_after
    intro d hd
    have hd' : d ∈ [lineDocument 2] := hdocs ▸ hd
    rw [List.mem_singleton.1 hd']
    rfl

/-- The two runs and the update. -/
theorem fresh_run_iff_lineEvents :
    Set.InjOn lineSha {"fn f() {}\n"} ∧
    (Guarded (embedStep embeddingChunks lineSha "p" (charModel 100))
        (FreshAfter embeddingChunks lineSha "p" (charModel 100) echo) lineStart lineEvents ↔
      Guarded (embedStep embeddingChunks lineSha "p" (charModel 100))
        (TitlesKept embeddingChunks lineSha "p" (charModel 100) echo) lineStart lineEvents) ∧
    (Guarded (embedStep embeddingChunks lineSha "p" (charModel 100)) (DropsRetitled "p") lineStart
        lineEvents →
      Guarded (embedStep embeddingChunks lineSha "p" (charModel 100))
        (FreshAfter embeddingChunks lineSha "p" (charModel 100) echo) lineStart lineEvents) := by
  have hsha : Set.InjOn lineSha {"fn f() {}\n"} := Set.injOn_singleton _ _
  exact ⟨hsha, fresh_run_iff hsha completeRun_lineEvents⟩

/-- An empty line is put above a function, and `incremental_update` moves it: the second run gives it
the vector of the prompt that it had on the first line. -/
theorem not_fresh_lineEvents :
    incrementalUpdate lineEnv lineDisk "p" [entryAt "a.rs"] lineBefore = .ok (lineAfter, 1) ∧
    Guarded (embedStep embeddingChunks lineSha "p" (charModel 100))
      (CompleteRun embeddingChunks lineSha "p" (charModel 100) echo {"fn f() {}\n"}) lineStart
      lineEvents ∧
    ((lineEvents.foldl (embedStep embeddingChunks lineSha "p" (charModel 100)) lineStart).vectors.find?
        (documentKey lineSha (charModel 100) "p" (lineDocument 2))).map VectorRow.vector =
      some (echo "a.rs:1-1 a.rs::Function::f" "fn f() {}\n") ∧
    ¬ Guarded (embedStep embeddingChunks lineSha "p" (charModel 100))
      (FreshAfter embeddingChunks lineSha "p" (charModel 100) echo) lineStart lineEvents := by
  have hvector : ((lineEvents.foldl (embedStep embeddingChunks lineSha "p" (charModel 100))
      lineStart).vectors.find? (documentKey lineSha (charModel 100) "p" (lineDocument 2))).map
        VectorRow.vector = some (echo "a.rs:1-1 a.rs::Function::f" "fn f() {}\n") := by
    decide +kernel
  refine ⟨incrementalUpdate_lineBefore, completeRun_lineEvents, hvector, ?_⟩
  rintro ⟨_, _, hfresh, _⟩
  have hmem : lineDocument 2 ∈ codeDocuments embeddingChunks lineMid.graph
      (fun _ => some "\nfn f() {}\n") "p" (charModel 100) (.forGeneration 2) := by
    rw [lineDocuments_after]
    exact List.mem_singleton.2 rfl
  obtain ⟨row, hrow, _, htrue⟩ := hfresh.prompt (lineDocument 2) hmem
  have hrow' : (lineEvents.foldl (embedStep embeddingChunks lineSha "p" (charModel 100))
      lineStart).vectors.find? (documentKey lineSha (charModel 100) "p" (lineDocument 2)) =
        some row := hrow
  rw [hrow', Option.map_some, Option.some.injEq, htrue] at hvector
  exact absurd hvector (by decide +kernel)

/-! ### The same edit, by the indexer -/

def movedNode : NewNode := ⟨"p", "Function", "f", "a.rs::Function::f", "a.rs", 2, 2, .obj []⟩

/-- What replacing the nodes of the file makes of the graph. -/
def movedGraph : Graph :=
  (((lineBefore.graph.deleteNodesForFile "p" "a.rs").insertNodes [movedNode]).toOption.map Prod.fst).getD
    lineBefore.graph

def movedEvents : List (EmbedEvent String) :=
  [.embeddingRun (fun _ => some "fn f() {}\n") (.forGeneration 1) echoEnv,
   .graphUpdate movedGraph fun row => decide (¬ (row.project = "p" ∧ row.filePath = "a.rs")),
   .embeddingRun (fun _ => some "\nfn f() {}\n") (.forGeneration 2) echoEnv]

theorem completeRun_movedEvents :
    Guarded (embedStep embeddingChunks lineSha "p" (charModel 100))
      (CompleteRun embeddingChunks lineSha "p" (charModel 100) echo {"fn f() {}\n"}) lineStart
      movedEvents := by
  refine ⟨⟨exists_complete (by decide), answers_echoEnv, ?_⟩, trivial,
    ⟨exists_complete (by decide), answers_echoEnv, ?_⟩, trivial⟩
  · rw [lineDocuments_before]
    simp [lineDocument]
  · have htexts : ∀ d ∈ codeDocuments embeddingChunks movedGraph (fun _ => some "\nfn f() {}\n") "p"
        (charModel 100) (.forGeneration 2), d.chunk.text = "fn f() {}\n" := by decide
    exact fun d hd => htexts d hd

theorem replacesFile_movedEvents :
    Guarded (embedStep embeddingChunks lineSha "p" (charModel 100)) (ReplacesFile "p") lineStart
      movedEvents := by
  refine ⟨trivial, ⟨"a.rs", [movedNode], ?_⟩, trivial, trivial⟩
  have hok : ((lineBefore.graph.deleteNodesForFile "p" "a.rs").insertNodes [movedNode]).map (fun _ => ()) =
      .ok () := by decide
  cases hrun : (lineBefore.graph.deleteNodesForFile "p" "a.rs").insertNodes [movedNode] with
  | error e =>
    rw [hrun] at hok
    cases hok
  | ok r =>
    refine ⟨r.2, ?_, fun _ => rfl, fun w hw => ⟨?_, fun n hn _ _ => ?_⟩⟩
    · rw [movedGraph, hrun]
      exact hrun
    · rw [List.mem_singleton.1 hw]
      rfl
    · exact (by decide : ∀ n ∈ lineBefore.graph.nodes.rows, n.filePath = "a.rs") n hn

/-- The function that the indexer moves is embedded again, on its new line. -/
theorem fresh_of_replacesFile_movedEvents :
    Guarded (embedStep embeddingChunks lineSha "p" (charModel 100))
      (FreshAfter embeddingChunks lineSha "p" (charModel 100) echo) lineStart movedEvents ∧
    ((movedEvents.foldl (embedStep embeddingChunks lineSha "p" (charModel 100)) lineStart).vectors.find?
        (documentKey lineSha (charModel 100) "p" (lineDocument 2))).map VectorRow.vector =
      some (echo "a.rs:2-2 a.rs::Function::f" "fn f() {}\n") :=
  ⟨fresh_of_replacesFile (Set.injOn_singleton _ _) completeRun_movedEvents replacesFile_movedEvents,
    by decide⟩

end Greppy
