/-
**The account of an embedding pass.**

A document takes one of two ways through the pass: its row is there already and is taken over, or it is
collected and goes to the model in a batch, which answers it or fails as a whole.  The log of a pass lists
what happened: the documents taken over, and the batches in the order of their calls.  Every document is in
the log once, and the numbers of the report are those of the log.
-/

import Greppy.AdaptiveBatches
import Greppy.DefinitionCover

set_option autoImplicit false

namespace Greppy

/-! ### The log -/

/-- What happens to documents: one has its row already, or a batch of them goes to the model, in the call of
a number. -/
inductive DocumentEvent where
  | reused (d : CodeDocument)
  | batch (call : ℕ) (docs : List PendingDoc)

namespace DocumentEvent

def documents : DocumentEvent → List CodeDocument
  | .reused d => [d]
  | .batch _ docs => docs.map PendingDoc.document

variable {V : Type} (env : EmbedEnv V)

/-- The model answers with a vector for each document. -/
def succeeds : DocumentEvent → Bool
  | .reused _ => true
  | .batch call docs =>
    match env.embedCodeDocuments call (docs.map fun doc => (doc.title, doc.document.chunk.text)) with
    | .ok vectors => vectors.length == docs.length
    | .error _ => false

/-- The documents of the events that succeed. -/
def succeeded (log : List DocumentEvent) : List CodeDocument :=
  (log.filter (succeeds env)).flatMap documents

def failed (log : List DocumentEvent) : List CodeDocument :=
  (log.filter fun e => !succeeds env e).flatMap documents

def takenOver (log : List DocumentEvent) : List CodeDocument :=
  log.flatMap fun e =>
    match e with
    | .reused d => [d]
    | .batch _ _ => []

end DocumentEvent

section Log

variable {V : Type} (embeddingChunks : Chunker) (sha256Hex : String → String) (g : Graph)
  (tree : String → Option String) (project : String) (p : CodeEmbeddingProvider)
  (options : EmbeddingIndexOptions) (env : EmbedEnv V)

/-- The batches of a plan, from a call on. -/
def planEvents : ℕ → List ℕ → List PendingDoc → List DocumentEvent
  | _, [], _ => []
  | call, size :: plan, pending =>
    .batch call (pending.take size) :: planEvents (call + 1) plan (pending.drop size)

def flushEvents (s : EmbedState V) : List DocumentEvent :=
  let pending := s.pending.insertionSort fun a b => a.promptTokenLen ≤ b.promptTokenLen
  planEvents s.calls (planAdaptiveBatches (pending.map PendingDoc.promptTokenLen) env.batchSize) pending

/-- What happens when a document comes. -/
def documentEvents (s : EmbedState V) (d : CodeDocument) : List DocumentEvent :=
  match s.vectors.find? (documentKey sha256Hex p project d) with
  | some _ => [.reused d]
  | none =>
    let title := documentTitle d.node
    match p.documentTokenLen title d.chunk.text with
    | .error _ => []
    | .ok promptTokenLen =>
      let s := { s with pending := s.pending ++ [⟨d, title, promptTokenLen⟩] }
      if embedScheduleWindow env.batchSize ≤ s.pending.length then flushEvents env s else []

def nodeEvents (s : EmbedState V) (n : Node) : List DocumentEvent :=
  let report := { s.report with nodesConsidered := s.report.nodesConsidered + 1 }
  List.eventsM (indexDocument sha256Hex project p options env) (documentEvents sha256Hex project p env)
    { s with report := report } (nodeDocuments embeddingChunks tree p options n)

/-- The log of a pass: what happened on the way through the nodes, and the last flush. -/
def passEvents (vectors : VectorTable V) : List DocumentEvent :=
  let start : EmbedState V := ⟨.zero, vectors, [], 0⟩
  let nodes := g.projectRows project
  List.eventsM (indexNode embeddingChunks sha256Hex tree project p options env)
      (nodeEvents embeddingChunks sha256Hex tree project p options env) start nodes ++
    match nodes.foldlM (indexNode embeddingChunks sha256Hex tree project p options env) start with
    | .ok s => flushEvents env s
    | .error _ => []

/-! ### Kinds of nodes -/

/-- What becomes of a node: it is skipped for one of four reasons, or it yields documents. -/
inductive NodeFate where
  | nonDefinition
  | missingFile
  | oversize
  | invalidSpan
  | documents
deriving DecidableEq

def nodeFate (n : Node) : NodeFate :=
  match nodeSource tree n with
  | .nonDefinition => .nonDefinition
  | .missingFile => .missingFile
  | .oversize => .oversize
  | .source _ => if (nodeDocuments embeddingChunks tree p options n).isEmpty then .invalidSpan else .documents

def EmbeddingIndexReport.addNode (report : EmbeddingIndexReport) (fate : NodeFate) : EmbeddingIndexReport :=
  let report := { report with nodesConsidered := report.nodesConsidered + 1 }
  match fate with
  | .nonDefinition => { report with nodesSkippedNonDefinition := report.nodesSkippedNonDefinition + 1 }
  | .missingFile => { report with nodesSkippedMissingFile := report.nodesSkippedMissingFile + 1 }
  | .oversize => { report with nodesSkippedOversize := report.nodesSkippedOversize + 1 }
  | .invalidSpan => { report with nodesSkippedInvalidSpan := report.nodesSkippedInvalidSpan + 1 }
  | .documents => report

/-- The numbers of nodes of each kind. -/
def nodeCounts (nodes : List Node) : EmbeddingIndexReport :=
  (nodes.map (nodeFate embeddingChunks tree p options)).foldl EmbeddingIndexReport.addNode .zero

/-! ### The account -/

/-- The row of one of the documents is in the table, under the key of a document. -/
def HasRowOf (generation : ℕ) (docs : List CodeDocument) (t : VectorTable V) (d : CodeDocument) : Prop :=
  ∃ d' ∈ docs, ∃ vector, documentKey sha256Hex p d'.node.project d' = documentKey sha256Hex p d.node.project d ∧
    t.find? (documentKey sha256Hex p d.node.project d) = some (documentRow sha256Hex p generation d' vector)

/-- A row is still there, or the row of this generation stands in its place. -/
def RowsKept (generation : ℕ) (t t' : VectorTable V) : Prop :=
  ∀ k row, t.find? k = some row →
    ∃ row', t'.find? k = some row' ∧ (row' = row ∨ row'.graphGeneration = generation)

/-- The numbers of a log, put into a report. -/
def EmbeddingIndexReport.withLog (counts : EmbeddingIndexReport) (log : List DocumentEvent) :
    EmbeddingIndexReport :=
  { counts with
    nodesEmbedded := (DocumentEvent.succeeded env log).length
    nodesReused := (DocumentEvent.takenOver log).length
    nodesFailed := (DocumentEvent.failed env log).length }

/-- The account of a pass under way, of the documents that it has come by and the log so far. -/
structure Accounted (generation : ℕ) (counts : EmbeddingIndexReport) (t₀ : VectorTable V)
    (docs : List CodeDocument) (log : List DocumentEvent) (s : EmbedState V) : Prop where
  documents : (log.flatMap DocumentEvent.documents ++ s.pending.map PendingDoc.document).Perm docs
  report : s.report = counts.withLog env log
  rows : ∀ d ∈ DocumentEvent.succeeded env log, HasRowOf sha256Hex p generation docs s.vectors d
  kept : RowsKept generation t₀ s.vectors

end Log

namespace DocumentEvent

variable {V : Type} {env : EmbedEnv V} {log : List DocumentEvent}

theorem succeeded_concat_of_succeeds {e : DocumentEvent} (h : e.succeeds env = true) :
    succeeded env (log ++ [e]) = succeeded env log ++ e.documents := by
  simp [succeeded, List.filter_append, h]

theorem succeeded_concat_of_fails {e : DocumentEvent} (h : e.succeeds env = false) :
    succeeded env (log ++ [e]) = succeeded env log := by
  simp [succeeded, List.filter_append, h]

theorem failed_concat_of_succeeds {e : DocumentEvent} (h : e.succeeds env = true) :
    failed env (log ++ [e]) = failed env log := by
  simp [failed, List.filter_append, h]

theorem failed_concat_of_fails {e : DocumentEvent} (h : e.succeeds env = false) :
    failed env (log ++ [e]) = failed env log ++ e.documents := by
  simp [failed, List.filter_append, h]

theorem takenOver_concat_batch (call : ℕ) (docs : List PendingDoc) :
    takenOver (log ++ [.batch call docs]) = takenOver log := by
  simp [takenOver]

theorem takenOver_concat_reused (d : CodeDocument) :
    takenOver (log ++ [.reused d]) = takenOver log ++ [d] := by
  simp [takenOver]

theorem length_succeeded_add_failed (env : EmbedEnv V) (log : List DocumentEvent) :
    (succeeded env log).length + (failed env log).length = (log.flatMap documents).length := by
  induction log with
  | nil => rfl
  | cons e log ih =>
    rw [succeeded, failed] at ih ⊢
    cases h : e.succeeds env with
    | true =>
      rw [List.filter_cons_of_pos h, List.filter_cons_of_neg (by rw [h]; decide), List.flatMap_cons,
        List.flatMap_cons, List.length_append, List.length_append]
      omega
    | false =>
      rw [List.filter_cons_of_neg (by rw [h]; decide), List.filter_cons_of_pos (by rw [h]; rfl),
        List.flatMap_cons, List.flatMap_cons, List.length_append, List.length_append]
      omega

end DocumentEvent

section Account

variable {V : Type} {embeddingChunks : Chunker} {sha256Hex : String → String} {g : Graph}
  {tree : String → Option String} {project : String} {p : CodeEmbeddingProvider}
  {options : EmbeddingIndexOptions} {env : EmbedEnv V} {generation : ℕ} {counts : EmbeddingIndexReport}
  {t₀ : VectorTable V} {docs : List CodeDocument} {log : List DocumentEvent} {s s' : EmbedState V}

/-! ### Rows -/

variable {d : CodeDocument} {t : VectorTable V} {call : ℕ}

theorem HasRowOf.of_upsert (t : VectorTable V) (hd : d ∈ docs) (vector : V) :
    HasRowOf sha256Hex p generation docs (t.upsert (documentRow sha256Hex p generation d vector)) d := by
  refine ⟨d, hd, vector, rfl, ?_⟩
  rw [KeyedTable.find?_upsert, if_pos]
  rfl

theorem HasRowOf.upsert {written : CodeDocument} (h : HasRowOf sha256Hex p generation docs t d)
    (hwritten : written ∈ docs) (vector : V) :
    HasRowOf sha256Hex p generation docs (t.upsert (documentRow sha256Hex p generation written vector)) d := by
  obtain ⟨d', hd', vector', hkey, hrow⟩ := h
  by_cases hsame : documentKey sha256Hex p written.node.project written =
      documentKey sha256Hex p d.node.project d
  · refine ⟨written, hwritten, vector, hsame, ?_⟩
    rw [KeyedTable.find?_upsert]
    exact if_pos hsame
  · refine ⟨d', hd', vector', hkey, ?_⟩
    rw [KeyedTable.find?_upsert]
    exact (if_neg hsame).trans hrow

theorem HasRowOf.mono {docs' : List CodeDocument} (h : HasRowOf sha256Hex p generation docs t d)
    (hsub : docs ⊆ docs') : HasRowOf sha256Hex p generation docs' t d := by
  obtain ⟨d', hd', hrest⟩ := h
  exact ⟨d', hsub hd', hrest⟩

theorem RowsKept.refl (t : VectorTable V) : RowsKept generation t t := fun _ row h => ⟨row, h, .inl rfl⟩

theorem RowsKept.upsert {t' : VectorTable V} (h : RowsKept generation t t') (d : CodeDocument)
    (vector : V) :
    RowsKept generation t (t'.upsert (documentRow sha256Hex p generation d vector)) := by
  intro k row hrow
  rw [KeyedTable.find?_upsert]
  split
  · exact ⟨_, rfl, .inr rfl⟩
  · exact h k row hrow

/-! ### A batch -/

theorem writeVector_ok {doc : PendingDoc × V} (h : writeVector sha256Hex p env generation s doc = .ok s') :
    s' = { s with
      vectors := s.vectors.upsert (documentRow sha256Hex p generation doc.1.document doc.2)
      report := { s.report with nodesEmbedded := s.report.nodesEmbedded + 1 } } := by
  unfold writeVector at h
  obtain ⟨vectors, hwrite, rfl⟩ := Except.map_eq_ok_iff.1 h
  rw [upsertVectorEmbedding_ok hwrite]

theorem foldlM_writeVector {written : List (PendingDoc × V)}
    (hdocs : ∀ doc ∈ written, doc.1.document ∈ docs)
    (h : written.foldlM (writeVector sha256Hex p env generation) s = .ok s') :
    s'.report = { s.report with nodesEmbedded := s.report.nodesEmbedded + written.length } ∧
      s'.pending = s.pending ∧ s'.calls = s.calls ∧
      (∀ d, HasRowOf sha256Hex p generation docs s.vectors d →
        HasRowOf sha256Hex p generation docs s'.vectors d) ∧
      (∀ doc ∈ written, HasRowOf sha256Hex p generation docs s'.vectors doc.1.document) ∧
      ∀ t, RowsKept generation t s.vectors → RowsKept generation t s'.vectors := by
  induction written generalizing s with
  | nil =>
    cases h
    exact ⟨rfl, rfl, rfl, fun _ h => h, fun _ h => absurd h List.not_mem_nil, fun _ h => h⟩
  | cons doc written ih =>
    rw [List.foldlM_cons] at h
    obtain ⟨t, hwrite, h⟩ := Except.bind_eq_ok_iff.1 h
    have ht := writeVector_ok hwrite
    have hdoc := hdocs doc List.mem_cons_self
    obtain ⟨hreport, hpending, hcalls, hold, hnew, hkept⟩ :=
      ih (fun doc hdoc => hdocs doc (List.mem_cons_of_mem _ hdoc)) h
    subst ht
    refine ⟨?_, hpending, hcalls, fun d hd => hold d (hd.upsert hdoc _), fun doc' hdoc' => ?_,
      fun t ht => hkept t (ht.upsert _ _)⟩
    · rw [hreport, List.length_cons]
      simp only [EmbeddingIndexReport.mk.injEq, and_true, true_and]
      omega
    · rcases List.mem_cons.1 hdoc' with rfl | hdoc'
      · exact hold _ (HasRowOf.of_upsert _ hdoc _)
      · exact hnew doc' hdoc'

theorem withLog_batch_succeeds {batch : List PendingDoc}
    (h : (DocumentEvent.batch call batch).succeeds env = true) :
    counts.withLog env (log ++ [.batch call batch]) =
      { counts.withLog env log with
        nodesEmbedded := (counts.withLog env log).nodesEmbedded + batch.length } := by
  simp only [EmbeddingIndexReport.withLog, DocumentEvent.succeeded_concat_of_succeeds h,
    DocumentEvent.failed_concat_of_succeeds h, DocumentEvent.takenOver_concat_batch, List.length_append,
    DocumentEvent.documents, List.length_map]

theorem withLog_batch_fails {batch : List PendingDoc}
    (h : (DocumentEvent.batch call batch).succeeds env = false) :
    counts.withLog env (log ++ [.batch call batch]) =
      { counts.withLog env log with
        nodesFailed := (counts.withLog env log).nodesFailed + batch.length } := by
  simp only [EmbeddingIndexReport.withLog, DocumentEvent.succeeded_concat_of_fails h,
    DocumentEvent.failed_concat_of_fails h, DocumentEvent.takenOver_concat_batch, List.length_append,
    DocumentEvent.documents, List.length_map]

theorem Accounted.batch {batch rest : List PendingDoc}
    (h : Accounted sha256Hex p env generation counts t₀ docs log s) (hperm : s.pending.Perm (batch ++ rest))
    (hflush : flushLengthSortedBatch sha256Hex p env generation { s with pending := rest } batch = .ok s') :
    Accounted sha256Hex p env generation counts t₀ docs (log ++ [.batch s.calls batch]) s' ∧
      s'.pending = rest ∧ s'.calls = s.calls + 1 := by
  have hdocuments : (((log ++ [DocumentEvent.batch s.calls batch]).flatMap DocumentEvent.documents) ++
      rest.map PendingDoc.document).Perm docs := by
    refine List.Perm.trans ?_ h.documents
    rw [List.flatMap_append, List.append_assoc]
    refine List.Perm.append_left _ ?_
    have hmap := (hperm.map PendingDoc.document).symm
    rw [List.map_append] at hmap
    simpa [DocumentEvent.documents] using hmap
  have hmem : ∀ doc ∈ batch, doc.document ∈ docs := fun doc hdoc =>
    hdocuments.subset (List.mem_append_left _ (by
      rw [List.flatMap_append]
      refine List.mem_append_right _ ?_
      simpa [DocumentEvent.documents] using ⟨doc, hdoc, rfl⟩))
  have hfails (hno : (DocumentEvent.batch s.calls batch).succeeds env = false)
      (hs' : s' = { s with
        pending := rest
        calls := s.calls + 1
        report := { s.report with nodesFailed := s.report.nodesFailed + batch.length } }) :
      Accounted sha256Hex p env generation counts t₀ docs (log ++ [.batch s.calls batch]) s' ∧
        s'.pending = rest ∧ s'.calls = s.calls + 1 := by
    subst hs'
    refine ⟨⟨hdocuments, ?_, ?_, h.kept⟩, rfl, rfl⟩
    · rw [withLog_batch_fails hno, ← h.report]
    · rw [DocumentEvent.succeeded_concat_of_fails hno]
      exact h.rows
  unfold flushLengthSortedBatch at hflush
  cases hcall : env.embedCodeDocuments s.calls
      (batch.map fun doc => (doc.title, doc.document.chunk.text)) with
  | error e =>
    simp only [hcall] at hflush
    cases hflush
    exact hfails (by simp only [DocumentEvent.succeeds, hcall]) rfl
  | ok vectors =>
    simp only [hcall] at hflush
    split at hflush
    · rename_i hlen
      cases hflush
      exact hfails (by simp only [DocumentEvent.succeeds, hcall, beq_eq_false_iff_ne.2 hlen]) rfl
    · rename_i hlen
      have hlen := not_not.1 hlen
      have hyes : (DocumentEvent.batch s.calls batch).succeeds env = true := by
        simp only [DocumentEvent.succeeds, hcall, hlen, beq_self_eq_true]
      have hfst : (batch.zip vectors).map Prod.fst = batch := List.map_fst_zip (by omega)
      obtain ⟨hreport, hpending, hcalls, hold, hnew, hkept⟩ := foldlM_writeVector
        (fun doc hdoc => hmem doc.1 (by
          rw [← hfst]
          exact List.mem_map_of_mem hdoc)) hflush
      refine ⟨⟨?_, ?_, ?_, hkept t₀ h.kept⟩, hpending, hcalls⟩
      · rw [hpending]
        exact hdocuments
      · rw [withLog_batch_succeeds hyes, ← h.report, hreport, List.length_zip, hlen, Nat.min_self]
      · rw [DocumentEvent.succeeded_concat_of_succeeds hyes]
        intro d hd
        rcases List.mem_append.1 hd with hd | hd
        · exact hold d (h.rows d hd)
        · obtain ⟨doc, hdoc, rfl⟩ := List.mem_map.1 hd
          rw [← hfst] at hdoc
          obtain ⟨written, hwritten, rfl⟩ := List.mem_map.1 hdoc
          exact hnew written hwritten

/-! ### A flush -/

theorem Accounted.planned {plan : List ℕ} (hsum : plan.sum = s.pending.length)
    (h : Accounted sha256Hex p env generation counts t₀ docs log s)
    (hflush : flushPlannedBatches sha256Hex p env generation s plan = .ok s') :
    Accounted sha256Hex p env generation counts t₀ docs (log ++ planEvents s.calls plan s.pending) s' ∧
      s'.pending = [] := by
  induction plan generalizing s log with
  | nil =>
    cases hflush
    rw [planEvents, List.append_nil]
    exact ⟨h, List.eq_nil_of_length_eq_zero (by simpa using hsum.symm)⟩
  | cons size plan ih =>
    rw [flushPlannedBatches] at hflush
    obtain ⟨t, hbatch, hflush⟩ := Except.bind_eq_ok_iff.1 hflush
    obtain ⟨hone, hpending, hcalls⟩ := h.batch (by rw [List.take_append_drop]) hbatch
    have hrest := ih (by
      rw [hpending, List.length_drop]
      rw [List.sum_cons] at hsum
      omega) hone hflush
    rw [hpending, hcalls, List.append_assoc] at hrest
    exact hrest

/-- **A flush**: everything that was collected is in a batch. -/
theorem Accounted.flush (h : Accounted sha256Hex p env generation counts t₀ docs log s)
    (hflush : flushEmbeddingBatch sha256Hex p env generation s = .ok s') :
    Accounted sha256Hex p env generation counts t₀ docs (log ++ flushEvents env s) s' ∧ s'.pending = [] := by
  unfold flushEmbeddingBatch at hflush
  split at hflush
  · rename_i hempty
    cases hflush
    have hnil := List.isEmpty_iff.1 hempty
    have hnone : flushEvents env s = [] := by
      simp only [flushEvents, hnil, List.insertionSort_nil, List.map_nil]
      rfl
    rw [hnone, List.append_nil]
    exact ⟨h, hnil⟩
  · have hperm := List.perm_insertionSort (fun a b : PendingDoc => a.promptTokenLen ≤ b.promptTokenLen) s.pending
    have hsorted : Accounted sha256Hex p env generation counts t₀ docs log
        { s with pending := s.pending.insertionSort fun a b => a.promptTokenLen ≤ b.promptTokenLen } :=
      ⟨((hperm.map PendingDoc.document).append_left _).trans h.documents, h.report, h.rows, h.kept⟩
    exact hsorted.planned (by rw [sum_planAdaptiveBatches, List.length_map]) hflush

/-! ### A document -/

theorem withLog_reused (d : CodeDocument) :
    counts.withLog env (log ++ [.reused d]) =
      { counts.withLog env log with
        nodesEmbedded := (counts.withLog env log).nodesEmbedded + 1
        nodesReused := (counts.withLog env log).nodesReused + 1 } := by
  have hyes : (DocumentEvent.reused d).succeeds env = true := rfl
  simp only [EmbeddingIndexReport.withLog, DocumentEvent.succeeded_concat_of_succeeds hyes,
    DocumentEvent.failed_concat_of_succeeds hyes, DocumentEvent.takenOver_concat_reused, List.length_append,
    DocumentEvent.documents, List.length_singleton]

theorem Accounted.document
    (h : Accounted sha256Hex p env options.graphGeneration counts t₀ docs log s)
    (hstep : indexDocument sha256Hex project p options env s d = .ok s') :
    Accounted sha256Hex p env options.graphGeneration counts t₀ (docs ++ [d])
      (log ++ documentEvents sha256Hex project p env s d) s' := by
  have hold : ∀ d' ∈ DocumentEvent.succeeded env log,
      HasRowOf sha256Hex p options.graphGeneration (docs ++ [d]) s.vectors d' :=
    fun d' hd' => (h.rows d' hd').mono (List.subset_append_left _ _)
  unfold indexDocument at hstep
  unfold documentEvents
  cases hfind : s.vectors.find? (documentKey sha256Hex p project d) with
  | some existing =>
    simp only [hfind] at hstep ⊢
    obtain ⟨vectors, hwrite, rfl⟩ := Except.map_eq_ok_iff.1 hstep
    have hvectors := upsertVectorEmbedding_ok hwrite
    have hmem : d ∈ docs ++ [d] := List.mem_append_right _ (List.mem_singleton_self d)
    refine ⟨?_, ?_, ?_, ?_⟩
    · rw [List.flatMap_append, List.append_assoc]
      refine List.Perm.trans (List.Perm.append_left _ List.perm_append_comm) ?_
      rw [← List.append_assoc]
      exact h.documents.append_right [d]
    · rw [withLog_reused, ← h.report]
    · rw [DocumentEvent.succeeded_concat_of_succeeds rfl, hvectors]
      intro d' hd'
      rcases List.mem_append.1 hd' with hd' | hd'
      · exact (hold d' hd').upsert hmem _
      · rw [List.mem_singleton.1 hd']
        exact HasRowOf.of_upsert _ hmem _
    · rw [hvectors]
      exact h.kept.upsert _ _
  | none =>
    simp only [hfind] at hstep ⊢
    cases hlen : p.documentTokenLen (documentTitle d.node) d.chunk.text with
    | error e =>
      rw [hlen] at hstep
      cases hstep
    | ok promptTokenLen =>
      rw [hlen] at hstep
      have hcollected : Accounted sha256Hex p env options.graphGeneration counts t₀ (docs ++ [d]) log
          { s with pending := s.pending ++ [⟨d, documentTitle d.node, promptTokenLen⟩] } := by
        refine ⟨?_, h.report, hold, h.kept⟩
        rw [List.map_append, ← List.append_assoc]
        exact h.documents.append_right [d]
      simp only [bind, Except.bind] at hstep
      dsimp only
      split at hstep
      · rename_i hfull
        rw [if_pos hfull]
        exact (hcollected.flush hstep).1
      · rename_i hroom
        cases hstep
        rw [if_neg hroom, List.append_nil]
        exact hcollected

/-! ### A node -/

theorem withLog_addNode (fate : NodeFate) :
    (counts.addNode fate).withLog env log = (counts.withLog env log).addNode fate := by
  cases fate <;> rfl

theorem Accounted.addNode (h : Accounted sha256Hex p env generation counts t₀ docs log s) (fate : NodeFate) :
    Accounted sha256Hex p env generation (counts.addNode fate) t₀ docs log
      { s with report := s.report.addNode fate } :=
  ⟨h.documents, by rw [h.report, withLog_addNode], h.rows, h.kept⟩

theorem Accounted.node {n : Node}
    (h : Accounted sha256Hex p env options.graphGeneration counts t₀ docs log s)
    (hstep : indexNode embeddingChunks sha256Hex tree project p options env s n = .ok s') :
    Accounted sha256Hex p env options.graphGeneration
      (counts.addNode (nodeFate embeddingChunks tree p options n)) t₀
      (docs ++ nodeDocuments embeddingChunks tree p options n)
      (log ++ nodeEvents embeddingChunks sha256Hex tree project p options env s n) s' := by
  have hskip {fate : NodeFate} (hnone : nodeDocuments embeddingChunks tree p options n = [])
      (hs' : { s with report := s.report.addNode fate } = s') :
      Accounted sha256Hex p env options.graphGeneration (counts.addNode fate) t₀
        (docs ++ nodeDocuments embeddingChunks tree p options n)
        (log ++ nodeEvents embeddingChunks sha256Hex tree project p options env s n) s' := by
    rw [nodeEvents, hnone, List.eventsM, List.append_nil, List.append_nil, ← hs']
    exact h.addNode fate
  unfold indexNode at hstep
  rw [nodeFate]
  cases hsource : nodeSource tree n with
  | source text =>
    simp only [hsource] at hstep ⊢
    cases hchunks : chunksOfNode embeddingChunks p options n text with
    | error e =>
      simp only [hchunks] at hstep
      cases hstep
    | ok chunks =>
      have hdocs := nodeDocuments_of_source hsource hchunks
      simp only [hchunks, bind, Except.bind] at hstep
      split at hstep
      · rename_i hempty
        rw [List.isEmpty_iff.1 hempty, List.map_nil] at hdocs
        rw [if_pos (by rw [hdocs]; rfl)]
        cases hstep
        exact hskip hdocs rfl
      · rename_i hne
        have hne : ¬(nodeDocuments embeddingChunks tree p options n).isEmpty = true := by
          rw [hdocs, List.isEmpty_map]
          exact hne
        rw [if_neg hne, nodeEvents, ← hdocs] at *
        have hinit : Accounted sha256Hex p env options.graphGeneration (counts.addNode .documents) t₀
            (docs ++ []) log { s with report := s.report.addNode .documents } := by
          rw [List.append_nil]
          exact h.addNode .documents
        refine List.foldlM_ok_events (P := fun done log t =>
          Accounted sha256Hex p env options.graphGeneration (counts.addNode .documents) t₀ (docs ++ done) log t)
          (fun done log d t t' ht hone => ?_) [] hinit hstep
        rw [← List.append_assoc]
        exact ht.document hone
  | nonDefinition | missingFile | oversize =>
    simp only [hsource] at hstep ⊢
    have hnone : nodeDocuments embeddingChunks tree p options n = [] :=
      nodeDocuments_of_no_source (by simp [hsource])
    cases hstep
    exact hskip hnone rfl

/-! ### The pass -/

theorem nodeCounts_concat (done : List Node) (n : Node) :
    nodeCounts embeddingChunks tree p options (done ++ [n]) =
      (nodeCounts embeddingChunks tree p options done).addNode (nodeFate embeddingChunks tree p options n) := by
  rw [nodeCounts, List.map_append, List.foldl_append]
  rfl

variable (embeddingChunks tree p options) in
theorem sum_nodeCounts (nodes : List Node) :
    (nodeCounts embeddingChunks tree p options nodes).nodesConsidered = nodes.length ∧
      (nodeCounts embeddingChunks tree p options nodes).nodesSkippedNonDefinition +
          (nodeCounts embeddingChunks tree p options nodes).nodesSkippedMissingFile +
          (nodeCounts embeddingChunks tree p options nodes).nodesSkippedOversize +
          (nodeCounts embeddingChunks tree p options nodes).nodesSkippedInvalidSpan +
          nodes.countP (fun n => !(nodeDocuments embeddingChunks tree p options n).isEmpty) =
        nodes.length := by
  induction nodes using List.reverseRecOn with
  | nil => exact ⟨rfl, rfl⟩
  | append_singleton done n ih =>
    obtain ⟨hconsidered, hsum⟩ := ih
    rw [nodeCounts_concat, List.countP_append, List.countP_singleton, List.length_append,
      List.length_singleton]
    have hnone (h : ∀ text, nodeSource tree n ≠ .source text) :
        (nodeDocuments embeddingChunks tree p options n).isEmpty = true := by
      rw [nodeDocuments_of_no_source h]
      rfl
    unfold nodeFate
    cases hsource : nodeSource tree n with
    | source text =>
      cases hempty : (nodeDocuments embeddingChunks tree p options n).isEmpty with
      | true =>
        simp only [EmbeddingIndexReport.addNode, if_true, Bool.not_true, Bool.false_eq_true, if_false]
        omega
      | false =>
        simp only [EmbeddingIndexReport.addNode, Bool.not_false, Bool.false_eq_true, if_false, if_true]
        omega
    | nonDefinition | missingFile | oversize =>
      rw [hnone (by simp [hsource])]
      simp only [EmbeddingIndexReport.addNode, Bool.not_true, Bool.false_eq_true, if_false]
      omega

variable {vectors : VectorTable V} {n : Node} {d : CodeDocument}

theorem Accounted.nodes {nodes : List Node}
    (hnodes : nodes.foldlM (indexNode embeddingChunks sha256Hex tree project p options env)
      ⟨.zero, vectors, [], 0⟩ = .ok s)
    (hflush : flushEmbeddingBatch sha256Hex p env options.graphGeneration s = .ok s') :
    Accounted sha256Hex p env options.graphGeneration (nodeCounts embeddingChunks tree p options nodes) vectors
        (nodes.flatMap (nodeDocuments embeddingChunks tree p options))
        (List.eventsM (indexNode embeddingChunks sha256Hex tree project p options env)
            (nodeEvents embeddingChunks sha256Hex tree project p options env) ⟨.zero, vectors, [], 0⟩ nodes ++
          flushEvents env s) s' ∧
      s'.pending = [] := by
  refine Accounted.flush ?_ hflush
  have hstart : Accounted sha256Hex p env options.graphGeneration
      (nodeCounts embeddingChunks tree p options []) vectors [] []
      (⟨.zero, vectors, [], 0⟩ : EmbedState V) :=
    ⟨List.Perm.refl [], rfl, fun d hd => absurd hd List.not_mem_nil, RowsKept.refl vectors⟩
  refine List.foldlM_ok_events (P := fun done log t =>
    Accounted sha256Hex p env options.graphGeneration (nodeCounts embeddingChunks tree p options done) vectors
      (done.flatMap (nodeDocuments embeddingChunks tree p options)) log t)
    (fun done log n t t' ht hone => ?_) [] hstart hnodes
  rw [nodeCounts_concat, List.flatMap_append, List.flatMap_singleton]
  exact ht.node hone

/-! ### The count -/

theorem chunksOfNode_ok
    (h : indexNode embeddingChunks sha256Hex tree project p options env s n = .ok s')
    {text : String} (hsource : nodeSource tree n = .source text) :
    ∃ chunks, chunksOfNode embeddingChunks p options n text = .ok chunks := by
  unfold indexNode at h
  simp only [hsource] at h
  cases hchunks : chunksOfNode embeddingChunks p options n text with
  | error e =>
    simp only [hchunks] at h
    cases h
  | ok chunks => exact ⟨chunks, rfl⟩

theorem countCodeEmbeddingDocuments_of_nodes
    (h : (g.projectRows project).foldlM (indexNode embeddingChunks sha256Hex tree project p options env) s =
      .ok s') :
    countCodeEmbeddingDocuments embeddingChunks g tree project p options =
      .ok (min (codeDocuments embeddingChunks g tree project p options).length (2 ^ 64 - 1)) := by
  have hall : ∀ n ∈ g.projectRows project, ∀ text, nodeSource tree n = .source text →
      ∃ chunks, chunksOfNode embeddingChunks p options n text = .ok chunks := by
    refine List.foldlM_ok_induction (P := fun done _ => ∀ n ∈ done, ∀ text,
      nodeSource tree n = .source text → ∃ chunks, chunksOfNode embeddingChunks p options n text = .ok chunks)
      ?_ (fun n hn => absurd hn List.not_mem_nil) h
    intro done n t t' hdone hstep m hm text hsource
    rcases List.mem_append.1 hm with hm | hm
    · exact hdone m hm text hsource
    · rw [List.mem_singleton.1 hm] at hsource ⊢
      exact chunksOfNode_ok hstep hsource
  have hcount : ∃ total, countCodeEmbeddingDocuments embeddingChunks g tree project p options = .ok total := by
    rw [countCodeEmbeddingDocuments, Graph.pagedNodes_eq]
    refine List.exists_foldlM_ok (fun n hn total => ?_) 0
    cases hsource : nodeSource tree n with
    | source text =>
      obtain ⟨chunks, hchunks⟩ := hall n hn text hsource
      exact ⟨usizeSaturatingAdd total chunks.length, by simp only [hchunks, Except.map]⟩
    | nonDefinition | missingFile | oversize => exact ⟨total, rfl⟩
  obtain ⟨total, htotal⟩ := hcount
  rw [htotal, countCodeEmbeddingDocuments_eq g project htotal]

/-! ### Documents have keys of their own -/

theorem nodeDocuments_cases (hd : d ∈ nodeDocuments embeddingChunks tree p options n) :
    ∃ text chunks, nodeSource tree n = .source text ∧
      chunksOfNode embeddingChunks p options n text = .ok chunks ∧ d.node = n ∧ d.chunk ∈ chunks := by
  unfold nodeDocuments at hd
  split at hd
  · rename_i text hsource
    split at hd
    · rename_i chunks hchunks
      obtain ⟨chunk, hchunk, rfl⟩ := List.mem_map.1 hd
      exact ⟨text, chunks, hsource, hchunks, rfl, hchunk⟩
    · cases hd
  · cases hd

theorem node_of_mem_codeDocuments (hd : d ∈ codeDocuments embeddingChunks g tree project p options) :
    d.node ∈ g.nodes.rows ∧ d.node.project = project := by
  obtain ⟨n, hn, hd⟩ := List.mem_flatMap.1 hd
  obtain ⟨text, chunks, -, -, rfl, -⟩ := nodeDocuments_cases hd
  exact Graph.mem_projectRows.1 hn

/-- **A document has a key of its own**, since the chunks of a definition are numbered. -/
theorem eq_of_documentKey_eq {d' : CodeDocument}
    (hd : d ∈ codeDocuments Greppy.embeddingChunks g tree project p options)
    (hd' : d' ∈ codeDocuments Greppy.embeddingChunks g tree project p options)
    (hkey : documentKey sha256Hex p project d = documentKey sha256Hex p project d') : d = d' := by
  have hqname : d.node.qualifiedName = d'.node.qualifiedName := congrArg VectorKey.qualifiedName hkey
  have hidx : d.chunk.chunkIdx = d'.chunk.chunkIdx := congrArg VectorKey.chunkIdx hkey
  obtain ⟨hrow, hproject⟩ := node_of_mem_codeDocuments hd
  obtain ⟨hrow', hproject'⟩ := node_of_mem_codeDocuments hd'
  have hnode : d.node = d'.node :=
    g.nodes.eq_of_key_eq hrow hrow' (Prod.ext (hproject.trans hproject'.symm) hqname)
  obtain ⟨n, -, hd⟩ := List.mem_flatMap.1 hd
  obtain ⟨n', -, hd'⟩ := List.mem_flatMap.1 hd'
  obtain ⟨text, chunks, hsource, hchunks, rfl, hchunk⟩ := nodeDocuments_cases hd
  obtain ⟨text', chunks', hsource', hchunks', rfl, hchunk'⟩ := nodeDocuments_cases hd'
  rw [← hnode, hsource] at hsource'
  cases hsource'
  rw [← hnode, hchunks] at hchunks'
  cases hchunks'
  have hnodup : (chunks.map (·.chunkIdx)).Nodup := by
    rw [(numbered_embeddingChunks hchunks).chunkIdx]
    exact List.nodup_range.map fun _ _ => Int.ofNat_inj.1
  have hchunkEq := List.inj_on_of_nodup_map hnodup hchunk hchunk' hidx
  cases d
  cases d'
  exact congrArg₂ CodeDocument.mk hnode hchunkEq

/-! ### The account of a pass -/

theorem asI64_le (n : ℕ) : asI64 n ≤ n := by
  unfold asI64
  split
  · omega
  · omega

/-- The account of a pass that went through. -/
structure PassAccount (sha256Hex : String → String) (g : Graph) (tree : String → Option String)
    (project : String) (p : CodeEmbeddingProvider) (options : EmbeddingIndexOptions) (env : EmbedEnv V)
    (vectors : VectorTable V) (report : EmbeddingIndexReport) (vectors' : VectorTable V)
    (log : List DocumentEvent) : Prop where
  /-- The log has every document once. -/
  documents : (log.flatMap DocumentEvent.documents).Perm
    (codeDocuments Greppy.embeddingChunks g tree project p options)
  embedded : report.nodesEmbedded = (DocumentEvent.succeeded env log).length
  failed : report.nodesFailed = (DocumentEvent.failed env log).length
  /-- The count saturates. -/
  count : countCodeEmbeddingDocuments Greppy.embeddingChunks g tree project p options =
    .ok (min (report.nodesEmbedded + report.nodesFailed) (2 ^ 64 - 1))
  considered : report.nodesConsidered = (g.projectRows project).length
  skipped : report.nodesSkippedNonDefinition + report.nodesSkippedMissingFile + report.nodesSkippedOversize +
      report.nodesSkippedInvalidSpan + (g.projectRows project).countP
        (fun n => !(nodeDocuments Greppy.embeddingChunks tree p options n).isEmpty) =
    report.nodesConsidered
  /-- What succeeded has its own row of this generation. -/
  rows : ∀ d ∈ DocumentEvent.succeeded env log, ∃ vector,
    vectors'.find? (documentKey sha256Hex p project d) =
      some (documentRow sha256Hex p options.graphGeneration d vector)
  /-- Unless nothing failed, no row is deleted. -/
  kept : report.nodesFailed ≠ 0 → RowsKept options.graphGeneration vectors vectors'
  /-- If nothing failed, no row of an older generation is left.  Generations are compared as they are
  stored. -/
  pruned : report.nodesFailed = 0 → options.pruneBeforeGeneration = true → ∀ row ∈ vectors'.rows,
    row.project = project → asI64 options.graphGeneration ≤ asI64 row.graphGeneration ∧
      (options.graphGeneration < 2 ^ 63 → options.graphGeneration ≤ row.graphGeneration)

theorem find?_prune_documentRow {t : VectorTable V} {k : VectorKey} {vector : V}
    (h : t.find? k = some (documentRow sha256Hex p generation d vector)) (project : String) :
    (pruneVectorEmbeddingsBeforeGeneration project generation t).2.find? k =
      some (documentRow sha256Hex p generation d vector) := by
  simp only [pruneVectorEmbeddingsBeforeGeneration]
  rw [KeyedTable.find?_filter, h, Option.filter_some, if_pos]
  exact decide_eq_true (.inr le_rfl)

theorem Accounted.row
    (h : Accounted sha256Hex p env generation counts t₀
      (codeDocuments Greppy.embeddingChunks g tree project p options) log s)
    (hd : d ∈ DocumentEvent.succeeded env log) :
    ∃ vector, s.vectors.find? (documentKey sha256Hex p project d) =
      some (documentRow sha256Hex p generation d vector) := by
  have hmem : d ∈ codeDocuments Greppy.embeddingChunks g tree project p options := by
    obtain ⟨e, he, hde⟩ := List.mem_flatMap.1 hd
    exact h.documents.subset
      (List.mem_append_left _ (List.mem_flatMap.2 ⟨e, List.mem_of_mem_filter he, hde⟩))
  obtain ⟨d', hd', vector, hkey, hrow⟩ := h.rows d hd
  rw [(node_of_mem_codeDocuments hmem).2] at hkey hrow
  rw [(node_of_mem_codeDocuments hd').2] at hkey
  rw [eq_of_documentKey_eq hd' hmem hkey] at hrow
  exact ⟨vector, hrow⟩

/-- The account that is drawn up when nothing is pending any more, whether rows were pruned then or not. -/
theorem Accounted.passAccount
    (h : Accounted sha256Hex p env options.graphGeneration
      (nodeCounts Greppy.embeddingChunks tree p options (g.projectRows project)) t₀
      (codeDocuments Greppy.embeddingChunks g tree project p options) log s) (hnil : s.pending = [])
    (hcount : countCodeEmbeddingDocuments Greppy.embeddingChunks g tree project p options =
      .ok (min (codeDocuments Greppy.embeddingChunks g tree project p options).length (2 ^ 64 - 1)))
    (staleRowsPruned : ℕ)
    (hrows : ∀ k d vector,
      s.vectors.find? k = some (documentRow sha256Hex p options.graphGeneration d vector) →
      vectors.find? k = some (documentRow sha256Hex p options.graphGeneration d vector))
    (hkept : s.report.nodesFailed ≠ 0 → vectors = s.vectors)
    (hpruned : s.report.nodesFailed = 0 → options.pruneBeforeGeneration = true → ∀ row ∈ vectors.rows,
      row.project = project → asI64 options.graphGeneration ≤ asI64 row.graphGeneration) :
    PassAccount sha256Hex g tree project p options env t₀
      { s.report with staleRowsPruned := staleRowsPruned } vectors log := by
  have hdocuments := h.documents
  rw [hnil, List.map_nil, List.append_nil] at hdocuments
  obtain ⟨hconsidered, hsum⟩ := sum_nodeCounts Greppy.embeddingChunks tree p options (g.projectRows project)
  have hembedded : s.report.nodesEmbedded = (DocumentEvent.succeeded env log).length :=
    congrArg EmbeddingIndexReport.nodesEmbedded h.report
  have hfailed : s.report.nodesFailed = (DocumentEvent.failed env log).length :=
    congrArg EmbeddingIndexReport.nodesFailed h.report
  refine ⟨hdocuments, hembedded, hfailed, ?_, ?_, ?_, fun d hd => ?_, fun hne => ?_, ?_⟩
  · rw [hcount, ← hdocuments.length_eq, ← DocumentEvent.length_succeeded_add_failed env, ← hembedded, ← hfailed]
  · exact (congrArg EmbeddingIndexReport.nodesConsidered h.report).trans hconsidered
  · rw [h.report]
    exact hsum.trans hconsidered.symm
  · obtain ⟨vector, hrow⟩ := h.row hd
    exact ⟨vector, hrows _ d vector hrow⟩
  · rw [hkept hne]
    exact h.kept
  · intro hnone hprune row hrow hproject
    have hle := hpruned hnone hprune row hrow hproject
    refine ⟨hle, fun hsmall => ?_⟩
    rw [asI64_of_lt hsmall] at hle
    exact Int.ofNat_le.1 (hle.trans (asI64_le _))

/-- **An embedding pass accounts for every document.** -/
theorem indexCodeEmbeddings_accounts {vectors vectors' : VectorTable V} {report : EmbeddingIndexReport}
    (h : indexCodeEmbeddings Greppy.embeddingChunks sha256Hex g tree project p options env vectors =
      .ok (report, vectors')) :
    PassAccount sha256Hex g tree project p options env vectors report vectors'
      (passEvents Greppy.embeddingChunks sha256Hex g tree project p options env vectors) := by
  unfold indexCodeEmbeddings at h
  rw [Graph.pagedNodes_eq] at h
  unfold passEvents
  dsimp only
  cases hnodes : (g.projectRows project).foldlM
      (indexNode Greppy.embeddingChunks sha256Hex tree project p options env) ⟨.zero, vectors, [], 0⟩ with
  | error e =>
    rw [hnodes] at h
    cases h
  | ok s =>
    cases hflush : flushEmbeddingBatch sha256Hex p env options.graphGeneration s with
    | error e =>
      simp only [hnodes, hflush, bind, Except.bind] at h
      cases h
    | ok t =>
      simp only [hnodes, hflush, bind, Except.bind] at h
      obtain ⟨haccount, hnil⟩ := Accounted.nodes hnodes hflush
      have hcount := countCodeEmbeddingDocuments_of_nodes hnodes
      split at h
      · rename_i hprune
        obtain ⟨-, hcomplete⟩ := Bool.and_eq_true_iff.1 hprune
        cases h
        refine haccount.passAccount hnil hcount _ (fun k d vector hrow => find?_prune_documentRow hrow project)
          (fun hne => absurd (beq_iff_eq.1 hcomplete) hne) fun _ _ row hrow hproject => ?_
        have hcurrent := of_decide_eq_true (List.mem_filter.1 hrow).2
        exact hcurrent.resolve_left (not_not.2 hproject)
      · rename_i hprune
        cases h
        refine haccount.passAccount hnil hcount _ (fun k d vector hrow => hrow) (fun _ => rfl)
          fun hnone hyes => absurd ?_ hprune
        rw [hyes, EmbeddingIndexReport.isComplete, hnone]
        rfl

end Account

def failingFirst : EmbedEnv Unit where
  batchSize := 1
  embedCodeDocuments := fun call docs => if call = 0 then .error "failed" else .ok (docs.map fun _ => ())
  validateQueryVector := fun _ => .ok ()

/-- A file with two definitions, and a module that is no definition. -/
def twoDefinitions : Graph :=
  Graph.ofInserts ⟨"repo", "2026-06-29T00:00:00Z", "/repo"⟩
    [⟨"repo", "Function", "a", "a.rs::a", "a.rs", 1, 1, .obj []⟩,
      ⟨"repo", "Function", "b", "a.rs::b", "a.rs", 2, 2, .obj []⟩,
      ⟨"repo", "Module", "a", "a.rs", "a.rs", 1, 2, .obj []⟩] []

def twoDefinitionsPass : Except String (EmbeddingIndexReport × VectorTable Unit) :=
  indexCodeEmbeddings embeddingChunks (fun _ => String.ofList (List.replicate 64 '0')) twoDefinitions
    (fun _ => some "fn a() {}\nfn b() {}\n") "repo" (charModel 100) (.forGeneration 2) failingFirst
    KeyedTable.empty

theorem indexCodeEmbeddings_accounts_two : ∃ report vectors,
    twoDefinitionsPass = .ok (report, vectors) ∧ report.nodesEmbedded = 1 ∧ report.nodesFailed = 1 ∧
      ∃ log, PassAccount (fun _ => String.ofList (List.replicate 64 '0')) twoDefinitions
        (fun _ => some "fn a() {}\nfn b() {}\n") "repo" (charModel 100) (.forGeneration 2)
        failingFirst KeyedTable.empty report vectors log := by
  have hreport : twoDefinitionsPass.map Prod.fst = .ok ⟨3, 1, 0, 1, 0, 0, 0, 0, 1⟩ := by decide +kernel
  cases hpass : twoDefinitionsPass with
  | error e =>
    rw [hpass] at hreport
    cases hreport
  | ok result =>
    obtain ⟨report, vectors⟩ := result
    rw [hpass] at hreport
    cases hreport
    exact ⟨_, vectors, rfl, rfl, rfl, _, indexCodeEmbeddings_accounts hpass⟩

end Greppy
