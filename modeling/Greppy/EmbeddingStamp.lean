/-
**The completeness stamp of the embeddings.**

After a pass without failures `index_embeddings_into_temp_store` writes the graph generation and the model
to `schema_meta`, and `embedding_generation_complete` compares them with the current generation of the
workspace.  The stamp is never taken away: the next snapshot starts from a copy of the database, with the
stamp in it, and whether it still holds is left to the generation, which every index run advances.

It advances the generation of the tree that it indexes.  A run with `--root`, or in a directory below the
workspace root, may index another tree than the workspace into the database of the workspace.  Then the
generation of the workspace stays, and so does the stamp, while the graph is replaced.
-/

import Greppy.EmbeddingIndex
import Greppy.GuardedRun

set_option autoImplicit false

namespace Greppy

/-! ### The database and its tree -/

/-- The rows of a database that the stamp is about. -/
structure StoreRows (V : Type) where
  workspace : WorkspaceTable
  graph : Graph
  vectors : VectorTable V
  schemaMeta : KeyedTable (String × String) Prod.fst

def StoreRows.empty {V : Type} : StoreRows V :=
  ⟨KeyedTable.empty, Graph.empty, KeyedTable.empty, KeyedTable.empty⟩

/-- The active database, and the files that it was made from. -/
structure Snapshot (V : Type) where
  rows : StoreRows V
  tree : String → Option String

def Snapshot.initial {V : Type} : Snapshot V := ⟨StoreRows.empty, fun _ => none⟩

/-- `EmbeddingGemma`: the context length and the tokenizer of a model file. -/
structure EmbeddingGemma where
  maxLength : ℕ
  documentTokenLen : String → String → Except String ℕ

/-- `EmbeddingGemmaCodeProvider`. -/
def EmbeddingGemma.codeProvider (model : EmbeddingGemma) (modelId : String) : CodeEmbeddingProvider where
  modelId := modelId
  promptVersion := "embeddinggemma-code-retrieval-st-v2"
  taskProfile := "embeddinggemma_code_retrieval"
  maxInputTokens := model.maxLength
  documentTokenLen := model.documentTokenLen

/-! ### One attempt -/

/-- What becomes of the embeddings in an attempt: they are switched off, or too many for the foreground;
the model cannot be loaded; or it is loaded, and answers. -/
inductive EmbeddingMode (V : Type) where
  | off
  | deferred
  | unavailable
  | loaded (modelId : String) (env : EmbedEnv V)

structure IndexAttempt (V : Type) where
  /-- The active database can be copied. -/
  usable : Bool
  /-- The row of the tree that is indexed, `detect_repo_root` of the target. -/
  workspace : WorkspaceState
  now : String
  /-- The graph that the index run leaves, and the vector rows that went with its old nodes. -/
  graph : Graph
  cascaded : VectorRow V → Bool
  /-- No file was unreadable or left out. -/
  clean : Bool
  embedding : EmbeddingMode V
  tree : String → Option String
  /-- The files are still the same at the end. -/
  fresh : Bool

section Attempts

variable {V : Type} (models : String → EmbeddingGemma) (embeddingChunks : Chunker)
  (sha256Hex : String → String) (project : String)

def embeddingCompleteKey : String := "embedding_complete:" ++ project

/-- The stamp of a generation and a model. -/
def stampText (generation : ℕ) (modelId : String) : String := toString generation ++ "|" ++ modelId

/-- `index_embeddings_into_temp_store`: the stamp is withheld where the report is not complete. -/
def indexEmbeddingsIntoTempStore (tree : String → Option String) (generation : ℕ) (rows : StoreRows V) :
    EmbeddingMode V → Except String (StoreRows V)
  | .loaded modelId env => do
      let (report, vectors) ← indexCodeEmbeddings embeddingChunks sha256Hex rows.graph tree project
        ((models modelId).codeProvider modelId) (.forGeneration generation) env rows.vectors
      if report.isComplete then
        .ok { rows with
          vectors := vectors
          schemaMeta := rows.schemaMeta.upsert
            (embeddingCompleteKey project, stampText generation modelId) }
      else .ok { rows with vectors := vectors }
  | .off => .ok rows
  | .deferred => .ok rows
  | .unavailable => .ok rows

/-- `seed_temp_store_from_active_if_usable`, and `Store::open` where nothing was copied. -/
def seedRows (a : IndexAttempt V) (active : Snapshot V) : StoreRows V :=
  if a.usable then active.rows else StoreRows.empty

/-- `index_atomic_snapshot_attempt`: the snapshot to publish, if there is one. -/
def indexAtomicSnapshotAttempt (a : IndexAttempt V) (active : Snapshot V) :
    Except String (Option (Snapshot V)) :=
  let seed := seedRows a active
  let upserted := upsertWorkspaceState { a.workspace with graphGeneration := 0 } seed.workspace
  match bumpGeneration a.workspace.rootPath a.now upserted with
  | none => .error "bump_generation"
  | some (workspace, generation) =>
    let indexed : StoreRows V :=
      { seed with
        workspace := workspace
        graph := a.graph
        vectors := seed.vectors.filter fun row => !a.cascaded row }
    if a.clean then do
      let built ← indexEmbeddingsIntoTempStore models embeddingChunks sha256Hex project a.tree generation
        indexed a.embedding
      if a.fresh then .ok (some ⟨built, a.tree⟩) else .ok none
    else .ok none

/-- The active snapshot after an attempt. -/
def publish (active : Snapshot V) (a : IndexAttempt V) : Snapshot V :=
  match indexAtomicSnapshotAttempt models embeddingChunks sha256Hex project a active with
  | .ok (some published) => published
  | _ => active

/-! ### What a query asks -/

/-- `current_graph_generation`, of the workspace root. -/
def currentGraphGeneration (root : String) (rows : StoreRows V) : Option ℕ :=
  (rows.workspace.find? root).map WorkspaceState.graphGeneration

def embeddingGenerationComplete (rows : StoreRows V) (generation : ℕ) (modelId : String) : Bool :=
  decide ((rows.schemaMeta.find? (embeddingCompleteKey project)).map Prod.snd =
    some (stampText generation modelId))

/-- Every document that is counted on the indexed tree has a row of the generation and the model. -/
def EmbeddingsComplete (s : Snapshot V) (generation : ℕ) (modelId : String) : Prop :=
  let p := (models modelId).codeProvider modelId
  ∀ d ∈ codeDocuments embeddingChunks s.rows.graph s.tree project p (.forGeneration generation),
    HasVector sha256Hex p generation s.rows.vectors d

/-- Where the stamp holds for the current generation, the embeddings are complete. -/
def StampSound (root : String) (s : Snapshot V) : Prop :=
  ∀ generation modelId, currentGraphGeneration root s.rows = some generation →
    embeddingGenerationComplete project s.rows generation modelId = true →
    EmbeddingsComplete models embeddingChunks sha256Hex project s generation modelId

/-- An attempt that publishes a snapshot indexes the workspace root. -/
def IndexesRoot (root : String) (active : Snapshot V) (a : IndexAttempt V) : Prop :=
  ∀ published, indexAtomicSnapshotAttempt models embeddingChunks sha256Hex project a active =
    .ok (some published) → a.workspace.rootPath = root

/-! ### The stamp and the generation -/

theorem toList_stampText (generation : ℕ) (modelId : String) :
    (stampText generation modelId).toList = Nat.toDigits 10 generation ++ '|' :: modelId.toList := by
  rw [stampText, String.toList_append, String.toList_append, Nat.toString_eq_ofList_toDigits]
  simp

/-- **The stamp tells generations and models apart.** -/
theorem stampText_injective {generation generation' : ℕ} {modelId modelId' : String}
    (h : stampText generation modelId = stampText generation' modelId') :
    generation = generation' ∧ modelId = modelId' := by
  have hlist := congrArg String.toList h
  rw [toList_stampText, toList_stampText] at hlist
  obtain ⟨hgeneration, htail⟩ := Text.toDigits_append_inj (by decide) hlist
  exact ⟨hgeneration, String.toList_inj.1 htail⟩

/-! ### Spec lemmas -/

variable {models embeddingChunks sha256Hex project}

theorem indexEmbeddingsIntoTempStore_spec {tree : String → Option String} {generation : ℕ}
    {rows built : StoreRows V} {mode : EmbeddingMode V}
    (h : indexEmbeddingsIntoTempStore models embeddingChunks sha256Hex project tree generation rows mode =
      .ok built) :
    built.workspace = rows.workspace ∧ (built.schemaMeta = rows.schemaMeta ∨
      ∃ modelId, built.schemaMeta =
          rows.schemaMeta.upsert (embeddingCompleteKey project, stampText generation modelId) ∧
        EmbeddingsComplete models embeddingChunks sha256Hex project ⟨built, tree⟩ generation modelId) := by
  cases mode with
  | off | deferred | unavailable =>
    cases h
    exact ⟨rfl, Or.inl rfl⟩
  | loaded modelId env =>
    simp only [indexEmbeddingsIntoTempStore] at h
    obtain ⟨result, hpass, h⟩ := Except.bind_eq_ok_iff.1 h
    obtain ⟨report, vectors⟩ := result
    simp only [hpass, bind, Except.bind] at h
    split at h
    · rename_i hcomplete
      cases h
      exact ⟨rfl, Or.inr ⟨modelId, rfl, indexCodeEmbeddings_complete hpass hcomplete⟩⟩
    · cases h
      exact ⟨rfl, Or.inl rfl⟩

/-- What an attempt publishes: the workspace rows after a bump, and the old stamp or a new one. -/
theorem indexAtomicSnapshotAttempt_spec {a : IndexAttempt V} {active published : Snapshot V}
    (h : indexAtomicSnapshotAttempt models embeddingChunks sha256Hex project a active =
      .ok (some published)) :
    ∃ generation, bumpGeneration a.workspace.rootPath a.now
        (upsertWorkspaceState { a.workspace with graphGeneration := 0 } (seedRows a active).workspace) =
          some (published.rows.workspace, generation) ∧
      (published.rows.schemaMeta = (seedRows a active).schemaMeta ∨
        ∃ modelId, published.rows.schemaMeta = (seedRows a active).schemaMeta.upsert
            (embeddingCompleteKey project, stampText generation modelId) ∧
          EmbeddingsComplete models embeddingChunks sha256Hex project published generation modelId) := by
  simp only [indexAtomicSnapshotAttempt] at h
  split at h
  · cases h
  · rename_i workspace generation hbump
    split at h
    · obtain ⟨built, hembed, h⟩ := Except.bind_eq_ok_iff.1 h
      obtain ⟨hworkspace, hmeta⟩ := indexEmbeddingsIntoTempStore_spec hembed
      split at h
      · cases h
        refine ⟨generation, ?_, hmeta⟩
        rw [hbump, hworkspace]
      · cases h
    · cases h

/-- The bump after the upsert: the generation is above that of the row that was there. -/
theorem bumpGeneration_upserted {w : WorkspaceState} {rows rows' : WorkspaceTable} {now : String}
    {generation : ℕ}
    (hsmall : ∀ old, rows.find? w.rootPath = some old → old.graphGeneration < 2 ^ 63)
    (h : bumpGeneration w.rootPath now (upsertWorkspaceState { w with graphGeneration := 0 } rows) =
      some (rows', generation)) :
    generation < 2 ^ 63 ∧ (∃ new, rows'.find? w.rootPath = some new ∧ new.graphGeneration = generation) ∧
      ∀ old, rows.find? w.rootPath = some old → old.graphGeneration < generation := by
  obtain ⟨row, hrow, hrowSmall, hrowOld⟩ : ∃ row,
      (upsertWorkspaceState { w with graphGeneration := 0 } rows).find? w.rootPath = some row ∧
        row.graphGeneration < 2 ^ 63 ∧
        ∀ old, rows.find? w.rootPath = some old → old.graphGeneration = row.graphGeneration := by
    rw [find?_upsertWorkspaceState, if_pos rfl]
    cases hold : rows.find? w.rootPath with
    | none => exact ⟨_, rfl, by simp, by simp⟩
    | some old =>
      refine ⟨_, rfl, ?_, ?_⟩
      · exact hsmall old hold
      · simp
  unfold bumpGeneration at h
  rw [hrow] at h
  have hvalue := asI64_of_lt hrowSmall
  by_cases hmax : asI64 row.graphGeneration = 2 ^ 63 - 1
  · simp only [if_pos hmax] at h
    cases h
  · simp only [if_neg hmax, Option.some.injEq, Prod.mk.injEq] at h
    obtain ⟨rfl, rfl⟩ := h
    have hnext : asU64 (asI64 row.graphGeneration + 1) = row.graphGeneration + 1 := by
      unfold asU64
      omega
    let bumped : WorkspaceState :=
      { row with graphGeneration := asU64 (asI64 row.graphGeneration + 1), updatedAt := now }
    refine ⟨by omega, ⟨bumped, ?_, rfl⟩, ?_⟩
    · have hkey : row.rootPath = w.rootPath := KeyedTable.key_of_find? hrow
      rw [KeyedTable.find?_upsert]
      exact if_pos hkey
    · intro old hold
      have := hrowOld old hold
      omega

/-! ### The invariant -/

/-- The generation of the root is a small one, and the stamp was written for it or for one before it; if it
was written for it, the embeddings are complete. -/
structure StampInv (models : String → EmbeddingGemma) (embeddingChunks : Chunker)
    (sha256Hex : String → String) (project root : String) (s : Snapshot V) : Prop where
  small : ∀ w, s.rows.workspace.find? root = some w → w.graphGeneration < 2 ^ 63
  stamp : ∀ row, s.rows.schemaMeta.find? (embeddingCompleteKey project) = some row →
    ∃ generation modelId w, row.2 = stampText generation modelId ∧
      s.rows.workspace.find? root = some w ∧ generation ≤ w.graphGeneration ∧
      (generation = w.graphGeneration →
        EmbeddingsComplete models embeddingChunks sha256Hex project s generation modelId)

theorem stampInv_initial (root : String) :
    StampInv models embeddingChunks sha256Hex project root (Snapshot.initial : Snapshot V) := by
  constructor
  · intro w hw
    cases hw
  · intro row hrow
    cases hrow

theorem StampInv.sound {root : String} {s : Snapshot V}
    (h : StampInv models embeddingChunks sha256Hex project root s) :
    StampSound models embeddingChunks sha256Hex project root s := by
  intro generation modelId hcurrent hstamp
  obtain ⟨row, hrow, hvalue⟩ := Option.map_eq_some_iff.1 (of_decide_eq_true hstamp)
  obtain ⟨w, hw, hgeneration⟩ := Option.map_eq_some_iff.1 hcurrent
  obtain ⟨generation', modelId', w', htext, hw', _, hcomplete⟩ := h.stamp row hrow
  obtain ⟨rfl, rfl⟩ := stampText_injective (hvalue.symm.trans htext)
  rw [hw] at hw'
  cases hw'
  exact hcomplete hgeneration.symm

theorem StampInv.seedRows {root : String} {active : Snapshot V}
    (h : StampInv models embeddingChunks sha256Hex project root active) (a : IndexAttempt V) :
    (∀ w, (seedRows a active).workspace.find? root = some w → w.graphGeneration < 2 ^ 63) ∧
      ∀ row, (seedRows a active).schemaMeta.find? (embeddingCompleteKey project) = some row →
        ∃ generation modelId w, row.2 = stampText generation modelId ∧
          (seedRows a active).workspace.find? root = some w ∧ generation ≤ w.graphGeneration := by
  unfold Greppy.seedRows
  split
  · refine ⟨h.small, ?_⟩
    intro row hrow
    obtain ⟨generation, modelId, w, htext, hw, hle, _⟩ := h.stamp row hrow
    exact ⟨generation, modelId, w, htext, hw, hle⟩
  · constructor
    · intro w hw
      cases hw
    · intro row hrow
      cases hrow

/-- **A run of the workspace root keeps the invariant.** -/
theorem publish_inv {root : String} (active : Snapshot V) (a : IndexAttempt V)
    (h : StampInv models embeddingChunks sha256Hex project root active)
    (hroot : IndexesRoot models embeddingChunks sha256Hex project root active a) :
    StampInv models embeddingChunks sha256Hex project root
      (publish models embeddingChunks sha256Hex project active a) := by
  unfold publish
  split
  · rename_i published hattempt
    have hpath := hroot published hattempt
    obtain ⟨hsmall, hstamp⟩ := h.seedRows a
    obtain ⟨generation, hbump, hmeta⟩ := indexAtomicSnapshotAttempt_spec hattempt
    rw [← hpath] at hsmall hstamp ⊢
    obtain ⟨hlt, ⟨new, hnew, rfl⟩, hold⟩ := bumpGeneration_upserted hsmall hbump
    constructor
    · intro w hw
      rw [hnew] at hw
      cases hw
      exact hlt
    · intro row hrow
      rcases hmeta with hsame | ⟨modelId, hwritten, hcomplete⟩
      · -- the old stamp is of a generation before this one
        rw [hsame] at hrow
        obtain ⟨stamped, modelId, w, htext, hw, hle⟩ := hstamp row hrow
        have hbefore := hold w hw
        exact ⟨stamped, modelId, new, htext, hnew, by omega, fun heq => by omega⟩
      · rw [hwritten, KeyedTable.find?_upsert, if_pos rfl] at hrow
        cases hrow
        exact ⟨new.graphGeneration, modelId, new, rfl, hnew, le_rfl, fun _ => hcomplete⟩
  · exact h

/-- **The stamp is sound while every published run indexes the workspace root.** -/
theorem embedding_stamp_sound (models : String → EmbeddingGemma) (embeddingChunks : Chunker)
    (sha256Hex : String → String) (project root : String) (attempts : List (IndexAttempt V))
    (h : Guarded (publish models embeddingChunks sha256Hex project)
      (IndexesRoot models embeddingChunks sha256Hex project root) Snapshot.initial attempts) :
    ∀ s ∈ attempts.scanl (publish models embeddingChunks sha256Hex project) Snapshot.initial,
      StampSound models embeddingChunks sha256Hex project root s := by
  intro s hs
  exact StampInv.sound
    (forall_mem_scanl_of_guarded (fun t a ht ha => publish_inv t a ht ha) (stampInv_initial root) h s hs)

end Attempts

/-! ### Two runs -/

/-- A model that counts the tokens of the two documents below. -/
def smallModel (_ : String) : EmbeddingGemma := ⟨2048, fun _ _ => .ok 24⟩

def oneLineChunk : Chunker := fun source startLine _ _ _ _ =>
  .ok [⟨0, startLine, startLine,
    String.ofList ((Text.lines source.toList).getD (startLine.toNat - 1) [] ++ ['\n'])⟩]

/-- The digests of the two documents below. -/
def smallDigest (text : String) : String :=
  if text = "fn a() \x7b\x7d\n" then "509a0a5b5ce4e59f5039e30a39324342d7a161296bb8eba761983faaeebf6efd"
  else "17152f40315250ae36680f5e9a2b95a421beea50cd8471c9c5a600e40401f59f"

def answering : EmbedEnv Unit := ⟨16, fun _ docs => .ok (docs.map fun _ => ()), fun _ => .ok ()⟩

/-- A tree of one function in one file. -/
def oneFunction (name : String) (text : String) (root : String) (embedding : EmbeddingMode Unit) :
    IndexAttempt Unit where
  usable := true
  workspace := ⟨root, none, none, none, none, 14, "greppy-indexer-v4", 0, "2026-06-29T00:00:00Z"⟩
  now := "2026-06-29T00:00:00Z"
  graph := Graph.ofInserts ⟨"repo", "2026-06-29T00:00:00Z", root⟩
    [⟨"repo", "Function", name, name ++ ".rs::" ++ name, name ++ ".rs", 1, 1, .obj []⟩] []
  cascaded := fun row => decide (row.filePath ≠ name ++ ".rs")
  clean := true
  embedding := embedding
  tree := fun path => if path = name ++ ".rs" then some text else none
  fresh := true

/-- `greppy index /repo`. -/
def indexRepo (embedding : EmbeddingMode Unit) : IndexAttempt Unit :=
  oneFunction "a" "fn a() \x7b\x7d\n" "/repo" embedding

/-- `greppy index /other --root /repo`. -/
def indexOther (embedding : EmbeddingMode Unit) : IndexAttempt Unit :=
  oneFunction "b" "fn b() \x7b\x7d\n" "/other" embedding

/-- The workspace is indexed, indexed again with the embeddings deferred, and a third time. -/
def repoAttempts : List (IndexAttempt Unit) :=
  [indexRepo (.loaded "m" answering), indexRepo .deferred, indexRepo (.loaded "m" answering)]

/-- The embeddings of the workspace are complete, and then another tree is indexed. -/
def otherAttempts : List (IndexAttempt Unit) := [indexRepo (.loaded "m" answering), indexOther .deferred]

def afterAttempts (attempts : List (IndexAttempt Unit)) : Snapshot Unit :=
  attempts.foldl (publish smallModel oneLineChunk smallDigest "repo") Snapshot.initial

theorem embedding_stamp_sound_repo :
    embeddingGenerationComplete "repo" (afterAttempts repoAttempts).rows 3 "m" = true ∧
      ∀ s ∈ repoAttempts.scanl (publish smallModel oneLineChunk smallDigest "repo") Snapshot.initial,
        StampSound smallModel oneLineChunk smallDigest "repo" "/repo" s := by
  refine ⟨by decide +kernel, ?_⟩
  exact embedding_stamp_sound smallModel oneLineChunk smallDigest "repo" "/repo" repoAttempts
    ⟨fun _ _ => rfl, fun _ _ => rfl, fun _ _ => rfl, trivial⟩

/-- The stamp outlives the graph that it was written for. -/
theorem embedding_stamp_outlives_graph :
    ¬ ∀ s ∈ otherAttempts.scanl (publish smallModel oneLineChunk smallDigest "repo") Snapshot.initial,
      StampSound smallModel oneLineChunk smallDigest "repo" "/repo" s := by
  intro h
  have hlast : afterAttempts otherAttempts ∈
      otherAttempts.scanl (publish smallModel oneLineChunk smallDigest "repo") Snapshot.initial := by
    simp [otherAttempts, afterAttempts]
  have hcomplete := h _ hlast 1 "m" (by decide +kernel) (by decide +kernel)
  -- the document of the other tree has no row
  have hmissing : ((codeDocuments oneLineChunk (afterAttempts otherAttempts).rows.graph
      (afterAttempts otherAttempts).tree "repo" ((smallModel "m").codeProvider "m")
      (.forGeneration 1)).any fun d =>
        ((afterAttempts otherAttempts).rows.vectors.find?
          (documentKey smallDigest ((smallModel "m").codeProvider "m") d.node.project d)).isNone) = true := by
    decide +kernel
  obtain ⟨d, hd, hnone⟩ := List.any_eq_true.1 hmissing
  obtain ⟨row, hrow, _⟩ := hcomplete d hd
  rw [hrow] at hnone
  cases hnone

end Greppy
