/-
**Publishing an index atomically.**

`index_atomic_snapshot` builds a new database in a temporary file, seeded from the active one, checks
it, and renames it onto the name of the active one; when the working tree changed in the meantime it
tries once more.  Before the rename the active database is validated as well, and one that does not
pass is moved out of the way.

Readers open `graph.db` with its log at any time, and a process that is killed leaves the directory
as it is.  So the question is which directories a run goes through.  What SQLite does in its calls is
given from outside; `AttemptEnv.Sound` says what its documentation promises of them: a call on a database
never takes its rows away, not even for a moment, and after a checkpoint the log is not needed.
-/

import Greppy.StoreFiles

set_option autoImplicit false

namespace Publication

open Process

/-! ### What a run finds outside the directory -/

/-- The answers while the active database is validated. -/
structure PrepareEnv (C : Type) where
  statFails : Bool
  opened : OpenEnv C
  checkpoint : SqliteOp C Unit
  integrityCheck : SqliteOp C Unit
  close : SqliteOp C Unit

/-- `IndexReport`, as far as it decides about the snapshot. -/
structure IndexReport where
  filesUnreadable : ℕ
  filesSkippedByFileLimit : ℕ
  filesSkippedByTimeBudget : ℕ
deriving DecidableEq

def IndexReport.isClean (report : IndexReport) : Bool := report.filesUnreadable == 0

structure EmbeddingIndexReport where
  nodesEmbedded : ℕ
  nodesFailed : ℕ
deriving DecidableEq

inductive EmbeddingBuildOutcome where
  | complete (report : EmbeddingIndexReport)
  | degraded (report : Option EmbeddingIndexReport) (reason : String)

structure IndexSnapshotReport where
  index : IndexReport
  embeddings : Option EmbeddingIndexReport
  embeddingDeferred : Bool
  embeddingDegraded : Option String

structure AttemptEnv (C : Type) where
  nextStamp : ℕ
  corruptStamp : ℕ
  seed : PrepareEnv C
  /-- Whether the clone of the active database succeeds, where the platform has one. -/
  clones : Bool
  /-- The answers of `stat` and `df` in `ensure_copy_headroom`. -/
  headroom : Except SnapshotError Unit
  /-- What a copy has written while it is not complete. -/
  copied : List C
  temp : OpenEnv C
  /-- `index_with_options`. -/
  index : SqliteOp C IndexReport
  /-- Whether the embeddings are deferred, from the number of their candidates. -/
  deferred : SqliteOp C Bool
  /-- `index_embeddings_into_temp_store`. -/
  embed : SqliteOp C EmbeddingBuildOutcome
  checkpoint : SqliteOp C Unit
  integrityCheck : SqliteOp C Unit
  /-- `maybe_index_test_failpoint`. -/
  failpoint : Except SnapshotError Unit
  verify : OpenEnv C
  /-- `check_files_report_with_ttl`: whether the outcome is `Fresh`. -/
  freshness : SqliteOp C Bool
  publish : PrepareEnv C
  /-- The second look at the active path, after it did not pass. -/
  statFailsAgain : Bool

variable {C : Type} (env : FsEnv) (empty : C)

/-! ### The active database -/

def prepareExistingActiveStore (p : PrepareEnv C) (activePath : String) : Act C Unit := do
  if ← pathExists p.statFails activePath then
    ensureDbMode env activePath
    storeOpen env p.opened activePath
    closing p.close activePath do
      checkpointStore env p.checkpoint activePath
      rescue (runSqlite p.integrityCheck activePath) fun e =>
        fail (.store ("active index integrity_check failed for " ++ env.display activePath ++
          " before snapshot publish: " ++ e.text))
    cleanupSqliteSidecars env activePath
    ensureDbMode env activePath

def activeSnapshotIsRecoverable : SnapshotError → Bool
  | .store _ => true
  | _ => false

def quarantineActiveStore (stamp : ℕ) (activePath : String) : Act C String := do
  let quarantinePath := uniqueStoreSibling env activePath "corrupt" stamp
  cleanupSqliteFamily env quarantinePath
  orIo ("quarantine corrupt active index " ++ env.display activePath ++ " to " ++
    env.display quarantinePath) (renameFile env activePath quarantinePath)
  ignore (renameFileIfExists env (sqliteSidecar activePath "-wal")
    (sqliteSidecar quarantinePath "-wal"))
  ignore (renameFileIfExists env (sqliteSidecar activePath "-shm")
    (sqliteSidecar quarantinePath "-shm"))
  ignore (syncParentDir env)
  pure quarantinePath

/-! ### The temporary database -/

/-- `try_clone_store_file`, on each platform.  `empty` is the content of a file that was just created. -/
def tryCloneStoreFile (clones : Bool) (source target : String) : Act C Bool := do
  match env.platform with
  | .linux =>
    orIo ("open " ++ env.display source ++ " for reflink") (useFile env source)
    orIo ("create " ++ env.display target ++ " for reflink") (attempt env do
      let dir ← current
      enter (dir.put target (some empty))
      pure (.ok ()))
    if clones then
      let dir ← current
      enter (dir.put target (dir.get source))
    else removeFileIfExists env target
    pure clones
  | .macos =>
    if clones then
      let dir ← current
      enter (dir.put target (dir.get source))
    else ignore (removeFileIfExists env target)
    pure clones
  | .otherUnix => pure false

/-- `std::fs::copy`: the target is created and filled step by step. -/
def copyFile (partials : List C) (source target : String) : Act C (Except IoError Unit) :=
  attempt env do
    let dir ← current
    match dir.get source with
    | none => pure (.error .notFound)
    | some content =>
      let _ ← foldEach (fun (_ : Unit) written => enter (dir.put target (some written))) partials ()
      attempt env do
        enter (dir.put target (some content))
        pure (.ok ())

def ensureCopyHeadroom (headroom : Except SnapshotError Unit) : Act C Unit :=
  match headroom with
  | .ok () => pure ()
  | .error e => fail e

def seedTempStoreFromActiveIfUsable (a : AttemptEnv C) (activePath tempPath : String) :
    Act C Bool := do
  if ← pathExists a.seed.statFails activePath then
    let usable ← rescue
      (do
        prepareExistingActiveStore env a.seed activePath
        pure true)
      fun e => if activeSnapshotIsRecoverable e then pure false else fail e
    if usable then
      if ← tryCloneStoreFile env empty a.clones activePath tempPath then
        ensureDbMode env tempPath
        pure true
      else
        ensureCopyHeadroom a.headroom
        orIo ("seed temp index " ++ env.display tempPath ++ " from active " ++
          env.display activePath) (copyFile env a.copied activePath tempPath)
        ensureDbMode env tempPath
        pure true
    else pure false
  else pure false

/-- Go on with a temporary database, and remove it when that fails. -/
def orDiscard {α : Type} (close : SqliteOp C Unit) (tempPath : String) (m : Act C α) : Act C α :=
  rescue m fun e => do
    runSqliteQuiet close tempPath
    ignore (cleanupSqliteFamily env tempPath)
    fail e

/-- Whether the embeddings are deferred; a count that fails defers nothing. -/
def embeddingDeferred (a : AttemptEnv C) (embeddingConfigured allowDeferred : Bool)
    (tempPath : String) : Act C Bool :=
  if embeddingConfigured && allowDeferred then
    rescue (runSqlite a.deferred tempPath) fun _ => pure false
  else pure false

/-- The embeddings of the temporary database: deferred, not wanted, or built inline. -/
def embedTempStore (a : AttemptEnv C) (embeddingConfigured allowDeferred : Bool)
    (tempPath : String) : Act C (Bool × Option EmbeddingIndexReport × Option String) := do
  let deferred ← embeddingDeferred a embeddingConfigured allowDeferred tempPath
  if embeddingConfigured && !deferred then
    match ← orDiscard env a.temp.close tempPath (runSqlite a.embed tempPath) with
    | .complete report => pure (deferred, some report, none)
    | .degraded report reason => pure (deferred, report, some reason)
  else pure (deferred, none, none)

/-! ### Publication -/

/-- `publish_store_snapshot`, on Unix. -/
def publishStoreSnapshot (a : AttemptEnv C) (tempPath activePath : String) : Act C Unit := do
  rescue (prepareExistingActiveStore env a.publish activePath) fun e => do
    if activeSnapshotIsRecoverable e then
      if ← pathExists a.statFailsAgain activePath then
        let _ ← quarantineActiveStore env a.corruptStamp activePath
        pure ()
      else fail e
    else fail e
  let backupPath := storeSibling activePath "prev"
  cleanupSqliteFamily env backupPath
  orIo ("atomically publish temp index " ++ env.display tempPath ++ " to " ++
    env.display activePath) (renameFile env tempPath activePath)
  ensureDbMode env activePath
  syncFile env activePath
  cleanupSqliteSidecars env tempPath
  cleanupSqliteFamily env backupPath
  syncParentDir env

/-- The checks of the temporary database once it is built: whether it is still fresh. -/
def verifyTempStore (a : AttemptEnv C) (tempPath : String) : Act C Bool := do
  closing a.temp.close tempPath do
    checkpointStore env a.checkpoint tempPath
    rescue (runSqlite a.integrityCheck tempPath) fun e =>
      fail (.store ("temp index integrity_check failed for " ++ env.display tempPath ++ ": " ++ e.text))
  cleanupSqliteSidecars env tempPath
  syncFile env tempPath
  syncParentDir env
  match a.failpoint with
  | .error e => fail e
  | .ok () =>
    storeOpenReadOnly env a.verify tempPath
    closing a.verify.close tempPath (runSqlite a.freshness tempPath)

def indexAtomicSnapshotAttempt (a : AttemptEnv C) (embeddingConfigured allowDeferred : Bool)
    (activePath : String) : Act C (Option IndexSnapshotReport) := do
  let _ ← cleanupStaleSnapshotArtifacts env activePath true
  let tempPath := uniqueStoreSibling env activePath "next" a.nextStamp
  cleanupSqliteFamily env tempPath
  let _ ← seedTempStoreFromActiveIfUsable env empty a activePath tempPath
  rescue (storeOpen env a.temp tempPath) fun e => do
    ignore (cleanupSqliteFamily env tempPath)
    fail e
  let report ← orDiscard env a.temp.close tempPath (runSqlite a.index tempPath)
  if !report.isClean || decide (0 < report.filesSkippedByFileLimit) ||
      decide (0 < report.filesSkippedByTimeBudget) then
    runSqliteQuiet a.temp.close tempPath
    cleanupSqliteFamily env tempPath
    pure (some ⟨report, none, false, none⟩)
  else
    let (deferred, embeddings, degraded) ←
      embedTempStore env a embeddingConfigured allowDeferred tempPath
    if ← verifyTempStore env a tempPath then
      publishStoreSnapshot env a tempPath activePath
      let _ ← cleanupStaleSnapshotArtifacts env activePath true
      pure (some ⟨report, embeddings, deferred, degraded⟩)
    else
      cleanupSqliteFamily env tempPath
      pure none

/-- `index_atomic_snapshot`: two attempts. -/
def indexAtomicSnapshot (attempts : ℕ → AttemptEnv C) (embeddingConfigured allowDeferred : Bool)
    (activePath : String) : Act C IndexSnapshotReport := do
  match ← indexAtomicSnapshotAttempt env empty (attempts 0) embeddingConfigured allowDeferred
      activePath with
  | some report => pure report
  | none =>
    match ← indexAtomicSnapshotAttempt env empty (attempts 1) embeddingConfigured allowDeferred
        activePath with
    | some report => pure report
    | none => fail (.store
        "workspace kept changing during indexing; snapshot was not published")

/-! ### What SQLite promises -/

section Sound

variable {R : Type} (rows : C → Option C → R)

/-- The rows that the files of a database show: the file is read together with its log. -/
def rowsOf (f : Family C) : Option R := f.main.map fun content => rows content f.wal

/-- The call never takes the rows of a database away, not even on the way. -/
def KeepsRows {α : Type} (op : SqliteOp C α) : Prop :=
  ∀ f, f.main ≠ none → ∀ f' ∈ (op f).visited ++ [(op f).final], rowsOf rows f' = rowsOf rows f

/-- The database shows its rows without its log. -/
def Flushed (f : Family C) : Prop := ∃ content, f.main = some content ∧ rows content none = rows content f.wal

/-- The call keeps the rows, and does not write to the log. -/
structure Reads {α : Type} (op : SqliteOp C α) : Prop where
  keeps : KeepsRows rows op
  flushed : ∀ f, Flushed rows f → Flushed rows (op f).final

/-- The call keeps the rows, and when it succeeds the log is not needed. -/
structure Checkpoints (op : SqliteOp C Unit) : Prop where
  keeps : KeepsRows rows op
  flushes : ∀ f, f.main ≠ none → (op f).result = .ok () → Flushed rows (op f).final

/-- What SQLite promises of the calls that validate a database.  Opening it brings its schema up to date
and removes expired packs; `rows` are the graph, the vectors and the state of the workspace, which
that leaves alone. -/
structure PrepareEnv.Sound (p : PrepareEnv C) : Prop where
  connect : KeepsRows rows p.opened.connect
  journalMode : KeepsRows rows p.opened.journalMode
  pragmas : KeepsRows rows p.opened.pragmas
  migrate : KeepsRows rows p.opened.migrate
  openCheck : KeepsRows rows p.opened.integrityCheck
  prune : KeepsRows rows p.opened.prune
  openClose : KeepsRows rows p.opened.close
  checkpoint : Checkpoints rows p.checkpoint
  integrityCheck : Reads rows p.integrityCheck
  close : Reads rows p.close

/-- What SQLite promises of the calls of an attempt: what was built stays there, and checking it does
not change it. -/
structure AttemptEnv.Sound (a : AttemptEnv C) : Prop where
  seed : a.seed.Sound rows
  publish : a.publish.Sound rows
  index : ∀ f report, (a.index f).result = .ok report → (a.index f).final.main ≠ none
  deferred : KeepsRows rows a.deferred
  embed : ∀ f outcome, (a.embed f).result = .ok outcome → (a.embed f).final.main ≠ none
  checkpoint : Checkpoints rows a.checkpoint
  integrityCheck : Reads rows a.integrityCheck
  tempClose : Reads rows a.temp.close
  verifyConnect : Reads rows a.verify.connect
  freshness : Reads rows a.freshness
  verifyClose : Reads rows a.verify.close

/-- The validation before the publication does not give up on a database that shows these rows: it can be
looked at, and no call on it ends with an error of the store. -/
structure PrepareEnv.Validates (p : PrepareEnv C) (shown : Option R) : Prop where
  stat : p.statFails = false
  migrate : ∀ f e, rowsOf rows f = shown → (p.opened.migrate f).result = .error e →
    activeSnapshotIsRecoverable e = false
  openCheck : ∀ f e, rowsOf rows f = shown → (p.opened.integrityCheck f).result = .error e →
    activeSnapshotIsRecoverable e = false
  checkpoint : ∀ f e, rowsOf rows f = shown → (p.checkpoint f).result ≠ .error e
  integrityCheck : ∀ f e, rowsOf rows f = shown → (p.integrityCheck f).result ≠ .error e

/-! ### What the active path names -/

/-- The files hold what the index pass of the attempt built completely, and what the embedding pass made
of it, if there was one. -/
def Built (a : AttemptEnv C) (f : Family C) : Prop :=
  ∃ f₀ report, (a.index f₀).result = .ok report ∧ report.isClean = true ∧
    report.filesSkippedByFileLimit = 0 ∧ report.filesSkippedByTimeBudget = 0 ∧
    (rowsOf rows f = rowsOf rows (a.index f₀).final ∨
      ∃ f₁ outcome, rowsOf rows f₁ = rowsOf rows (a.index f₀).final ∧
        (a.embed f₁).result = .ok outcome ∧ rowsOf rows f = rowsOf rows (a.embed f₁).final)

/-- The content is a snapshot of the attempt: it shows, on its own, the rows that were built, that
passed the integrity check and that were fresh. -/
def IsSnapshot (a : AttemptEnv C) (content : C) : Prop :=
  ∃ built checked fresh : Family C, Built rows a built ∧
    (a.integrityCheck checked).result = .ok () ∧ (a.freshness fresh).result = .ok true ∧
    rowsOf rows built = some (rows content none) ∧
    rowsOf rows checked = some (rows content none) ∧
    rowsOf rows fresh = some (rows content none)

/-- The active path names what it named before: a database with these rows, or nothing, also no log that
a database of the name would be read with. -/
structure Unchanged (shown : Option R) (dir : Dir C) : Prop where
  rows_eq : rowsOf rows (dir.family activeName) = shown
  no_log : dir.get activeName = none → dir.get (sqliteSidecar activeName "-wal") = none

/-- The active path names a snapshot of one of the attempts, without a log. -/
def Published (attempts : ℕ → AttemptEnv C) (dir : Dir C) : Prop :=
  ∃ k content, dir.get activeName = some content ∧
    dir.get (sqliteSidecar activeName "-wal") = none ∧ IsSnapshot rows (attempts k) content

/-- What was not in the directory before belongs to the active database or is a left-over. -/
def Leaves (before dir : Dir C) : Prop :=
  ∀ name, dir.get name ≠ none →
    before.get name ≠ none ∨ name ∈ familyNames activeName ∨ Managed name

end Sound

/-! ### Validating the active database -/

section Validate

variable {R : Type} {rows : C → Option C → R} {shown : Option R} {I L : Dir C → Prop} {α : Type}
  (hL : Ignores (· ∈ familyNames activeName) L)
  (hI : ∀ dir, L dir → rowsOf rows (dir.family activeName) = shown → I dir)

/-- The active database shows these rows, and the rest is as it should be. -/
abbrev Shows (rows : C → Option C → R) (shown : Option R) (L : Dir C → Prop) (dir : Dir C) : Prop :=
  L dir ∧ rowsOf rows (dir.family activeName) = shown

variable {f : Family C} {r : R} {op : SqliteOp C α} {E : SnapshotError → Dir C → Prop}

theorem main_ne_none_of_rowsOf (h : rowsOf rows f = some r) : f.main ≠ none := by
  intro hnone
  rw [rowsOf, hnone] at h
  cases h

theorem KeepsRows.final (hop : KeepsRows rows op) (h : f.main ≠ none) :
    rowsOf rows (op f).final = rowsOf rows f :=
  hop f h _ (List.mem_append_right _ (List.mem_singleton.2 rfl))

include hL hI

/-- A call on the active database, with a condition on its files that the call establishes or keeps. -/
theorem guards_active (hop : KeepsRows rows op) (hr : shown = some r) {T : Family C → Prop}
    {Q : α → Family C → Prop}
    (hQ : ∀ f a, T f → rowsOf rows f = shown → (op f).result = .ok a → Q a (op f).final) :
    Guards I (fun dir => L dir ∧ rowsOf rows (dir.family activeName) = shown ∧ T (dir.family activeName))
      (runSqlite op activeName)
      (fun a dir => L dir ∧ rowsOf rows (dir.family activeName) = shown ∧
        Q a (dir.family activeName))
      (fun e dir => L dir ∧ rowsOf rows (dir.family activeName) = shown ∧
        ∃ f, rowsOf rows f = shown ∧ (op f).result = .error e) := by
  subst hr
  have hfinal : ∀ f, rowsOf rows f = some r → rowsOf rows (op f).final = some r :=
    fun f hf => (hop.final (main_ne_none_of_rowsOf hf)).trans hf
  refine guards_runSqlite (K := L) (S := fun f => rowsOf rows f = some r)
    (T := fun f => rowsOf rows f = some r ∧ T f)
    (Q := fun a f => rowsOf rows f = some r ∧ Q a f)
    (F := fun e f => rowsOf rows f = some r ∧ ∃ f, rowsOf rows f = some r ∧ (op f).result = .error e)
    hL hI ?_ ?_ ?_
  · intro f hf f' hmem
    exact (hop f (main_ne_none_of_rowsOf hf.1) f' hmem).trans hf.1
  · intro f a hf hresult
    exact ⟨hfinal f hf.1, hQ f a hf.2 hf.1 hresult⟩
  · intro f e hf hresult
    exact ⟨hfinal f hf.1, f, hf.1, hresult⟩

/-- A call whose failure does not matter, and a condition that it keeps. -/
theorem guards_activeQuiet {op : SqliteOp C Unit} (hop : KeepsRows rows op) (hr : shown = some r) :
    Guards I (Shows rows shown L) (runSqliteQuiet op activeName) (fun _ => Shows rows shown L) E := by
  have hcall := guards_active hL hI hop hr (T := fun _ => True) (Q := fun _ _ => True)
    fun _ _ _ _ _ => trivial
  exact guards_ignore (hcall.mono (fun _ h => ⟨h.1, h.2, trivial⟩) (fun _ _ h => ⟨h.1, h.2.1⟩)
    fun _ _ h => ⟨h.1, h.2.1⟩)

theorem guards_activeClose {op : SqliteOp C Unit} (hop : Reads rows op) (hr : shown = some r) :
    Guards I (fun dir => L dir ∧ rowsOf rows (dir.family activeName) = shown ∧
        Flushed rows (dir.family activeName))
      (runSqliteQuiet op activeName)
      (fun _ dir => L dir ∧ rowsOf rows (dir.family activeName) = shown ∧
        Flushed rows (dir.family activeName)) E := by
  subst hr
  refine guards_ignore (guards_runSqlite (K := L) (S := fun f => rowsOf rows f = some r)
    (T := fun f => rowsOf rows f = some r ∧ Flushed rows f)
    (Q := fun _ f => rowsOf rows f = some r ∧ Flushed rows f)
    (F := fun _ f => rowsOf rows f = some r ∧ Flushed rows f) hL hI ?_ ?_ ?_)
  · intro f hf f' hmem
    exact (hop.keeps f (main_ne_none_of_rowsOf hf.1) f' hmem).trans hf.1
  · intro f _ hf _
    exact ⟨(hop.keeps.final (main_ne_none_of_rowsOf hf.1)).trans hf.1, hop.flushed f hf.2⟩
  · intro f _ hf _
    exact ⟨(hop.keeps.final (main_ne_none_of_rowsOf hf.1)).trans hf.1, hop.flushed f hf.2⟩

/-- The condition under which the validation may fail: the active database still shows its rows, and
when the validation does not give up on it, the error is not one that it gives up for. -/
abbrev Refuses (rows : C → Option C → R) (shown : Option R) (L : Dir C → Prop) (p : PrepareEnv C)
    (e : SnapshotError) (dir : Dir C) : Prop :=
  Shows rows shown L dir ∧ (p.Validates rows shown → activeSnapshotIsRecoverable e = false)

theorem guards_storeOpen {p : PrepareEnv C} (hp : p.Sound rows) {r : R} (hr : shown = some r) :
    Guards I (Shows rows shown L) (storeOpen env p.opened activeName) (fun _ => Shows rows shown L)
      (Refuses rows shown L p) := by
  have hquiet : ∀ op : SqliteOp C Unit, KeepsRows rows op → ∀ E : SnapshotError → Dir C → Prop,
      Guards I (Shows rows shown L) (runSqliteQuiet op activeName) (fun _ => Shows rows shown L) E :=
    fun op hop E => guards_activeQuiet hL hI hop hr
  have hcall : ∀ op : SqliteOp C Unit, KeepsRows rows op →
      (p.Validates rows shown → ∀ f e, rowsOf rows f = shown → (op f).result = .error e →
        activeSnapshotIsRecoverable e = false) →
      Guards I (Shows rows shown L) (runSqlite op activeName) (fun _ => Shows rows shown L)
        (Refuses rows shown L p) := by
    intro op hop hvalid
    have hrun := guards_active hL hI hop hr (T := fun _ => True) (Q := fun _ _ => True)
      fun _ _ _ _ _ => trivial
    refine hrun.mono (fun _ h => ⟨h.1, h.2, trivial⟩) (fun _ _ h => ⟨h.1, h.2.1⟩) ?_
    rintro e dir ⟨hdirL, hrows, f, hf, hresult⟩
    exact ⟨⟨hdirL, hrows⟩, fun h => hvalid h f e hf hresult⟩
  have hconnect : Guards I (Shows rows shown L) (connectStore env p.opened activeName "open")
      (fun _ => Shows rows shown L) (Refuses rows shown L p) := by
    unfold connectStore
    cases p.opened.lease with
    | some message => exact Guards.of_fail fun _ h => ⟨h, fun _ => rfl⟩
    | none =>
      have hrun := guards_active hL hI hp.connect hr (T := fun _ => True) (Q := fun _ _ => True)
        fun _ _ _ _ _ => trivial
      have hopen : Guards I (Shows rows shown L) (runSqlite p.opened.connect activeName)
          (fun _ => Shows rows shown L) fun _ => Shows rows shown L :=
        hrun.mono (fun _ h => ⟨h.1, h.2, trivial⟩) (fun _ _ h => ⟨h.1, h.2.1⟩)
          fun _ _ h => ⟨h.1, h.2.1⟩
      exact hopen.of_rescue fun e => Guards.of_fail fun _ h => ⟨h, fun _ => rfl⟩
  refine hconnect.of_bind fun _ => guards_cleanup ?_ fun e => ?_
  · exact (hquiet _ hp.journalMode _).of_bind fun _ => (hquiet _ hp.pragmas _).of_bind fun _ =>
      (hcall _ hp.migrate fun h => h.migrate).of_bind fun _ =>
        (hcall _ hp.openCheck fun h => h.openCheck).of_bind fun _ => hquiet _ hp.prune _
  · refine Guards.of_forall fun dir hdir => ?_
    exact (hquiet _ hp.openClose _).mono (fun t ht => ht ▸ hdir.1) (fun _ _ h => ⟨h, hdir.2⟩)
      fun _ _ h => h
/-- The side files of the active database are removed when its log is not needed. -/
theorem guards_cleanupActiveSidecars {E : SnapshotError → Dir C → Prop}
    (hE : ∀ context e dir, Shows rows shown L dir → E (.io context e) dir) :
    Guards I (fun dir => L dir ∧ rowsOf rows (dir.family activeName) = shown ∧
        Flushed rows (dir.family activeName))
      (cleanupSqliteSidecars env activeName)
      (fun _ dir => Shows rows shown L dir ∧ dir.get (sqliteSidecar activeName "-wal") = none) E := by
  have hside : sqliteSidecar activeName "-wal" ≠ sqliteSidecar activeName "-shm" := by decide
  have hmain : ∀ suffix, suffix ≠ "" → activeName ≠ sqliteSidecar activeName suffix :=
    fun suffix h => ne_append h
  have hput : ∀ name ∈ familyNames activeName, ∀ dir : Dir C, L dir → L (dir.put name none) :=
    fun name hname dir h => hL.put hname none h
  -- Without its log, a database shows what it shows with it.
  have hwal : ∀ dir : Dir C, rowsOf rows (dir.family activeName) = shown →
      Flushed rows (dir.family activeName) →
      rowsOf rows ((dir.put (sqliteSidecar activeName "-wal") none).family activeName) = shown := by
    rintro dir hrows ⟨content, hcontent, hflushed⟩
    change dir.get activeName = some content at hcontent
    rw [← hrows]
    simp only [rowsOf, Dir.family, Dir.get_put, if_neg (hmain "-wal" (by decide)), if_true, hcontent,
      Option.map_some]
    rw [hflushed]
    rfl
  have hshm : ∀ dir : Dir C, rowsOf rows (dir.family activeName) = shown →
      rowsOf rows ((dir.put (sqliteSidecar activeName "-shm") none).family activeName) = shown := by
    intro dir hrows
    rw [← hrows]
    simp only [rowsOf, Dir.family, Dir.get_put, if_neg (hmain "-shm" (by decide)), if_neg hside]
  refine Guards.of_bind (Q := fun _ dir => Shows rows shown L dir ∧
    dir.get (sqliteSidecar activeName "-wal") = none) ?_ fun _ => ?_
  · refine guards_removeFileIfExists env (fun dir h => ?_) (fun dir h hnone => ⟨⟨h.1, h.2.1⟩, hnone⟩)
      fun context e dir h => hE context e dir ⟨h.1, h.2.1⟩
    have hL' := hput _ (wal_mem_familyNames activeName) dir h.1
    have hrows' := hwal dir h.2.1 h.2.2
    exact ⟨hI _ hL' hrows', ⟨hL', hrows'⟩, by rw [Dir.get_put, if_pos rfl]⟩
  · refine guards_removeFileIfExists env (fun dir h => ?_) (fun dir h _ => h)
      fun context e dir h => hE context e dir h.1
    have hL' := hput _ (shm_mem_familyNames activeName) dir h.1.1
    have hrows' := hshm dir h.1.2
    exact ⟨hI _ hL' hrows', ⟨hL', hrows'⟩, by rw [Dir.get_put, if_neg hside]; exact h.2⟩

omit hI in
/-- **The validation of the active database** keeps its rows in all states.  When it succeeds, there is
no log left, unless it could not even look at the database. -/
theorem guards_prepareExistingActiveStore {p : PrepareEnv C} (hp : p.Sound rows)
    (hI : ∀ dir, L dir → Unchanged rows shown dir → I dir) :
    Guards I (fun dir => L dir ∧ Unchanged rows shown dir) (prepareExistingActiveStore env p activeName)
      (fun _ dir => (L dir ∧ Unchanged rows shown dir) ∧
        (p.statFails = false → dir.get (sqliteSidecar activeName "-wal") = none))
      (fun e dir => (L dir ∧ Unchanged rows shown dir) ∧ ∃ r, shown = some r ∧
        (p.Validates rows shown → activeSnapshotIsRecoverable e = false)) := by
  refine (guards_pathExists p.statFails activeName).of_bind fun found => ?_
  cases found with
  | false =>
    refine Guards.of_pure fun dir h => ⟨h.1, fun hstat => ?_⟩
    rcases h.2.2 rfl with hfails | hnone
    · rw [hstat] at hfails
      cases hfails
    · exact h.1.2.no_log hnone
  | true =>
    rw [if_pos rfl]
    refine Guards.of_forall fun dir hdir => ?_
    obtain ⟨⟨hdirL, hdirU⟩, hexists, _⟩ := hdir
    obtain ⟨content, hcontent⟩ := Option.ne_none_iff_exists'.1 (hexists rfl)
    have hfound : (dir.family activeName).main = some content := hcontent
    obtain ⟨r, hr⟩ : ∃ r, shown = some r := by
      have hrows := hdirU.rows_eq
      rw [rowsOf, hfound] at hrows
      exact ⟨_, hrows.symm⟩
    -- From here on the database is there, so that it cannot be without a log to mind.
    have hback : ∀ dir, Shows rows shown L dir → L dir ∧ Unchanged rows shown dir := by
      intro dir h
      refine ⟨h.1, h.2, fun hnone => ?_⟩
      have hmain := main_ne_none_of_rowsOf (h.2.trans hr)
      exact absurd hnone hmain
    have hI : ∀ dir, L dir → rowsOf rows (dir.family activeName) = shown → I dir :=
      fun dir h hrows => hI dir h (hback dir ⟨h, hrows⟩).2
    have hmode : Guards I (Shows rows shown L) (ensureDbMode env activeName)
        (fun _ => Shows rows shown L) (Refuses rows shown L p) :=
      guards_ensureDbMode env activeName fun _ _ _ h => ⟨h, fun _ => rfl⟩
    have hcheckpoint : Guards I (Shows rows shown L) (checkpointStore env p.checkpoint activeName)
        (fun _ dir => L dir ∧ rowsOf rows (dir.family activeName) = shown ∧
          Flushed rows (dir.family activeName)) (Refuses rows shown L p) := by
      have hrun := guards_active hL hI hp.checkpoint.keeps hr (T := fun _ => True)
        (Q := fun _ f => Flushed rows f) fun f _ _ hf hresult =>
          hp.checkpoint.flushes f (main_ne_none_of_rowsOf (hf.trans hr)) hresult
      refine (hrun.mono (fun _ h => ⟨h.1, h.2, trivial⟩) (fun _ _ h => h) fun _ _ h => h).of_rescue
        fun e => Guards.of_fail ?_
      rintro dir ⟨hdirL, hrows, f, hf, hresult⟩
      exact ⟨⟨hdirL, hrows⟩, fun h => absurd hresult (h.checkpoint f e hf)⟩
    have hintegrity : ∀ message : SnapshotError → SnapshotError,
        Guards I (fun dir => L dir ∧ rowsOf rows (dir.family activeName) = shown ∧
            Flushed rows (dir.family activeName))
          (rescue (runSqlite p.integrityCheck activeName) fun e => fail (message e))
          (fun _ dir => L dir ∧ rowsOf rows (dir.family activeName) = shown ∧
            Flushed rows (dir.family activeName)) (Refuses rows shown L p) := by
      intro message
      have hrun := guards_active hL hI hp.integrityCheck.keeps hr (T := Flushed rows)
        (Q := fun _ f => Flushed rows f) fun f _ hf _ _ => hp.integrityCheck.flushed f hf
      refine hrun.of_rescue fun e => Guards.of_fail ?_
      rintro dir ⟨hdirL, hrows, f, hf, hresult⟩
      exact ⟨⟨hdirL, hrows⟩, fun h => absurd hresult (h.integrityCheck f e hf)⟩
    have hclose : ∀ e, Guards I (Refuses rows shown L p e) (runSqliteQuiet p.close activeName)
        (fun _ => Refuses rows shown L p e) (Refuses rows shown L p) := by
      intro e
      refine Guards.of_forall fun dir hdir => ?_
      exact (guards_activeQuiet hL hI hp.close.keeps hr).mono (fun t ht => ht ▸ hdir.1)
        (fun _ _ h => ⟨h, hdir.2⟩) fun _ _ h => h
    have hcheck : Guards I (Shows rows shown L)
        (closing p.close activeName do
          checkpointStore env p.checkpoint activeName
          rescue (runSqlite p.integrityCheck activeName) fun e =>
            fail (.store ("active index integrity_check failed for " ++ env.display activeName ++
              " before snapshot publish: " ++ e.text)))
        (fun _ dir => L dir ∧ rowsOf rows (dir.family activeName) = shown ∧
          Flushed rows (dir.family activeName)) (Refuses rows shown L p) := by
      refine (guards_cleanup (hcheckpoint.of_bind fun _ => hintegrity _) hclose).of_bind fun a => ?_
      exact (guards_activeClose hL hI hp.close hr).of_bind fun _ => Guards.of_pure fun _ h => h
    have hall : Guards I (Shows rows shown L)
        (do
          ensureDbMode env activeName
          storeOpen env p.opened activeName
          closing p.close activeName do
            checkpointStore env p.checkpoint activeName
            rescue (runSqlite p.integrityCheck activeName) fun e =>
              fail (.store ("active index integrity_check failed for " ++ env.display activeName ++
                " before snapshot publish: " ++ e.text))
          cleanupSqliteSidecars env activeName
          ensureDbMode env activeName)
        (fun _ dir => Shows rows shown L dir ∧ dir.get (sqliteSidecar activeName "-wal") = none)
        (Refuses rows shown L p) := by
      refine hmode.of_bind fun _ => (guards_storeOpen env hL hI hp hr).of_bind fun _ =>
        hcheck.of_bind fun _ => (guards_cleanupActiveSidecars env hL hI ?_).of_bind fun _ => ?_
      · exact fun _ _ _ h => ⟨h, fun _ => rfl⟩
      · exact guards_ensureDbMode env activeName fun _ _ _ h => ⟨h.1, fun _ => rfl⟩
    exact hall.mono (fun t ht => ht ▸ ⟨hdirL, hdirU.rows_eq⟩)
      (fun _ dir h => ⟨hback dir h.1, fun _ => h.2⟩) fun e dir h => ⟨hback dir h.1, r, hr, h.2⟩

end Validate

end Publication
