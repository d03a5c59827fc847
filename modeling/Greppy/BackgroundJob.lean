/-
**The record of a background job.**

A background job is a child process that indexes a worktree.  Its record, a JSON file next to the store,
names the process and shows how far it is.  The parent writes the first record; the child writes it anew
as it proceeds, removes it when it is done, and leaves it with the state `failed` when it does not
finish.  Every record that a process writes carries the number of the child.

Counters are `usize` and times `u64`, both of 64 bits, and the arithmetic on them saturates.
-/

import Greppy.Usize

set_option autoImplicit false

namespace Greppy

/-! ### Records -/

/-- The job record, of schema `greppy.background-job.v2`. -/
structure JobRecord where
  kind : String
  pid : ℕ
  startedAtUnixSecs : ℕ
  updatedAtUnixSecs : ℕ
  cause : String
  targetGeneration : ℕ
  state : String
  backend : Option String
  device : Option String
  completedSpans : ℕ
  totalSpans : ℕ
  progressMilliPercent : ℕ
  rateMilliSpansPerSecond : Option ℕ
  etaSeconds : Option ℕ
  etaMinutes : Option ℕ
  etaUnixSecs : Option ℕ
  lastError : Option String
deriving DecidableEq

/-- What `spawn_background_job` has worked out when it starts the child. -/
structure JobRequest where
  cause : String
  kind : String
  startedAt : ℕ
  targetGeneration : ℕ
  backend : Option String
  device : Option String
  totalSpans : ℕ
  etaSeconds : Option ℕ
deriving DecidableEq

/-- The record that the parent writes, naming the child. -/
def JobRequest.record (request : JobRequest) (childId : ℕ) : JobRecord where
  kind := request.kind
  pid := childId
  startedAtUnixSecs := request.startedAt
  updatedAtUnixSecs := request.startedAt
  cause := request.cause
  targetGeneration := request.targetGeneration
  state := if request.kind = "embedding" then "starting" else "refreshing"
  backend := request.backend
  device := request.device
  completedSpans := 0
  totalSpans := request.totalSpans
  progressMilliPercent := 0
  rateMilliSpansPerSecond := none
  etaSeconds := request.etaSeconds
  etaMinutes := request.etaSeconds.map fun eta => usizeSaturatingAdd eta 59 / 60
  etaUnixSecs := request.etaSeconds.map fun eta => usizeSaturatingAdd request.startedAt eta
  lastError := none

def initialEmbeddingRate (backend : String) : ℕ :=
  if backend = "cuda" then 12 else if backend = "metal" then 8 else 1

def initialEmbeddingEtaSeconds (totalDocuments : ℕ) (backend : String) : Option ℕ :=
  let rate := max (initialEmbeddingRate backend) 1
  some (usizeSaturatingAdd totalDocuments (rate - 1) / rate)

def observedEmbeddingEtaSeconds (completed total elapsedMs : ℕ) : Option ℕ :=
  if completed = 0 then none
  else
    let numerator := (total - completed) * elapsedMs
    let denominator := completed * 1000
    let rounded := (numerator + (denominator - 1)) / max denominator 1
    if rounded < 2 ^ 64 then some rounded else none

def observedEmbeddingRateMilli (completed elapsedMs : ℕ) : Option ℕ :=
  if completed = 0 then none else some (usizeSaturatingMul completed 1000000 / max elapsedMs 1)

/-! ### The child -/

/-- The variables `GREPPY_BACKGROUND_*` of the child; a number that does not parse counts as missing. -/
structure JobEnv where
  cause : Option String
  kind : Option String
  startedAt : Option ℕ
  targetGeneration : Option ℕ

/-- The variables that the parent sets. -/
def JobRequest.env (request : JobRequest) : JobEnv where
  cause := some request.cause
  kind := some request.kind
  startedAt := some request.startedAt
  targetGeneration := some request.targetGeneration

/-- `BackgroundJobGuard` of a background job.  Instants are in nanoseconds. -/
structure BackgroundJobGuard where
  cause : String
  kind : String
  startedAtUnixSecs : ℕ
  targetGeneration : ℕ
  backend : Option String
  device : Option String
  completedDocuments : ℕ
  totalDocuments : ℕ
  etaSeconds : Option ℕ
  rateMilliDocumentsPerSecond : Option ℕ
  embeddingStarted : Option ℕ
  lastProgressWrite : Option ℕ

namespace BackgroundJobGuard

/-- `BackgroundJobGuard::from_env`, after its wait: `published` is the record it reads then. -/
def fromEnv (env : JobEnv) (published : Option JobRecord) (now : ℕ) : BackgroundJobGuard where
  cause := env.cause.getD "background-refresh"
  kind := env.kind.getD "index"
  startedAtUnixSecs := env.startedAt.getD now
  targetGeneration := env.targetGeneration.getD 0
  backend := published.bind JobRecord.backend
  device := published.bind JobRecord.device
  completedDocuments := 0
  totalDocuments := (published.map JobRecord.totalSpans).getD 0
  etaSeconds := published.bind JobRecord.etaSeconds
  rateMilliDocumentsPerSecond := none
  embeddingStarted := none
  lastProgressWrite := none

/-- `write_state`: the record it writes. -/
def writeState (g : BackgroundJobGuard) (pid now : ℕ) (state : String) (lastError : Option String) :
    JobRecord where
  kind := g.kind
  pid := pid
  startedAtUnixSecs := g.startedAtUnixSecs
  updatedAtUnixSecs := now
  cause := g.cause
  targetGeneration := g.targetGeneration
  state := state
  backend := g.backend
  device := g.device
  completedSpans := g.completedDocuments
  totalSpans := g.totalDocuments
  progressMilliPercent :=
    if g.totalDocuments = 0 then 0
    else usizeSaturatingMul (min g.completedDocuments g.totalDocuments) 100000 / g.totalDocuments
  rateMilliSpansPerSecond := g.rateMilliDocumentsPerSecond
  etaSeconds := g.etaSeconds
  etaMinutes := g.etaSeconds.map fun eta => usizeSaturatingAdd eta 59 / 60
  etaUnixSecs := g.etaSeconds.map fun eta => usizeSaturatingAdd now eta
  lastError := lastError

def embeddingLoading (g : BackgroundJobGuard) (pid now : ℕ) :
    BackgroundJobGuard × Option JobRecord :=
  (g, some (g.writeState pid now "loading_model" none))

/-- `embedding_started`, at an instant. -/
def embeddingStart (g : BackgroundJobGuard) (pid now : ℕ) (backend : String) (totalDocuments instant : ℕ) :
    BackgroundJobGuard × Option JobRecord :=
  let g := { g with
    backend := some backend
    completedDocuments := 0
    totalDocuments := totalDocuments
    embeddingStarted := some instant
    rateMilliDocumentsPerSecond := none
    etaSeconds := initialEmbeddingEtaSeconds totalDocuments backend }
  ({ g with lastProgressWrite := some instant }, some (g.writeState pid now "embedding" none))

/-- The progress that `embedding_progress` notes, at an instant. -/
def observe (g : BackgroundJobGuard) (completed total instant : ℕ) : BackgroundJobGuard :=
  match g.embeddingStarted with
  | none => { g with completedDocuments := completed, totalDocuments := total }
  | some started =>
    let elapsedMs := max (min ((instant - started) / 1000000) (2 ^ 64 - 1)) 1
    { g with
      completedDocuments := completed
      totalDocuments := total
      etaSeconds := (observedEmbeddingEtaSeconds completed total elapsedMs).or g.etaSeconds
      rateMilliDocumentsPerSecond := observedEmbeddingRateMilli completed elapsedMs }

/-- A record is written at the end, and otherwise at most every half second. -/
def publishDue (g : BackgroundJobGuard) (instant : ℕ) : Bool :=
  decide (0 < g.totalDocuments) && decide (g.totalDocuments ≤ g.completedDocuments) ||
    match g.lastProgressWrite with
    | none => true
    | some last => decide (500000000 ≤ instant - last)

/-- `embedding_progress`, with the two instants at which it looks at the clock. -/
def embeddingProgress (g : BackgroundJobGuard) (pid now completed total observed instant : ℕ) :
    BackgroundJobGuard × Option JobRecord :=
  let g := g.observe completed total observed
  if g.publishDue instant then
    ({ g with lastProgressWrite := some instant }, some (g.writeState pid now "embedding" none))
  else (g, none)

end BackgroundJobGuard

/-- The steps of the embedding pass that the job is told about. -/
inductive JobStep where
  | embeddingLoading
  | embeddingStarted (backend : String) (totalDocuments instant : ℕ)
  | embeddingProgress (completed total observed instant : ℕ)

/-- How a job ends: `complete`, `fail`, `degraded`, or a `drop` without any of them. -/
inductive JobEnd where
  | complete
  | fail (error : String)
  | degraded (reason : String)
  | drop

namespace BackgroundJobGuard

/-- A step of the embedding pass: the job, and the record it writes if it writes one. -/
def perform (g : BackgroundJobGuard) (pid now : ℕ) : JobStep → BackgroundJobGuard × Option JobRecord
  | .embeddingLoading => g.embeddingLoading pid now
  | .embeddingStarted backend totalDocuments instant =>
    g.embeddingStart pid now backend totalDocuments instant
  | .embeddingProgress completed total observed instant =>
    g.embeddingProgress pid now completed total observed instant

/-- The end of the job: the record it leaves, or none when the record is removed. -/
def finish (g : BackgroundJobGuard) (pid now : ℕ) : JobEnd → Option JobRecord
  | .complete => none
  | .fail error => some (g.writeState pid now "failed" (some error))
  | .degraded reason => some (g.writeState pid now "failed" (some reason))
  | .drop => some (g.writeState pid now "failed"
      (some "background index exited before successful publication"))

@[simp] theorem pid_writeState (g : BackgroundJobGuard) (pid now : ℕ) (state : String)
    (lastError : Option String) : (g.writeState pid now state lastError).pid = pid := rfl

theorem pid_perform {g : BackgroundJobGuard} {pid now : ℕ} {e : JobStep} {r : JobRecord}
    (h : (g.perform pid now e).2 = some r) : r.pid = pid := by
  cases e with
  | embeddingLoading =>
    cases h
    rfl
  | embeddingStarted backend totalDocuments instant =>
    cases h
    rfl
  | embeddingProgress completed total observed instant =>
    unfold perform embeddingProgress at h
    dsimp only at h
    split at h
    · cases h
      rfl
    · cases h

end BackgroundJobGuard

end Greppy
