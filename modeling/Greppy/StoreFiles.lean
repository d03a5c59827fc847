/-
**The files of a store.**

The store directory of a workspace holds the active database `graph.db`, temporary databases next to
it, and for each database the side files of SQLite: a write-ahead log and its index.  A directory is a
table of contents by name; a name is created, removed or renamed in one step.

What is not in the directory is given from outside.  `FsEnv` gives the answers of the operating
system: which operations fail, and in which order a directory is listed.  A `SqliteOp` is what SQLite
does to the three files of a database during one call: the states the files go through, the result,
and how it leaves them.
-/

import Greppy.Crash
import Greppy.KeyedTable

set_option autoImplicit false

namespace Publication

open Process

variable {C : Type}

/-! ### Directories -/

/-- A directory: the contents of its files by name. -/
abbrev Dir (C : Type) : Type := KeyedTable (String × C) Prod.fst

namespace Dir

/-- The content of a file, if there is one of the name. -/
def get (dir : Dir C) (name : String) : Option C := (dir.find? name).map Prod.snd

def put (dir : Dir C) (name : String) : Option C → Dir C
  | some content => dir.upsert (name, content)
  | none => dir.filter fun row => decide (row.1 ≠ name)

theorem get_put (dir : Dir C) (name other : String) (content : Option C) :
    (dir.put name content).get other = if other = name then content else dir.get other := by
  cases content with
  | some content =>
    rw [put, get, KeyedTable.find?_upsert]
    by_cases heq : other = name
    · rw [if_pos heq, if_pos heq.symm]
      rfl
    · rw [if_neg heq, if_neg fun h => heq h.symm]
      rfl
  | none =>
    rw [put, get, get]
    split
    · rename_i heq
      have hnone : (dir.filter fun row => decide (row.1 ≠ name)).find? other = none := by
        rw [KeyedTable.find?_eq_none_iff]
        intro row hrow
        rw [KeyedTable.rows_filter, List.mem_filter] at hrow
        rw [heq]
        exact of_decide_eq_true hrow.2
      rw [hnone]
      rfl
    · rename_i hne
      rw [KeyedTable.find?_filter]
      cases hfind : dir.find? other with
      | none => rfl
      | some row =>
        have hkey := KeyedTable.key_of_find? hfind
        have hkeep : decide (row.1 ≠ name) = true := by
          rw [hkey]
          exact decide_eq_true hne
        rw [Option.filter_some, if_pos hkeep]

def names (dir : Dir C) : List String := dir.rows.map Prod.fst

theorem mem_names_iff {dir : Dir C} {name : String} : name ∈ dir.names ↔ dir.get name ≠ none := by
  rw [names, get, ne_eq, Option.map_eq_none_iff, KeyedTable.find?_eq_none_iff, List.mem_map]
  simp only [ne_eq, not_forall, not_not, exists_prop]

end Dir

/-! ### Databases -/

def sqliteSidecar (path suffix : String) : String := path ++ suffix

/-- The files of a database: itself, its write-ahead log, and the index of the log. -/
structure Family (C : Type) where
  main : Option C
  wal : Option C
  shm : Option C

namespace Dir

/-- The files of the database at a path. -/
def family (dir : Dir C) (path : String) : Family C :=
  ⟨dir.get path, dir.get (sqliteSidecar path "-wal"), dir.get (sqliteSidecar path "-shm")⟩

/-- Replace the files of the database at a path. -/
def setFamily (dir : Dir C) (path : String) (family : Family C) : Dir C :=
  ((dir.put path family.main).put (sqliteSidecar path "-wal") family.wal).put
    (sqliteSidecar path "-shm") family.shm

end Dir

/-- The names of the files of a database. -/
def familyNames (path : String) : List String :=
  [path, sqliteSidecar path "-wal", sqliteSidecar path "-shm"]

/-! ### Errors -/

/-- `std::io::Error`. -/
inductive IoError where
  | notFound
  | other (message : String)
deriving DecidableEq

def IoError.text : IoError → String
  | .notFound => "entity not found"
  | .other message => message

/-- `greppy_core::Error`, as far as it is told apart here. -/
inductive SnapshotError where
  | io (context : String) (source : IoError)
  | store (message : String)
  | other (message : String)
deriving DecidableEq

def SnapshotError.text : SnapshotError → String
  | .io context source => s!"io: {context}: " ++ source.text
  | .store message => s!"store error: {message}"
  | .other message => message

abbrev Act (C α : Type) : Type := Process SnapshotError (Dir C) α

/-- What SQLite does to the files of a database in one call. -/
structure SqliteRun (C α : Type) where
  /-- The states of the files on the way, in their order. -/
  visited : List (Family C)
  result : Except SnapshotError α
  final : Family C

abbrev SqliteOp (C α : Type) : Type := Family C → SqliteRun C α

/-- A call of SQLite on the database at a path. -/
def runSqlite {α : Type} (op : SqliteOp C α) (path : String) : Act C α := do
  let dir ← current
  let run := op (dir.family path)
  let _ ← foldEach (fun (_ : Unit) family => enter (dir.setFamily path family))
    (run.visited ++ [run.final]) ()
  match run.result with
  | .ok a => pure a
  | .error e => fail e

/-- A call of SQLite whose failure does not matter. -/
def runSqliteQuiet (op : SqliteOp C Unit) (path : String) : Act C Unit := ignore (runSqlite op path)

/-! ### Files -/

/-- The platforms on which a file can be cloned, and the others. -/
inductive Platform where
  | linux
  | macos
  | otherUnix
deriving DecidableEq

structure FsEnv where
  /-- The store directory, as it is shown. -/
  parent : String
  platform : Platform
  pid : ℕ
  /-- The message of the `n`-th operation on files, if it fails. -/
  io : ℕ → Option String
  /-- The order in which a directory is listed. -/
  order : List String → List String
  order_perm : ∀ names, (order names).Perm names

/-- `path.display()`. -/
def FsEnv.display (env : FsEnv) (path : String) : String := env.parent ++ "/" ++ path

variable (env : FsEnv)

/-- An operation on files that may fail, and then changes nothing. -/
def attempt {α : Type} (m : Act C (Except IoError α)) : Act C (Except IoError α) := do
  let n ← ask
  match env.io n with
  | some message => pure (.error (.other message))
  | none => m

/-- `std::fs::remove_file`. -/
def removeFile (path : String) : Act C (Except IoError Unit) := attempt env do
  let dir ← current
  match dir.get path with
  | none => pure (.error .notFound)
  | some _ =>
    enter (dir.put path none)
    pure (.ok ())

/-- `std::fs::rename`: the target gets the content of the source, in one step. -/
def renameFile (source target : String) : Act C (Except IoError Unit) := attempt env do
  let dir ← current
  match dir.get source with
  | none => pure (.error .notFound)
  | some content =>
    enter ((dir.put source none).put target (some content))
    pure (.ok ())

/-- An operation that needs a file and does not change it: opening it, or reading its metadata. -/
def useFile (path : String) : Act C (Except IoError Unit) := attempt env do
  let dir ← current
  match dir.get path with
  | none => pure (.error .notFound)
  | some _ => pure (.ok ())

/-- An operation on an open file or a directory that does not change a file. -/
def touch : Act C (Except IoError Unit) := attempt env (pure (.ok ()))

/-- `map_err(|e| Error::io(context, e))`. -/
def orIo (context : String) (m : Act C (Except IoError Unit)) : Act C Unit := do
  match ← m with
  | .ok () => pure ()
  | .error e => fail (.io context e)

def removeFileIfExists (path : String) : Act C Unit := do
  match ← removeFile env path with
  | .ok () => pure ()
  | .error .notFound => pure ()
  | .error e => fail (.io ("remove " ++ env.display path) e)

def renameFileIfExists (source target : String) : Act C Unit := do
  match ← renameFile env source target with
  | .ok () => pure ()
  | .error .notFound => pure ()
  | .error e => fail (.io ("rename " ++ env.display source ++ " to " ++ env.display target) e)

def cleanupSqliteSidecars (path : String) : Act C Unit := do
  removeFileIfExists env (sqliteSidecar path "-wal")
  removeFileIfExists env (sqliteSidecar path "-shm")

def cleanupSqliteFamily (path : String) : Act C Unit := do
  removeFileIfExists env path
  cleanupSqliteSidecars env path

def syncFile (path : String) : Act C Unit := do
  orIo ("open file " ++ env.display path) (useFile env path)
  orIo ("sync file " ++ env.display path) (touch env)

/-- `sync_parent_dir`, of the store directory. -/
def syncParentDir : Act C Unit := do
  orIo ("open parent dir " ++ env.parent) (touch env)
  orIo ("sync parent dir " ++ env.parent) (touch env)

/-- `ensure_db_mode`: a file that is not there keeps its mode. -/
def ensureDbMode (path : String) : Act C Unit := do
  match ← useFile env path with
  | .error .notFound => pure ()
  | .error e => fail (.io ("chmod db " ++ env.display path) e)
  | .ok () => orIo ("chmod db " ++ env.display path) (touch env)

/-- `Path::exists`: false also when the metadata cannot be read. -/
def pathExists (statFails : Bool) (path : String) : Act C Bool := do
  let dir ← current
  pure (!statFails && (dir.get path).isSome)

/-! ### Opening databases -/

/-- What SQLite and the lifecycle lease do when a database is opened. -/
structure OpenEnv (C : Type) where
  lease : Option String
  connect : SqliteOp C Unit
  journalMode : SqliteOp C Unit
  pragmas : SqliteOp C Unit
  migrate : SqliteOp C Unit
  integrityCheck : SqliteOp C Unit
  prune : SqliteOp C Unit
  /-- The connection is dropped, on every way out. -/
  close : SqliteOp C Unit

def connectStore (o : OpenEnv C) (path : String) (context : String) : Act C Unit := do
  match o.lease with
  | some message => fail (.io ("acquire lifecycle lease for " ++ env.display path) (.other message))
  | none =>
    rescue (runSqlite o.connect path) fun e => fail (.io (context ++ " " ++ env.display path) (.other e.text))

/-- Go on with a connection, and drop it. -/
def closing {α : Type} (close : SqliteOp C Unit) (path : String) (m : Act C α) : Act C α := do
  let a ← rescue m fun e => do
    runSqliteQuiet close path
    fail e
  runSqliteQuiet close path
  pure a

/-- `Store::open`: `open_with` for a writer, with an integrity check.  The connection is dropped when a
step fails. -/
def storeOpen (o : OpenEnv C) (path : String) : Act C Unit := do
  connectStore env o path "open"
  rescue
    (do
      runSqliteQuiet o.journalMode path
      runSqliteQuiet o.pragmas path
      runSqlite o.migrate path
      runSqlite o.integrityCheck path
      runSqliteQuiet o.prune path)
    fun e => do
      runSqliteQuiet o.close path
      fail e

/-- `Store::open_with` for a reader. -/
def storeOpenReadOnly (o : OpenEnv C) (path : String) : Act C Unit :=
  connectStore env o path "open read-only"

def checkpointStore (checkpoint : SqliteOp C Unit) (path : String) : Act C Unit :=
  rescue (runSqlite checkpoint path) fun e =>
    fail (.store ("checkpoint " ++ env.display path ++ ": " ++ e.text))

/-! ### Names -/

def startsWith (name beginning : String) : Bool := beginning.toList.isPrefixOf name.toList

def endsWith (name ending : String) : Bool := ending.toList.isSuffixOf name.toList

/-- `unique_store_sibling`, at a time stamp. -/
def uniqueStoreSibling (activePath label : String) (stamp : ℕ) : String :=
  activePath ++ "." ++ label ++ "." ++ toString env.pid ++ "." ++ toString stamp

def storeSibling (activePath label : String) : String := activePath ++ "." ++ label

/-- The names that `cleanup_stale_snapshot_artifacts` removes. -/
def isManaged (fileName : String) (includeQuarantine : Bool) (name : String) : Bool :=
  startsWith name (fileName ++ ".next.") || name == fileName ++ ".prev" ||
    startsWith name (fileName ++ ".prev" ++ "-") ||
    (startsWith name ".index.job." && endsWith name ".tmp") ||
    (includeQuarantine && startsWith name (fileName ++ ".corrupt."))

def removeStaleEntry (activePath : String) (includeQuarantine : Bool) (removed : ℕ) (name : String) :
    Act C ℕ := do
  orIo ("scan " ++ env.parent) (touch env)
  if isManaged activePath includeQuarantine name then
    match ← removeFile env name with
    | .ok () => pure (removed + 1)
    | .error .notFound => pure removed
    | .error e => fail (.io ("remove stale temp " ++ env.display name) e)
  else pure removed

def cleanupStaleSnapshotArtifacts (activePath : String) (includeQuarantine : Bool) : Act C ℕ := do
  match ← touch env with
  | .error .notFound => pure 0
  | .error e => fail (.io ("scan " ++ env.parent) e)
  | .ok () =>
    let dir ← current
    let removed ← foldEach (removeStaleEntry env activePath includeQuarantine)
      (env.order dir.names) 0
    if 0 < removed then syncParentDir env
    pure removed

/-! ### The names of a family -/

theorem self_mem_familyNames (path : String) : path ∈ familyNames path := List.mem_cons_self

theorem wal_mem_familyNames (path : String) : sqliteSidecar path "-wal" ∈ familyNames path :=
  List.mem_cons_of_mem _ List.mem_cons_self

theorem shm_mem_familyNames (path : String) : sqliteSidecar path "-shm" ∈ familyNames path :=
  List.mem_cons_of_mem _ (List.mem_cons_of_mem _ List.mem_cons_self)

theorem ne_append {name suffix : String} (h : suffix ≠ "") : name ≠ name ++ suffix := by
  intro heq
  have hlist := congrArg String.toList heq
  rw [String.toList_append] at hlist
  have hnil : suffix.toList = [] := List.self_eq_append_right.1 hlist
  exact h (String.toList_inj.1 hnil)

theorem append_ne_append {name suffix suffix' : String} (h : suffix ≠ suffix') :
    name ++ suffix ≠ name ++ suffix' := by
  intro heq
  have hlist := congrArg String.toList heq
  rw [String.toList_append, String.toList_append] at hlist
  exact h (String.toList_inj.1 (List.append_cancel_left hlist))

namespace Dir

theorem get_setFamily (dir : Dir C) (path : String) (family : Family C) (name : String)
    (h : name ∉ familyNames path) : (dir.setFamily path family).get name = dir.get name := by
  simp only [familyNames, List.mem_cons, List.not_mem_nil, or_false, not_or] at h
  rw [setFamily, get_put, if_neg h.2.2, get_put, if_neg h.2.1, get_put, if_neg h.1]

@[simp] theorem family_setFamily (dir : Dir C) (path : String) (f : Family C) :
    (dir.setFamily path f).family path = f := by
  have hwal : path ≠ sqliteSidecar path "-wal" := ne_append (by decide)
  have hshm : path ≠ sqliteSidecar path "-shm" := ne_append (by decide)
  have hside : sqliteSidecar path "-wal" ≠ sqliteSidecar path "-shm" := append_ne_append (by decide)
  simp only [family, setFamily, get_put, if_neg hwal, if_neg hshm, if_neg hside, if_true]

end Dir

/-- The property does not depend on the files with these names. -/
def Ignores (these : String → Prop) (K : Dir C → Prop) : Prop :=
  ∀ dir dir', (∀ name, ¬ these name → dir'.get name = dir.get name) → K dir → K dir'

theorem Ignores.put {these : String → Prop} {K : Dir C → Prop} (h : Ignores these K) {name : String}
    (hname : these name) (content : Option C) {dir : Dir C} (hK : K dir) :
    K (dir.put name content) := by
  refine h dir _ (fun other hother => ?_) hK
  rw [Dir.get_put, if_neg]
  rintro rfl
  exact hother hname

theorem Ignores.setFamily {these : String → Prop} {K : Dir C → Prop} (h : Ignores these K)
    {path : String} (hpath : ∀ name ∈ familyNames path, these name) (f : Family C) {dir : Dir C}
    (hK : K dir) : K (dir.setFamily path f) := by
  refine h dir _ (fun other hother => ?_) hK
  exact Dir.get_setFamily dir path f other fun hmem => hother (hpath other hmem)

/-! ### What the operations on files guard -/

section Rules

variable {I P : Dir C → Prop} {E : SnapshotError → Dir C → Prop} {α : Type}

theorem guards_attempt {m : Act C (Except IoError α)} {Q : Except IoError α → Dir C → Prop}
    (hm : Guards I P m Q E) (hfail : ∀ message dir, P dir → Q (.error (.other message)) dir) :
    Guards I P (attempt env m) Q E := by
  refine Guards.of_ask fun n => ?_
  cases env.io n with
  | none => exact hm
  | some message => exact Guards.of_pure fun dir h => hfail _ dir h

variable {path context : String}

theorem guards_removeFile {Q : Except IoError Unit → Dir C → Prop}
    (hremove : ∀ dir, P dir → I (dir.put path none) ∧ Q (.ok ()) (dir.put path none))
    (hmissing : ∀ dir, P dir → dir.get path = none → Q (.error .notFound) dir)
    (hfail : ∀ message dir, P dir → Q (.error (.other message)) dir) :
    Guards I P (removeFile env path) Q E := by
  refine guards_attempt env (Guards.of_current fun dir hP => ?_) hfail
  cases hget : dir.get path with
  | none =>
    refine Guards.of_pure fun t ht => ?_
    subst ht
    exact hmissing t hP hget
  | some content =>
    have henter : Guards I (fun t => t = dir) (enter (dir.put path none))
        (fun _ => Q (.ok ())) E :=
      Guards.of_enter fun t ht => hremove dir hP
    exact henter.of_bind fun _ => Guards.of_pure fun t ht => ht

variable {Q : Dir C → Prop}

theorem guards_removeFileIfExists
    (hremove : ∀ dir, P dir → I (dir.put path none) ∧ Q (dir.put path none))
    (hmissing : ∀ dir, P dir → dir.get path = none → Q dir)
    (hfail : ∀ context e dir, P dir → E (.io context e) dir) :
    Guards I P (removeFileIfExists env path) (fun _ => Q) E := by
  have hcall : Guards I P (removeFile env path)
      (fun r dir => match r with
        | .error (.other _) => P dir
        | _ => Q dir) E :=
    guards_removeFile env hremove hmissing fun _ _ h => h
  refine hcall.of_bind fun r => ?_
  match r with
  | .ok () => exact Guards.of_pure fun _ h => h
  | .error .notFound => exact Guards.of_pure fun _ h => h
  | .error (.other message) => exact Guards.of_fail fun dir h => hfail _ _ dir h

theorem guards_renameFile {source target : String}
    (hrename : ∀ dir content, P dir → dir.get source = some content →
      I ((dir.put source none).put target (some content)) ∧
        Q ((dir.put source none).put target (some content)))
    (hfail : ∀ context e dir, P dir → E (.io context e) dir) :
    Guards I P (orIo context (renameFile env source target)) (fun _ => Q) E := by
  have hcall : Guards I P (renameFile env source target)
      (fun r dir => match r with
        | .ok () => Q dir
        | .error _ => P dir) E := by
    refine guards_attempt env (Guards.of_current fun dir hP => ?_) fun _ _ h => h
    cases hget : dir.get source with
    | none =>
      refine Guards.of_pure fun t ht => ?_
      subst ht
      exact hP
    | some content =>
      obtain ⟨hI, hQ⟩ := hrename dir content hP hget
      have henter : Guards I (fun t => t = dir)
          (enter ((dir.put source none).put target (some content))) (fun _ => Q) E :=
        Guards.of_enter fun t ht => ⟨hI, hQ⟩
      exact henter.of_bind fun _ => Guards.of_pure fun t ht => ht
  refine hcall.of_bind fun r => ?_
  match r with
  | .ok () => exact Guards.of_pure fun _ h => h
  | .error e => exact Guards.of_fail fun dir h => hfail _ _ dir h

theorem guards_useFile (path : String) :
    Guards I P (useFile env path) (fun _ => P) E := by
  refine guards_attempt env (Guards.of_current fun dir hP => ?_) fun _ _ h => h
  cases dir.get path with
  | none => exact Guards.of_pure fun t ht => ht ▸ hP
  | some content => exact Guards.of_pure fun t ht => ht ▸ hP

theorem guards_touch : Guards I P (touch env : Act C _) (fun _ => P) E :=
  guards_attempt env (Guards.of_pure fun _ h => h) fun _ _ h => h

theorem guards_orIo {m : Act C (Except IoError Unit)} (hm : Guards I P m (fun _ => Q) E)
    (hfail : ∀ context e dir, Q dir → E (.io context e) dir) :
    Guards I P (orIo context m) (fun _ => Q) E := by
  refine hm.of_bind fun r => ?_
  match r with
  | .ok () => exact Guards.of_pure fun _ h => h
  | .error e => exact Guards.of_fail fun dir h => hfail _ _ dir h

theorem guards_ensureDbMode (path : String) (hfail : ∀ context e dir, P dir → E (.io context e) dir) :
    Guards I P (ensureDbMode env path) (fun _ => P) E := by
  refine (guards_useFile env path).of_bind fun r => ?_
  match r with
  | .ok () => exact guards_orIo (guards_touch env) hfail
  | .error .notFound => exact Guards.of_pure fun _ h => h
  | .error (.other message) => exact Guards.of_fail fun dir h => hfail _ _ dir h

theorem guards_syncFile (path : String) (hfail : ∀ context e dir, P dir → E (.io context e) dir) :
    Guards I P (syncFile env path) (fun _ => P) E :=
  (guards_orIo (guards_useFile env path) hfail).of_bind fun _ =>
    guards_orIo (guards_touch env) hfail

theorem guards_syncParentDir (hfail : ∀ context e dir, P dir → E (.io context e) dir) :
    Guards I P (syncParentDir env : Act C Unit) (fun _ => P) E :=
  (guards_orIo (guards_touch env) hfail).of_bind fun _ => guards_orIo (guards_touch env) hfail

theorem guards_pathExists (statFails : Bool) (path : String) :
    Guards I P (pathExists statFails path)
      (fun found dir => P dir ∧ (found = true → dir.get path ≠ none) ∧
        (found = false → statFails = true ∨ dir.get path = none)) E := by
  refine Guards.of_current fun dir hP => Guards.of_pure fun t ht => ?_
  subst ht
  refine ⟨hP, fun hfound => ?_, fun hmissing => ?_⟩
  · have hsome : (t.get path).isSome = true := (Bool.and_eq_true_iff.1 hfound).2
    exact Option.isSome_iff_ne_none.1 hsome
  · rcases Bool.and_eq_false_iff.1 hmissing with hstat | hnone
    · cases statFails with
      | true => exact .inl rfl
      | false => cases hstat
    · cases hget : t.get path with
      | none => exact .inr rfl
      | some content =>
        rw [hget] at hnone
        cases hnone

/-- Where the states go through are those of a list, the last of them is the state in the end. -/
theorem guards_enterAll {ι : Type} {g : ι → Dir C} (items : List ι) (last : ι)
    (h : ∀ item ∈ items ++ [last], I (g item)) :
    Guards I P (foldEach (fun (_ : Unit) item => enter (g item)) (items ++ [last]) ())
      (fun _ dir => dir = g last) E := by
  induction items generalizing P with
  | nil =>
    have henter : Guards I P (enter (g last)) (fun _ dir => dir = g last) E :=
      Guards.of_enter fun _ _ => ⟨h last (List.mem_singleton.2 rfl), rfl⟩
    exact henter.of_bind fun _ => Guards.of_pure fun _ h => h
  | cons item items ih =>
    have henter : Guards I P (enter (g item)) (fun _ dir => dir = g item) E :=
      Guards.of_enter fun _ _ => ⟨h item List.mem_cons_self, rfl⟩
    exact henter.of_bind fun _ => ih fun other hother => h other (List.mem_cons_of_mem _ hother)

/-- **A call of SQLite.**  `K` does not depend on the files of the database, `T` is what holds of them
before the call, and `S` what holds of them all the time. -/
theorem guards_runSqlite {K : Dir C → Prop} {T S : Family C → Prop} {Q : α → Family C → Prop}
    {F : SnapshotError → Family C → Prop} {op : SqliteOp C α}
    (hK : Ignores (· ∈ familyNames path) K) (hI : ∀ dir, K dir → S (dir.family path) → I dir)
    (hS : ∀ f, T f → ∀ f' ∈ (op f).visited ++ [(op f).final], S f')
    (hok : ∀ f a, T f → (op f).result = .ok a → Q a (op f).final)
    (herror : ∀ f e, T f → (op f).result = .error e → F e (op f).final) :
    Guards I (fun dir => K dir ∧ T (dir.family path)) (runSqlite op path)
      (fun a dir => K dir ∧ Q a (dir.family path)) (fun e dir => K dir ∧ F e (dir.family path)) := by
  refine Guards.of_current fun dir hdir => ?_
  obtain ⟨hdirK, hdirT⟩ := hdir
  have hfinal : ∀ f, K (dir.setFamily path f) := fun f => hK.setFamily (fun _ h => h) f hdirK
  have hstates : ∀ f ∈ (op (dir.family path)).visited ++ [(op (dir.family path)).final],
      I (dir.setFamily path f) := by
    intro f hf
    refine hI _ (hfinal f) ?_
    rw [Dir.family_setFamily]
    exact hS _ hdirT f hf
  refine (guards_enterAll _ _ hstates).of_bind fun _ => ?_
  cases hresult : (op (dir.family path)).result with
  | ok a =>
    refine Guards.of_pure fun t ht => ?_
    rw [ht, Dir.family_setFamily]
    exact ⟨hfinal _, hok _ a hdirT hresult⟩
  | error e =>
    refine Guards.of_fail fun t ht => ?_
    rw [ht, Dir.family_setFamily]
    exact ⟨hfinal _, herror _ e hdirT hresult⟩

/-- A process that keeps a property whether it returns or fails keeps it when its failure does not
matter. -/
theorem guards_ignore {m : Act C Unit} (hm : Guards I P m (fun _ => P) fun _ => P) :
    Guards I P (ignore m) (fun _ => P) E :=
  hm.of_rescue fun _ => Guards.of_pure fun _ h => h

/-- A handler that fails again with what it was called for, after a process that keeps the
property. -/
theorem guards_cleanup {Q : α → Dir C → Prop} {m : Act C α} {cleanup : Act C Unit}
    (hm : Guards I P m Q E) (hcleanup : ∀ e, Guards I (E e) cleanup (fun _ => E e) E) :
    Guards I P
      (rescue m fun e => do
        cleanup
        fail e) Q E :=
  hm.of_rescue fun e => (hcleanup e).of_bind fun _ => Guards.of_fail fun _ h => h

end Rules

/-! ### Processes that touch left-overs only -/

def activeName : String := "graph.db"

/-- A left-over: a name that the next run removes. -/
def Managed (name : String) : Prop := isManaged activeName true name = true

theorem not_managed_of_mem_family {name : String} (h : name ∈ familyNames activeName) :
    ¬ Managed name := by
  simp only [familyNames, List.mem_cons, List.not_mem_nil, or_false] at h
  unfold Managed
  rcases h with rfl | rfl | rfl
  · decide
  · decide
  · decide

theorem startsWith_append (beginning rest : String) :
    startsWith (beginning ++ rest) beginning = true := by
  rw [startsWith, List.isPrefixOf_iff_prefix, String.toList_append]
  exact List.prefix_append _ _

theorem managed_next (rest : String) : Managed (activeName ++ ".next." ++ rest) := by
  unfold Managed isManaged
  rw [startsWith_append]
  rfl

theorem managed_prev : Managed (activeName ++ ".prev") := by
  unfold Managed isManaged
  simp only [beq_self_eq_true, Bool.or_true, Bool.true_or]

theorem managed_prev_sidecar (rest : String) : Managed (activeName ++ ".prev" ++ "-" ++ rest) := by
  unfold Managed isManaged
  rw [startsWith_append]
  simp only [Bool.or_true, Bool.true_or]

/-- The names of temporary databases and of their side files start alike. -/
theorem uniqueStoreSibling_append (stamp : ℕ) (suffix : String) :
    uniqueStoreSibling env activeName "next" stamp ++ suffix =
      activeName ++ ".next." ++ (toString env.pid ++ "." ++ toString stamp ++ suffix) := by
  have hlabel : ".next." = "." ++ "next" ++ "." := by decide
  rw [hlabel, uniqueStoreSibling]
  simp only [String.append_assoc]

theorem startsWith_temp (stamp : ℕ) :
    startsWith (uniqueStoreSibling env activeName "next" stamp) (activeName ++ ".next.") = true := by
  rw [← String.append_empty (s := uniqueStoreSibling env activeName "next" stamp),
    uniqueStoreSibling_append, startsWith_append]

theorem managed_temp (stamp : ℕ) {name : String}
    (h : name ∈ familyNames (uniqueStoreSibling env activeName "next" stamp)) : Managed name := by
  simp only [familyNames, List.mem_cons, List.not_mem_nil, or_false] at h
  rcases h with rfl | rfl | rfl
  · rw [← String.append_empty (s := uniqueStoreSibling env activeName "next" stamp),
      uniqueStoreSibling_append]
    exact managed_next _
  · rw [sqliteSidecar, uniqueStoreSibling_append]
    exact managed_next _
  · rw [sqliteSidecar, uniqueStoreSibling_append]
    exact managed_next _

theorem managed_backup {name : String}
    (h : name ∈ familyNames (storeSibling activeName "prev")) : Managed name := by
  have hpath : storeSibling activeName "prev" = activeName ++ ".prev" := by decide
  simp only [familyNames, hpath, List.mem_cons, List.not_mem_nil, or_false] at h
  rcases h with rfl | rfl | rfl
  · exact managed_prev
  · have hsuffix : "-wal" = "-" ++ "wal" := by decide
    rw [sqliteSidecar, hsuffix, ← String.append_assoc]
    exact managed_prev_sidecar _
  · have hsuffix : "-shm" = "-" ++ "shm" := by decide
    rw [sqliteSidecar, hsuffix, ← String.append_assoc]
    exact managed_prev_sidecar _

/-- The process goes through states in `I` only, and keeps `K`. -/
abbrev Keeps {α : Type} (I K : Dir C → Prop) (m : Act C α) : Prop :=
  Guards I K m (fun _ => K) fun _ => K

section Keeps

variable {I K : Dir C → Prop} {α : Type} {these : String → Prop} (hK : Ignores these K)
  (hI : ∀ dir, K dir → I dir) {path : String} (hpath : ∀ name ∈ familyNames path, these name)

include hK hI

theorem keeps_removeFile {name : String} (hname : these name) :
    Keeps I K (removeFile env name) :=
  guards_removeFile env (fun _ h => ⟨hI _ (hK.put hname _ h), hK.put hname _ h⟩) (fun _ h _ => h)
    fun _ _ h => h

theorem keeps_removeFileIfExists {name : String} (hname : these name) :
    Keeps I K (removeFileIfExists env name) :=
  guards_removeFileIfExists env (fun _ h => ⟨hI _ (hK.put hname _ h), hK.put hname _ h⟩)
    (fun _ h _ => h) fun _ _ _ h => h

include hpath

theorem keeps_cleanupSqliteSidecars : Keeps I K (cleanupSqliteSidecars env path) :=
  (keeps_removeFileIfExists env hK hI (hpath _ (wal_mem_familyNames path))).of_bind fun _ =>
    keeps_removeFileIfExists env hK hI (hpath _ (shm_mem_familyNames path))

theorem keeps_cleanupSqliteFamily : Keeps I K (cleanupSqliteFamily env path) :=
  (keeps_removeFileIfExists env hK hI (hpath _ (self_mem_familyNames path))).of_bind fun _ =>
    keeps_cleanupSqliteSidecars env hK hI hpath

omit env in
theorem keeps_runSqlite (op : SqliteOp C α) : Keeps I K (runSqlite op path) := by
  have hignores : Ignores (· ∈ familyNames path) K := fun dir dir' hsame =>
    hK dir dir' fun name hname => hsame name fun hmem => hname (hpath name hmem)
  have hrun : Guards I (fun dir => K dir ∧ True) (runSqlite op path) (fun _ dir => K dir ∧ True)
      fun _ dir => K dir ∧ True :=
    guards_runSqlite (T := fun _ => True) (S := fun _ => True) (Q := fun _ _ => True)
      (F := fun _ _ => True) hignores (fun dir h _ => hI dir h)
      (fun _ _ _ _ => trivial) (fun _ _ _ _ => trivial) fun _ _ _ _ => trivial
  exact hrun.mono (fun _ h => ⟨h, trivial⟩) (fun _ _ h => h.1) fun _ _ h => h.1

end Keeps

theorem keeps_cleanupStaleSnapshotArtifacts {I K : Dir C → Prop} (hK : Ignores Managed K)
    (hI : ∀ dir, K dir → I dir) :
    Keeps I K (cleanupStaleSnapshotArtifacts env activeName true) := by
  have hentry : ∀ (removed : ℕ) (name : String),
      Keeps I K (removeStaleEntry env activeName true removed name) := by
    intro removed name
    refine (guards_orIo (guards_touch env) fun _ _ _ h => h).of_bind fun _ => ?_
    by_cases hname : isManaged activeName true name = true
    · rw [if_pos hname]
      refine (keeps_removeFile env hK hI hname).of_bind fun r => ?_
      match r with
      | .ok () => exact Guards.of_pure fun _ h => h
      | .error .notFound => exact Guards.of_pure fun _ h => h
      | .error (.other message) => exact Guards.of_fail fun _ h => h
    · rw [if_neg hname]
      exact Guards.of_pure fun _ h => h
  have hsync : Keeps I K (syncParentDir env : Act C Unit) := guards_syncParentDir env fun _ _ _ h => h
  refine (guards_touch env).of_bind fun r => ?_
  match r with
  | .error .notFound => exact Guards.of_pure fun _ h => h
  | .error (.other message) => exact Guards.of_fail fun _ h => h
  | .ok () =>
    refine Guards.of_current fun dir hdir => ?_
    have hloop : Keeps I K (foldEach (removeStaleEntry env activeName true)
        (env.order dir.names) 0) :=
      Guards.of_foldEach (fun removed name _ => hentry removed name) 0
    have hstart : ∀ t, t = dir → K t := by
      rintro t rfl
      exact hdir
    refine (hloop.mono hstart (fun _ _ h => h) fun _ _ h => h).of_bind fun removed => ?_
    by_cases hremoved : 0 < removed
    · simp only [if_pos hremoved]
      exact hsync.of_bind fun _ => Guards.of_pure fun _ h => h
    · simp only [if_neg hremoved]
      exact Guards.of_pure fun _ h => h

end Publication
