/-
**Schema migration.**

`crates/store/src/migrate.rs` brings a database to the schema this binary knows: it reads the version
recorded in `schema_meta` once, and applies every migration with a larger version, in order, each in
a transaction of its own together with the bump of the recorded version.

What SQLite does with a statement is a parameter here, `exec`, on an arbitrary type `σ` of schemas
and table contents; only `schema_meta` is modelled, because the runner itself reads and writes it.
Every call the runner makes on its connection may in addition fail, as `fails` says, whatever the
statement would have done.  `Catalog` is a concrete `exec` that tracks tables, columns, indexes and
triggers.

A statement of a migration is described by its kind and by the objects and columns it names; column
types, defaults and constraints are left out, since the runner hands the text to SQLite unread.
-/

import Greppy.AtomicSteps
import Greppy.KeyedTable
import Mathlib.Algebra.Group.Nat.Defs

set_option autoImplicit false

namespace Greppy

/-! ### Statements and migrations -/

inductive Stmt where
  | createTable (ifNotExists : Bool) (name : String) (columns : List String)
  | createVirtualTable (ifNotExists : Bool) (name : String) (columns : List String)
  | createIndex (name table : String) (columns : List String)
  | createTrigger (name table : String)
  | addColumn (table column : String)
  | renameTable (old new : String)
  | dropTable (ifExists : Bool) (name : String)
  | dropIndex (name : String)
  | dropTrigger (name : String)
  /-- `UPDATE table SET column = source WHERE column IS NULL`. -/
  | fillColumn (table column source : String)
  /-- `INSERT INTO table … SELECT … FROM source`. -/
  | insertSelect (table source : String)
  /-- `INSERT INTO table(table) VALUES ('rebuild')`. -/
  | ftsRebuild (table : String)

structure Migration where
  version : ℕ
  name : String
  sql : List Stmt

/-- `0001_initial.sql`. -/
def initialSchema : List Stmt :=
  [.createTable true "schema_meta" ["key", "value"],
   .createTable true "projects" ["name", "indexed_at", "root_path"],
   .createTable true "file_state" ["project", "rel_path", "sha256", "mtime_ns", "size",
     "parser_version", "extractor_version", "last_indexed_generation"],
   .createTable true "nodes" ["id", "project", "label", "name", "qualified_name", "file_path",
     "start_line", "end_line", "properties"],
   .createTable true "edges" ["id", "project", "source_id", "target_id", "edge_type", "properties",
     "url_path_gen"],
   .createTable true "workspace_state" ["root_path", "git_dir", "git_common_dir", "head_oid",
     "index_signature", "schema_version", "indexer_version", "graph_generation", "updated_at"],
   .createIndex "idx_nodes_label" "nodes" ["project", "label"],
   .createIndex "idx_nodes_name" "nodes" ["project", "name"],
   .createIndex "idx_nodes_file" "nodes" ["project", "file_path"],
   .createIndex "idx_edges_source" "edges" ["source_id", "edge_type"],
   .createIndex "idx_edges_target" "edges" ["target_id", "edge_type"],
   .createIndex "idx_edges_type" "edges" ["project", "edge_type"],
   .createIndex "idx_edges_target_type" "edges" ["project", "target_id", "edge_type"],
   .createIndex "idx_edges_source_type" "edges" ["project", "source_id", "edge_type"],
   .createIndex "idx_edges_url_path" "edges" ["project", "url_path_gen"],
   .createIndex "idx_file_state_project" "file_state" ["project"],
   .createVirtualTable true "nodes_fts" ["name", "qualified_name", "label", "file_path"]]

/-- `0012_vector_embeddings_chunks.sql`: SQLite cannot change a `UNIQUE` constraint in place, so the
table is rebuilt. -/
def vectorEmbeddingsChunks : List Stmt :=
  [.dropIndex "idx_vector_embeddings_scope",
   .dropIndex "idx_vector_embeddings_file",
   .dropIndex "idx_vector_embeddings_node",
   .dropIndex "idx_vector_embeddings_uniq",
   .renameTable "vector_embeddings" "vector_embeddings_old_0012",
   .createTable false "vector_embeddings" ["id", "project", "model_id", "prompt_version", "task",
     "node_id", "chunk_idx", "qualified_name", "file_path", "start_line", "end_line",
     "content_sha256", "graph_generation", "dim", "vector_norm", "vector", "created_at",
     "vector_i8", "i8_scale"],
   .insertSelect "vector_embeddings" "vector_embeddings_old_0012",
   .dropTable false "vector_embeddings_old_0012",
   .createIndex "idx_vector_embeddings_uniq" "vector_embeddings" ["project", "model_id",
     "prompt_version", "task", "qualified_name", "chunk_idx", "content_sha256"],
   .createIndex "idx_vector_embeddings_scope" "vector_embeddings" ["project", "model_id",
     "prompt_version", "task", "graph_generation"],
   .createIndex "idx_vector_embeddings_file" "vector_embeddings" ["project", "file_path"],
   .createIndex "idx_vector_embeddings_node" "vector_embeddings" ["node_id"]]

/-- `MIGRATIONS`: all migrations in version order, append-only. -/
def migrations : List Migration :=
  [{ version := 1, name := "initial_schema", sql := initialSchema },
   { version := 2, name := "file_content_fts", sql :=
      [.createTable true "file_content" ["id", "project", "rel_path", "line", "snippet"],
       .createIndex "idx_file_content_path" "file_content" ["project", "rel_path"],
       .createVirtualTable true "file_content_fts" ["snippet", "file_path"]] },
   { version := 3, name := "file_content_fts_external", sql :=
      [.addColumn "file_content" "file_path",
       .fillColumn "file_content" "file_path" "rel_path",
       .dropTable true "file_content_fts",
       .createVirtualTable false "file_content_fts" ["snippet", "file_path"],
       .createIndex "idx_file_content_path_v2" "file_content" ["project", "file_path"]] },
   { version := 4, name := "file_content_fts_triggers", sql :=
      [.dropTrigger "file_content_fts_ai",
       .dropTrigger "file_content_fts_ad",
       .dropTrigger "file_content_fts_au",
       .dropTable true "file_content_fts",
       .createVirtualTable false "file_content_fts" ["snippet", "file_path"],
       .createTrigger "file_content_fts_ai" "file_content",
       .createTrigger "file_content_fts_ad" "file_content",
       .createTrigger "file_content_fts_au" "file_content",
       .ftsRebuild "file_content_fts"] },
   { version := 5, name := "nodes_by_name_index", sql :=
      [.createIndex "idx_nodes_name" "nodes" ["project", "name"]] },
   { version := 6, name := "nodes_fts_rebuild", sql :=
      [.dropTable true "nodes_fts",
       .createVirtualTable false "nodes_fts" ["name", "qualified_name", "label", "file_path"]] },
   { version := 7, name := "raw_edges", sql :=
      [.createTable true "raw_edges" ["id", "project", "file_path", "source_qname", "target_qname",
         "edge_type", "properties"],
       .createIndex "idx_raw_edges_project" "raw_edges" ["project"],
       .createIndex "idx_raw_edges_file" "raw_edges" ["project", "file_path"]] },
   { version := 8, name := "provider_state", sql :=
      [.addColumn "file_state" "language",
       .createTable true "provider_state" ["project", "language", "provider_version", "status",
         "supported_edge_classes", "unsupported_edge_classes", "files_seen", "files_indexed",
         "files_failed", "diagnostics", "last_indexed_generation", "updated_at"],
       .createIndex "idx_provider_state_project_status" "provider_state" ["project", "status"]] },
   { version := 9, name := "index_skips", sql :=
      [.createTable true "index_skips" ["project", "rel_path", "language", "reason", "detail",
         "size", "mtime_ns", "last_indexed_generation", "updated_at"],
       .createIndex "idx_index_skips_project_reason" "index_skips" ["project", "reason"]] },
   { version := 10, name := "vector_embeddings", sql :=
      [.createTable true "vector_embeddings" ["id", "project", "model_id", "prompt_version", "task",
         "node_id", "qualified_name", "file_path", "start_line", "end_line", "content_sha256",
         "graph_generation", "dim", "vector_norm", "vector", "created_at"],
       .createIndex "idx_vector_embeddings_scope" "vector_embeddings" ["project", "model_id",
         "prompt_version", "task", "graph_generation"],
       .createIndex "idx_vector_embeddings_file" "vector_embeddings" ["project", "file_path"],
       .createIndex "idx_vector_embeddings_node" "vector_embeddings" ["node_id"]] },
   { version := 11, name := "vector_embeddings_i8", sql :=
      [.addColumn "vector_embeddings" "vector_i8",
       .addColumn "vector_embeddings" "i8_scale"] },
   { version := 12, name := "vector_embeddings_chunks", sql := vectorEmbeddingsChunks },
   { version := 13, name := "expand_packs", sql :=
      [.createTable true "expand_packs" ["id", "project", "command", "query", "graph_generation",
         "created_at", "expires_at", "summary_json", "payload_text", "payload_json"],
       .createIndex "idx_expand_packs_expiry" "expand_packs" ["expires_at"],
       .createIndex "idx_expand_packs_project" "expand_packs" ["project", "graph_generation"]] },
   { version := 14, name := "file_identity", sql :=
      [.createTable true "file_identity" ["project", "rel_path", "ctime_ns", "file_id"],
       .dropTable true "project_summaries"] },
   { version := 15, name := "index_skip_identity", sql :=
      [.addColumn "index_skips" "ctime_ns",
       .addColumn "index_skips" "file_id"] }]

def currentVersion : ℕ := 15

/-! ### Databases and connections -/

/-- `str::parse::<u32>`. -/
def parseU32 (s : String) : Option ℕ :=
  let digits :=
    match s.toList with
    | '+' :: rest => rest
    | cs => cs
  if digits.isEmpty || !digits.all Char.isDigit then none
  else
    let n := digits.foldl (fun n c => n * 10 + (c.toNat - '0'.toNat)) 0
    if n < 2 ^ 32 then some n else none

/-- A database: the table `schema_meta`, `none` before it is created, and everything else. -/
structure Db (σ : Type) where
  schemaMeta : Option (KeyedTable (String × String) Prod.fst)
  tables : σ

/-- A connection: what is committed, and what an open transaction sees. -/
structure Conn (σ : Type) where
  committed : Db σ
  pending : Option (Db σ)

/-- The calls the runner makes on its connection.  A statement is named by its migration and its
place in it. -/
inductive Call where
  | createMeta
  | begin (version : ℕ)
  | statement (version index : ℕ)
  | record (version : ℕ)
  | commit (version : ℕ)
  | rollback (version : ℕ)
  deriving DecidableEq

section Runner

variable {σ : Type}

/-- `CREATE TABLE IF NOT EXISTS schema_meta`. -/
def Db.ensureMeta (db : Db σ) : Db σ :=
  { db with schemaMeta := some (db.schemaMeta.getD KeyedTable.empty) }

/-- The recorded schema version; a missing or unreadable one counts as 0. -/
def Db.schemaVersion (db : Db σ) : ℕ :=
  ((db.schemaMeta.bind (·.find? "schema_version")).bind fun row => parseU32 row.2).getD 0

/-- `INSERT INTO schema_meta … ON CONFLICT(key) DO UPDATE`. -/
def Db.recordVersion (version : ℕ) (db : Db σ) : Except String (Db σ) :=
  match db.schemaMeta with
  | none => .error "no such table: schema_meta"
  | some t => .ok { db with schemaMeta := some (t.upsert ("schema_version", toString version)) }

/-- What a statement outside the runner's own control sees and writes. -/
def Conn.view (c : Conn σ) : Db σ := c.pending.getD c.committed

/-- Run a statement in the open transaction, or on its own when there is none. -/
def Conn.update (f : Db σ → Db σ) (c : Conn σ) : Conn σ :=
  match c.pending with
  | some db => { c with pending := some (f db) }
  | none => { c with committed := f c.committed }

-- What SQLite does with a statement, and the calls that fail for any other reason.
variable (exec : Stmt → σ → Except String σ) (fails : Call → Option String)

/-- `execute_batch` of a migration's statements, the first of them being number `i`: it stops at the
first that fails, with the effects of the earlier ones in the open transaction. -/
def executeBatch (version : ℕ) : ℕ → List Stmt → σ → Option String × σ
  | _, [], t => (none, t)
  | i, st :: rest, t =>
    match fails (.statement version i) with
    | some e => (some e, t)
    | none =>
      match exec st t with
      | .error e => (some e, t)
      | .ok t' => executeBatch version (i + 1) rest t'

/-- The closure of `apply_migration_atomic`: the statements, then the version bump. -/
def applyAndRecord (m : Migration) (db : Db σ) : Option String × Db σ :=
  match executeBatch exec fails m.version 0 m.sql db.tables with
  | (some e, t) => (some s!"migration v{m.version} ({m.name}): {e}", { db with tables := t })
  | (none, t) =>
    match fails (.record m.version) with
    | some e => (some s!"record schema_version: {e}", { db with tables := t })
    | none =>
      match Db.recordVersion m.version { db with tables := t } with
      | .error e => (some s!"record schema_version: {e}", { db with tables := t })
      | .ok db' => (none, db')

def applyMigrationAtomic (m : Migration) (c : Conn σ) : Except String Unit × Conn σ :=
  match fails (.begin m.version), c.pending with
  | some e, _ => (.error s!"begin migration v{m.version}: {e}", c)
  | none, some _ =>
    (.error s!"begin migration v{m.version}: cannot start a transaction within a transaction", c)
  | none, none =>
    match applyAndRecord exec fails m c.committed with
    | (none, db) =>
      match fails (.commit m.version) with
      -- a failed COMMIT leaves the transaction open
      | some e =>
        (.error s!"commit migration v{m.version}: {e}", { c with pending := some db })
      | none => (.ok (), { committed := db, pending := none })
    | (some e, db) =>
      match fails (.rollback m.version) with
      | some _ => (.error e, { c with pending := some db })
      | none => (.error e, { c with pending := none })

/-- The loop of `migrate` over the migrations still to be looked at. -/
def migrateLoop (current : ℕ) : List Migration → ℕ → Conn σ → Except String ℕ × Conn σ
  | [], applied, c => (.ok applied, c)
  | m :: ms, applied, c =>
    if current < m.version then
      match applyMigrationAtomic exec fails m c with
      | (.ok (), c') => migrateLoop current ms (applied + 1) c'
      | (.error e, c') => (.error e, c')
    else migrateLoop current ms applied c

/-- `migrate`: apply pending migrations and return how many were applied. -/
def migrate (c : Conn σ) : Except String ℕ × Conn σ :=
  match fails .createMeta with
  | some e => (.error s!"create schema_meta: {e}", c)
  | none =>
    let c := c.update Db.ensureMeta
    migrateLoop exec fails c.view.schemaVersion migrations 0 c

/-- No call fails but for what the statement itself does. -/
def noFaults : Call → Option String := fun _ => none

/-! ### One migration -/

/-- What a migration is meant to do: all of its statements, and the version bump. -/
def Migration.effect (m : Migration) (db : Db σ) : Except String (Db σ) :=
  match applyAll exec m.sql db.tables with
  | .ok t => Db.recordVersion m.version { db with tables := t }
  | .error e => .error e

variable {exec} {fails}

theorem executeBatch_eq_none {version i : ℕ} {sql : List Stmt} {t t' : σ}
    (h : executeBatch exec fails version i sql t = (none, t')) : applyAll exec sql t = .ok t' := by
  induction sql generalizing i t with
  | nil =>
    cases h
    rfl
  | cons st rest ih =>
    simp only [executeBatch] at h
    cases hf : fails (.statement version i) with
    | some e => simp [hf] at h
    | none =>
      cases hst : exec st t with
      | error e => simp [hf, hst] at h
      | ok u =>
        simp only [hf, hst] at h
        simpa [applyAll, hst] using ih h

theorem executeBatch_noFaults (version i : ℕ) {sql : List Stmt} {t t' : σ}
    (h : applyAll exec sql t = .ok t') :
    executeBatch exec noFaults version i sql t = (none, t') := by
  induction sql generalizing i t with
  | nil =>
    cases h
    rfl
  | cons st rest ih =>
    simp only [applyAll] at h
    cases hst : exec st t with
    | error e => simp [hst] at h
    | ok u =>
      rw [hst] at h
      simpa [executeBatch, noFaults, hst] using ih (i + 1) h

variable {m : Migration} {db db' : Db σ} {k : ℕ}

theorem applyAndRecord_eq_none (h : applyAndRecord exec fails m db = (none, db')) :
    m.effect exec db = .ok db' := by
  unfold applyAndRecord at h
  rcases hb : executeBatch exec fails m.version 0 m.sql db.tables with ⟨r, t⟩
  cases r with
  | some e => simp [hb] at h
  | none =>
    have hall := executeBatch_eq_none hb
    cases hf : fails (.record m.version) with
    | some e => simp [hb, hf] at h
    | none =>
      cases hr : Db.recordVersion m.version { db with tables := t } with
      | error e => simp [hb, hf, hr] at h
      | ok db₁ =>
        simp only [hb, hf, hr, Prod.mk.injEq, true_and] at h
        subst h
        simp [Migration.effect, hall, hr]

theorem applyAndRecord_noFaults (h : m.effect exec db = .ok db') :
    applyAndRecord exec noFaults m db = (none, db') := by
  unfold Migration.effect at h
  cases ht : applyAll exec m.sql db.tables with
  | error e => simp [ht] at h
  | ok t =>
    rw [ht] at h
    simp only at h
    simp only [applyAndRecord, executeBatch_noFaults m.version 0 ht, h]
    rfl

/-- **One migration is atomic**: whatever call fails, the committed database has all of the
migration's statements and its version, or is untouched. -/
theorem atomicFor_applyMigrationAtomic (exec : Stmt → σ → Except String σ)
    (fails : Call → Option String) :
    AtomicFor (Migration.effect exec) Conn.committed (applyMigrationAtomic exec fails) := by
  intro m c
  unfold applyMigrationAtomic
  cases hb : fails (.begin m.version) with
  | some e => exact Or.inr ⟨⟨_, rfl⟩, rfl⟩
  | none =>
    cases hp : c.pending with
    | some db => exact Or.inr ⟨⟨_, rfl⟩, rfl⟩
    | none =>
      rcases hr : applyAndRecord exec fails m c.committed with ⟨r, db⟩
      cases r with
      | none =>
        cases hc : fails (.commit m.version) with
        | some e => exact Or.inr ⟨⟨_, rfl⟩, rfl⟩
        | none => exact Or.inl ⟨rfl, applyAndRecord_eq_none hr⟩
      | some e =>
        cases hc : fails (.rollback m.version) with
        | some e' => exact Or.inr ⟨⟨_, rfl⟩, rfl⟩
        | none => exact Or.inr ⟨⟨_, rfl⟩, rfl⟩

/-- Without faults a migration goes through whenever its statements do. -/
theorem applyMigrationAtomic_noFaults (m : Migration) (db db' : Db σ)
    (h : m.effect exec db = .ok db') :
    applyMigrationAtomic exec noFaults m ⟨db, none⟩ = (.ok (), ⟨db', none⟩) := by
  simp only [applyMigrationAtomic, applyAndRecord_noFaults h]
  rfl

/-! ### The recorded version -/

theorem parseU32_version : ∀ m ∈ migrations, parseU32 (toString m.version) = some m.version := by
  decide

theorem migrations_sorted : migrations.Pairwise fun m n => m.version < n.version := by
  decide

theorem version_le_currentVersion : ∀ m ∈ migrations, m.version ≤ currentVersion := by
  decide

theorem schemaVersion_effect (hm : parseU32 (toString m.version) = some m.version)
    (h : m.effect exec db = .ok db') : db'.schemaVersion = m.version ∧ db'.schemaMeta.isSome := by
  unfold Migration.effect at h
  cases ht : applyAll exec m.sql db.tables with
  | error e => simp [ht] at h
  | ok t =>
    cases hmeta : db.schemaMeta with
    | none => simp [ht, hmeta, Db.recordVersion] at h
    | some rows =>
      simp only [ht, hmeta, Db.recordVersion, Except.ok.injEq] at h
      subst h
      refine ⟨?_, rfl⟩
      simp only [Db.schemaVersion, Option.bind_some, KeyedTable.find?_upsert, if_pos]
      rw [hm, Option.getD_some]

theorem schemaVersion_applyAll {ms : List Migration}
    (hms : ∀ m ∈ ms, parseU32 (toString m.version) = some m.version) (hmeta : db.schemaMeta.isSome)
    (h : applyAll (Migration.effect exec) ms db = .ok db') :
    db'.schemaVersion = (ms.getLast?.map Migration.version).getD db.schemaVersion ∧
      db'.schemaMeta.isSome := by
  induction ms generalizing db with
  | nil =>
    cases h
    exact ⟨rfl, hmeta⟩
  | cons m ms ih =>
    simp only [applyAll] at h
    cases he : m.effect exec db with
    | error e => simp [he] at h
    | ok db₁ =>
      rw [he] at h
      obtain ⟨hv, hm₁⟩ := schemaVersion_effect (hms m (by simp)) he
      obtain ⟨hlast, hm'⟩ := ih (fun n hn => hms n (by simp [hn])) hm₁ h
      refine ⟨?_, hm'⟩
      rw [hlast, hv, List.getLast?_cons]
      cases ms.getLast? <;> rfl

theorem ensureMeta_of_isSome (h : db.schemaMeta.isSome) : db.ensureMeta = db := by
  obtain ⟨t, ht⟩ := Option.isSome_iff_exists.1 h
  cases db
  simp only at ht
  subst ht
  rfl

@[simp] theorem schemaVersion_ensureMeta (db : Db σ) :
    db.ensureMeta.schemaVersion = db.schemaVersion := by
  cases h : db.schemaMeta with
  | none => simp [Db.ensureMeta, Db.schemaVersion, h]
  | some t => simp [Db.ensureMeta, Db.schemaVersion, h]

/-! ### The whole run -/

/-- The migrations a database of version `v` still needs. -/
def pendingMigrations (v : ℕ) : List Migration :=
  migrations.filter fun m => decide (v < m.version)

theorem migrateLoop_eq_runSteps (v : ℕ) (ms : List Migration) (n : ℕ) (c : Conn σ) :
    migrateLoop exec fails v ms n c =
      runSteps (applyMigrationAtomic exec fails) (ms.filter fun m => decide (v < m.version)) n c := by
  induction ms generalizing n c with
  | nil => rfl
  | cons m ms ih =>
    by_cases hm : v < m.version
    · rw [List.filter_cons_of_pos (by simpa using hm), migrateLoop, if_pos hm, runSteps]
      rcases applyMigrationAtomic exec fails m c with ⟨r, c'⟩
      cases r with
      | error e => rfl
      | ok u => exact ih (n + 1) c'
    · rw [List.filter_cons_of_neg (by simpa using hm), migrateLoop, if_neg hm]
      exact ih n c

/-- A fault-free or faulty run, once `schema_meta` is there. -/
theorem migrate_eq_runSteps (db : Db σ) (hf : fails .createMeta = none) :
    migrate exec fails ⟨db, none⟩ =
      runSteps (applyMigrationAtomic exec fails) (pendingMigrations db.schemaVersion) 0
        ⟨db.ensureMeta, none⟩ := by
  simp only [migrate, hf]
  rw [migrateLoop_eq_runSteps]
  simp [Conn.update, Conn.view, pendingMigrations]

/-- In a list sorted by version, what is newer than the last of the first `k` is what follows. -/
theorem filter_newer_than_prefix {ms : List Migration}
    (hs : ms.Pairwise fun m n => m.version < n.version) {last : Migration}
    (hlast : (ms.take k).getLast? = some last) :
    (ms.filter fun m => decide (last.version < m.version)) = ms.drop k := by
  obtain ⟨front, hfront⟩ := List.getLast?_eq_some_iff.1 hlast
  have hsplit : ms = front ++ [last] ++ ms.drop k := by
    rw [← hfront, List.take_append_drop]
  rw [hsplit, List.pairwise_append, List.pairwise_append] at hs
  obtain ⟨⟨_, _, hfl⟩, _, hld⟩ := hs
  have hold : (front ++ [last]).filter (fun m => decide (last.version < m.version)) = [] := by
    refine List.filter_eq_nil_iff.2 fun m hm => ?_
    rcases List.mem_append.1 hm with hm | hm
    · have := hfl m hm last (by simp)
      simp only [decide_eq_true_eq]
      omega
    · simp [List.mem_singleton.1 hm]
  have hnew : (ms.drop k).filter (fun m => decide (last.version < m.version)) = ms.drop k := by
    refine List.filter_eq_self.2 fun m hm => ?_
    simpa using hld last (by simp) m hm
  conv_lhs => rw [hsplit]
  rw [List.filter_append, hold, hnew, List.nil_append]

theorem pendingMigrations_sorted (v : ℕ) :
    (pendingMigrations v).Pairwise fun m n => m.version < n.version :=
  migrations_sorted.filter _

theorem pendingMigrations_after (v k : ℕ) :
    pendingMigrations ((((pendingMigrations v).take k).getLast?.map Migration.version).getD v) =
      (pendingMigrations v).drop k := by
  cases hlast : ((pendingMigrations v).take k).getLast? with
  | none =>
    have hnil := List.getLast?_eq_none_iff.1 hlast
    rcases List.take_eq_nil_iff.1 hnil with rfl | hp
    · rfl
    · simp [hp]
  | some last =>
    rw [← filter_newer_than_prefix (pendingMigrations_sorted v) hlast]
    have hv : v < last.version := by
      have hmem := List.mem_of_mem_take (List.mem_of_getLast? hlast)
      simpa [pendingMigrations] using (List.mem_filter.1 hmem).2
    simp only [Option.map_some, Option.getD_some, pendingMigrations, List.filter_filter]
    refine List.filter_congr fun m _ => ?_
    by_cases hm : last.version < m.version
    · simp [hm, Nat.lt_trans hv hm]
    · simp [hm]

theorem schemaMeta_isSome_of_pos (h : 0 < db.schemaVersion) : db.schemaMeta.isSome := by
  cases hm : db.schemaMeta with
  | none => simp [Db.schemaVersion, hm] at h
  | some t => rfl

theorem pendingMigrations_eq_nil {v : ℕ} (h : currentVersion ≤ v) : pendingMigrations v = [] := by
  refine List.filter_eq_nil_iff.2 fun m hm => ?_
  have := version_le_currentVersion m hm
  simp only [decide_eq_true_eq]
  omega

/-- The version recorded once the first `k` pending migrations are in. -/
theorem schemaVersion_after
    (h : applyAll (Migration.effect exec) ((pendingMigrations db.schemaVersion).take k)
      db.ensureMeta = .ok db') :
    db'.schemaVersion = (((pendingMigrations db.schemaVersion).take k).getLast?.map
        Migration.version).getD db.schemaVersion ∧ db'.schemaMeta.isSome := by
  have hparse : ∀ m ∈ (pendingMigrations db.schemaVersion).take k,
      parseU32 (toString m.version) = some m.version :=
    fun m hm => parseU32_version m (List.mem_of_mem_filter (List.mem_of_mem_take hm))
  simpa using schemaVersion_applyAll hparse Option.isSome_some h

/-- Running again from what an interrupted run committed is running to the end. -/
theorem migrate_resume (hk : k ≤ (pendingMigrations db.schemaVersion).length)
    (h : applyAll (Migration.effect exec) ((pendingMigrations db.schemaVersion).take k)
      db.ensureMeta = .ok db') :
    migrate exec noFaults ⟨db, none⟩ =
      ((migrate exec noFaults ⟨db', none⟩).1.map (k + ·),
        (migrate exec noFaults ⟨db', none⟩).2) := by
  obtain ⟨hv, hmeta⟩ := schemaVersion_after h
  rw [migrate_eq_runSteps db rfl, migrate_eq_runSteps db' rfl, hv, pendingMigrations_after,
    ensureMeta_of_isSome hmeta,
    runSteps_resume applyMigrationAtomic_noFaults _ 0 k db.ensureMeta db' hk h,
    Nat.zero_add, runSteps_shift]

/-- **Migration is atomic and resumable.**  From a database of version `v`, whatever calls fail:

* some first `k` of the pending migrations are committed, each of them whole, the recorded version
  is that of the last of them, and the runner reports `k` if these were all and a failure if not;
* running it again without faults on what was committed ends in the database an uninterrupted run
  would have produced, having applied the remaining migrations;
* a database of the current or of a newer version is left as it is, and accepted. -/
theorem migrate_atomic_resumable (exec : Stmt → σ → Except String σ)
    (fails : Call → Option String) (db : Db σ) :
    let v := db.schemaVersion
    let run := migrate exec fails ⟨db, none⟩
    let rerun := migrate exec noFaults ⟨run.2.committed, none⟩
    let whole := migrate exec noFaults ⟨db, none⟩
    (∃ k ≤ (pendingMigrations v).length,
      applyAll (Migration.effect exec) ((pendingMigrations v).take k)
        (if (fails .createMeta).isSome then db else db.ensureMeta) = .ok run.2.committed ∧
      run.2.committed.schemaVersion =
        (((pendingMigrations v).take k).getLast?.map Migration.version).getD v ∧
      (run.1 = .ok k ∧ k = (pendingMigrations v).length ∨
        (∃ e, run.1 = .error e) ∧
          (k < (pendingMigrations v).length ∨ k = 0 ∧ (fails .createMeta).isSome)) ∧
      rerun.2 = whole.2 ∧ whole.1 = rerun.1.map (k + ·)) ∧
    (currentVersion ≤ v → run.2 = ⟨db, none⟩ ∧ whole = (.ok 0, ⟨db, none⟩)) := by
  intro v run rerun whole
  constructor
  · cases hf : fails .createMeta with
    | some e =>
      -- nothing was touched, so the second run is the uninterrupted one
      have hrun : run = (.error s!"create schema_meta: {e}", ⟨db, none⟩) := by
        simp [run, migrate, hf]
      have hre : rerun = whole := by simp [rerun, whole, hrun]
      refine ⟨0, Nat.zero_le _, ?_, ?_, Or.inr ⟨⟨_, by rw [hrun]⟩, Or.inr ⟨rfl, rfl⟩⟩, ?_, ?_⟩
      · simp [hrun, applyAll]
      · simp [hrun, v]
      · rw [hre]
      · rw [hre]
        cases whole.1 <;> simp [Except.map]
    | none =>
      obtain ⟨k, hk, hpre, hres⟩ := runSteps_eq_prefix
        (atomicFor_applyMigrationAtomic exec fails) (pendingMigrations v) 0 ⟨db.ensureMeta, none⟩
      rw [← migrate_eq_runSteps db hf] at hpre hres
      have hresume := migrate_resume hk hpre
      refine ⟨k, hk, by simpa using hpre, (schemaVersion_after hpre).1, ?_, ?_, ?_⟩
      · rw [Nat.zero_add] at hres
        exact hres.imp_right fun h => ⟨h.1, Or.inl h.2⟩
      · exact (congrArg Prod.snd hresume).symm
      · exact congrArg Prod.fst hresume
  · intro hv
    have hens : db.ensureMeta = db :=
      ensureMeta_of_isSome (schemaMeta_isSome_of_pos (Nat.lt_of_lt_of_le (by decide) hv))
    constructor
    · cases hf : fails .createMeta with
      | some e => simp [run, migrate, hf]
      | none =>
        simp only [run]
        rw [migrate_eq_runSteps db hf, pendingMigrations_eq_nil hv, hens]
        rfl
    · simp only [whole]
      rw [migrate_eq_runSteps db rfl, pendingMigrations_eq_nil hv, hens]
      rfl

end Runner

/-! ### A catalog -/

/-- The objects of a schema: tables with their columns, indexes and triggers with their tables. -/
structure Catalog where
  tables : List (String × List String)
  indexes : List (String × String)
  triggers : List (String × String)
  deriving DecidableEq

namespace Catalog

/-- The catalog of a fresh database, after `schema_meta` has been created. -/
def fresh : Catalog := ⟨[("schema_meta", ["key", "value"])], [], []⟩

/-- Add a table, or leave the one of that name alone under `IF NOT EXISTS`. -/
def createTable (ifNotExists : Bool) (name : String) (columns : List String) (c : Catalog) :
    Except String Catalog :=
  match c.tables.lookup name, ifNotExists with
  | none, _ => .ok { c with tables := c.tables ++ [(name, columns)] }
  | some _, true => .ok c
  | some _, false => .error s!"table {name} already exists"

/-- The columns of a table that has to be there. -/
def columnsOf (name : String) (c : Catalog) : Except String (List String) :=
  match c.tables.lookup name with
  | some columns => .ok columns
  | none => .error s!"no such table: {name}"

/-- `DROP TABLE` takes the table's indexes and triggers with it. -/
def removeTable (name : String) (c : Catalog) : Catalog where
  tables := c.tables.filter (·.1 ≠ name)
  indexes := c.indexes.filter (·.2 ≠ name)
  triggers := c.triggers.filter (·.2 ≠ name)

/-- What SQLite does with a statement, as far as the catalog shows it. -/
def exec : Stmt → Catalog → Except String Catalog
  | .createTable ifNotExists name columns, c => c.createTable ifNotExists name columns
  | .createVirtualTable ifNotExists name columns, c => c.createTable ifNotExists name columns
  | .createIndex name table columns, c => do
      let known ← c.columnsOf table
      if !columns.all known.contains then .error s!"no such column in {table}"
      else if (c.indexes.lookup name).isSome then .ok c
      else .ok { c with indexes := c.indexes ++ [(name, table)] }
  | .createTrigger name table, c => do
      let _ ← c.columnsOf table
      if (c.triggers.lookup name).isSome then .error s!"trigger {name} already exists"
      else .ok { c with triggers := c.triggers ++ [(name, table)] }
  | .addColumn table column, c => do
      let known ← c.columnsOf table
      if known.contains column then .error s!"duplicate column name: {column}"
      else
        .ok { c with
          tables := c.tables.map fun t => if t.1 = table then (t.1, t.2 ++ [column]) else t }
  | .renameTable old new, c => do
      let _ ← c.columnsOf old
      if (c.tables.lookup new).isSome then
        .error s!"there is already another table or index with this name: {new}"
      else
        let rename (t : String) : String := if t = old then new else t
        .ok
          { tables := c.tables.map fun t => (rename t.1, t.2)
            indexes := c.indexes.map fun i => (i.1, rename i.2)
            triggers := c.triggers.map fun t => (t.1, rename t.2) }
  | .dropTable ifExists name, c =>
    if (c.tables.lookup name).isSome then .ok (c.removeTable name)
    else if ifExists then .ok c
    else .error s!"no such table: {name}"
  | .dropIndex name, c => .ok { c with indexes := c.indexes.filter (·.1 ≠ name) }
  | .dropTrigger name, c => .ok { c with triggers := c.triggers.filter (·.1 ≠ name) }
  | .fillColumn table column source, c => do
      let known ← c.columnsOf table
      if known.contains column && known.contains source then .ok c
      else .error s!"no such column: {column}"
  | .insertSelect table source, c => do
      let _ ← c.columnsOf table
      let _ ← c.columnsOf source
      .ok c
  | .ftsRebuild table, c => do
      let _ ← c.columnsOf table
      .ok c

end Catalog

/-- A database that a later release of the program has migrated to version 16 is not rejected. -/
theorem migrate_accepts_newer :
    let db : Db Catalog :=
      ⟨some (KeyedTable.empty.upsert ("schema_version", "16")), Catalog.fresh⟩
    currentVersion < db.schemaVersion ∧
      ¬ ∃ e, (migrate Catalog.exec noFaults ⟨db, none⟩).1 = .error e := by
  refine ⟨by decide, ?_⟩
  rintro ⟨e, he⟩
  have hok : (migrate Catalog.exec noFaults
      ⟨⟨some (KeyedTable.empty.upsert ("schema_version", "16")), Catalog.fresh⟩, none⟩).1 = .ok 0 :=
    rfl
  rw [hok] at he
  cases he

example : (migrate Catalog.exec noFaults ⟨⟨none, Catalog.fresh⟩, none⟩).1 = .ok 15 := by rfl

end Greppy
