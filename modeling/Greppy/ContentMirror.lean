/-
**The full-text postings mirror the source lines.**

`file_content` has a row for each line of each file, and `file_content_fts` a posting for each row.  Three
triggers on the rows keep the postings: an insertion adds the posting of the new row, a deletion removes the
posting of the old one, and an update does both.  A posting is removed by the values it was added with.

Writing many lines at once goes another way.  The triggers are dropped, the same statement is run for each
line, the postings are built anew from the rows, and the triggers are created again.  All of that is one
transaction, which is rolled back when a statement fails.
-/

import Greppy.ExceptMap
import Greppy.GraphStore
import Greppy.GuardedRun
import Greppy.RowMirror

set_option autoImplicit false

namespace Greppy

/-! ### The rows -/

/-- `ContentRow`: a line of a file. -/
structure ContentRow where
  line : ℕ
  snippet : String

/-- A row of `file_content`. -/
structure ContentEntry where
  id : ℕ
  project : String
  relPath : String
  filePath : String
  line : ℤ
  snippet : String
deriving DecidableEq

namespace ContentEntry

/-- The unique key of `file_content`. -/
def key (e : ContentEntry) : String × String × ℤ := (e.project, e.relPath, e.line)

/-- `ON CONFLICT(project, rel_path, line) DO UPDATE`. -/
def overwrite (old excluded : ContentEntry) : ContentEntry :=
  { old with filePath := excluded.filePath, snippet := excluded.snippet }

theorem key_overwrite (old excluded : ContentEntry) (h : old.key = excluded.key) :
    (overwrite old excluded).key = excluded.key := h

end ContentEntry

/-- The table `file_content`, with the projects that its rows belong to. -/
structure FileContent where
  projects : List String
  rows : KeyedTable ContentEntry ContentEntry.key
  /-- The next value of the `AUTOINCREMENT` counter. -/
  nextId : ℕ
  ids_nodup : (rows.rows.map ContentEntry.id).Nodup
  ids_lt : ∀ e ∈ rows.rows, e.id < nextId
  rows_fk : ∀ e ∈ rows.rows, e.project ∈ projects

namespace FileContent

/-- The table of a freshly created database. -/
def empty : FileContent where
  projects := []
  rows := KeyedTable.empty
  nextId := 1
  ids_nodup := by simp
  ids_lt := by simp
  rows_fk := by simp

def newEntry (c : FileContent) (project relPath : String) (row : ContentRow) : ContentEntry where
  id := c.nextId
  project := project
  relPath := relPath
  filePath := relPath
  line := row.line
  snippet := row.snippet

/-- The ids after an insertion: those of before, and the one of a new row. -/
theorem id_of_mem_upsertWith {c : FileContent} {new e : ContentEntry}
    (he : e ∈ (c.rows.upsertWith ContentEntry.overwrite ContentEntry.key_overwrite new).rows) :
    e.id ∈ c.rows.rows.map ContentEntry.id ∨ e.id = new.id := by
  rcases KeyedTable.mem_upsertWith.1 he with rfl | ⟨he, -⟩
  · unfold KeyedTable.merged
    cases hfind : c.rows.find? new.key with
    | none => exact Or.inr rfl
    | some old => exact Or.inl (List.mem_map.2 ⟨old, KeyedTable.mem_of_find? hfind, rfl⟩)
  · exact Or.inl (List.mem_map_of_mem he)

/-- `INSERT INTO file_content … ON CONFLICT … DO UPDATE`, for a project that is there.  The counter goes on
when a row is written over as well. -/
def put (c : FileContent) (relPath : String) (row : ContentRow) (project : String)
    (hproject : project ∈ c.projects) : FileContent where
  projects := c.projects
  rows := c.rows.upsertWith ContentEntry.overwrite ContentEntry.key_overwrite
    (c.newEntry project relPath row)
  nextId := c.nextId + 1
  ids_nodup := by
    cases hfind : c.rows.find? (c.newEntry project relPath row).key with
    | none =>
      rw [KeyedTable.rows_upsertWith_of_find?_none hfind, List.map_append, List.nodup_append]
      refine ⟨c.ids_nodup, by simp, ?_⟩
      intro i hi j hj
      obtain ⟨e, he, rfl⟩ := List.mem_map.1 hi
      rw [List.map_singleton, List.mem_singleton] at hj
      rw [hj]
      exact (c.ids_lt e he).ne
    | some old =>
      rw [KeyedTable.rows_upsertWith_of_find? hfind, List.map_map]
      have hids : c.rows.rows.map (ContentEntry.id ∘ fun r =>
          if r.key = (c.newEntry project relPath row).key then
            r.overwrite (c.newEntry project relPath row) else r) =
          c.rows.rows.map ContentEntry.id := by
        refine List.map_congr_left fun e _ => ?_
        rw [Function.comp_apply]
        split <;> rfl
      rw [hids]
      exact c.ids_nodup
  ids_lt := by
    intro e he
    rcases id_of_mem_upsertWith he with hold | hnew
    · obtain ⟨old, hmem, hid⟩ := List.mem_map.1 hold
      rw [← hid]
      exact Nat.lt_succ_of_lt (c.ids_lt old hmem)
    · rw [hnew]
      exact Nat.lt_succ_self _
  rows_fk := by
    intro e he
    rcases KeyedTable.mem_upsertWith.1 he with rfl | ⟨he, -⟩
    · have hkey := KeyedTable.key_merged ContentEntry.key_overwrite c.rows
        (c.newEntry project relPath row)
      have hfst := congrArg Prod.fst hkey
      rwa [show ((c.rows.merged ContentEntry.overwrite (c.newEntry project relPath row)).project) =
        project from hfst]
    · exact c.rows_fk e he

/-- The statement of `insert_file_content_rows` and of `insert_file_content_batch`. -/
def insertRow (c : FileContent) (project relPath : String) (row : ContentRow) :
    Except StoreError FileContent :=
  if hproject : project ∈ c.projects then .ok (c.put relPath row project hproject)
  else .error .foreignKey

/-- `DELETE FROM file_content WHERE p`. -/
def deleteWhere (p : ContentEntry → Bool) (c : FileContent) : FileContent where
  projects := c.projects
  rows := c.rows.filter fun e => !p e
  nextId := c.nextId
  ids_nodup := (List.filter_sublist.map ContentEntry.id).nodup c.ids_nodup
  ids_lt := fun e he => c.ids_lt e (List.mem_of_mem_filter he)
  rows_fk := fun e he => c.rows_fk e (List.mem_of_mem_filter he)

/-- `upsert_project`, as far as the rows are concerned. -/
def upsertProject (name : String) (c : FileContent) : FileContent where
  projects := if name ∈ c.projects then c.projects else c.projects ++ [name]
  rows := c.rows
  nextId := c.nextId
  ids_nodup := c.ids_nodup
  ids_lt := c.ids_lt
  rows_fk := by
    intro e he
    have hold := c.rows_fk e he
    split
    · exact hold
    · exact List.mem_append_left _ hold

/-- `delete_project`: the rows go with the project. -/
def deleteProject (name : String) (c : FileContent) : FileContent where
  projects := c.projects.filter fun project => decide (project ≠ name)
  rows := c.rows.filter fun e => !decide (e.project = name)
  nextId := c.nextId
  ids_nodup := (List.filter_sublist.map ContentEntry.id).nodup c.ids_nodup
  ids_lt := fun e he => c.ids_lt e (List.mem_of_mem_filter he)
  rows_fk := by
    intro e he
    rw [KeyedTable.rows_filter, List.mem_filter] at he
    exact List.mem_filter.2 ⟨c.rows_fk e he.1, by simpa using he.2⟩

end FileContent

/-! ### The postings -/

/-- A posting of `file_content_fts`. -/
structure ContentPosting where
  rowid : ℕ
  snippet : String
  filePath : String
deriving DecidableEq

def contentPosting (e : ContentEntry) : ContentPosting where
  rowid := e.id
  snippet := e.snippet
  filePath := e.filePath

/-- The rows, the postings, and whether the triggers are there. -/
structure ContentStore where
  content : FileContent
  fts : List ContentPosting
  triggers : Bool

/-- The operations of `file_content.rs` and `project.rs` that write to the rows or to what they refer to. -/
inductive ContentOp where
  | upsertProject (name : String)
  | insertFileContentRows (project relPath : String) (rows : List ContentRow)
  | insertFileContentBatch (project : String) (files : List (String × List ContentRow))
  | deleteFileContent (project relPath : String)
  | deleteProjectFileContent (project : String)
  | deleteProject (name : String)

namespace ContentStore

/-- What the last migration leaves: the postings are built from the rows there are. -/
def migrated (c : FileContent) : ContentStore := ⟨c, c.rows.rows.map contentPosting, true⟩

/-- `file_content_fts_ai` for a row that is new, `file_content_fts_au` for a row that is written over. -/
def afterWrite (old : Option ContentEntry) (new : ContentEntry) (s : ContentStore) : List ContentPosting :=
  if s.triggers then RowMirror.remove contentPosting old.toList s.fts ++ [contentPosting new] else s.fts

/-- `file_content_fts_ad`, for each of the rows. -/
def afterDelete (rows : List ContentEntry) (s : ContentStore) : List ContentPosting :=
  if s.triggers then RowMirror.remove contentPosting rows s.fts else s.fts

/-- The insertion of a line, with the triggers that it fires. -/
def insertRow (s : ContentStore) (project relPath : String) (row : ContentRow) :
    Except StoreError ContentStore := do
  let new := s.content.newEntry project relPath row
  let content ← s.content.insertRow project relPath row
  return { s with
    content := content
    fts := s.afterWrite (s.content.rows.find? new.key) (s.content.rows.merged ContentEntry.overwrite new) }

/-- `DELETE FROM file_content WHERE p`, with the triggers that it fires. -/
def deleteWhere (p : ContentEntry → Bool) (s : ContentStore) : ContentStore :=
  { s with content := s.content.deleteWhere p, fts := s.afterDelete (s.content.rows.rows.filter p) }

/-- `DROP_FILE_CONTENT_FTS_TRIGGERS`. -/
def dropTriggers (s : ContentStore) : ContentStore := { s with triggers := false }

/-- The `rebuild` command. -/
def rebuild (s : ContentStore) : ContentStore :=
  { s with fts := s.content.rows.rows.map contentPosting }

/-- `CREATE_FILE_CONTENT_FTS_TRIGGERS`.  The triggers have to be gone; the batches drop them first. -/
def createTriggers (s : ContentStore) : ContentStore := { s with triggers := true }

/-- `insert_file_content_rows`, with the number of rows. -/
def insertFileContentRows (s : ContentStore) (project relPath : String) (rows : List ContentRow) :
    Except StoreError (ContentStore × ℕ) :=
  if rows.isEmpty then .ok (s, 0)
  else do
    let s ← rows.foldlM (fun s row => s.insertRow project relPath row) s
    return (s, rows.length)

/-- The rows of a batch, each with the path of its file. -/
def batchRows (files : List (String × List ContentRow)) : List (String × ContentRow) :=
  files.flatMap fun file => file.2.map fun row => (file.1, row)

/-- `insert_file_content_batch`, with the number of rows. -/
def insertFileContentBatch (s : ContentStore) (project : String)
    (files : List (String × List ContentRow)) : Except StoreError (ContentStore × ℕ) := do
  let s ← files.foldlM
    (fun s file => file.2.foldlM (fun s row => s.insertRow project file.1 row) s) s.dropTriggers
  return (s.rebuild.createTriggers, (batchRows files).length)

def deleteFileContent (s : ContentStore) (project relPath : String) : ContentStore :=
  s.deleteWhere fun e => decide (e.project = project ∧ e.relPath = relPath)

def deleteProjectFileContent (s : ContentStore) (project : String) : ContentStore :=
  if (s.content.rows.rows.filter fun e => decide (e.project = project)).length = 0 then s
  else (s.dropTriggers.deleteWhere fun e => decide (e.project = project)).rebuild.createTriggers

/-- `delete_project`.  The foreign key deletes the rows, and that fires the trigger. -/
def deleteProject (s : ContentStore) (name : String) : ContentStore :=
  { s with
    content := s.content.deleteProject name
    fts := s.afterDelete (s.content.rows.rows.filter fun e => decide (e.project = name)) }

/-- What a transaction leaves: nothing has changed when it failed. -/
def committed (s : ContentStore) : Except StoreError (ContentStore × ℕ) → ContentStore
  | .ok (s', _) => s'
  | .error _ => s

def step (s : ContentStore) : ContentOp → ContentStore
  | .upsertProject name => { s with content := s.content.upsertProject name }
  | .insertFileContentRows project relPath rows =>
    s.committed (s.insertFileContentRows project relPath rows)
  | .insertFileContentBatch project files => s.committed (s.insertFileContentBatch project files)
  | .deleteFileContent project relPath => s.deleteFileContent project relPath
  | .deleteProjectFileContent project => s.deleteProjectFileContent project
  | .deleteProject name => s.deleteProject name

/-! ### The mirror -/

/-- The triggers are there, and the postings are those of the rows. -/
structure Mirror (s : ContentStore) : Prop where
  triggers : s.triggers = true
  postings : s.fts.Perm (s.content.rows.rows.map contentPosting)

theorem mirror_migrated (c : FileContent) : (migrated c).Mirror := ⟨rfl, List.Perm.refl _⟩

theorem mirror_rebuild (s : ContentStore) : s.rebuild.createTriggers.Mirror :=
  ⟨rfl, List.Perm.refl _⟩

theorem insertRow_cases (s : ContentStore) (project relPath : String) (row : ContentRow) :
    (∃ s', s.insertRow project relPath row = .ok s' ∧
      s.content.insertRow project relPath row = .ok s'.content ∧
      project ∈ s.content.projects ∧ s'.content.projects = s.content.projects ∧
      s'.triggers = s.triggers ∧ (s.Mirror → s'.Mirror)) ∨
    (s.insertRow project relPath row = .error .foreignKey ∧ project ∉ s.content.projects) := by
  by_cases hproject : project ∈ s.content.projects
  · have hcontent : s.content.insertRow project relPath row =
        .ok (s.content.put relPath row project hproject) := dif_pos hproject
    let new := s.content.newEntry project relPath row
    let s' : ContentStore := { s with
      content := s.content.put relPath row project hproject
      fts := s.afterWrite (s.content.rows.find? new.key)
        (s.content.rows.merged ContentEntry.overwrite new) }
    have hinsert : s.insertRow project relPath row = .ok s' := by
      rw [insertRow, hcontent]
      rfl
    refine Or.inl ⟨s', hinsert, hcontent, hproject, rfl, rfl, ?_⟩
    rintro ⟨htriggers, hpostings⟩
    refine ⟨htriggers, ?_⟩
    simp only [s', afterWrite, if_pos htriggers]
    exact RowMirror.perm_upsertWith ContentEntry.key_overwrite hpostings new
  · refine Or.inr ⟨?_, hproject⟩
    rw [insertRow, FileContent.insertRow, dif_neg hproject]
    rfl

variable {s : ContentStore} {project : String}

theorem mirror_deleteWhere (hs : s.Mirror) (p : ContentEntry → Bool) :
    (s.deleteWhere p).Mirror := by
  refine ⟨hs.triggers, ?_⟩
  rw [deleteWhere, afterDelete, if_pos hs.triggers]
  exact RowMirror.perm_delete hs.postings p

theorem mirror_insertRows {relPath : String} {rows : List ContentRow} {s' : ContentStore}
    (hs : s.Mirror) (h : rows.foldlM (fun s row => s.insertRow project relPath row) s = .ok s') :
    s'.Mirror := by
  refine List.foldlM_ok_induction (P := fun _ t => Mirror t) ?_ hs h
  intro _ row t t' ht hinsert
  rcases t.insertRow_cases project relPath row with ⟨u, hu, -, -, -, -, hmirror⟩ | ⟨herror, -⟩
  · rw [hu] at hinsert
    cases hinsert
    exact hmirror ht
  · rw [herror] at hinsert
    cases hinsert

/-- **Every operation keeps the mirror.** -/
theorem mirror_step (op : ContentOp) (hs : s.Mirror) : (s.step op).Mirror := by
  cases op with
  | upsertProject name => exact ⟨hs.triggers, hs.postings⟩
  | insertFileContentRows project relPath rows =>
    rw [step, insertFileContentRows]
    split
    · exact hs
    · cases hrows : rows.foldlM (fun s row => s.insertRow project relPath row) s with
      | error e => exact hs
      | ok s' => exact mirror_insertRows hs hrows
  | insertFileContentBatch project files =>
    rw [step, insertFileContentBatch]
    cases hfiles : files.foldlM (fun s file =>
        file.2.foldlM (fun s row => s.insertRow project file.1 row) s) s.dropTriggers with
    | error e => exact hs
    | ok s' => exact mirror_rebuild s'
  | deleteFileContent project relPath => exact mirror_deleteWhere hs _
  | deleteProjectFileContent project =>
    rw [step, deleteProjectFileContent]
    split
    · exact hs
    · exact mirror_rebuild _
  | deleteProject name =>
    refine ⟨hs.triggers, ?_⟩
    rw [step, deleteProject, afterDelete, if_pos hs.triggers]
    exact RowMirror.perm_delete hs.postings _

/-! ### Batches -/

/-- The same rows, the same postings, and the triggers alike.  The order of the postings does not count. -/
structure Agree (s t : ContentStore) : Prop where
  content : s.content = t.content
  postings : s.fts.Perm t.fts
  triggers : s.triggers = t.triggers

theorem Mirror.agree {t : ContentStore} (hs : s.Mirror) (ht : t.Mirror)
    (hcontent : s.content = t.content) : s.Agree t := by
  refine ⟨hcontent, ?_, hs.triggers.trans ht.triggers.symm⟩
  have hpostings := ht.postings
  rw [← hcontent] at hpostings
  exact hs.postings.trans hpostings.symm

/-- The rows of a batch, inserted one at a time. -/
def oneAtATime (project : String) (items : List (String × ContentRow)) : List ContentOp :=
  items.map fun item => .insertFileContentRows project item.1 [item.2]

theorem step_insertRow (s : ContentStore) (project relPath : String) (row : ContentRow) :
    s.step (.insertFileContentRows project relPath [row]) =
      match s.insertRow project relPath row with
      | .ok s' => s'
      | .error _ => s := by
  simp only [step, insertFileContentRows, List.isEmpty_cons, Bool.false_eq_true, if_false,
    List.foldlM_cons, List.foldlM_nil, bind, Except.bind, pure, Except.pure]
  cases s.insertRow project relPath row <;> rfl

/-- What the rows of a list leave of the table, whatever the triggers do. -/
theorem foldlM_insertRow (items : List (String × ContentRow))
    (hproject : project ∈ s.content.projects) :
    ∃ s', items.foldlM (fun s item => s.insertRow project item.1 item.2) s = .ok s' ∧
      items.foldlM (fun c item => c.insertRow project item.1 item.2) s.content = .ok s'.content := by
  induction items generalizing s with
  | nil => exact ⟨s, rfl, rfl⟩
  | cons item items ih =>
    rcases s.insertRow_cases project item.1 item.2 with
      ⟨t, ht, hcontent, -, hprojects, -, -⟩ | ⟨-, hmissing⟩
    · obtain ⟨s', hs', hrest⟩ := @ih t (by rwa [hprojects])
      refine ⟨s', ?_, ?_⟩
      · rw [List.foldlM_cons, ht]
        exact hs'
      · rw [List.foldlM_cons, hcontent]
        exact hrest
    · exact absurd hproject hmissing

theorem foldl_oneAtATime (items : List (String × ContentRow))
    (hproject : project ∈ s.content.projects) :
    items.foldlM (fun c item => c.insertRow project item.1 item.2) s.content =
      .ok ((oneAtATime project items).foldl step s).content := by
  induction items generalizing s with
  | nil => rfl
  | cons item items ih =>
    rcases s.insertRow_cases project item.1 item.2 with
      ⟨t, ht, hcontent, -, hprojects, -, -⟩ | ⟨-, hmissing⟩
    · rw [oneAtATime, List.map_cons, List.foldl_cons, step_insertRow, ht, List.foldlM_cons, hcontent]
      exact ih (by rwa [hprojects])
    · exact absurd hproject hmissing

theorem foldl_oneAtATime_missing {items : List (String × ContentRow)}
    (hproject : project ∉ s.content.projects) : (oneAtATime project items).foldl step s = s := by
  induction items with
  | nil => rfl
  | cons item items ih =>
    rcases s.insertRow_cases project item.1 item.2 with ⟨-, -, -, hthere, -⟩ | ⟨herror, -⟩
    · exact absurd hthere hproject
    · rw [oneAtATime, List.map_cons, List.foldl_cons, step_insertRow, herror]
      exact ih

/-- **A batch leaves what its lines leave one at a time.** -/
theorem insertFileContentBatch_agrees (hs : s.Mirror) (project : String)
    (files : List (String × List ContentRow)) :
    (s.step (.insertFileContentBatch project files)).Agree
      ((oneAtATime project (batchRows files)).foldl step s) := by
  have hbatch := mirror_step (.insertFileContentBatch project files) hs
  have hsingle : ((oneAtATime project (batchRows files)).foldl step s).Mirror :=
    List.foldlRecOn _ step hs fun t ht op _ => mirror_step op ht
  refine hbatch.agree hsingle ?_
  -- the loops of the batch go through its rows
  have hloops : files.foldlM (fun s file =>
      file.2.foldlM (fun s row => s.insertRow project file.1 row) s) s.dropTriggers =
      (batchRows files).foldlM (fun s item => s.insertRow project item.1 item.2) s.dropTriggers := by
    rw [batchRows, List.foldlM_flatMap]
    simp only [List.foldlM_map]
  by_cases hproject : project ∈ s.content.projects
  · obtain ⟨s', hs', hcontent⟩ := foldlM_insertRow (batchRows files) (s := s.dropTriggers) hproject
    have hones := foldl_oneAtATime (batchRows files) hproject
    have hstep : (s.step (.insertFileContentBatch project files)).content = s'.content := by
      simp only [step, insertFileContentBatch, hloops, hs']
      rfl
    rw [hstep]
    exact Except.ok.inj (hcontent.symm.trans hones)
  · rw [foldl_oneAtATime_missing hproject]
    simp only [step, insertFileContentBatch, hloops]
    cases hitems : batchRows files with
    | nil => rfl
    | cons item items =>
      rcases s.dropTriggers.insertRow_cases project item.1 item.2 with
        ⟨-, -, -, hthere, -⟩ | ⟨herror, -⟩
      · exact absurd hthere hproject
      · simp only [List.foldlM_cons, herror]
        rfl

/-- **In every state of every run, each row has its posting, and a batch leaves what its lines leave one at a
time.** -/
theorem mirror_run (c : FileContent) (ops : List ContentOp) :
    ∀ s ∈ ops.scanl step (migrated c),
      (∀ e ∈ s.content.rows.rows,
        s.fts.filter (fun p => decide (p.rowid = e.id)) = [contentPosting e]) ∧
      (∀ p ∈ s.fts, ∃ e ∈ s.content.rows.rows, p = contentPosting e) ∧
      ∀ project files, (s.step (.insertFileContentBatch project files)).Agree
        ((oneAtATime project (batchRows files)).foldl step s) := by
  intro s hmem
  have hs : s.Mirror := forall_mem_scanl (fun _ op ht => mirror_step op ht) (mirror_migrated c) ops s hmem
  refine ⟨?_, ?_, insertFileContentBatch_agrees hs⟩
  · intro e he
    exact RowMirror.filter_eq_singleton hs.postings (fun _ => rfl) s.content.ids_nodup he
  · intro p hp
    obtain ⟨e, he, rfl⟩ := List.mem_map.1 (hs.postings.mem_iff.1 hp)
    exact ⟨e, he, rfl⟩

/-- A line is written, and a batch writes it again, twice. -/
def rewrittenLine : List ContentOp :=
  [.upsertProject "p", .insertFileContentRows "p" "a.rs" [⟨1, "old"⟩],
    .insertFileContentBatch "p" [("a.rs", [⟨1, "new"⟩, ⟨2, "end"⟩]), ("a.rs", [⟨1, "newer"⟩])]]

/-- The line that was written three times has its row and its posting. -/
theorem mirror_run_rewrittenLine :
    let s := rewrittenLine.foldl step (migrated FileContent.empty)
    s ∈ rewrittenLine.scanl step (migrated FileContent.empty) ∧
      s.content.rows.rows.map ContentEntry.snippet = ["newer", "end"] ∧
      ∀ e ∈ s.content.rows.rows,
        s.fts.filter (fun p => decide (p.rowid = e.id)) = [contentPosting e] := by
  intro s
  have hmem : s ∈ rewrittenLine.scanl step (migrated FileContent.empty) := by
    simp [s, rewrittenLine]
  exact ⟨hmem, by decide +kernel, (mirror_run FileContent.empty rewrittenLine s hmem).1⟩

end ContentStore

end Greppy
