/-
**The per-file tables of the store: `file_state`, `file_identity` and `index_skips`.**

An indexed file has a row in `file_state` (its content hash and stat) and usually one in
`file_identity` (ctime and inode, added by a later migration); a file the indexer gave up on has a
row in `index_skips` with the reason.  All three are keyed by `(project, rel_path)`.  The operations
are those of `crates/store/src/{file_state,file_identity,index_skip}.rs`.
-/

import Greppy.KeyedTable
import Mathlib.Data.List.Sort
import Mathlib.Data.String.Basic

set_option autoImplicit false

namespace Greppy

/-- A row of `file_state`. -/
structure FileState where
  project : String
  relPath : String
  language : String
  sha256 : String
  mtimeNs : Int64
  size : Int64
  parserVersion : String
  extractorVersion : String
  lastIndexedGeneration : ℕ
  deriving DecidableEq

/-- Reliable filesystem identity associated with a persisted file state. -/
structure FileIdentity where
  ctimeNs : Option Int64
  fileId : Option UInt64
  deriving DecidableEq

/-- A row of `file_identity`. -/
structure FileIdentityRow extends FileIdentity where
  project : String
  relPath : String
  deriving DecidableEq

/-- A row of `index_skips`. -/
structure IndexSkip where
  project : String
  relPath : String
  language : String
  reason : String
  detail : String
  size : Int64
  mtimeNs : Int64
  ctimeNs : Option Int64
  fileId : Option UInt64
  lastIndexedGeneration : ℕ
  updatedAt : String
  deriving DecidableEq

def FileState.key (f : FileState) : String × String := (f.project, f.relPath)

def FileIdentityRow.key (f : FileIdentityRow) : String × String := (f.project, f.relPath)

def IndexSkip.key (s : IndexSkip) : String × String := (s.project, s.relPath)

structure FileTables where
  fileState : KeyedTable FileState FileState.key
  fileIdentity : KeyedTable FileIdentityRow FileIdentityRow.key
  indexSkips : KeyedTable IndexSkip IndexSkip.key

namespace FileTables

/-- The tables of a freshly created database. -/
def empty : FileTables := ⟨KeyedTable.empty, KeyedTable.empty, KeyedTable.empty⟩

def upsertFileState (f : FileState) (t : FileTables) : FileTables :=
  { t with fileState := t.fileState.upsert f }

def upsertFileIdentity (project relPath : String) (identity : FileIdentity) (t : FileTables) :
    FileTables :=
  { t with fileIdentity := t.fileIdentity.upsert { identity with project, relPath } }

/-- `delete_file_state`, which takes the identity row along. -/
def deleteFileState (project relPath : String) (t : FileTables) : FileTables :=
  { t with
    fileIdentity := t.fileIdentity.filter fun f => decide (f.key ≠ (project, relPath))
    fileState := t.fileState.filter fun f => decide (f.key ≠ (project, relPath)) }

def upsertIndexSkip (skip : IndexSkip) (t : FileTables) : FileTables :=
  { t with indexSkips := t.indexSkips.upsert skip }

def deleteIndexSkip (project relPath : String) (t : FileTables) : FileTables :=
  { t with indexSkips := t.indexSkips.filter fun s => decide (s.key ≠ (project, relPath)) }

def bumpFileAndSkipGenerations (project : String) (generation : ℕ) (t : FileTables) : FileTables :=
  { t with
    fileState := t.fileState.mapRows
      (fun f => if f.project = project then { f with lastIndexedGeneration := generation } else f)
      (fun f => by split <;> rfl)
    indexSkips := t.indexSkips.mapRows
      (fun s => if s.project = project then { s with lastIndexedGeneration := generation } else s)
      (fun s => by split <;> rfl) }

def listFileStates (t : FileTables) (project : String) : List FileState :=
  (t.fileState.rows.filter fun f => decide (f.project = project)).insertionSort
    fun a b => a.relPath ≤ b.relPath

/-- `list_file_identities`, as the map's lookup. -/
def identityOf (t : FileTables) (project relPath : String) : Option FileIdentity :=
  (t.fileIdentity.find? (project, relPath)).map FileIdentityRow.toFileIdentity

def listIndexSkips (t : FileTables) (project : String) : List IndexSkip :=
  (t.indexSkips.rows.filter fun s => decide (s.project = project)).insertionSort
    fun a b => a.relPath ≤ b.relPath

/-! ### What the listings hold -/

@[simp] theorem mem_listFileStates {t : FileTables} {project : String} {f : FileState} :
    f ∈ t.listFileStates project ↔ f ∈ t.fileState.rows ∧ f.project = project := by
  simp [listFileStates]

@[simp] theorem mem_listIndexSkips {t : FileTables} {project : String} {s : IndexSkip} :
    s ∈ t.listIndexSkips project ↔ s ∈ t.indexSkips.rows ∧ s.project = project := by
  simp [listIndexSkips]

/-- Within one project the relative paths of keyed rows are distinct. -/
private theorem nodup_relPath {α : Type} {project relPath : α → String}
    {t : KeyedTable α fun a => (project a, relPath a)} (p : String) :
    (((t.rows.filter fun a => decide (project a = p)).insertionSort
      fun a b => relPath a ≤ relPath b).map relPath).Nodup := by
  have hperm := (List.perm_insertionSort (fun a b => relPath a ≤ relPath b)
    (t.rows.filter fun a => decide (project a = p))).map relPath
  rw [hperm.nodup_iff]
  refine List.Nodup.map_on ?_ (t.rows_nodup.filter _)
  intro a ha b hb hab
  obtain ⟨ha, hpa⟩ := List.mem_filter.1 ha
  obtain ⟨hb, hpb⟩ := List.mem_filter.1 hb
  simp only [decide_eq_true_eq] at hpa hpb
  exact t.eq_of_key_eq ha hb (Prod.ext (hpa.trans hpb.symm) hab)

theorem listFileStates_nodup (t : FileTables) (project : String) :
    ((t.listFileStates project).map FileState.relPath).Nodup :=
  nodup_relPath project

theorem listIndexSkips_nodup (t : FileTables) (project : String) :
    ((t.listIndexSkips project).map IndexSkip.relPath).Nodup :=
  nodup_relPath project

end FileTables

end Greppy
