/-
**Diffing an inventory against the persisted file rows.**

`compute_file_diff` (`crates/freshness/src/incremental.rs`) decides, for every file of the inventory,
whether the index is still right about it, and reports the persisted files that are gone.  It runs
on every query, so it works in tiers: a skipped file is accepted on its stat if the skip is still
justified; a file above the size cap is judged by its stat alone; a file whose complete stat identity
matches the persisted one is accepted unread; and only what is left is read and hashed.

The maps the source builds from the tables lose an entry for every file it has looked at, and what
remains at the end is what was deleted.
-/

import Greppy.Discover
import Greppy.ExceptMap
import Greppy.FileTables

set_option autoImplicit false

namespace Greppy

/-! ### Stats and verdicts -/

/-- Persisted stat columns needed to diff a file without reading it. -/
structure PersistedStat where
  sha256 : String
  size : Int64
  mtimeNs : Int64
  ctimeNs : Option Int64
  fileId : Option UInt64
  deriving DecidableEq

/-- `CurrentStat`, the stat the diff compares with: it has the fields of `StableFileMetadata`. -/
abbrev CurrentStat : Type := StableFileMetadata

inductive FileDiff where
  | added (entry : InventoryEntry)
  | modified (entry : InventoryEntry) (oldSha256 : String)
  | deleted (relPath : String)
  | unchanged
  deriving DecidableEq

/-- `greppy_core::Error::io`: what was being done, and the error. -/
inductive Error where
  | io (context source : String)
  | store (message : String)
  deriving DecidableEq

/-- `rel_of`, the key the result is sorted by. -/
def relOf : FileDiff → String
  | .added e => e.relPath
  | .modified e _ => e.relPath
  | .deleted r => r
  | .unchanged => ""

/-- `persisted == current` for optional fields that both have to be known. -/
def bothKnownEq {α : Type} [DecidableEq α] (persisted current : Option α) : Bool :=
  persisted.isSome && current.isSome && decide (persisted = current)

def statIdentityMatches (persisted : PersistedStat) (current : CurrentStat) : Bool :=
  decide (persisted.mtimeNs ≠ 0) && decide (persisted.size = current.size.toInt64) &&
    decide (some persisted.mtimeNs = current.mtimeNs) &&
    bothKnownEq persisted.ctimeNs current.ctimeNs && bothKnownEq persisted.fileId current.fileId

def skipIdentityMatches (skip : IndexSkip) (current : CurrentStat) (maxSize : UInt64) : Bool :=
  let basicMatch := decide (skip.mtimeNs ≠ 0) && decide (skip.size = current.size.toInt64) &&
    decide (some skip.mtimeNs = current.mtimeNs)
  if !basicMatch || decide (skip.reason = "file_limit" ∨ skip.reason = "time_budget") then false
  else if skip.reason = "oversize" then decide (maxSize < current.size)
  else if maxSize < current.size then false
  else bothKnownEq skip.ctimeNs current.ctimeNs && bothKnownEq skip.fileId current.fileId

/-! ### The diff -/

/-- A map from relative paths, as the source's `HashMap`s are. -/
abbrev RelMap (α : Type) : Type := KeyedTable (String × α) Prod.fst

namespace RelMap

variable {α : Type}

/-- `HashMap::get`. -/
def get (m : RelMap α) (rel : String) : Option α := (m.find? rel).map Prod.snd

/-- `HashMap::remove`, without its result. -/
def remove (m : RelMap α) (rel : String) : RelMap α := m.filter fun p => decide (p.1 ≠ rel)

theorem get_filter (m : RelMap α) (q : String → Bool) (rel : String) :
    (get (m.filter fun p => q p.1) rel) = if q rel then m.get rel else none := by
  rw [get, KeyedTable.find?_filter]
  cases h : m.find? rel with
  | none => simp [get, h]
  | some p =>
    have hp : p.1 = rel := KeyedTable.key_of_find? h
    by_cases hq : q rel <;> simp [get, h, Option.filter, hp, hq]

theorem remove_of_get_none {m : RelMap α} {rel : String} (h : m.get rel = none) :
    m.remove rel = m := by
  have hnone := KeyedTable.find?_eq_none_iff.1 (by simpa [get] using h : m.find? rel = none)
  refine KeyedTable.ext ?_
  exact List.filter_eq_self.2 fun p hp => by simpa using hnone p hp

end RelMap

section Diff

variable (disk : Disk) (sha256Hex : Bytes → String) (maxSize : UInt64)

/-- `by_rel`: the persisted stat of every indexed file. -/
def persistedStats (t : FileTables) (project : String) : RelMap PersistedStat :=
  KeyedTable.ofList <| (t.listFileStates project).map fun f =>
    let identity := t.identityOf project f.relPath
    (f.relPath,
      { sha256 := f.sha256, size := f.size, mtimeNs := f.mtimeNs
        ctimeNs := identity.bind FileIdentity.ctimeNs, fileId := identity.bind FileIdentity.fileId })

/-- `skipped_by_rel`: the skip rows, less those of files that have been indexed after all. -/
def skippedByRel (t : FileTables) (project : String) : RelMap IndexSkip :=
  let all : RelMap IndexSkip :=
    KeyedTable.ofList <| (t.listIndexSkips project).map fun s => (s.relPath, s)
  all.filter fun p => ((persistedStats t project).get p.1).isNone

/-- The stat of a file: the one the walk took, or a fresh one where the walk has none. -/
def currentStat (entry : InventoryEntry) : Except Error CurrentStat :=
  match entry.size, entry.mtimeNs with
  | some size, some mtimeNs =>
    .ok { size, mtimeNs := some mtimeNs, ctimeNs := entry.ctimeNs, fileId := entry.fileId }
  | _, _ =>
    match disk.metadata entry.absPath with
    | .ok md => .ok md
    | .error e => .error (.io s!"stat {entry.absPath}" e)

/-- `read_stable_file` with the error the diff reports for it. -/
def stableRead (entry : InventoryEntry) : Except Error (Bytes × StableFileMetadata) :=
  match readStableFile disk entry.absPath with
  | .ok r => .ok r
  | .error e => .error (.io s!"stable read {entry.absPath}" e)

/-- The body of the loop over the inventory: the verdict, and the maps with the entry removed. -/
def diffEntry (entry : InventoryEntry) (byRel : RelMap PersistedStat) (skipped : RelMap IndexSkip) :
    Except Error (FileDiff × RelMap PersistedStat × RelMap IndexSkip) := do
  let current ← currentStat disk entry
  let skip := skipped.get entry.relPath
  let skipped := skipped.remove entry.relPath
  if skip.any fun s => skipIdentityMatches s current maxSize then
    return (.unchanged, byRel, skipped)
  let persisted := byRel.get entry.relPath
  if maxSize < current.size then
    let byRel := byRel.remove entry.relPath
    if persisted.any fun p => statIdentityMatches p current then
      return (.unchanged, byRel, skipped)
    else return (.modified entry "<oversize>", byRel, skipped)
  if persisted.any fun p => statIdentityMatches p current then
    return (.unchanged, byRel.remove entry.relPath, skipped)
  let (bytes, _) ← stableRead disk entry
  let sha := sha256Hex bytes
  let byRel := byRel.remove entry.relPath
  match persisted with
  | none => return (.added entry, byRel, skipped)
  | some p =>
    if p.sha256 ≠ sha then return (.modified entry p.sha256, byRel, skipped)
    else return (.unchanged, byRel, skipped)

def diffLoop : List InventoryEntry → RelMap PersistedStat → RelMap IndexSkip →
    Except Error (List FileDiff × RelMap PersistedStat × RelMap IndexSkip)
  | [], byRel, skipped => .ok ([], byRel, skipped)
  | entry :: rest, byRel, skipped => do
      let (d, byRel, skipped) ← diffEntry disk sha256Hex maxSize entry byRel skipped
      let (ds, byRel, skipped) ← diffLoop rest byRel skipped
      return (d :: ds, byRel, skipped)

/-- `diffs.sort_by_key(rel_of)`. -/
def sortByRel (diffs : List FileDiff) : List FileDiff :=
  diffs.insertionSort fun a b => relOf a ≤ relOf b

/-- `compute_file_diff`, with the size cap the environment gives. -/
def computeFileDiff (t : FileTables) (project : String) (inventory : List InventoryEntry) :
    Except Error (List FileDiff) := do
  let (diffs, byRel, skipped) ← diffLoop disk sha256Hex maxSize inventory
    (persistedStats t project) (skippedByRel t project)
  return sortByRel (diffs ++ byRel.rows.map (fun p => .deleted p.1) ++
    skipped.rows.map (fun p => .deleted p.1))

/-! ### The verdict on one file -/

/-- The verdict on a file, given the persisted row and the skip row under its path. -/
def entryDiff (persisted : Option PersistedStat) (skip : Option IndexSkip)
    (entry : InventoryEntry) : Except Error FileDiff := do
  let current ← currentStat disk entry
  if skip.any fun s => skipIdentityMatches s current maxSize then
    return .unchanged
  if maxSize < current.size then
    if persisted.any fun p => statIdentityMatches p current then return .unchanged
    else return .modified entry "<oversize>"
  if persisted.any fun p => statIdentityMatches p current then return .unchanged
  let (bytes, _) ← stableRead disk entry
  match persisted with
  | none => return .added entry
  | some p =>
    if p.sha256 ≠ sha256Hex bytes then return .modified entry p.sha256
    else return .unchanged

variable {disk sha256Hex maxSize}

/-- The body of the loop is the verdict, and takes the path out of both maps. -/
theorem diffEntry_eq (entry : InventoryEntry) {byRel : RelMap PersistedStat}
    {skipped : RelMap IndexSkip}
    (hdisj : (skipped.get entry.relPath).isSome → byRel.get entry.relPath = none) :
    diffEntry disk sha256Hex maxSize entry byRel skipped =
      (entryDiff disk sha256Hex maxSize (byRel.get entry.relPath) (skipped.get entry.relPath)
        entry).map fun d => (d, byRel.remove entry.relPath, skipped.remove entry.relPath) := by
  simp only [diffEntry, entryDiff, bind, Except.bind, pure, Except.pure]
  cases hcur : currentStat disk entry with
  | error e => rfl
  | ok current =>
    simp only
    by_cases hskip : (skipped.get entry.relPath).any
        fun s => skipIdentityMatches s current maxSize
    · -- the source leaves `by_rel` alone here, and there is nothing in it to remove
      have hsome : (skipped.get entry.relPath).isSome := by
        cases hs : skipped.get entry.relPath with
        | none => simp [hs] at hskip
        | some s => rfl
      rw [if_pos hskip, if_pos hskip, RelMap.remove_of_get_none (hdisj hsome)]
      rfl
    · rw [if_neg hskip, if_neg hskip]
      by_cases hsize : maxSize < current.size
      · rw [if_pos hsize, if_pos hsize]
        split <;> rfl
      · rw [if_neg hsize, if_neg hsize]
        split
        · rfl
        · cases stableRead disk entry with
          | error e => rfl
          | ok r =>
            cases hp : byRel.get entry.relPath with
            | none => simp [Except.map]
            | some p =>
              simp only
              split <;> rfl

/-- What is left of a map once the paths of an inventory have been taken out. -/
def without {α : Type} (m : RelMap α) (inventory : List InventoryEntry) : RelMap α :=
  m.filter fun p => decide (p.1 ∉ inventory.map InventoryEntry.relPath)

theorem without_cons {α : Type} (m : RelMap α) (e : InventoryEntry) (es : List InventoryEntry) :
    without (m.remove e.relPath) es = without m (e :: es) := by
  refine KeyedTable.ext ?_
  simp only [without, RelMap.remove, KeyedTable.rows_filter, List.filter_filter]
  refine List.filter_congr fun p _ => ?_
  by_cases hp : p.1 = e.relPath <;> simp [hp]

/-- **The loop over distinct paths**: the verdict on each file from the rows under its own path, and
the rows under the other paths left over. -/
theorem diffLoop_eq_mapM {inventory : List InventoryEntry} {byRel : RelMap PersistedStat}
    {skipped : RelMap IndexSkip} (hinv : (inventory.map InventoryEntry.relPath).Nodup)
    (hdisj : ∀ r, (skipped.get r).isSome → byRel.get r = none) :
    diffLoop disk sha256Hex maxSize inventory byRel skipped =
      (inventory.mapM fun e => entryDiff disk sha256Hex maxSize (byRel.get e.relPath)
        (skipped.get e.relPath) e).map
        fun ds => (ds, without byRel inventory, without skipped inventory) := by
  induction inventory generalizing byRel skipped with
  | nil =>
    have hall : ∀ {α : Type} (m : RelMap α), without m [] = m := by
      intro α m
      refine KeyedTable.ext ?_
      simp [without]
    simp [diffLoop, hall, Except.map, pure, Except.pure]
  | cons e es ih =>
    rw [List.map_cons, List.nodup_cons] at hinv
    obtain ⟨he, hes⟩ := hinv
    have hget : ∀ {α : Type} (m : RelMap α) (d : InventoryEntry), d ∈ es →
        (m.remove e.relPath).get d.relPath = m.get d.relPath := by
      intro α m d hd
      have hne : d.relPath ≠ e.relPath := fun h => he (h ▸ List.mem_map_of_mem hd)
      rw [RelMap.remove, RelMap.get_filter m (fun r => decide (r ≠ e.relPath))]
      simp [hne]
    have hdisj' : ∀ r, ((skipped.remove e.relPath).get r).isSome →
        (byRel.remove e.relPath).get r = none := by
      intro r hr
      rw [RelMap.remove, RelMap.get_filter _ (fun r => decide (r ≠ e.relPath))] at hr ⊢
      split
      · rename_i hne
        rw [if_pos hne] at hr
        exact hdisj r hr
      · rfl
    have hrest := @ih (byRel.remove e.relPath) (skipped.remove e.relPath) hes hdisj'
    rw [without_cons, without_cons] at hrest
    simp only [diffLoop, diffEntry_eq e (hdisj e.relPath), List.mapM_cons, bind, Except.bind,
      pure, Except.pure]
    cases hd : entryDiff disk sha256Hex maxSize (byRel.get e.relPath) (skipped.get e.relPath) e with
    | error err => rfl
    | ok d =>
      simp only [Except.map]
      rw [hrest]
      have hcongr : (es.mapM fun e' => entryDiff disk sha256Hex maxSize
          ((byRel.remove e.relPath).get e'.relPath)
          ((skipped.remove e.relPath).get e'.relPath) e') =
          es.mapM fun e' => entryDiff disk sha256Hex maxSize (byRel.get e'.relPath)
            (skipped.get e'.relPath) e' :=
        List.mapM_except_congr fun d hd => by rw [hget byRel d hd, hget skipped d hd]
      rw [hcongr]
      cases (es.mapM fun e' => entryDiff disk sha256Hex maxSize (byRel.get e'.relPath)
            (skipped.get e'.relPath) e') <;> rfl

/-! ### The rows under a path -/

def persistedStatOf (t : FileTables) (project rel : String) : Option PersistedStat :=
  (t.fileState.find? (project, rel)).map fun f =>
    { sha256 := f.sha256, size := f.size, mtimeNs := f.mtimeNs
      ctimeNs := (t.identityOf project rel).bind FileIdentity.ctimeNs
      fileId := (t.identityOf project rel).bind FileIdentity.fileId }

/-- The skip row under a path that counts: an indexed row is authoritative. -/
def skipOf (t : FileTables) (project rel : String) : Option IndexSkip :=
  if (t.fileState.find? (project, rel)).isSome then none else t.indexSkips.find? (project, rel)

private theorem get_ofList {α β : Type} {rel : α → String} {f : α → β} {l : List α}
    (hl : (l.map rel).Nodup) (r : String) (b : β) :
    RelMap.get (KeyedTable.ofList (l.map fun a => (rel a, f a))) r = some b ↔
      ∃ a ∈ l, rel a = r ∧ f a = b := by
  have hkeys : ((l.map fun a => (rel a, f a)).map Prod.fst).Nodup := by
    rw [List.map_map]
    exact hl
  rw [RelMap.get, Option.map_eq_some_iff]
  constructor
  · rintro ⟨p, hp, rfl⟩
    obtain ⟨hmem, hkey⟩ := KeyedTable.find?_eq_some_iff.1 hp
    rw [KeyedTable.rows_ofList hkeys] at hmem
    obtain ⟨a, ha, rfl⟩ := List.mem_map.1 hmem
    exact ⟨a, ha, hkey, rfl⟩
  · rintro ⟨a, ha, rfl, rfl⟩
    refine ⟨(rel a, f a), KeyedTable.find?_eq_some_iff.2 ⟨?_, rfl⟩, rfl⟩
    rw [KeyedTable.rows_ofList hkeys]
    exact List.mem_map_of_mem ha

theorem get_persistedStats (t : FileTables) (project rel : String) :
    (persistedStats t project).get rel = persistedStatOf t project rel := by
  ext p
  rw [persistedStats, get_ofList (t.listFileStates_nodup project), persistedStatOf,
    Option.map_eq_some_iff]
  constructor
  · rintro ⟨f, hf, rfl, rfl⟩
    obtain ⟨hmem, rfl⟩ := FileTables.mem_listFileStates.1 hf
    exact ⟨f, KeyedTable.find?_of_mem hmem, rfl⟩
  · rintro ⟨f, hf, rfl⟩
    obtain ⟨hf, hkey⟩ := KeyedTable.find?_eq_some_iff.1 hf
    obtain ⟨hp, hr⟩ := Prod.ext_iff.1 hkey
    simp only [FileState.key] at hp hr
    exact ⟨f, FileTables.mem_listFileStates.2 ⟨hf, hp⟩, hr, by rw [hr]⟩

theorem get_skippedByRel (t : FileTables) (project rel : String) :
    (skippedByRel t project).get rel = skipOf t project rel := by
  have hrow : ((persistedStats t project).get rel).isNone =
      !(t.fileState.find? (project, rel)).isSome := by
    rw [get_persistedStats, persistedStatOf]
    cases t.fileState.find? (project, rel) <;> rfl
  rw [skippedByRel, RelMap.get_filter _ fun r => ((persistedStats t project).get r).isNone, hrow,
    skipOf]
  cases (t.fileState.find? (project, rel)).isSome with
  | true => rfl
  | false =>
    simp only [Bool.not_false, if_true]
    ext s
    rw [get_ofList (t.listIndexSkips_nodup project)]
    constructor
    · rintro ⟨s, hs, rfl, rfl⟩
      obtain ⟨hmem, rfl⟩ := FileTables.mem_listIndexSkips.1 hs
      exact KeyedTable.find?_of_mem hmem
    · intro hs
      obtain ⟨hs, hkey⟩ := KeyedTable.find?_eq_some_iff.1 hs
      obtain ⟨hp, hr⟩ := Prod.ext_iff.1 hkey
      exact ⟨s, FileTables.mem_listIndexSkips.2 ⟨hs, hp⟩, hr, rfl⟩

/-! ### The whole diff -/

variable (disk sha256Hex maxSize) in
def fileVerdict (t : FileTables) (project : String) (entry : InventoryEntry) :
    Except Error FileDiff :=
  entryDiff disk sha256Hex maxSize (persistedStatOf t project entry.relPath)
    (skipOf t project entry.relPath) entry

/-- The persisted paths that an inventory does not have. -/
def gonePaths (t : FileTables) (project : String) (inventory : List InventoryEntry) :
    List String :=
  (without (persistedStats t project) inventory).rows.map Prod.fst ++
    (without (skippedByRel t project) inventory).rows.map Prod.fst

/-- **The diff is the sorted list of the verdicts and the deletions.** -/
theorem computeFileDiff_eq (t : FileTables) (project : String) {inventory : List InventoryEntry}
    (hinv : (inventory.map InventoryEntry.relPath).Nodup) :
    computeFileDiff disk sha256Hex maxSize t project inventory =
      (inventory.mapM (fileVerdict disk sha256Hex maxSize t project)).map fun ds =>
        sortByRel (ds ++ (gonePaths t project inventory).map .deleted) := by
  have hdisj : ∀ r, ((skippedByRel t project).get r).isSome →
      (persistedStats t project).get r = none := by
    intro r hr
    rw [get_skippedByRel, skipOf] at hr
    rw [get_persistedStats, persistedStatOf]
    cases h : t.fileState.find? (project, r) with
    | none => rfl
    | some f => simp [h] at hr
  simp only [computeFileDiff, diffLoop_eq_mapM hinv hdisj, get_persistedStats, get_skippedByRel]
  have hverdict : (fun e => entryDiff disk sha256Hex maxSize (persistedStatOf t project e.relPath)
      (skipOf t project e.relPath) e) = fileVerdict disk sha256Hex maxSize t project := rfl
  simp only [hverdict, bind, Except.bind, pure, Except.pure]
  cases inventory.mapM (fileVerdict disk sha256Hex maxSize t project) with
  | error e => rfl
  | ok ds => simp [Except.map, gonePaths, Function.comp_def]

variable (disk sha256Hex maxSize) in
/-- The verdict on a file of a diff that succeeds. -/
def verdictOf (t : FileTables) (project : String) (entry : InventoryEntry) : FileDiff :=
  (fileVerdict disk sha256Hex maxSize t project entry).toOption.getD .unchanged

theorem verdictOf_eq {t : FileTables} {project : String} {entry : InventoryEntry} {d : FileDiff}
    (h : fileVerdict disk sha256Hex maxSize t project entry = .ok d) :
    verdictOf disk sha256Hex maxSize t project entry = d := by
  rw [verdictOf, h]
  rfl

variable {inventory : List InventoryEntry} {α : Type}

/-- The diff succeeds exactly when every verdict does, and then lists them with the deletions. -/
theorem computeFileDiff_ok_iff {t : FileTables} {project : String}
    (hinv : (inventory.map InventoryEntry.relPath).Nodup) {diffs : List FileDiff} :
    computeFileDiff disk sha256Hex maxSize t project inventory = .ok diffs ↔
      (∀ e ∈ inventory, ∃ d, fileVerdict disk sha256Hex maxSize t project e = .ok d) ∧
        sortByRel (inventory.map (verdictOf disk sha256Hex maxSize t project) ++
          (gonePaths t project inventory).map .deleted) = diffs := by
  rw [computeFileDiff_eq t project hinv]
  constructor
  · intro hdiffs
    cases hm : inventory.mapM (fileVerdict disk sha256Hex maxSize t project) with
    | error e => simp [hm, Except.map] at hdiffs
    | ok ds =>
      obtain ⟨hall, hds⟩ := (List.mapM_eq_ok_iff .unchanged).1 hm
      simp only [hm, Except.map, Except.ok.injEq] at hdiffs
      rw [hds] at hdiffs
      exact ⟨hall, hdiffs⟩
  · rintro ⟨hall, hdiffs⟩
    rw [(List.mapM_eq_ok_iff .unchanged).2 ⟨hall, rfl⟩]
    exact congrArg Except.ok hdiffs

private theorem mem_map_fst_iff (m : RelMap α) (r : String) :
    r ∈ m.rows.map Prod.fst ↔ (m.get r).isSome := by
  cases h : m.find? r with
  | none =>
    have hnone := KeyedTable.find?_eq_none_iff.1 h
    simpa [RelMap.get, h] using fun a ha => hnone (r, a) ha rfl
  | some p =>
    obtain ⟨hp, hr⟩ := KeyedTable.find?_eq_some_iff.1 h
    simpa [RelMap.get, h] using ⟨p.2, by rw [← hr]; exact hp⟩

private theorem get_without (m : RelMap α) (inventory : List InventoryEntry) (r : String) :
    (without m inventory).get r =
      if r ∉ inventory.map InventoryEntry.relPath then m.get r else none := by
  rw [without, RelMap.get_filter m fun r => decide (r ∉ inventory.map InventoryEntry.relPath)]
  simp only [decide_eq_true_eq]

theorem mem_gonePaths {t : FileTables} {project r : String} : r ∈ gonePaths t project inventory ↔
      ((t.fileState.find? (project, r)).isSome ∨ (t.indexSkips.find? (project, r)).isSome) ∧
        r ∉ inventory.map InventoryEntry.relPath := by
  rw [gonePaths, List.mem_append, mem_map_fst_iff, mem_map_fst_iff, get_without, get_without,
    get_persistedStats, get_skippedByRel]
  by_cases hr : r ∈ inventory.map InventoryEntry.relPath
  · simp [hr]
  · simp only [hr, not_false_eq_true, if_true, and_true, persistedStatOf, Option.isSome_map, skipOf]
    cases t.fileState.find? (project, r) <;> simp

theorem gonePaths_nodup (t : FileTables) (project : String) (inventory : List InventoryEntry) :
    (gonePaths t project inventory).Nodup := by
  refine List.nodup_append.2 ⟨KeyedTable.keys_nodup _, KeyedTable.keys_nodup _, ?_⟩
  intro r hr r' hr' heq
  subst heq
  -- a skip row only counts where there is no indexed row
  rw [mem_map_fst_iff, get_without] at hr hr'
  split at hr
  · rename_i hnot
    rw [if_pos hnot, get_skippedByRel, skipOf] at hr'
    rw [get_persistedStats, persistedStatOf, Option.isSome_map] at hr
    simp [hr] at hr'
  · simp at hr

/-! ### What vouches for an unchanged file -/

theorem bothKnownEq_iff [DecidableEq α] {persisted current : Option α} :
    bothKnownEq persisted current = true ↔ ∃ a, persisted = some a ∧ current = some a := by
  cases persisted with
  | none => simp [bothKnownEq]
  | some a => cases current <;> simp [bothKnownEq, eq_comm]

/-- The complete stat identity of the persisted row matches: size, a known mtime, ctime, inode. -/
def StatVouches (t : FileTables) (project rel : String) (cur : CurrentStat) : Prop :=
  ∃ f identity, t.fileState.find? (project, rel) = some f ∧
    t.identityOf project rel = some identity ∧
    f.mtimeNs ≠ 0 ∧ f.size = cur.size.toInt64 ∧ cur.mtimeNs = some f.mtimeNs ∧
    (∃ c, identity.ctimeNs = some c ∧ cur.ctimeNs = some c) ∧
    ∃ i, identity.fileId = some i ∧ cur.fileId = some i

variable (disk sha256Hex) in
/-- The persisted hash is the hash of the bytes that are there now. -/
def ContentVouches (t : FileTables) (project : String) (entry : InventoryEntry) : Prop :=
  ∃ f bytes md, t.fileState.find? (project, entry.relPath) = some f ∧
    readStableFile disk entry.absPath = .ok (bytes, md) ∧ f.sha256 = sha256Hex bytes

variable (maxSize) in
/-- A skip row still applies: its stat matches, it was not left by a budget, and the cap still says
what it said then, about an oversize file and about every other. -/
def SkipVouches (t : FileTables) (project rel : String) (cur : CurrentStat) : Prop :=
  ∃ s, t.indexSkips.find? (project, rel) = some s ∧
    s.mtimeNs ≠ 0 ∧ s.size = cur.size.toInt64 ∧ cur.mtimeNs = some s.mtimeNs ∧
    s.reason ≠ "file_limit" ∧ s.reason ≠ "time_budget" ∧
    (s.reason = "oversize" ∧ maxSize < cur.size ∨
      s.reason ≠ "oversize" ∧ ¬ maxSize < cur.size ∧
        (∃ c, s.ctimeNs = some c ∧ cur.ctimeNs = some c) ∧
        ∃ i, s.fileId = some i ∧ cur.fileId = some i)

theorem statVouches_of_matches {t : FileTables} {project rel : String} {cur : CurrentStat}
    (h : (persistedStatOf t project rel).any (fun p => statIdentityMatches p cur) = true) :
    StatVouches t project rel cur := by
  cases hf : t.fileState.find? (project, rel) with
  | none => simp [persistedStatOf, hf] at h
  | some f =>
    cases hid : t.identityOf project rel with
    | none => simp [persistedStatOf, hf, hid, statIdentityMatches, bothKnownEq] at h
    | some identity =>
      simp only [persistedStatOf, hf, hid, Option.map_some, Option.any_some,
        statIdentityMatches, Bool.and_eq_true, decide_eq_true_eq, bothKnownEq_iff,
        Option.bind_some] at h
      obtain ⟨⟨⟨⟨h₁, h₂⟩, h₃⟩, h₄⟩, h₅⟩ := h
      exact ⟨f, identity, hf, hid, h₁, h₂, h₃.symm, h₄, h₅⟩

theorem skipIdentityMatches_iff {s : IndexSkip} {cur : CurrentStat} :
    skipIdentityMatches s cur maxSize = true ↔
      s.mtimeNs ≠ 0 ∧ s.size = cur.size.toInt64 ∧ cur.mtimeNs = some s.mtimeNs ∧
      s.reason ≠ "file_limit" ∧ s.reason ≠ "time_budget" ∧
      (s.reason = "oversize" ∧ maxSize < cur.size ∨
        s.reason ≠ "oversize" ∧ ¬ maxSize < cur.size ∧
          (∃ c, s.ctimeNs = some c ∧ cur.ctimeNs = some c) ∧
          ∃ i, s.fileId = some i ∧ cur.fileId = some i) := by
  unfold skipIdentityMatches
  by_cases hb : s.mtimeNs ≠ 0 ∧ s.size = cur.size.toInt64 ∧ some s.mtimeNs = cur.mtimeNs
  · by_cases hr : s.reason = "file_limit" ∨ s.reason = "time_budget"
    · simp only [hr, decide_true, Bool.or_true, if_true, Bool.false_eq_true, false_iff]
      rintro ⟨_, _, _, h₁, h₂, _⟩
      exact hr.elim h₁ h₂
    · have hr' := not_or.1 hr
      by_cases ho : s.reason = "oversize"
      · simp [hb, ho]
      · by_cases hsize : maxSize < cur.size
        · simp [hb.1, hb.2.1, hb.2.2, hr, ho, hsize]
        · simp [hb.1, hb.2.1, ← hb.2.2, hr'.1, hr'.2, ho, hsize, bothKnownEq_iff]
  · have hfalse : (decide (s.mtimeNs ≠ 0) && decide (s.size = cur.size.toInt64) &&
        decide (some s.mtimeNs = cur.mtimeNs)) = false := by
      rw [← Bool.not_eq_true]
      simpa [and_assoc] using hb
    rw [hfalse]
    simp only [Bool.not_false, Bool.true_or, if_true, Bool.false_eq_true, false_iff]
    rintro ⟨h₁, h₂, h₃, _⟩
    exact hb ⟨h₁, h₂, h₃.symm⟩

theorem skipVouches_of_matches {t : FileTables} {project rel : String} {cur : CurrentStat}
    (h : (skipOf t project rel).any (fun s => skipIdentityMatches s cur maxSize) = true) :
    SkipVouches maxSize t project rel cur := by
  unfold skipOf at h
  split at h
  · simp at h
  · cases hs : t.indexSkips.find? (project, rel) with
    | none => simp [hs] at h
    | some s =>
      rw [hs, Option.any_some, skipIdentityMatches_iff] at h
      exact ⟨s, hs, h⟩

/-- A verdict is about its file, and an unchanged file is vouched for. -/
theorem fileVerdict_sound {t : FileTables} {project : String} {entry : InventoryEntry}
    {d : FileDiff} (h : fileVerdict disk sha256Hex maxSize t project entry = .ok d) :
    d = .added entry ∨ (∃ old, d = .modified entry old) ∨
      (d = .unchanged ∧ ∃ cur, currentStat disk entry = .ok cur ∧
        (StatVouches t project entry.relPath cur ∨
          ¬ maxSize < cur.size ∧ ContentVouches disk sha256Hex t project entry ∨
          SkipVouches maxSize t project entry.relPath cur)) := by
  simp only [fileVerdict, entryDiff, bind, Except.bind, pure, Except.pure] at h
  cases hcur : currentStat disk entry with
  | error e => simp [hcur] at h
  | ok cur =>
    simp only [hcur] at h
    split at h
    · rename_i hskip
      cases h
      exact Or.inr (Or.inr ⟨rfl, cur, rfl, Or.inr (Or.inr (skipVouches_of_matches hskip))⟩)
    · split at h
      · split at h
        · rename_i hstat
          cases h
          exact Or.inr (Or.inr ⟨rfl, cur, rfl, Or.inl (statVouches_of_matches hstat)⟩)
        · cases h
          exact Or.inr (Or.inl ⟨_, rfl⟩)
      · rename_i hsize
        split at h
        · rename_i hstat
          cases h
          exact Or.inr (Or.inr ⟨rfl, cur, rfl, Or.inl (statVouches_of_matches hstat)⟩)
        · cases hread : readStableFile disk entry.absPath with
          | error e => simp [stableRead, hread] at h
          | ok r =>
            simp only [stableRead, hread] at h
            cases hf : t.fileState.find? (project, entry.relPath) with
            | none =>
              simp only [persistedStatOf, hf, Option.map_none] at h
              cases h
              exact Or.inl rfl
            | some f =>
              simp only [persistedStatOf, hf, Option.map_some] at h
              split at h
              · cases h
                exact Or.inr (Or.inl ⟨_, rfl⟩)
              · rename_i hsha
                cases h
                refine Or.inr (Or.inr ⟨rfl, cur, rfl, Or.inr (Or.inl ⟨hsize, ?_⟩)⟩)
                exact ⟨f, r.1, r.2, hf, hread, by simpa using hsha⟩

/-- The verdict needs the stat of the file, and its bytes only when the stat is within the cap. -/
theorem fileVerdict_congr {disk' : Disk} {t : FileTables} {project : String}
    {entry : InventoryEntry} (hmeta : disk'.metadata = disk.metadata)
    (hread : ∀ cur, currentStat disk entry = .ok cur → ¬ maxSize < cur.size →
      readStableFile disk' entry.absPath = readStableFile disk entry.absPath) :
    fileVerdict disk' sha256Hex maxSize t project entry =
      fileVerdict disk sha256Hex maxSize t project entry := by
  have hcurrent : currentStat disk' entry = currentStat disk entry := by
    simp only [currentStat, hmeta]
  simp only [fileVerdict, entryDiff, hcurrent, bind, Except.bind]
  cases hcur : currentStat disk entry with
  | error e => rfl
  | ok cur =>
    by_cases hsize : maxSize < cur.size
    · simp [hsize]
    · simp only [stableRead, hread cur hcur hsize]

theorem fileVerdict_exists {t : FileTables} {project : String} {entry : InventoryEntry}
    (hmeta : ∃ md, disk.metadata entry.absPath = .ok md)
    (hread : ∃ r, readStableFile disk entry.absPath = .ok r) :
    ∃ d, fileVerdict disk sha256Hex maxSize t project entry = .ok d := by
  obtain ⟨md, hmd⟩ := hmeta
  obtain ⟨r, hr⟩ := hread
  obtain ⟨cur, hcur⟩ : ∃ cur, currentStat disk entry = .ok cur := by
    unfold currentStat
    split
    · exact ⟨_, rfl⟩
    · exact ⟨md, by rw [hmd]⟩
  simp only [fileVerdict, entryDiff, hcur, stableRead, hr, bind, Except.bind, pure, Except.pure]
  repeat' split
  all_goals exact ⟨_, rfl⟩

/-! ### Soundness and completeness -/

/-- The specification of the diff of an inventory. -/
structure DiffSpec (disk : Disk) (sha256Hex : Bytes → String) (maxSize : UInt64) (t : FileTables)
    (project : String) (inventory : List InventoryEntry) : Prop where
  /-- One verdict for each file, one deletion for each persisted path that is gone, nothing else;
  and what is called unchanged is vouched for. -/
  exact : ∀ diffs, computeFileDiff disk sha256Hex maxSize t project inventory = .ok diffs →
    ∃ (verdict : InventoryEntry → FileDiff) (gone : List String),
      diffs.Perm (inventory.map verdict ++ gone.map .deleted) ∧ gone.Nodup ∧
      (∀ r, r ∈ gone ↔
        ((t.fileState.find? (project, r)).isSome ∨ (t.indexSkips.find? (project, r)).isSome) ∧
          r ∉ inventory.map InventoryEntry.relPath) ∧
      ∀ e ∈ inventory, verdict e = .added e ∨ (∃ old, verdict e = .modified e old) ∨
        (verdict e = .unchanged ∧ ∃ cur, currentStat disk e = .ok cur ∧
          (StatVouches t project e.relPath cur ∨
            ¬ maxSize < cur.size ∧ ContentVouches disk sha256Hex t project e ∨
            SkipVouches maxSize t project e.relPath cur))
  /-- The diff fails only when a file cannot be statted or read. -/
  returns : (∀ e ∈ inventory, (∃ md, disk.metadata e.absPath = .ok md) ∧
      ∃ r, readStableFile disk e.absPath = .ok r) →
    ∃ diffs, computeFileDiff disk sha256Hex maxSize t project inventory = .ok diffs
  /-- What reading a file above the cap would give, or whether it can be read, does not matter. -/
  oversize_unread : ∀ disk' : Disk, disk'.metadata = disk.metadata →
    (∀ e ∈ inventory, ∀ cur, currentStat disk e = .ok cur → ¬ maxSize < cur.size →
      readStableFile disk' e.absPath = readStableFile disk e.absPath) →
    computeFileDiff disk' sha256Hex maxSize t project inventory =
      computeFileDiff disk sha256Hex maxSize t project inventory

/-- **Soundness and completeness of the diff**, for every inventory with distinct paths. -/
theorem computeFileDiff_sound_complete (disk : Disk) (sha256Hex : Bytes → String)
    (maxSize : UInt64) (t : FileTables) (project : String) (inventory : List InventoryEntry)
    (hinv : (inventory.map InventoryEntry.relPath).Nodup) :
    DiffSpec disk sha256Hex maxSize t project inventory where
  exact := by
    intro diffs hdiffs
    obtain ⟨hall, rfl⟩ := (computeFileDiff_ok_iff hinv).1 hdiffs
    refine ⟨verdictOf disk sha256Hex maxSize t project, gonePaths t project inventory,
      List.perm_insertionSort _ _, gonePaths_nodup t project inventory, fun r => mem_gonePaths, ?_⟩
    intro e he
    obtain ⟨d, hd⟩ := hall e he
    rw [verdictOf_eq hd]
    exact fileVerdict_sound hd
  returns := by
    intro hio
    exact ⟨_, (computeFileDiff_ok_iff hinv).2
      ⟨fun e he => fileVerdict_exists (hio e he).1 (hio e he).2, rfl⟩⟩
  oversize_unread := by
    intro disk' hmeta hread
    rw [computeFileDiff_eq t project hinv, computeFileDiff_eq t project hinv]
    congr 1
    exact List.mapM_except_congr fun e he => fileVerdict_congr hmeta (hread e he)

/-- Two files, one of them indexed before. -/
theorem computeFileDiff_sound_complete_two :
    let inventory : List InventoryEntry :=
      [⟨"a.rs", "/r/a.rs", some 1, some 5, some 6, some 7⟩,
       ⟨"b.rs", "/r/b.rs", some 100, some 5, none, none⟩]
    let t := (FileTables.empty.upsertFileState
      ⟨"p", "a.rs", "rust", "61", 5, 1, "v", "v", 1⟩).upsertFileIdentity "p" "a.rs"
        ⟨some 6, some 7⟩
    let disk : Disk := ⟨fun _ => .error "gone", fun _ _ => .error "gone"⟩
    (inventory.map InventoryEntry.relPath).Nodup ∧
      DiffSpec disk (fun _ => "00") 50 t "p" inventory :=
  ⟨by decide, computeFileDiff_sound_complete _ _ _ _ _ _ (by decide)⟩

end Diff

end Greppy
