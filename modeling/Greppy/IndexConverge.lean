/-
**When an index run settles the diff.**

After a run, with the tree left as it is, the next diff should have nothing to report.  Whether it has
depends on what the run wrote for each file and on what the file's older rows were: an extracted file
gets a row with its hash and is settled; a file that was given up on gets a skip row only, and a skip
row counts only where there is no `file_state` row.  So a file that was indexed once and then cannot
be extracted any more keeps its old `file_state` row, which no longer matches, and is reported as
modified after every run.
-/

import Greppy.IndexEffect

set_option autoImplicit false

namespace Greppy

/-! ### A tree that stands still -/

/-- The tree stands still: the stat the walk took is the one on disk. -/
def Describes (disk : Disk) (entry : InventoryEntry) : Prop :=
  ∀ size mtimeNs, entry.size = some size → entry.mtimeNs = some mtimeNs →
    disk.metadata entry.absPath = .ok ⟨size, some mtimeNs, entry.ctimeNs, entry.fileId⟩

namespace Describes

variable {disk : Disk} {entry : InventoryEntry}

theorem currentStat_ok (h : Describes disk entry) {md : StableFileMetadata}
    (hmd : disk.metadata entry.absPath = .ok md) : currentStat disk entry = .ok md := by
  unfold currentStat
  split
  · rename_i size mtimeNs hsize hmtime
    rw [h size mtimeNs hsize hmtime, Except.ok.injEq] at hmd
    rw [hmd]
  · rw [hmd]

theorem currentStat_error (h : Describes disk entry) {err : String}
    (hmd : disk.metadata entry.absPath = .error err) :
    ∃ e, currentStat disk entry = .error e := by
  unfold currentStat
  split
  · rename_i size mtimeNs hsize hmtime
    rw [h size mtimeNs hsize hmtime] at hmd
    cases hmd
  · exact ⟨_, by rw [hmd]⟩

end Describes

/-! ### What makes a verdict unchanged -/

section Verdict

variable (disk : Disk) (sha256Hex : Bytes → String) (maxSize : UInt64)

/-- A persisted row speaks for a file: by its stat, or by the hash of a file within the cap. -/
def RowVouches (entry : InventoryEntry) (md : StableFileMetadata) (p : PersistedStat) : Prop :=
  statIdentityMatches p md = true ∨ ¬ maxSize < md.size ∧
    ∃ bytes md', readStableFile disk entry.absPath = .ok (bytes, md') ∧ p.sha256 = sha256Hex bytes

variable {disk sha256Hex maxSize}

theorem entryDiff_eq_unchanged_iff {entry : InventoryEntry} {md : StableFileMetadata}
    (hcur : currentStat disk entry = .ok md) (persisted : Option PersistedStat)
    (skip : Option IndexSkip) :
    entryDiff disk sha256Hex maxSize persisted skip entry = .ok .unchanged ↔
      (∃ s, skip = some s ∧ skipIdentityMatches s md maxSize = true) ∨
        ∃ p, persisted = some p ∧ RowVouches disk sha256Hex maxSize entry md p := by
  have hskip : (skip.any fun s => skipIdentityMatches s md maxSize) = true ↔
      ∃ s, skip = some s ∧ skipIdentityMatches s md maxSize = true := by
    cases skip <;> simp
  have hstat : (persisted.any fun p => statIdentityMatches p md) = true ↔
      ∃ p, persisted = some p ∧ statIdentityMatches p md = true := by
    cases persisted <;> simp
  simp only [entryDiff, hcur, bind, Except.bind, pure, Except.pure]
  by_cases hs : (skip.any fun s => skipIdentityMatches s md maxSize) = true
  · rw [if_pos hs]
    exact iff_of_true rfl (Or.inl (hskip.1 hs))
  · rw [if_neg hs]
    have hno := mt hskip.2 hs
    by_cases hp : (persisted.any fun p => statIdentityMatches p md) = true
    · obtain ⟨p, hp', hmatch⟩ := hstat.1 hp
      rw [if_pos hp, if_pos hp, ite_self]
      exact iff_of_true rfl (Or.inr ⟨p, hp', Or.inl hmatch⟩)
    · have hnostat := mt hstat.2 hp
      rw [if_neg hp, if_neg hp]
      by_cases hsize : maxSize < md.size
      · rw [if_pos hsize]
        refine iff_of_false (fun h => by cases h) ?_
        rintro (h | ⟨p, hp', hmatch | ⟨hcap, _⟩⟩)
        · exact hno h
        · exact hnostat ⟨p, hp', hmatch⟩
        · exact hcap hsize
      · -- only the content is left to decide
        rw [if_neg hsize]
        unfold stableRead
        cases hread : readStableFile disk entry.absPath with
        | error e =>
          refine iff_of_false (fun h => by cases h) ?_
          rintro (h | ⟨p, hp', hmatch | ⟨_, bytes, md', hr, _⟩⟩)
          · exact hno h
          · exact hnostat ⟨p, hp', hmatch⟩
          · rw [hread] at hr
            cases hr
        | ok r =>
          cases persisted with
          | none =>
            refine iff_of_false (fun h => by cases h) ?_
            rintro (h | ⟨p, hp', _⟩)
            · exact hno h
            · cases hp'
          | some p =>
            simp only
            by_cases hsha : p.sha256 = sha256Hex r.1
            · rw [if_neg (not_not.2 hsha)]
              exact iff_of_true rfl (Or.inr ⟨p, rfl, Or.inr ⟨hsize, r.1, r.2, hread, hsha⟩⟩)
            · rw [if_pos hsha]
              refine iff_of_false (fun h => by cases h) ?_
              rintro (h | ⟨q, hq, hmatch | ⟨_, bytes, md', hr, hsha'⟩⟩)
              · exact hno h
              · exact hnostat ⟨q, hq, hmatch⟩
              · rw [hread] at hr
                cases hq
                cases hr
                exact hsha hsha'

end Verdict

/-! ### The rows a run leaves -/

section Rows

variable (env : Env) (run : Run) (project : String)

def processRows (entry : InventoryEntry) (rows : FileRows) : FileRows :=
  match triage env run.disk entry with
  | .extract lang => outcomeRows env run project rows (extractOne env run.disk entry lang)
  | _ => triageRows env run project entry rows

theorem rows_fullView (entry : InventoryEntry) (v : FileView) :
    (fullView env run project entry v).rows = processRows env run project entry v.rows := by
  unfold fullView extractView toExtract processRows triageRows
  cases triage env run.disk entry <;> rfl

theorem rows_changedView (entry : InventoryEntry) (v : FileView) :
    (changedView env run project entry v).rows = processRows env run project entry v.rows := by
  unfold changedView extractView toExtract processRows triageView triageRows
  cases triage env run.disk entry <;> rfl

/-- How a run keeps track of a file it processes: by its hash and stat, by its stat alone, or by a
skip row. -/
inductive Kept where
  | hashed
  | sized
  | skipped
  deriving DecidableEq

/-- How a run keeps track of a file of the given stat. -/
def kept (disk : Disk) (entry : InventoryEntry) (md : StableFileMetadata) : Kept :=
  let lang := env.languageForPath entry.absPath
  if env.maxSize < md.size then if lang.supported then .skipped else .sized
  else
    match readStableFile disk entry.absPath with
    | .error _ => .skipped
    | .ok (bytes, _) =>
      if lang.supported then
        match env.parserExtract lang bytes entry.relPath with
        | .error _ => .skipped
        | .ok extraction =>
          if env.providerValid lang entry.relPath extraction then .hashed else .skipped
      else .hashed

/-- A row for the content of a stable read. -/
def hashRow (entry : InventoryEntry) (bytes : Bytes) (md : StableFileMetadata) : FileState :=
  stateRow env run project entry.relPath entry.absPath (env.sha256Hex bytes) (lenU64 bytes) md

variable {entry : InventoryEntry} {md : StableFileMetadata}

/-- **What the rows of a processed file are**, by the way it is kept track of. -/
theorem processRows_cases (hmd : run.disk.metadata entry.absPath = .ok md) (rows : FileRows) :
    (kept env run.disk entry md = .hashed ∧ ¬ env.maxSize < md.size ∧
      ∃ bytes md', readStableFile run.disk entry.absPath = .ok (bytes, md') ∧
        (processRows env run project entry rows).state = some (hashRow env run project entry bytes md') ∧
        (processRows env run project entry rows).identity = some ⟨md'.ctimeNs, md'.fileId⟩) ∨
    (kept env run.disk entry md = .sized ∧ env.maxSize < md.size ∧
      (processRows env run project entry rows).state = some (stateRow env run project entry.relPath
        entry.absPath oversizeSentinelSha md.size md) ∧
      (processRows env run project entry rows).identity = some ⟨md.ctimeNs, md.fileId⟩) ∨
    (kept env run.disk entry md = .skipped ∧ ∃ language reason detail,
      processRows env run project entry rows =
        rows.skipped (skipRow run project entry language reason detail) ∧
      reason ≠ "file_limit" ∧ reason ≠ "time_budget" ∧
      (reason = "oversize" ↔ env.maxSize < md.size)) := by
  unfold processRows kept triageRows unsupportedRows triage
  simp only [hmd]
  by_cases hsup : (env.languageForPath entry.absPath).supported = true
  · simp only [hsup, if_true]
    by_cases hsize : env.maxSize < md.size
    · simp only [if_pos hsize]
      refine Or.inr (Or.inr ⟨trivial, _, _, _, rfl, by decide, by decide, ?_⟩)
      exact iff_of_true rfl hsize
    · simp only [if_neg hsize]
      unfold extractOne
      cases hread : readStableFile run.disk entry.absPath with
      | error e =>
        refine Or.inr (Or.inr ⟨rfl, _, _, _, rfl, by decide, by decide, ?_⟩)
        exact iff_of_false (by decide) hsize
      | ok p =>
        obtain ⟨bytes, md'⟩ := p
        simp only
        cases env.parserExtract (env.languageForPath entry.absPath) bytes entry.relPath with
        | error e =>
          refine Or.inr (Or.inr ⟨rfl, _, _, _, rfl, by decide, by decide, ?_⟩)
          exact iff_of_false (by decide) hsize
        | ok extraction =>
          simp only
          by_cases hvalid : env.providerValid (env.languageForPath entry.absPath) entry.relPath
              extraction = true
          · simp only [if_pos hvalid]
            exact Or.inl ⟨trivial, hsize, bytes, md', rfl, rfl, rfl⟩
          · simp only [if_neg hvalid]
            refine Or.inr (Or.inr ⟨trivial, _, _, _, rfl, by decide, by decide, ?_⟩)
            exact iff_of_false (by decide) hsize
  · simp only [hsup]
    by_cases hsize : env.maxSize < md.size
    · simp only [if_pos hsize]
      exact Or.inr (Or.inl ⟨rfl, hsize, rfl, rfl⟩)
    · simp only [if_neg hsize]
      cases hread : readStableFile run.disk entry.absPath with
      | error e =>
        refine Or.inr (Or.inr ⟨rfl, _, _, _, rfl, by decide, by decide, ?_⟩)
        exact iff_of_false (by decide) hsize
      | ok p =>
        obtain ⟨bytes, md'⟩ := p
        exact Or.inl ⟨rfl, hsize, bytes, md', rfl, rfl, rfl⟩

/-! ### Files that settle -/

/-- The time of the last change is known; zero stands for unknown. -/
def Timed (md : StableFileMetadata) : Prop := ∃ t, md.mtimeNs = some t ∧ t ≠ 0

/-- The stat identifies the file beyond its size and time. -/
def Identified (md : StableFileMetadata) : Prop := md.ctimeNs.isSome ∧ md.fileId.isSome

/-- A run that processes the file, with the given row before it, leaves nothing to report.  A skip row
is only of use where there is no older row: that one has to speak for the file itself. -/
def Settles (disk : Disk) (persisted : Option PersistedStat) (entry : InventoryEntry) : Prop :=
  ∃ md, disk.metadata entry.absPath = .ok md ∧
    match kept env disk entry md, persisted with
    | .hashed, _ => True
    | .sized, _ => Timed md ∧ Identified md
    | .skipped, none => Timed md ∧ (env.maxSize < md.size ∨ Identified md)
    | .skipped, some p => RowVouches disk env.sha256Hex env.maxSize entry md p

private theorem bothKnownEq_self {α : Type} [DecidableEq α] (a : Option α) :
    bothKnownEq a a = true ↔ a.isSome := by
  cases a <;> simp [bothKnownEq]

private theorem mtime_matches (md : StableFileMetadata) :
    (md.mtimeNs.getD 0 ≠ 0 ∧ some (md.mtimeNs.getD 0) = md.mtimeNs) ↔ Timed md := by
  unfold Timed
  cases md.mtimeNs <;> simp

/-- A row that was written for a stat matches it, if there is enough in the stat to go by. -/
theorem statIdentityMatches_written (sha : String) (md : StableFileMetadata) :
    statIdentityMatches ⟨sha, md.size.toInt64, md.mtimeNs.getD 0, md.ctimeNs, md.fileId⟩ md = true ↔
      Timed md ∧ Identified md := by
  unfold statIdentityMatches Identified
  simp only [Bool.and_eq_true, decide_eq_true_eq, bothKnownEq_self, ← mtime_matches]
  constructor
  · rintro ⟨⟨⟨⟨h₁, _⟩, h₂⟩, h₃⟩, h₄⟩
    exact ⟨⟨h₁, h₂⟩, h₃, h₄⟩
  · rintro ⟨⟨h₁, h₂⟩, h₃, h₄⟩
    exact ⟨⟨⟨⟨h₁, trivial⟩, h₂⟩, h₃⟩, h₄⟩

theorem skipIdentityMatches_written (hmd : run.disk.metadata entry.absPath = .ok md)
    {reason : String} (hlimit : reason ≠ "file_limit") (hbudget : reason ≠ "time_budget")
    (hover : reason = "oversize" ↔ env.maxSize < md.size) (language detail : String) :
    skipIdentityMatches (skipRow run project entry language reason detail) md env.maxSize = true ↔
      Timed md ∧ (env.maxSize < md.size ∨ Identified md) := by
  rw [skipIdentityMatches_iff, ← mtime_matches]
  simp only [skipRow, hmd, hlimit, hbudget, hover, Identified, ne_eq, not_false_eq_true, true_and,
    and_self]
  simp only [← Option.isSome_iff_exists]
  by_cases hsize : env.maxSize < md.size
  · simp only [hsize, not_true_eq_false, false_and, or_false, true_or, and_true]
    exact and_congr_right fun _ => eq_comm
  · simp only [hsize, not_false_eq_true, true_and, false_or, and_assoc]
    refine and_congr_right fun _ => ?_
    rw [eq_comm]

/-- **Processing a file makes its verdict unchanged exactly when it settles.** -/
theorem entryDiff_processRows (hdesc : Describes run.disk entry) (rows : FileRows) :
    entryDiff run.disk env.sha256Hex env.maxSize (processRows env run project entry rows).persisted
        (processRows env run project entry rows).activeSkip entry = .ok .unchanged ↔
      Settles env run.disk rows.persisted entry := by
  cases hmd : run.disk.metadata entry.absPath with
  | error err =>
    obtain ⟨e, hcur⟩ := hdesc.currentStat_error hmd
    refine iff_of_false ?_ ?_
    · simp [entryDiff, hcur, bind, Except.bind]
    · rintro ⟨md, hmd', _⟩
      rw [hmd] at hmd'
      cases hmd'
  | ok md =>
    rw [entryDiff_eq_unchanged_iff (hdesc.currentStat_ok hmd)]
    have hsettles : Settles env run.disk rows.persisted entry ↔
        match kept env run.disk entry md, rows.persisted with
        | .hashed, _ => True
        | .sized, _ => Timed md ∧ Identified md
        | .skipped, none => Timed md ∧ (env.maxSize < md.size ∨ Identified md)
        | .skipped, some p => RowVouches run.disk env.sha256Hex env.maxSize entry md p := by
      unfold Settles
      simp only [hmd, Except.ok.injEq, exists_eq_left']
    rw [hsettles]
    rcases processRows_cases env run project hmd rows with
      ⟨hkept, hsize, bytes, md', hread, hstate, hid⟩ | ⟨hkept, hsize, hstate, hid⟩ |
        ⟨hkept, language, reason, detail, hrows, hlimit, hbudget, hover⟩
    · -- the hash of what is there speaks for the file
      simp only [hkept]
      have hpers : (processRows env run project entry rows).persisted =
          some ⟨env.sha256Hex bytes, (lenU64 bytes).toInt64, md'.mtimeNs.getD 0, md'.ctimeNs,
            md'.fileId⟩ := by
        rw [FileRows.persisted, hstate, hid]
        rfl
      exact iff_of_true (Or.inr ⟨_, hpers, Or.inr ⟨hsize, bytes, md', hread, rfl⟩⟩) trivial
    · simp only [hkept]
      rw [FileRows.persisted, FileRows.activeSkip, hstate, hid]
      simp only [Option.isSome_some, if_true, reduceCtorEq, false_and, exists_false, false_or,
        Option.map_some, Option.some.injEq, exists_eq_left']
      unfold RowVouches
      rw [or_iff_left fun h => h.1 hsize]
      exact statIdentityMatches_written oversizeSentinelSha md
    · simp only [hkept, hrows]
      have hpers : (rows.skipped (skipRow run project entry language reason detail)).persisted =
          rows.persisted := rfl
      rw [hpers]
      cases hstate : rows.state with
      | none =>
        have hnone : rows.persisted = none := by
          rw [FileRows.persisted, hstate]
          rfl
        have hskip : (rows.skipped (skipRow run project entry language reason
            detail)).activeSkip = some (skipRow run project entry language reason detail) := by
          simp [FileRows.activeSkip, FileRows.skipped, hstate]
        rw [hnone, hskip]
        simp only [Option.some.injEq, exists_eq_left', reduceCtorEq, false_and, exists_false,
          or_false]
        exact skipIdentityMatches_written env run project hmd hlimit hbudget hover language
          detail
      | some f =>
        have hskip : (rows.skipped (skipRow run project entry language reason
            detail)).activeSkip = none := by
          simp [FileRows.activeSkip, FileRows.skipped, hstate]
        rw [hskip]
        cases hp : rows.persisted with
        | none => simp [FileRows.persisted, hstate] at hp
        | some p => simp

end Rows

/-! ### The whole diff -/

section Run

variable (env : Env) (run : Run) (project : String)

def NothingToReport (t : FileTables) (entries : List InventoryEntry) : Prop :=
  ∃ diffs, computeFileDiff run.disk env.sha256Hex env.maxSize t project entries = .ok diffs ∧
    ∀ d ∈ diffs, d = .unchanged

/-- The condition under which a run settles the diff, on the store before it. -/
def Converges (entries : List InventoryEntry) (s : Store) : Prop :=
  if isIncremental s project = true then
    ∀ e ∈ entries,
      fileVerdict run.disk env.sha256Hex env.maxSize s.files project e = .ok .unchanged ∨
        Settles env run.disk (persistedStatOf s.files project e.relPath) e
  else
    (∀ e ∈ entries, Settles env run.disk (persistedStatOf s.files project e.relPath) e) ∧
      ∀ r, r ∉ entries.map InventoryEntry.relPath →
        s.files.fileState.find? (project, r) = none ∧ s.files.indexSkips.find? (project, r) = none

theorem nothingToReport_iff {t : FileTables} {entries : List InventoryEntry}
    (hdistinct : (entries.map InventoryEntry.relPath).Nodup) :
    NothingToReport env run project t entries ↔
      (∀ e ∈ entries, fileVerdict run.disk env.sha256Hex env.maxSize t project e = .ok .unchanged) ∧
        ∀ r, r ∉ entries.map InventoryEntry.relPath →
          (rowsAt t project r).state = none ∧ (rowsAt t project r).skip = none := by
  have hgone : (∀ r, r ∉ gonePaths t project entries) ↔
      ∀ r, r ∉ entries.map InventoryEntry.relPath →
        (rowsAt t project r).state = none ∧ (rowsAt t project r).skip = none := by
    refine forall_congr' fun r => ?_
    rw [mem_gonePaths, not_and_not_right, rowsAt, ← not_imp_not, not_or, Option.not_isSome_iff_eq_none,
      Option.not_isSome_iff_eq_none]
  rw [← hgone]
  unfold NothingToReport
  simp only [computeFileDiff_ok_iff hdistinct]
  constructor
  · rintro ⟨_, ⟨hall, rfl⟩, hunchanged⟩
    have hmem : ∀ d, d ∈ entries.map (verdictOf run.disk env.sha256Hex env.maxSize t project) ++
        (gonePaths t project entries).map .deleted → d = .unchanged :=
      fun d hd => hunchanged d ((List.perm_insertionSort _ _).mem_iff.2 hd)
    constructor
    · intro e he
      obtain ⟨d, hd⟩ := hall e he
      have := hmem _ (List.mem_append_left _ (List.mem_map_of_mem he))
      rw [verdictOf_eq hd] at this
      rw [hd, this]
    · intro r hr
      cases hmem _ (List.mem_append_right _ (List.mem_map_of_mem hr))
  · rintro ⟨hverdict, hnone⟩
    refine ⟨_, ⟨fun e he => ⟨_, hverdict e he⟩, rfl⟩, ?_⟩
    intro d hd
    rcases List.mem_append.1 ((List.perm_insertionSort _ _).mem_iff.1 hd) with hd | hd
    · obtain ⟨e, he, rfl⟩ := List.mem_map.1 hd
      exact verdictOf_eq (hverdict e he)
    · obtain ⟨r, hr, _⟩ := List.mem_map.1 hd
      exact absurd hr (hnone r)

end Run

/-! ### A mixed tree, and a file that stops parsing -/

/-- Rust is the one supported language, files have at most eight bytes, and a file that starts with
an exclamation mark does not parse. -/
def rustOnly : Env where
  sha256Hex bytes := String.join (bytes.map fun b => toString b.toNat)
  maxSize := 8
  languageForPath path :=
    if ".rs".toList.isSuffixOf path.toList then ⟨"rust", true⟩ else ⟨"unknown", false⟩
  parserExtract _ bytes _ := if bytes.head? = some 33 then .error "no parse tree" else .ok ⟨[], []⟩
  providerValid _ _ _ := true

/-- A disk with some files, all last changed at one time. -/
def diskOf (files : List (String × Bytes)) (time : Int64) : Disk where
  metadata path :=
    match files.lookup path with
    | some bytes => .ok ⟨lenU64 bytes, some time, some time, some 1⟩
    | none => .error "not found"
  attempt path _ :=
    match files.lookup path with
    | some bytes =>
      let md : StableFileMetadata := ⟨lenU64 bytes, some time, some time, some 1⟩
      .ok ⟨md, true, bytes, md⟩
    | none => .error "not found"

theorem describes_entryAt (disk : Disk) (rel : String) : Describes disk (entryAt rel) := by
  intro size mtimeNs hsize
  cases hsize

/-- A source file, one that does not parse, one that is too large and a text file. -/
def mixedTree : List (String × Bytes) :=
  [("/repos/p/a.rs", [97]), ("/repos/p/bad.rs", [33]),
   ("/repos/p/big.rs", [98, 98, 98, 98, 98, 98, 98, 98, 98]), ("/repos/p/notes.txt", [99])]

def mixedEntries : List InventoryEntry :=
  [entryAt "a.rs", entryAt "bad.rs", entryAt "big.rs", entryAt "notes.txt"]

/-- A file is indexed, then edited so that it does not parse: what the diff says after the second
run. -/
theorem modified_after_unparsable :
    ((indexRun rustOnly ⟨diskOf [("/repos/p/a.rs", [97])] 5, 1, "t"⟩ "p" "/repos/p"
        [entryAt "a.rs"] Store.empty).bind fun s =>
      (indexRun rustOnly ⟨diskOf [("/repos/p/a.rs", [33])] 6, 2, "u"⟩ "p" "/repos/p"
        [entryAt "a.rs"] s).bind fun s =>
          computeFileDiff (diskOf [("/repos/p/a.rs", [33])] 6) rustOnly.sha256Hex rustOnly.maxSize
            s.files "p" [entryAt "a.rs"]) = .ok [.modified (entryAt "a.rs") "97"] := by
  decide

end Greppy
