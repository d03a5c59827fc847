/-
**The freshness gate.**

Every query first asks `crates/freshness/src/fingerprint.rs` whether the index may be trusted.  The
workspace-level check picks the persisted `workspace_state` row for the live root and compares it
with the live git fingerprint; the file-level report adds the file diff.  Two pieces of code say what
a mismatch is: `fingerprint_matches` decides, and a list of per-field comparisons explains.  The
report then calls an index fresh when nothing was explained.

The two disagree on the root.  A row is picked by `paths_match`, which takes two roots that cannot be
canonicalised for the same one, and the explanation has no line for the root.

The clock enters as the answers of the three budget tests, the file system as `canonicalize`, the
walk as its result, and the git fingerprint is given.
-/

import Greppy.FileDiff
import Greppy.RustStr

set_option autoImplicit false

namespace Greppy

/-! ### Rows and fingerprints -/

/-- Equality of `Option<PathBuf>`s. -/
def sameOptPath : Option String → Option String → Bool
  | none, none => true
  | some a, some b => samePath a b
  | _, _ => false

/-- A row of `workspace_state`. -/
structure WorkspaceState where
  rootPath : String
  gitDir : Option String
  gitCommonDir : Option String
  headOid : Option String
  indexSignature : Option String
  schemaVersion : ℕ
  indexerVersion : String
  graphGeneration : ℕ
  updatedAt : String
  deriving DecidableEq

/-- The live fingerprint of a workspace. -/
structure WorkspaceFingerprint where
  canonicalRoot : String
  gitDir : Option String
  gitCommonDir : Option String
  headOid : Option String
  indexSignature : Option String
  deriving DecidableEq

/-- Explicit include and exclude globs of a discovery scope. -/
structure WalkOverrides where
  includes : List String
  excludes : List String

def appendScopePart (out : String) (kind : Char) (glob : String) : String :=
  out ++ ";" ++ String.singleton kind ++ toString glob.utf8ByteSize ++ ":" ++ glob

/-- `WalkOverrides::scope_key`. -/
def WalkOverrides.scopeKey (o : WalkOverrides) : String :=
  if o.includes.isEmpty && o.excludes.isEmpty then "default"
  else
    let out := o.includes.foldl (fun out g => appendScopePart out 'I' g) "v1"
    o.excludes.foldl (fun out g => appendScopePart out 'E' g) out

def indexerVersionBase : String := "greppy-indexer-v4"

def expectedIndexerVersion (overrides : WalkOverrides) : String :=
  let scope := overrides.scopeKey
  if scope = "default" then indexerVersionBase
  else indexerVersionBase ++ ";discover_scope=" ++ scope

/-- A line of the explanation: the field, its persisted and its live value. -/
inductive StaleReason where
  | gitDirChanged (was now : Option String)
  | gitCommonDirChanged (was now : Option String)
  | headOidChanged (was now : Option String)
  | indexSignatureChanged (was now : Option String)
  | indexerVersionChanged (was expected : String)
  | budgetExceeded
  | walkFailed (error : String)
  | verificationFailed (error : Error)
  | filesAdded
  | filesModified
  | filesDeleted
  deriving DecidableEq

inductive FreshnessOutcome where
  | cold
  | fresh
  | stale (reasons : List StaleReason)
  | unknown (reasons : List StaleReason)
  | rootMismatch
  deriving DecidableEq

/-- The answers of `start.elapsed() > budget`: in the workspace check, after it, after the diff. -/
structure Clock where
  inCheck : Bool
  afterCheck : Bool
  afterDiff : Bool

/-! ### The workspace-level check -/

section Gate

variable (canonicalize : String → Option String)

def storedGitPathMatches (stored current : Option String) : Bool := sameOptPath stored current

/-- The first conjunct of `fingerprint_matches`: the live root is the persisted one, or what that
canonicalises to. -/
def rootsMatch (fp : WorkspaceFingerprint) (ws : WorkspaceState) : Bool :=
  samePath fp.canonicalRoot ws.rootPath ||
    samePath fp.canonicalRoot ((canonicalize ws.rootPath).getD ws.rootPath)

/-- The other conjuncts of `fingerprint_matches`. -/
def otherFieldsMatch (fp : WorkspaceFingerprint) (ws : WorkspaceState) (expected : String) : Bool :=
  storedGitPathMatches ws.gitDir fp.gitDir &&
    storedGitPathMatches ws.gitCommonDir fp.gitCommonDir &&
    decide (fp.headOid = ws.headOid) && decide (fp.indexSignature = ws.indexSignature) &&
    decide (ws.indexerVersion = expected)

def fingerprintMatches (fp : WorkspaceFingerprint) (ws : WorkspaceState) (expected : String) :
    Bool :=
  rootsMatch canonicalize fp ws && otherFieldsMatch fp ws expected

def pathsMatch (a b : String) : Bool :=
  samePath a b || sameOptPath (canonicalize a) (canonicalize b) ||
    samePath a ((canonicalize b).getD b)

/-- The row the check compares with: the first of the fifty most recent whose root matches. -/
def selectedRow (rows : KeyedTable WorkspaceState WorkspaceState.rootPath)
    (fp : WorkspaceFingerprint) : Option WorkspaceState :=
  ((rows.rows.insertionSort fun a b => a.updatedAt ≥ b.updatedAt).take 50).find?
    fun w => pathsMatch canonicalize w.rootPath fp.canonicalRoot

/-- The explanation: one line for each field that differs, in the order of the source. -/
def staleReasons (fp : WorkspaceFingerprint) (ws : WorkspaceState) (expected : String) :
    List StaleReason :=
  (if storedGitPathMatches ws.gitDir fp.gitDir then []
    else [.gitDirChanged ws.gitDir fp.gitDir]) ++
  (if storedGitPathMatches ws.gitCommonDir fp.gitCommonDir then []
    else [.gitCommonDirChanged ws.gitCommonDir fp.gitCommonDir]) ++
  (if ws.headOid ≠ fp.headOid then [.headOidChanged ws.headOid fp.headOid] else []) ++
  (if ws.indexSignature ≠ fp.indexSignature then
    [.indexSignatureChanged ws.indexSignature fp.indexSignature] else []) ++
  (if ws.indexerVersion ≠ expected then [.indexerVersionChanged ws.indexerVersion expected] else [])

def checkWithOverrides (rows : KeyedTable WorkspaceState WorkspaceState.rootPath)
    (fp : WorkspaceFingerprint) (clock : Clock) (overrides : WalkOverrides) : FreshnessOutcome :=
  let expected := expectedIndexerVersion overrides
  let row := selectedRow canonicalize rows fp
  if clock.inCheck then .unknown [.budgetExceeded]
  else
    match row with
    | none => .cold
    | some persisted =>
      if !pathsMatch canonicalize persisted.rootPath fp.canonicalRoot then .rootMismatch
      else if fingerprintMatches canonicalize fp persisted expected then .fresh
      else .stale (staleReasons fp persisted expected)

/-! ### The file-level report -/

structure FileFreshnessReport where
  outcome : FreshnessOutcome
  ttlHit : Bool
  changedPaths : Option (List String)
  totalInventory : Option ℕ

def changedPath : FileDiff → Option String
  | .added e => some e.relPath
  | .modified e _ => some e.relPath
  | .deleted r => some r
  | .unchanged => none

/-- The lines the file diff adds to the explanation. -/
def diffReasons (diffs : List FileDiff) : List StaleReason :=
  (if diffs.any (fun d => d matches .added _) then [.filesAdded] else []) ++
  (if diffs.any (fun d => d matches .modified _ _) then [.filesModified] else []) ++
  (if diffs.any (fun d => d matches .deleted _) then [.filesDeleted] else [])

/-- What the rest of the report is computed from: the per-file tables, the disk, the result of the
walk, and the inventory size of a TTL stamp that is honoured. -/
structure TreeView where
  tables : FileTables
  project : String
  disk : Disk
  sha256Hex : Bytes → String
  maxSize : UInt64
  walk : Except String (List InventoryEntry)
  stamp : Option ℕ

/-- The file diff of the walked inventory. -/
def TreeView.diff (v : TreeView) (inventory : List InventoryEntry) : Except Error (List FileDiff) :=
  computeFileDiff v.disk v.sha256Hex v.maxSize v.tables v.project inventory

def unknownReport (reasons : List StaleReason) (total : Option ℕ) : FileFreshnessReport :=
  { outcome := .unknown reasons, ttlHit := false, changedPaths := none, totalInventory := total }

/-- The part of the report after the workspace-level check, with the reasons that gave. -/
def fileLevelReport (clock : Clock) (v : TreeView) (reasons : List StaleReason) :
    FileFreshnessReport :=
  if clock.afterCheck then unknownReport (reasons ++ [.budgetExceeded]) none
  else
    match v.walk with
    | .error e => unknownReport (reasons ++ [.walkFailed e]) none
    | .ok inventory =>
      match v.diff inventory with
      | .error e => unknownReport (reasons ++ [.verificationFailed e]) (some inventory.length)
      | .ok diffs =>
        if clock.afterDiff then
          unknownReport (reasons ++ [.budgetExceeded]) (some inventory.length)
        else
          let reasons := reasons ++ diffReasons diffs
          { outcome := if reasons.isEmpty then .fresh else .stale reasons
            ttlHit := false
            changedPaths := some (diffs.filterMap changedPath)
            totalInventory := some inventory.length }

/-- `check_files_report_with_ttl`. -/
def checkFilesReport (rows : KeyedTable WorkspaceState WorkspaceState.rootPath)
    (fp : WorkspaceFingerprint) (clock : Clock) (overrides : WalkOverrides) (v : TreeView) :
    FileFreshnessReport :=
  match v.stamp with
  | some total =>
    { outcome := .fresh, ttlHit := true, changedPaths := none, totalInventory := some total }
  | none =>
    match checkWithOverrides canonicalize rows fp clock overrides with
    | .fresh => fileLevelReport clock v []
    | .stale reasons => fileLevelReport clock v reasons
    | other =>
      { outcome := other, ttlHit := false, changedPaths := none, totalInventory := none }

/-! ### Failing closed -/

/-- Fresh is only said of a row that matches in every field, and of an empty diff; and where the
picked row does not match, the stale verdict has a reason. -/
structure FailsClosed (rows : KeyedTable WorkspaceState WorkspaceState.rootPath)
    (fp : WorkspaceFingerprint) (clock : Clock) (overrides : WalkOverrides) (v : TreeView) :
    Prop where
  check_fresh : checkWithOverrides canonicalize rows fp clock overrides = .fresh →
    ∃ ws, selectedRow canonicalize rows fp = some ws ∧
      fingerprintMatches canonicalize fp ws (expectedIndexerVersion overrides) = true
  stale_explained : ∀ reasons,
    checkWithOverrides canonicalize rows fp clock overrides = .stale reasons → reasons ≠ []
  report_fresh : (checkFilesReport canonicalize rows fp clock overrides v).outcome = .fresh →
    ∃ ws inventory diffs, selectedRow canonicalize rows fp = some ws ∧
      fingerprintMatches canonicalize fp ws (expectedIndexerVersion overrides) = true ∧
      v.walk = .ok inventory ∧ v.diff inventory = .ok diffs ∧ ∀ d ∈ diffs, d = .unchanged

variable {canonicalize}

variable {fp : WorkspaceFingerprint} {ws : WorkspaceState} {clock : Clock}
  {rows : KeyedTable WorkspaceState WorkspaceState.rootPath}

/-- The explanation is silent exactly when every field but the root matches. -/
theorem staleReasons_eq_nil_iff {expected : String} :
    staleReasons fp ws expected = [] ↔ otherFieldsMatch fp ws expected = true := by
  simp [staleReasons, otherFieldsMatch, and_assoc, @eq_comm _ ws.headOid fp.headOid,
    @eq_comm _ ws.indexSignature fp.indexSignature]

theorem diffReasons_eq_nil_iff {diffs : List FileDiff} :
    diffReasons diffs = [] ↔ ∀ d ∈ diffs, d = .unchanged := by
  simp only [diffReasons, List.append_eq_nil_iff, ite_eq_right_iff, List.cons_ne_nil, imp_false,
    List.any_eq_true, not_exists, not_and]
  constructor
  · rintro ⟨⟨hadded, hmodified⟩, hdeleted⟩ d hd
    cases d with
    | added e => exact absurd rfl (hadded _ hd)
    | modified e old => exact absurd rfl (hmodified _ hd)
    | deleted r => exact absurd rfl (hdeleted _ hd)
    | unchanged => rfl
  · intro h
    refine ⟨⟨?_, ?_⟩, ?_⟩ <;>
    · intro d hd
      rw [h d hd]
      decide

/-- The file level says fresh only when nothing was to be explained before, and the diff is empty. -/
theorem fileLevelReport_fresh {v : TreeView} {reasons : List StaleReason}
    (h : (fileLevelReport clock v reasons).outcome = .fresh) :
    reasons = [] ∧ ∃ inventory diffs, v.walk = .ok inventory ∧ v.diff inventory = .ok diffs ∧
      ∀ d ∈ diffs, d = .unchanged := by
  unfold fileLevelReport at h
  split at h
  · cases h
  · split at h
    · cases h
    · rename_i inventory hwalk
      split at h
      · cases h
      · rename_i diffs hdiff
        split at h
        · cases h
        · simp only at h
          split at h
          · rename_i hempty
            obtain ⟨hreasons, hdiffs⟩ := List.append_eq_nil_iff.1 (List.isEmpty_iff.1 hempty)
            exact ⟨hreasons, inventory, diffs, hwalk, hdiff, diffReasons_eq_nil_iff.1 hdiffs⟩
          · cases h

/-- The picked row passed `paths_match`, so the check's own test of it never fires. -/
theorem pathsMatch_of_selectedRow (h : selectedRow canonicalize rows fp = some ws) :
    pathsMatch canonicalize ws.rootPath fp.canonicalRoot = true := by
  simpa using List.find?_some h

theorem checkWithOverrides_of_selected (overrides : WalkOverrides) (hclock : clock.inCheck = false)
    (h : selectedRow canonicalize rows fp = some ws) :
    checkWithOverrides canonicalize rows fp clock overrides =
      if fingerprintMatches canonicalize fp ws (expectedIndexerVersion overrides) then .fresh
      else .stale (staleReasons fp ws (expectedIndexerVersion overrides)) := by
  simp [checkWithOverrides, hclock, h, pathsMatch_of_selectedRow h]

/-- A verdict about the fingerprint comes from a picked row, in time. -/
theorem selected_of_checkWithOverrides {overrides : WalkOverrides} {outcome : FreshnessOutcome}
    (h : checkWithOverrides canonicalize rows fp clock overrides = outcome)
    (hout : outcome = .fresh ∨ ∃ reasons, outcome = .stale reasons) :
    clock.inCheck = false ∧ ∃ ws, selectedRow canonicalize rows fp = some ws := by
  cases hc : clock.inCheck with
  | true =>
    rw [checkWithOverrides, hc] at h
    subst h
    rcases hout with hout | ⟨reasons, hout⟩ <;> cases hout
  | false =>
    cases hs : selectedRow canonicalize rows fp with
    | some ws => exact ⟨rfl, ws, rfl⟩
    | none =>
      simp only [checkWithOverrides, hc, hs] at h
      subst h
      rcases hout with hout | ⟨reasons, hout⟩ <;> cases hout

/-- **The gate fails closed** exactly when the picked row, if it agrees in the git directories, the
head, the index signature and the indexer version, also has the live root. -/
theorem failsClosed_iff (canonicalize : String → Option String)
    (rows : KeyedTable WorkspaceState WorkspaceState.rootPath) (fp : WorkspaceFingerprint)
    (clock : Clock) (overrides : WalkOverrides) (v : TreeView) (hstamp : v.stamp = none) :
    FailsClosed canonicalize rows fp clock overrides v ↔
      (clock.inCheck = false → ∀ ws, selectedRow canonicalize rows fp = some ws →
        otherFieldsMatch fp ws (expectedIndexerVersion overrides) = true →
          rootsMatch canonicalize fp ws = true) := by
  constructor
  · intro h hclock ws hws hother
    cases hroot : rootsMatch canonicalize fp ws with
    | true => rfl
    | false =>
      have hstale := checkWithOverrides_of_selected overrides hclock hws
      rw [fingerprintMatches, hroot, Bool.false_and, if_neg (by decide),
        staleReasons_eq_nil_iff.2 hother] at hstale
      exact absurd rfl (h.stale_explained [] hstale)
  · intro hcond
    have hexplained : ∀ reasons,
        checkWithOverrides canonicalize rows fp clock overrides = .stale reasons →
          reasons ≠ [] := by
      rintro reasons hstale rfl
      obtain ⟨hclock, ws, hws⟩ := selected_of_checkWithOverrides hstale (Or.inr ⟨_, rfl⟩)
      rw [checkWithOverrides_of_selected overrides hclock hws] at hstale
      split at hstale
      · cases hstale
      · rename_i hmatch
        have hother := staleReasons_eq_nil_iff.1 (FreshnessOutcome.stale.inj hstale)
        exact hmatch (by rw [fingerprintMatches, hcond hclock ws hws hother, hother]; rfl)
    have hfresh : checkWithOverrides canonicalize rows fp clock overrides = .fresh →
        ∃ ws, selectedRow canonicalize rows fp = some ws ∧
          fingerprintMatches canonicalize fp ws (expectedIndexerVersion overrides) = true := by
      intro hcheck
      obtain ⟨hclock, ws, hws⟩ := selected_of_checkWithOverrides hcheck (Or.inl rfl)
      rw [checkWithOverrides_of_selected overrides hclock hws] at hcheck
      split at hcheck
      · exact ⟨ws, hws, by assumption⟩
      · cases hcheck
    refine ⟨hfresh, hexplained, ?_⟩
    intro hreport
    simp only [checkFilesReport, hstamp] at hreport
    cases hcheck : checkWithOverrides canonicalize rows fp clock overrides with
    | fresh =>
      rw [hcheck] at hreport
      obtain ⟨_, inventory, diffs, hfiles⟩ := fileLevelReport_fresh hreport
      obtain ⟨ws, hws, hmatch⟩ := hfresh hcheck
      exact ⟨ws, inventory, diffs, hws, hmatch, hfiles⟩
    | stale reasons =>
      rw [hcheck] at hreport
      exact absurd (fileLevelReport_fresh hreport).1 (hexplained reasons hcheck)
    | cold => simp [hcheck] at hreport
    | unknown reasons => simp [hcheck] at hreport
    | rootMismatch => simp [hcheck] at hreport

/-- The row of a workspace `/old` without git, which is gone by now. -/
def goneRow : WorkspaceState :=
  ⟨"/old", none, none, none, none, 15, "greppy-indexer-v4", 1, "2026-06-28T20:00:00Z"⟩

/-- An empty tree, and a project of which nothing has been indexed. -/
def emptyView : TreeView :=
  ⟨FileTables.empty, "p", ⟨fun _ => .error "gone", fun _ _ => .error "gone"⟩, fun _ => "", 50,
    .ok [], none⟩

/-- Asked about a workspace `/new` that is gone too, neither root canonicalises, so the row of `/old`
is picked, and nothing explains the mismatch. -/
theorem not_failsClosed_unresolvable_roots :
    ¬ FailsClosed (fun _ => none) (KeyedTable.ofList [goneRow]) ⟨"/new", none, none, none, none⟩
        ⟨false, false, false⟩ ⟨[], []⟩ emptyView := by
  intro h
  have hreport : (checkFilesReport (fun _ => none) (KeyedTable.ofList [goneRow])
      ⟨"/new", none, none, none, none⟩ ⟨false, false, false⟩ ⟨[], []⟩ emptyView).outcome =
        .fresh := by rfl
  obtain ⟨ws, _, _, hws, hmatch, _⟩ := h.report_fresh hreport
  have hsel : selectedRow (fun _ => none) (KeyedTable.ofList [goneRow])
      ⟨"/new", none, none, none, none⟩ = some goneRow := by decide
  rw [hsel] at hws
  cases hws
  exact absurd hmatch (by decide)

/-- Asked about the workspace it was built for, the same store is compared with its own root. -/
theorem failsClosed_own_root :
    FailsClosed (fun _ => none) (KeyedTable.ofList [goneRow]) ⟨"/old", none, none, none, none⟩
      ⟨false, false, false⟩ ⟨[], []⟩ emptyView := by
  refine (failsClosed_iff _ _ _ _ _ _ rfl).2 ?_
  intro _ ws hws _
  have hsel : selectedRow (fun _ => none) (KeyedTable.ofList [goneRow])
      ⟨"/old", none, none, none, none⟩ = some goneRow := by decide
  rw [hsel] at hws
  cases hws
  decide

end Gate

end Greppy
