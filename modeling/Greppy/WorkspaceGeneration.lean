/-
**Workspace rows: the generation counter and the refresh of git metadata.**

A workspace has one row in `workspace_state` (`crates/store/src/workspace_state.rs`).  Three writers
touch it: `upsert_workspace_state` inserts the row or overwrites all of it but the generation,
`bump_generation` advances the generation, and `refresh_fingerprint_metadata`
(`crates/freshness/src/fingerprint.rs`) brings the git fields of a row up to date when nothing else
about it is stale.

The generation is a `u64` in the program and a signed integer in the database.  What a bump advances
is the signed integer, and at the largest one it fails and leaves the row as it was.  A row inserted
with a generation of `2 ^ 63` or more is negative in the database, and the bump of such a row can wrap
around to zero; the indexer inserts generation 0.
-/

import Greppy.Fingerprint
import Mathlib.Algebra.Group.Int.Defs

set_option autoImplicit false

namespace Greppy

/-- The table `workspace_state`. -/
abbrev WorkspaceTable := KeyedTable WorkspaceState WorkspaceState.rootPath

/-! ### The counter in the database -/

/-- `n as i64`. -/
def asI64 (n : ℕ) : ℤ :=
  if n % 2 ^ 64 < 2 ^ 63 then (n % 2 ^ 64 : ℕ) else (n % 2 ^ 64 : ℕ) - 2 ^ 64

/-- `z as u64`. -/
def asU64 (z : ℤ) : ℕ := (z % 2 ^ 64).toNat

theorem asI64_lt (n : ℕ) : asI64 n < 2 ^ 63 := by
  unfold asI64
  split
  · omega
  · omega

theorem asI64_ge (n : ℕ) : -2 ^ 63 ≤ asI64 n := by
  unfold asI64
  split
  · omega
  · omega

theorem asI64_of_lt {n : ℕ} (h : n < 2 ^ 63) : asI64 n = n := by
  unfold asI64
  rw [if_pos (by omega)]
  omega

theorem asI64_asU64 {z : ℤ} (hlo : -2 ^ 63 ≤ z) (hhi : z < 2 ^ 63) : asI64 (asU64 z) = z := by
  unfold asI64 asU64
  split
  · omega
  · omega

/-! ### The writers -/

/-- `INSERT … ON CONFLICT(root_path) DO UPDATE`: every column but the generation. -/
def upsertWorkspaceState (w : WorkspaceState) (rows : WorkspaceTable) : WorkspaceTable :=
  rows.upsertWith (fun old new => { new with graphGeneration := old.graphGeneration })
    (fun _ _ _ => rfl) w

/-- `bump_generation`: the new rows and the new generation.  Without a row there is nothing to read
back, and after the largest `i64` SQLite goes on with a float, which does not read back as an
integer; the transaction is then rolled back. -/
def bumpGeneration (root now : String) (rows : WorkspaceTable) : Option (WorkspaceTable × ℕ) :=
  match rows.find? root with
  | none => none
  | some w =>
    if asI64 w.graphGeneration = 2 ^ 63 - 1 then none
    else
      let bumped :=
        { w with graphGeneration := asU64 (asI64 w.graphGeneration + 1), updatedAt := now }
      some (rows.upsert bumped, bumped.graphGeneration)

/-- The reasons that a refresh of the git fields answers, told by how their text starts. -/
def StaleReason.isMetadata : StaleReason → Bool
  | .gitDirChanged _ _ => true
  | .gitCommonDirChanged _ _ => true
  | .headOidChanged _ _ => true
  | .indexSignatureChanged _ _ => true
  | _ => false

def metadataOnlyReasons (reasons : List StaleReason) : Bool :=
  !reasons.isEmpty && reasons.all StaleReason.isMetadata

/-- `list_workspace_states`: ordered by root path. -/
def listWorkspaceStates (rows : WorkspaceTable) : List WorkspaceState :=
  rows.rows.insertionSort fun a b => a.rootPath ≤ b.rootPath

/-- A row with the git fields of the live fingerprint. -/
def refreshed (fp : WorkspaceFingerprint) (now : String) (w : WorkspaceState) : WorkspaceState :=
  { w with
    gitDir := fp.gitDir
    gitCommonDir := fp.gitCommonDir
    headOid := fp.headOid
    indexSignature := fp.indexSignature
    updatedAt := now }

/-- What a refresh is called with: the file system, the live fingerprint, the discovery scope, the
clock during its first and its second check, and the time it writes. -/
structure RefreshCall where
  canonicalize : String → Option String
  current : WorkspaceFingerprint
  overrides : WalkOverrides
  firstClock : Clock
  secondClock : Clock
  now : String

/-- The check of a refresh, under a given clock. -/
def RefreshCall.check (call : RefreshCall) (clock : Clock) (rows : WorkspaceTable) :
    FreshnessOutcome :=
  checkWithOverrides call.canonicalize rows call.current clock call.overrides

/-- The row a refresh writes: the first, by root path, whose root matches. -/
def RefreshCall.persisted (call : RefreshCall) (rows : WorkspaceTable) : Option WorkspaceState :=
  (listWorkspaceStates rows).find? fun row =>
    pathsMatch call.canonicalize row.rootPath call.current.canonicalRoot

def refreshFingerprintMetadata (call : RefreshCall) (rows : WorkspaceTable) :
    WorkspaceTable × Bool :=
  match call.check call.firstClock rows with
  | .stale reasons =>
    if metadataOnlyReasons reasons then
      match call.persisted rows with
      | none => (rows, false)
      | some w =>
        let rows := upsertWorkspaceState (refreshed call.current call.now w) rows
        (rows, decide (call.check call.secondClock rows = .fresh))
    else (rows, false)
  | _ => (rows, false)

inductive WorkspaceOp where
  | upsert (w : WorkspaceState)
  | bump (root now : String)
  | refresh (call : RefreshCall)

/-- One write; a bump that fails leaves the table alone. -/
def WorkspaceOp.apply (rows : WorkspaceTable) : WorkspaceOp → WorkspaceTable
  | .upsert w => upsertWorkspaceState w rows
  | .bump root now => ((bumpGeneration root now rows).map Prod.fst).getD rows
  | .refresh call => (refreshFingerprintMetadata call rows).1

def runWorkspace (rows : WorkspaceTable) (ops : List WorkspaceOp) : WorkspaceTable :=
  ops.foldl WorkspaceOp.apply rows

/-! ### The generation -/

/-- The generation of a row has not gone down: not as the integer in the database, and not as the
`u64` it is read as if it was below `2 ^ 63`, where it stays. -/
structure Advanced (w w' : WorkspaceState) : Prop where
  signed : asI64 w.graphGeneration ≤ asI64 w'.graphGeneration
  unsigned : w.graphGeneration < 2 ^ 63 →
    w.graphGeneration ≤ w'.graphGeneration ∧ w'.graphGeneration < 2 ^ 63

variable {w old : WorkspaceState} {rows : WorkspaceTable} {root : String}

theorem Advanced.of_eq {w' : WorkspaceState} (h : w'.graphGeneration = w.graphGeneration) :
    Advanced w w' := by
  refine ⟨?_, ?_⟩
  · rw [h]
  · intro hlt
    rw [h]
    exact ⟨le_rfl, hlt⟩

theorem Advanced.trans {a b c : WorkspaceState} (hab : Advanced a b) (hbc : Advanced b c) :
    Advanced a c := by
  refine ⟨hab.signed.trans hbc.signed, ?_⟩
  intro ha
  obtain ⟨hle, hb⟩ := hab.unsigned ha
  obtain ⟨hle', hc⟩ := hbc.unsigned hb
  exact ⟨hle.trans hle', hc⟩

theorem advanced_bump (h : asI64 w.graphGeneration ≠ 2 ^ 63 - 1) (now : String) :
    Advanced w { w with
      graphGeneration := asU64 (asI64 w.graphGeneration + 1), updatedAt := now } := by
  have hlt := asI64_lt w.graphGeneration
  have hge := asI64_ge w.graphGeneration
  refine ⟨?_, ?_⟩
  · simp only
    rw [asI64_asU64 (by omega) (by omega)]
    omega
  · intro hsmall
    have heq := asI64_of_lt hsmall
    simp only [asU64, heq] at h ⊢
    omega

theorem find?_upsertWorkspaceState (w : WorkspaceState) (rows : WorkspaceTable) (root : String) :
    (upsertWorkspaceState w rows).find? root =
      if w.rootPath = root then
        some (match rows.find? w.rootPath with
          | some old => { w with graphGeneration := old.graphGeneration }
          | none => w)
      else rows.find? root := by
  rw [upsertWorkspaceState, KeyedTable.find?_upsertWith, KeyedTable.merged]
  cases rows.find? w.rootPath with
  | none => rfl
  | some old => rfl

theorem advanced_upsert (w : WorkspaceState) (h : rows.find? root = some old) :
    ∃ new, (upsertWorkspaceState w rows).find? root = some new ∧ Advanced old new := by
  rw [find?_upsertWorkspaceState]
  by_cases hroot : w.rootPath = root
  · rw [if_pos hroot, hroot, h]
    exact ⟨_, rfl, Advanced.of_eq rfl⟩
  · rw [if_neg hroot]
    exact ⟨old, h, Advanced.of_eq rfl⟩

theorem advanced_bumpGeneration {rows' : WorkspaceTable} {bumped now : String} {generation : ℕ}
    (h : rows.find? root = some old)
    (hbump : bumpGeneration bumped now rows = some (rows', generation)) :
    ∃ new, rows'.find? root = some new ∧ Advanced old new := by
  unfold bumpGeneration at hbump
  cases hw : rows.find? bumped with
  | none =>
    rw [hw] at hbump
    cases hbump
  | some w =>
    rw [hw] at hbump
    by_cases hmax : asI64 w.graphGeneration = 2 ^ 63 - 1
    · simp only [if_pos hmax] at hbump
      cases hbump
    · simp only [if_neg hmax, Option.some.injEq, Prod.mk.injEq] at hbump
      obtain ⟨rfl, _⟩ := hbump
      have hkey : w.rootPath = bumped := KeyedTable.key_of_find? hw
      rw [KeyedTable.find?_upsert]
      by_cases hroot : w.rootPath = root
      · have hold : old = w := by
          rw [← hroot, hkey, hw] at h
          exact (Option.some.inj h).symm
        rw [if_pos hroot, hold]
        exact ⟨_, rfl, advanced_bump hmax now⟩
      · rw [if_neg hroot]
        exact ⟨old, h, Advanced.of_eq rfl⟩

/-! ### The refresh -/

/-- Everything a refresh can do: nothing, or bring the row it reads up to date after a check whose
reasons all concern git metadata. -/
theorem refreshFingerprintMetadata_cases (call : RefreshCall) (rows : WorkspaceTable) :
    refreshFingerprintMetadata call rows = (rows, false) ∨
    ∃ reasons w, call.check call.firstClock rows = .stale reasons ∧
      metadataOnlyReasons reasons = true ∧ call.persisted rows = some w ∧
      refreshFingerprintMetadata call rows =
        (upsertWorkspaceState (refreshed call.current call.now w) rows,
          decide (call.check call.secondClock
            (upsertWorkspaceState (refreshed call.current call.now w) rows) = .fresh)) := by
  unfold refreshFingerprintMetadata
  cases hcheck : call.check call.firstClock rows with
  | stale reasons =>
    by_cases hmeta : metadataOnlyReasons reasons = true
    · cases hrow : call.persisted rows with
      | none => exact Or.inl (by simp [hmeta])
      | some w =>
        refine Or.inr ⟨reasons, w, rfl, hmeta, rfl, ?_⟩
        simp only [hmeta, if_true]
    · exact Or.inl (by simp [hmeta])
  | cold => exact Or.inl rfl
  | fresh => exact Or.inl rfl
  | unknown reasons => exact Or.inl rfl
  | rootMismatch => exact Or.inl rfl

theorem mem_listWorkspaceStates : w ∈ listWorkspaceStates rows ↔ w ∈ rows.rows :=
  (List.perm_insertionSort _ rows.rows).mem_iff

theorem find?_of_persisted {call : RefreshCall} (h : call.persisted rows = some w) :
    rows.find? w.rootPath = some w :=
  KeyedTable.find?_of_mem (mem_listWorkspaceStates.1 (List.mem_of_find?_eq_some h))

/-- The row a refresh has written: the old one with the live git fields. -/
theorem find?_upsert_refreshed (h : rows.find? w.rootPath = some w) (fp : WorkspaceFingerprint)
    (now root : String) :
    (upsertWorkspaceState (refreshed fp now w) rows).find? root =
      if w.rootPath = root then some (refreshed fp now w) else rows.find? root := by
  have hkey : (refreshed fp now w).rootPath = w.rootPath := rfl
  rw [find?_upsertWorkspaceState, hkey, h]
  rfl

/-- What a refresh may do to the table. -/
structure RefreshFrame (call : RefreshCall) (rows : WorkspaceTable) : Prop where
  /-- Nothing changes, or the git fields and the time of one row do; and then every stale reason
  concerned git metadata. -/
  frame : (refreshFingerprintMetadata call rows).1 = rows ∨
    ∃ reasons w, call.check call.firstClock rows = .stale reasons ∧ reasons ≠ [] ∧
      (∀ reason ∈ reasons, reason.isMetadata = true) ∧ rows.find? w.rootPath = some w ∧
      ∀ root, (refreshFingerprintMetadata call rows).1.find? root =
        if w.rootPath = root then some (refreshed call.current call.now w) else rows.find? root
  /-- After a success no check of the same fingerprint finds a stale reason. -/
  success : (refreshFingerprintMetadata call rows).2 = true → ∀ clock,
    call.check clock (refreshFingerprintMetadata call rows).1 = .fresh ∨
      call.check clock (refreshFingerprintMetadata call rows).1 = .unknown [.budgetExceeded]

theorem check_of_fresh {call : RefreshCall} {clock : Clock} (h : call.check clock rows = .fresh)
    (clock' : Clock) :
    call.check clock' rows = .fresh ∨ call.check clock' rows = .unknown [.budgetExceeded] := by
  obtain ⟨hin, w, hw⟩ := selected_of_checkWithOverrides h (Or.inl rfl)
  cases hin' : clock'.inCheck with
  | true =>
    refine Or.inr ?_
    simp only [RefreshCall.check, checkWithOverrides, hin', if_true]
  | false =>
    refine Or.inl ?_
    unfold RefreshCall.check at h ⊢
    rw [checkWithOverrides_of_selected call.overrides hin hw] at h
    rw [checkWithOverrides_of_selected call.overrides hin' hw]
    exact h

/-- **A refresh is a frame update.** -/
theorem refreshFrame (call : RefreshCall) (rows : WorkspaceTable) : RefreshFrame call rows := by
  rcases refreshFingerprintMetadata_cases call rows with hnone | ⟨reasons, w, hcheck, hmeta, hrow, hrun⟩
  · constructor
    · exact Or.inl (by rw [hnone])
    · intro htrue
      rw [hnone] at htrue
      cases htrue
  · constructor
    · have hw := find?_of_persisted hrow
      simp only [metadataOnlyReasons, Bool.and_eq_true, Bool.not_eq_true', List.isEmpty_eq_false_iff,
        List.all_eq_true] at hmeta
      refine Or.inr ⟨reasons, w, hcheck, hmeta.1, hmeta.2, hw, ?_⟩
      intro root
      rw [hrun]
      exact find?_upsert_refreshed hw call.current call.now root
    · intro htrue clock
      rw [hrun] at htrue ⊢
      exact check_of_fresh (of_decide_eq_true htrue) clock

theorem advanced_refresh (call : RefreshCall) (h : rows.find? root = some old) :
    ∃ new, (refreshFingerprintMetadata call rows).1.find? root = some new ∧ Advanced old new := by
  rcases refreshFingerprintMetadata_cases call rows with hnone | ⟨_, w, _, _, _, hrun⟩
  · rw [hnone]
    exact ⟨old, h, Advanced.of_eq rfl⟩
  · rw [hrun]
    exact advanced_upsert _ h

theorem advanced_apply (op : WorkspaceOp) (h : rows.find? root = some old) :
    ∃ new, (op.apply rows).find? root = some new ∧ Advanced old new := by
  cases op with
  | upsert w => exact advanced_upsert w h
  | bump bumped now =>
    cases hbump : bumpGeneration bumped now rows with
    | none =>
      refine ⟨old, ?_, Advanced.of_eq rfl⟩
      simpa [WorkspaceOp.apply, hbump] using h
    | some p =>
      obtain ⟨rows', generation⟩ := p
      simpa [WorkspaceOp.apply, hbump] using advanced_bumpGeneration h hbump
  | refresh call => exact advanced_refresh call h

theorem advanced_run (ops : List WorkspaceOp) (h : rows.find? root = some old) :
    ∃ new, (runWorkspace rows ops).find? root = some new ∧ Advanced old new := by
  induction ops generalizing rows old with
  | nil => exact ⟨old, h, Advanced.of_eq rfl⟩
  | cons op ops ih =>
    obtain ⟨mid, hmid, hstep⟩ := advanced_apply op h
    obtain ⟨new, hnew, hrun⟩ := ih hmid
    exact ⟨new, hnew, hstep.trans hrun⟩

/-! ### A refresh that succeeds -/

/-! ### All writers together -/

/-- **Generations are monotone and a refresh is a frame update.**  From any point of any sequence of
writes to any later one, no row is lost and no generation goes down; an upsert keeps the generation
of the row it overwrites; and every refresh keeps to its frame. -/
theorem generation_monotone_refresh_frame (rows : WorkspaceTable) (ops : List WorkspaceOp) :
    (∀ later root old, (runWorkspace rows ops).find? root = some old →
      ∃ new, (runWorkspace rows (ops ++ later)).find? root = some new ∧ Advanced old new) ∧
    (∀ w old, (runWorkspace rows ops).find? w.rootPath = some old →
      (upsertWorkspaceState w (runWorkspace rows ops)).find? w.rootPath =
        some { w with graphGeneration := old.graphGeneration }) ∧
    ∀ call, RefreshFrame call (runWorkspace rows ops) := by
  refine ⟨?_, ?_, ?_⟩
  · intro later root old h
    rw [runWorkspace, List.foldl_append]
    exact advanced_run later h
  · intro w old h
    rw [find?_upsertWorkspaceState, if_pos rfl, h]
  · intro call
    exact refreshFrame call _

/-- A row of `/repos/demo` with a given generation. -/
def demoRow (generation : ℕ) : WorkspaceState :=
  ⟨"/repos/demo", none, none, none, none, 15, "greppy-indexer-v4", generation, ""⟩

theorem generation_monotone_refresh_frame_demo :
    ((runWorkspace KeyedTable.empty [.upsert (demoRow 41)]).find? "/repos/demo" =
        some (demoRow 41)) ∧
      ∃ new, (runWorkspace KeyedTable.empty
          [.upsert (demoRow 41), .bump "/repos/demo" "", .upsert (demoRow 0)]).find? "/repos/demo" =
            some new ∧ Advanced (demoRow 41) new := by
  have hfind : (runWorkspace KeyedTable.empty [.upsert (demoRow 41)]).find? "/repos/demo" =
      some (demoRow 41) := by decide +kernel
  exact ⟨hfind, (generation_monotone_refresh_frame KeyedTable.empty [.upsert (demoRow 41)]).1
    [.bump "/repos/demo" "", .upsert (demoRow 0)] "/repos/demo" (demoRow 41) hfind⟩

/-- **A generation can go down**: the largest `u64` is `-1` in the database, and `0` after a bump. -/
theorem generation_wraps_around :
    (runWorkspace KeyedTable.empty [.upsert (demoRow (2 ^ 64 - 1))]).find? "/repos/demo" =
        some (demoRow (2 ^ 64 - 1)) ∧
    (runWorkspace KeyedTable.empty
      [.upsert (demoRow (2 ^ 64 - 1)), .bump "/repos/demo" ""]).find? "/repos/demo" =
        some (demoRow 0) ∧
    (demoRow 0).graphGeneration < (demoRow (2 ^ 64 - 1)).graphGeneration := by
  decide +kernel

end Greppy
