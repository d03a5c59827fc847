/-
**The cache's garbage collector.**

`gc_locked` (`crates/core/src/cache.rs`) scans the managed entries, sorts them by last use and makes
two passes.  The first removes what has expired: entries that were not used for longer than the time
to live, and stores whose workspace has been gone for more than a day.  If more than the high-water
mark remains, the second removes the least recently used entries until at most the low-water mark
does.  The store of the current workspace is left alone, and an entry whose lease is held elsewhere is
skipped; it frees nothing, so the second pass goes on past it.  A high-water mark of 0 means that
there is no quota.

A dry run makes the same decisions and only reports them.  A real run also marks the stores whose
workspace has just disappeared, which makes a difference a day later and not in the same run.
-/

import Greppy.CacheManifest
import Greppy.WaterMark
import Mathlib.Data.List.Sort

set_option autoImplicit false

namespace Greppy

/-! ### The collector -/

/-- `GcPolicy`, less the interval between two runs. -/
structure GcPolicy where
  ttl : Duration
  highWaterBytes : ℕ
  lowWaterBytes : ℕ

structure GcReport where
  scannedBytes : ℕ
  removedBytes : ℕ
  lockedBytes : ℕ
  removed : List String
  skippedLocked : List String
  dryRun : Bool
  deriving DecidableEq

/-- What the collector finds when it acts: the leases held elsewhere, by kind and id, and the paths
that can be moved to the trash and deleted there. -/
structure GcEnv where
  locked : ManagedKind → String → Bool
  moves : String → Bool
  deletes : String → Bool

/-- `a.saturating_add(b)` on a `u64`. -/
def u64SaturatingAdd (a b : ℕ) : ℕ := min (a + b) (2 ^ 64 - 1)

/-- The lease of the entry is held elsewhere. -/
def GcEnv.isLocked (env : GcEnv) (e : ManagedEntry) : Bool := env.locked e.kind e.id

def GcReport.reclaim (r : GcReport) (e : ManagedEntry) : GcReport :=
  { r with removedBytes := u64SaturatingAdd r.removedBytes e.bytes, removed := r.removed ++ [e.path] }

def GcReport.skip (r : GcReport) (e : ManagedEntry) : GcReport :=
  { r with
    lockedBytes := u64SaturatingAdd r.lockedBytes e.bytes
    skippedLocked := r.skippedLocked ++ [e.path] }

/-- `remove_managed_entry`: the report, and whether the bytes are gone. -/
def removeManagedEntry (env : GcEnv) (dryRun : Bool) (e : ManagedEntry) (r : GcReport) :
    CacheResult (GcReport × Bool) :=
  if env.isLocked e then .ok (r.skip e, false)
  else if dryRun then .ok (r.reclaim e, true)
  else if env.moves e.path then
    if env.deletes e.path then .ok (r.reclaim e, true) else .ok (r, false)
  else .error "rename failed"

/-- The state of a run: the report so far and the bytes that remain. -/
structure GcProgress where
  report : GcReport
  remaining : ℕ

def removeCounted (env : GcEnv) (dryRun : Bool) (e : ManagedEntry) (s : GcProgress) :
    CacheResult GcProgress := do
  let (report, removed) ← removeManagedEntry env dryRun e s.report
  .ok ⟨report, if removed then s.remaining - e.bytes else s.remaining⟩

/-- `ORPHAN_GRACE_SECS`, in nanoseconds. -/
def orphanGraceNs : ℕ := 24 * 60 * 60 * 10 ^ 9

/-- The entry has not been used for longer than the time to live, if there is one. -/
def ttlExpired (policy : GcPolicy) (now : SystemTime) (e : ManagedEntry) : Bool :=
  let age := (now.since e.lastUsed).getD noTime
  decide (0 < policy.ttl.ns ∧ policy.ttl.ns < age.ns)

/-- The entry's workspace has been gone for longer than the grace period. -/
def orphanExpired (now : SystemTime) (e : ManagedEntry) : Bool :=
  (e.orphanedSince.bind now.since).any fun age => decide (orphanGraceNs < age.ns)

/-- The entry is the current workspace's store. -/
def isCurrent (current : Option String) (e : ManagedEntry) : Bool := decide (current = some e.id)

/-- What the first pass tries to remove. -/
def due (policy : GcPolicy) (current : Option String) (now : SystemTime) (e : ManagedEntry) : Bool :=
  !isCurrent current e && (ttlExpired policy now e || orphanExpired now e)

section Passes

variable (env : GcEnv) (policy : GcPolicy) (dryRun : Bool) (current : Option String)
  (now : SystemTime)

/-- The first pass, with the mask of the entries it has processed. -/
def expiryPass : List ManagedEntry → GcProgress → CacheResult (GcProgress × List Bool)
  | [], s => .ok (s, [])
  | e :: rest, s =>
    if isCurrent current e then do
      let (s, processed) ← expiryPass rest s
      .ok (s, false :: processed)
    else if ttlExpired policy now e || orphanExpired now e then do
      let s ← removeCounted env dryRun e s
      let (s, processed) ← expiryPass rest s
      .ok (s, true :: processed)
    else do
      let (s, processed) ← expiryPass rest s
      .ok (s, false :: processed)

/-- The second pass, over the entries with that mask. -/
def quotaPass : List (ManagedEntry × Bool) → GcProgress → CacheResult GcProgress
  | [], s => .ok s
  | (e, processed) :: rest, s =>
    if s.remaining ≤ policy.lowWaterBytes then .ok s
    else if processed || isCurrent current e then quotaPass rest s
    else do
      let s ← removeCounted env dryRun e s
      quotaPass rest s

/-- `entries.sort_by_key(|e| e.last_used)`. -/
def byLastUse (entries : List ManagedEntry) : List ManagedEntry :=
  entries.insertionSort fun a b => a.lastUsed.ns ≤ b.lastUsed.ns

def bytesOf (entries : List ManagedEntry) : ℕ := totalWeight ManagedEntry.bytes entries

/-- `gc_locked` after the scan; the sum of the sizes wraps around. -/
def gcEntries (scanned : List ManagedEntry) : CacheResult GcReport := do
  let entries := byLastUse scanned
  let remaining := bytesOf entries % 2 ^ 64
  let (s, processed) ← expiryPass env policy dryRun current now entries
    ⟨⟨remaining, 0, 0, [], [], dryRun⟩, remaining⟩
  if 0 < policy.highWaterBytes ∧ policy.highWaterBytes < s.remaining then do
    let s ← quotaPass env policy dryRun current (entries.zip processed) s
    .ok s.report
  else .ok s.report

end Passes

/-- When a run scans and when it decides: the scan takes less than a day. -/
structure GcClock where
  scan : SystemTime
  now : SystemTime
  quick : now.ns - scan.ns < (orphanGraceNs : ℤ) - 10 ^ 9

/-- The entries of a scan: the managed workspace stores and the models. -/
def scanEntries (workspaceHash : Bytes → String) (rootExists : Bytes → Bool) (markNewOrphans : Bool)
    (now : SystemTime) (stores : List StoreDir) (models : List ManagedEntry) :
    CacheResult (List ManagedEntry) := do
  let found ← scanWorkspaces ⟨workspaceHash, rootExists, markNewOrphans, now⟩ stores
  .ok (found.filterMap Sum.getLeft? ++ models)

/-- `gc_locked`; a real run marks new orphans. -/
def gcLocked (workspaceHash : Bytes → String) (rootExists : Bytes → Bool) (env : GcEnv)
    (policy : GcPolicy) (dryRun : Bool) (current : Option String) (clock : GcClock)
    (stores : List StoreDir) (models : List ManagedEntry) : CacheResult GcReport := do
  let entries ← scanEntries workspaceHash rootExists (!dryRun) clock.scan stores models
  gcEntries env policy dryRun current clock.now entries

/-! ### Passes in closed form -/

section ClosedForm

variable {env : GcEnv} {policy : GcPolicy} {dryRun : Bool} {current : Option String}
  {now : SystemTime}

/-- The state after an entry has been tried. -/
def touched (env : GcEnv) (s : GcProgress) (e : ManagedEntry) : GcProgress :=
  if env.isLocked e then ⟨s.report.skip e, s.remaining⟩
  else ⟨s.report.reclaim e, s.remaining - e.bytes⟩

/-- Removing an entry works out: it can be moved to the trash and deleted there. -/
def Removable (env : GcEnv) (e : ManagedEntry) : Prop :=
  env.isLocked e = false → env.moves e.path = true ∧ env.deletes e.path = true

theorem removeCounted_eq {e : ManagedEntry} (h : Removable env e) (s : GcProgress) :
    removeCounted env dryRun e s = .ok (touched env s e) := by
  unfold removeCounted removeManagedEntry touched
  cases hlocked : env.isLocked e with
  | true => rfl
  | false =>
    obtain ⟨hmoves, hdeletes⟩ := h hlocked
    cases dryRun with
    | true => rfl
    | false =>
      rw [hmoves, hdeletes]
      rfl

theorem expiryPass_eq (es : List ManagedEntry) (h : ∀ e ∈ es, Removable env e) (s : GcProgress) :
    expiryPass env policy dryRun current now es s =
      .ok ((es.filter (due policy current now)).foldl (touched env) s,
        es.map (due policy current now)) := by
  induction es generalizing s with
  | nil => rfl
  | cons e rest ih =>
    have ih := ih fun e he => h e (List.mem_cons_of_mem _ he)
    rw [expiryPass]
    cases hcur : isCurrent current e with
    | true =>
      have hdue : due policy current now e = false := by simp [due, hcur]
      rw [if_pos rfl, ih, List.filter_cons_of_neg (by simp [hdue]), List.map_cons, hdue]
      rfl
    | false =>
      rw [if_neg (by decide)]
      cases hexp : ttlExpired policy now e || orphanExpired now e with
      | true =>
        have hdue : due policy current now e = true := by simp [due, hcur, hexp]
        rw [if_pos rfl, removeCounted_eq (h e List.mem_cons_self), Outcome.bind_ok, ih,
          List.filter_cons_of_pos hdue, List.map_cons, hdue]
        rfl
      | false =>
        have hdue : due policy current now e = false := by simp [due, hcur, hexp]
        rw [if_neg (by decide), ih, List.filter_cons_of_neg (by simp [hdue]), List.map_cons,
          hdue]
        rfl

/-- What the second pass goes through: what is neither due nor current. -/
def pending (policy : GcPolicy) (current : Option String) (now : SystemTime) (e : ManagedEntry) :
    Bool :=
  !due policy current now e && !isCurrent current e

/-- The bytes that trying an entry frees. -/
def freed (env : GcEnv) (e : ManagedEntry) : ℕ := if !env.isLocked e then e.bytes else 0

theorem remaining_touched (s : GcProgress) (e : ManagedEntry) :
    (touched env s e).remaining = s.remaining - freed env e := by
  unfold touched freed
  cases env.isLocked e with
  | true => rfl
  | false => rfl

theorem quotaPass_eq (es : List ManagedEntry) (h : ∀ e ∈ es, Removable env e) (s : GcProgress) :
    quotaPass env policy dryRun current (es.zip (es.map (due policy current now))) s =
      .ok ((reclaim (freed env) policy.lowWaterBytes s.remaining
        (es.filter (pending policy current now))).foldl (touched env) s) := by
  induction es generalizing s with
  | nil => rfl
  | cons e rest ih =>
    have ih := ih fun e he => h e (List.mem_cons_of_mem _ he)
    rw [List.map_cons, List.zip_cons_cons, quotaPass]
    by_cases hlow : s.remaining ≤ policy.lowWaterBytes
    · rw [if_pos hlow]
      cases List.filter (pending policy current now) (e :: rest) with
      | nil => rfl
      | cons e' rest' => rw [reclaim, if_pos hlow]; rfl
    · rw [if_neg hlow]
      cases hskip : due policy current now e || isCurrent current e with
      | true =>
        have hpending : pending policy current now e = false := by
          rw [pending, ← Bool.not_or, hskip]
          rfl
        rw [if_pos rfl, ih, List.filter_cons_of_neg (by simp [hpending])]
      | false =>
        have hpending : pending policy current now e = true := by
          rw [pending, ← Bool.not_or, hskip]
          rfl
        rw [if_neg (by decide), removeCounted_eq (h e List.mem_cons_self), Outcome.bind_ok, ih,
          List.filter_cons_of_pos hpending, reclaim, if_neg hlow, remaining_touched]
        rfl

/-- What trying some entries one after the other makes of the report. -/
structure Tried (env : GcEnv) (l : List ManagedEntry) (s s' : GcProgress) : Prop where
  removed : s'.report.removed =
    s.report.removed ++ (l.filter fun e => !env.isLocked e).map ManagedEntry.path
  removedBytes : s'.report.removedBytes =
    s.report.removedBytes + bytesOf (l.filter fun e => !env.isLocked e)
  scannedBytes : s'.report.scannedBytes = s.report.scannedBytes
  remaining : s'.remaining = s.remaining - bytesOf (l.filter fun e => !env.isLocked e)

theorem bytesOf_cons (e : ManagedEntry) (l : List ManagedEntry) :
    bytesOf (e :: l) = e.bytes + bytesOf l :=
  totalWeight_cons _ _ _

theorem tried_foldl (l : List ManagedEntry) (s : GcProgress)
    (h : s.report.removedBytes + bytesOf (l.filter fun e => !env.isLocked e) < 2 ^ 64) :
    Tried env l s (l.foldl (touched env) s) := by
  induction l generalizing s with
  | nil =>
    refine ⟨?_, rfl, rfl, rfl⟩
    rw [List.filter_nil, List.map_nil, List.append_nil]
    rfl
  | cons e rest ih =>
    rw [List.foldl_cons]
    cases hlocked : env.isLocked e with
    | true =>
      rw [List.filter_cons_of_neg (by simp [hlocked])] at h
      have htouched : touched env s e = ⟨s.report.skip e, s.remaining⟩ := by
        rw [touched, if_pos hlocked]
      have ih := ih (touched env s e) (by rw [htouched]; exact h)
      rw [htouched] at ih ⊢
      refine ⟨?_, ?_, ?_, ?_⟩
      · rw [ih.removed, List.filter_cons_of_neg (by simp [hlocked])]
        rfl
      · rw [ih.removedBytes, List.filter_cons_of_neg (by simp [hlocked])]
        rfl
      · rw [ih.scannedBytes]
        rfl
      · rw [ih.remaining, List.filter_cons_of_neg (by simp [hlocked])]
    | false =>
      rw [List.filter_cons_of_pos (by simp [hlocked]), bytesOf_cons] at h
      have htouched : touched env s e = ⟨s.report.reclaim e, s.remaining - e.bytes⟩ := by
        rw [touched, if_neg (by simp [hlocked])]
      have hbytes : (s.report.reclaim e).removedBytes = s.report.removedBytes + e.bytes := by
        simp only [GcReport.reclaim, u64SaturatingAdd]
        omega
      have ih := ih (touched env s e) (by rw [htouched, hbytes]; omega)
      rw [htouched] at ih ⊢
      refine ⟨?_, ?_, ?_, ?_⟩
      · rw [ih.removed, List.filter_cons_of_pos (by simp [hlocked]), List.map_cons,
          GcReport.reclaim, List.append_assoc, List.singleton_append]
      · rw [ih.removedBytes, hbytes, List.filter_cons_of_pos (by simp [hlocked]), bytesOf_cons]
        omega
      · rw [ih.scannedBytes]
        rfl
      · rw [ih.remaining, List.filter_cons_of_pos (by simp [hlocked]), bytesOf_cons]
        exact Nat.sub_sub _ _ _

/-! ### A run in closed form -/

variable (env policy current now)

/-- What the first pass removes: what is due and not locked. -/
def dueUnlocked (es : List ManagedEntry) : List ManagedEntry :=
  (es.filter (due policy current now)).filter fun e => !env.isLocked e

/-- What the second pass may remove, least recently used first: what is neither due nor current nor
locked. -/
def candidates (es : List ManagedEntry) : List ManagedEntry :=
  (es.filter (pending policy current now)).filter fun e => !env.isLocked e

/-- The bytes that the first pass leaves. -/
def bytesAfterExpiry (es : List ManagedEntry) : ℕ :=
  bytesOf es - bytesOf (dueUnlocked env policy current now es)

def furtherRemoved (es : List ManagedEntry) : List ManagedEntry :=
  if 0 < policy.highWaterBytes ∧
      policy.highWaterBytes < bytesAfterExpiry env policy current now es then
    reclaim ManagedEntry.bytes policy.lowWaterBytes (bytesAfterExpiry env policy current now es)
      (candidates env policy current now es)
  else []

/-- Everything a run removes, in the order in which it does. -/
def removedEntries (es : List ManagedEntry) : List ManagedEntry :=
  dueUnlocked env policy current now es ++ furtherRemoved env policy current now es

theorem bytesOf_due_add_candidates_le (es : List ManagedEntry) :
    bytesOf (dueUnlocked env policy current now es) +
      bytesOf (candidates env policy current now es) ≤ bytesOf es := by
  unfold dueUnlocked candidates
  rw [List.filter_filter, List.filter_filter]
  apply totalWeight_filter_add_le
  intro e _ hdue
  rw [Bool.and_eq_true] at hdue
  simp [pending, hdue.2]

theorem furtherRemoved_first (es : List ManagedEntry) :
    furtherRemoved env policy current now es <+: candidates env policy current now es := by
  unfold furtherRemoved
  split
  · exact reclaim_prefix _ _
  · exact List.nil_prefix

theorem bytesOf_removedEntries (es : List ManagedEntry) :
    bytesOf (removedEntries env policy current now es) =
      bytesOf (dueUnlocked env policy current now es) +
        bytesOf (furtherRemoved env policy current now es) :=
  totalWeight_append _ _ _

theorem bytesOf_removedEntries_le (es : List ManagedEntry) :
    bytesOf (removedEntries env policy current now es) ≤ bytesOf es := by
  have hprefix : bytesOf (furtherRemoved env policy current now es) ≤
      bytesOf (candidates env policy current now es) :=
    totalWeight_prefix_le ManagedEntry.bytes (furtherRemoved_first env policy current now es)
  have hsum := bytesOf_due_add_candidates_le env policy current now es
  rw [bytesOf_removedEntries]
  omega

theorem bytesOf_byLastUse (scanned : List ManagedEntry) :
    bytesOf (byLastUse scanned) = bytesOf scanned :=
  totalWeight_perm _ (List.perm_insertionSort _ scanned)

theorem mem_byLastUse {scanned : List ManagedEntry} {e : ManagedEntry} :
    e ∈ byLastUse scanned ↔ e ∈ scanned :=
  (List.perm_insertionSort _ scanned).mem_iff

variable {env policy current now}

/-- **The report of a run.** -/
theorem gcEntries_eq {scanned : List ManagedEntry} (h : ∀ e ∈ scanned, Removable env e)
    (hfit : bytesOf scanned < 2 ^ 64) (dryRun : Bool) :
    ∃ report, gcEntries env policy dryRun current now scanned = .ok report ∧
      report.removed = (removedEntries env policy current now (byLastUse scanned)).map
        ManagedEntry.path ∧
      report.removedBytes = bytesOf (removedEntries env policy current now (byLastUse scanned)) ∧
      report.scannedBytes = bytesOf scanned := by
  have hrem : ∀ e ∈ byLastUse scanned, Removable env e := fun e he => h e (mem_byLastUse.1 he)
  have htotal : bytesOf (byLastUse scanned) % 2 ^ 64 = bytesOf (byLastUse scanned) := by
    rw [bytesOf_byLastUse]
    exact Nat.mod_eq_of_lt hfit
  have hle := bytesOf_removedEntries_le env policy current now (byLastUse scanned)
  rw [bytesOf_removedEntries] at hle
  have hbytes := bytesOf_byLastUse scanned
  simp only [gcEntries, htotal, expiryPass_eq _ hrem, Outcome.bind_ok]
  -- the first pass
  have hfirst := @tried_foldl env ((byLastUse scanned).filter (due policy current now))
    ⟨⟨bytesOf (byLastUse scanned), 0, 0, [], [], dryRun⟩, bytesOf (byLastUse scanned)⟩
    (by change 0 + bytesOf (dueUnlocked env policy current now (byLastUse scanned)) < 2 ^ 64; omega)
  generalize ((byLastUse scanned).filter (due policy current now)).foldl (touched env)
    ⟨⟨bytesOf (byLastUse scanned), 0, 0, [], [], dryRun⟩, bytesOf (byLastUse scanned)⟩ = s
    at hfirst ⊢
  have hremaining : s.remaining = bytesAfterExpiry env policy current now (byLastUse scanned) :=
    hfirst.remaining
  have hremovedBytes : s.report.removedBytes =
      bytesOf (dueUnlocked env policy current now (byLastUse scanned)) := by
    rw [hfirst.removedBytes]
    exact Nat.zero_add _
  have hremoved : s.report.removed =
      (dueUnlocked env policy current now (byLastUse scanned)).map ManagedEntry.path := by
    rw [hfirst.removed]
    exact List.nil_append _
  rw [bytesOf_removedEntries, removedEntries, List.map_append]
  by_cases hquota : 0 < policy.highWaterBytes ∧ policy.highWaterBytes < s.remaining
  · -- the second pass
    have hfurther : (reclaim (freed env) policy.lowWaterBytes s.remaining
        ((byLastUse scanned).filter (pending policy current now))).filter
          (fun e => !env.isLocked e) = furtherRemoved env policy current now (byLastUse scanned) := by
      rw [furtherRemoved, if_pos (hremaining ▸ hquota), ← hremaining]
      exact filter_reclaim _ _ _
    have hsecond := @tried_foldl env (reclaim (freed env) policy.lowWaterBytes s.remaining
      ((byLastUse scanned).filter (pending policy current now))) s
      (by rw [hfurther, hremovedBytes]; omega)
    refine ⟨_, by rw [if_pos hquota, quotaPass_eq _ hrem, Outcome.bind_ok], ?_, ?_, ?_⟩
    · rw [hsecond.removed, hfurther, hremoved]
    · rw [hsecond.removedBytes, hfurther, hremovedBytes]
    · rw [hsecond.scannedBytes, hfirst.scannedBytes]
      exact hbytes
  · have hfurther : furtherRemoved env policy current now (byLastUse scanned) = [] := by
      rw [furtherRemoved, if_neg (hremaining ▸ hquota)]
    refine ⟨s.report, by rw [if_neg hquota], ?_, ?_, ?_⟩
    · rw [hfurther, hremoved, List.map_nil, List.append_nil]
    · rw [hfurther, hremovedBytes]
      rfl
    · rw [hfirst.scannedBytes]
      exact hbytes

end ClosedForm

/-! ### What a run does -/

section Spec

variable (env : GcEnv) (policy : GcPolicy) (current : Option String) (now : SystemTime)

def survivors (entries : List ManagedEntry) (report : GcReport) : List ManagedEntry :=
  entries.filter fun e => decide (e.path ∉ report.removed)

/-- What a run of the collector over some entries does. -/
structure GcSpec (entries : List ManagedEntry) (report : GcReport) : Prop where
  /-- Only entries are removed, none that is locked or current. -/
  safe : ∀ path ∈ report.removed, ∃ e ∈ entries, e.path = path ∧ env.isLocked e = false ∧
    isCurrent current e = false
  /-- Every entry that has expired is removed, unless it is locked or current. -/
  expired : ∀ e ∈ entries, env.isLocked e = false → isCurrent current e = false →
    (ttlExpired policy now e = true ∨ orphanExpired now e = true) → e.path ∈ report.removed
  /-- After the expired entries, further ones are removed only above the high-water mark: the least
  recently used of those that may be, no more than it takes to reach the low-water mark, and fewer
  only if there are no more. -/
  quota : ∃ further, report.removed =
      (dueUnlocked env policy current now (byLastUse entries)).map ManagedEntry.path ++
        further.map ManagedEntry.path ∧
    (further ≠ [] → 0 < policy.highWaterBytes ∧
      policy.highWaterBytes < bytesAfterExpiry env policy current now (byLastUse entries)) ∧
    further <+: candidates env policy current now (byLastUse entries) ∧
    (∀ given, given <+: further → given ≠ further → policy.lowWaterBytes <
      bytesAfterExpiry env policy current now (byLastUse entries) - bytesOf given) ∧
    (0 < policy.highWaterBytes → policy.highWaterBytes <
        bytesAfterExpiry env policy current now (byLastUse entries) →
      bytesOf (survivors entries report) ≤ policy.lowWaterBytes ∨
        further = candidates env policy current now (byLastUse entries))
  /-- Those that may be removed are in the order of their last use. -/
  leastRecent : (candidates env policy current now (byLastUse entries)).Pairwise
    fun a b => a.lastUsed.ns ≤ b.lastUsed.ns
  /-- With a quota, what is left is within it or cannot be removed. -/
  within : 0 < policy.highWaterBytes → policy.lowWaterBytes ≤ policy.highWaterBytes →
    bytesOf (survivors entries report) ≤ policy.highWaterBytes ∨
      ∀ e ∈ survivors entries report, env.isLocked e = true ∨ isCurrent current e = true
  /-- What was removed and what is left is what was scanned. -/
  accounts : report.removedBytes + bytesOf (survivors entries report) = report.scannedBytes ∧
    report.scannedBytes = bytesOf entries

variable {env policy current now}

theorem candidates_sorted (entries : List ManagedEntry) :
    (candidates env policy current now (byLastUse entries)).Pairwise
      fun a b => a.lastUsed.ns ≤ b.lastUsed.ns := by
  have htotal : ∀ a b : ManagedEntry, a.lastUsed.ns ≤ b.lastUsed.ns ∨ b.lastUsed.ns ≤ a.lastUsed.ns :=
    fun a b => le_total _ _
  have htrans : ∀ a b c : ManagedEntry, a.lastUsed.ns ≤ b.lastUsed.ns →
      b.lastUsed.ns ≤ c.lastUsed.ns → a.lastUsed.ns ≤ c.lastUsed.ns := fun a b c => le_trans
  have hsorted : (byLastUse entries).Pairwise fun a b => a.lastUsed.ns ≤ b.lastUsed.ns := by
    have : Std.Total fun a b : ManagedEntry => a.lastUsed.ns ≤ b.lastUsed.ns := ⟨htotal⟩
    have : IsTrans ManagedEntry fun a b => a.lastUsed.ns ≤ b.lastUsed.ns := ⟨htrans⟩
    exact List.pairwise_insertionSort _ entries
  exact (hsorted.filter _).filter _

variable {es : List ManagedEntry} {e : ManagedEntry}

theorem mem_dueUnlocked :
    e ∈ dueUnlocked env policy current now es ↔
      e ∈ es ∧ due policy current now e = true ∧ env.isLocked e = false := by
  simp only [dueUnlocked, List.mem_filter, Bool.not_eq_true', and_assoc]

theorem mem_candidates :
    e ∈ candidates env policy current now es ↔
      e ∈ es ∧ pending policy current now e = true ∧ env.isLocked e = false := by
  simp only [candidates, List.mem_filter, Bool.not_eq_true', and_assoc]

theorem mem_removedEntries (h : e ∈ removedEntries env policy current now es) :
    e ∈ es ∧ env.isLocked e = false ∧ isCurrent current e = false := by
  rcases List.mem_append.1 h with hdue | hfurther
  · obtain ⟨hmem, hdue, hlocked⟩ := mem_dueUnlocked.1 hdue
    simp only [due, Bool.and_eq_true, Bool.not_eq_true'] at hdue
    exact ⟨hmem, hlocked, hdue.1⟩
  · obtain ⟨hmem, hpending, hlocked⟩ :=
      mem_candidates.1 ((furtherRemoved_first env policy current now es).subset hfurther)
    simp only [pending, Bool.and_eq_true, Bool.not_eq_true'] at hpending
    exact ⟨hmem, hlocked, hpending.2⟩

theorem nodup_removedEntries (h : es.Nodup) : (removedEntries env policy current now es).Nodup := by
  refine List.nodup_append.2 ⟨(h.filter _).filter _, ?_, ?_⟩
  · exact (furtherRemoved_first env policy current now es).sublist.nodup ((h.filter _).filter _)
  · rintro a ha b hb rfl
    obtain ⟨_, hdue, _⟩ := mem_dueUnlocked.1 ha
    obtain ⟨_, hpending, _⟩ :=
      mem_candidates.1 ((furtherRemoved_first env policy current now es).subset hb)
    simp [pending, hdue] at hpending

theorem bytesOf_survivors {entries removed : List ManagedEntry} {report : GcReport}
    (hpaths : (entries.map ManagedEntry.path).Nodup) (hremoved : removed.Nodup)
    (hsub : ∀ e ∈ removed, e ∈ entries)
    (hreport : report.removed = removed.map ManagedEntry.path) :
    (∀ e, e ∈ survivors entries report ↔ e ∈ entries ∧ e ∉ removed) ∧
      bytesOf removed + bytesOf (survivors entries report) = bytesOf entries := by
  have hmem : ∀ e ∈ entries, e.path ∈ report.removed ↔ e ∈ removed := by
    intro e he
    rw [hreport, List.mem_map]
    constructor
    · rintro ⟨e', he', hpath⟩
      rwa [← List.inj_on_of_nodup_map hpaths (hsub e' he') he hpath]
    · intro he'
      exact ⟨e, he', rfl⟩
  have hgone : removed.Perm (entries.filter fun e => decide (e.path ∈ report.removed)) := by
    refine (List.perm_ext_iff_of_nodup hremoved (hpaths.of_map.filter _)).2 fun e => ?_
    rw [List.mem_filter, decide_eq_true_eq]
    constructor
    · intro he
      exact ⟨hsub e he, (hmem e (hsub e he)).2 he⟩
    · rintro ⟨he, hpath⟩
      exact (hmem e he).1 hpath
  constructor
  · intro e
    rw [survivors, List.mem_filter, decide_eq_true_eq]
    constructor
    · rintro ⟨he, hpath⟩
      exact ⟨he, fun hin => hpath ((hmem e he).2 hin)⟩
    · rintro ⟨he, hout⟩
      exact ⟨he, fun hpath => hout ((hmem e he).1 hpath)⟩
  · have hsum := totalWeight_filter_add ManagedEntry.bytes
      (fun e => decide (e.path ∈ report.removed)) entries
    rw [← totalWeight_perm ManagedEntry.bytes hgone] at hsum
    simpa [bytesOf, survivors] using hsum

/-- **Every run meets its specification.** -/
theorem gcSpec_of_closedForm {entries : List ManagedEntry} {report : GcReport}
    (hpaths : (entries.map ManagedEntry.path).Nodup)
    (hremoved : report.removed =
      (removedEntries env policy current now (byLastUse entries)).map ManagedEntry.path)
    (hbytes : report.removedBytes = bytesOf (removedEntries env policy current now (byLastUse entries)))
    (hscanned : report.scannedBytes = bytesOf entries) :
    GcSpec env policy current now entries report := by
  have hnodup : (byLastUse entries).Nodup :=
    (List.perm_insertionSort _ entries).nodup_iff.2 hpaths.of_map
  have hsub : ∀ e ∈ removedEntries env policy current now (byLastUse entries), e ∈ entries :=
    fun e he => mem_byLastUse.1 (mem_removedEntries he).1
  obtain ⟨hsurvive, hsum⟩ :=
    bytesOf_survivors hpaths (nodup_removedEntries hnodup) hsub hremoved
  have hleft : bytesOf (survivors entries report) =
      bytesAfterExpiry env policy current now (byLastUse entries) -
        bytesOf (furtherRemoved env policy current now (byLastUse entries)) := by
    rw [bytesOf_removedEntries] at hsum
    rw [bytesAfterExpiry, bytesOf_byLastUse]
    omega
  constructor
  · intro path hpath
    rw [hremoved] at hpath
    obtain ⟨e, he, rfl⟩ := List.mem_map.1 hpath
    obtain ⟨hmem, hlocked, hcurrent⟩ := mem_removedEntries he
    exact ⟨e, mem_byLastUse.1 hmem, rfl, hlocked, hcurrent⟩
  · intro e he hlocked hcurrent hexpired
    rw [hremoved]
    refine List.mem_map_of_mem (List.mem_append_left _ (mem_dueUnlocked.2 ?_))
    refine ⟨mem_byLastUse.2 he, ?_, hlocked⟩
    rcases hexpired with h | h
    · simp [due, hcurrent, h]
    · simp [due, hcurrent, h]
  · refine ⟨furtherRemoved env policy current now (byLastUse entries), ?_, ?_,
      furtherRemoved_first env policy current now _, ?_, ?_⟩
    · rw [hremoved, removedEntries, List.map_append]
    · intro hne
      unfold furtherRemoved at hne
      split at hne
      · assumption
      · exact absurd rfl hne
    · intro given hgiven hne
      unfold furtherRemoved at hgiven hne
      split at hgiven
      · rename_i hquota
        rw [if_pos hquota] at hne
        exact lt_of_proper_prefix_reclaim hgiven hne
      · rename_i hquota
        rw [if_neg hquota] at hne
        exact absurd (List.prefix_nil.1 hgiven) hne
    · intro hhigh hover
      rw [hleft, furtherRemoved, if_pos ⟨hhigh, hover⟩]
      exact reclaim_reaches _ _
  · exact candidates_sorted entries
  · intro hhigh hle
    by_cases hover : policy.highWaterBytes <
        bytesAfterExpiry env policy current now (byLastUse entries)
    · have hfurther : furtherRemoved env policy current now (byLastUse entries) =
          reclaim ManagedEntry.bytes policy.lowWaterBytes
            (bytesAfterExpiry env policy current now (byLastUse entries))
            (candidates env policy current now (byLastUse entries)) := by
        rw [furtherRemoved, if_pos ⟨hhigh, hover⟩]
      have hreach : bytesAfterExpiry env policy current now (byLastUse entries) -
          bytesOf (furtherRemoved env policy current now (byLastUse entries)) ≤
            policy.lowWaterBytes ∨ furtherRemoved env policy current now (byLastUse entries) =
              candidates env policy current now (byLastUse entries) := by
        rw [hfurther]
        exact reclaim_reaches _ _
      rcases hreach with hlow | hall
      · exact Or.inl (by omega)
      · -- everything that may be removed is
        refine Or.inr fun e he => ?_
        obtain ⟨hmem, hout⟩ := (hsurvive e).1 he
        cases hlocked : env.isLocked e with
        | true => exact Or.inl rfl
        | false =>
          cases hcurrent : isCurrent current e with
          | true => exact Or.inr rfl
          | false =>
            refine absurd (List.mem_append.2 ?_) hout
            cases hdue : due policy current now e with
            | true => exact Or.inl (mem_dueUnlocked.2 ⟨mem_byLastUse.2 hmem, hdue, hlocked⟩)
            | false =>
              rw [hall]
              refine Or.inr (mem_candidates.2 ⟨mem_byLastUse.2 hmem, ?_, hlocked⟩)
              simp [pending, hdue, hcurrent]
    · refine Or.inl ?_
      rw [hleft]
      omega
  · refine ⟨?_, hscanned⟩
    rw [hbytes, hsum, hscanned]

end Spec

/-! ### The dry run on the same state -/

section DryRun

variable {workspaceHash : Bytes → String} {rootExists : Bytes → Bool} {env : GcEnv}
  {policy : GcPolicy} {current : Option String} {now : SystemTime}

/-- An entry without an orphan mark that decides nothing. -/
def forgetMark (now : SystemTime) (e : ManagedEntry) : ManagedEntry :=
  { e with orphanedSince := if orphanExpired now e then e.orphanedSince else none }

variable {e : ManagedEntry} {clock : GcClock} {d : StoreDir}

theorem forgetMark_of_not_expired (h : orphanExpired now e = false) :
    forgetMark now e = { e with orphanedSince := none } := by
  rw [forgetMark, h]
  rfl

theorem orphanExpired_of_none (h : e.orphanedSince = none) : orphanExpired now e = false := by
  rw [orphanExpired, h]
  rfl

theorem orphanExpired_forgetMark (now : SystemTime) (e : ManagedEntry) :
    orphanExpired now (forgetMark now e) = orphanExpired now e := by
  unfold forgetMark
  cases h : orphanExpired now e with
  | true => simpa using h
  | false => rfl

theorem due_forgetMark (now : SystemTime) (e : ManagedEntry) :
    due policy current now (forgetMark now e) = due policy current now e := by
  unfold due
  rw [orphanExpired_forgetMark]
  rfl

theorem pending_forgetMark (now : SystemTime) (e : ManagedEntry) :
    pending policy current now (forgetMark now e) = pending policy current now e := by
  unfold pending
  rw [due_forgetMark]
  rfl

theorem byLastUse_forgetMark (now : SystemTime) (l : List ManagedEntry) :
    byLastUse (l.map (forgetMark now)) = (byLastUse l).map (forgetMark now) := by
  unfold byLastUse
  exact (List.map_insertionSort _ _ (forgetMark now) l fun a _ b _ => Iff.rfl).symm

theorem filter_map_forgetMark {p : ManagedEntry → Bool} (hp : ∀ e, p (forgetMark now e) = p e)
    (l : List ManagedEntry) :
    (l.map (forgetMark now)).filter p = (l.filter p).map (forgetMark now) := by
  rw [List.filter_map]
  congr 1
  exact List.filter_congr fun e _ => hp e

theorem bytesOf_map_forgetMark (l : List ManagedEntry) :
    bytesOf (l.map (forgetMark now)) = bytesOf l :=
  totalWeight_map (forgetMark now) (fun _ => rfl) l

theorem removedEntries_forgetMark (es : List ManagedEntry) :
    removedEntries env policy current now (es.map (forgetMark now)) =
      (removedEntries env policy current now es).map (forgetMark now) := by
  have hdue : dueUnlocked env policy current now (es.map (forgetMark now)) =
      (dueUnlocked env policy current now es).map (forgetMark now) := by
    unfold dueUnlocked
    rw [filter_map_forgetMark (due_forgetMark now), filter_map_forgetMark fun _ => rfl]
  have hcandidates : candidates env policy current now (es.map (forgetMark now)) =
      (candidates env policy current now es).map (forgetMark now) := by
    unfold candidates
    rw [filter_map_forgetMark (pending_forgetMark now), filter_map_forgetMark fun _ => rfl]
  have hafter : bytesAfterExpiry env policy current now (es.map (forgetMark now)) =
      bytesAfterExpiry env policy current now es := by
    rw [bytesAfterExpiry, hdue, bytesOf_map_forgetMark, bytesOf_map_forgetMark, bytesAfterExpiry]
  rw [removedEntries, removedEntries, List.map_append, hdue, furtherRemoved, furtherRemoved,
    hafter, hcandidates, reclaim_map (forgetMark now) fun _ => rfl]
  congr 1
  split
  · rfl
  · rfl

theorem paths_removedEntries_congr {l l' : List ManagedEntry}
    (h : l'.map (forgetMark now) = l.map (forgetMark now)) :
    (removedEntries env policy current now (byLastUse l')).map ManagedEntry.path =
      (removedEntries env policy current now (byLastUse l)).map ManagedEntry.path := by
  have hpath : ∀ es : List ManagedEntry,
      (es.map (forgetMark now)).map ManagedEntry.path = es.map ManagedEntry.path := by
    intro es
    rw [List.map_map]
    rfl
  rw [← hpath, ← removedEntries_forgetMark, ← byLastUse_forgetMark, h, byLastUse_forgetMark,
    removedEntries_forgetMark, hpath]

theorem not_orphanExpired_of_new {time : SystemTime}
    (htime : SystemTime.ofUnixSecs clock.scan.unixSecs = some time)
    (hsince : e.orphanedSince = some time) : orphanExpired clock.now e = false := by
  have hns : time.ns = clock.scan.unixSecs * 10 ^ 9 := by
    unfold SystemTime.ofUnixSecs at htime
    split at htime
    · cases htime
      rfl
    · cases htime
  have hquick := clock.quick
  have hage : clock.now.ns - time.ns ≤ orphanGraceNs := by
    rw [hns]
    unfold SystemTime.unixSecs SystemTime.unixNanos
    omega
  unfold orphanExpired SystemTime.since
  rw [hsince, Option.bind_some]
  split
  · simp only [Option.any_some, decide_eq_false_iff_not]
    omega
  · rfl

/-- A dry run reads the same mark, or none where a real run makes one. -/
theorem updateOrphanMarker_dry {scan : SystemTime} {orphaned : Bool} {since : Option SystemTime}
    (h : updateOrphanMarker ⟨workspaceHash, rootExists, true, scan⟩ d orphaned = .ok since) :
    ∃ since', updateOrphanMarker ⟨workspaceHash, rootExists, false, scan⟩ d orphaned = .ok since' ∧
      (since' = since ∨ since' = none ∧
        ∃ time, SystemTime.ofUnixSecs scan.unixSecs = some time ∧ since = some time) := by
  unfold updateOrphanMarker at h ⊢
  cases orphaned with
  | false => exact ⟨since, h, Or.inl rfl⟩
  | true =>
    rw [if_pos rfl] at h ⊢
    obtain ⟨mark, hmark, h⟩ := Outcome.bind_eq_ok_iff.1 h
    rw [hmark, Outcome.bind_ok]
    cases mark with
    | some time => exact ⟨some time, rfl, Or.inl (by cases h; rfl)⟩
    | none =>
      simp only [if_true] at h
      obtain ⟨time, htime, h⟩ := Outcome.bind_eq_ok_iff.1 h
      rw [Outcome.unwrap_eq_ok_iff] at htime
      cases h
      exact ⟨none, rfl, Or.inr ⟨rfl, time, htime, rfl⟩⟩

theorem scanManaged_dry {m : StoreManifest}
    (h : scanManaged ⟨workspaceHash, rootExists, true, clock.scan⟩ d m = .ok e) :
    ∃ e', scanManaged ⟨workspaceHash, rootExists, false, clock.scan⟩ d m = .ok e' ∧
      forgetMark clock.now e' = forgetMark clock.now e := by
  unfold scanManaged at h ⊢
  obtain ⟨lastUsed, hlast, h⟩ := Outcome.bind_eq_ok_iff.1 h
  obtain ⟨since, hsince, h⟩ := Outcome.bind_eq_ok_iff.1 h
  obtain ⟨since', hsince', hmark⟩ := updateOrphanMarker_dry hsince
  cases h
  simp only [hlast, Outcome.bind_ok]
  rw [hsince', Outcome.bind_ok]
  refine ⟨_, rfl, ?_⟩
  rcases hmark with rfl | ⟨rfl, time, htime, rfl⟩
  · rfl
  · rw [forgetMark_of_not_expired (orphanExpired_of_none rfl),
      forgetMark_of_not_expired (not_orphanExpired_of_new htime rfl)]

theorem scanStore_dry {found : ManagedEntry ⊕ String}
    (h : scanStore ⟨workspaceHash, rootExists, true, clock.scan⟩ d = .ok found) :
    ∃ found', scanStore ⟨workspaceHash, rootExists, false, clock.scan⟩ d = .ok found' ∧
      found'.getLeft?.map (forgetMark clock.now) = found.getLeft?.map (forgetMark clock.now) := by
  have hread : readStoreManifest ⟨workspaceHash, rootExists, false, clock.scan⟩ d =
      readStoreManifest ⟨workspaceHash, rootExists, true, clock.scan⟩ d := rfl
  unfold scanStore at h ⊢
  rw [hread]
  split
  · rename_i hlink
    rw [if_pos hlink] at h
    exact ⟨found, h, rfl⟩
  · rename_i hlink
    rw [if_neg hlink] at h
    cases hm : readStoreManifest ⟨workspaceHash, rootExists, true, clock.scan⟩ d with
    | ok m =>
      rw [hm] at h
      obtain ⟨e, he, h⟩ := Outcome.bind_eq_ok_iff.1 h
      obtain ⟨e', he', hsame⟩ := scanManaged_dry he
      cases h
      refine ⟨.inl e', ?_, ?_⟩
      · simp only [he']
        rfl
      · simp only [Sum.getLeft?_inl, Option.map_some, hsame]
    | error message =>
      rw [hm] at h
      exact ⟨found, h, rfl⟩
    | panic =>
      rw [hm] at h
      cases h

theorem scanWorkspaces_dry {stores : List StoreDir} {found : List (ManagedEntry ⊕ String)}
    (h : scanWorkspaces ⟨workspaceHash, rootExists, true, clock.scan⟩ stores = .ok found) :
    ∃ found', scanWorkspaces ⟨workspaceHash, rootExists, false, clock.scan⟩ stores = .ok found' ∧
      (found'.filterMap Sum.getLeft?).map (forgetMark clock.now) =
        (found.filterMap Sum.getLeft?).map (forgetMark clock.now) := by
  induction stores generalizing found with
  | nil => exact ⟨found, h, rfl⟩
  | cons d rest ih =>
    rw [scanWorkspaces] at h
    obtain ⟨first, hfirst, h⟩ := Outcome.bind_eq_ok_iff.1 h
    obtain ⟨more, hmore, h⟩ := Outcome.bind_eq_ok_iff.1 h
    obtain ⟨first', hfirst', hsame⟩ := scanStore_dry hfirst
    obtain ⟨more', hmore', hrest⟩ := ih hmore
    cases h
    refine ⟨first' :: more', ?_, ?_⟩
    · rw [scanWorkspaces, hfirst', Outcome.bind_ok, hmore']
      rfl
    · rw [List.map_filterMap, List.map_filterMap] at hrest ⊢
      rw [List.filterMap_cons, List.filterMap_cons, hsame, hrest]

theorem scanEntries_dry {stores : List StoreDir} {models entries : List ManagedEntry}
    (h : scanEntries workspaceHash rootExists true clock.scan stores models = .ok entries) :
    ∃ entries', scanEntries workspaceHash rootExists false clock.scan stores models =
        .ok entries' ∧
      entries'.map (forgetMark clock.now) = entries.map (forgetMark clock.now) := by
  unfold scanEntries at h ⊢
  obtain ⟨found, hfound, h⟩ := Outcome.bind_eq_ok_iff.1 h
  obtain ⟨found', hfound', hsame⟩ := scanWorkspaces_dry hfound
  cases h
  refine ⟨found'.filterMap Sum.getLeft? ++ models, by rw [hfound', Outcome.bind_ok], ?_⟩
  rw [List.map_append, List.map_append, hsame]

/-- Entries that differ in marks that decide nothing can be removed alike. -/
theorem removable_of_forgetMark {l l' : List ManagedEntry}
    (h : l'.map (forgetMark now) = l.map (forgetMark now)) (hrem : ∀ e ∈ l, Removable env e) :
    ∀ e ∈ l', Removable env e := by
  intro e he
  have hmem : forgetMark now e ∈ l.map (forgetMark now) := by
    rw [← h]
    exact List.mem_map_of_mem he
  obtain ⟨e', he', hsame⟩ := List.mem_map.1 hmem
  have hkind : (forgetMark now e').kind = (forgetMark now e).kind := by rw [hsame]
  have hid : (forgetMark now e').id = (forgetMark now e).id := by rw [hsame]
  have hpath : (forgetMark now e').path = (forgetMark now e).path := by rw [hsame]
  simp only [forgetMark] at hkind hid hpath
  have hremovable := hrem e' he'
  unfold Removable GcEnv.isLocked at hremovable ⊢
  rwa [hkind, hid, hpath] at hremovable

end DryRun

/-- **The collector is safe and keeps its quota.**  Whatever entries a scan has found, under whatever
policy, clock and current workspace, a run meets its specification, and a dry run on the same state
reports what the run removes.  Deletions succeed, paths are distinct, and the sizes add up within a
`u64`. -/
theorem gc_safe_within_quota (workspaceHash : Bytes → String) (rootExists : Bytes → Bool)
    (env : GcEnv) (policy : GcPolicy) (current : Option String) (clock : GcClock)
    (stores : List StoreDir) (models entries : List ManagedEntry)
    (hscan : scanEntries workspaceHash rootExists true clock.scan stores models = .ok entries)
    (hpaths : (entries.map ManagedEntry.path).Nodup) (hfit : bytesOf entries < 2 ^ 64)
    (hdeletes : ∀ e ∈ entries, Removable env e) :
    ∃ report dry,
      gcLocked workspaceHash rootExists env policy false current clock stores models =
        .ok report ∧
      GcSpec env policy current clock.now entries report ∧
      gcLocked workspaceHash rootExists env policy true current clock stores models = .ok dry ∧
      dry.removed = report.removed ∧ dry.removedBytes = report.removedBytes := by
  obtain ⟨report, hrun, hremoved, hbytes, hscanned⟩ :=
    @gcEntries_eq env policy current clock.now entries hdeletes hfit false
  obtain ⟨entries', hscan', hsame⟩ := scanEntries_dry hscan
  have hfit' : bytesOf entries' < 2 ^ 64 := by
    rw [← bytesOf_map_forgetMark entries', hsame, bytesOf_map_forgetMark]
    exact hfit
  obtain ⟨dry, hdry, hremoved', hbytes', _⟩ := @gcEntries_eq env policy current clock.now entries'
    (removable_of_forgetMark hsame hdeletes) hfit' true
  refine ⟨report, dry, ?_, gcSpec_of_closedForm hpaths hremoved hbytes hscanned, ?_, ?_, ?_⟩
  · rw [gcLocked, Bool.not_false, hscan]
    exact hrun
  · rw [gcLocked, Bool.not_true, hscan']
    exact hdry
  · rw [hremoved', hremoved, paths_removedEntries_congr hsame]
  · rw [hbytes', hbytes, ← bytesOf_map_forgetMark, ← removedEntries_forgetMark,
      ← byLastUse_forgetMark, hsame, byLastUse_forgetMark, removedEntries_forgetMark,
      bytesOf_map_forgetMark]

/-- An unlocked workspace store of a given size that was used at the epoch. -/
def storeEntry (id : String) (bytes : ℕ) : ManagedEntry :=
  ⟨.workspace, id, "/cache/" ++ id, none, bytes, epoch, false, none⟩

/-- Nothing is locked, except what is to be, and everything can be deleted. -/
def lockedOnly (id : String) : GcEnv := ⟨fun _ other => decide (other = id), fun _ => true, fun _ => true⟩

def epochClock : GcClock := ⟨epoch, epoch, by decide⟩

/-- Two stores, the first of them locked, under a quota of one of them. -/
theorem gc_safe_within_quota_two :
    ∃ report dry,
      gcLocked (fun _ => "") (fun _ => true) (lockedOnly "a") ⟨noTime, 10, 9⟩ false none epochClock []
        [storeEntry "a" 8, storeEntry "b" 8] = .ok report ∧
      GcSpec (lockedOnly "a") ⟨noTime, 10, 9⟩ none epoch [storeEntry "a" 8, storeEntry "b" 8]
        report ∧
      gcLocked (fun _ => "") (fun _ => true) (lockedOnly "a") ⟨noTime, 10, 9⟩ true none epochClock []
        [storeEntry "a" 8, storeEntry "b" 8] = .ok dry ∧
      dry.removed = report.removed ∧ dry.removedBytes = report.removedBytes :=
  gc_safe_within_quota (fun _ => "") (fun _ => true) (lockedOnly "a") ⟨noTime, 10, 9⟩ none epochClock
    [] [storeEntry "a" 8, storeEntry "b" 8] [storeEntry "a" 8, storeEntry "b" 8] rfl
    (by decide +kernel) (by decide +kernel) fun _ _ _ => ⟨rfl, rfl⟩

/-- **Without a quota nothing but expired entries is removed**: at a high-water mark of 0 an unlocked
store that is not the current one stays, although more than 0 bytes remain. -/
theorem no_quota_at_zero :
    gcLocked (fun _ => "") (fun _ => true) (lockedOnly "a") ⟨noTime, 0, 0⟩ false none epochClock []
        [storeEntry "b" 8] = .ok ⟨8, 0, 0, [], [], false⟩ ∧
      (lockedOnly "a").isLocked (storeEntry "b" 8) = false ∧
      isCurrent none (storeEntry "b" 8) = false ∧
      0 < bytesOf (survivors [storeEntry "b" 8] ⟨8, 0, 0, [], [], false⟩) := by
  decide +kernel

end Greppy
