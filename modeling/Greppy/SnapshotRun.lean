/-
**What the active path names while an index is published.**

We follow a run of `index_atomic_snapshot` through all its steps.  Up to the rename it works on the
temporary database and on the side files of the active one, so that the active path names what it named
before.  What the temporary database holds is followed from the index pass to the last check, and from
the rename on it is what the active path names.
-/

import Greppy.AtomicSnapshot

set_option autoImplicit false

namespace Publication

open Process

variable {C : Type} (env : FsEnv) (empty : C)

/-! ### The two kinds of directories -/

section Run

variable {R : Type} {rows : C → Option C → R} {shown : Option R} {attempts : ℕ → AttemptEnv C}
  {before : Dir C}

abbrev Old (rows : C → Option C → R) (shown : Option R) (before dir : Dir C) : Prop :=
  Leaves before dir ∧ Unchanged rows shown dir

abbrev New (rows : C → Option C → R) (attempts : ℕ → AttemptEnv C) (before dir : Dir C) : Prop :=
  Leaves before dir ∧ Published rows attempts dir

/-- The directories that a run may go through. -/
abbrev Good (rows : C → Option C → R) (shown : Option R) (attempts : ℕ → AttemptEnv C)
    (before dir : Dir C) : Prop :=
  Leaves before dir ∧ (Unchanged rows shown dir ∨ Published rows attempts dir)

theorem Old.good {dir : Dir C} (h : Old rows shown before dir) :
    Good rows shown attempts before dir := ⟨h.1, .inl h.2⟩

theorem New.good {dir : Dir C} (h : New rows attempts before dir) :
    Good rows shown attempts before dir := ⟨h.1, .inr h.2⟩

theorem good_of_old (dir : Dir C) (h : Old rows shown before dir) :
    Good rows shown attempts before dir := h.good

theorem good_of_new (dir : Dir C) (h : New rows attempts before dir) :
    Good rows shown attempts before dir := h.good

theorem ignores_leaves : Ignores (· ∈ familyNames activeName) (Leaves before) := by
  intro dir dir' hsame h name hname
  by_cases hmem : name ∈ familyNames activeName
  · exact .inr (.inl hmem)
  · rw [hsame name hmem] at hname
    exact h name hname

theorem ignores_leaves_managed : Ignores Managed (Leaves before) := by
  intro dir dir' hsame h name hname
  by_cases hmanaged : Managed name
  · exact .inr (.inr hmanaged)
  · rw [hsame name hmanaged] at hname
    exact h name hname

theorem family_eq_of_same {dir dir' : Dir C}
    (h : ∀ name, ¬ Managed name → dir'.get name = dir.get name) :
    dir'.family activeName = dir.family activeName := by
  unfold Dir.family
  rw [h _ (not_managed_of_mem_family (self_mem_familyNames _)),
    h _ (not_managed_of_mem_family (wal_mem_familyNames _)),
    h _ (not_managed_of_mem_family (shm_mem_familyNames _))]

theorem ignores_old : Ignores Managed (Old rows shown before) := by
  intro dir dir' hsame h
  refine ⟨ignores_leaves_managed dir dir' hsame h.1, ?_, ?_⟩
  · rw [family_eq_of_same hsame]
    exact h.2.rows_eq
  · rw [hsame _ (not_managed_of_mem_family (self_mem_familyNames _)),
      hsame _ (not_managed_of_mem_family (wal_mem_familyNames _))]
    exact h.2.no_log

theorem ignores_temp {path : String} (hpath : ∀ name ∈ familyNames path, Managed name) :
    Ignores (· ∈ familyNames path) (Old rows shown before) := fun dir dir' hsame =>
  ignores_old dir dir' fun name hname => hsame name fun hmem => hname (hpath name hmem)

theorem ignores_new : Ignores Managed (New rows attempts before) := by
  rintro dir dir' hsame ⟨hleaves, k, content, hcontent, hlog, hsnapshot⟩
  refine ⟨ignores_leaves_managed dir dir' hsame hleaves, k, content, ?_, ?_, hsnapshot⟩
  · rw [hsame _ (not_managed_of_mem_family (self_mem_familyNames _))]
    exact hcontent
  · rw [hsame _ (not_managed_of_mem_family (wal_mem_familyNames _))]
    exact hlog

/-! ### Building the temporary database -/

section Build

variable {I K : Dir C → Prop} (hK : Ignores Managed K) (hI : ∀ dir, K dir → I dir) {path : String}
  (hpath : ∀ name ∈ familyNames path, Managed name) {α : Type}

include hK hI hpath

omit env empty in
theorem keeps_put (content : Dir C → Option C) :
    Keeps I K (current >>= fun dir => enter (dir.put path (content dir)) : Act C Unit) := by
  refine Guards.of_current fun dir hdir => Guards.of_enter fun t ht => ?_
  have hput := hK.put (hpath _ (self_mem_familyNames path)) (content dir) hdir
  exact ⟨hI _ hput, hput⟩

theorem keeps_tryCloneStoreFile (clones : Bool) (source : String) :
    Keeps I K (tryCloneStoreFile env empty clones source path) := by
  have hremove : Keeps I K (removeFileIfExists env path) :=
    keeps_removeFileIfExists env hK hI (hpath _ (self_mem_familyNames path))
  have hclone : Keeps I K
      (current >>= fun dir => enter (dir.put path (dir.get source)) : Act C Unit) :=
    keeps_put hK hI hpath _
  unfold tryCloneStoreFile
  cases env.platform with
  | linux =>
    refine (guards_orIo (guards_useFile env source) fun _ _ _ h => h).of_bind fun _ => ?_
    have hcreate : Keeps I K (attempt env do
        let dir ← current
        enter (dir.put path (some empty))
        pure (.ok ())) := by
      refine guards_attempt env ?_ fun _ _ h => h
      refine Guards.of_current fun dir hdir => ?_
      have hput := hK.put (hpath _ (self_mem_familyNames path)) (some empty) hdir
      have henter : Guards I (fun t => t = dir) (enter (dir.put path (some empty)) : Act C Unit)
          (fun _ => K) fun _ => K := Guards.of_enter fun t ht => ⟨hI _ hput, hput⟩
      exact henter.of_bind fun _ => Guards.of_pure fun _ h => h
    refine (guards_orIo hcreate fun _ _ _ h => h).of_bind fun _ => ?_
    cases clones with
    | true => exact hclone.of_bind fun _ => Guards.of_pure fun _ h => h
    | false => exact hremove.of_bind fun _ => Guards.of_pure fun _ h => h
  | macos =>
    cases clones with
    | true => exact hclone.of_bind fun _ => Guards.of_pure fun _ h => h
    | false => exact (guards_ignore hremove).of_bind fun _ => Guards.of_pure fun _ h => h
  | otherUnix => exact Guards.of_pure fun _ h => h

theorem keeps_copyFile (partials : List C) (source : String) :
    Keeps I K (copyFile env partials source path) := by
  refine guards_attempt env (Guards.of_current fun dir hdir => ?_) fun _ _ h => h
  have hstart : ∀ t, t = dir → K t := by
    rintro t rfl
    exact hdir
  have hput : ∀ content, K (dir.put path content) := fun content =>
    hK.put (hpath _ (self_mem_familyNames path)) content hdir
  have henter : ∀ content, Keeps I K (enter (dir.put path content) : Act C Unit) := fun content =>
    Guards.of_enter fun _ _ => ⟨hI _ (hput content), hput content⟩
  cases dir.get source with
  | none => exact Guards.of_pure fun t ht => hstart t ht
  | some content =>
    have hloop : Keeps I K
        (foldEach (fun (_ : Unit) written => enter (dir.put path (some written))) partials ()) :=
      Guards.of_foldEach (fun _ written _ => henter (some written)) ()
    have hlast : Keeps I K (attempt env do
        enter (dir.put path (some content))
        pure (.ok ())) :=
      guards_attempt env ((henter (some content)).of_bind fun _ => Guards.of_pure fun _ h => h)
        fun _ _ h => h
    exact (hloop.mono hstart (fun _ _ h => h) fun _ _ h => h).of_bind fun _ => hlast

omit env in
theorem keeps_runSqliteQuiet (op : SqliteOp C Unit) : Keeps I K (runSqliteQuiet op path) :=
  guards_ignore (keeps_runSqlite hK hI hpath op)

theorem guards_orDiscard (close : SqliteOp C Unit) {m : Act C α} {P : Dir C → Prop}
    {Q : α → Dir C → Prop} (hm : Guards I P m Q fun _ => K) :
    Guards I P (orDiscard env close path m) Q fun _ => K :=
  hm.of_rescue fun _ => (keeps_runSqliteQuiet hK hI hpath close).of_bind fun _ =>
    (guards_ignore (keeps_cleanupSqliteFamily env hK hI hpath)).of_bind fun _ =>
      Guards.of_fail fun _ h => h

theorem keeps_connectStore (o : OpenEnv C) (context : String) :
    Keeps I K (connectStore env o path context) := by
  unfold connectStore
  cases o.lease with
  | some message => exact Guards.of_fail fun _ h => h
  | none =>
    exact (keeps_runSqlite hK hI hpath o.connect).of_rescue fun _ => Guards.of_fail fun _ h => h

theorem keeps_storeOpen (o : OpenEnv C) : Keeps I K (storeOpen env o path) := by
  have hquiet : ∀ op : SqliteOp C Unit, Keeps I K (runSqliteQuiet op path) :=
    keeps_runSqliteQuiet hK hI hpath
  refine (keeps_connectStore env hK hI hpath o "open").of_bind fun _ =>
    guards_cleanup ?_ fun e => hquiet _
  exact (hquiet _).of_bind fun _ => (hquiet _).of_bind fun _ =>
    (keeps_runSqlite hK hI hpath o.migrate).of_bind fun _ =>
      (keeps_runSqlite hK hI hpath o.integrityCheck).of_bind fun _ => hquiet _

end Build

/-- Seeding the temporary database leaves the active one as it is, also when it gives up on it. -/
theorem keeps_seed {a : AttemptEnv C} (ha : a.seed.Sound rows) {path : String}
    (hpath : ∀ name ∈ familyNames path, Managed name) :
    Keeps (Good rows shown attempts before) (Old rows shown before)
      (seedTempStoreFromActiveIfUsable env empty a activeName path) := by
  have hmode : Keeps (Good rows shown attempts before) (Old rows shown before)
      (ensureDbMode env path) := guards_ensureDbMode env path fun _ _ _ h => h
  have hprepare : Keeps (Good rows shown attempts before) (Old rows shown before)
      (prepareExistingActiveStore env a.seed activeName) := by
    have hleaves : Ignores (· ∈ familyNames activeName) (Leaves before) := ignores_leaves
    have hgood : ∀ dir, Leaves before dir → Unchanged rows shown dir →
        Good rows shown attempts before dir := fun dir h hunchanged => good_of_old dir ⟨h, hunchanged⟩
    have hrun := guards_prepareExistingActiveStore env hleaves ha hgood
    exact hrun.mono (fun _ h => h) (fun _ _ h => h.1) fun _ _ h => h.1
  refine (guards_pathExists a.seed.statFails activeName).of_bind fun found => ?_
  refine Guards.mono (P := Old rows shown before) ?_ (fun _ h => h.1) (fun _ _ h => h) fun _ _ h => h
  cases found with
  | false => exact Guards.of_pure fun _ h => h
  | true =>
    rw [if_pos rfl]
    have husable : Keeps (Good rows shown attempts before) (Old rows shown before)
        (rescue
          (do
            prepareExistingActiveStore env a.seed activeName
            pure true)
          fun e => if activeSnapshotIsRecoverable e then pure false else fail e) := by
      have hbody : Keeps (Good rows shown attempts before) (Old rows shown before)
          (do
            prepareExistingActiveStore env a.seed activeName
            pure true) :=
        hprepare.of_bind fun _ => Guards.of_pure fun _ h => h
      refine hbody.of_rescue fun e => ?_
      cases activeSnapshotIsRecoverable e with
      | true => exact Guards.of_pure fun _ h => h
      | false => exact Guards.of_fail fun _ h => h
    refine husable.of_bind fun usable => ?_
    cases usable with
    | false => exact Guards.of_pure fun _ h => h
    | true =>
      rw [if_pos rfl]
      refine (keeps_tryCloneStoreFile env empty ignores_old good_of_old hpath a.clones
        activeName).of_bind fun cloned => ?_
      cases cloned with
      | true => exact hmode.of_bind fun _ => Guards.of_pure fun _ h => h
      | false =>
        have hheadroom : Keeps (Good rows shown attempts before) (Old rows shown before)
            (ensureCopyHeadroom a.headroom) := by
          unfold ensureCopyHeadroom
          cases a.headroom with
          | ok u => exact Guards.of_pure fun _ h => h
          | error e => exact Guards.of_fail fun _ h => h
        refine hheadroom.of_bind fun _ => ?_
        refine (guards_orIo (keeps_copyFile env ignores_old good_of_old hpath a.copied activeName)
          fun _ _ _ h => h).of_bind fun _ => ?_
        exact hmode.of_bind fun _ => Guards.of_pure fun _ h => h

/-! ### What the temporary database holds -/

section Temp

variable {a : AttemptEnv C} {path : String} (hpath : ∀ name ∈ familyNames path, Managed name)

/-- Nothing has been published, and the files of the temporary database are as they should be. -/
abbrev Temp (rows : C → Option C → R) (shown : Option R) (before : Dir C) (path : String)
    (T : Family C → Prop) (dir : Dir C) : Prop :=
  Old rows shown before dir ∧ T (dir.family path)

include hpath

theorem guards_temp {α : Type} {op : SqliteOp C α} {T : Family C → Prop} {Q : α → Family C → Prop}
    (hQ : ∀ f r, T f → (op f).result = .ok r → Q r (op f).final) :
    Guards (Good rows shown attempts before) (Temp rows shown before path T) (runSqlite op path)
      (fun r => Temp rows shown before path (Q r)) (fun _ => Old rows shown before) := by
  have hrun : Guards (Good rows shown attempts before) (Temp rows shown before path T)
      (runSqlite op path) (fun r => Temp rows shown before path (Q r))
      (fun _ => Temp rows shown before path fun _ => True) :=
    guards_runSqlite (S := fun _ => True) (F := fun _ _ => True) (ignores_temp hpath) (fun dir h _ => h.good)
      (fun _ _ _ _ => trivial) hQ fun _ _ _ _ => trivial
  exact hrun.mono (fun _ h => h) (fun _ _ h => h) fun _ _ h => h.1

theorem guards_tempQuiet {op : SqliteOp C Unit} {T : Family C → Prop}
    (hT : ∀ f, T f → T (op f).final) {E : SnapshotError → Dir C → Prop} :
    Guards (Good rows shown attempts before) (Temp rows shown before path T) (runSqliteQuiet op path)
      (fun _ => Temp rows shown before path T) E := by
  exact guards_ignore (guards_runSqlite (S := fun _ => True) (F := fun _ f => T f)
    (Q := fun _ f => T f) (ignores_temp hpath) (fun dir h _ => h.good) (fun _ _ _ _ => trivial)
    (fun f _ hf _ => hT f hf) fun f _ hf _ => hT f hf)

/-- The index pass was complete, and its rows are still there. -/
def Indexed (rows : C → Option C → R) (a : AttemptEnv C) (f : Family C) : Prop :=
  f.main ≠ none ∧ ∃ f₀ report, (a.index f₀).result = .ok report ∧ report.isClean = true ∧
    report.filesSkippedByFileLimit = 0 ∧ report.filesSkippedByTimeBudget = 0 ∧
    rowsOf rows f = rowsOf rows (a.index f₀).final

omit hpath in
theorem main_ne_none_of_eq {f f' : Family C} (h : rowsOf rows f' = rowsOf rows f)
    (hf : f.main ≠ none) : f'.main ≠ none := by
  obtain ⟨content, hcontent⟩ := Option.ne_none_iff_exists'.1 hf
  rw [rowsOf, rowsOf, hcontent, Option.map_some] at h
  exact main_ne_none_of_rowsOf h

theorem guards_embedTempStore (ha : a.Sound rows) (embeddingConfigured allowDeferred : Bool) :
    Guards (Good rows shown attempts before) (Temp rows shown before path (Indexed rows a))
      (embedTempStore env a embeddingConfigured allowDeferred path)
      (fun _ => Temp rows shown before path fun f => f.main ≠ none ∧ Built rows a f)
      (fun _ => Old rows shown before) := by
  have hbuilt : ∀ f, Indexed rows a f → f.main ≠ none ∧ Built rows a f := by
    rintro f ⟨hmain, f₀, report, hresult, hclean, hlimit, hbudget, hrows⟩
    exact ⟨hmain, f₀, report, hresult, hclean, hlimit, hbudget, .inl hrows⟩
  have hkept : ∀ f, Indexed rows a f → Indexed rows a (a.deferred f).final := by
    rintro f ⟨hmain, f₀, report, hresult, hclean, hlimit, hbudget, hrows⟩
    have hsame := ha.deferred.final hmain
    exact ⟨main_ne_none_of_eq hsame hmain, f₀, report, hresult, hclean, hlimit, hbudget,
      hsame.trans hrows⟩
  have hdeferred : Guards (Good rows shown attempts before)
      (Temp rows shown before path (Indexed rows a))
      (embeddingDeferred a embeddingConfigured allowDeferred path)
      (fun _ => Temp rows shown before path (Indexed rows a)) (fun _ => Old rows shown before) := by
    unfold embeddingDeferred
    cases embeddingConfigured && allowDeferred with
    | false => exact Guards.of_pure fun _ h => h
    | true =>
      have hrun : Guards (Good rows shown attempts before)
          (Temp rows shown before path (Indexed rows a)) (runSqlite a.deferred path)
          (fun _ => Temp rows shown before path (Indexed rows a))
          fun _ => Temp rows shown before path (Indexed rows a) :=
        guards_runSqlite (S := fun _ => True) (F := fun _ f => Indexed rows a f)
          (Q := fun _ f => Indexed rows a f) (ignores_temp hpath) (fun dir h _ => h.good)
          (fun _ _ _ _ => trivial) (fun f _ hf _ => hkept f hf) fun f _ hf _ => hkept f hf
      exact hrun.of_rescue fun _ => Guards.of_pure fun _ h => h
  have hembed : Guards (Good rows shown attempts before)
      (Temp rows shown before path (Indexed rows a))
      (orDiscard env a.temp.close path (runSqlite a.embed path))
      (fun _ => Temp rows shown before path fun f => f.main ≠ none ∧ Built rows a f)
      (fun _ => Old rows shown before) := by
    refine guards_orDiscard env ignores_old good_of_old hpath a.temp.close (guards_temp hpath ?_)
    rintro f outcome ⟨hmain, f₀, report, hresult, hclean, hlimit, hbudget, hrows⟩ hembedded
    exact ⟨ha.embed f outcome hembedded, f₀, report, hresult, hclean, hlimit, hbudget,
      .inr ⟨f, outcome, hrows, hembedded, rfl⟩⟩
  refine hdeferred.of_bind fun deferred => ?_
  cases embeddingConfigured && !deferred with
  | false =>
    simp only [Bool.false_eq_true, if_false]
    exact Guards.of_pure fun dir h => ⟨h.1, hbuilt _ h.2⟩
  | true =>
    simp only [if_true]
    refine hembed.of_bind fun outcome => ?_
    cases outcome with
    | complete report => exact Guards.of_pure fun _ h => h
    | degraded report reason => exact Guards.of_pure fun _ h => h

end Temp

/-- The log is not needed, and the rows are as they should be. -/
abbrev Settled (rows : C → Option C → R) (X : Option R → Prop) (f : Family C) : Prop :=
  Flushed rows f ∧ X (rowsOf rows f)

theorem Flushed.main_ne_none {f : Family C} (h : Flushed rows f) : f.main ≠ none := by
  obtain ⟨content, hcontent, _⟩ := h
  rw [hcontent]
  exact Option.some_ne_none _

theorem Reads.settled {α : Type} {op : SqliteOp C α} (hop : Reads rows op) {X : Option R → Prop}
    {f : Family C} (h : Settled rows X f) : Settled rows X (op f).final := by
  refine ⟨hop.flushed f h.1, ?_⟩
  rw [hop.keeps.final h.1.main_ne_none]
  exact h.2

section Verify

variable {a : AttemptEnv C} {path : String} (hpath : ∀ name ∈ familyNames path, Managed name)

include hpath

/-- A connection to the temporary database that is dropped in the end. -/
theorem guards_closing {α : Type} {close : SqliteOp C Unit} (hclose : Reads rows close)
    {m : Act C α} {P : Dir C → Prop} {X : α → Option R → Prop}
    (hm : Guards (Good rows shown attempts before) P m
      (fun r => Temp rows shown before path (Settled rows (X r))) fun _ => Old rows shown before) :
    Guards (Good rows shown attempts before) P (closing close path m)
      (fun r => Temp rows shown before path (Settled rows (X r)))
      fun _ => Old rows shown before := by
  refine (guards_cleanup hm fun _ => keeps_runSqliteQuiet ignores_old good_of_old hpath close).of_bind
    fun r => ?_
  exact (guards_tempQuiet hpath fun f hf => hclose.settled hf).of_bind fun _ =>
    Guards.of_pure fun _ h => h

/-- Removing the side files of the temporary database, when its log is not needed. -/
theorem guards_cleanupTempSidecars {X : Option R → Prop} :
    Guards (Good rows shown attempts before) (Temp rows shown before path (Settled rows X))
      (cleanupSqliteSidecars env path) (fun _ => Temp rows shown before path (Settled rows X))
      fun _ => Old rows shown before := by
  have hside : sqliteSidecar path "-wal" ≠ sqliteSidecar path "-shm" := append_ne_append (by decide)
  have hmain : ∀ suffix, suffix ≠ "" → path ≠ sqliteSidecar path suffix := fun suffix h =>
    ne_append h
  have hwal : ∀ dir : Dir C, Settled rows X (dir.family path) →
      Settled rows X ((dir.put (sqliteSidecar path "-wal") none).family path) := by
    rintro dir ⟨⟨content, hcontent, hflushed⟩, hX⟩
    have hfamily : (dir.put (sqliteSidecar path "-wal") none).family path =
        ⟨some content, none, dir.get (sqliteSidecar path "-shm")⟩ := by
      simp only [Dir.family, Dir.get_put, if_neg (hmain "-wal" (by decide)), if_true,
        if_neg hside.symm]
      rw [← hcontent]
      rfl
    rw [hfamily]
    refine ⟨⟨content, rfl, rfl⟩, ?_⟩
    have hrows : rowsOf rows (dir.family path) = some (rows content none) := by
      rw [rowsOf, hcontent, Option.map_some, hflushed]
    rw [hrows] at hX
    exact hX
  have hshm : ∀ dir : Dir C, Settled rows X (dir.family path) →
      Settled rows X ((dir.put (sqliteSidecar path "-shm") none).family path) := by
    rintro dir ⟨⟨content, hcontent, hflushed⟩, hX⟩
    have hfamily : (dir.put (sqliteSidecar path "-shm") none).family path =
        ⟨some content, (dir.family path).wal, none⟩ := by
      simp only [Dir.family, Dir.get_put, if_neg (hmain "-shm" (by decide)), if_true, if_neg hside]
      rw [← hcontent]
      rfl
    rw [hfamily]
    refine ⟨⟨content, rfl, hflushed⟩, ?_⟩
    rw [rowsOf, hcontent] at hX
    exact hX
  have hremove : ∀ name ∈ familyNames path, (∀ dir : Dir C, Settled rows X (dir.family path) →
      Settled rows X ((dir.put name none).family path)) →
      Guards (Good rows shown attempts before) (Temp rows shown before path (Settled rows X))
        (removeFileIfExists env name) (fun _ => Temp rows shown before path (Settled rows X))
        fun _ => Old rows shown before := by
    intro name hname hput
    refine guards_removeFileIfExists env (fun dir h => ?_) (fun _ h _ => h) fun _ _ _ h => h.1
    have hold := ignores_old.put (hpath name hname) none h.1
    exact ⟨hold.good, hold, hput dir h.2⟩
  exact (hremove _ (wal_mem_familyNames path) hwal).of_bind fun _ =>
    hremove _ (shm_mem_familyNames path) hshm

/-- **The checks of the temporary database**: when they find it fresh, it is a snapshot. -/
theorem guards_verifyTempStore (ha : a.Sound rows) :
    Guards (Good rows shown attempts before)
      (Temp rows shown before path fun f => f.main ≠ none ∧ Built rows a f)
      (verifyTempStore env a path)
      (fun fresh => Temp rows shown before path fun f =>
        fresh = true → ∃ content, f.main = some content ∧ IsSnapshot rows a content)
      (fun _ => Old rows shown before) := by
  let builtRows : Option R → Prop := fun r => ∀ f, rowsOf rows f = r → Built rows a f
  let checkedRows : Option R → Prop := fun r => builtRows r ∧
    ∃ f, (a.integrityCheck f).result = .ok () ∧ rowsOf rows f = r
  let freshRows : Bool → Option R → Prop := fun fresh r => checkedRows r ∧
    (fresh = true → ∃ f, (a.freshness f).result = .ok true ∧ rowsOf rows f = r)
  have hbuilt : ∀ f, Built rows a f → builtRows (rowsOf rows f) := by
    rintro f ⟨f₀, report, hresult, hclean, hlimit, hbudget, hrows⟩ f' hsame
    refine ⟨f₀, report, hresult, hclean, hlimit, hbudget, ?_⟩
    rw [hsame]
    exact hrows
  have hcheckpoint : Guards (Good rows shown attempts before)
      (Temp rows shown before path fun f => f.main ≠ none ∧ Built rows a f)
      (checkpointStore env a.checkpoint path)
      (fun _ => Temp rows shown before path (Settled rows builtRows))
      (fun _ => Old rows shown before) := by
    have hrun : Guards (Good rows shown attempts before)
        (Temp rows shown before path fun f => f.main ≠ none ∧ Built rows a f)
        (runSqlite a.checkpoint path)
        (fun _ => Temp rows shown before path (Settled rows builtRows))
        (fun _ => Old rows shown before) := by
      refine guards_temp hpath ?_
      rintro f _ ⟨hmain, hf⟩ hresult
      refine ⟨ha.checkpoint.flushes f hmain hresult, ?_⟩
      rw [ha.checkpoint.keeps.final hmain]
      exact hbuilt f hf
    exact hrun.of_rescue fun _ => Guards.of_fail fun _ h => h
  have hcheck : ∀ message : SnapshotError → SnapshotError,
      Guards (Good rows shown attempts before)
        (Temp rows shown before path (Settled rows builtRows))
        (rescue (runSqlite a.integrityCheck path) fun e => fail (message e))
        (fun _ => Temp rows shown before path (Settled rows checkedRows))
        (fun _ => Old rows shown before) := by
    intro message
    have hrun : Guards (Good rows shown attempts before)
        (Temp rows shown before path (Settled rows builtRows))
        (runSqlite a.integrityCheck path)
        (fun _ => Temp rows shown before path (Settled rows checkedRows))
        (fun _ => Old rows shown before) := by
      refine guards_temp hpath fun f _ hf hresult => ?_
      obtain ⟨hflushed, hrows⟩ := ha.integrityCheck.settled hf
      exact ⟨hflushed, hrows, f, hresult, (ha.integrityCheck.keeps.final hf.1.main_ne_none).symm⟩
    exact hrun.of_rescue fun _ => Guards.of_fail fun _ h => h
  have hconnect : Guards (Good rows shown attempts before)
      (Temp rows shown before path (Settled rows checkedRows))
      (storeOpenReadOnly env a.verify path)
      (fun _ => Temp rows shown before path (Settled rows checkedRows))
      (fun _ => Old rows shown before) := by
    unfold storeOpenReadOnly connectStore
    cases a.verify.lease with
    | some message => exact Guards.of_fail fun _ h => h.1
    | none =>
      have hrun : Guards (Good rows shown attempts before)
          (Temp rows shown before path (Settled rows checkedRows))
          (runSqlite a.verify.connect path)
          (fun _ => Temp rows shown before path (Settled rows checkedRows))
          (fun _ => Old rows shown before) :=
        guards_temp hpath fun f _ hf _ => ha.verifyConnect.settled hf
      exact hrun.of_rescue fun _ => Guards.of_fail fun _ h => h
  have hfresh : Guards (Good rows shown attempts before)
      (Temp rows shown before path (Settled rows checkedRows)) (runSqlite a.freshness path)
      (fun fresh => Temp rows shown before path (Settled rows (freshRows fresh)))
      (fun _ => Old rows shown before) := by
    refine guards_temp hpath fun f fresh hf hresult => ?_
    obtain ⟨hflushed, hrows⟩ := ha.freshness.settled hf
    refine ⟨hflushed, hrows, fun hyes => ⟨f, ?_, ?_⟩⟩
    · rw [hresult, hyes]
    · exact (ha.freshness.keeps.final hf.1.main_ne_none).symm
  have hsync : Guards (Good rows shown attempts before)
      (Temp rows shown before path (Settled rows checkedRows))
      (syncFile env path) (fun _ => Temp rows shown before path (Settled rows checkedRows))
      (fun _ => Old rows shown before) := guards_syncFile env path fun _ _ _ h => h.1
  have hsyncParent : Guards (Good rows shown attempts before)
      (Temp rows shown before path (Settled rows checkedRows))
      (syncParentDir env) (fun _ => Temp rows shown before path (Settled rows checkedRows))
      (fun _ => Old rows shown before) := guards_syncParentDir env fun _ _ _ h => h.1
  refine (guards_closing (X := fun _ => checkedRows) hpath ha.tempClose
    (hcheckpoint.of_bind fun _ => hcheck _)).of_bind fun _ => ?_
  refine (guards_cleanupTempSidecars env hpath).of_bind fun _ => hsync.of_bind fun _ =>
    hsyncParent.of_bind fun _ => ?_
  cases a.failpoint with
  | error e => exact Guards.of_fail fun _ h => h.1
  | ok u =>
    refine hconnect.of_bind fun _ => (guards_closing hpath ha.verifyClose hfresh).mono
      (fun _ h => h) ?_ fun _ _ h => h
    rintro fresh dir ⟨hold, ⟨content, hcontent, hflushed⟩, ⟨hrows, checked, hok, hchecked⟩, hverdict⟩
    refine ⟨hold, fun hyes => ⟨content, hcontent, ?_⟩⟩
    obtain ⟨fresh, hfreshOk, hfreshRows⟩ := hverdict hyes
    have hshown : rowsOf rows (dir.family path) = some (rows content none) := by
      rw [rowsOf, hcontent, Option.map_some, hflushed]
    exact ⟨dir.family path, checked, fresh, hrows _ rfl, hok, hfreshOk, hshown,
      hchecked.trans hshown, hfreshRows.trans hshown⟩

end Verify

/-! ### Publication -/

theorem temp_notMem_backup (stamp : ℕ) :
    uniqueStoreSibling env activeName "next" stamp ∉ familyNames (storeSibling activeName "prev") := by
  intro hmem
  have hbackup : ∀ name ∈ familyNames (storeSibling activeName "prev"),
      startsWith name (activeName ++ ".next.") = false := by
    decide
  have hstarts := startsWith_temp env stamp
  rw [hbackup _ hmem] at hstarts
  cases hstarts

section Publish

variable {k : ℕ} {path : String} (hpath : ∀ name ∈ familyNames path, Managed name)
  (hbackup : path ∉ familyNames (storeSibling activeName "prev"))

include hpath hbackup

/-- **The publication**: the rename takes the active path from the old database to the snapshot. -/
theorem guards_publishStoreSnapshot (ha : (attempts k).publish.Sound rows)
    (hvalid : ∀ r, shown = some r → (attempts k).publish.Validates rows shown) :
    Guards (Good rows shown attempts before)
      (Temp rows shown before path fun f =>
        ∃ content, f.main = some content ∧ IsSnapshot rows (attempts k) content)
      (publishStoreSnapshot env (attempts k) path activeName)
      (fun _ => New rows attempts before) (fun _ => Good rows shown attempts before) := by
  let L : Dir C → Prop := fun dir => Leaves before dir ∧
    ∃ content, dir.get path = some content ∧ IsSnapshot rows (attempts k) content
  have hactive : path ∉ familyNames activeName := fun hmem =>
    not_managed_of_mem_family hmem (hpath _ (self_mem_familyNames path))
  have hwal : sqliteSidecar activeName "-wal" ≠ activeName := (ne_append (by decide)).symm
  have hL : Ignores (· ∈ familyNames activeName) L := by
    rintro dir dir' hsame ⟨hleaves, content, hcontent, hsnapshot⟩
    refine ⟨ignores_leaves dir dir' hsame hleaves, content, ?_, hsnapshot⟩
    rw [hsame path hactive]
    exact hcontent
  have hgoodL : ∀ dir, L dir → Unchanged rows shown dir → Good rows shown attempts before dir :=
    fun dir h hunchanged => ⟨h.1, .inl hunchanged⟩
  have hprepare := guards_prepareExistingActiveStore env hL ha hgoodL
  -- The validation succeeds, or the run fails: it does not give up on the active database.
  have hready : Guards (Good rows shown attempts before) (fun dir => L dir ∧ Unchanged rows shown dir)
      (rescue (prepareExistingActiveStore env (attempts k).publish activeName) fun e => do
        if activeSnapshotIsRecoverable e then
          if ← pathExists (attempts k).statFailsAgain activeName then
            let _ ← quarantineActiveStore env (attempts k).corruptStamp activeName
            pure ()
          else fail e
        else fail e)
      (fun _ dir => (L dir ∧ Unchanged rows shown dir) ∧
        dir.get (sqliteSidecar activeName "-wal") = none)
      (fun _ => Good rows shown attempts before) := by
    have hnoLog : ∀ dir, Unchanged rows shown dir →
        ((attempts k).publish.statFails = false →
          dir.get (sqliteSidecar activeName "-wal") = none) →
        dir.get (sqliteSidecar activeName "-wal") = none := by
      intro dir hunchanged hprepared
      cases hshown : shown with
      | some r => exact hprepared (hvalid r hshown).stat
      | none =>
        have hnone : (dir.family activeName).main = none :=
          Option.map_eq_none_iff.1 (hunchanged.rows_eq.trans hshown)
        exact hunchanged.no_log hnone
    refine (hprepare.mono (fun _ h => h) (fun _ dir h => ⟨h.1, hnoLog dir h.1.2 h.2⟩)
      fun _ _ h => h).of_rescue fun e => Guards.of_forall fun dir hdir => ?_
    obtain ⟨⟨hdirL, hunchanged⟩, r, hr, hkept⟩ := hdir
    rw [hkept (hvalid r hr)]
    refine Guards.of_fail ?_
    rintro t rfl
    exact ⟨hdirL.1, .inl hunchanged⟩
  have hbackupIgnored : Ignores (· ∈ familyNames (storeSibling activeName "prev"))
      (fun dir => (L dir ∧ Unchanged rows shown dir) ∧
        dir.get (sqliteSidecar activeName "-wal") = none) := by
    rintro dir dir' hsame ⟨⟨⟨hleaves, content, hcontent, hsnapshot⟩, hunchanged⟩, hlog⟩
    have hmanaged : ∀ name, ¬ Managed name → dir'.get name = dir.get name := fun name hname =>
      hsame name fun hmem => hname (managed_backup hmem)
    obtain ⟨hleaves', hunchanged'⟩ := ignores_old dir dir' hmanaged ⟨hleaves, hunchanged⟩
    refine ⟨⟨⟨hleaves', content, ?_, hsnapshot⟩, hunchanged'⟩, ?_⟩
    · rw [hsame path hbackup]
      exact hcontent
    · rw [hmanaged _ (not_managed_of_mem_family (wal_mem_familyNames _))]
      exact hlog
  have hclean : Keeps (Good rows shown attempts before)
      (fun dir => (L dir ∧ Unchanged rows shown dir) ∧
        dir.get (sqliteSidecar activeName "-wal") = none)
      (cleanupSqliteFamily env (storeSibling activeName "prev")) :=
    keeps_cleanupSqliteFamily env hbackupIgnored (fun dir h => ⟨h.1.1.1, .inl h.1.2⟩) fun _ h => h
  have hrename : ∀ context, Guards (Good rows shown attempts before)
      (fun dir => (L dir ∧ Unchanged rows shown dir) ∧
        dir.get (sqliteSidecar activeName "-wal") = none)
      (orIo context (renameFile env path activeName)) (fun _ => New rows attempts before)
      (fun _ => Good rows shown attempts before) := by
    intro context
    refine guards_renameFile env ?_ fun _ _ _ h => ⟨h.1.1.1, .inl h.1.2⟩
    rintro dir found ⟨⟨⟨hleaves, content, hcontent, hsnapshot⟩, _⟩, hlog⟩ hfound
    obtain rfl : content = found := Option.some.inj (hcontent.symm.trans hfound)
    have hnew : New rows attempts before
        ((dir.put path none).put activeName (some content)) := by
      refine ⟨?_, k, content, ?_, ?_, hsnapshot⟩
      · refine Ignores.put ignores_leaves (self_mem_familyNames activeName) _ ?_
        exact ignores_leaves_managed.put (hpath _ (self_mem_familyNames path)) _ hleaves
      · rw [Dir.get_put, if_pos rfl]
      · have hother : sqliteSidecar activeName "-wal" ≠ path := by
          rintro rfl
          exact hactive (wal_mem_familyNames activeName)
        rw [Dir.get_put, if_neg hwal, Dir.get_put, if_neg hother]
        exact hlog
    exact ⟨hnew.good, hnew⟩
  have hafter : ∀ {m : Act C Unit}, Keeps (Good rows shown attempts before)
      (New rows attempts before) m → Guards (Good rows shown attempts before)
      (New rows attempts before) m (fun _ => New rows attempts before)
      (fun _ => Good rows shown attempts before) :=
    fun hm => hm.mono (fun _ h => h) (fun _ _ h => h) fun _ dir h => good_of_new dir h
  refine (hready.mono (fun dir h => ⟨⟨h.1.1, h.2⟩, h.1.2⟩) (fun _ _ h => h) fun _ _ h => h).of_bind
    fun _ => ?_
  refine (hclean.mono (fun _ h => h) (fun _ _ h => h)
    fun _ dir h => ⟨h.1.1.1, .inl h.1.2⟩).of_bind fun _ => (hrename _).of_bind fun _ => ?_
  refine (hafter (guards_ensureDbMode env activeName fun _ _ _ h => h)).of_bind fun _ =>
    (hafter (guards_syncFile env activeName fun _ _ _ h => h)).of_bind fun _ => ?_
  refine (hafter (keeps_cleanupSqliteSidecars env ignores_new good_of_new hpath)).of_bind fun _ =>
    (hafter (keeps_cleanupSqliteFamily env ignores_new good_of_new
      fun _ h => managed_backup h)).of_bind fun _ => ?_
  exact hafter (guards_syncParentDir env fun _ _ _ h => h)

end Publish

/-! ### Whole runs -/

/-- One attempt publishes nothing and is to be repeated, or it ends in one of the two ways. -/
theorem guards_indexAtomicSnapshotAttempt {k : ℕ} (ha : (attempts k).Sound rows)
    (hvalid : ∀ r, shown = some r → (attempts k).publish.Validates rows shown)
    (embeddingConfigured allowDeferred : Bool) :
    Guards (Good rows shown attempts before) (Old rows shown before)
      (indexAtomicSnapshotAttempt env empty (attempts k) embeddingConfigured allowDeferred activeName)
      (fun report dir => match report with
        | none => Old rows shown before dir
        | some _ => Good rows shown attempts before dir)
      (fun _ => Good rows shown attempts before) := by
  have hold : ∀ dir : Dir C, Old rows shown before dir → Good rows shown attempts before dir :=
    fun dir h => h.good
  have hnew : ∀ dir : Dir C, New rows attempts before dir → Good rows shown attempts before dir :=
    fun dir h => h.good
  have hpath : ∀ name ∈ familyNames (uniqueStoreSibling env activeName "next" (attempts k).nextStamp),
      Managed name := fun name h => managed_temp env (attempts k).nextStamp h
  have hfail : ∀ {α : Type} {m : Act C α} {P : Dir C → Prop} {Q : α → Dir C → Prop},
      Guards (Good rows shown attempts before) P m Q (fun _ => Old rows shown before) →
      Guards (Good rows shown attempts before) P m Q (fun _ => Good rows shown attempts before) :=
    fun hm => hm.mono (fun _ h => h) (fun _ _ h => h) fun _ dir h => hold dir h
  have hdiscard : Keeps (Good rows shown attempts before) (Old rows shown before)
      (cleanupSqliteFamily env
        (uniqueStoreSibling env activeName "next" (attempts k).nextStamp)) :=
    keeps_cleanupSqliteFamily env ignores_old hold hpath
  have hindex : Guards (Good rows shown attempts before) (Old rows shown before)
      (runSqlite (attempts k).index
        (uniqueStoreSibling env activeName "next" (attempts k).nextStamp))
      (fun report => Temp rows shown before
        (uniqueStoreSibling env activeName "next" (attempts k).nextStamp) fun f =>
          ∃ f₀, ((attempts k).index f₀).result = .ok report ∧ f = ((attempts k).index f₀).final)
      (fun _ => Old rows shown before) := by
    refine Guards.mono (guards_temp (T := fun _ => True) hpath fun f report _ hresult =>
      ⟨f, hresult, rfl⟩) (fun _ h => ⟨h, trivial⟩) (fun _ _ h => h) fun _ _ h => h
  refine (hfail (keeps_cleanupStaleSnapshotArtifacts env ignores_old hold)).of_bind fun _ =>
    (hfail hdiscard).of_bind fun _ =>
      (hfail (keeps_seed env empty ha.seed hpath)).of_bind fun _ => ?_
  refine (hfail (guards_cleanup (keeps_storeOpen env ignores_old hold hpath (attempts k).temp)
    fun _ => guards_ignore hdiscard)).of_bind fun _ =>
      (hfail (guards_orDiscard env ignores_old hold hpath _ hindex)).of_bind fun report => ?_
  by_cases hpartial : (!report.isClean || decide (0 < report.filesSkippedByFileLimit) ||
      decide (0 < report.filesSkippedByTimeBudget)) = true
  · rw [if_pos hpartial]
    refine (Guards.mono (keeps_runSqliteQuiet ignores_old hold hpath _) (fun _ h => h.1)
      (fun _ _ h => h) fun _ dir h => hold dir h).of_bind fun _ =>
        (hfail hdiscard).of_bind fun _ => Guards.of_pure fun dir h => hold dir h
  · rw [if_neg hpartial]
    simp only [Bool.or_eq_true, Bool.not_eq_true', decide_eq_true_eq, not_or,
      Bool.not_eq_false, Nat.not_lt, Nat.le_zero] at hpartial
    obtain ⟨⟨hclean, hlimit⟩, hbudget⟩ := hpartial
    have hindexed : ∀ f : Family C, (∃ f₀, ((attempts k).index f₀).result = .ok report ∧
        f = ((attempts k).index f₀).final) → Indexed rows (attempts k) f := by
      rintro f ⟨f₀, hresult, rfl⟩
      exact ⟨ha.index f₀ report hresult, f₀, report, hresult, hclean, hlimit, hbudget, rfl⟩
    refine (hfail (Guards.mono (guards_embedTempStore env hpath ha embeddingConfigured allowDeferred)
      (fun dir h => ⟨h.1, hindexed _ h.2⟩) (fun _ _ h => h) fun _ _ h => h)).of_bind
        fun built => ?_
    refine (hfail (guards_verifyTempStore env hpath ha)).of_bind fun fresh => ?_
    cases fresh with
    | true =>
      rw [if_pos rfl]
      refine Guards.of_bind (Guards.mono (guards_publishStoreSnapshot env hpath
        (temp_notMem_backup env _) ha.publish hvalid) (fun dir h => ⟨h.1, h.2 rfl⟩)
        (fun _ _ h => h) fun _ _ h => h) fun _ => ?_
      refine ((keeps_cleanupStaleSnapshotArtifacts env ignores_new hnew).mono (fun _ h => h)
        (fun _ _ h => h) fun _ dir h => hnew dir h).of_bind fun _ => ?_
      exact Guards.of_pure fun dir h => hnew dir h
    | false =>
      refine ((hfail hdiscard).mono (fun _ h => h.1) (fun _ _ h => h) fun _ _ h => h).of_bind
        fun _ => Guards.of_pure fun _ h => h

theorem guards_indexAtomicSnapshot (hsound : ∀ k, (attempts k).Sound rows)
    (hvalid : ∀ k r, shown = some r → (attempts k).publish.Validates rows shown)
    (embeddingConfigured allowDeferred : Bool) :
    Guards (Good rows shown attempts before) (Old rows shown before)
      (indexAtomicSnapshot env empty attempts embeddingConfigured allowDeferred activeName)
      (fun _ => Good rows shown attempts before) (fun _ => Good rows shown attempts before) := by
  refine (guards_indexAtomicSnapshotAttempt env empty (hsound 0) (hvalid 0) embeddingConfigured
    allowDeferred).of_bind fun report => ?_
  cases report with
  | some report => exact Guards.of_pure fun _ h => h
  | none =>
    refine (guards_indexAtomicSnapshotAttempt env empty (hsound 1) (hvalid 1) embeddingConfigured
      allowDeferred).of_bind fun report => ?_
    cases report with
    | some report => exact Guards.of_pure fun _ h => h
    | none => exact Guards.of_fail fun dir h => h.good

/-! ### The next run -/

section Next

variable {dir : Dir C}

/-- What the next run finds is gone from the left-overs as far as it has come, and nothing else is. -/
abbrev Cleaned (dir : Dir C) (done : List String) (t : Dir C) : Prop :=
  (∀ name, ¬ Managed name → t.get name = dir.get name) ∧
    (∀ name, t.get name ≠ none → dir.get name ≠ none) ∧
      ∀ name ∈ done, Managed name → t.get name = none

theorem guards_removeStaleEntry (done : List String) (removed : ℕ) (name : String) :
    Guards (fun _ => True) (Cleaned dir done) (removeStaleEntry env activeName true removed name)
      (fun _ => Cleaned dir (done ++ [name])) (fun _ _ => True) := by
  have hunmanaged : ¬ Managed name → ∀ t, Cleaned dir done t → Cleaned dir (done ++ [name]) t := by
    rintro hname t ⟨hsame, hsub, hdone⟩
    refine ⟨hsame, hsub, fun other hother hmanaged => ?_⟩
    rcases List.mem_append.1 hother with hold | hnew
    · exact hdone other hold hmanaged
    · rw [List.mem_singleton.1 hnew] at hmanaged
      exact absurd hmanaged hname
  have hremoved : ∀ t, Cleaned dir done t → t.get name = none →
      Cleaned dir (done ++ [name]) t := by
    rintro t ⟨hsame, hsub, hdone⟩ hnone
    refine ⟨hsame, hsub, fun other hother hmanaged => ?_⟩
    rcases List.mem_append.1 hother with hold | hnew
    · exact hdone other hold hmanaged
    · rw [List.mem_singleton.1 hnew]
      exact hnone
  have hput : Managed name → ∀ t, Cleaned dir done t → Cleaned dir done (t.put name none) := by
    rintro hname t ⟨hsame, hsub, hdone⟩
    refine ⟨fun other hother => ?_, fun other hother => ?_, fun other hother hmanaged => ?_⟩
    · have hne : other ≠ name := by
        rintro rfl
        exact hother hname
      rw [Dir.get_put, if_neg hne]
      exact hsame other hother
    · rw [Dir.get_put] at hother
      split at hother
      · exact absurd rfl hother
      · exact hsub other hother
    · rw [Dir.get_put]
      split
      · rfl
      · exact hdone other hother hmanaged
  refine (guards_orIo (guards_touch env) fun _ _ _ _ => trivial).of_bind fun _ => ?_
  by_cases hname : isManaged activeName true name = true
  · rw [if_pos hname]
    have hcall : Guards (fun _ => True) (Cleaned dir done) (removeFile env name)
        (fun r t => match r with
          | .error (.other _) => True
          | _ => Cleaned dir (done ++ [name]) t) (fun _ _ => True) := by
      refine guards_removeFile env (fun t ht => ⟨trivial, ?_⟩) hremoved fun _ _ _ => trivial
      exact hremoved _ (hput hname t ht) (by rw [Dir.get_put, if_pos rfl])
    refine hcall.of_bind fun r => ?_
    match r with
    | .ok () => exact Guards.of_pure fun _ h => h
    | .error .notFound => exact Guards.of_pure fun _ h => h
    | .error (.other message) => exact Guards.of_fail fun _ _ => trivial
  · rw [if_neg hname]
    exact Guards.of_pure fun t ht => hunmanaged hname t ht

theorem guards_removeStaleEntries (items done : List String) (removed : ℕ) :
    Guards (fun _ => True) (Cleaned dir done)
      (foldEach (removeStaleEntry env activeName true) items removed)
      (fun _ => Cleaned dir (done ++ items)) (fun _ _ => True) := by
  induction items generalizing done removed with
  | nil =>
    rw [List.append_nil]
    exact Guards.of_pure fun _ h => h
  | cons name items ih =>
    have hrest := fun removed => ih (done ++ [name]) removed
    rw [List.append_assoc, List.singleton_append] at hrest
    exact (guards_removeStaleEntry env done removed name).of_bind fun removed => hrest removed

/-- **The next run removes every left-over**, and no other file. -/
theorem cleanupStaleSnapshotArtifacts_spec {removed : ℕ} {h : History (Dir C)}
    (hrun : cleanupStaleSnapshotArtifacts env activeName true (start dir) = (.ok removed, h)) :
    (∀ name, Managed name → h.now.get name = none) ∧
      ∀ name, ¬ Managed name → h.now.get name = dir.get name := by
  have hguards : Guards (fun _ => True) (fun t => t = dir)
      (cleanupStaleSnapshotArtifacts env activeName true)
      (fun _ t => (∀ name, Managed name → t.get name = none) ∧
        ∀ name, ¬ Managed name → t.get name = dir.get name) (fun _ _ => True) := by
    have htouch : Guards (fun _ => True) (fun t => t = dir) (touch env : Act C _)
        (fun r t => t = dir ∧ r ≠ .error .notFound) (fun _ _ => True) := by
      refine guards_attempt env (Guards.of_pure fun _ ht => ⟨ht, ?_⟩) fun _ _ ht => ⟨ht, ?_⟩
      · exact nofun
      · exact nofun
    refine htouch.of_bind fun r => ?_
    match r with
    | .error .notFound => exact Guards.of_pure fun t ht => absurd rfl ht.2
    | .error (.other message) => exact Guards.of_fail fun _ _ => trivial
    | .ok () =>
      refine Guards.of_current fun t ht => ?_
      obtain ⟨rfl, _⟩ := ht
      have hall : ∀ s, Cleaned t ([] ++ env.order t.names) s →
          (∀ name, Managed name → s.get name = none) ∧
            ∀ name, ¬ Managed name → s.get name = t.get name := by
        rintro s ⟨hsame, hsub, hdone⟩
        refine ⟨fun name hname => ?_, hsame⟩
        by_cases hthere : s.get name = none
        · exact hthere
        · have hlisted : name ∈ env.order t.names :=
            (env.order_perm _).mem_iff.2 (Dir.mem_names_iff.2 (hsub name hthere))
          exact hdone name hlisted hname
      refine (Guards.mono (guards_removeStaleEntries env (env.order t.names) [] 0)
        (fun s hs => ?_) (fun _ s hs => hall s hs) fun _ _ _ => trivial).of_bind fun removed => ?_
      · subst hs
        exact ⟨fun _ _ => rfl, fun _ h => h, fun _ h => absurd h List.not_mem_nil⟩
      · by_cases hremoved : 0 < removed
        · simp only [if_pos hremoved]
          exact (guards_syncParentDir env fun _ _ _ _ => trivial).of_bind fun _ =>
            Guards.of_pure fun _ h => h
        · simp only [if_neg hremoved]
          exact Guards.of_pure fun _ h => h
  have hend := (hguards.of_start rfl trivial).2
  rw [hrun] at hend
  exact hend

end Next

end Run

/-- **Index publication is atomic**, as long as the validation before the rename does not give up on the
active database, and no log is lying where there is no database.  In every directory that a run goes
through, whatever operation fails and wherever it is cut off, the active path names the database that
was there, with its rows, or a snapshot that was built completely and passed its checks; what else is
new are left-overs, and the next run that gets through its clean-up removes them. -/
theorem indexAtomicSnapshot_atomic {R : Type} (rows : C → Option C → R)
    (attempts : ℕ → AttemptEnv C) (embeddingConfigured allowDeferred : Bool) (before : Dir C)
    (hsound : ∀ k, (attempts k).Sound rows)
    (hlog : before.get activeName = none → before.get (sqliteSidecar activeName "-wal") = none)
    (hvalid : ∀ k r, rowsOf rows (before.family activeName) = some r →
      (attempts k).publish.Validates rows (some r)) :
    ∀ dir ∈ (indexAtomicSnapshot env empty attempts embeddingConfigured allowDeferred activeName
        (start before)).2.past,
      (before.get activeName ≠ none → dir.get activeName ≠ none) ∧
      (Unchanged rows (rowsOf rows (before.family activeName)) dir ∨ Published rows attempts dir) ∧
      (∀ name, dir.get name ≠ none →
        before.get name ≠ none ∨ name ∈ familyNames activeName ∨ Managed name) ∧
      (∀ name ∈ familyNames activeName, ¬ Managed name) ∧
      ∀ (next : FsEnv) (removed : ℕ) (h : History (Dir C)),
        cleanupStaleSnapshotArtifacts next activeName true (start dir) = (.ok removed, h) →
        (∀ name, Managed name → h.now.get name = none) ∧
          ∀ name, ¬ Managed name → h.now.get name = dir.get name := by
  have hstart : Old rows (rowsOf rows (before.family activeName)) before before :=
    ⟨fun name h => .inl h, rfl, hlog⟩
  have hvalid' : ∀ k r, rowsOf rows (before.family activeName) = some r →
      (attempts k).publish.Validates rows (rowsOf rows (before.family activeName)) := by
    intro k r hr
    rw [hr]
    exact hvalid k r hr
  have hrun := (guards_indexAtomicSnapshot env empty hsound hvalid' embeddingConfigured
    allowDeferred).of_start hstart hstart.good
  intro dir hdir
  obtain ⟨hleaves, hactive⟩ := hrun.1 dir hdir
  refine ⟨fun hthere => ?_, hactive, hleaves, fun _ h => not_managed_of_mem_family h,
    fun next removed h hclean => cleanupStaleSnapshotArtifacts_spec next hclean⟩
  rcases hactive with hold | ⟨k, content, hcontent, _⟩
  · exact main_ne_none_of_eq (f := before.family activeName) hold.rows_eq hthere
  · rw [hcontent]
    exact Option.some_ne_none _

/-! ### Runs on small directories -/

/-- A call that returns and leaves the files alone. -/
def still {α : Type} (a : α) : SqliteOp ℕ α := fun f => ⟨[], .ok a, f⟩

/-- A checkpoint of a database whose log, if there is one, is its newest content. -/
def mergeLog : SqliteOp ℕ Unit := fun f =>
  ⟨[], .ok (), match f.main with
    | some content => ⟨some (f.wal.getD content), none, f.shm⟩
    | none => f⟩

def newest (content : ℕ) (log : Option ℕ) : ℕ := log.getD content

/-- An index pass that builds the content 2. -/
def buildTwo : SqliteOp ℕ IndexReport := fun f => ⟨[], .ok ⟨0, 0, 0⟩, ⟨some 2, none, f.shm⟩⟩

/-- Databases that open without any change. -/
def plainOpen : OpenEnv ℕ :=
  ⟨none, still (), still (), still (), still (), still (), still (), still ()⟩

def plainPrepare : PrepareEnv ℕ := ⟨false, plainOpen, mergeLog, still (), still ()⟩

/-- An attempt in which nothing fails. -/
def plainAttempt : AttemptEnv ℕ where
  nextStamp := 5
  corruptStamp := 6
  seed := plainPrepare
  clones := true
  headroom := .ok ()
  copied := []
  temp := plainOpen
  index := buildTwo
  deferred := still false
  embed f := ⟨[], .ok (.degraded none "no model"), ⟨some 2, none, f.shm⟩⟩
  checkpoint := mergeLog
  integrityCheck := still ()
  failpoint := .ok ()
  verify := plainOpen
  freshness := still true
  publish := plainPrepare
  statFailsAgain := false

/-- A system in which the operations with these numbers fail. -/
def failingAt (numbers : List ℕ) : FsEnv where
  parent := "/store"
  platform := .linux
  pid := 1
  io n := if n ∈ numbers then some "input/output error" else none
  order names := names
  order_perm _ := List.Perm.refl _

/-- A directory with an active database of the content 1. -/
def oneStore : Dir ℕ := KeyedTable.ofList [(activeName, 1)]

theorem reads_still {α : Type} (a : α) : Reads newest (still a) := by
  refine ⟨fun f _ f' hf' => ?_, fun _ h => h⟩
  rw [List.mem_singleton.1 hf']
  rfl

theorem checkpoints_mergeLog : Checkpoints newest mergeLog := by
  refine ⟨fun f hf f' hf' => ?_, fun f hf _ => ?_⟩
  · obtain ⟨content, hcontent⟩ := Option.ne_none_iff_exists'.1 hf
    rw [List.mem_singleton.1 hf']
    simp only [mergeLog, rowsOf, hcontent, newest, Option.map_some, Option.getD_none]
  · obtain ⟨content, hcontent⟩ := Option.ne_none_iff_exists'.1 hf
    refine ⟨f.wal.getD content, ?_, ?_⟩
    · simp only [mergeLog, hcontent]
    · simp only [mergeLog, hcontent]

theorem plainPrepare_sound : plainPrepare.Sound newest :=
  ⟨(reads_still ()).keeps, (reads_still ()).keeps, (reads_still ()).keeps, (reads_still ()).keeps,
    (reads_still ()).keeps, (reads_still ()).keeps, (reads_still ()).keeps, checkpoints_mergeLog,
    reads_still (), reads_still ()⟩

theorem plainPrepare_validates (shown : Option ℕ) : plainPrepare.Validates newest shown where
  stat := rfl
  migrate _ _ _ h := by cases h
  openCheck _ _ _ h := by cases h
  checkpoint _ _ _ h := by cases h
  integrityCheck _ _ _ h := by cases h

theorem plainAttempt_sound : plainAttempt.Sound newest where
  seed := plainPrepare_sound
  publish := plainPrepare_sound
  index _ _ _ := Option.some_ne_none _
  deferred := (reads_still false).keeps
  embed _ _ _ := Option.some_ne_none _
  checkpoint := checkpoints_mergeLog
  integrityCheck := reads_still ()
  tempClose := reads_still ()
  verifyConnect := reads_still ()
  freshness := reads_still true
  verifyClose := reads_still ()

/-- A run in which nothing fails. -/
theorem indexAtomicSnapshot_atomic_plain :
    oneStore.get activeName ≠ none ∧
      ∀ dir ∈ (indexAtomicSnapshot (failingAt []) 0 (fun _ => plainAttempt) false false activeName
          (start oneStore)).2.past,
        dir.get activeName ≠ none ∧
          (Unchanged newest (some 1) dir ∨ Published newest (fun _ => plainAttempt) dir) := by
  have hthere : oneStore.get activeName ≠ none := by decide +kernel
  have hshown : rowsOf newest (oneStore.family activeName) = some 1 := by decide +kernel
  refine ⟨hthere, fun dir hdir => ?_⟩
  have hrun := indexAtomicSnapshot_atomic (failingAt []) 0 newest (fun _ => plainAttempt) false false
    oneStore (fun _ => plainAttempt_sound) (fun hnone => absurd hnone hthere)
    (fun _ r _ => plainPrepare_validates (some r)) dir hdir
  rw [hshown] at hrun
  exact ⟨hrun.1 hthere, hrun.2.1⟩

/-- An attempt in which the checkpoint of the active database fails before the publication. -/
def fullDisk : AttemptEnv ℕ :=
  { plainAttempt with publish :=
      { plainPrepare with checkpoint := fun f => ⟨[], .error (.store "disk I/O error"), f⟩ } }

theorem fullDisk_sound : fullDisk.Sound newest :=
  { plainAttempt_sound with
    publish := { plainPrepare_sound with
      checkpoint := ⟨(reads_still ()).keeps, fun _ _ h => by cases h⟩ } }

/-- A directory with the log of a database that is not there. -/
def strayLog : Dir ℕ := KeyedTable.ofList [(sqliteSidecar activeName "-wal", 7)]

/-- A checkpoint that fails moves a database away that passes its integrity check: for a moment there is
none, and none at all when the rename of the new one fails as well; then the next run removes what was
moved away.  And a log that has lost its database is read with the snapshot that is put next to it. -/
theorem indexAtomicSnapshot_gap :
    fullDisk.Sound newest ∧ oneStore.get activeName ≠ none ∧
      (fullDisk.publish.integrityCheck (oneStore.family activeName)).result = .ok () ∧
      (∃ dir ∈ (indexAtomicSnapshot (failingAt []) 0 (fun _ => fullDisk) false false activeName
          (start oneStore)).2.past, dir.get activeName = none) ∧
      (∃ lost, (indexAtomicSnapshot (failingAt [34]) 0 (fun _ => fullDisk) false false activeName
          (start oneStore)).2.now = lost ∧ lost.get activeName = none ∧
          (cleanupStaleSnapshotArtifacts (failingAt []) activeName true (start lost)).2.now.rows = []) ∧
      plainAttempt.Sound newest ∧ strayLog.get activeName = none ∧
      rowsOf newest ((indexAtomicSnapshot (failingAt []) 0 (fun _ => plainAttempt) false false activeName
        (start strayLog)).2.now.family activeName) = some 7 := by
  refine ⟨fullDisk_sound, ?_, ?_, ?_, ?_, plainAttempt_sound, ?_, ?_⟩
  · decide +kernel
  · rfl
  · decide +kernel
  · refine ⟨_, rfl, ?_, ?_⟩
    · decide +kernel
    · decide +kernel
  · decide +kernel
  · decide +kernel

end Publication
