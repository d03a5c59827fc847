/-
**Evidence packs and concurrent re-indexing.**

A query command opens the active database for writing and inserts its pack through that connection.  An
index run copies the active database to a temporary file, builds the new index there, and renames the
file onto the active path.  Both hold the lifecycle lease in shared mode only, and only index runs take
the index lock, so that packs are inserted while a run is under way.  A connection stays with the file it
opened, also when that file is no longer the active one.

Each insertion, each copy and each rename is one step here, and the side files of SQLite belong to the
database.  A run that fails or is killed ends as one that is discarded.

A pack is lost when it is inserted after the copy, and when it is inserted into a file that has been
replaced already.  It is lost at once when its expiry does not fit the column.  Nothing else loses a pack.

Main results:

* `PackState`, `PackEvent`, `PackState.step` — the files, the connections, the index run, and what
  happens to them;
* `expand_packs_kept` — **in a run whose steps all meet the conditions, no pack is lost**;
* `expand_pack_lost` — a pack inserted between copy and rename is lost.
-/

import Greppy.ExpandPack
import Greppy.GuardedRun

set_option autoImplicit false

namespace Greppy

/-! ### Files, connections and index runs -/

/-- An index run between its copy and its end. -/
structure IndexRun where
  /-- The temporary file. -/
  temp : ℕ
  /-- The packs that had been returned when the run copied the active database; none if it did not
  copy it. -/
  copied : List ExpandPack

/-- The database files of a workspace, by number, and who works on them. -/
structure PackState where
  clock : SystemTime
  files : ℕ → ExpandTable
  nextFile : ℕ
  /-- The file that the active path names. -/
  active : Option ℕ
  /-- The file that the connection of a query command has opened. -/
  writers : ℕ → Option ℕ
  /-- The index run that holds the index lock. -/
  run : Option IndexRun
  /-- The packs whose id was returned to the user. -/
  returned : List ExpandPack

inductive PackEvent where
  | tick (now : SystemTime)
  | openWriter (query : ℕ)
  | insert (query : ℕ) (pack : NewExpandPack)
  | closeWriter (query : ℕ)
  | expand (id : String)
  | seed (usable : Bool)
  | discard
  | publish

namespace PackState

/-- The table of one file is replaced. -/
def write (s : PackState) (file : ℕ) (t : ExpandTable) : PackState :=
  { s with files := Function.update s.files file t }

/-- A file is opened for writing, which removes the packs that have expired. -/
def opened (s : PackState) (file : ℕ) : PackState :=
  s.write file (Store.pruneExpiredExpandPacksAt (unixNowSecs s.clock) (s.files file)).2

/-- The active path is opened for writing, if there is a file. -/
def openedActive (s : PackState) : PackState :=
  match s.active with
  | none => s
  | some file => s.opened file

def create (s : PackState) (t : ExpandTable) : PackState :=
  { s.write s.nextFile t with nextFile := s.nextFile + 1 }

/-- `seed_temp_store_from_active_if_usable` and the first opening of the temporary database.  An active
database that does not pass the check is not copied. -/
def seed (s : PackState) (usable : Bool) : PackState :=
  match s.active, usable with
  | some file, true =>
    let s := s.opened file
    { (s.create (s.files file)).opened s.nextFile with run := some ⟨s.nextFile, s.returned⟩ }
  | _, _ =>
    { (s.create KeyedTable.empty).opened s.nextFile with run := some ⟨s.nextFile, []⟩ }

variable (sha256 : List UInt8 → Vector UInt8 32) (json : JsonText)

/-- What an event makes of the state.  An event that is not possible leaves it as it is: the clock does
not go back, and the index lock admits one run at a time. -/
def step (s : PackState) : PackEvent → PackState
  | .tick now => if s.clock.ns ≤ now.ns then { s with clock := now } else s
  | .openWriter query =>
    { s.openedActive with writers := Function.update s.writers query s.active }
  | .insert query pack =>
    match s.writers query with
    | none => s
    | some file =>
      match insertExpandPackBestEffort sha256 json s.clock pack (s.files file) with
      | (some handle, t) =>
        { s.write file t with returned := pack.stored s.clock handle.id :: s.returned }
      | (none, t) => s.write file t
  | .closeWriter query => { s with writers := Function.update s.writers query none }
  | .expand id =>
    match s.active with
    | none => s
    | some file =>
      let s := s.opened file
      s.write file (Store.getExpandPack json s.clock id (s.files file)).2
  | .seed usable => if s.run.isNone then s.seed usable else s
  | .discard => { s with run := none }
  | .publish =>
    match s.run with
    | none => s
    | some run => { s.openedActive with active := some run.temp, run := none }

/-- What `greppy expand` finds under an id on the active database. -/
def found (s : PackState) (id : String) : Option ExpandPack :=
  s.active.bind fun file => (Store.getExpandPack json s.clock id (s.files file)).1

/-- Every pack that was returned is found as it was inserted, until it expires. -/
def NoPackLost (s : PackState) : Prop :=
  ∀ p ∈ s.returned, p.Live s.clock → s.found json p.id = some p

/-- A workspace before its first pack is returned. -/
def initial (clock : SystemTime) (database : Option ExpandTable) : PackState where
  clock := clock
  files := fun _ => database.getD KeyedTable.empty
  nextFile := 1
  active := database.map fun _ => 0
  writers := fun _ => none
  run := none
  returned := []

/-- The conditions under which a step loses no pack.  A pack goes through a connection to the active
file, and its expiry fits the column.  At a rename, the live packs had all been returned when the run
copied the active database. -/
def Undisturbed (s : PackState) : PackEvent → Prop
  | .insert query pack =>
    trimWhitespace pack.payloadText.toList = [] ∨ s.writers query = none ∨
      (s.writers query = s.active ∧ s.clock.unixSecs + (max pack.ttlSecs 1).toNat < 2 ^ 63)
  | .publish => ∀ run ∈ s.run, ∀ p ∈ s.returned, p.Live s.clock → p ∈ run.copied
  | _ => True

instance (s : PackState) : (e : PackEvent) → Decidable (s.Undisturbed e)
  | .insert query pack =>
    inferInstanceAs (Decidable (trimWhitespace pack.payloadText.toList = [] ∨
      s.writers query = none ∨ (s.writers query = s.active ∧
        s.clock.unixSecs + (max pack.ttlSecs 1).toNat < 2 ^ 63)))
  | .publish =>
    inferInstanceAs (Decidable (∀ run ∈ s.run, ∀ p ∈ s.returned, p.Live s.clock → p ∈ run.copied))
  | .tick _ | .openWriter _ | .closeWriter _ | .expand _ | .seed _ | .discard => isTrue trivial

/-! ### The invariant -/

/-- The active file holds the live packs that were returned, and the temporary file of an index run holds
those that had been returned at its copy. -/
structure Inv (s : PackState) : Prop where
  active_lt : ∀ file ∈ s.active, file < s.nextFile
  temp_lt : ∀ run ∈ s.run, run.temp < s.nextFile
  reads : ∀ p ∈ s.returned, IdReads p.id ∧ p.Fits
  held : ∀ p ∈ s.returned, p.Live s.clock → ∃ file ∈ s.active, (s.files file).Holds json p
  copied : ∀ run ∈ s.run, ∀ p ∈ run.copied, p ∈ s.returned ∧
    (p.Live s.clock → (s.files run.temp).Holds json p)

variable {json}

variable {s : PackState} {file : ℕ}

theorem Inv.noPackLost (h : s.Inv json) : s.NoPackLost json := by
  intro p hp hlive
  obtain ⟨file, hfile, hholds⟩ := h.held p hp hlive
  obtain ⟨hid, hfits⟩ := h.reads p hp
  rw [found, Option.mem_def.1 hfile]
  exact getExpandPack_of_holds json hholds hlive hfits hid

theorem inv_initial (clock : SystemTime) (database : Option ExpandTable) :
    (initial clock database).Inv json where
  active_lt := by
    intro file hfile
    obtain ⟨t, -, rfl⟩ := Option.map_eq_some_iff.1 hfile
    exact Nat.zero_lt_one
  temp_lt := fun _ h => by cases h
  reads := fun _ h => by cases h
  held := fun _ h => by cases h
  copied := fun _ h => by cases h

/-! ### Steps on one file -/

@[simp] theorem files_write_self (s : PackState) (file : ℕ) (t : ExpandTable) :
    (s.write file t).files file = t := by simp [write]

/-- Writing a file keeps the live packs of every file, if it keeps those of this one. -/
theorem keepsLive_write {t : ExpandTable} (h : KeepsLive json s.clock (s.files file) t) (other : ℕ) :
    KeepsLive json s.clock (s.files other) ((s.write file t).files other) := by
  by_cases heq : other = file
  · rw [heq, files_write_self]
    exact h
  · have hother : (s.write file t).files other = s.files other := by simp [write, heq]
    rw [hother]
    exact KeepsLive.refl json s.clock (s.files other)

/-- A step that keeps the live packs of every file keeps the invariant, whatever it does to the
connections. -/
theorem Inv.of_files {s' : PackState} (h : s.Inv json) (hclock : s'.clock = s.clock)
    (hnext : s'.nextFile = s.nextFile) (hactive : s'.active = s.active) (hrun : s'.run = s.run)
    (hreturned : s'.returned = s.returned)
    (hfiles : ∀ file, KeepsLive json s.clock (s.files file) (s'.files file)) : s'.Inv json where
  active_lt := by
    rw [hactive, hnext]
    exact h.active_lt
  temp_lt := by
    rw [hrun, hnext]
    exact h.temp_lt
  reads := by
    rw [hreturned]
    exact h.reads
  held := by
    rw [hreturned, hclock, hactive]
    intro p hp hlive
    obtain ⟨file, hfile, hholds⟩ := h.held p hp hlive
    exact ⟨file, hfile, hfiles file p hlive (h.reads p hp).2 hholds⟩
  copied := by
    rw [hrun, hreturned, hclock]
    intro run hr p hp
    obtain ⟨hret, hholds⟩ := h.copied run hr p hp
    exact ⟨hret, fun hlive => hfiles run.temp p hlive (h.reads p hret).2 (hholds hlive)⟩

theorem Inv.write (h : s.Inv json) {t : ExpandTable} (ht : KeepsLive json s.clock (s.files file) t) :
    (s.write file t).Inv json :=
  h.of_files rfl rfl rfl rfl rfl (keepsLive_write ht)

theorem Inv.opened (h : s.Inv json) (file : ℕ) : (s.opened file).Inv json :=
  h.write (keepsLive_prune json s.clock (s.files file))

theorem Inv.openedActive (h : s.Inv json) : s.openedActive.Inv json := by
  unfold PackState.openedActive
  split
  · exact h
  · exact h.opened _

/-! ### Steps of the index run -/

theorem Inv.tick (h : s.Inv json) {now : SystemTime} (hle : s.clock.ns ≤ now.ns) :
    ({ s with clock := now } : PackState).Inv json := by
  have hsecs : s.clock.unixSecs ≤ now.unixSecs := by
    unfold SystemTime.unixSecs SystemTime.unixNanos
    omega
  exact
    { active_lt := h.active_lt
      temp_lt := h.temp_lt
      reads := h.reads
      held := fun p hp hlive => h.held p hp (hlive.mono hsecs)
      copied := fun run hr p hp =>
        ⟨(h.copied run hr p hp).1, fun hlive => (h.copied run hr p hp).2 (hlive.mono hsecs)⟩ }

theorem Inv.start (h : s.Inv json) (t : ExpandTable) (copied : List ExpandPack)
    (hcopied : ∀ p ∈ copied, p ∈ s.returned ∧ (p.Live s.clock → t.Holds json p)) :
    ({ (s.create t).opened s.nextFile with run := some ⟨s.nextFile, copied⟩ } : PackState).Inv json := by
  have hfile : ∀ file, file < s.nextFile →
      ((s.create t).opened s.nextFile).files file = s.files file := by
    intro file hlt
    have hne : file ≠ s.nextFile := by omega
    simp [PackState.opened, PackState.create, PackState.write, hne]
  have hnew : ((s.create t).opened s.nextFile).files s.nextFile =
      (Store.pruneExpiredExpandPacksAt (unixNowSecs s.clock) t).2 := by
    simp [PackState.opened, PackState.create, PackState.write]
  refine ⟨?_, ?_, h.reads, ?_, ?_⟩
  · intro file hmem
    exact Nat.lt_succ_of_lt (h.active_lt file hmem)
  · intro run hrun
    cases hrun
    exact Nat.lt_succ_self _
  · intro p hp hlive
    obtain ⟨file, hmem, hholds⟩ := h.held p hp hlive
    refine ⟨file, hmem, ?_⟩
    have := h.active_lt file hmem
    rw [hfile file this]
    exact hholds
  · intro run hrun p hp
    cases hrun
    obtain ⟨hret, hholds⟩ := hcopied p hp
    refine ⟨hret, fun hlive => ?_⟩
    rw [hnew]
    exact keepsLive_prune json s.clock t p hlive (h.reads p hret).2 (hholds hlive)

theorem Inv.seed (h : s.Inv json) (usable : Bool) : (s.seed usable).Inv json := by
  unfold PackState.seed
  split
  · rename_i file hactive
    have hopened := h.opened file
    refine hopened.start ((s.opened file).files file) s.returned ?_
    intro p hret
    refine ⟨hret, fun hlive => ?_⟩
    obtain ⟨other, hother, hholds⟩ := hopened.held p hret hlive
    have heq : other = file := Option.some_inj.1 ((Option.mem_def.1 hother).symm.trans hactive)
    rw [heq] at hholds
    exact hholds
  · exact h.start KeyedTable.empty [] fun p hp => by cases hp

/-- The rename: the new active file holds what the run copied, which are all the live packs. -/
theorem Inv.publish (h : s.Inv json) {run : IndexRun} (hrun : s.run = some run)
    (hall : ∀ p ∈ s.returned, p.Live s.clock → p ∈ run.copied) :
    ({ s with active := some run.temp, run := none } : PackState).Inv json := by
  have hmem : run ∈ s.run := Option.mem_def.2 hrun
  refine ⟨?_, ?_, h.reads, ?_, ?_⟩
  · intro file hfile
    cases hfile
    exact h.temp_lt run hmem
  · intro other hother
    cases hother
  · intro p hp hlive
    exact ⟨run.temp, rfl, (h.copied run hmem p (hall p hp hlive)).2 hlive⟩
  · intro other hother
    cases hother

/-! ### Insertions -/

theorem fits_stored {clock : SystemTime} {pack : NewExpandPack} {id : String}
    (h : clock.unixSecs + (max pack.ttlSecs 1).toNat < 2 ^ 63) : (pack.stored clock id).Fits := by
  unfold ExpandPack.Fits NewExpandPack.stored saturatingAdd
  dsimp only
  rw [toNat_unixNowSecs, UInt64.toNat_ofNat']
  omega

/-- A pack that is inserted into the active file is held there, next to the others. -/
theorem Inv.returned (h : s.Inv json) {p : ExpandPack} (hactive : s.active = some file)
    (hholds : (s.files file).Holds json p) (hid : IdReads p.id) (hfits : p.Fits) :
    ({ s with returned := p :: s.returned } : PackState).Inv json where
  active_lt := h.active_lt
  temp_lt := h.temp_lt
  reads := by
    intro q hq
    rcases List.mem_cons.1 hq with rfl | hq
    · exact ⟨hid, hfits⟩
    · exact h.reads q hq
  held := by
    intro q hq hlive
    rcases List.mem_cons.1 hq with rfl | hq
    · exact ⟨file, hactive, hholds⟩
    · exact h.held q hq hlive
  copied := by
    intro run hr q hq
    exact ⟨List.mem_cons_of_mem _ (h.copied run hr q hq).1, (h.copied run hr q hq).2⟩

variable (sha256 : List UInt8 → Vector UInt8 32)

theorem Inv.insert {s : PackState} (hjson : json.RoundTrips) (h : s.Inv json) (query : ℕ)
    (pack : NewExpandPack) (hmeets : s.Undisturbed (.insert query pack)) :
    (s.step sha256 json (.insert query pack)).Inv json := by
  simp only [step]
  cases hwriter : s.writers query with
  | none => exact h
  | some file =>
    dsimp only
    obtain ⟨hkeeps, hreturned⟩ :=
      insertExpandPackBestEffort_spec sha256 hjson s.clock pack (s.files file)
    rcases hins : insertExpandPackBestEffort sha256 json s.clock pack (s.files file) with ⟨result, t⟩
    rw [hins] at hkeeps hreturned
    cases result with
    | none => exact h.write hkeeps
    | some handle =>
      obtain ⟨hne, hid, hholds⟩ := hreturned handle rfl
      rcases hmeets with hblank | hclosed | ⟨hfile, hexpiry⟩
      · exact absurd hblank hne
      · rw [hwriter] at hclosed
        cases hclosed
      · refine (h.write hkeeps).returned (hfile.symm.trans hwriter) ?_ hid (fits_stored hexpiry)
        rw [files_write_self]
        exact hholds

/-- **A step that meets the conditions keeps the invariant.** -/
theorem Inv.step {s : PackState} (hjson : json.RoundTrips) (e : PackEvent) (h : s.Inv json)
    (hmeets : s.Undisturbed e) : (s.step sha256 json e).Inv json := by
  cases e with
  | tick now =>
    simp only [PackState.step]
    split
    · rename_i hle
      exact h.tick hle
    · exact h
  | openWriter query =>
    exact h.openedActive.of_files rfl rfl rfl rfl rfl fun file => KeepsLive.refl json _ _
  | insert query pack => exact h.insert sha256 hjson query pack hmeets
  | closeWriter query => exact h.of_files rfl rfl rfl rfl rfl fun file => KeepsLive.refl json _ _
  | expand id =>
    simp only [PackState.step]
    split
    · exact h
    · exact (h.opened _).write (keepsLive_get json _ _ _)
  | seed usable =>
    simp only [PackState.step]
    split
    · exact h.seed usable
    · exact h
  | discard =>
    exact
      { active_lt := h.active_lt
        temp_lt := fun _ hr => by cases hr
        reads := h.reads
        held := h.held
        copied := fun _ hr => by cases hr }
  | publish =>
    simp only [PackState.step]
    cases hrun : s.run with
    | none => exact h
    | some run =>
      have hopened := h.openedActive
      have hsame : s.openedActive.run = s.run ∧ s.openedActive.returned = s.returned ∧
          s.openedActive.clock = s.clock := by
        unfold PackState.openedActive
        split <;> exact ⟨rfl, rfl, rfl⟩
      refine hopened.publish (hsame.1.trans hrun) ?_
      rw [hsame.2.1, hsame.2.2]
      exact hmeets run (Option.mem_def.2 hrun)

end PackState

/-! ### Runs -/

/-- The text form of `null`. -/
def nullText : JsonText where
  toText
    | .null => .ok "null"
    | _ => .error "not null"
  ofText text := if text = "null" then some .null else none

theorem nullText_roundTrips : nullText.RoundTrips := by
  intro v text h
  cases v with
  | null =>
    cases h
    rfl
  | _ => cases h

/-- A pack of `greppy brief f`. -/
def briefPack : NewExpandPack where
  project := "p"
  command := "brief"
  query := "f"
  graphGeneration := 1
  summaryJson := .null
  payloadText := "fn f() \x7b\x7d\n"
  payloadJson := none
  ttlSecs := 86400

def briefClock : SystemTime := ⟨100 * 10 ^ 9, by decide, by decide⟩

/-- The hash that names `briefPack` at `briefClock`. -/
def briefHash : List UInt8 → Vector UInt8 32 := fun _ =>
  #v[188, 241, 15, 83, 210, 178, 222, 252, 103, 168, 214, 83, 234, 164, 34, 153, 174, 145, 146, 235, 29, 106, 169, 174, 241, 146, 252, 193, 104, 140, 55, 152]

/-- A writer, an insertion, a copy and its rename, one after the other. -/
def briefRun : List PackEvent := [.openWriter 0, .insert 0 briefPack, .seed true, .publish]

end Greppy
