/-
**The provider states of a project.**

`provider_state` says of each language of a project how complete its index is.  `upsert_provider_state`
writes one row, in a transaction of its own: it has its whole effect or none.  `replace_provider_states`
deletes the rows of a project in one transaction, and then writes the new ones in one each.  When one of
these fails, those before it stay, and so does the deletion.  The functions beside it that change several
rows, such as `bump_file_and_skip_generations`, do it in one transaction.
-/

import Greppy.GraphStore

set_option autoImplicit false

namespace Greppy

/-! ### The rows -/

/-- `ProviderState`, a row of `provider_state`. -/
structure ProviderState where
  project : String
  language : String
  providerVersion : String
  status : String
  supportedEdgeClasses : List String
  unsupportedEdgeClasses : List String
  filesSeen : ℤ
  filesIndexed : ℤ
  filesFailed : ℤ
  diagnostics : List String
  lastIndexedGeneration : ℕ
  updatedAt : String
deriving DecidableEq

/-- The primary key of `provider_state`. -/
def ProviderState.key (p : ProviderState) : String × String := (p.project, p.language)

/-- The table `provider_state`, and the projects that it refers to. -/
structure ProviderTables where
  projects : KeyedTable Project Project.name
  states : KeyedTable ProviderState ProviderState.key
  states_fk : ∀ p ∈ states.rows, (projects.find? p.project).isSome

namespace ProviderTables

variable (t : ProviderTables)

/-- `INSERT INTO provider_state … ON CONFLICT(project, language) DO UPDATE`. -/
def put (p : ProviderState) (h : (t.projects.find? p.project).isSome) : ProviderTables where
  projects := t.projects
  states := t.states.upsert p
  states_fk := by
    intro q hq
    rcases KeyedTable.mem_upsert.1 hq with rfl | ⟨hq, -⟩
    · exact h
    · exact t.states_fk q hq

/-- `DELETE FROM provider_state WHERE project = ?`. -/
def deleteStates (project : String) : ProviderTables where
  projects := t.projects
  states := t.states.filter fun p => decide (p.project ≠ project)
  states_fk := fun p hp => t.states_fk p (List.mem_of_mem_filter hp)

theorem find?_deleteStates (project : String) (k : String × String) :
    (t.deleteStates project).states.find? k = if k.1 = project then none else t.states.find? k := by
  rw [deleteStates, KeyedTable.find?_filter]
  have hproject {p : ProviderState} (hp : t.states.find? k = some p) : p.project = k.1 :=
    congrArg Prod.fst (KeyedTable.key_of_find? hp)
  split
  · rename_i hk
    refine Option.filter_eq_none_iff.2 fun p hp => ?_
    simpa using (hproject hp).trans hk
  · rename_i hk
    cases hp : t.states.find? k with
    | none => rfl
    | some p =>
      rw [Option.filter_some, if_pos]
      simpa [hproject hp] using hk

end ProviderTables

/-! ### The writes -/

/-- Where a write may fail: in the serialisation of a list, at the beginning of the transaction, in its
statement or when it is committed. -/
inductive WriteStep where
  | supported
  | unsupported
  | diagnostics
  | opening
  | execute
  | commit
deriving DecidableEq

/-- `Error`, of the store. -/
inductive ProviderError where
  | store (text : String)
  | sqlite (text : String)
  | foreignKey
deriving DecidableEq

/-- What fails in a write, and the text of its error. -/
abbrev WriteFaults : Type := WriteStep → Option String

section Writes

variable (faults : WriteFaults)

/-- `Store::transaction`, one statement, `commit`.  A transaction that is dropped is rolled back. -/
def transaction (execute : ProviderTables → Except ProviderError ProviderTables) (t : ProviderTables) :
    Except ProviderError Unit × ProviderTables :=
  match faults .opening with
  | some e => (.error (.sqlite e), t)
  | none =>
    match faults .execute with
    | some e => (.error (.sqlite e), t)
    | none =>
      match execute t with
      | .error e => (.error e, t)
      | .ok changed =>
        match faults .commit with
        | some e => (.error (.sqlite e), t)
        | none => (.ok (), changed)

/-- The statement of `upsert_provider_state`. -/
def insertState (p : ProviderState) (t : ProviderTables) : Except ProviderError ProviderTables :=
  if h : (t.projects.find? p.project).isSome then .ok (t.put p h) else .error .foreignKey

def upsertProviderState (p : ProviderState) (t : ProviderTables) :
    Except ProviderError Unit × ProviderTables :=
  match faults .supported with
  | some e => (.error (.store ("serialize provider supported edges: " ++ e)), t)
  | none =>
    match faults .unsupported with
    | some e => (.error (.store ("serialize provider unsupported edges: " ++ e)), t)
    | none =>
      match faults .diagnostics with
      | some e => (.error (.store ("serialize provider diagnostics: " ++ e)), t)
      | none => transaction faults (insertState p) t

end Writes

section Replacement

variable (faults : ℕ → WriteFaults)

/-- The loop of `replace_provider_states`, from a write on. -/
def upsertProviderStates : ℕ → List ProviderState → ProviderTables → Except ProviderError Unit × ProviderTables
  | _, [], t => (.ok (), t)
  | i, p :: states, t =>
    match upsertProviderState (faults i) p t with
    | (.ok (), t) => upsertProviderStates (i + 1) states t
    | (.error e, t) => (.error e, t)

/-- `replace_provider_states`.  Write `0` is the deletion. -/
def replaceProviderStates (project : String) (states : List ProviderState) (t : ProviderTables) :
    Except ProviderError Unit × ProviderTables :=
  match transaction (faults 0) (fun t => .ok (t.deleteStates project)) t with
  | (.error e, t) => (.error e, t)
  | (.ok (), t) => upsertProviderStates faults 1 states t

/-- A replacement is done or not done.  If it is done, the rows of the project are the new states, the last
of each language, and the rows of other projects are as they were. -/
def AllOrNothing (project : String) (states : List ProviderState) (t : ProviderTables) :
    Except ProviderError Unit × ProviderTables → Prop
  | (.error _, t') => ∀ language, t'.states.find? (project, language) = t.states.find? (project, language)
  | (.ok (), t') =>
    (∀ language, t'.states.find? (project, language) = lastWrite ProviderState.language states language) ∧
      ∀ other, other ≠ project → ∀ language,
        t'.states.find? (other, language) = t.states.find? (other, language)

/-! ### When a write fails -/

def deletionFails : Bool :=
  (faults 0 .opening).isSome || (faults 0 .execute).isSome || (faults 0 .commit).isSome

/-- A state can be written: nothing fails, and its project is there. -/
def canWrite (faults : WriteFaults) (projects : KeyedTable Project Project.name) (p : ProviderState) : Bool :=
  (faults .supported).isNone && (faults .unsupported).isNone && (faults .diagnostics).isNone &&
    (faults .opening).isNone && (faults .execute).isNone && (faults .commit).isNone &&
    (projects.find? p.project).isSome

/-- The states before the first one that cannot be written. -/
def written (projects : KeyedTable Project Project.name) : ℕ → List ProviderState → List ProviderState
  | _, [] => []
  | i, p :: states => if canWrite (faults i) projects p then p :: written projects (i + 1) states else []

/-- The states are of the project, except where that makes no difference: the last state of a language is of
the project, and the last state of another project and a language is the row that is there. -/
structure OwnStates (project : String) (states : List ProviderState) (t : ProviderTables) : Prop where
  own : ∀ language p, lastWrite ProviderState.language states language = some p → p.project = project
  other : ∀ k : String × String, k.1 ≠ project → ∀ p, lastWrite ProviderState.key states k = some p →
    t.states.find? k = some p

variable {faults}

theorem upsertProviderState_cases (faults : WriteFaults) (p : ProviderState) (t : ProviderTables) :
    (canWrite faults t.projects p = true ∧ ∃ h, upsertProviderState faults p t = (.ok (), t.put p h)) ∨
      (canWrite faults t.projects p = false ∧ ∃ e, upsertProviderState faults p t = (.error e, t)) := by
  unfold upsertProviderState transaction insertState canWrite
  cases faults .supported with
  | some e => exact .inr ⟨rfl, _, rfl⟩
  | none =>
    cases faults .unsupported with
    | some e => exact .inr ⟨rfl, _, rfl⟩
    | none =>
      cases faults .diagnostics with
      | some e => exact .inr ⟨rfl, _, rfl⟩
      | none =>
        cases faults .opening with
        | some e => exact .inr ⟨rfl, _, rfl⟩
        | none =>
          cases faults .execute with
          | some e => exact .inr ⟨rfl, _, rfl⟩
          | none =>
            by_cases h : (t.projects.find? p.project).isSome = true
            · simp only [dif_pos h]
              cases faults .commit with
              | some e => exact .inr ⟨by simp, _, rfl⟩
              | none => exact .inl ⟨by simpa using h, h, rfl⟩
            · simp only [dif_neg h]
              exact .inr ⟨by simp [h], _, rfl⟩

theorem deletion_cases (faults : ℕ → WriteFaults) (project : String) (t : ProviderTables) :
    (deletionFails faults = false ∧
        transaction (faults 0) (fun t => .ok (t.deleteStates project)) t = (.ok (), t.deleteStates project)) ∨
      (deletionFails faults = true ∧
        ∃ e, transaction (faults 0) (fun t => .ok (t.deleteStates project)) t = (.error e, t)) := by
  unfold deletionFails transaction
  cases faults 0 .opening with
  | some e => exact .inr ⟨rfl, _, rfl⟩
  | none =>
    cases faults 0 .execute with
    | some e => exact .inr ⟨rfl, _, rfl⟩
    | none =>
      cases faults 0 .commit with
      | some e => exact .inr ⟨rfl, _, rfl⟩
      | none => exact .inl ⟨rfl, rfl⟩

/-- What the loop leaves: the states before the first that cannot be written. -/
theorem upsertProviderStates_spec (faults : ℕ → WriteFaults) (i : ℕ) (states : List ProviderState)
    (t : ProviderTables) :
    (upsertProviderStates faults i states t).2.states =
        (written faults t.projects i states).foldl (fun rows p => rows.upsert p) t.states ∧
      ((upsertProviderStates faults i states t).1 = .ok () ↔ written faults t.projects i states = states) := by
  induction states generalizing i t with
  | nil => exact ⟨rfl, iff_of_true rfl rfl⟩
  | cons p states ih =>
    rw [upsertProviderStates, written]
    rcases upsertProviderState_cases (faults i) p t with ⟨hcan, h, hput⟩ | ⟨hcannot, e, herror⟩
    · obtain ⟨hrows, hok⟩ := ih (i + 1) (t.put p h)
      rw [hput, if_pos hcan]
      refine ⟨hrows, hok.trans ?_⟩
      rw [List.cons.injEq]
      exact (and_iff_right rfl).symm
    · rw [herror, if_neg (by rw [hcannot]; decide)]
      exact ⟨rfl, iff_of_false (by simp) (by simp)⟩

/-- **What a replacement leaves.**  Where the deletion fails, that is what was there.  Otherwise, it is the
states before the first that cannot be written, and no others of the project. -/
theorem replaceProviderStates_spec (faults : ℕ → WriteFaults) (project : String) (states : List ProviderState)
    (t : ProviderTables) :
    (deletionFails faults = true ∧ ∃ e, replaceProviderStates faults project states t = (.error e, t)) ∨
      (deletionFails faults = false ∧
        (∀ k, (replaceProviderStates faults project states t).2.states.find? k =
          (lastWrite ProviderState.key (written faults t.projects 1 states) k).or
            (if k.1 = project then none else t.states.find? k)) ∧
        ((replaceProviderStates faults project states t).1 = .ok () ↔
          written faults t.projects 1 states = states)) := by
  unfold replaceProviderStates
  rcases deletion_cases faults project t with ⟨hno, hdelete⟩ | ⟨hyes, e, herror⟩
  · obtain ⟨hrows, hok⟩ := upsertProviderStates_spec faults 1 states (t.deleteStates project)
    rw [hdelete]
    refine .inr ⟨hno, fun k => ?_, hok⟩
    rw [hrows, KeyedTable.find?_foldl_upsert, t.find?_deleteStates]
    rfl
  · rw [herror]
    exact .inl ⟨hyes, e, rfl⟩

/-- Where the states are of the project, the last of a language is the last write to its row. -/
theorem lastWrite_key_of_own {project : String} {states : List ProviderState}
    (hown : ∀ language p, lastWrite ProviderState.language states language = some p → p.project = project)
    (language : String) : lastWrite ProviderState.key states (project, language) =
      lastWrite ProviderState.language states language := by
  cases hlast : lastWrite ProviderState.language states language with
  | none =>
    refine lastWrite_eq_none_iff.2 fun hmem => lastWrite_eq_none_iff.1 hlast ?_
    obtain ⟨p, hp, hkey⟩ := List.mem_map.1 hmem
    exact List.mem_map.2 ⟨p, hp, congrArg Prod.snd hkey⟩
  | some p =>
    refine lastWrite_of_narrower hlast (fun q hq => congrArg Prod.snd hq) ?_
    exact Prod.ext (hown language p hlast) (mem_of_lastWrite hlast).2

/-- A replacement that comes to its end has done what it should for states of the project. -/
theorem allOrNothing_ok_iff {project : String} {states : List ProviderState} {t t' : ProviderTables}
    (hrows : ∀ k, t'.states.find? k =
      (lastWrite ProviderState.key states k).or (if k.1 = project then none else t.states.find? k)) :
    AllOrNothing project states t (.ok (), t') ↔ OwnStates project states t := by
  constructor
  · rintro ⟨hnew, hother⟩
    refine ⟨fun language p hp => ?_, fun k hk p hp => ?_⟩
    · have hrow := hnew language
      rw [hp] at hrow
      exact congrArg Prod.fst (KeyedTable.key_of_find? hrow)
    · have hrow := hother k.1 hk k.2
      rw [hrows, hp] at hrow
      exact hrow.symm
  · intro h
    refine ⟨fun language => ?_, fun other hne language => ?_⟩
    · rw [hrows, if_pos rfl, lastWrite_key_of_own h.own, Option.or_none]
    · rw [hrows, if_neg hne]
      cases hlast : lastWrite ProviderState.key states (other, language) with
      | none => exact Option.none_or
      | some p => exact (h.other (other, language) hne p hlast).symm

/-- **When a replacement is all or nothing.**  The deletion fails, or every state is written and they are of
the project, or those that are written before one fails are the rows that the project had. -/
theorem replaceProviderStates_allOrNothing_iff (faults : ℕ → WriteFaults) (project : String)
    (states : List ProviderState) (t : ProviderTables) :
    AllOrNothing project states t (replaceProviderStates faults project states t) ↔
      deletionFails faults = true ∨
        (written faults t.projects 1 states = states ∧ OwnStates project states t) ∨
        (written faults t.projects 1 states ≠ states ∧ ∀ language,
          lastWrite ProviderState.key (written faults t.projects 1 states) (project, language) =
            t.states.find? (project, language)) := by
  rcases replaceProviderStates_spec faults project states t with ⟨hfails, e, herror⟩ | ⟨hdeleted, hrows, hok⟩
  · rw [herror]
    exact iff_of_true (fun _ => rfl) (.inl hfails)
  · rw [or_iff_right (by rw [hdeleted]; decide)]
    cases hresult : replaceProviderStates faults project states t with
    | mk result t' =>
      rw [hresult] at hrows hok
      cases result with
      | ok u =>
        have hall := hok.1 rfl
        rw [hall] at hrows ⊢
        exact (allOrNothing_ok_iff hrows).trans
          ⟨fun h => .inl ⟨rfl, h⟩, fun h => h.elim And.right fun h => absurd rfl h.1⟩
      | error e =>
        have hsome : written faults t.projects 1 states ≠ states := fun h => by cases hok.2 h
        have hleft (language : String) : t'.states.find? (project, language) =
            lastWrite ProviderState.key (written faults t.projects 1 states) (project, language) := by
          rw [hrows, if_pos rfl, Option.or_none]
        constructor
        · intro h
          exact .inr ⟨hsome, fun language => (hleft language).symm.trans (h language)⟩
        · intro h
          obtain ⟨-, h⟩ := h.resolve_left fun h => hsome h.1
          exact fun language => (hleft language).trans (h language)

end Replacement

/-! ### A replacement that is cut short -/

/-- The state of a language that is indexed completely. -/
def acceptedState (project language : String) : ProviderState where
  project := project
  language := language
  providerVersion := "v1"
  status := "accepted"
  supportedEdgeClasses := []
  unsupportedEdgeClasses := []
  filesSeen := 1
  filesIndexed := 1
  filesFailed := 0
  diagnostics := []
  lastIndexedGeneration := 1
  updatedAt := "2026-06-29T00:00:00Z"

def twoLanguages : ProviderTables where
  projects := KeyedTable.empty.upsert ⟨"p", "x", "/p"⟩
  states := (KeyedTable.empty.upsert (acceptedState "p" "rust")).upsert (acceptedState "p" "python")
  states_fk := by decide

/-- The second state cannot be committed. -/
def fullDisk : ℕ → WriteFaults := fun i step =>
  if i = 2 ∧ step = .commit then some "database or disk is full" else none

/-- The row of the second language is lost. -/
theorem replaceProviderStates_loses_python :
    ¬ AllOrNothing "p" [acceptedState "p" "rust", acceptedState "p" "python"] twoLanguages
      (replaceProviderStates fullDisk "p" [acceptedState "p" "rust", acceptedState "p" "python"]
        twoLanguages) := by
  intro h
  have hpython := h "python"
  revert hpython
  decide

end Greppy
