/-
**At most one background job.**

`spawn_background_job` takes a lock that excludes other callers, looks whether the process named by the
job record is alive, starts a child if it is not, writes the record of the child, and returns.  The child
waits for its record, a second at most, then works, writing its own record as it goes, and removes the
record or marks it as failed at its end.  Callers and children are taken step by step in any order, and
each of them may be killed at any moment.

A child is started before it has a record.  Until the record is there the lock protects it, because its
parent holds it; from then on the record does, because nobody starts a child while the record names a
process that is alive.  So all depends on the parent going on to write the record once it has started the
child.
-/

import Greppy.BackgroundJob
import Greppy.GuardedRun

set_option autoImplicit false

namespace Greppy

/-! ### Callers and children -/

/-- Where a caller of `spawn_background_job` is. -/
inductive CallerPc where
  /-- About to take the lock. -/
  | calling
  /-- It holds the lock, and is about to look at the record. -/
  | locked
  /-- No job is alive: about to start a child. -/
  | starting
  /-- The child is started: about to write its record. -/
  | started (pid : ℕ) (request : JobRequest)
  /-- About to return, and to release the lock. -/
  | returning (result : Bool)
  | returned (result : Bool)
  | killed
deriving DecidableEq

def CallerPc.holds : CallerPc → Bool
  | .locked | .starting | .started _ _ | .returning _ => true
  | .calling | .returned _ | .killed => false

/-- The caller has started a child, and owes its record. -/
def CallerPc.owes : CallerPc → Bool
  | .started _ _ => true
  | _ => false

theorem CallerPc.ne_started {pc : CallerPc} (h : pc.owes = false) (pid : ℕ) (request : JobRequest) :
    pc ≠ .started pid request := by
  rintro rfl
  cases h

inductive ChildPc where
  /-- There is no child of this number. -/
  | unborn
  /-- It waits for its record, and has looked so many times. -/
  | waiting (env : JobEnv) (polls : ℕ)
  /-- It is about to read its record. -/
  | reading (env : JobEnv)
  | working (job : BackgroundJobGuard)
  /-- It has recorded its end. -/
  | ended
  /-- The process is gone; its number stays taken until it is waited for. -/
  | dead (waited : Bool)

/-- The child has neither died nor recorded its end. -/
def ChildPc.running : ChildPc → Bool
  | .waiting _ _ | .reading _ | .working _ => true
  | .unborn | .ended | .dead _ => false

/-- The callers, the children by process number, the lock, and the job record; a file that cannot be read
as a record counts as none. -/
structure JobState where
  lock : Option ℕ
  callers : ℕ → CallerPc
  children : ℕ → ChildPc
  parent : ℕ → ℕ
  record : Option JobRecord

/-- A step of a caller, of a child, or of the system. -/
inductive JobEvent where
  | acquire (caller : ℕ)
  /-- Look at the record; the system knows whether a process that is none of the children is alive. -/
  | look (caller : ℕ) (otherAlive : Bool)
  /-- Return because something fails before a child is started. -/
  | giveUp (caller : ℕ)
  | start (caller pid : ℕ) (request : JobRequest)
  | publish (caller : ℕ)
  | release (caller : ℕ)
  | killCaller (caller : ℕ)
  | poll (pid : ℕ)
  | attach (pid now : ℕ)
  | perform (pid now : ℕ) (e : JobStep)
  | finish (pid now : ℕ) (e : JobEnd)
  | killChild (pid : ℕ)
  | wait (pid : ℕ)

/-- Who takes the step: a caller, a child, or neither. -/
inductive JobActor where
  | caller (c : ℕ)
  | child (pid : ℕ)
  | system
deriving DecidableEq

def JobEvent.actor : JobEvent → JobActor
  | .acquire c | .look c _ | .giveUp c | .start c _ _ | .publish c | .release c => .caller c
  | .poll pid | .attach pid _ | .perform pid _ _ | .finish pid _ _ => .child pid
  | .killCaller _ | .killChild _ | .wait _ => .system

namespace JobState

/-- `process_is_alive`: a number has to fit in a `c_int`. -/
def processIsAlive (s : JobState) (otherAlive : Bool) (pid : ℕ) : Bool :=
  decide (pid < 2 ^ 31) &&
    match s.children pid with
    | .unborn => otherAlive
    | .dead true => false
    | .waiting _ _ | .reading _ | .working _ | .ended | .dead false => true

def Names (s : JobState) (pid : ℕ) : Prop := s.record.map JobRecord.pid = some pid

instance (s : JobState) (pid : ℕ) : Decidable (s.Names pid) :=
  inferInstanceAs (Decidable (s.record.map JobRecord.pid = some pid))

def setCaller (s : JobState) (c : ℕ) (pc : CallerPc) : JobState :=
  { s with callers := Function.update s.callers c pc }

def setChild (s : JobState) (pid : ℕ) (pc : ChildPc) : JobState :=
  { s with children := Function.update s.children pid pc }

/-- The child is there, and waits for its record. -/
def startChild (s : JobState) (c pid : ℕ) (request : JobRequest) : JobState :=
  { (s.setCaller c (.started pid request)).setChild pid (.waiting request.env 0) with
    parent := Function.update s.parent pid c }

/-- The lock is free again if this caller held it. -/
def unlock (s : JobState) (c : ℕ) : JobState :=
  { s with lock := if s.lock = some c then none else s.lock }

/-- What a step does to the file of the record: nothing, or it replaces it, or it removes it. -/
def writes (s : JobState) : JobEvent → Option (Option JobRecord)
  | .publish c =>
    match s.callers c with
    | .started pid request => some (some (request.record pid))
    | _ => none
  | .perform pid now e =>
    match s.children pid with
    | .working job => (job.perform pid now e).2.map some
    | _ => none
  | .finish pid now e =>
    match s.children pid with
    | .working job => some (job.finish pid now e)
    | _ => none
  | _ => none

/-- The rest of what a step does.  A step that cannot be taken leaves the state as it is. -/
def move (s : JobState) : JobEvent → JobState
  | .acquire c =>
    if s.callers c = .calling ∧ s.lock = none then { s.setCaller c .locked with lock := some c } else s
  | .look c otherAlive =>
    if s.callers c = .locked then
      match s.record with
      | none => s.setCaller c .starting
      | some record =>
        if s.processIsAlive otherAlive record.pid then s.setCaller c (.returning true)
        else s.setCaller c .starting
    else s
  | .giveUp c =>
    match s.callers c with
    | .calling => s.setCaller c (.returned false)
    | .starting => s.setCaller c (.returning false)
    | _ => s
  | .start c pid request =>
    match s.callers c, s.children pid with
    | .starting, .unborn =>
      if pid < 2 ^ 31 then s.startChild c pid request else s
    | _, _ => s
  | .publish c =>
    match s.callers c with
    | .started _ _ => s.setCaller c (.returning true)
    | _ => s
  | .release c =>
    match s.callers c with
    | .returning result => (s.setCaller c (.returned result)).unlock c
    | _ => s
  | .killCaller c => (s.setCaller c .killed).unlock c
  | .poll pid =>
    match s.children pid with
    | .waiting env polls =>
      if s.Names pid ∨ 100 ≤ polls + 1 then s.setChild pid (.reading env)
      else s.setChild pid (.waiting env (polls + 1))
    | _ => s
  | .attach pid now =>
    match s.children pid with
    | .reading env => s.setChild pid (.working (BackgroundJobGuard.fromEnv env s.record now))
    | _ => s
  | .perform pid now e =>
    match s.children pid with
    | .working job => s.setChild pid (.working (job.perform pid now e).1)
    | _ => s
  | .finish pid _ _ =>
    match s.children pid with
    | .working _ => s.setChild pid .ended
    | _ => s
  | .killChild pid =>
    match s.children pid with
    | .unborn | .dead _ => s
    | .waiting _ _ | .reading _ | .working _ | .ended => s.setChild pid (.dead false)
  | .wait pid =>
    match s.children pid with
    | .dead _ => s.setChild pid (.dead true)
    | _ => s

/-- A step: the file of the record, and the rest. -/
def step (s : JobState) (e : JobEvent) : JobState :=
  { s.move e with record := (s.writes e).getD s.record }

def initial (record : Option JobRecord) : JobState where
  lock := none
  callers := fun _ => .calling
  children := fun _ => .unborn
  parent := fun _ => 0
  record := record

/-- A caller that has started a child goes on to write its record. -/
def RecordsWritten (s : JobState) : JobEvent → Prop
  | .killCaller c => ∀ pid request, s.callers c ≠ .started pid request
  | _ => True

/-- At most one child has neither died nor recorded its end. -/
def AtMostOne (s : JobState) : Prop :=
  ∀ p q, (s.children p).running = true → (s.children q).running = true → p = q

/-- A record that names a running child is replaced or removed by no other process than the child and
its parent. -/
def RecordKept (s : JobState) : Prop :=
  ∀ e pid, (s.children pid).running = true → s.Names pid → s.writes e ≠ none →
    e.actor = .child pid ∨ e.actor = .caller (s.parent pid)

/-! ### The invariant -/

/-- A running child is protected by the lock of its parent, which is about to write the record, or by
the record. -/
structure Inv (s : JobState) : Prop where
  small : ∀ pid, (s.children pid).running = true → pid < 2 ^ 31
  locked : ∀ c, (s.callers c).holds = true → s.lock = some c
  /-- Whoever is about to start a child has seen that none is running. -/
  starting : ∀ c, s.callers c = .starting → ∀ pid, (s.children pid).running = false
  started : ∀ c pid request, s.callers c = .started pid request →
    s.parent pid = c ∧ ∀ q, (s.children q).running = true → q = pid
  tracked : ∀ pid, (s.children pid).running = true →
    s.Names pid ∨ ∃ request, s.callers (s.parent pid) = .started pid request

variable {s : JobState} {c pid : ℕ} {pc : CallerPc}

theorem names_unique {p q : ℕ} (hp : s.Names p) (hq : s.Names q) : p = q :=
  Option.some_inj.1 (hp.symm.trans hq)

theorem Inv.atMostOne (h : s.Inv) : s.AtMostOne := by
  intro p q hp hq
  rcases h.tracked p hp with hnames | ⟨request, hstarted⟩
  · rcases h.tracked q hq with hnames' | ⟨request, hstarted⟩
    · exact names_unique hnames hnames'
    · exact (h.started _ _ _ hstarted).2 p hp
  · exact ((h.started _ _ _ hstarted).2 q hq).symm

theorem Inv.holder_unique (h : s.Inv) {d : ℕ} (hc : (s.callers c).holds = true)
    (hd : (s.callers d).holds = true) : c = d :=
  Option.some_inj.1 ((h.locked c hc).symm.trans (h.locked d hd))

theorem inv_initial (record : Option JobRecord) : (initial record).Inv where
  small := fun _ h => by cases h
  locked := fun _ h => by cases h
  starting := fun _ h => by cases h
  started := fun _ _ _ h => by cases h
  tracked := fun _ h => by cases h

/-- Only a child and its parent write a record while one that names the child is there. -/
theorem Inv.recordKept (h : s.Inv) : s.RecordKept := by
  intro e pid hrun hnames hwrites
  cases e with
  | publish c =>
    simp only [writes] at hwrites
    split at hwrites
    · rename_i p request hstarted
      obtain ⟨hparent, honly⟩ := h.started c p request hstarted
      right
      rw [honly pid hrun, hparent]
      rfl
    · exact absurd rfl hwrites
  | perform p now e =>
    simp only [writes] at hwrites
    split at hwrites
    · rename_i job hworking
      have heq : p = pid := h.atMostOne p pid (by rw [hworking]; rfl) hrun
      left
      rw [heq]
      rfl
    · exact absurd rfl hwrites
  | finish p now e =>
    simp only [writes] at hwrites
    split at hwrites
    · rename_i job hworking
      have heq : p = pid := h.atMostOne p pid (by rw [hworking]; rfl) hrun
      left
      rw [heq]
      rfl
    · exact absurd rfl hwrites
  | _ => exact absurd rfl hwrites

/-! ### Steps of callers -/

theorem callers_setCaller (s : JobState) (c d : ℕ) (pc : CallerPc) :
    (s.setCaller c pc).callers d = if d = c then pc else s.callers d :=
  Function.update_apply _ _ _ _

theorem children_setChild (s : JobState) (p q : ℕ) (pc : ChildPc) :
    (s.setChild p pc).children q = if q = p then pc else s.children q :=
  Function.update_apply _ _ _ _

theorem not_started (hpc : s.callers c = pc) (h : pc.owes = false) (pid : ℕ) (request : JobRequest) :
    s.callers c ≠ .started pid request := by
  rw [hpc]
  exact CallerPc.ne_started h pid request

/-- A caller that has not started a child goes on to a place where it does not owe a record either. -/
theorem Inv.moveCaller (h : s.Inv) (lock : Option ℕ)
    (hold : ∀ pid request, s.callers c ≠ .started pid request)
    (hnew : ∀ pid request, pc ≠ .started pid request)
    (hstarting : pc = .starting → ∀ pid, (s.children pid).running = false)
    (hholds : pc.holds = true → lock = some c)
    (hothers : ∀ d, d ≠ c → (s.callers d).holds = true → lock = some d) :
    ({ s.setCaller c pc with lock := lock } : JobState).Inv where
  small := h.small
  locked := by
    intro d hd
    change ((s.setCaller c pc).callers d).holds = true at hd
    rw [callers_setCaller] at hd
    split at hd
    · rename_i heq
      rw [heq]
      exact hholds hd
    · rename_i hne
      exact hothers d hne hd
  starting := by
    intro d hd
    change (s.setCaller c pc).callers d = .starting at hd
    rw [callers_setCaller] at hd
    split at hd
    · exact hstarting hd
    · exact h.starting d hd
  started := by
    intro d pid request hd
    change (s.setCaller c pc).callers d = .started pid request at hd
    rw [callers_setCaller] at hd
    split at hd
    · exact absurd hd (hnew pid request)
    · exact h.started d pid request hd
  tracked := by
    intro pid hrun
    rcases h.tracked pid hrun with hnames | ⟨request, hstarted⟩
    · exact .inl hnames
    · right
      refine ⟨request, ?_⟩
      change (s.setCaller c pc).callers (s.parent pid) = .started pid request
      have hne : s.parent pid ≠ c := by
        intro heq
        rw [heq] at hstarted
        exact hold pid request hstarted
      rw [callers_setCaller, if_neg hne]
      exact hstarted

theorem Inv.setCaller (h : s.Inv) (hold : ∀ pid request, s.callers c ≠ .started pid request)
    (hnew : ∀ pid request, pc ≠ .started pid request)
    (hstarting : pc = .starting → ∀ pid, (s.children pid).running = false)
    (hholds : pc.holds = true → (s.callers c).holds = true) : (s.setCaller c pc).Inv :=
  h.moveCaller s.lock hold hnew hstarting (fun hpc => h.locked c (hholds hpc))
    fun d _ hd => h.locked d hd

theorem Inv.leave (h : s.Inv) (hold : ∀ pid request, s.callers c ≠ .started pid request)
    (hpc : pc.holds = false) : ((s.setCaller c pc).unlock c).Inv := by
  refine h.moveCaller (if s.lock = some c then none else s.lock) hold ?_ ?_ ?_ ?_
  · rintro pid request rfl
    cases hpc
  · rintro rfl
    cases hpc
  · intro hholds
    rw [hpc] at hholds
    cases hholds
  · intro d hne hd
    have hlock := h.locked d hd
    rw [if_neg]
    · exact hlock
    · intro heq
      exact hne (Option.some_inj.1 (hlock.symm.trans heq))

theorem Inv.acquire (h : s.Inv) (c : ℕ) : (s.move (.acquire c)).Inv := by
  simp only [move]
  split
  · rename_i hfree
    refine h.moveCaller (some c) (not_started hfree.1 rfl) (CallerPc.ne_started rfl) ?_
      (fun _ => rfl) ?_
    · intro hlocked
      cases hlocked
    · intro d _ hd
      have hlock := h.locked d hd
      rw [hfree.2] at hlock
      cases hlock
  · exact h

/-- A caller that finds no job alive knows that no child is running: a running child would have a record,
since its parent, if it still owed the record, would hold the lock. -/
theorem Inv.none_running (h : s.Inv) (hlocked : s.callers c = .locked) {otherAlive : Bool}
    (hdead : ∀ record ∈ s.record, s.processIsAlive otherAlive record.pid = false) (pid : ℕ) :
    (s.children pid).running = false := by
  by_contra hrun
  rw [Bool.not_eq_false] at hrun
  rcases h.tracked pid hrun with hnames | ⟨request, hstarted⟩
  · obtain ⟨record, hrecord, hpid⟩ := Option.map_eq_some_iff.1 hnames
    have hgone := hdead record (Option.mem_def.2 hrecord)
    rw [hpid, processIsAlive, decide_eq_true (h.small pid hrun), Bool.true_and] at hgone
    cases hpc : s.children pid with
    | waiting env polls => simp [hpc] at hgone
    | reading env => simp [hpc] at hgone
    | working job => simp [hpc] at hgone
    | unborn => simp [hpc, ChildPc.running] at hrun
    | ended => simp [hpc, ChildPc.running] at hrun
    | dead waited => simp [hpc, ChildPc.running] at hrun
  · have heq : s.parent pid = c := h.holder_unique (by rw [hstarted]; rfl) (by rw [hlocked]; rfl)
    rw [heq, hlocked] at hstarted
    cases hstarted

theorem Inv.look (h : s.Inv) (c : ℕ) (otherAlive : Bool) : (s.move (.look c otherAlive)).Inv := by
  simp only [move]
  split
  · rename_i hlocked
    have hold := not_started hlocked rfl
    have hholds : (s.callers c).holds = true := by
      rw [hlocked]
      rfl
    have hstart : (∀ record ∈ s.record, s.processIsAlive otherAlive record.pid = false) →
        (s.setCaller c .starting).Inv := by
      intro hdead
      exact h.setCaller hold (CallerPc.ne_started rfl) (fun _ => h.none_running hlocked hdead)
        fun _ => hholds
    split
    · rename_i hnone
      exact hstart fun record hrecord => by rw [hnone] at hrecord; cases hrecord
    · rename_i record hrecord
      split
      · exact h.setCaller hold (CallerPc.ne_started rfl) (fun h => by cases h) fun _ => hholds
      · rename_i hdead
        refine hstart fun record' hrecord' => ?_
        rw [Option.mem_def.1 hrecord'] at hrecord
        cases hrecord
        simpa using hdead
  · exact h

theorem Inv.giveUp (h : s.Inv) (c : ℕ) : (s.move (.giveUp c)).Inv := by
  simp only [move]
  cases hpc : s.callers c with
  | calling =>
    exact h.setCaller (not_started hpc rfl) (CallerPc.ne_started rfl) (fun h => by cases h)
      fun h => by cases h
  | starting =>
    exact h.setCaller (not_started hpc rfl) (CallerPc.ne_started rfl) (fun h => by cases h)
      fun _ => by rw [hpc]; rfl
  | _ => exact h

theorem Inv.release (h : s.Inv) (c : ℕ) : (s.move (.release c)).Inv := by
  simp only [move]
  cases hpc : s.callers c with
  | returning result => exact h.leave (not_started hpc rfl) rfl
  | _ => exact h

theorem callers_startChild (s : JobState) (c pid : ℕ) (request : JobRequest) (d : ℕ) :
    (s.startChild c pid request).callers d =
      if d = c then .started pid request else s.callers d :=
  Function.update_apply _ _ _ _

theorem children_startChild (s : JobState) (c pid : ℕ) (request : JobRequest) (q : ℕ) :
    (s.startChild c pid request).children q =
      if q = pid then .waiting request.env 0 else s.children q :=
  Function.update_apply _ _ _ _

theorem parent_startChild (s : JobState) (c pid : ℕ) (request : JobRequest) :
    (s.startChild c pid request).parent pid = c :=
  Function.update_self _ _ _

/-- The only child that is running then is the one that was started, and its parent holds the lock. -/
theorem Inv.startChild (h : s.Inv) (request : JobRequest) (hstarting : s.callers c = .starting)
    (hpid : pid < 2 ^ 31) : (s.startChild c pid request).Inv := by
  have honly : ∀ q, ((s.startChild c pid request).children q).running = true → q = pid := by
    intro q hrun
    rw [children_startChild] at hrun
    split at hrun
    · assumption
    · rw [h.starting c hstarting q] at hrun
      cases hrun
  have hholds : (s.callers c).holds = true := by
    rw [hstarting]
    rfl
  refine ⟨?_, ?_, ?_, ?_, ?_⟩
  · intro q hrun
    rw [honly q hrun]
    exact hpid
  · intro d hd
    rw [callers_startChild] at hd
    split at hd
    · rename_i heq
      rw [heq]
      exact h.locked c hholds
    · exact h.locked d hd
  · intro d hd
    rw [callers_startChild] at hd
    split at hd
    · cases hd
    · rename_i hne
      exact absurd (h.holder_unique (by rw [hd]; rfl) hholds) hne
  · intro d p request' hd
    rw [callers_startChild] at hd
    split at hd
    · rename_i heq
      cases hd
      rw [heq]
      exact ⟨parent_startChild s c pid request, honly⟩
    · rename_i hne
      exact absurd (h.holder_unique (by rw [hd]; rfl) hholds) hne
  · intro q hrun
    right
    refine ⟨request, ?_⟩
    rw [honly q hrun, parent_startChild, callers_startChild, if_pos rfl]

theorem Inv.start (h : s.Inv) (c pid : ℕ) (request : JobRequest) :
    (s.move (.start c pid request)).Inv := by
  simp only [move]
  split
  · rename_i hstarting _
    split
    · rename_i hpid
      exact h.startChild request hstarting hpid
    · exact h
  · exact h

/-! ### The record -/

theorem Inv.publish (h : s.Inv) {request : JobRequest}
    (hstarted : s.callers c = .started pid request) :
    ({ s.setCaller c (.returning true) with record := some (request.record pid) } : JobState).Inv := by
  obtain ⟨-, honly⟩ := h.started c pid request hstarted
  have hholds : (s.callers c).holds = true := by
    rw [hstarted]
    rfl
  have hcallers : ∀ d, (s.setCaller c (.returning true)).callers d =
      if d = c then .returning true else s.callers d := fun d => callers_setCaller s c d _
  refine ⟨h.small, ?_, ?_, ?_, ?_⟩
  · intro d hd
    change ((s.setCaller c (.returning true)).callers d).holds = true at hd
    rw [hcallers] at hd
    split at hd
    · rename_i heq
      rw [heq]
      exact h.locked c hholds
    · exact h.locked d hd
  · intro d hd
    change (s.setCaller c (.returning true)).callers d = .starting at hd
    rw [hcallers] at hd
    split at hd
    · cases hd
    · exact h.starting d hd
  · intro d p request' hd
    change (s.setCaller c (.returning true)).callers d = .started p request' at hd
    rw [hcallers] at hd
    split at hd
    · cases hd
    · rename_i hne
      exact absurd (h.holder_unique (by rw [hd]; rfl) hholds) hne
  · intro q hrun
    left
    rw [honly q hrun]
    rfl

theorem Inv.moveChild (h : s.Inv) {pc : ChildPc} (record : Option JobRecord)
    (hrun : pc.running = true → (s.children pid).running = true)
    (hrecord : ∀ q, ((s.setChild pid pc).children q).running = true →
      record = s.record ∨ record.map JobRecord.pid = some q) :
    ({ s.setChild pid pc with record := record } : JobState).Inv := by
  have hold : ∀ q, ((s.setChild pid pc).children q).running = true →
      (s.children q).running = true := by
    intro q hq
    rw [children_setChild] at hq
    split at hq
    · rename_i heq
      rw [heq]
      exact hrun hq
    · exact hq
  refine ⟨fun q hq => h.small q (hold q hq), h.locked, ?_, ?_, ?_⟩
  · intro c hc q
    cases hq : ((s.setChild pid pc).children q).running with
    | false => rfl
    | true =>
      have hfalse := h.starting c hc q
      rw [hold q hq] at hfalse
      cases hfalse
  · intro c p request hc
    obtain ⟨hparent, honly⟩ := h.started c p request hc
    exact ⟨hparent, fun q hq => honly q (hold q hq)⟩
  · intro q hq
    rcases hrecord q hq with heq | hnames
    · rw [heq]
      exact h.tracked q (hold q hq)
    · exact .inl hnames

theorem Inv.setChild (h : s.Inv) {pc : ChildPc}
    (hrun : pc.running = true → (s.children pid).running = true) : (s.setChild pid pc).Inv :=
  h.moveChild s.record hrun fun _ _ => .inl rfl

/-- What a running child writes is about itself, and no other child is running. -/
theorem Inv.writeRecord (h : s.Inv) {pc : ChildPc} {record : Option JobRecord}
    (hrun : (s.children pid).running = true)
    (hrecord : pc.running = true → record = s.record ∨ record.map JobRecord.pid = some pid) :
    ({ s.setChild pid pc with record := record } : JobState).Inv := by
  refine h.moveChild record (fun _ => hrun) ?_
  intro q hq
  rw [children_setChild] at hq
  split at hq
  · rename_i heq
    rw [heq]
    exact hrecord hq
  · rename_i hne
    exact absurd (h.atMostOne q pid hq hrun) hne

theorem Inv.perform (h : s.Inv) (pid now : ℕ) (e : JobStep) :
    (s.step (.perform pid now e)).Inv := by
  cases hpc : s.children pid with
  | working job =>
    have hrun : (s.children pid).running = true := by
      rw [hpc]
      rfl
    simp only [step, move, writes, hpc]
    refine h.writeRecord hrun fun _ => ?_
    cases hwritten : (job.perform pid now e).2 with
    | none => exact .inl rfl
    | some record => exact .inr (congrArg some (BackgroundJobGuard.pid_perform hwritten))
  | _ =>
    simp only [step, move, writes, hpc]
    exact h

theorem Inv.finish (h : s.Inv) (pid now : ℕ) (e : JobEnd) : (s.step (.finish pid now e)).Inv := by
  cases hpc : s.children pid with
  | working job =>
    have hrun : (s.children pid).running = true := by
      rw [hpc]
      rfl
    simp only [step, move, writes, hpc]
    exact h.writeRecord hrun fun hended => by cases hended
  | _ =>
    simp only [step, move, writes, hpc]
    exact h

/-! ### Steps and runs -/

theorem step_eq_move {e : JobEvent} (hwrites : s.writes e = none)
    (hrecord : (s.move e).record = s.record) : s.step e = s.move e := by
  unfold step
  rw [hwrites, Option.getD_none, ← hrecord]

theorem Inv.poll (h : s.Inv) (pid : ℕ) : (s.move (.poll pid)).Inv := by
  simp only [move]
  cases hpc : s.children pid with
  | waiting env polls =>
    dsimp only
    split
    · exact h.setChild fun _ => by rw [hpc]; rfl
    · exact h.setChild fun _ => by rw [hpc]; rfl
  | _ => exact h

theorem Inv.attach (h : s.Inv) (pid now : ℕ) : (s.move (.attach pid now)).Inv := by
  simp only [move]
  cases hpc : s.children pid with
  | reading env => exact h.setChild fun _ => by rw [hpc]; rfl
  | _ => exact h

theorem Inv.killChild (h : s.Inv) (pid : ℕ) : (s.move (.killChild pid)).Inv := by
  simp only [move]
  split
  · exact h
  · exact h
  · exact h.setChild fun hdead => by cases hdead
  · exact h.setChild fun hdead => by cases hdead
  · exact h.setChild fun hdead => by cases hdead
  · exact h.setChild fun hdead => by cases hdead

theorem Inv.wait (h : s.Inv) (pid : ℕ) : (s.move (.wait pid)).Inv := by
  simp only [move]
  split
  · exact h.setChild fun hdead => by cases hdead
  · exact h

theorem record_move (s : JobState) (e : JobEvent) : (s.move e).record = s.record := by
  cases e with
  | look c otherAlive =>
    simp only [move]
    split
    · split
      · rfl
      · split <;> rfl
    · rfl
  | start c pid request =>
    simp only [move]
    split
    · split <;> rfl
    · rfl
  | poll pid =>
    simp only [move]
    split
    · split <;> rfl
    · rfl
  | killCaller c => rfl
  | _ =>
    simp only [move]
    split <;> rfl

/-- **A step keeps the invariant**, unless it kills a caller that owes a record. -/
theorem Inv.step (e : JobEvent) (h : s.Inv) (hwritten : s.RecordsWritten e) : (s.step e).Inv := by
  have hmove : s.writes e = none → (s.move e).Inv → (s.step e).Inv := by
    intro hwrites hinv
    rw [step_eq_move hwrites (record_move s e)]
    exact hinv
  cases e with
  | acquire c => exact hmove rfl (h.acquire c)
  | look c otherAlive => exact hmove rfl (h.look c otherAlive)
  | giveUp c => exact hmove rfl (h.giveUp c)
  | start c pid request => exact hmove rfl (h.start c pid request)
  | release c => exact hmove rfl (h.release c)
  | killCaller c => exact hmove rfl (h.leave hwritten rfl)
  | poll pid => exact hmove rfl (h.poll pid)
  | attach pid now => exact hmove rfl (h.attach pid now)
  | killChild pid => exact hmove rfl (h.killChild pid)
  | wait pid => exact hmove rfl (h.wait pid)
  | perform pid now e => exact h.perform pid now e
  | finish pid now e => exact h.finish pid now e
  | publish c =>
    cases hpc : s.callers c with
    | started pid request =>
      simp only [JobState.step, move, writes, hpc]
      exact h.publish hpc
    | _ =>
      simp only [JobState.step, move, writes, hpc]
      exact h

instance (s : JobState) : (e : JobEvent) → Decidable (s.RecordsWritten e)
  | .killCaller c =>
    match h : s.callers c with
    | .started pid request => isFalse fun hne => hne pid request h
    | .calling | .locked | .starting | .returning _ | .returned _ | .killed =>
      isTrue fun _ _ heq => by rw [h] at heq; cases heq
  | .acquire _ | .look _ _ | .giveUp _ | .start _ _ _ | .publish _ | .release _ | .poll _
  | .attach _ _ | .perform _ _ _ | .finish _ _ _ | .killChild _ | .wait _ => isTrue trivial

end JobState

/-- **At most one background job runs.**  In every state that callers and children can reach, in any
order of their steps and whichever of them are killed, as long as a caller that has started a child goes
on to write its record: at most one child has neither died nor recorded its end, and a record that names
such a child is only touched by the child and its parent. -/
theorem one_background_job (record : Option JobRecord) (es : List JobEvent)
    (h : Guarded JobState.step JobState.RecordsWritten (JobState.initial record) es) :
    ∀ s ∈ es.scanl JobState.step (JobState.initial record), s.AtMostOne ∧ s.RecordKept := by
  intro s hs
  have hinv : s.Inv :=
    forall_mem_scanl_of_guarded (fun s e hs he => hs.step e he) (JobState.inv_initial record) h s hs
  exact ⟨hinv.atMostOne, hinv.recordKept⟩

/-- A refresh after the workspace has changed. -/
def driftRequest : JobRequest where
  cause := "workspace-drift"
  kind := "index"
  startedAt := 1000
  targetGeneration := 2
  backend := none
  device := none
  totalSpans := 0
  etaSeconds := none

/-- The child of the first caller looks before its record is there; the second caller waits for the lock,
and then finds the job alive; the third one is killed; when the job is done a fourth caller starts
another. -/
def driftRun : List JobEvent :=
  [.acquire 0, .look 0 false, .start 0 100 driftRequest, .poll 100, .acquire 1, .publish 0, .release 0,
    .acquire 1, .poll 100, .look 1 false, .attach 100 1001, .killCaller 2, .release 1,
    .perform 100 1002 .embeddingLoading, .finish 100 1003 .complete, .acquire 3, .look 3 false,
    .start 3 101 driftRequest, .killChild 100, .publish 3]

theorem one_background_job_drift :
    (∃ s ∈ driftRun.scanl JobState.step (JobState.initial none), (s.children 101).running = true) ∧
    ∀ s ∈ driftRun.scanl JobState.step (JobState.initial none), s.AtMostOne ∧ s.RecordKept :=
  ⟨by decide, one_background_job none driftRun (by decide)⟩

/-- A caller that is killed in between leaves a child without a record, and the next one starts another. -/
example :
    let s := [JobEvent.acquire 0, .look 0 false, .start 0 100 driftRequest, .killCaller 0, .acquire 1,
      .look 1 false, .start 1 101 driftRequest].foldl JobState.step (JobState.initial none)
    (s.children 100).running = true ∧ (s.children 101).running = true := by
  decide

end Greppy
