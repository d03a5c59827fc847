/-
**The idle exit of the inference daemon.**

The inference loop leaves when the last activity lies far enough back and it reads a counter of zero;
then the process sets the stop flag and exits.  A connection is only safe from the exit once it is
counted.  Between the moment the accept loop takes a stream and the moment it counts it, and from the
moment the counter is read until the process is gone, a client can connect and never be answered.

Nothing else can go wrong: as long as the loops run, both queues are open, so that every connection
that leaves a thread is answered, or its peer has gone.
-/

import Greppy.InferenceDaemon

set_option autoImplicit false

namespace Greppy

/-! ### Before and after the check -/

def InferPc.inLoop : InferPc → Bool
  | .stopping _ => false
  | .stopped _ => false
  | .returned _ => false
  | .exited _ => false
  | _ => true

def InferPc.leftIdle : InferPc → Bool
  | .stopping idle => idle
  | .stopped idle => idle
  | .returned idle => idle
  | .exited idle => idle
  | _ => false

def AcceptPc.goesOn : AcceptPc → Bool
  | .closing _ last => !last
  | .touching last => !last
  | .done => false
  | _ => true

/-- The other threads run, and no connection has been dropped. -/
structure Alive (s : Daemon) : Prop where
  stop : s.stop = false
  accept : s.accept.goesOn = true
  readers : ∀ pc ∈ s.readers, pc ≠ .done
  stranded : s.stranded = []

structure Quiet (s : Daemon) : Prop where
  uncounted : s.accept.heldUncounted = 0
  waiting : s.waiting = 0
  closing : s.closing = 0

/-- When an event is harmless for the idle exit: at a check that succeeds no stream is uncounted, and
after it none is taken. -/
def IdleGuard (s : Daemon) : DaemonEvent → Prop
  | .infer _ _ => s.infer = .checkPending → s.pending = 0 → s.accept.heldUncounted = 0
  | .accept ok => ok = true → s.accept = .listening → s.infer.leftIdle = false
  | _ => True

instance (s : Daemon) : (e : DaemonEvent) → Decidable (IdleGuard s e)
  | .infer _ _ => inferInstanceAs
      (Decidable (s.infer = .checkPending → s.pending = 0 → s.accept.heldUncounted = 0))
  | .accept ok => inferInstanceAs
      (Decidable (ok = true → s.accept = .listening → s.infer.leftIdle = false))
  | .reader _ _ _ => isTrue trivial
  | .tick _ => isTrue trivial

/-! ### While the loop runs, the queues are open -/

variable {s : Daemon} {policy : ServerPolicy} {e : DaemonEvent}

theorem Alive.readersDone (h : Alive s) (hbounded : s.Bounded) : s.readersDone = false := by
  have hpos : 0 < s.readers.length := by
    rw [hbounded.readers]
    decide
  obtain ⟨pc, hpc⟩ := List.exists_mem_of_length_pos hpos
  have hne := h.readers pc hpc
  unfold Daemon.readersDone
  rw [List.all_eq_false]
  exact ⟨pc, hpc, by simpa using hne⟩

theorem Alive.setAccept (h : Alive s) {pc : AcceptPc} (hpc : pc.goesOn = true) :
    Alive (s.setAccept pc) := ⟨h.stop, hpc, h.readers, h.stranded⟩

theorem Alive.setInfer (h : Alive s) (pc : InferPc) : Alive (s.setInfer pc) :=
  ⟨h.stop, h.accept, h.readers, h.stranded⟩

theorem Alive.setReader (h : Alive s) (i : ℕ) {pc : ReaderPc} (hpc : pc ≠ .done) :
    Alive (s.setReader i pc) := by
  refine ⟨h.stop, h.accept, fun other hother => ?_, h.stranded⟩
  rcases List.mem_or_eq_of_mem_set hother with hold | rfl
  · exact h.readers other hold
  · exact hpc

/-- An operation that changes neither a thread, the stop flag nor the connections dropped. -/
theorem Alive.of_same {u : Daemon} (h : Alive s) (hstop : u.stop = s.stop)
    (haccept : u.accept = s.accept) (hreaders : u.readers = s.readers)
    (hstranded : u.stranded = s.stranded) : Alive u := by
  refine ⟨hstop.trans h.stop, ?_, ?_, hstranded.trans h.stranded⟩
  · rw [haccept]
    exact h.accept
  · rw [hreaders]
    exact h.readers

theorem Alive.setAcceptQueue (h : Alive s) (queue : List ℕ) :
    Alive (s.setAcceptQueue queue) := h.of_same rfl rfl rfl rfl

theorem Alive.setJobs (h : Alive s) (jobs : List Job) : Alive (s.setJobs jobs) :=
  h.of_same rfl rfl rfl rfl

theorem acceptStep_alive (h : Alive s) (hbounded : s.Bounded) (ok : Bool) :
    Alive (acceptStep s ok) := by
  have hgoes := h.accept
  unfold acceptStep
  cases hpc : s.accept with
  | top =>
    simp only [h.stop]
    exact h.setAccept rfl
  | listening =>
    cases ok with
    | true => exact (h.of_same rfl rfl rfl rfl : Alive s.takeStream).setAccept rfl
    | false => exact h.setAccept rfl
  | taken c => exact (h.of_same rfl rfl rfl rfl : Alive (s.countUp c)).setAccept rfl
  | sending c =>
    simp only [h.readersDone hbounded]
    split
    · exact absurd ‹_› Bool.false_ne_true
    · split
      · exact (h.setAcceptQueue _).setAccept rfl
      · exact h.setAccept rfl
  | refusing c => exact (h.of_same rfl rfl rfl rfl : Alive (s.respond c ok)).setAccept rfl
  | closing c last =>
    rw [hpc] at hgoes
    exact (h.of_same rfl rfl rfl rfl : Alive (s.finish c)).setAccept hgoes
  | touching last =>
    rw [hpc] at hgoes
    cases last with
    | true => cases hgoes
    | false => exact (h.of_same rfl rfl rfl rfl : Alive s.touch).setAccept rfl
  | done =>
    rw [hpc] at hgoes
    cases hgoes

theorem readerStep_alive (h : Alive s) (hloop : s.infer.inLoop = true) (i : ℕ) (request : Request)
    (ok : Bool) {pc : ReaderPc} (hpc : pc ≠ .done) :
    Alive (readerStep policy s i request ok pc) := by
  cases pc with
  | top =>
    simp only [readerStep, h.stop]
    exact h.setReader i (by decide)
  | receiving =>
    simp only [readerStep]
    split
    · exact (h.setAcceptQueue _).setReader i (fun hdone => by cases hdone)
    · split
      · rename_i hended
        have hgoes := h.accept
        rw [hended] at hgoes
        cases hgoes
      · exact h
  | reading c =>
    cases request with
    | noTimeouts =>
      exact (h.of_same rfl rfl rfl rfl : Alive (s.respond c false)).setReader i
        (fun hdone => by cases hdone)
    | _ => exact h.setReader i (fun hdone => by cases hdone)
  | replying c reply =>
    exact (h.of_same rfl rfl rfl rfl : Alive (s.respond c ok)).setReader i
      (fun hdone => by cases hdone)
  | queueing c =>
    have hopen : s.jobsClosed = false := by
      unfold Daemon.jobsClosed
      cases hinfer : s.infer with
      | returned idle =>
        rw [hinfer] at hloop
        cases hloop
      | exited idle =>
        rw [hinfer] at hloop
        cases hloop
      | _ => rfl
    simp only [readerStep, hopen]
    split
    · exact absurd ‹_› Bool.false_ne_true
    · split
      · exact (h.setJobs _).setReader i (fun hdone => by cases hdone)
      · exact h.setReader i (fun hdone => by cases hdone)
  | closing c =>
    exact (h.of_same rfl rfl rfl rfl : Alive (s.finish c)).setReader i
      (fun hdone => by cases hdone)
  | touching =>
    exact (h.of_same rfl rfl rfl rfl : Alive s.touch).setReader i (fun hdone => by cases hdone)
  | done => exact absurd rfl hpc

/-- What an operation of the inference loop does while it runs: it goes on, or the check succeeds. -/
theorem inferStep_alive {policy : ServerPolicy} {s : Daemon} (h : Alive s) (hbounded : s.Bounded)
    (hloop : s.infer.inLoop = true) (result : JobResult) (ok : Bool) :
    ((inferStep policy s result ok).infer.inLoop = true ∧ Alive (inferStep policy s result ok)) ∨
      (inferStep policy s result ok = s.setInfer (.stopping true) ∧ s.infer = .checkPending ∧
        s.pending = 0) := by
  unfold inferStep
  cases hpc : s.infer with
  | receiving =>
    left
    cases hjobs : s.jobs with
    | cons job rest => exact ⟨rfl, (h.setJobs rest).setInfer _⟩
    | nil =>
      simp only [h.readersDone hbounded]
      exact ⟨rfl, h.setInfer _⟩
  | working job =>
    refine .inl ⟨?_, h.setInfer _⟩
    show (afterJob job s.now result).inLoop = true
    unfold afterJob
    split
    · rfl
    · cases result <;> rfl
  | replying c reply again =>
    exact .inl ⟨rfl, (h.of_same rfl rfl rfl rfl : Alive (s.respond c ok)).setInfer _⟩
  | closing c again =>
    exact .inl ⟨rfl, (h.of_same rfl rfl rfl rfl : Alive (s.finish c)).setInfer _⟩
  | touching again =>
    refine .inl ⟨?_, (h.of_same rfl rfl rfl rfl : Alive s.touch).setInfer _⟩
    cases again <;> rfl
  | checkIdle =>
    refine .inl ⟨?_, h.setInfer _⟩
    show (if policy.exitTtl ≤ s.now - s.lastActivity then InferPc.checkPending
      else .receiving).inLoop = true
    split
    · rfl
    · rfl
  | checkPending =>
    rcases eq_or_ne s.pending 0 with hzero | hsome
    · exact .inr ⟨by simp only [if_pos hzero], rfl, hzero⟩
    · simp only [if_neg hsome]
      exact .inl ⟨rfl, h.setInfer _⟩
  | stopping idle =>
    rw [hpc] at hloop
    cases hloop
  | stopped idle =>
    rw [hpc] at hloop
    cases hloop
  | returned idle =>
    rw [hpc] at hloop
    cases hloop
  | exited idle =>
    rw [hpc] at hloop
    cases hloop

/-! ### After the check nothing moves -/

theorem leftIdle_step {policy : ServerPolicy} {s : Daemon} (h : s.infer.leftIdle = true)
    (e : DaemonEvent) : (daemonStep policy s e).infer.leftIdle = true := by
  unfold daemonStep
  split
  · exact h
  · cases e with
    | accept ok =>
      simp only [infer_acceptStep]
      exact h
    | reader i request ok =>
      simp only
      split
      · rw [infer_readerStep]
        exact h
      · exact h
    | infer result ok =>
      simp only [inferStep]
      cases hpc : s.infer with
      | stopping idle =>
        rw [hpc] at h
        exact h
      | stopped idle =>
        rw [hpc] at h
        exact h
      | returned idle =>
        rw [hpc] at h
        exact h
      | exited idle =>
        simp only [hpc]
        rw [hpc] at h
        exact h
      | _ =>
        rw [hpc] at h
        cases h
    | tick d => exact h

theorem taken_acceptStep (s : Daemon) (ok : Bool) :
    (acceptStep s ok).taken = s.taken ∨ ok = true ∧ s.accept = .listening := by
  unfold acceptStep
  cases hpc : s.accept with
  | listening =>
    cases ok with
    | true => exact .inr ⟨rfl, rfl⟩
    | false => exact .inl rfl
  | sending c =>
    left
    simp only
    split
    · rfl
    · split
      · rfl
      · rfl
  | _ => exact .inl rfl

theorem taken_readerStep (policy : ServerPolicy) (s : Daemon) (i : ℕ) (request : Request) (ok : Bool)
    (pc : ReaderPc) : (readerStep policy s i request ok pc).taken = s.taken := by
  cases pc with
  | receiving =>
    simp only [readerStep]
    split
    · rfl
    · split
      · rfl
      · rfl
  | reading c => cases request <;> rfl
  | queueing c =>
    simp only [readerStep]
    split
    · rfl
    · split
      · rfl
      · rfl
  | _ => rfl

theorem taken_inferStep (policy : ServerPolicy) (s : Daemon) (result : JobResult) (ok : Bool) :
    (inferStep policy s result ok).taken = s.taken := by
  unfold inferStep
  cases s.infer with
  | receiving => cases s.jobs <;> rfl
  | _ => rfl

theorem taken_daemonStep (policy : ServerPolicy) (s : Daemon) (e : DaemonEvent) :
    (daemonStep policy s e).taken = s.taken ∨ e = .accept true ∧ s.accept = .listening := by
  unfold daemonStep
  split
  · exact .inl rfl
  · cases e with
    | accept ok =>
      rcases taken_acceptStep s ok with hsame | ⟨rfl, hlistens⟩
      · exact .inl hsame
      · exact .inr ⟨rfl, hlistens⟩
    | reader i request ok =>
      simp only
      split
      · exact .inl (taken_readerStep policy s i request ok _)
      · exact .inl rfl
    | infer result ok => exact .inl (taken_inferStep policy s result ok)
    | tick d => exact .inl rfl

/-- With no connection in progress, an event that takes no stream leaves the books as they are. -/
theorem ledger_daemonStep_of_quiet (hquiet : Quiet s)
    (htaken : (daemonStep policy s e).taken = s.taken) :
    (daemonStep policy s e).ledger = s.ledger := by
  rcases (daemonStep_booked policy s e).of_quiet hquiet.uncounted hquiet.waiting hquiet.closing with
    hsame | hmore
  · exact hsame
  · have hcount : (daemonStep policy s e).taken = s.taken + 1 := hmore
    omega

/-! ### The idle exit -/

/-- The invariant of guarded runs: while the loop runs, the other threads do; after that the loop was
left for idleness, with no connection in progress and none dropped. -/
structure IdleInv (s : Daemon) : Prop where
  inv : DaemonInv s
  running : s.infer.inLoop = true → Alive s
  left : s.infer.inLoop = false →
    s.infer.leftIdle = true ∧ Quiet s ∧ s.stranded = []

theorem idleInv_start : IdleInv Daemon.start := by
  refine ⟨daemonInv_start, fun _ => ⟨rfl, rfl, ?_, rfl⟩, fun h => ?_⟩
  · decide
  · cases h

theorem inLoop_eq_false_of_leftIdle {pc : InferPc} (h : pc.leftIdle = true) : pc.inLoop = false := by
  cases pc with
  | stopping idle => rfl
  | stopped idle => rfl
  | returned idle => rfl
  | exited idle => rfl
  | _ => cases h

theorem not_isExited_of_inLoop {pc : InferPc} (h : pc.inLoop = true) : pc.isExited = false := by
  cases pc with
  | exited idle => cases h
  | _ => rfl

theorem idleInv_step_left (h : IdleInv s) (hleft : s.infer.inLoop = false) (hguard : IdleGuard s e) :
    IdleInv (daemonStep policy s e) := by
  obtain ⟨hidle, hquiet, hstranded⟩ := h.left hleft
  have hidle' := @leftIdle_step policy s hidle e
  have htaken : (daemonStep policy s e).taken = s.taken := by
    rcases taken_daemonStep policy s e with hsame | ⟨rfl, hlistens⟩
    · exact hsame
    · -- the guard forbids taking a stream after the check
      have hnot := hguard rfl hlistens
      rw [hidle] at hnot
      cases hnot
  have hledger := ledger_daemonStep_of_quiet hquiet htaken
  refine ⟨daemonInv_step h.inv e, fun hloop => ?_, fun _ => ⟨hidle', ⟨?_, ?_, ?_⟩, ?_⟩⟩
  · rw [inLoop_eq_false_of_leftIdle hidle'] at hloop
    cases hloop
  · exact (congrArg Ledger.uncounted hledger).trans hquiet.uncounted
  · exact (congrArg Ledger.waiting hledger).trans hquiet.waiting
  · exact (congrArg Ledger.closing hledger).trans hquiet.closing
  · have hsame : ((daemonStep policy s e).stranded : Multiset ℕ) = s.stranded :=
      congrArg Ledger.stranded hledger
    rw [hstranded] at hsame
    exact Multiset.coe_eq_zero _ |>.1 hsame

theorem idleInv_step_running (h : IdleInv s) (hloop : s.infer.inLoop = true)
    (hguard : IdleGuard s e) : IdleInv (daemonStep policy s e) := by
  have halive := h.running hloop
  have hbounded := h.inv.bounded
  have hexited := not_isExited_of_inLoop hloop
  have hinv := @daemonInv_step policy s h.inv e
  have hkeeps : Alive (daemonStep policy s e) → (daemonStep policy s e).infer.inLoop = true →
      IdleInv (daemonStep policy s e) := by
    intro halive' hloop'
    refine ⟨hinv, fun _ => halive', fun hleft => ?_⟩
    rw [hloop'] at hleft
    cases hleft
  cases e with
  | accept ok =>
    have hstep : daemonStep policy s (.accept ok) = acceptStep s ok := by
      simp [daemonStep, hexited]
    rw [hstep] at hkeeps ⊢
    refine hkeeps (acceptStep_alive halive hbounded ok) ?_
    rw [infer_acceptStep]
    exact hloop
  | reader i request ok =>
    cases hpc : s.readers[i]? with
    | none =>
      have hstep : daemonStep policy s (.reader i request ok) = s := by
        simp [daemonStep, hexited, hpc]
      rw [hstep] at hkeeps ⊢
      exact hkeeps halive hloop
    | some pc =>
      have hstep : daemonStep policy s (.reader i request ok) =
          readerStep policy s i request ok pc := by
        simp [daemonStep, hexited, hpc]
      have hne := halive.readers pc (List.mem_of_getElem? hpc)
      rw [hstep] at hkeeps ⊢
      refine hkeeps (readerStep_alive halive hloop i request ok hne) ?_
      rw [infer_readerStep]
      exact hloop
  | infer result ok =>
    have hstep : daemonStep policy s (.infer result ok) = inferStep policy s result ok := by
      simp [daemonStep, hexited]
    rcases @inferStep_alive policy s halive hbounded hloop result ok with
      ⟨hloop', halive'⟩ | ⟨hleaves, hpc, hzero⟩
    · rw [hstep] at hkeeps ⊢
      exact hkeeps halive' hloop'
    · -- the check succeeds: a counter of zero and the guard leave no connection in progress
      rw [hstep, hleaves] at hinv ⊢
      have hpending := h.inv.pending_eq
      have hwaiting : s.waiting = 0 := Multiset.card_eq_zero.1 (by omega)
      have hclosing : s.closing = 0 := Multiset.card_eq_zero.1 (by omega)
      have hshift := shift_setInfer (sameFlow_refl s) hpc (.stopping true)
      refine ⟨hinv, fun hloop' => ?_, fun _ => ⟨rfl, ⟨?_, ?_, ?_⟩, halive.stranded⟩⟩
      · cases hloop'
      · exact hguard hpc hzero
      · exact (add_right_cancel hshift.waiting).trans hwaiting
      · exact (add_right_cancel hshift.closing).trans hclosing
  | tick d =>
    have hstep : daemonStep policy s (.tick d) = { s with now := s.now + d } := by
      simp [daemonStep, hexited]
    rw [hstep] at hkeeps ⊢
    exact hkeeps (halive.of_same rfl rfl rfl rfl) hloop

theorem idleInv_step (h : IdleInv s) (hguard : IdleGuard s e) :
    IdleInv (daemonStep policy s e) := by
  cases hloop : s.infer.inLoop with
  | true => exact idleInv_step_running h hloop hguard
  | false => exact idleInv_step_left h hloop hguard

/-- **Under the guard an idle exit strands no client**: in a run in which no stream is uncounted at the
idle check that succeeds, and none is taken after it, every stream that was taken has been answered
when the process exits, or its peer has gone. -/
theorem idle_exit_answers_guarded (policy : ServerPolicy) (events : List DaemonEvent)
    (hguard : Guarded (daemonStep policy) IdleGuard Daemon.start events) :
    ∀ s ∈ events.scanl (daemonStep policy) Daemon.start, s.infer = .exited true →
      ∀ c < s.taken, c ∈ s.answered ∨ c ∈ s.gone := by
  intro s hs hexited c hc
  have hidle : IdleInv s := @forall_mem_scanl_of_guarded _ _ (daemonStep policy) IdleGuard IdleInv
    (fun _ _ h he => idleInv_step h he) _ _ idleInv_start hguard s hs
  have hleft : s.infer.inLoop = false := by
    rw [hexited]
    rfl
  obtain ⟨_, hquiet, hstranded⟩ := hidle.left hleft
  have hreply := hidle.inv.balanced.mem_replies_of_none_waiting hquiet.uncounted hquiet.waiting hc
  rcases hreply with hanswered | hgone | hdropped
  · exact .inl (Multiset.mem_coe.1 hanswered)
  · exact .inr (Multiset.mem_coe.1 hgone)
  · have hmem : c ∈ s.stranded := Multiset.mem_coe.1 hdropped
    rw [hstranded] at hmem
    exact absurd hmem List.not_mem_nil

/-- A ping that is answered, and then an idle exit. -/
def quietExitRun : List DaemonEvent :=
  pingRun ++ [.tick 9, .infer .handled true, .infer .handled true, .infer .handled true,
    .infer .handled true, .infer .handled true, .infer .handled true]

/-- The guard holds in that run, and the client was answered. -/
theorem idle_exit_answers_guarded_ping :
    (quietExitRun.foldl (daemonStep ⟨5, 3⟩) Daemon.start).infer = .exited true ∧
      ∀ c < (quietExitRun.foldl (daemonStep ⟨5, 3⟩) Daemon.start).taken,
        c ∈ (quietExitRun.foldl (daemonStep ⟨5, 3⟩) Daemon.start).answered ∨
          c ∈ (quietExitRun.foldl (daemonStep ⟨5, 3⟩) Daemon.start).gone := by
  have hexited : (quietExitRun.foldl (daemonStep ⟨5, 3⟩) Daemon.start).infer = .exited true := by
    decide +kernel
  refine ⟨hexited, idle_exit_answers_guarded ⟨5, 3⟩ quietExitRun ?_ _ ?_ hexited⟩
  · decide +kernel
  · decide +kernel

/-- A client that connects right after the idle check: it takes time until the daemon is idle, the
inference loop times out and reads an old activity and a counter of zero, the accept loop takes the
stream, and the process sets the stop flag, returns and exits. -/
def lateClientRun : List DaemonEvent :=
  [.tick 9, .infer .handled true, .infer .handled true, .infer .handled true, .accept true,
    .accept true, .infer .handled true, .infer .handled true, .infer .handled true]

/-- **An idle exit can strand a client**: the stream is taken, the process exits, and the client was
neither answered nor had it gone. -/
theorem idle_exit_strands_client :
    (lateClientRun.foldl (daemonStep ⟨5, 3⟩) Daemon.start).infer = .exited true ∧
      0 < (lateClientRun.foldl (daemonStep ⟨5, 3⟩) Daemon.start).taken ∧
      0 ∉ (lateClientRun.foldl (daemonStep ⟨5, 3⟩) Daemon.start).answered ∧
      0 ∉ (lateClientRun.foldl (daemonStep ⟨5, 3⟩) Daemon.start).gone := by
  decide +kernel

end Greppy
