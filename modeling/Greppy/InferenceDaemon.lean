/-
**The inference daemon: connections in flight and the idle exit.**

`run_server` (`crates/cli/src/inference_daemon.rs`) runs three kinds of threads.  The accept loop takes
connections from the listener, counts them in `pending_requests` and queues them; four reader workers
take them from the queue, read the request, and answer it or queue a job; the inference loop works off
the jobs and, when the daemon has been idle for long enough and the counter reads zero, leaves, after
which the process exits.  A connection that is answered or given up is struck off the counter.

A state holds, for each thread, the operation it is about to perform; one event performs one atomic
operation of one thread: an access to a queue, to the counter, to the stop flag or to the time of the
last activity, or the exchange with the peer in between.  What the clients do is part of the event.
The lists `counted`, `finished`, `answered`, `gone` and `stranded` are not part of the program: they
record which connections were counted, which were struck off, which were sent a frame, for which no
frame reached the peer, and which were dropped at a closed queue.
-/

import Greppy.GuardedRun
import Greppy.Ledger
import Mathlib.Tactic.Abel

set_option autoImplicit false

namespace Greppy

/-! ### The threads -/

/-- The responses that the daemon sends. -/
inductive Reply where
  /-- "daemon busy", a capacity response. -/
  | busy
  /-- "request too large or incomplete". -/
  | incomplete
  /-- "malformed request". -/
  | malformed
  /-- "protocol-version mismatch". -/
  | mismatch
  /-- The response to a ping. -/
  | pong
  /-- The response to a status request, with the counter it shows. -/
  | status (pending : ℕ)
  /-- "inference queue full", a capacity response. -/
  | queueFull
  /-- "deadline exceeded". -/
  | deadlineExceeded
  /-- What `validate` objects to. -/
  | invalid
  /-- "model load: ..". -/
  | loadFailed
  /-- What `handle` gives. -/
  | handled
deriving DecidableEq, Repr

/-- What becomes of reading a request in `read_and_queue`. -/
inductive Request where
  /-- `set_timeouts` fails on the stream. -/
  | noTimeouts
  /-- `read_frame` fails. -/
  | badFrame
  /-- The frame is not JSON. -/
  | malformed
  /-- The frame asks for another protocol version. -/
  | otherProtocol
  | ping
  | status
  /-- Any other operation is for the inference loop. -/
  | inference
deriving DecidableEq, Repr

/-- What becomes of a job that is in time. -/
inductive JobResult where
  | invalid
  | loadFailed
  | handled
deriving DecidableEq, Repr

/-- `RequestJob`: the connection and the deadline. -/
structure Job where
  conn : ℕ
  deadline : ℕ
deriving DecidableEq, Repr

/-- What the accept loop is about to do. -/
inductive AcceptPc where
  /-- Load the stop flag. -/
  | top
  /-- Call `listener.accept()`. -/
  | listening
  /-- Count the connection it has taken. -/
  | taken (c : ℕ)
  /-- `accepted.try_send`. -/
  | sending (c : ℕ)
  /-- Write the response "daemon busy". -/
  | refusing (c : ℕ)
  /-- Strike the connection off the counter; at the end of the loop, if it is the last. -/
  | closing (c : ℕ) (last : Bool)
  /-- Set the time of the last activity. -/
  | touching (last : Bool)
  | done
deriving DecidableEq, Repr

/-- What a reader worker is about to do. -/
inductive ReaderPc where
  /-- Load the stop flag. -/
  | top
  /-- Receive a connection. -/
  | receiving
  /-- Read the request. -/
  | reading (c : ℕ)
  /-- Write a response. -/
  | replying (c : ℕ) (reply : Reply)
  /-- `jobs.try_send`. -/
  | queueing (c : ℕ)
  /-- Strike the connection off the counter. -/
  | closing (c : ℕ)
  /-- Set the time of the last activity. -/
  | touching
  | done
deriving DecidableEq, Repr

/-- What the inference loop is about to do.  `again` stands for the `continue` that skips the idle check,
and `idle` says which of the two `break`s ended the loop. -/
inductive InferPc where
  /-- `job_rx.recv_timeout`. -/
  | receiving
  /-- Look at the deadline of the job, validate and handle it. -/
  | working (job : Job)
  /-- Write a response. -/
  | replying (c : ℕ) (reply : Reply) (again : Bool)
  /-- Strike the connection off the counter. -/
  | closing (c : ℕ) (again : Bool)
  /-- Set the time of the last activity. -/
  | touching (again : Bool)
  /-- Compare the time since the last activity with `exit_ttl`. -/
  | checkIdle
  /-- Load the counter. -/
  | checkPending
  /-- Set the stop flag. -/
  | stopping (idle : Bool)
  /-- Return from `run_server`, which drops the receiver of the jobs. -/
  | stopped (idle : Bool)
  /-- Exit the process. -/
  | returned (idle : Bool)
  | exited (idle : Bool)
deriving DecidableEq, Repr

/-- The state of the daemon.  Connections are numbered in the order in which they are taken. -/
structure Daemon where
  accept : AcceptPc
  readers : List ReaderPc
  infer : InferPc
  acceptQueue : List ℕ
  jobs : List Job
  pending : ℕ
  stop : Bool
  now : ℕ
  lastActivity : ℕ
  taken : ℕ
  counted : List ℕ
  finished : List ℕ
  answered : List ℕ
  gone : List ℕ
  stranded : List ℕ
deriving DecidableEq, Repr

def acceptQueueLength : ℕ := 16

def inferenceQueueLength : ℕ := 8

def readerWorkers : ℕ := 4

/-- The times of `ServerPolicy` that the loops look at. -/
structure ServerPolicy where
  exitTtl : ℕ
  requestDeadline : ℕ

def Daemon.start : Daemon where
  accept := .top
  readers := List.replicate readerWorkers .top
  infer := .receiving
  acceptQueue := []
  jobs := []
  pending := 0
  stop := false
  now := 0
  lastActivity := 0
  taken := 0
  counted := []
  finished := []
  answered := []
  gone := []
  stranded := []

/-! ### The atomic operations -/

/-- The number of values of a 64-bit `usize`. -/
def usizeRange : ℕ := 2 ^ 64

namespace Daemon

/-- `fetch_add(1)` on an `AtomicUsize`. -/
def countUp (s : Daemon) (c : ℕ) : Daemon :=
  { s with pending := Ledger.countUp usizeRange s.pending, counted := c :: s.counted }

/-- `fetch_sub(1)` on an `AtomicUsize`, which wraps below zero: the first half of
`finish_request`. -/
def finish (s : Daemon) (c : ℕ) : Daemon :=
  { s with pending := Ledger.countDown usizeRange s.pending, finished := c :: s.finished }

/-- The second half of `finish_request`. -/
def touch (s : Daemon) : Daemon := { s with lastActivity := s.now }

/-- `write_response`, which sends a frame unless the peer has gone. -/
def respond (s : Daemon) (c : ℕ) (ok : Bool) : Daemon :=
  { s with
    answered := if ok then c :: s.answered else s.answered
    gone := if ok then s.gone else c :: s.gone }

/-- A connection that is dropped without a response although its peer may be there. -/
def strand (s : Daemon) (c : ℕ) : Daemon := { s with stranded := c :: s.stranded }

/-- The accept loop takes a stream from the listener. -/
def takeStream (s : Daemon) : Daemon := { s with taken := s.taken + 1 }

def setAcceptQueue (s : Daemon) (queue : List ℕ) : Daemon := { s with acceptQueue := queue }

def setJobs (s : Daemon) (jobs : List Job) : Daemon := { s with jobs := jobs }

/-- `stop.store(true)`. -/
def setStop (s : Daemon) : Daemon := { s with stop := true }

def setAccept (s : Daemon) (pc : AcceptPc) : Daemon := { s with accept := pc }

def setReader (s : Daemon) (i : ℕ) (pc : ReaderPc) : Daemon :=
  { s with readers := s.readers.set i pc }

def setInfer (s : Daemon) (pc : InferPc) : Daemon := { s with infer := pc }

/-- All reader workers have ended, and with them both the receiver of the accepted connections and the
senders of the jobs. -/
def readersDone (s : Daemon) : Bool := s.readers.all (· == .done)

/-- The receiver of the jobs has been dropped. -/
def jobsClosed (s : Daemon) : Bool :=
  match s.infer with
  | .returned _ => true
  | .exited _ => true
  | _ => false

end Daemon

/-- One operation of the accept loop; `ok` says whether `accept()`, or the response, succeeds. -/
def acceptStep (s : Daemon) (ok : Bool) : Daemon :=
  match s.accept with
  | .top => s.setAccept (if s.stop then .done else .listening)
  | .listening =>
    if ok then s.takeStream.setAccept (.taken s.taken) else s.setAccept .top
  | .taken c => (s.countUp c).setAccept (.sending c)
  | .sending c =>
    if s.readersDone then (s.strand c).setAccept (.closing c true)
    else if s.acceptQueue.length < acceptQueueLength then
      (s.setAcceptQueue (s.acceptQueue ++ [c])).setAccept .top
    else s.setAccept (.refusing c)
  | .refusing c => (s.respond c ok).setAccept (.closing c false)
  | .closing c last => (s.finish c).setAccept (.touching last)
  | .touching last => s.touch.setAccept (if last then .done else .top)
  | .done => s

/-- What `read_and_queue` does with what it has read: every early return but the first, the one for
`set_timeouts`, sends a response. -/
def afterRead (c pending : ℕ) : Request → ReaderPc
  | .noTimeouts => .closing c
  | .badFrame => .replying c .incomplete
  | .malformed => .replying c .malformed
  | .otherProtocol => .replying c .mismatch
  | .ping => .replying c .pong
  | .status => .replying c (.status pending)
  | .inference => .queueing c

/-- One operation of the reader worker `i`, which is about to do `pc`. -/
def readerStep (policy : ServerPolicy) (s : Daemon) (i : ℕ) (request : Request) (ok : Bool) :
    ReaderPc → Daemon
  | .top => s.setReader i (if s.stop then .done else .receiving)
  | .receiving =>
    match s.acceptQueue with
    | c :: rest => (s.setAcceptQueue rest).setReader i (.reading c)
    -- with nothing queued the worker waits, unless the accept loop has ended
    | [] => if s.accept = .done then s.setReader i .done else s
  | .reading c =>
    -- a stream that refuses its timeouts has lost its peer
    (if request = .noTimeouts then s.respond c false else s).setReader i
      (afterRead c s.pending request)
  | .replying c _ => (s.respond c ok).setReader i (.closing c)
  | .queueing c =>
    if s.jobsClosed then (s.strand c).setReader i (.closing c)
    else if s.jobs.length < inferenceQueueLength then
      (s.setJobs (s.jobs ++ [Job.mk c (s.now + policy.requestDeadline)])).setReader i .top
    else s.setReader i (.replying c .queueFull)
  | .closing c => (s.finish c).setReader i .touching
  | .touching => s.touch.setReader i .top
  | .done => s

/-- What the inference loop does with a job: the response, and whether it skips the idle check. -/
def afterJob (job : Job) (now : ℕ) (result : JobResult) : InferPc :=
  if job.deadline ≤ now then .replying job.conn .deadlineExceeded true
  else
    match result with
    | .invalid => .replying job.conn .invalid true
    | .loadFailed => .replying job.conn .loadFailed true
    | .handled => .replying job.conn .handled false

/-- One operation of the inference loop. -/
def inferStep (policy : ServerPolicy) (s : Daemon) (result : JobResult) (ok : Bool) : Daemon :=
  match s.infer with
  | .receiving =>
    match s.jobs with
    | job :: rest => (s.setJobs rest).setInfer (.working job)
    -- the wait times out, or every sender has gone
    | [] => s.setInfer (if s.readersDone then .stopping false else .checkIdle)
  | .working job => s.setInfer (afterJob job s.now result)
  | .replying c _ again => (s.respond c ok).setInfer (.closing c again)
  | .closing c again => (s.finish c).setInfer (.touching again)
  | .touching again => s.touch.setInfer (if again then .receiving else .checkIdle)
  | .checkIdle =>
    s.setInfer (if policy.exitTtl ≤ s.now - s.lastActivity then .checkPending else .receiving)
  | .checkPending => s.setInfer (if s.pending = 0 then .stopping true else .receiving)
  | .stopping idle => s.setStop.setInfer (.stopped idle)
  | .stopped idle => s.setInfer (.returned idle)
  | .returned idle => s.setInfer (.exited idle)
  | .exited _ => s

/-- The next operation of one of the threads, with what it finds outside, or the passing of time. -/
inductive DaemonEvent where
  | accept (ok : Bool)
  | reader (i : ℕ) (request : Request) (ok : Bool)
  | infer (result : JobResult) (ok : Bool)
  | tick (d : ℕ)
deriving DecidableEq, Repr

/-- The process has exited, and all its threads with it. -/
def InferPc.isExited : InferPc → Bool
  | .exited _ => true
  | _ => false

def daemonStep (policy : ServerPolicy) (s : Daemon) (e : DaemonEvent) : Daemon :=
  if s.infer.isExited then s
  else
    match e with
    | .accept ok => acceptStep s ok
    | .reader i request ok =>
      match s.readers[i]? with
      | some pc => readerStep policy s i request ok pc
      | none => s
    | .infer result ok => inferStep policy s result ok
    | .tick d => { s with now := s.now + d }

/-! ### Where each connection is -/

/-- The connection that the accept loop has taken but not counted. -/
def AcceptPc.heldUncounted : AcceptPc → Multiset ℕ
  | .taken c => {c}
  | _ => 0

/-- The connection that the accept loop holds without a response. -/
def AcceptPc.heldWaiting : AcceptPc → Multiset ℕ
  | .sending c => {c}
  | .refusing c => {c}
  | _ => 0

/-- The connection that the accept loop is about to strike off. -/
def AcceptPc.heldClosing : AcceptPc → Multiset ℕ
  | .closing c _ => {c}
  | _ => 0

/-- The connection that a worker holds without a response. -/
def ReaderPc.heldWaiting : ReaderPc → Multiset ℕ
  | .reading c => {c}
  | .replying c _ => {c}
  | .queueing c => {c}
  | _ => 0

/-- The connection that a worker is about to strike off. -/
def ReaderPc.heldClosing : ReaderPc → Multiset ℕ
  | .closing c => {c}
  | _ => 0

/-- The connection that the inference loop holds without a response. -/
def InferPc.heldWaiting : InferPc → Multiset ℕ
  | .working job => {job.conn}
  | .replying c _ _ => {c}
  | _ => 0

/-- The connection that the inference loop is about to strike off. -/
def InferPc.heldClosing : InferPc → Multiset ℕ
  | .closing c _ => {c}
  | _ => 0

namespace Daemon

/-- The connections that are counted and have no response: in a thread or in a queue. -/
def waiting (s : Daemon) : Multiset ℕ :=
  s.accept.heldWaiting + s.acceptQueue + (s.readers.map ReaderPc.heldWaiting).sum +
    s.jobs.map Job.conn + s.infer.heldWaiting

/-- The connections that are about to be struck off. -/
def closing (s : Daemon) : Multiset ℕ :=
  s.accept.heldClosing + (s.readers.map ReaderPc.heldClosing).sum + s.infer.heldClosing

def ledger (s : Daemon) : Ledger where
  taken := s.taken
  uncounted := s.accept.heldUncounted
  counted := s.counted
  waiting := s.waiting
  closing := s.closing
  finished := s.finished
  answered := s.answered
  gone := s.gone
  stranded := s.stranded
  counter := s.pending

end Daemon

/-- From `s` to `t` the connections without a response change from `w` to `w'`, and those about to be
struck off from `k` to `k'`, whatever else there is. -/
structure Shift (s t : Daemon) (w k w' k' : Multiset ℕ) : Prop where
  waiting : t.waiting + w = s.waiting + w'
  closing : t.closing + k = s.closing + k'

/-- Two states with the same threads and queues have the same connections in progress. -/
structure SameFlow (s u : Daemon) : Prop where
  accept : u.accept = s.accept
  readers : u.readers = s.readers
  infer : u.infer = s.infer
  acceptQueue : u.acceptQueue = s.acceptQueue
  jobs : u.jobs = s.jobs

variable {s u t : Daemon} {c i : ℕ} {policy : ServerPolicy}

theorem SameFlow.waiting (h : SameFlow s u) : u.waiting = s.waiting := by
  simp only [Daemon.waiting, h.accept, h.readers, h.infer, h.acceptQueue, h.jobs]

theorem SameFlow.closing (h : SameFlow s u) : u.closing = s.closing := by
  simp only [Daemon.closing, h.accept, h.readers, h.infer]

theorem sameFlow_refl (s : Daemon) : SameFlow s s := ⟨rfl, rfl, rfl, rfl, rfl⟩

theorem sameFlow_takeStream (s : Daemon) : SameFlow s s.takeStream := ⟨rfl, rfl, rfl, rfl, rfl⟩

theorem sameFlow_countUp (s : Daemon) (c : ℕ) : SameFlow s (s.countUp c) :=
  ⟨rfl, rfl, rfl, rfl, rfl⟩

theorem sameFlow_respond (s : Daemon) (c : ℕ) (ok : Bool) : SameFlow s (s.respond c ok) :=
  ⟨rfl, rfl, rfl, rfl, rfl⟩

theorem sameFlow_strand (s : Daemon) (c : ℕ) : SameFlow s (s.strand c) := ⟨rfl, rfl, rfl, rfl, rfl⟩

theorem sameFlow_finish (s : Daemon) (c : ℕ) : SameFlow s (s.finish c) := ⟨rfl, rfl, rfl, rfl, rfl⟩

theorem sameFlow_touch (s : Daemon) : SameFlow s s.touch := ⟨rfl, rfl, rfl, rfl, rfl⟩

theorem sameFlow_setStop (s : Daemon) : SameFlow s s.setStop := ⟨rfl, rfl, rfl, rfl, rfl⟩

theorem shift_setAccept {s u : Daemon} (hflow : SameFlow s u) {pc : AcceptPc}
    (h : s.accept = pc) (pc' : AcceptPc) :
    Shift s (u.setAccept pc') pc.heldWaiting pc.heldClosing pc'.heldWaiting pc'.heldClosing := by
  rw [← h, ← hflow.accept]
  constructor
  · rw [← hflow.waiting]
    simp only [Daemon.waiting, Daemon.setAccept]
    abel
  · rw [← hflow.closing]
    simp only [Daemon.closing, Daemon.setAccept]
    abel

theorem shift_setInfer {s u : Daemon} (hflow : SameFlow s u) {pc : InferPc} (h : s.infer = pc)
    (pc' : InferPc) :
    Shift s (u.setInfer pc') pc.heldWaiting pc.heldClosing pc'.heldWaiting pc'.heldClosing := by
  rw [← h, ← hflow.infer]
  constructor
  · rw [← hflow.waiting]
    simp only [Daemon.waiting, Daemon.setInfer]
    abel
  · rw [← hflow.closing]
    simp only [Daemon.closing, Daemon.setInfer]
    abel

theorem shift_setReader {s u : Daemon} (hflow : SameFlow s u) {i : ℕ} {pc : ReaderPc}
    (h : s.readers[i]? = some pc) (pc' : ReaderPc) :
    Shift s (u.setReader i pc') pc.heldWaiting pc.heldClosing pc'.heldWaiting pc'.heldClosing := by
  rw [← hflow.readers] at h
  have hwaiting := sum_map_set ReaderPc.heldWaiting h pc'
  have hclosing := sum_map_set ReaderPc.heldClosing h pc'
  constructor
  · rw [← hflow.waiting]
    simp only [Daemon.waiting, Daemon.setReader]
    calc _ = u.accept.heldWaiting + u.acceptQueue + u.jobs.map Job.conn + u.infer.heldWaiting +
          (((u.readers.set i pc').map ReaderPc.heldWaiting).sum + pc.heldWaiting) := by abel
      _ = u.accept.heldWaiting + u.acceptQueue + u.jobs.map Job.conn + u.infer.heldWaiting +
          ((u.readers.map ReaderPc.heldWaiting).sum + pc'.heldWaiting) := by rw [hwaiting]
      _ = _ := by abel
  · rw [← hflow.closing]
    simp only [Daemon.closing, Daemon.setReader]
    calc _ = u.accept.heldClosing + u.infer.heldClosing +
          (((u.readers.set i pc').map ReaderPc.heldClosing).sum + pc.heldClosing) := by abel
      _ = u.accept.heldClosing + u.infer.heldClosing +
          ((u.readers.map ReaderPc.heldClosing).sum + pc'.heldClosing) := by rw [hclosing]
      _ = _ := by abel

theorem waiting_pushAccepted (s : Daemon) (c : ℕ) :
    (s.setAcceptQueue (s.acceptQueue ++ [c])).waiting = s.waiting + {c} := by
  simp only [Daemon.waiting, Daemon.setAcceptQueue, ← Multiset.coe_add, Multiset.coe_singleton]
  abel

theorem waiting_popAccepted {rest : List ℕ} (h : s.acceptQueue = c :: rest) :
    (s.setAcceptQueue rest).waiting + {c} = s.waiting := by
  simp only [Daemon.waiting, Daemon.setAcceptQueue, h, ← Multiset.cons_coe,
    ← Multiset.singleton_add]
  abel

theorem waiting_pushJob (s : Daemon) (job : Job) :
    (s.setJobs (s.jobs ++ [job])).waiting = s.waiting + {job.conn} := by
  simp only [Daemon.waiting, Daemon.setJobs, List.map_append, List.map_cons, List.map_nil,
    ← Multiset.coe_add, Multiset.coe_singleton]
  abel

theorem waiting_popJob {job : Job} {rest : List Job} (h : s.jobs = job :: rest) :
    (s.setJobs rest).waiting + {job.conn} = s.waiting := by
  simp only [Daemon.waiting, Daemon.setJobs, h, List.map_cons, ← Multiset.cons_coe,
    ← Multiset.singleton_add]
  abel

/-! ### Every operation moves at most one connection -/

/-- The steps of the books, with the counter of a 64-bit machine. -/
abbrev Booked (s t : Daemon) : Prop := Ledger.Step usizeRange s.ledger t.ledger

theorem eq_cons_of_add {a b : Multiset ℕ} (h : a + {c} = b + 0) : b = c ::ₘ a := by
  rw [add_zero] at h
  rw [← h, add_comm, Multiset.singleton_add]

/-- Apart from the connections in progress, `t` has the books of `u`, and the accept loop has the same
uncounted connection as in `s`. -/
structure SameRest (s t u : Daemon) : Prop where
  uncounted : t.accept.heldUncounted = s.accept.heldUncounted
  taken : t.taken = u.taken
  counted : t.counted = u.counted
  finished : t.finished = u.finished
  answered : t.answered = u.answered
  gone : t.gone = u.gone
  stranded : t.stranded = u.stranded
  pending : t.pending = u.pending

theorem SameRest.ledger_eq (h : SameRest s t u) :
    t.ledger = { u.ledger with
      uncounted := s.ledger.uncounted, waiting := t.waiting, closing := t.closing } := by
  simp only [Daemon.ledger, h.uncounted, h.taken, h.counted, h.finished, h.answered, h.gone, h.stranded,
    h.pending]

theorem booked_stay {w k : Multiset ℕ} (h : Shift s t w k w k) (hrest : SameRest s t s) :
    Booked s t := by
  refine .stay ?_
  rw [hrest.ledger_eq, add_right_cancel h.waiting, add_right_cancel h.closing]
  rfl

theorem booked_respond (ok : Bool) (h : Shift s t {c} 0 0 {c})
    (hrest : SameRest s t (s.respond c ok)) : Booked s t := by
  have hwaiting := eq_cons_of_add h.waiting
  have hclosing := eq_cons_of_add h.closing.symm
  cases ok with
  | true =>
    refine .answer c hwaiting hclosing ?_ ?_
    · show (t.answered : Multiset ℕ) = c ::ₘ (s.answered : Multiset ℕ)
      rw [hrest.answered]
      rfl
    · rw [hrest.ledger_eq]
      rfl
  | false =>
    refine .lose c hwaiting hclosing ?_ ?_
    · show (t.gone : Multiset ℕ) = c ::ₘ (s.gone : Multiset ℕ)
      rw [hrest.gone]
      rfl
    · rw [hrest.ledger_eq]
      rfl

theorem booked_strand (h : Shift s t {c} 0 0 {c}) (hrest : SameRest s t (s.strand c)) :
    Booked s t := by
  refine .strand c (eq_cons_of_add h.waiting) (eq_cons_of_add h.closing.symm) ?_ ?_
  · show (t.stranded : Multiset ℕ) = c ::ₘ (s.stranded : Multiset ℕ)
    rw [hrest.stranded]
    rfl
  · rw [hrest.ledger_eq]
    rfl

theorem booked_finish (h : Shift s t 0 {c} 0 0) (hrest : SameRest s t (s.finish c)) :
    Booked s t := by
  refine .finish c (eq_cons_of_add h.closing) ?_ ?_ ?_
  · show (t.finished : Multiset ℕ) = c ::ₘ (s.finished : Multiset ℕ)
    rw [hrest.finished]
    rfl
  · exact hrest.pending
  · rw [hrest.ledger_eq, add_right_cancel h.waiting]
    rfl

theorem sameRest_setAccept {pc pc' : AcceptPc} (hpc : s.accept = pc)
    (h : pc'.heldUncounted = pc.heldUncounted) : SameRest s (u.setAccept pc') u :=
  ⟨by rw [hpc]; exact h, rfl, rfl, rfl, rfl, rfl, rfl, rfl⟩

theorem booked_send (hpc : s.accept = .sending c) :
    Booked s ((s.setAcceptQueue (s.acceptQueue ++ [c])).setAccept .top) := by
  have hshift := @shift_setAccept (s.setAcceptQueue (s.acceptQueue ++ [c])) _ (sameFlow_refl _) _
    hpc .top
  refine booked_stay (w := {c}) (k := 0) ⟨?_, hshift.closing⟩
    ⟨by rw [hpc]; rfl, rfl, rfl, rfl, rfl, rfl, rfl, rfl⟩
  rw [← waiting_pushAccepted s c, ← add_zero (Daemon.waiting (s.setAcceptQueue _))]
  exact hshift.waiting

theorem acceptStep_booked (s : Daemon) (ok : Bool) : Booked s (acceptStep s ok) := by
  unfold acceptStep
  cases hpc : s.accept with
  | top =>
    refine booked_stay (w := 0) (k := 0) ?_ ?_
    · cases s.stop with
      | true => exact shift_setAccept (sameFlow_refl s) hpc .done
      | false => exact shift_setAccept (sameFlow_refl s) hpc .listening
    · cases s.stop with
      | true => exact sameRest_setAccept hpc rfl
      | false => exact sameRest_setAccept hpc rfl
  | listening =>
    cases ok with
    | true =>
      have hshift := shift_setAccept (sameFlow_takeStream s) hpc (.taken s.taken)
      have huncounted : s.accept.heldUncounted = 0 := by
        rw [hpc]
        rfl
      refine .take ?_
      simp only [Daemon.ledger, if_true, add_right_cancel hshift.waiting,
        add_right_cancel hshift.closing, huncounted]
      rfl
    | false =>
      exact booked_stay (shift_setAccept (sameFlow_refl s) hpc .top) (sameRest_setAccept hpc rfl)
  | taken c =>
    have hshift := shift_setAccept (sameFlow_countUp s c) hpc (.sending c)
    have huncounted : s.accept.heldUncounted = {c} := by
      rw [hpc]
      rfl
    refine .count c huncounted (eq_cons_of_add hshift.waiting.symm) rfl rfl ?_
    simp only [Daemon.ledger, add_right_cancel hshift.closing]
    rfl
  | sending c =>
    cases s.readersDone with
    | true =>
      exact booked_strand (c := c)
        (shift_setAccept (sameFlow_strand s c) hpc (.closing c true))
        (sameRest_setAccept hpc rfl)
    | false =>
      rcases lt_or_ge s.acceptQueue.length acceptQueueLength with hroom | hfull
      · simp only [Bool.false_eq_true, if_false, if_pos hroom]
        exact booked_send hpc
      · simp only [Bool.false_eq_true, if_false, if_neg (not_lt.2 hfull)]
        exact booked_stay (shift_setAccept (sameFlow_refl s) hpc (.refusing c))
          (sameRest_setAccept hpc rfl)
  | refusing c =>
    exact booked_respond (c := c) ok
      (shift_setAccept (sameFlow_respond s c ok) hpc (.closing c false))
      (sameRest_setAccept hpc rfl)
  | closing c last =>
    exact booked_finish (c := c)
      (shift_setAccept (sameFlow_finish s c) hpc (.touching last))
      (sameRest_setAccept hpc rfl)
  | touching last =>
    cases last with
    | true =>
      exact booked_stay (shift_setAccept (sameFlow_touch s) hpc .done)
        ⟨by rw [hpc]; rfl, rfl, rfl, rfl, rfl, rfl, rfl, rfl⟩
    | false =>
      exact booked_stay (shift_setAccept (sameFlow_touch s) hpc .top)
        ⟨by rw [hpc]; rfl, rfl, rfl, rfl, rfl, rfl, rfl, rfl⟩
  | done => exact .stay rfl

theorem booked_receive {rest : List ℕ} (hpc : s.readers[i]? = some .receiving)
    (hqueue : s.acceptQueue = c :: rest) :
    Booked s ((s.setAcceptQueue rest).setReader i (.reading c)) := by
  have hshift := @shift_setReader _ (s.setAcceptQueue rest) (sameFlow_refl _) i _ hpc (.reading c)
  refine booked_stay (w := 0) (k := 0) ⟨?_, hshift.closing⟩ ⟨rfl, rfl, rfl, rfl, rfl, rfl, rfl, rfl⟩
  rw [add_zero (Daemon.waiting s), ← waiting_popAccepted hqueue]
  exact hshift.waiting

theorem booked_queue (hpc : s.readers[i]? = some (.queueing c)) (deadline : ℕ) :
    Booked s ((s.setJobs (s.jobs ++ [Job.mk c deadline])).setReader i .top) := by
  have hshift := @shift_setReader _ (s.setJobs (s.jobs ++ [Job.mk c deadline])) (sameFlow_refl _) i
    _ hpc .top
  refine booked_stay (w := {c}) (k := 0) ⟨?_, hshift.closing⟩ ⟨rfl, rfl, rfl, rfl, rfl, rfl, rfl, rfl⟩
  rw [← waiting_pushJob s (Job.mk c deadline), ← add_zero (Daemon.waiting (s.setJobs _))]
  exact hshift.waiting

theorem readerStep_booked (policy : ServerPolicy) (request : Request) (ok : Bool) {pc : ReaderPc}
    (hpc : s.readers[i]? = some pc) : Booked s (readerStep policy s i request ok pc) := by
  have hrest : ∀ pc', SameRest s (s.setReader i pc') s := fun _ =>
    ⟨rfl, rfl, rfl, rfl, rfl, rfl, rfl, rfl⟩
  have hshift := shift_setReader (sameFlow_refl s) hpc
  cases pc with
  | top =>
    simp only [readerStep]
    split
    · exact booked_stay (hshift .done) (hrest _)
    · exact booked_stay (hshift .receiving) (hrest _)
  | receiving =>
    simp only [readerStep]
    split
    · exact booked_receive hpc ‹_›
    · split
      · exact booked_stay (hshift .done) (hrest _)
      · exact .stay rfl
  | reading c =>
    cases request with
    | noTimeouts =>
      exact booked_respond (c := c) false
        (shift_setReader (sameFlow_respond s c false) hpc (.closing c))
        ⟨rfl, rfl, rfl, rfl, rfl, rfl, rfl, rfl⟩
    | badFrame => exact booked_stay (hshift (.replying c .incomplete)) (hrest _)
    | malformed => exact booked_stay (hshift (.replying c .malformed)) (hrest _)
    | otherProtocol => exact booked_stay (hshift (.replying c .mismatch)) (hrest _)
    | ping => exact booked_stay (hshift (.replying c .pong)) (hrest _)
    | status => exact booked_stay (hshift (.replying c (.status s.pending))) (hrest _)
    | inference => exact booked_stay (hshift (.queueing c)) (hrest _)
  | replying c reply =>
    exact booked_respond (c := c) ok (shift_setReader (sameFlow_respond s c ok) hpc (.closing c))
      ⟨rfl, rfl, rfl, rfl, rfl, rfl, rfl, rfl⟩
  | queueing c =>
    simp only [readerStep]
    split
    · exact booked_strand (c := c) (shift_setReader (sameFlow_strand s c) hpc (.closing c))
        ⟨rfl, rfl, rfl, rfl, rfl, rfl, rfl, rfl⟩
    · split
      · exact booked_queue hpc _
      · exact booked_stay (hshift (.replying c .queueFull)) (hrest _)
  | closing c =>
    exact booked_finish (c := c) (shift_setReader (sameFlow_finish s c) hpc .touching)
      ⟨rfl, rfl, rfl, rfl, rfl, rfl, rfl, rfl⟩
  | touching =>
    exact booked_stay (shift_setReader (sameFlow_touch s) hpc .top)
      ⟨rfl, rfl, rfl, rfl, rfl, rfl, rfl, rfl⟩
  | done => exact .stay rfl

theorem booked_work {job : Job} {rest : List Job} (hpc : s.infer = .receiving)
    (hjobs : s.jobs = job :: rest) : Booked s ((s.setJobs rest).setInfer (.working job)) := by
  have hshift := @shift_setInfer (s.setJobs rest) _ (sameFlow_refl _) _ hpc (.working job)
  refine booked_stay (w := 0) (k := 0) ⟨?_, hshift.closing⟩ ⟨rfl, rfl, rfl, rfl, rfl, rfl, rfl, rfl⟩
  rw [add_zero (Daemon.waiting s), ← waiting_popJob hjobs]
  exact hshift.waiting

/-- Whatever becomes of a job, its connection still has no response. -/
theorem held_afterJob (job : Job) (now : ℕ) (result : JobResult) :
    (afterJob job now result).heldWaiting = {job.conn} ∧
      (afterJob job now result).heldClosing = 0 := by
  unfold afterJob
  split
  · exact ⟨rfl, rfl⟩
  · cases result with
    | invalid => exact ⟨rfl, rfl⟩
    | loadFailed => exact ⟨rfl, rfl⟩
    | handled => exact ⟨rfl, rfl⟩

theorem inferStep_booked (policy : ServerPolicy) (s : Daemon) (result : JobResult) (ok : Bool) :
    Booked s (inferStep policy s result ok) := by
  have hrest : ∀ pc', SameRest s (s.setInfer pc') s := fun _ => ⟨rfl, rfl, rfl, rfl, rfl, rfl, rfl, rfl⟩
  unfold inferStep
  cases hpc : s.infer with
  | receiving =>
    have hshift := shift_setInfer (sameFlow_refl s) hpc
    cases hjobs : s.jobs with
    | cons job rest => exact booked_work hpc hjobs
    | nil =>
      cases s.readersDone with
      | true => exact booked_stay (hshift (.stopping false)) (hrest _)
      | false => exact booked_stay (hshift .checkIdle) (hrest _)
  | working job =>
    have hshift := shift_setInfer (sameFlow_refl s) hpc (afterJob job s.now result)
    rw [(held_afterJob job s.now result).1, (held_afterJob job s.now result).2] at hshift
    exact booked_stay hshift (hrest _)
  | replying c reply again =>
    exact booked_respond (c := c) ok
      (shift_setInfer (sameFlow_respond s c ok) hpc (.closing c again))
      ⟨rfl, rfl, rfl, rfl, rfl, rfl, rfl, rfl⟩
  | closing c again =>
    exact booked_finish (c := c) (shift_setInfer (sameFlow_finish s c) hpc (.touching again))
      ⟨rfl, rfl, rfl, rfl, rfl, rfl, rfl, rfl⟩
  | touching again =>
    cases again with
    | true =>
      exact booked_stay (shift_setInfer (sameFlow_touch s) hpc .receiving)
        ⟨rfl, rfl, rfl, rfl, rfl, rfl, rfl, rfl⟩
    | false =>
      exact booked_stay (shift_setInfer (sameFlow_touch s) hpc .checkIdle)
        ⟨rfl, rfl, rfl, rfl, rfl, rfl, rfl, rfl⟩
  | checkIdle =>
    have hshift := shift_setInfer (sameFlow_refl s) hpc
    rcases le_or_gt policy.exitTtl (s.now - s.lastActivity) with hidle | hbusy
    · simp only [if_pos hidle]
      exact booked_stay (hshift .checkPending) (hrest _)
    · simp only [if_neg (not_le.2 hbusy)]
      exact booked_stay (hshift .receiving) (hrest _)
  | checkPending =>
    have hshift := shift_setInfer (sameFlow_refl s) hpc
    rcases eq_or_ne s.pending 0 with hnone | hsome
    · simp only [if_pos hnone]
      exact booked_stay (hshift (.stopping true)) (hrest _)
    · simp only [if_neg hsome]
      exact booked_stay (hshift .receiving) (hrest _)
  | stopping idle =>
    exact booked_stay (shift_setInfer (sameFlow_setStop s) hpc (.stopped idle))
      ⟨rfl, rfl, rfl, rfl, rfl, rfl, rfl, rfl⟩
  | stopped idle =>
    exact booked_stay (shift_setInfer (sameFlow_refl s) hpc (.returned idle)) (hrest _)
  | returned idle =>
    exact booked_stay (shift_setInfer (sameFlow_refl s) hpc (.exited idle)) (hrest _)
  | exited idle => exact .stay rfl

/-- **Every operation moves at most one connection to its next stage.** -/
theorem daemonStep_booked (policy : ServerPolicy) (s : Daemon) (e : DaemonEvent) :
    Booked s (daemonStep policy s e) := by
  unfold daemonStep
  split
  · exact .stay rfl
  · cases e with
    | accept ok => exact acceptStep_booked s ok
    | reader i request ok =>
      cases hpc : s.readers[i]? with
      | none =>
        simp only [hpc]
        exact .stay rfl
      | some pc =>
        simp only [hpc]
        exact readerStep_booked policy request ok hpc
    | infer result ok => exact inferStep_booked policy s result ok
    | tick d => exact .stay rfl

/-! ### The connections in progress are few -/

/-- The queues are within their bounds, and no worker is lost. -/
structure Daemon.Bounded (s : Daemon) : Prop where
  acceptQueue : s.acceptQueue.length ≤ acceptQueueLength
  jobs : s.jobs.length ≤ inferenceQueueLength
  readers : s.readers.length = readerWorkers

theorem SameFlow.bounded (hflow : SameFlow s u) (h : s.Bounded) : u.Bounded := by
  refine ⟨?_, ?_, ?_⟩
  · rw [hflow.acceptQueue]
    exact h.acceptQueue
  · rw [hflow.jobs]
    exact h.jobs
  · rw [hflow.readers]
    exact h.readers

theorem Daemon.Bounded.setAccept (h : s.Bounded) (pc : AcceptPc) :
    (s.setAccept pc).Bounded := ⟨h.acceptQueue, h.jobs, h.readers⟩

theorem Daemon.Bounded.setInfer (h : s.Bounded) (pc : InferPc) :
    (s.setInfer pc).Bounded := ⟨h.acceptQueue, h.jobs, h.readers⟩

theorem Daemon.Bounded.setReader (h : s.Bounded) (i : ℕ) (pc : ReaderPc) :
    (s.setReader i pc).Bounded := by
  refine ⟨h.acceptQueue, h.jobs, ?_⟩
  show (s.readers.set i pc).length = readerWorkers
  rw [List.length_set]
  exact h.readers

theorem Daemon.Bounded.setAcceptQueue (h : s.Bounded) {queue : List ℕ}
    (hqueue : queue.length ≤ acceptQueueLength) : (s.setAcceptQueue queue).Bounded :=
  ⟨hqueue, h.jobs, h.readers⟩

theorem Daemon.Bounded.setJobs (h : s.Bounded) {jobs : List Job}
    (hjobs : jobs.length ≤ inferenceQueueLength) : (s.setJobs jobs).Bounded :=
  ⟨h.acceptQueue, hjobs, h.readers⟩

theorem acceptStep_bounded (h : s.Bounded) (ok : Bool) : (acceptStep s ok).Bounded := by
  unfold acceptStep
  split
  · exact h.setAccept _
  · split
    · exact ((sameFlow_takeStream s).bounded h).setAccept _
    · exact h.setAccept _
  · exact ((sameFlow_countUp s _).bounded h).setAccept _
  · split
    · exact ((sameFlow_strand s _).bounded h).setAccept _
    · split
      · rename_i hroom
        refine (h.setAcceptQueue ?_).setAccept _
        rw [List.length_append, List.length_singleton]
        exact hroom
      · exact h.setAccept _
  · exact ((sameFlow_respond s _ ok).bounded h).setAccept _
  · exact ((sameFlow_finish s _).bounded h).setAccept _
  · exact ((sameFlow_touch s).bounded h).setAccept _
  · exact h

theorem readerStep_bounded (h : s.Bounded) (i : ℕ) (request : Request) (ok : Bool) (pc : ReaderPc) :
    (readerStep policy s i request ok pc).Bounded := by
  cases pc with
  | top => exact h.setReader _ _
  | receiving =>
    simp only [readerStep]
    split
    · rename_i c rest hqueue
      have hlength := h.acceptQueue
      rw [hqueue, List.length_cons] at hlength
      exact (h.setAcceptQueue (Nat.le_of_succ_le hlength)).setReader _ _
    · split
      · exact h.setReader _ _
      · exact h
  | reading c =>
    simp only [readerStep]
    split
    · exact ((sameFlow_respond s c false).bounded h).setReader _ _
    · exact h.setReader _ _
  | replying c reply => exact ((sameFlow_respond s c ok).bounded h).setReader _ _
  | queueing c =>
    simp only [readerStep]
    split
    · exact ((sameFlow_strand s c).bounded h).setReader _ _
    · split
      · rename_i hroom
        refine (h.setJobs ?_).setReader _ _
        rw [List.length_append, List.length_singleton]
        exact hroom
      · exact h.setReader _ _
  | closing c => exact ((sameFlow_finish s c).bounded h).setReader _ _
  | touching => exact ((sameFlow_touch s).bounded h).setReader _ _
  | done => exact h

theorem inferStep_bounded (h : s.Bounded) (result : JobResult) (ok : Bool) :
    (inferStep policy s result ok).Bounded := by
  unfold inferStep
  split
  · split
    · rename_i job rest hjobs
      have hlength := h.jobs
      rw [hjobs, List.length_cons] at hlength
      exact (h.setJobs (Nat.le_of_succ_le hlength)).setInfer _
    · exact h.setInfer _
  · exact h.setInfer _
  · exact ((sameFlow_respond s _ ok).bounded h).setInfer _
  · exact ((sameFlow_finish s _).bounded h).setInfer _
  · exact ((sameFlow_touch s).bounded h).setInfer _
  · exact h.setInfer _
  · exact h.setInfer _
  · exact ((sameFlow_setStop s).bounded h).setInfer _
  · exact h.setInfer _
  · exact h.setInfer _
  · exact h

theorem daemonStep_bounded (h : s.Bounded) (e : DaemonEvent) : (daemonStep policy s e).Bounded := by
  unfold daemonStep
  split
  · exact h
  · cases e with
    | accept ok => exact acceptStep_bounded h ok
    | reader i request ok =>
      simp only
      split
      · exact readerStep_bounded h i request ok _
      · exact h
    | infer result ok => exact inferStep_bounded h result ok
    | tick d => exact ⟨h.acceptQueue, h.jobs, h.readers⟩

theorem AcceptPc.card_held_le (pc : AcceptPc) : pc.heldWaiting.card + pc.heldClosing.card ≤ 1 := by
  cases pc <;> simp [AcceptPc.heldWaiting, AcceptPc.heldClosing]

theorem ReaderPc.card_held_le (pc : ReaderPc) : pc.heldWaiting.card + pc.heldClosing.card ≤ 1 := by
  cases pc <;> simp [ReaderPc.heldWaiting, ReaderPc.heldClosing]

theorem InferPc.card_held_le (pc : InferPc) : pc.heldWaiting.card + pc.heldClosing.card ≤ 1 := by
  cases pc <;> simp [InferPc.heldWaiting, InferPc.heldClosing]

theorem card_readers_le (readers : List ReaderPc) :
    (readers.map ReaderPc.heldWaiting).sum.card + (readers.map ReaderPc.heldClosing).sum.card ≤
      readers.length := by
  induction readers with
  | nil => simp
  | cons pc readers ih =>
    have hpc := pc.card_held_le
    simp only [List.map_cons, List.sum_cons, Multiset.card_add, List.length_cons]
    omega

/-- The unfinished connections are far fewer than a `usize` can count. -/
theorem Daemon.Bounded.card_lt (h : s.Bounded) : s.waiting.card + s.closing.card < usizeRange := by
  have haccept := s.accept.card_held_le
  have hinfer := s.infer.card_held_le
  have hreaders := card_readers_le s.readers
  have hqueue := h.acceptQueue
  have hjobs := h.jobs
  have hworkers := h.readers
  simp only [Daemon.waiting, Daemon.closing, Multiset.card_add, Multiset.coe_card, List.length_map]
  unfold acceptQueueLength at hqueue
  unfold inferenceQueueLength at hjobs
  unfold readerWorkers at hworkers
  unfold usizeRange
  omega

/-! ### The accounting is exact -/

/-- The invariant of the daemon: balanced books and bounded queues. -/
structure DaemonInv (s : Daemon) : Prop where
  balanced : Ledger.Balanced usizeRange s.ledger
  bounded : s.Bounded

theorem daemonInv_start : DaemonInv Daemon.start := by
  refine ⟨⟨?_, ?_, ?_, ?_⟩, ⟨?_, ?_, ?_⟩⟩
  all_goals decide

theorem daemonInv_step {policy : ServerPolicy} {s : Daemon} (h : DaemonInv s) (e : DaemonEvent) :
    DaemonInv (daemonStep policy s e) :=
  ⟨(daemonStep_booked policy s e).balanced (by decide) h.balanced, daemonStep_bounded h.bounded e⟩

theorem DaemonInv.pending_eq (h : DaemonInv s) : s.pending = s.waiting.card + s.closing.card :=
  h.balanced.counter_eq h.bounded.card_lt

/-- What the accounting of connections in flight means. -/
structure ExactAccounting (policy : ServerPolicy) (s : Daemon) : Prop where
  /-- The counter is the number of connections that are counted and not finished. -/
  pending : s.pending + s.finished.length = s.counted.length
  /-- Only counted connections are finished. -/
  finished_counted : ∀ c ∈ s.finished, c ∈ s.counted
  /-- A thread that is about to strike off a connection finds the counter above zero. -/
  no_underflow : s.closing ≠ 0 → 0 < s.pending
  /-- A connection is counted at most once. -/
  counted_once : s.counted.Nodup
  /-- A connection is finished at most once. -/
  finished_once : s.finished.Nodup
  /-- A connection is sent at most one response. -/
  answered_once : s.answered.Nodup
  /-- When the inference loop leaves because the daemon is idle, every connection counted so far is
  finished. -/
  idle_exit : ∀ e, s.infer ≠ .stopping true → (daemonStep policy s e).infer = .stopping true →
    ∀ c ∈ s.counted, c ∈ s.finished

theorem infer_acceptStep (s : Daemon) (ok : Bool) : (acceptStep s ok).infer = s.infer := by
  unfold acceptStep
  cases s.accept with
  | listening => cases ok <;> rfl
  | sending c =>
    simp only
    split
    · rfl
    · split
      · rfl
      · rfl
  | _ => rfl

theorem infer_readerStep (policy : ServerPolicy) (s : Daemon) (i : ℕ) (request : Request) (ok : Bool)
    (pc : ReaderPc) : (readerStep policy s i request ok pc).infer = s.infer := by
  cases pc with
  | receiving =>
    simp only [readerStep]
    split
    · rfl
    · split
      · rfl
      · rfl
  | reading c => cases request <;> rfl
  | queueing c =>
    simp only [readerStep]
    split
    · rfl
    · split
      · rfl
      · rfl
  | _ => rfl

theorem afterJob_ne_stopping (job : Job) (now : ℕ) (result : JobResult) (idle : Bool) :
    afterJob job now result ≠ .stopping idle := by
  unfold afterJob
  split
  · exact fun h => by cases h
  · cases result <;> exact fun h => by cases h

/-- The inference loop leaves for idleness only when it reads a counter of zero. -/
theorem pending_of_inferStep {result : JobResult} {ok : Bool}
    (hafter : (inferStep policy s result ok).infer = .stopping true) :
    s.infer = .checkPending ∧ s.pending = 0 := by
  unfold inferStep at hafter
  cases hpc : s.infer with
  | receiving =>
    simp only [hpc] at hafter
    split at hafter
    · cases hafter
    · change (if s.readersDone then InferPc.stopping false else .checkIdle) = _ at hafter
      split at hafter
      · cases hafter
      · cases hafter
  | working job =>
    simp only [hpc] at hafter
    exact absurd hafter (afterJob_ne_stopping job s.now result true)
  | checkIdle =>
    simp only [hpc] at hafter
    change (if policy.exitTtl ≤ s.now - s.lastActivity then InferPc.checkPending else .receiving) = _
      at hafter
    split at hafter
    · cases hafter
    · cases hafter
  | checkPending =>
    simp only [hpc] at hafter
    change (if s.pending = 0 then InferPc.stopping true else .receiving) = _ at hafter
    split at hafter
    · exact ⟨rfl, ‹_›⟩
    · cases hafter
  | stopping idle =>
    simp only [hpc] at hafter
    cases hafter
  | touching again =>
    simp only [hpc] at hafter
    cases again
    · cases hafter
    · cases hafter
  | replying c reply again =>
    simp only [hpc] at hafter
    cases hafter
  | closing c again =>
    simp only [hpc] at hafter
    cases hafter
  | stopped idle =>
    simp only [hpc] at hafter
    cases hafter
  | returned idle =>
    simp only [hpc] at hafter
    cases hafter
  | exited idle =>
    simp only [hpc] at hafter
    cases hafter

/-- The daemon leaves for idleness only when the inference loop reads a counter of zero. -/
theorem pending_of_daemonStep {e : DaemonEvent} (hbefore : s.infer ≠ .stopping true)
    (hafter : (daemonStep policy s e).infer = .stopping true) :
    s.infer = .checkPending ∧ s.pending = 0 := by
  unfold daemonStep at hafter
  split at hafter
  · exact absurd hafter hbefore
  · cases e with
    | accept ok => exact absurd ((infer_acceptStep s ok).symm.trans hafter) hbefore
    | reader i request ok =>
      simp only at hafter
      split at hafter
      · exact absurd ((infer_readerStep policy s i request ok _).symm.trans hafter) hbefore
      · exact absurd hafter hbefore
    | infer result ok => exact pending_of_inferStep hafter
    | tick d => exact absurd hafter hbefore

theorem DaemonInv.exact (h : DaemonInv s) : ExactAccounting policy s := by
  have hstages : s.waiting + s.closing + (s.finished : Multiset ℕ) = (s.counted : Multiset ℕ) :=
    h.balanced.stages
  have hcards : s.waiting.card + s.closing.card + s.finished.length = s.counted.length := by
    have := congrArg Multiset.card hstages
    simpa only [Multiset.card_add, Multiset.coe_card] using this
  have hpending := h.pending_eq
  refine ⟨by omega, ?_, ?_, ?_, ?_, ?_, ?_⟩
  · intro c hc
    have hmem : c ∈ s.waiting + s.closing + (s.finished : Multiset ℕ) :=
      Multiset.mem_add.2 (.inr (Multiset.mem_coe.2 hc))
    rw [hstages] at hmem
    exact Multiset.mem_coe.1 hmem
  · intro hclosing
    have hpos : 0 < s.closing.card := Multiset.card_pos.2 hclosing
    omega
  · exact Multiset.coe_nodup.1 h.balanced.counted_nodup
  · exact Multiset.coe_nodup.1 h.balanced.finished_nodup
  · exact Multiset.coe_nodup.1 h.balanced.answered_nodup
  · intro e hbefore hafter c hc
    obtain ⟨_, hzero⟩ := pending_of_daemonStep hbefore hafter
    -- a counter of zero leaves no connection in progress
    have hwaiting : s.waiting = 0 := Multiset.card_eq_zero.1 (by omega)
    have hclosing : s.closing = 0 := Multiset.card_eq_zero.1 (by omega)
    rw [hwaiting, hclosing, zero_add, zero_add] at hstages
    have hmem : c ∈ (s.counted : Multiset ℕ) := Multiset.mem_coe.2 hc
    rw [← hstages] at hmem
    exact Multiset.mem_coe.1 hmem

/-- **The accounting of connections in flight is exact** in every state of every run, whatever the
order of the operations and whatever the clients do. -/
theorem in_flight_accounting_exact (policy : ServerPolicy) (events : List DaemonEvent) :
    ∀ s ∈ events.scanl (daemonStep policy) Daemon.start, ExactAccounting policy s := by
  intro s hs
  have hinv : DaemonInv s := @forall_mem_scanl _ _ (daemonStep policy) DaemonInv
    (fun _ e h => daemonInv_step h e) _ daemonInv_start events s hs
  exact hinv.exact

/-- A ping that is read, answered and struck off. -/
def pingRun : List DaemonEvent :=
  [.accept true, .accept true, .accept true, .accept true, .reader 0 .ping true,
    .reader 0 .ping true, .reader 0 .ping true, .reader 0 .ping true, .reader 0 .ping true]

/-- After a ping the counter is back at zero, and the one connection was answered once. -/
theorem in_flight_accounting_exact_ping :
    ExactAccounting ⟨5, 3⟩ (pingRun.foldl (daemonStep ⟨5, 3⟩) Daemon.start) ∧
      (pingRun.foldl (daemonStep ⟨5, 3⟩) Daemon.start).pending = 0 ∧
      (pingRun.foldl (daemonStep ⟨5, 3⟩) Daemon.start).counted = [0] ∧
      (pingRun.foldl (daemonStep ⟨5, 3⟩) Daemon.start).answered = [0] := by
  refine ⟨in_flight_accounting_exact ⟨5, 3⟩ pingRun _ ?_, ?_⟩
  · decide +kernel
  · decide +kernel

end Greppy
