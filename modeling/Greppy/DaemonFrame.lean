/-
**The frames of the inference daemon.**

A request or a response of the daemon is one line: the JSON encoding of a value followed by a line
feed.  `serialize_json_frame` encodes into a buffer with a limit, `write_frame` hands the bytes to a
transport that may take them in pieces, and `read_frame` collects the pieces that arrive, against a
limit of its own, until it sees the line feed.

What the transport does is a list of polls, one for each round of a loop: the time at which the round
looks at the clock, and what the call of the transport gives.  A list that ends before the loop
returns leaves the loop running.

The JSON encoder is `serde_json`'s; it is a parameter `toWriter` that gives the pieces it writes.
-/

import Greppy.Discover
import Greppy.PollLoop
import Greppy.Usize
import Greppy.Utf8

set_option autoImplicit false

namespace Greppy

/-! ### Errors of the transport -/

/-- The kinds of `std::io::Error` that the framing makes or looks at. -/
inductive IoErrorKind where
  | wouldBlock
  | timedOut
  | writeZero
  | unexpectedEof
  | invalidData
  | other
deriving DecidableEq, Repr

/-- `std::io::Error`: its kind, the code of the operating system and the message. -/
structure IoError where
  kind : IoErrorKind
  rawOsError : Option ℤ
  message : String
deriving DecidableEq, Repr

namespace IoError

/-- `std::io::Error::new(kind, message)`. -/
def new (kind : IoErrorKind) (message : String) : IoError := ⟨kind, none, message⟩

end IoError

/-- `retryable_io`: the call would block, or the code says that a pipe is busy, closing, not
connected or still at work. -/
def retryableIo (error : IoError) : Bool :=
  error.kind == .wouldBlock ||
    match error.rawOsError with
    | some code => code == 231 || code == 232 || code == 233 || code == 997
    | none => false

/-- `b'\n'`. -/
def newline : UInt8 := 10

/-! ### Serialising into a bounded buffer -/

/-- The buffer that a frame is serialised into; it never holds more than its limit. -/
structure LimitedFrame where
  bytes : Bytes
  maxBytes : ℕ
  fits : bytes.length ≤ maxBytes

namespace LimitedFrame

/-- `LimitedFrame::new`. -/
def new (maxBytes : ℕ) : LimitedFrame := ⟨[], maxBytes, Nat.zero_le _⟩

/-- `write`: all of the bytes or, if the sum overflows or passes the limit, none of them.  The count
that `write` returns is the number of the bytes. -/
def write (frame : LimitedFrame) (bytes : Bytes) : Except IoError LimitedFrame :=
  match usizeAdd frame.bytes.length bytes.length with
  | none => .error (.new .invalidData "daemon frame exceeds limit")
  | some _ =>
    if h : (frame.bytes ++ bytes).length ≤ frame.maxBytes then
      .ok ⟨frame.bytes ++ bytes, frame.maxBytes, h⟩
    else .error (.new .invalidData "daemon frame exceeds limit")

/-- `write_all`: nothing to do for no bytes, else one call of `write`, which takes everything or
fails. -/
def writeAll (frame : LimitedFrame) (bytes : Bytes) : Except IoError LimitedFrame :=
  if bytes.isEmpty then .ok frame else frame.write bytes

end LimitedFrame

/-- `serde_json::to_writer` into the buffer: the encoder writes its pieces one after the other, and
the first error ends it. -/
def writePieces (frame : LimitedFrame) : List Bytes → Except IoError LimitedFrame
  | [] => .ok frame
  | piece :: pieces =>
    match frame.writeAll piece with
    | .ok frame => writePieces frame pieces
    | .error e => .error e

/-- `serialize_json_frame`: the encoding and a line feed, within the limit. -/
def serializeJsonFrame {Value : Type} (toWriter : Value → List Bytes) (value : Value)
    (maxBytes : ℕ) : Except IoError Bytes :=
  match writePieces (LimitedFrame.new maxBytes) (toWriter value) with
  | .error e => .error (.new .invalidData e.message)
  | .ok frame =>
    match frame.writeAll [newline] with
    | .error e => .error e
    | .ok frame => .ok frame.bytes

/-! ### Writing a frame to the transport -/

/-- What a call of `stream.write` gives: the number of bytes that the transport took, or an error. -/
inductive WriteResult where
  | accepted (count : ℕ)
  | failed (e : IoError)
deriving DecidableEq, Repr

/-- One round of the loop of `write_frame`: the clock it reads, and the transport's answer. -/
structure WritePoll where
  now : ℕ
  result : WriteResult
deriving DecidableEq, Repr

/-- The state of `write_frame`: how much of the frame is written, and what the transport took. -/
structure Sending where
  written : ℕ
  sent : Bytes
deriving DecidableEq, Repr

/-- One round of the loop of `write_frame`.  Once everything is written the loop ends with the result
of `stream.flush()`. -/
def writeStep (bytes : Bytes) (deadline : ℕ) (flush : Except IoError Unit) (s : Sending)
    (poll : WritePoll) : Sending × Option (Except IoError Unit) :=
  if deadline ≤ poll.now then (s, some (.error (.new .timedOut "daemon frame write timed out")))
  else
    match poll.result with
    | .accepted 0 => (s, some (.error (.new .writeZero "daemon frame write returned zero")))
    | .accepted (n + 1) =>
      let written := usizeSaturatingAdd s.written (n + 1)
      let sent := s.sent ++ (bytes.drop s.written).take (n + 1)
      (⟨written, sent⟩, if written < bytes.length then none else some flush)
    | .failed e => if retryableIo e then (s, none) else (s, some (.error e))

/-- `write_frame`: what the transport took, and the result if the call returned. -/
def writeFrame (bytes : Bytes) (start timeout : ℕ) (flush : Except IoError Unit)
    (polls : List WritePoll) : Bytes × Option (Except IoError Unit) :=
  if bytes.isEmpty then ([], some flush)
  else
    let outcome := PollLoop.run (writeStep bytes (start + timeout) flush) ⟨0, []⟩ polls
    (outcome.1.sent, outcome.2)

/-! ### Reading a frame from the transport -/

/-- What a call of `stream.read` gives: the bytes that it put into the buffer, or an error.  Zero
bytes are the end of the stream, or on Windows a pipe with nothing in it. -/
inductive ReadResult where
  | data (chunk : Bytes)
  | failed (e : IoError)
deriving DecidableEq, Repr

/-- The length of the buffer that `stream.read` fills. -/
def readBufferLen : ℕ := 4096

/-- One round of the loop of `read_frame`: the clock it reads, and the transport's answer, which fits
the buffer. -/
structure ReadPoll where
  now : ℕ
  result : ReadResult
  fits : ∀ chunk, result = .data chunk → chunk.length ≤ readBufferLen

/-- `String::from_utf8`, with the error that `read_frame` makes of a failure (its message leaves out
where the sequence starts). -/
def fromUtf8 (bytes : Bytes) : Except IoError String :=
  match Utf8.decode bytes with
  | some text => .ok (String.ofList text)
  | none => .error (.new .invalidData "invalid utf-8 sequence")

/-- What `read_frame` makes of its buffer after a successful read: an error when the buffer is over
the limit, the line when there is a line feed, and nothing yet otherwise. -/
def scanBuffer (maxBytes : ℕ) (bytes : Bytes) : Bytes × Option (Except IoError String) :=
  if maxBytes < bytes.length then
    (bytes, some (.error (.new .invalidData "daemon frame exceeds limit")))
  else
    match bytes.findIdx? (· == newline) with
    | some position => (bytes, some (fromUtf8 (bytes.take position)))
    | none => (bytes, none)

/-- A successful read: of its bytes no more are buffered than bring the buffer one byte over the
limit. -/
def takeChunk (maxBytes : ℕ) (bytes chunk : Bytes) : Bytes × Option (Except IoError String) :=
  let remaining := usizeSaturatingAdd maxBytes 1 - bytes.length
  scanBuffer maxBytes (bytes ++ chunk.take (min chunk.length remaining))

/-- One round of the loop of `read_frame`, with the bytes buffered after it. -/
def readStep (windows : Bool) (maxBytes deadline : ℕ) (bytes : Bytes) (poll : ReadPoll) :
    Bytes × Option (Except IoError String) :=
  if deadline ≤ poll.now then (bytes, some (.error (.new .timedOut "daemon frame read timed out")))
  else
    match poll.result with
    | .data [] =>
      if windows then (bytes, none)
      else (bytes, some (.error (.new .unexpectedEof "daemon frame ended before newline")))
    | .data (b :: chunk) => takeChunk maxBytes bytes (b :: chunk)
    | .failed e => if retryableIo e then (bytes, none) else (bytes, some (.error e))

/-- `read_frame`: the bytes it has buffered, and the result if the call returned. -/
def readFrame (windows : Bool) (maxBytes start timeout : ℕ) (polls : List ReadPoll) :
    Bytes × Option (Except IoError String) :=
  PollLoop.run (readStep windows maxBytes (start + timeout)) [] polls

/-! ### The encoding fits exactly when it and the line feed are within the limit -/

namespace LimitedFrame

variable {frame frame' : LimitedFrame}

theorem ext_of_eq (hbytes : frame.bytes = frame'.bytes) (hmax : frame.maxBytes = frame'.maxBytes) :
    frame = frame' := by
  cases frame
  cases frame'
  cases hbytes
  cases hmax
  rfl

/-- The buffer `frame'` is `frame` with `bytes` appended, under the same limit. -/
def Extends (frame : LimitedFrame) (bytes : Bytes) (frame' : LimitedFrame) : Prop :=
  frame'.bytes = frame.bytes ++ bytes ∧ frame'.maxBytes = frame.maxBytes

theorem extends_nil_iff : frame.Extends [] frame' ↔ frame = frame' := by
  constructor
  · rintro ⟨hbytes, hmax⟩
    exact ext_of_eq (by rw [hbytes, List.append_nil]) hmax.symm
  · rintro rfl
    exact ⟨(List.append_nil _).symm, rfl⟩

theorem write_eq_ok_iff {bytes : Bytes} (hmax : frame.maxBytes < 2 ^ 64) :
    frame.write bytes = .ok frame' ↔ frame.Extends bytes frame' := by
  unfold write usizeAdd Extends
  constructor
  · intro h
    split at h
    · cases h
    · split at h
      · cases h
        exact ⟨rfl, rfl⟩
      · cases h
  · rintro ⟨hbytes, hmax'⟩
    have hfits : (frame.bytes ++ bytes).length ≤ frame.maxBytes := by
      rw [← hbytes, ← hmax']
      exact frame'.fits
    have hsum : frame.bytes.length + bytes.length < 2 ^ 64 := by
      rw [List.length_append] at hfits
      omega
    rw [if_pos hsum]
    simp only [hfits, dite_true]
    exact congrArg Except.ok (ext_of_eq hbytes.symm hmax'.symm)

theorem writeAll_eq_ok_iff {bytes : Bytes} (hmax : frame.maxBytes < 2 ^ 64) :
    frame.writeAll bytes = .ok frame' ↔ frame.Extends bytes frame' := by
  cases bytes with
  | nil =>
    rw [extends_nil_iff]
    simp [writeAll]
  | cons b bytes => exact write_eq_ok_iff hmax

end LimitedFrame

theorem writePieces_eq_ok_iff {pieces : List Bytes} {frame frame' : LimitedFrame}
    (hmax : frame.maxBytes < 2 ^ 64) :
    writePieces frame pieces = .ok frame' ↔ frame.Extends pieces.flatten frame' := by
  induction pieces generalizing frame with
  | nil =>
    rw [List.flatten_nil, LimitedFrame.extends_nil_iff]
    simp [writePieces]
  | cons piece pieces ih =>
    rw [writePieces, List.flatten_cons]
    constructor
    · intro h
      cases hpiece : frame.writeAll piece with
      | error e =>
        rw [hpiece] at h
        cases h
      | ok middle =>
        rw [hpiece] at h
        obtain ⟨hbytes, hmiddle⟩ := (LimitedFrame.writeAll_eq_ok_iff hmax).1 hpiece
        obtain ⟨hbytes', hmiddle'⟩ := (ih (hmiddle ▸ hmax)).1 h
        exact ⟨by rw [hbytes', hbytes, List.append_assoc], hmiddle'.trans hmiddle⟩
    · rintro ⟨hbytes, hmax'⟩
      have hfits : (frame.bytes ++ piece).length ≤ frame.maxBytes := by
        have := frame'.fits
        rw [hbytes, hmax', List.length_append, List.length_append] at this
        rw [List.length_append]
        omega
      have hpiece : frame.writeAll piece = .ok ⟨frame.bytes ++ piece, frame.maxBytes, hfits⟩ :=
        (LimitedFrame.writeAll_eq_ok_iff hmax).2 ⟨rfl, rfl⟩
      rw [hpiece]
      exact (@ih ⟨frame.bytes ++ piece, frame.maxBytes, hfits⟩ hmax).2
        ⟨by rw [hbytes, List.append_assoc], hmax'⟩

/-- Serialising gives the encoding and a line feed, and it gives it exactly when that is within the
limit. -/
theorem serializeJsonFrame_eq_ok_iff {Value : Type} {toWriter : Value → List Bytes} {value : Value}
    {maxBytes : ℕ} (hmax : maxBytes < 2 ^ 64) {bytes : Bytes} :
    serializeJsonFrame toWriter value maxBytes = .ok bytes ↔
      bytes = (toWriter value).flatten ++ [newline] ∧ bytes.length ≤ maxBytes := by
  unfold serializeJsonFrame
  constructor
  · intro h
    cases hpieces : writePieces (LimitedFrame.new maxBytes) (toWriter value) with
    | error e =>
      rw [hpieces] at h
      cases h
    | ok frame =>
      rw [hpieces] at h
      obtain ⟨hbytes, hframe⟩ := (writePieces_eq_ok_iff hmax).1 hpieces
      cases hline : frame.writeAll [newline] with
      | error e =>
        simp only [hline] at h
        cases h
      | ok frame' =>
        simp only [hline] at h
        cases h
        obtain ⟨hbytes', hframe'⟩ :=
          (LimitedFrame.writeAll_eq_ok_iff (hframe ▸ hmax)).1 hline
        refine ⟨by rw [hbytes', hbytes]; rfl, ?_⟩
        have := frame'.fits
        rwa [hframe', hframe] at this
  · rintro ⟨rfl, hfits⟩
    have hfits' : (toWriter value).flatten.length ≤ maxBytes := by
      rw [List.length_append] at hfits
      omega
    have hpieces : writePieces (LimitedFrame.new maxBytes) (toWriter value) =
        .ok ⟨(toWriter value).flatten, maxBytes, hfits'⟩ :=
      (writePieces_eq_ok_iff hmax).2 ⟨rfl, rfl⟩
    have hline : LimitedFrame.writeAll ⟨(toWriter value).flatten, maxBytes, hfits'⟩ [newline] =
        .ok ⟨(toWriter value).flatten ++ [newline], maxBytes, hfits⟩ :=
      (LimitedFrame.writeAll_eq_ok_iff hmax).2 ⟨rfl, rfl⟩
    rw [hpieces]
    simp only [hline]

/-! ### The sender's loop -/

/-- A round that brings the sender on, or makes it wait: before the deadline the transport takes some
bytes, or it would block. -/
def WritePoll.Steady (deadline : ℕ) (poll : WritePoll) : Prop :=
  poll.now < deadline ∧
    match poll.result with
    | .accepted count => 0 < count
    | .failed e => retryableIo e = true

/-- The number of bytes that the transport takes over the rounds. -/
def acceptedBytes (polls : List WritePoll) : ℕ :=
  (polls.map fun poll => match poll.result with
    | .accepted count => count
    | .failed _ => 0).sum

theorem acceptedBytes_append (polls polls' : List WritePoll) :
    acceptedBytes (polls ++ polls') = acceptedBytes polls + acceptedBytes polls' := by
  simp [acceptedBytes]

theorem acceptedBytes_single (poll : WritePoll) :
    acceptedBytes [poll] = match poll.result with
      | .accepted count => count
      | .failed _ => 0 := by
  simp [acceptedBytes]

variable {deadline : ℕ} {polls : List ReadPoll} {poll : ReadPoll} {bytes : Bytes} {windows : Bool}
  {text : String}

theorem steady_append {polls : List WritePoll} {poll : WritePoll}
    (h : ∀ p ∈ polls ++ [poll], WritePoll.Steady deadline p) :
    (∀ p ∈ polls, WritePoll.Steady deadline p) ∧ WritePoll.Steady deadline poll :=
  ⟨fun p hp => h p (List.mem_append_left _ hp), h poll (by simp)⟩

/-- The invariant of the sender's loop: what the transport took is a proper beginning of the frame. -/
def SendInv (bytes : Bytes) (deadline : ℕ) (polls : List WritePoll) (s : Sending) : Prop :=
  (∀ p ∈ polls, WritePoll.Steady deadline p) →
    s.written = acceptedBytes polls ∧ s.sent = bytes.take s.written ∧ s.written < bytes.length

/-- What the sender's loop ends with: the transport took the whole frame. -/
def SendPost (bytes : Bytes) (deadline : ℕ) (flush : Except IoError Unit) (polls : List WritePoll)
    (s : Sending) (result : Except IoError Unit) : Prop :=
  (∀ p ∈ polls, WritePoll.Steady deadline p) → s.sent = bytes ∧ result = flush

theorem writeStep_keeps {flush : Except IoError Unit} (hlen : bytes.length < 2 ^ 64) :
    PollLoop.Keeps (writeStep bytes deadline flush) (SendInv bytes deadline)
      (SendPost bytes deadline flush) := by
  intro polls s poll hinv
  -- what a steady round does: it takes bytes, and then the frame is written or it is not, or it waits
  have hround : (∀ p ∈ polls ++ [poll], WritePoll.Steady deadline p) →
      (∀ t, writeStep bytes deadline flush s poll = (t, none) →
        t.written = acceptedBytes (polls ++ [poll]) ∧ t.sent = bytes.take t.written ∧
          t.written < bytes.length) ∧
      ∀ t r, writeStep bytes deadline flush s poll = (t, some r) → t.sent = bytes ∧ r = flush := by
    intro hsteady
    obtain ⟨hbefore, hnow, hresult⟩ := steady_append hsteady
    obtain ⟨hwritten, hsent, hlt⟩ := hinv hbefore
    rw [acceptedBytes_append, acceptedBytes_single]
    unfold writeStep
    rw [if_neg (by omega)]
    cases hanswer : poll.result with
    | failed e =>
      rw [hanswer] at hresult
      simp only [hresult, if_true, Prod.mk.injEq, reduceCtorEq, and_false, false_implies,
        implies_true, and_true]
      rintro t rfl
      exact ⟨hwritten, hsent, hlt⟩
    | accepted count =>
      rw [hanswer] at hresult
      obtain ⟨n, rfl⟩ : ∃ n, count = n + 1 := ⟨count - 1, by omega⟩
      have hgrow : s.sent ++ (bytes.drop s.written).take (n + 1) =
          bytes.take (s.written + (n + 1)) := by
        rw [hsent]
        exact List.take_add.symm
      rcases lt_or_ge (usizeSaturatingAdd s.written (n + 1)) bytes.length with hmore | hfull
      · simp only [if_pos hmore, Prod.mk.injEq, reduceCtorEq, and_false, false_implies,
          implies_true, and_true]
        rintro t rfl
        have hexact : usizeSaturatingAdd s.written (n + 1) = s.written + (n + 1) := by
          rcases usizeSaturatingAdd_eq_or s.written (n + 1) with h | h
          · exact h
          · omega
        refine ⟨by rw [hexact, hwritten], ?_, hmore⟩
        rw [hgrow, hexact]
      · simp only [if_neg (not_lt.2 hfull), Prod.mk.injEq, reduceCtorEq, and_false, false_implies,
          implies_true, true_and]
        rintro t r ⟨rfl, hflush⟩
        have hpast := le_trans hfull (usizeSaturatingAdd_le s.written (n + 1))
        exact ⟨by rw [hgrow, List.take_of_length_le hpast], (Option.some.inj hflush).symm⟩
  exact ⟨fun t ht hsteady => (hround hsteady).1 t ht, fun t r ht hsteady => (hround hsteady).2 t r ht⟩

/-- **A sender whose transport takes all the bytes delivers the frame**, in whatever pieces the
transport takes it. -/
theorem writeFrame_delivers {bytes : Bytes} {start timeout : ℕ} {flush : Except IoError Unit}
    {polls : List WritePoll} (hne : bytes ≠ []) (hlen : bytes.length < 2 ^ 64)
    (hsteady : ∀ p ∈ polls, WritePoll.Steady (start + timeout) p)
    (hall : acceptedBytes polls = bytes.length) :
    writeFrame bytes start timeout flush polls = (bytes, some flush) := by
  have hzero : 0 < bytes.length := List.length_pos_iff.2 hne
  have hinit : SendInv bytes (start + timeout) [] ⟨0, []⟩ := fun _ => ⟨rfl, by simp, hzero⟩
  obtain ⟨hgo, hreturn⟩ := PollLoop.run_rule (writeStep_keeps hlen) hinit polls
  unfold writeFrame
  rw [if_neg (by simpa using hne)]
  rcases houtcome : PollLoop.run (writeStep bytes (start + timeout) flush) ⟨0, []⟩ polls with
    ⟨t, _ | r⟩
  · -- a loop still running has not written everything
    obtain ⟨hwritten, _, hlt⟩ := hgo t houtcome hsteady
    omega
  · obtain ⟨taken, rest, rfl, hpost⟩ := hreturn t r houtcome
    obtain ⟨hsent, hflush⟩ := hpost fun p hp => hsteady p (List.mem_append_left _ hp)
    simp only [hsent, hflush]

/-! ### The receiver's loop -/

/-- The bytes that arrive over the rounds. -/
def receivedBytes (polls : List ReadPoll) : Bytes :=
  polls.flatMap fun poll => match poll.result with
    | .data chunk => chunk
    | .failed _ => []

/-- A round that brings the receiver on, or makes it wait: before the deadline some bytes arrive, or
the transport would block. -/
def ReadPoll.Steady (windows : Bool) (deadline : ℕ) (poll : ReadPoll) : Prop :=
  poll.now < deadline ∧
    match poll.result with
    | .data chunk => chunk ≠ [] ∨ windows = true
    | .failed e => retryableIo e = true

theorem receivedBytes_append (polls polls' : List ReadPoll) :
    receivedBytes (polls ++ polls') = receivedBytes polls ++ receivedBytes polls' :=
  List.flatMap_append

theorem receivedBytes_data {chunk : Bytes} (h : poll.result = .data chunk) :
    receivedBytes [poll] = chunk := by
  simp [receivedBytes, h]

theorem receivedBytes_failed {e : IoError} (h : poll.result = .failed e) :
    receivedBytes [poll] = [] := by
  simp [receivedBytes, h]

/-- The invariant of the receiver's loop: the buffer holds what arrived, up to the capacity, and there
is no line feed in it. -/
structure ReadInv (maxBytes : ℕ) (polls : List ReadPoll) (bytes : Bytes) : Prop where
  buffered : bytes = (receivedBytes polls).take (usizeSaturatingAdd maxBytes 1)
  within : bytes.length ≤ maxBytes
  open_line : newline ∉ bytes

/-- What the receiver's loop ends with: the line before the first line feed of what arrived, when that
is within the limit; else an error, for which the transport or an overlong stream is to blame. -/
structure ReadPost (windows : Bool) (maxBytes deadline : ℕ) (polls : List ReadPoll) (bytes : Bytes)
    (result : Except IoError String) : Prop where
  bounded : bytes.length ≤ maxBytes + 1
  line_or_error :
    (∃ line rest, receivedBytes polls = line ++ newline :: rest ∧ newline ∉ line ∧
      line.length + 1 ≤ maxBytes ∧ result = fromUtf8 line) ∨
    ((∃ e, result = .error e) ∧
      ((∀ p ∈ polls, p.Steady windows deadline) → maxBytes < (receivedBytes polls).length))

theorem line_of_findIdx {position : ℕ} (h : bytes.findIdx? (· == newline) = some position) :
    bytes = bytes.take position ++ newline :: bytes.drop (position + 1) ∧
      newline ∉ bytes.take position ∧ position < bytes.length := by
  obtain ⟨hlt, hhere, hbefore⟩ := List.findIdx?_eq_some_iff_getElem.1 h
  refine ⟨?_, ?_, hlt⟩
  · have hat : bytes[position] = newline := by simpa using hhere
    rw [← hat, List.getElem_cons_drop, List.take_append_drop]
  · intro hmem
    obtain ⟨j, hj, hat⟩ := List.mem_take_iff_getElem.1 hmem
    exact hbefore j (by omega) (by simp [hat])

/-- The buffer after a read holds what arrived so far, up to the capacity. -/
theorem takeChunk_eq (maxBytes : ℕ) (seen chunk : Bytes) :
    takeChunk maxBytes (seen.take (usizeSaturatingAdd maxBytes 1)) chunk =
      scanBuffer maxBytes ((seen ++ chunk).take (usizeSaturatingAdd maxBytes 1)) := by
  rw [takeChunk, List.take_append, List.length_take]
  congr 2
  rw [List.take_eq_take_iff]
  omega

/-- The three ways to go on from a buffer that holds what arrived, up to a capacity: the line is still
open, or it is complete, or the buffer is over the limit. -/
theorem scanBuffer_cases (maxBytes capacity : ℕ) (seen : Bytes) :
    (scanBuffer maxBytes (seen.take capacity) = (seen.take capacity, none) ∧
        (seen.take capacity).length ≤ maxBytes ∧ newline ∉ seen.take capacity) ∨
      (∃ line rest,
        scanBuffer maxBytes (seen.take capacity) = (seen.take capacity, some (fromUtf8 line)) ∧
        seen = line ++ newline :: rest ∧ newline ∉ line ∧ line.length + 1 ≤ maxBytes) ∨
      (∃ e, scanBuffer maxBytes (seen.take capacity) = (seen.take capacity, some (.error e)) ∧
        maxBytes < seen.length) := by
  unfold scanBuffer
  rcases lt_or_ge maxBytes (seen.take capacity).length with hlong | hfits
  · rw [if_pos hlong]
    exact .inr (.inr ⟨_, rfl, lt_of_lt_of_le hlong (List.length_take_le' capacity seen)⟩)
  · rw [if_neg (not_lt.2 hfits)]
    cases hfind : (seen.take capacity).findIdx? (· == newline) with
    | none =>
      refine .inl ⟨rfl, hfits, fun hmem => ?_⟩
      have hother := List.findIdx?_eq_none_iff.1 hfind newline hmem
      exact absurd hother (by decide)
    | some position =>
      obtain ⟨hsplit, hline, hlt⟩ := line_of_findIdx hfind
      have hseen : seen = (seen.take capacity).take position ++
          newline :: ((seen.take capacity).drop (position + 1) ++ seen.drop capacity) := by
        rw [← List.cons_append, ← List.append_assoc, ← hsplit, List.take_append_drop]
      refine .inr (.inl ⟨_, _, rfl, hseen, hline, ?_⟩)
      rw [List.length_take]
      omega

theorem ReadInv.waits {maxBytes : ℕ} (h : ReadInv maxBytes polls bytes)
    (hnothing : receivedBytes [poll] = []) : ReadInv maxBytes (polls ++ [poll]) bytes := by
  refine ⟨?_, h.within, h.open_line⟩
  rw [receivedBytes_append, hnothing, List.append_nil]
  exact h.buffered

theorem ReadInv.fails {maxBytes : ℕ} (h : ReadInv maxBytes polls bytes)
    (hbad : ¬ poll.Steady windows deadline) (e : IoError) :
    ReadPost windows maxBytes deadline (polls ++ [poll]) bytes (.error e) :=
  ⟨Nat.le_succ_of_le h.within,
    .inr ⟨⟨e, rfl⟩, fun hsteady => absurd (hsteady poll (by simp)) hbad⟩⟩

/-- What one round of the receiver's loop does: it goes on under the invariant, or it returns. -/
theorem readStep_cases {windows : Bool} {maxBytes deadline : ℕ}
    {polls : List ReadPoll} {bytes : Bytes} (hinv : ReadInv maxBytes polls bytes)
    (poll : ReadPoll) :
    (∃ bytes', readStep windows maxBytes deadline bytes poll = (bytes', none) ∧
        ReadInv maxBytes (polls ++ [poll]) bytes') ∨
      ∃ bytes' result, readStep windows maxBytes deadline bytes poll = (bytes', some result) ∧
        ReadPost windows maxBytes deadline (polls ++ [poll]) bytes' result := by
  unfold readStep
  rcases le_or_gt deadline poll.now with hlate | hnow
  · rw [if_pos hlate]
    exact .inr ⟨_, _, rfl, hinv.fails (fun hsteady => absurd hsteady.1 (not_lt.2 hlate)) _⟩
  · rw [if_neg (not_le.2 hnow)]
    cases hanswer : poll.result with
    | failed e =>
      cases hretry : retryableIo e with
      | true => exact .inl ⟨bytes, by simp [hretry], hinv.waits (receivedBytes_failed hanswer)⟩
      | false =>
        have hbad : ¬ poll.Steady windows deadline := by
          simp [ReadPoll.Steady, hanswer, hretry]
        exact .inr ⟨bytes, _, by simp [hretry], hinv.fails hbad e⟩
    | data chunk =>
      cases chunk with
      | nil =>
        cases windows with
        | true => exact .inl ⟨bytes, rfl, hinv.waits (receivedBytes_data hanswer)⟩
        | false =>
          have hbad : ¬ poll.Steady false deadline := by
            simp [ReadPoll.Steady, hanswer]
          exact .inr ⟨bytes, _, rfl, hinv.fails hbad _⟩
      | cons b chunk =>
        have hseen : receivedBytes polls ++ b :: chunk = receivedBytes (polls ++ [poll]) := by
          rw [receivedBytes_append, receivedBytes_data hanswer]
        have hcapacity : usizeSaturatingAdd maxBytes 1 ≤ maxBytes + 1 :=
          usizeSaturatingAdd_le maxBytes 1
        have hbounded := le_trans
          (List.length_take_le (usizeSaturatingAdd maxBytes 1) (receivedBytes (polls ++ [poll])))
          hcapacity
        simp only [hinv.buffered, takeChunk_eq, hseen]
        rcases scanBuffer_cases maxBytes (usizeSaturatingAdd maxBytes 1)
          (receivedBytes (polls ++ [poll])) with
          ⟨hscan, hwithin, hopen⟩ | ⟨line, rest, hscan, hsplit, hline, hshort⟩ |
            ⟨e, hscan, hlong⟩
        · exact .inl ⟨_, hscan, rfl, hwithin, hopen⟩
        · exact .inr ⟨_, _, hscan, hbounded, .inl ⟨line, rest, hsplit, hline, hshort, rfl⟩⟩
        · exact .inr ⟨_, _, hscan, hbounded, .inr ⟨⟨e, rfl⟩, fun _ => hlong⟩⟩

theorem readStep_keeps (windows : Bool) (maxBytes deadline : ℕ) :
    PollLoop.Keeps (readStep windows maxBytes deadline) (ReadInv maxBytes)
      (ReadPost windows maxBytes deadline) := by
  intro polls bytes poll hinv
  rcases @readStep_cases windows maxBytes deadline polls bytes hinv poll with ⟨bytes', hstep, hinv'⟩ | ⟨bytes', result, hstep, hpost⟩
  · refine ⟨fun t ht => ?_, fun t r ht => ?_⟩
    · cases hstep.symm.trans ht
      exact hinv'
    · cases hstep.symm.trans ht
  · refine ⟨fun t ht => ?_, fun t r ht => ?_⟩
    · cases hstep.symm.trans ht
    · cases hstep.symm.trans ht
      exact hpost

/-- The outcome of `read_frame`: it is still running under the invariant, or it returned after some of
the rounds. -/
theorem readFrame_cases (windows : Bool) (maxBytes start timeout : ℕ) (polls : List ReadPoll) :
    (∃ bytes, readFrame windows maxBytes start timeout polls = (bytes, none) ∧
        ReadInv maxBytes polls bytes) ∨
      ∃ bytes result taken rest,
        readFrame windows maxBytes start timeout polls = (bytes, some result) ∧
        polls = taken ++ rest ∧ ReadPost windows maxBytes (start + timeout) taken bytes result := by
  have hinit : ReadInv maxBytes [] [] :=
    ⟨List.take_nil.symm, Nat.zero_le _, List.not_mem_nil⟩
  obtain ⟨hgo, hreturn⟩ :=
    PollLoop.run_rule (readStep_keeps windows maxBytes (start + timeout)) hinit polls
  unfold readFrame
  rcases houtcome : PollLoop.run (readStep windows maxBytes (start + timeout)) [] polls with
    ⟨bytes, _ | result⟩
  · exact .inl ⟨bytes, rfl, hgo bytes houtcome⟩
  · obtain ⟨taken, rest, hpolls, hpost⟩ := hreturn bytes result houtcome
    exact .inr ⟨bytes, result, taken, rest, rfl, hpolls, hpost⟩

/-! ### What a receiver may rely on -/

theorem fromUtf8_eq_ok_iff : fromUtf8 bytes = .ok text ↔ bytes = Utf8.encode text.toList := by
  unfold fromUtf8
  constructor
  · intro h
    cases hdecode : Utf8.decode bytes with
    | none =>
      rw [hdecode] at h
      cases h
    | some chars =>
      rw [hdecode] at h
      cases h
      rw [String.toList_ofList]
      exact Utf8.decode_eq_some_iff.1 hdecode
  · intro h
    rw [Utf8.decode_eq_some_iff.2 h]
    simp

/-- What `read_frame` guarantees with a given limit, whatever the transport does. -/
structure ReadSpec (limit deadline : ℕ) (polls : List ReadPoll)
    (outcome : Bytes × Option (Except IoError String)) : Prop where
  /-- The buffer never holds more than one byte over the limit. -/
  bounded : outcome.1.length ≤ limit + 1
  /-- A frame is the whole line before the first line feed, and with the line feed within the limit:
  neither truncated nor overlong. -/
  exact : ∀ text, outcome.2 = some (.ok text) → ∃ rest,
    receivedBytes polls = Utf8.encode text.toList ++ newline :: rest ∧
      newline ∉ Utf8.encode text.toList ∧ (Utf8.encode text.toList).length + 1 ≤ limit
  /-- Without a line feed within the limit the call gives no frame. -/
  rejects : newline ∉ (receivedBytes polls).take limit →
    outcome.2 = none ∨ ∃ e, outcome.2 = some (.error e)
  /-- The call returns at the deadline. -/
  returns : (∃ poll ∈ polls, deadline ≤ poll.now) → outcome.2.isSome = true
  /-- The call returns as soon as more than the limit arrived. -/
  overlong : limit + 1 < 2 ^ 64 → limit < (receivedBytes polls).length → outcome.2.isSome = true

theorem readFrame_exact {limit start timeout : ℕ}
    (h : (readFrame windows limit start timeout polls).2 = some (.ok text)) :
    ∃ rest, receivedBytes polls = Utf8.encode text.toList ++ newline :: rest ∧
      newline ∉ Utf8.encode text.toList ∧ (Utf8.encode text.toList).length + 1 ≤ limit := by
  rcases readFrame_cases windows limit start timeout polls with
    ⟨bytes, hrun, _⟩ | ⟨bytes, result, taken, later, hrun, rfl, _, hpost⟩
  · rw [hrun] at h
    cases h
  · rw [hrun] at h
    cases h
    rcases hpost with ⟨line, rest, harrived, hline, hshort, hresult⟩ | ⟨⟨e, he⟩, _⟩
    · rw [fromUtf8_eq_ok_iff.1 hresult.symm] at harrived hline hshort
      exact ⟨rest ++ receivedBytes later, by
        rw [receivedBytes_append, harrived, List.append_assoc, List.cons_append], hline, hshort⟩
    · cases he

theorem readFrame_spec (windows : Bool) (limit start timeout : ℕ) (polls : List ReadPoll) :
    ReadSpec limit (start + timeout) polls (readFrame windows limit start timeout polls) := by
  refine ⟨?_, fun text h => readFrame_exact h, ?_, ?_, ?_⟩
  · rcases readFrame_cases windows limit start timeout polls with
      ⟨bytes, hrun, hinv⟩ | ⟨bytes, result, taken, later, hrun, _, hpost⟩
    · rw [hrun]
      exact Nat.le_succ_of_le hinv.within
    · rw [hrun]
      exact hpost.bounded
  · intro hno
    rcases houtcome : (readFrame windows limit start timeout polls).2 with _ | e | text
    · exact .inl rfl
    · exact .inr ⟨e, rfl⟩
    · -- a frame would have its line feed within the limit
      obtain ⟨rest, harrived, _, hshort⟩ := readFrame_exact houtcome
      refine absurd ?_ hno
      rw [harrived, List.take_append]
      refine List.mem_append_right _ ?_
      obtain ⟨k, hk⟩ : ∃ k, limit - (Utf8.encode text.toList).length = k + 1 :=
        ⟨limit - (Utf8.encode text.toList).length - 1, by omega⟩
      rw [hk, List.take_succ_cons]
      exact List.mem_cons_self
  · rintro ⟨poll, hmem, hlate⟩
    refine PollLoop.run_isSome_of_mem (fun bytes => ?_) hmem []
    rw [readStep, if_pos hlate]
    rfl
  · intro hlimit hlong
    rcases readFrame_cases windows limit start timeout polls with
      ⟨bytes, _, hinv⟩ | ⟨bytes, result, taken, later, hrun, _, _⟩
    · have hwithin := hinv.within
      rw [hinv.buffered, List.length_take, usizeSaturatingAdd] at hwithin
      omega
    · rw [hrun]
      rfl

/-- A receiver to which a line arrives, in whatever pieces, returns that line. -/
theorem readFrame_receives {limit start timeout : ℕ} (hlimit : limit < 2 ^ 64)
    (hsteady : ∀ p ∈ polls, ReadPoll.Steady windows (start + timeout) p)
    (harrived : receivedBytes polls = Utf8.encode text.toList ++ [newline])
    (hline : newline ∉ Utf8.encode text.toList)
    (hfits : (Utf8.encode text.toList).length + 1 ≤ limit) :
    (readFrame windows limit start timeout polls).2 = some (.ok text) := by
  have hlength : (receivedBytes polls).length ≤ limit := by
    rw [harrived, List.length_append, List.length_singleton]
    exact hfits
  rcases readFrame_cases windows limit start timeout polls with
    ⟨bytes, hrun, hinv⟩ | ⟨bytes, result, taken, later, hrun, hpolls, _, hpost⟩
  · -- a loop still running has no line feed in its buffer, which holds everything that arrived
    have hall : bytes = receivedBytes polls := by
      rw [hinv.buffered, List.take_of_length_le]
      unfold usizeSaturatingAdd
      omega
    refine absurd ?_ hinv.open_line
    rw [hall, harrived]
    simp
  · rw [hrun]
    have hsplit : receivedBytes polls = receivedBytes taken ++ receivedBytes later := by
      rw [hpolls, receivedBytes_append]
    rcases hpost with ⟨line, rest, htaken, _, _, hresult⟩ | ⟨_, hblame⟩
    · have hsame : line ++ newline :: (rest ++ receivedBytes later) =
          Utf8.encode text.toList ++ newline :: [] := by
        rw [← harrived, hsplit, htaken, List.append_assoc, List.cons_append]
      have hfirst : line = Utf8.encode text.toList :=
        ((List.append_cons_inj_of_notMem hline List.not_mem_nil).1 hsame.symm).1.symm
      rw [hresult, fromUtf8_eq_ok_iff.2 hfirst]
    · have hmore := hblame fun p hp => hsteady p (by rw [hpolls]; exact List.mem_append_left _ hp)
      rw [hsplit, List.length_append] at hlength
      omega

/-! ### The round trip -/

/-- **A frame arrives as it was sent.**  For an encoder that writes text without a raw line feed:
a value is serialised exactly when its encoding and the line feed are within the limit `m`; the frame,
written and read by way of a transport that takes and gives it in pieces, with calls that would block
in between, is read back as the encoding by a receiver with a limit of at least `m`; and a receiver
never gives anything but the first line of what arrived, nor buffers more than one byte over its
limit. -/
theorem frame_round_trip {Value : Type} (toWriter : Value → List Bytes) (value : Value)
    (text : String) (htext : (toWriter value).flatten = Utf8.encode text.toList)
    (hline : newline ∉ (toWriter value).flatten) (m : ℕ) (hm : m < 2 ^ 64) :
    ((∃ frame, serializeJsonFrame toWriter value m = .ok frame) ↔
        (toWriter value).flatten.length + 1 ≤ m) ∧
      (∀ frame, serializeJsonFrame toWriter value m = .ok frame →
        ∀ (start timeout : ℕ) (writes : List WritePoll),
          (∀ p ∈ writes, p.Steady (start + timeout)) → acceptedBytes writes = frame.length →
          (writeFrame frame start timeout (.ok ()) writes).2 = some (.ok ()) ∧
          ∀ (windows : Bool) (limit start' timeout' : ℕ) (reads : List ReadPoll),
            m ≤ limit → limit < 2 ^ 64 → (∀ p ∈ reads, p.Steady windows (start' + timeout')) →
            receivedBytes reads = (writeFrame frame start timeout (.ok ()) writes).1 →
            (readFrame windows limit start' timeout' reads).2 = some (.ok text)) ∧
      ∀ (windows : Bool) (limit start timeout : ℕ) (reads : List ReadPoll),
        ReadSpec limit (start + timeout) reads
          (readFrame windows limit start timeout reads) := by
  have hserialize := @serializeJsonFrame_eq_ok_iff Value toWriter value m hm
  refine ⟨?_, ?_, readFrame_spec⟩
  · constructor
    · rintro ⟨frame, hframe⟩
      obtain ⟨rfl, hfits⟩ := hserialize.1 hframe
      rwa [List.length_append, List.length_singleton] at hfits
    · intro hfits
      exact ⟨_, hserialize.2 ⟨rfl, by rwa [List.length_append, List.length_singleton]⟩⟩
  · intro frame hframe start timeout writes hwrites hall
    obtain ⟨rfl, hfits⟩ := hserialize.1 hframe
    have hwrite := @writeFrame_delivers _ start timeout (.ok ()) writes (by simp)
      (lt_of_le_of_lt hfits hm) hwrites hall
    rw [hwrite]
    refine ⟨rfl, fun windows limit start' timeout' reads hlimit hlt hreads harrived => ?_⟩
    rw [htext] at harrived hline hfits
    rw [List.length_append, List.length_singleton] at hfits
    exact readFrame_receives hlt hreads harrived hline (hfits.trans hlimit)

/-- The pieces in which `serde_json` writes a truth value. -/
def boolPieces (b : Bool) : List Bytes := [Utf8.encode (if b then "true" else "false").toList]

/-- A read before the deadline that gives the bytes of a short text. -/
def arrives (now : ℕ) (text : String) (h : (Utf8.encode text.toList).length ≤ readBufferLen) :
    ReadPoll where
  now := now
  result := .data (Utf8.encode text.toList)
  fits := by
    rintro chunk hchunk
    cases hchunk
    exact h

def blocks (now : ℕ) : ReadPoll where
  now := now
  result := .failed (.new .wouldBlock "")
  fits := by
    rintro chunk hchunk
    cases hchunk

/-- The value `true` with a limit of exactly its frame: five bytes, taken as two and three, given as
four and one. -/
theorem frame_round_trip_true :
    (∃ frame, serializeJsonFrame boolPieces true 5 = .ok frame) ∧
      (writeFrame (Utf8.encode "true\n".toList) 0 9 (.ok ())
        [⟨0, .accepted 2⟩, ⟨1, .failed (.new .wouldBlock "")⟩, ⟨2, .accepted 3⟩]).2 =
          some (.ok ()) ∧
      (readFrame false 5 1 9 [arrives 2 "true" (by decide), blocks 3, arrives 4 "\n" (by decide)]).2 =
          some (.ok "true") := by
  have htrip := frame_round_trip boolPieces true "true" (by decide +kernel) (by decide +kernel) 5
    (by decide)
  have hsent := htrip.2.1 (Utf8.encode "true\n".toList) (by decide +kernel) 0 9
    [⟨0, .accepted 2⟩, ⟨1, .failed (.new .wouldBlock "")⟩, ⟨2, .accepted 3⟩]
    (by simp [WritePoll.Steady, retryableIo, IoError.new]) (by decide +kernel)
  exact ⟨htrip.1.2 (by decide +kernel), hsent.1, hsent.2 false 5 1 9 _ le_rfl (by decide)
    (by simp [ReadPoll.Steady, retryableIo, IoError.new, arrives, blocks, Utf8.encode])
    (by decide +kernel)⟩

end Greppy
