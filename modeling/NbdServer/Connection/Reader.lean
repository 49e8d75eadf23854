import NbdServer.Export.Request
import NbdServer.Lib.System
import NbdServer.Protocol.Transmission

/-!
# The request reader of a connection

Model of `read_requests` in `connection/transmission.rs`. The reader is cut at its awaits: it waits
for a header, for a queue slot, for a payload, for the runtime to take the job or for room in the
reply queue. The socket is the list of the bytes that the client sends before it closes its side.

The reader parses every header twice, alone and again with its payload. This module shows that the
two agree (`parseRequest_header`) and that the loop stays in step with the requests of a client
(`reader_keeps_framing`).
-/

namespace NbdServer

open Lib

/-- Rust `ReplyKind`. -/
inductive ReplyKind where
  | read
  | simple
  deriving DecidableEq

/-- Rust `ExportJob` of a connection: its request, and the cookie and reply kind of its
completion. -/
structure ExportJob where
  cookie : NbdCookie
  kind : ReplyKind
  request : ExportRequest
  deriving DecidableEq

def TransmissionRequest.job? : TransmissionRequest → Option ExportJob
  | read cookie offset length => some ⟨cookie, .read, .read offset length⟩
  | write cookie offset data => some ⟨cookie, .simple, .write offset data⟩
  | flush cookie => some ⟨cookie, .simple, .flush⟩
  | disconnect _ => none

/-- Rust `ConnectionReplyDrain`. -/
inductive ConnectionReplyDrain where
  | dropPending
  | drainQueued
  deriving DecidableEq

/-- Rust `RequestReaderExit`. -/
structure RequestReaderExit where
  result : Res Unit
  replyDrain : ConnectionReplyDrain

/-- Rust `RequestReaderExit::close`. -/
def RequestReaderExit.close (result : Res Unit) : RequestReaderExit := ⟨result, .dropPending⟩

/-- Rust `RequestReaderExit::drain`. -/
def RequestReaderExit.drain (result : Res Unit) : RequestReaderExit := ⟨result, .drainQueued⟩

/-- What the reader waits for: a header, a queue slot for the header it has read, the payload, the
runtime to take the job, room in the reply queue for an error reply; or it has returned. -/
inductive ReaderPhase where
  | header
  | reserving (bytes : Buf) (header : RequestHeader) (payloadLen : Nat)
  | payload (bytes : Buf) (header : RequestHeader) (payloadLen : Nat)
  | submitting (job : ExportJob)
  | refusing (cookie : NbdCookie) (error : ServerError)
  | exited (exit : RequestReaderExit)

/-- The reader with the bytes it has not read and the jobs that the runtime has taken from it. -/
structure Reader where
  unread : Buf
  phase : ReaderPhase
  submitted : List ExportJob

inductive ReaderEvent where
  | read
  | readFailed (message : String)
  | reserved (result : Res Unit)
  | submitted (result : Res Unit)
  | sent (delivered : Bool)
  | cancelled

namespace Reader

def new (input : Buf) : Reader := ⟨input, .header, []⟩

def exit (r : Reader) (e : RequestReaderExit) : Reader := { r with phase := .exited e }

/-- The part of the loop between the reading of a header and the next await. -/
def readHeader (r : Reader) : Reader :=
  if r.unread.length < REQUEST_HEADER_BYTES then
    { r with unread := [], phase := .exited (.close (.ok ())) }
  else
    let bytes := r.unread.take REQUEST_HEADER_BYTES
    let r := { r with unread := r.unread.drop REQUEST_HEADER_BYTES }
    match parseRequestHeader bytes with
    | .error e => r.exit (.close (fail (.protocol e)))
    | .ok header =>
      match header.payloadLen MAX_IO_BYTES with
      | .error e => { r with phase := .refusing header.cookie (.protocol e) }
      | .ok payloadLen =>
        if header.command = NBD_CMD_DISC then r.exit (.close (.ok ()))
        else { r with phase := .reserving bytes header payloadLen }

/-- The part of the loop between the reading of a payload and the next await. -/
def readPayload (r : Reader) (bytes : Buf) (header : RequestHeader) (payloadLen : Nat) : Reader :=
  if r.unread.length < payloadLen then
    { r with
      unread := []
      phase := .exited (.close (fail (.io "read NBD transmission payload" "early eof"))) }
  else
    let payload := r.unread.take payloadLen
    let r := { r with unread := r.unread.drop payloadLen }
    match parseRequest (bytes ++ payload) MAX_IO_BYTES with
    | .error e => { r with phase := .refusing header.cookie (.protocol e) }
    | .ok request =>
      match request.job? with
      | some job => { r with phase := .submitting job }
      | none => r.exit (.close (.ok ()))

def next (r : Reader) : ReaderEvent → Option Reader
  | .read =>
    match r.phase with
    | .header => some r.readHeader
    | .payload bytes header payloadLen => some (r.readPayload bytes header payloadLen)
    | _ => none
  | .readFailed message =>
    match r.phase with
    | .header => some (r.exit (.close (fail (.io "read NBD transmission header" message))))
    | .payload _ _ _ => some (r.exit (.close (fail (.io "read NBD transmission payload" message))))
    | _ => none
  | .reserved result =>
    match r.phase, result with
    | .reserving bytes header payloadLen, .ok () =>
      some { r with phase := .payload bytes header payloadLen }
    | .reserving _ header _, .error (.err e) => some { r with phase := .refusing header.cookie e }
    | _, _ => none
  | .submitted result =>
    match r.phase, result with
    | .submitting job, .ok () => some { r with phase := .header, submitted := r.submitted ++ [job] }
    | .submitting job, .error (.err e) => some { r with phase := .refusing job.cookie e }
    | _, _ => none
  | .sent delivered =>
    match r.phase with
    | .refusing _ error =>
      some (r.exit (.drain (fail
        (if delivered then error else .runtimeClosed "connection reply queue"))))
    | _ => none
  | .cancelled =>
    match r.phase with
    | .header | .reserving _ _ _ | .payload _ _ _ => some (r.exit (.close (.ok ())))
    | _ => none

def proceed (r : Reader) : Reader :=
  let event : ReaderEvent :=
    match r.phase with
    | .reserving _ _ _ => .reserved (.ok ())
    | .submitting _ => .submitted (.ok ())
    | .refusing _ _ => .sent true
    | _ => .read
  (r.next event).getD r

end Reader

def readerSystem (input : Buf) : System Reader ReaderEvent where
  init r := r = .new input
  step r event r' := r.next event = some r'

namespace TransmissionRequest

def isDisconnect : TransmissionRequest → Bool
  | disconnect _ => true
  | _ => false

def Valid (r : TransmissionRequest) : Prop :=
  r.header.payloadLen MAX_IO_BYTES = .ok r.payload.length

def wire (r : TransmissionRequest) : Buf := encodeRequestHeader r.header ++ r.payload

def beforeDisconnect (rs : List TransmissionRequest) : List TransmissionRequest :=
  rs.takeWhile fun r => !r.isDisconnect

/-- The jobs that the requests of a client ask for, up to the first disconnect. -/
def jobs (rs : List TransmissionRequest) : List ExportJob := (beforeDisconnect rs).filterMap job?

end TransmissionRequest

open TransmissionRequest

lemma parseRequest_header {bytes payload : Buf} {header : RequestHeader} {n : Nat}
    (parsed : parseRequestHeader bytes = .ok header)
    (valid : header.payloadLen MAX_IO_BYTES = .ok n) (len : payload.length = n) :
    ∃ r : TransmissionRequest, parseRequest (bytes ++ payload) MAX_IO_BYTES = .ok r ∧
      r.header = header ∧ r.payload = payload := by
  obtain ⟨r, rfl, rfl⟩ := exists_request valid len
  rw [parseRequestHeader_eq_ok.1 parsed]
  exact ⟨r, parseRequest_of_valid (len ▸ valid), rfl, rfl⟩

lemma command_eq_disc {r : TransmissionRequest} :
    r.header.command = NBD_CMD_DISC ↔ r.isDisconnect = true := by
  cases r <;>
    simp [header, isDisconnect, NBD_CMD_READ, NBD_CMD_WRITE, NBD_CMD_FLUSH, NBD_CMD_DISC]

lemma job?_eq_some {r : TransmissionRequest} (h : r.isDisconnect = false) :
    ∃ job, r.job? = some job := by
  cases r with
  | disconnect cookie => cases h
  | _ => exact ⟨_, rfl⟩

section Turns

variable {r : TransmissionRequest} {rest : Buf} {done : List ExportJob}

lemma readHeader_valid (rest : Buf) (done : List ExportJob) (valid : r.Valid) :
    Reader.readHeader ⟨r.wire ++ rest, .header, done⟩ = ⟨r.payload ++ rest,
      if r.isDisconnect then .exited (.close (.ok ()))
      else .reserving (encodeRequestHeader r.header) r.header r.payload.length, done⟩ := by
  have split : r.wire ++ rest = encodeRequestHeader r.header ++ (r.payload ++ rest) :=
    List.append_assoc _ _ _
  have long : ¬ (encodeRequestHeader r.header ++ (r.payload ++ rest)).length <
      REQUEST_HEADER_BYTES := by
    rw [List.length_append, length_encodeRequestHeader]
    omega
  have taken : (encodeRequestHeader r.header ++ (r.payload ++ rest)).take REQUEST_HEADER_BYTES =
      encodeRequestHeader r.header := List.take_left' (length_encodeRequestHeader r.header)
  have dropped : (encodeRequestHeader r.header ++ (r.payload ++ rest)).drop REQUEST_HEADER_BYTES =
      r.payload ++ rest := List.drop_left' (length_encodeRequestHeader r.header)
  rw [split, Reader.readHeader, if_neg long]
  simp only [taken, dropped, parseRequestHeader_eq_ok.2 rfl, show r.header.payloadLen MAX_IO_BYTES =
    _ from valid, command_eq_disc]
  split <;> rfl

lemma readPayload_valid (valid : r.Valid) {job : ExportJob} (hjob : r.job? = some job)
    (phase : ReaderPhase) :
    Reader.readPayload ⟨r.payload ++ rest, phase, done⟩ (encodeRequestHeader r.header) r.header
      r.payload.length = ⟨rest, .submitting job, done⟩ := by
  have long : ¬ (r.payload ++ rest).length < r.payload.length := by
    rw [List.length_append]
    omega
  rw [Reader.readPayload, if_neg long]
  simp only [List.take_left, List.drop_left, parseRequest_of_valid valid, hjob]

lemma proceed_header {unread : Buf} : Reader.proceed ⟨unread, .header, done⟩ =
    Reader.readHeader ⟨unread, .header, done⟩ := rfl

lemma proceed_request (valid : r.Valid) {job : ExportJob} (hjob : r.job? = some job) :
    Reader.proceed^[4] ⟨r.wire ++ rest, .header, done⟩ = ⟨rest, .header, done ++ [job]⟩ := by
  have plain : r.isDisconnect = false := by
    cases r with
    | disconnect cookie => cases hjob
    | _ => rfl
  have first : Reader.proceed ⟨r.wire ++ rest, .header, done⟩ = ⟨r.payload ++ rest,
      .reserving (encodeRequestHeader r.header) r.header r.payload.length, done⟩ := by
    rw [proceed_header, readHeader_valid _ _ valid, plain]
    rfl
  rw [Function.iterate_succ_apply, first]
  show Reader.proceed (Reader.readPayload ⟨r.payload ++ rest, _, done⟩ _ _ _) = _
  rw [readPayload_valid valid hjob]
  rfl

lemma proceed_disconnect (valid : r.Valid) (h : r.isDisconnect = true) :
    Reader.proceed ⟨r.wire ++ rest, .header, done⟩ = ⟨rest, .exited (.close (.ok ())), done⟩ := by
  have none : r.payload = [] := by
    cases r with
    | disconnect cookie => rfl
    | _ => cases h
  rw [proceed_header, readHeader_valid _ _ valid, h, none]
  rfl

end Turns

/-- The steps of a reader, one constructor for each await and answer. -/
inductive Reader.Moves : Reader → ReaderEvent → Reader → Prop where
  | header {unread done} : Moves ⟨unread, .header, done⟩ .read (readHeader ⟨unread, .header, done⟩)
  | payload {unread bytes header n done} : Moves ⟨unread, .payload bytes header n, done⟩ .read
      (readPayload ⟨unread, .payload bytes header n, done⟩ bytes header n)
  | reserved {unread bytes header n done} : Moves ⟨unread, .reserving bytes header n, done⟩
      (.reserved (.ok ())) ⟨unread, .payload bytes header n, done⟩
  | notReserved {unread bytes header n done e} : Moves ⟨unread, .reserving bytes header n, done⟩
      (.reserved (fail e)) ⟨unread, .refusing header.cookie e, done⟩
  | submitted {unread job done} : Moves ⟨unread, .submitting job, done⟩ (.submitted (.ok ()))
      ⟨unread, .header, done ++ [job]⟩
  | notSubmitted {unread job done e} : Moves ⟨unread, .submitting job, done⟩ (.submitted (fail e))
      ⟨unread, .refusing job.cookie e, done⟩
  | sent {unread cookie error done delivered} : Moves ⟨unread, .refusing cookie error, done⟩
      (.sent delivered) ⟨unread, .exited (.drain (fail
        (if delivered then error else .runtimeClosed "connection reply queue"))), done⟩
  | readFailed {r message result} : Moves r (.readFailed message) (r.exit (.close result))
  | cancelled {r} : Moves r .cancelled (r.exit (.close (.ok ())))

namespace Reader

lemma Moves.of_next {r r' : Reader} {event : ReaderEvent} (h : r.next event = some r') :
    Moves r event r' := by
  obtain ⟨unread, phase, done⟩ := r
  cases event with
  | read =>
    cases phase with
    | header =>
      cases h
      exact .header
    | payload bytes header n =>
      cases h
      exact .payload
    | _ => cases h
  | readFailed message =>
    cases phase with
    | header =>
      cases h
      exact .readFailed
    | payload bytes header n =>
      cases h
      exact .readFailed
    | _ => cases h
  | reserved result =>
    cases phase with
    | reserving bytes header n =>
      match result with
      | .ok () =>
        cases h
        exact .reserved
      | .error (.err e) =>
        cases h
        exact .notReserved
      | .error (.abort _) => cases h
    | _ => cases h
  | submitted result =>
    cases phase with
    | submitting job =>
      match result with
      | .ok () =>
        cases h
        exact .submitted
      | .error (.err e) =>
        cases h
        exact .notSubmitted
      | .error (.abort _) => cases h
    | _ => cases h
  | sent delivered =>
    cases phase with
    | refusing cookie error =>
      cases h
      exact .sent
    | _ => cases h
  | cancelled =>
    cases phase with
    | header | reserving _ _ _ | payload _ _ _ =>
      cases h
      exact .cancelled
    | _ => cases h

lemma readHeader_fields (r : Reader) : r.readHeader.submitted = r.submitted ∧
    r.readHeader.phase ≠ .header := by
  unfold readHeader
  split
  · exact ⟨rfl, by simp⟩
  · dsimp only
    split
    · exact ⟨rfl, by simp [exit]⟩
    · split
      · exact ⟨rfl, by simp⟩
      · split
        · exact ⟨rfl, by simp [exit]⟩
        · exact ⟨rfl, by simp⟩

lemma readPayload_fields (r : Reader) (bytes : Buf) (header : RequestHeader) (n : Nat) :
    (r.readPayload bytes header n).submitted = r.submitted ∧
      (r.readPayload bytes header n).phase ≠ .header := by
  unfold readPayload
  split
  · exact ⟨rfl, by simp⟩
  · dsimp only
    split
    · exact ⟨rfl, by simp⟩
    · split
      · exact ⟨rfl, by simp⟩
      · exact ⟨rfl, by simp [exit]⟩

lemma Moves.submitted_or {r r' : Reader} {event : ReaderEvent} (h : Moves r event r') :
    r'.submitted = r.submitted ∧ r'.phase ≠ .header ∨ ∃ job, r'.submitted = r.submitted ++
    [job] := by
  cases h with
  | header => exact .inl (readHeader_fields _)
  | payload => exact .inl (readPayload_fields _ _ _ _)
  | submitted => exact .inr ⟨_, rfl⟩
  | _ => exact .inl ⟨rfl, by simp [exit]⟩

/-- What a reader in step with its client has still to read of the requests `todo`. -/
def Expects (todo : List TransmissionRequest) (rest : Buf) (s : Reader) : Prop :=
  match s.phase with
  | .header => s.unread = todo.flatMap wire ++ rest
  | .reserving bytes header n | .payload bytes header n =>
    ∃ r todo', todo = r :: todo' ∧ r.isDisconnect = false ∧ bytes = encodeRequestHeader r.header ∧
      header = r.header ∧ n = r.payload.length ∧ s.unread = r.payload ++
        (todo'.flatMap wire ++ rest)
  | .submitting job =>
    ∃ r todo', todo = r :: todo' ∧ r.job? = some job ∧ s.unread = todo'.flatMap wire ++ rest
  | _ => True

/-- The reader is in step with a client: the runtime has the jobs of the first requests. -/
def InStep (rs : List TransmissionRequest) (rest : Buf) (s : Reader) : Prop :=
  ∃ done todo, rs = done ++ todo ∧ (∀ r ∈ done, r.isDisconnect = false) ∧
    s.submitted = done.filterMap job? ∧ s.Expects todo rest

/-- The reader has taken all requests of a client that does not disconnect, and is behind them. -/
def Beyond (rs : List TransmissionRequest) (s : Reader) : Prop :=
  (∀ r ∈ rs, r.isDisconnect = false) ∧ rs.filterMap job? <+: s.submitted ∧
    (s.phase = .header → (rs.filterMap job?).length < s.submitted.length)

variable {rs : List TransmissionRequest} {rest : Buf} {s s' : Reader} {event : ReaderEvent}

lemma Beyond.move (h : Beyond rs s) (moves : Moves s event s') : Beyond rs s' := by
  obtain ⟨plain, taken, _⟩ := h
  rcases moves.submitted_or with ⟨same, phase⟩ | ⟨job, more⟩
  · exact ⟨plain, same ▸ taken, fun h => absurd h phase⟩
  · refine ⟨plain, more ▸ taken.trans (List.prefix_append _ _), fun _ => ?_⟩
    rw [more, List.length_append]
    exact Nat.lt_add_one_of_le taken.length_le

lemma InStep.move (valid : ∀ r ∈ rs, r.Valid) (h : InStep rs rest s) (moves : Moves s event s') :
    InStep rs rest s' ∨ Beyond rs s' := by
  obtain ⟨done, todo, rfl, plain, taken, expects⟩ := h
  cases moves with
  | @header unread jobs =>
    obtain rfl : unread = todo.flatMap wire ++ rest := expects
    cases todo with
    | nil =>
      obtain ⟨same, phase⟩ := readHeader_fields ⟨[].flatMap wire ++ rest, .header, jobs⟩
      refine .inr ⟨by simpa using plain, ?_, fun h => absurd h phase⟩
      rw [same, List.append_nil]
      exact taken ▸ List.prefix_rfl
    | cons r todo =>
      have split : (r :: todo).flatMap wire ++ rest = r.wire ++ (todo.flatMap wire ++ rest) := by
        rw [List.flatMap_cons, List.append_assoc]
      rw [split, readHeader_valid _ _ (valid r (by simp))]
      refine .inl ⟨done, r :: todo, rfl, plain, taken, ?_⟩
      cases disc : r.isDisconnect with
      | true => trivial
      | false => exact ⟨r, todo, rfl, disc, rfl, rfl, rfl, rfl⟩
  | payload =>
    obtain ⟨r, todo, rfl, disc, rfl, rfl, rfl, rfl⟩ := expects
    obtain ⟨job, hjob⟩ := job?_eq_some disc
    rw [readPayload_valid (valid r (by simp)) hjob]
    exact .inl ⟨done, r :: todo, rfl, plain, taken, r, todo, rfl, hjob, rfl⟩
  | reserved => exact .inl ⟨done, todo, rfl, plain, taken, expects⟩
  | submitted =>
    obtain ⟨r, todo, rfl, hjob, unread⟩ := expects
    have disc : r.isDisconnect = false := by
      cases r with
      | disconnect cookie => cases hjob
      | _ => rfl
    refine .inl ⟨done ++ [r], todo, by simp, ?_, ?_, unread⟩
    · intro r' hr'
      rcases List.mem_append.1 hr' with hr' | hr'
      · exact plain r' hr'
      · rw [List.mem_singleton.1 hr', disc]
    · rw [List.filterMap_append, ← taken, List.filterMap_cons_some hjob]
      rfl
  | _ => exact .inl ⟨done, todo, rfl, plain, taken, trivial⟩

lemma inStep_of_reachable (valid : ∀ r ∈ rs, r.Valid)
    (h : (readerSystem (rs.flatMap wire ++ rest)).Reachable s) :
    InStep rs rest s ∨ Beyond rs s := by
  refine System.invariant _ (P := fun s => InStep rs rest s ∨ Beyond rs s) ?_ ?_ h
  · rintro s rfl
    exact .inl ⟨[], rs, rfl, by simp, rfl, rfl⟩
  · intro s event s' inv step
    have moves := Moves.of_next step
    rcases inv with inv | inv
    · exact inv.move valid moves
    · exact .inr (inv.move moves)

end Reader

lemma phase_validated {input : Buf} {s : Reader} (h : (readerSystem input).Reachable s) :
    ∀ bytes header n, (s.phase = .reserving bytes header n ∨ s.phase = .payload bytes header n) →
      parseRequestHeader bytes = .ok header ∧ header.payloadLen MAX_IO_BYTES = .ok n := by
  refine System.invariant _ (P := fun s => ∀ bytes header n,
    (s.phase = .reserving bytes header n ∨ s.phase = .payload bytes header n) →
      parseRequestHeader bytes = .ok header ∧ header.payloadLen MAX_IO_BYTES = .ok n) ?_ ?_ h
  · rintro s rfl bytes header n (h | h) <;> cases h
  · intro s event s' inv step
    cases Reader.Moves.of_next step with
    | header =>
      intro bytes header n
      unfold Reader.readHeader
      split
      · simp
      · dsimp only
        split
        · simp [Reader.exit]
        · rename_i header' parsed
          split
          · simp
          · rename_i n' valid
            split
            · simp [Reader.exit]
            · rintro (h | h) <;> cases h
              exact ⟨parsed, valid⟩
    | payload =>
      intro bytes header n
      unfold Reader.readPayload
      split
      · simp
      · dsimp only
        split
        · simp
        · split <;> simp [Reader.exit]
    | reserved =>
      rintro bytes header n (h | h) <;> cases h
      exact inv _ _ _ (.inl rfl)
    | _ => rintro bytes header n (h | h) <;> cases h

section Framing

variable {rs : List TransmissionRequest} {rest : Buf}

lemma encoded_eq {frames : List Buf} (h : List.Forall₂ (fun r f => r.encode = .ok f) rs frames) :
    (∀ r ∈ rs, r.Valid) ∧ frames = rs.map wire := by
  induction h with
  | nil => simp
  | cons first _ ih =>
    obtain ⟨valid, rfl⟩ := encode_eq_ok.1 first
    obtain ⟨valids, rfl⟩ := ih
    exact ⟨List.forall_mem_cons.2 ⟨valid, valids⟩, rfl⟩

lemma flatten_drop_map (k : Nat) : ((rs.map wire).drop k).flatten = (rs.drop k).flatMap wire := by
  rw [← List.map_drop]
  rfl

lemma plain_beforeDisconnect : ∀ r ∈ beforeDisconnect rs, r.isDisconnect = false := by
  intro r hr
  simpa using List.mem_takeWhile_imp hr

lemma beforeDisconnect_cases (rs : List TransmissionRequest) : beforeDisconnect rs = rs ∨
    ∃ r todo, rs = beforeDisconnect rs ++ r :: todo ∧ r.isDisconnect = true := by
  induction rs with
  | nil => exact .inl rfl
  | cons r rs ih =>
    cases disc : r.isDisconnect with
    | true => exact .inr ⟨r, rs, by simp [beforeDisconnect, disc], disc⟩
    | false =>
      have more : beforeDisconnect (r :: rs) = r :: beforeDisconnect rs := by
        simp [beforeDisconnect, disc]
      rw [more]
      rcases ih with ih | ⟨r', todo, eq, disc'⟩
      · exact .inl (by rw [ih])
      · refine .inr ⟨r', todo, ?_, disc'⟩
        rw [List.cons_append, ← eq]

lemma filterMap_job (plain : ∀ r ∈ rs, r.isDisconnect = false) :
    (rs.filterMap job?).length = rs.length ∧
      ∀ k, (rs.filterMap job?).take k = (rs.take k).filterMap job? := by
  induction rs with
  | nil => simp
  | cons r rs ih =>
    obtain ⟨first, rest⟩ := List.forall_mem_cons.1 plain
    obtain ⟨job, hjob⟩ := job?_eq_some first
    obtain ⟨len, take⟩ := ih rest
    rw [List.filterMap_cons_some hjob]
    refine ⟨by rw [List.length_cons, List.length_cons, len], ?_⟩
    rintro (_ | k)
    · rfl
    · rw [List.take_succ_cons, List.take_succ_cons, List.filterMap_cons_some hjob, take]

lemma proceed_requests (rest : Buf) (done : List ExportJob) (valid : ∀ r ∈ rs, r.Valid)
    (plain : ∀ r ∈ rs, r.isDisconnect = false) :
    Reader.proceed^[4 * rs.length] ⟨rs.flatMap wire ++ rest, .header, done⟩ =
      ⟨rest, .header, done ++ rs.filterMap job?⟩ := by
  induction rs generalizing done with
  | nil => simp
  | cons r rs ih =>
    obtain ⟨first, plain⟩ := List.forall_mem_cons.1 plain
    obtain ⟨hvalid, valid⟩ := List.forall_mem_cons.1 valid
    obtain ⟨job, hjob⟩ := job?_eq_some first
    have count : 4 * (r :: rs).length = 4 * rs.length + 4 := by
      rw [List.length_cons]
      omega
    rw [count, Function.iterate_add_apply, List.flatMap_cons, List.append_assoc,
      proceed_request hvalid hjob, ih _ valid plain, List.filterMap_cons_some hjob,
        List.append_assoc]
    rfl

lemma length_jobs (rs : List TransmissionRequest) :
    (jobs rs).length = (beforeDisconnect rs).length := (filterMap_job plain_beforeDisconnect).1

lemma jobs_of_plain (plain : ∀ r ∈ rs, r.isDisconnect = false) : jobs rs = rs.filterMap job? := by
  have all : beforeDisconnect rs = rs := List.takeWhile_eq_self_iff.2 fun r hr =>
    by rw [plain r hr]; rfl
  rw [jobs, all]

lemma proceed_take (rest : Buf) (valid : ∀ r ∈ rs, r.Valid) {k : Nat}
    (le : k ≤ (beforeDisconnect rs).length) :
    Reader.proceed^[4 * k] (.new (rs.flatMap wire ++ rest)) =
      ⟨(rs.drop k).flatMap wire ++ rest, .header, (jobs rs).take k⟩ := by
  have first : (beforeDisconnect rs).take k = rs.take k := by
    obtain ⟨t, eq⟩ := List.takeWhile_prefix (l := rs) fun r => !r.isDisconnect
    conv_rhs => rw [← eq]
    exact (List.take_append_of_le_length le).symm
  have plain : ∀ r ∈ rs.take k, r.isDisconnect = false := fun r hr =>
    plain_beforeDisconnect r (List.mem_of_mem_take (first ▸ hr))
  have count : (rs.take k).length = k := by
    rw [← first]
    exact List.length_take_of_le le
  have start : rs.flatMap wire ++ rest =
      (rs.take k).flatMap wire ++ ((rs.drop k).flatMap wire ++ rest) := by
    rw [← List.append_assoc, ← List.flatMap_append, List.take_append_drop]
  have run := proceed_requests ((rs.drop k).flatMap wire ++ rest) []
    (fun r hr => valid r (List.mem_of_mem_take hr)) plain
  rw [count] at run
  rw [start, Reader.new, run, jobs, (filterMap_job plain_beforeDisconnect).2, first]
  rfl

lemma Reader.InStep.header {s : Reader} (h : s.InStep rs rest) :
    s.submitted <+: jobs rs ∧
      (s.phase = .header → s.unread = (rs.drop s.submitted.length).flatMap wire ++ rest) := by
  obtain ⟨done, todo, rfl, plain, taken, expects⟩ := h
  have all : jobs (done ++ todo) = s.submitted ++ jobs todo := by
    have before : beforeDisconnect (done ++ todo) = done ++ beforeDisconnect todo :=
      List.takeWhile_append_of_pos fun r hr => by rw [plain r hr]; rfl
    rw [jobs, before, List.filterMap_append, taken]
    rfl
  refine ⟨all ▸ List.prefix_append _ _, fun phase => ?_⟩
  unfold Expects at expects
  rw [phase] at expects
  rw [expects, taken, (filterMap_job plain).1, List.drop_left]

/-- The reader stays in step with the requests of every client: without a failure it takes the bytes
of each request and hands its job to the runtime, up to the first disconnect, and in no run does it
hand over anything else while the requests last. On any input the second parse of a header agrees
with the first. -/
theorem reader_keeps_framing :
    (∀ (rs : List TransmissionRequest) (frames : List Buf) (rest : Buf),
      List.Forall₂ (fun r f => r.encode = .ok f) rs frames →
      List.Forall₂ (fun r f => f.length = REQUEST_HEADER_BYTES + r.payload.length) rs frames ∧
      (∀ k ≤ (jobs rs).length, Reader.proceed^[4 * k] (.new (frames.flatten ++ rest)) =
        ⟨(frames.drop k).flatten ++ rest, .header, (jobs rs).take k⟩) ∧
      ((∃ r ∈ rs, r.isDisconnect = true) →
        Reader.proceed^[4 * (jobs rs).length + 1] (.new (frames.flatten ++ rest)) =
          ⟨(frames.drop ((jobs rs).length + 1)).flatten ++ rest, .exited (.close (.ok ())),
            jobs rs⟩) ∧
      ∀ s, (readerSystem (frames.flatten ++ rest)).Reachable s →
        (s.submitted <+: jobs rs ∨
          (∀ r ∈ rs, r.isDisconnect = false) ∧ jobs rs <+: s.submitted) ∧
        (s.phase = .header → s.submitted.length ≤ (jobs rs).length →
          s.unread = (frames.drop s.submitted.length).flatten ++ rest)) ∧
    (∀ (bytes payload : Buf) (header : RequestHeader) (n : Nat),
      parseRequestHeader bytes = .ok header → header.payloadLen MAX_IO_BYTES = .ok n →
      payload.length = n → ∃ r, parseRequest (bytes ++ payload) MAX_IO_BYTES = .ok r ∧
        r.header = header ∧ r.payload = payload) ∧
    ∀ (input : Buf) (s : Reader), (readerSystem input).Reachable s → ∀ bytes header n,
      s.phase = .payload bytes header n →
        parseRequestHeader bytes = .ok header ∧ header.payloadLen MAX_IO_BYTES = .ok n := by
  refine ⟨?_, fun _ _ _ _ => parseRequest_header, fun _ _ h _ _ _ phase =>
    phase_validated h _ _ _ (.inr phase)⟩
  intro rs frames rest encoded
  obtain ⟨valid, rfl⟩ := encoded_eq encoded
  have len := length_jobs rs
  refine ⟨?_, ?_, ?_, ?_⟩
  · rw [List.forall₂_map_right_iff, List.forall₂_same]
    intro r _
    rw [wire, List.length_append, length_encodeRequestHeader]
  · intro k le
    rw [flatten_drop_map]
    exact proceed_take rest valid (len ▸ le)
  · rintro ⟨r, hr, disc⟩
    rw [flatten_drop_map, Function.iterate_succ_apply']
    have taken := proceed_take rest valid len.le
    rw [List.take_length] at taken
    refine (congrArg Reader.proceed taken).trans ?_
    rcases beforeDisconnect_cases rs with all | ⟨r', todo, eq, disc'⟩
    · rw [plain_beforeDisconnect r (all ▸ hr)] at disc
      cases disc
    · have at_disconnect : rs.drop (jobs rs).length = r' :: todo := by
        rw [len]
        exact (congrArg (List.drop _) eq).trans List.drop_left
      rw [← List.drop_drop, at_disconnect, List.flatMap_cons, List.append_assoc]
      exact proceed_disconnect (valid r' (eq ▸ by simp)) disc'
  · intro s reachable
    rw [flatten_drop_map]
    rcases Reader.inStep_of_reachable valid reachable with inStep | ⟨plain, taken, behind⟩
    · exact ⟨.inl inStep.header.1, fun phase _ => inStep.header.2 phase⟩
    · rw [← jobs_of_plain plain] at taken behind
      exact ⟨.inr ⟨plain, taken⟩, fun phase le => absurd (behind phase) (not_lt.2 le)⟩

/-- A write, a flush and a disconnect, with a read behind the disconnect. -/
def farewell : List TransmissionRequest := [.write 5 0 [1, 2], .flush 6, .disconnect 7, .read 8 0 1]

/-- The reader hands over the write and the flush, stops after the disconnect, and leaves the read
and the byte behind it unread. -/
theorem reader_keeps_framing_farewell :
    Reader.proceed^[9] (.new ((farewell.map wire).flatten ++ [255])) =
      ⟨(TransmissionRequest.read 8 0 1).wire ++ [255], .exited (.close (.ok ())),
        [⟨5, .simple, .write 0 [1, 2]⟩, ⟨6, .simple, .flush⟩]⟩ := by
  have encoded : List.Forall₂ (fun r f => r.encode = .ok f) farewell (farewell.map wire) := by
    rw [List.forall₂_map_right_iff, List.forall₂_same]
    intro r hr
    refine encode_eq_ok.2 ⟨?_, rfl⟩
    fin_cases hr <;> rfl
  obtain ⟨-, -, stops, -⟩ := reader_keeps_framing.1 farewell _ [255] encoded
  exact stops ⟨.disconnect 7, by decide, rfl⟩

end Framing

end NbdServer
