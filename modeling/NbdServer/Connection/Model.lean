import NbdServer.Connection.Reader
import NbdServer.Export.Lifecycle
import NbdServer.Lib.Update

/-!
# A connection

Model of `ConnectionRuntime::run_io` with `run_connection_tasks` in `connection/mod.rs`, the replies
and the writer of `connection/replies.rs`, and the part of the two export runtimes that a connection
sees: the queue slots, the jobs and their completions.

The tasks are the reader, one for each job in the concurrent runtime (the worker in the serial one)
and the writer; they meet at the queue depth semaphore and at the bounded reply queue. A job is
executed when the admission controller lets it: no job before it that conflicts with it is waiting
or active (`Admission.Safety`, `Admission.Liveness`). The result of an execution is left open. Runs
are those without a shutdown and without a failure of the socket; what the reader does then is in
`Connection.Reader`.
-/

namespace NbdServer

open Lib Admission Lifecycle

/-- Rust `ConnectionReplyPayload`. -/
inductive ConnectionReplyPayload where
  | exported (kind : ReplyKind) (result : ExportResult)
  | simpleError (error : UInt32)

/-- Rust `ConnectionReply`. -/
structure ConnectionReply where
  cookie : NbdCookie
  payload : ConnectionReplyPayload

namespace ConnectionReply

/-- Rust `write_connection_reply`: the bytes it writes. -/
def frame (r : ConnectionReply) : Buf :=
  match r.payload with
  | .exported .read (.ok (.read data)) => encodeReadReply r.cookie data
  | .exported .simple (.ok .done) => encodeSimpleReply r.cookie 0
  | .exported _ _ => encodeSimpleReply r.cookie NBD_EINVAL
  | .simpleError error => encodeSimpleReply r.cookie error

def holdsSlot (r : ConnectionReply) : Bool :=
  match r.payload with
  | .exported _ _ => true
  | .simpleError _ => false

end ConnectionReply

/-- Where a job is in the runtime: handed over, executed, waiting for room in the reply queue with
its result, or replied to. -/
inductive RunPhase where
  | queued
  | executing
  | completing (result : ExportResult)
  | replied (result : ExportResult)

namespace RunPhase

/-- The job still holds its queue slot and its sender of the reply queue. -/
def running : RunPhase → Bool
  | replied _ => false
  | _ => true

/-- The job waits in the admission queue or is admitted. -/
def registered : RunPhase → Bool
  | queued | executing => true
  | _ => false

def isQueued : RunPhase → Bool
  | queued => true
  | _ => false

end RunPhase

structure RunningJob where
  job : ExportJob
  phase : RunPhase

def RunningJob.reply? (j : RunningJob) : Option ConnectionReply :=
  match j.phase with
  | .replied result => some ⟨j.job.cookie, .exported j.job.kind result⟩
  | _ => none

structure ConnConfig where
  kind : RuntimeKind
  queueDepth : Nat
  replyCapacity : Nat
  sizeBytes : Nat
  operationFor : ExportRequest → Res AdmissionOp

namespace ConnConfig

/-- Rust `prepare_admitted_job`: the operation that is registered, or the error of a rejected
job. -/
def register (c : ConnConfig) (job : ExportJob) : Res AdmissionOp := do
  let op ← c.operationFor job.request
  (AdmissionState.new c.sizeBytes).validate op
  pure op

def conflict (c : ConnConfig) (a b : ExportJob) : Bool :=
  match c.register a, c.register b with
  | .ok op, .ok op' => op.conflicts op'
  | _, _ => false

/-- The job behind `earlier` may leave the queue: the worker of the serial runtime is free, or no
job before it that conflicts with it is waiting or active. -/
def mayStart (c : ConnConfig) (earlier : List RunningJob) (job : ExportJob) : Bool :=
  match c.kind with
  | .serial => earlier.all fun j => !j.phase.running
  | .concurrent => earlier.all fun j => !(j.phase.registered && c.conflict j.job job)

def start (c : ConnConfig) (job : ExportJob) : RunPhase :=
  match c.register job with
  | .ok _ => .executing
  | .error e => .completing (.error e)

/-- `runtime.submit` does not wait: the channel of the serial runtime has room, and the concurrent
runtime spawns a task. -/
def takes (c : ConnConfig) (jobs : List RunningJob) : Bool :=
  match c.kind with
  | .serial => jobs.countP (·.phase.isQueued) < c.queueDepth
  | .concurrent => true

end ConnConfig

/-- An engine read returns the requested number of bytes. -/
def ExportJob.fits (job : ExportJob) (result : ExportResult) : Bool :=
  match job.request, result with
  | .read _ len, .ok (.read data) => data.length = len.toNat
  | _, _ => true

/-- Where `write_replies` is: at the receiving end of the reply queue, inside `write_all` with the
bytes that are left, or it has returned. -/
inductive WriterPhase where
  | receiving
  | writing (bytes : Buf) (slot : Bool)
  | returned

/-- A connection: the reader, the free queue slots, the jobs in the order of their submission, the
reply queue, the writer, the bytes on the socket, and what the connection task returned. -/
structure Conn where
  reader : Reader
  available : Nat
  jobs : List RunningJob
  replies : List ConnectionReply
  writer : WriterPhase
  output : Buf
  ended : Option (Res Unit)

inductive ConnEvent where
  | read
  | reserve
  | submit
  | refuse
  | start (i : Nat)
  | execute (i : Nat) (result : ExportResult)
  | complete (i : Nat)
  | receive
  | write (n : Nat)
  | written
  | writerReturns
  | finish

namespace Conn

/-- A connection at the start of `run_io`. -/
def new (c : ConnConfig) (input : Buf) : Conn where
  reader := .new input
  available := c.queueDepth
  jobs := []
  replies := []
  writer := .receiving
  output := []
  ended := none

def senders (s : Conn) : Bool :=
  (match s.reader.phase with
    | .exited _ => false
    | _ => true) || s.jobs.any (·.phase.running)

/-- The step of the reader whose await has ended well. -/
def withReader (s : Conn) (event : ReaderEvent) (f : Reader → Conn) : Option Conn :=
  (s.reader.next event).map f

def setPhase (s : Conn) (i : Nat) (job : ExportJob) (phase : RunPhase) : Conn :=
  { s with jobs := s.jobs.set i ⟨job, phase⟩ }

def step (c : ConnConfig) (s : Conn) : ConnEvent → Option Conn
  | .read => s.withReader .read fun r => { s with reader := r }
  | .reserve =>
    if 0 < s.available then
      s.withReader (.reserved (.ok ())) fun r => { s with
        reader := r, available := s.available - 1 }
    else none
  | .submit =>
    match s.reader.phase with
    | .submitting job =>
      if c.takes s.jobs then
        s.withReader (.submitted (.ok ())) fun r =>
          { s with reader := r, jobs := s.jobs ++ [⟨job, .queued⟩] }
      else none
    | _ => none
  | .refuse =>
    match s.reader.phase with
    | .refusing cookie _ =>
      if s.replies.length < c.replyCapacity then
        s.withReader (.sent true) fun r =>
          { s with reader := r, replies := s.replies ++ [⟨cookie, .simpleError NBD_EINVAL⟩] }
      else none
    | _ => none
  | .start i =>
    match s.jobs[i]? with
    | some ⟨job, .queued⟩ =>
      if c.mayStart (s.jobs.take i) job then some (s.setPhase i job (c.start job)) else none
    | _ => none
  | .execute i result =>
    match s.jobs[i]? with
    | some ⟨job, .executing⟩ =>
      if job.fits result then some (s.setPhase i job (.completing result)) else none
    | _ => none
  | .complete i =>
    match s.jobs[i]? with
    | some ⟨job, .completing result⟩ =>
      if s.replies.length < c.replyCapacity then
        some { s.setPhase i job (.replied result) with
          replies := s.replies ++ [⟨job.cookie, .exported job.kind result⟩] }
      else none
    | _ => none
  | .receive =>
    match s.writer, s.replies with
    | .receiving, reply :: replies =>
      some { s with replies := replies, writer := .writing reply.frame reply.holdsSlot }
    | _, _ => none
  | .write n =>
    match s.writer with
    | .writing bytes slot =>
      if 0 < n ∧ n ≤ bytes.length then
        some { s with output := s.output ++ bytes.take n, writer := .writing (bytes.drop n) slot }
      else none
    | _ => none
  | .written =>
    match s.writer with
    | .writing [] slot =>
      some { s with writer := .receiving, available := s.available + slot.toNat }
    | _ => none
  | .writerReturns =>
    match s.writer, s.replies with
    | .receiving, [] => if s.senders then none else some { s with writer := .returned }
    | _, _ => none
  | .finish =>
    match s.reader.phase, s.writer with
    | .exited ⟨result, .drainQueued⟩, .returned => some { s with ended := some result }
    | .exited ⟨result, .dropPending⟩, _ => some { s with ended := some result }
    | _, _ => none

def next (c : ConnConfig) (s : Conn) (event : ConnEvent) : Option Conn :=
  if s.ended.isSome then none else s.step c event

end Conn

def connSystem (c : ConnConfig) (input : Buf) : System Conn ConnEvent where
  init s := s = .new c input
  step s event s' := s.next c event = some s'

inductive Conn.Step (c : ConnConfig) (s : Conn) : ConnEvent → Conn → Prop where
  | read {r} : s.reader.next .read = some r → Step c s .read { s with reader := r }
  | reserve {r} : 0 < s.available → s.reader.next (.reserved (.ok ())) = some r →
      Step c s .reserve { s with reader := r, available := s.available - 1 }
  | submit {job} : s.reader.phase = .submitting job → c.takes s.jobs = true →
      Step c s .submit { s with
        reader := ⟨s.reader.unread, .header, s.reader.submitted ++ [job]⟩
        jobs := s.jobs ++ [⟨job, .queued⟩] }
  | refuse {cookie error} : s.reader.phase = .refusing cookie error →
      s.replies.length < c.replyCapacity →
      Step c s .refuse { s with
        reader := s.reader.exit (.drain (fail error))
        replies := s.replies ++ [⟨cookie, .simpleError NBD_EINVAL⟩] }
  | start {i job} : s.jobs[i]? = some ⟨job, .queued⟩ → c.mayStart (s.jobs.take i) job = true →
      Step c s (.start i) (s.setPhase i job (c.start job))
  | execute {i job result} : s.jobs[i]? = some ⟨job, .executing⟩ → job.fits result = true →
      Step c s (.execute i result) (s.setPhase i job (.completing result))
  | complete {i job result} : s.jobs[i]? = some ⟨job, .completing result⟩ →
      s.replies.length < c.replyCapacity →
      Step c s (.complete i) { s.setPhase i job (.replied result) with
        replies := s.replies ++ [⟨job.cookie, .exported job.kind result⟩] }
  | receive {reply replies} : s.writer = .receiving → s.replies = reply :: replies →
      Step c s .receive { s with
        replies := replies
        writer := .writing reply.frame reply.holdsSlot }
  | write {bytes slot n} : s.writer = .writing bytes slot → 0 < n → n ≤ bytes.length →
      Step c s (.write n) { s with
        output := s.output ++ bytes.take n
        writer := .writing (bytes.drop n) slot }
  | written {slot} : s.writer = .writing [] slot →
      Step c s .written { s with writer := .receiving, available := s.available + slot.toNat }
  | writerReturns : s.writer = .receiving → s.replies = [] → s.senders = false →
      Step c s .writerReturns { s with writer := .returned }
  | drained {result} : s.reader.phase = .exited (.drain result) → s.writer = .returned →
      Step c s .finish { s with ended := some result }
  | dropped {result} : s.reader.phase = .exited (.close result) →
      Step c s .finish { s with ended := some result }

namespace Conn

variable {c : ConnConfig} {s s' : Conn} {event : ConnEvent}

lemma Step.of_next (h : s.next c event = some s') : s.ended = none ∧ Step c s event s' := by
  unfold next at h
  split at h
  · cases h
  rename_i running
  refine ⟨Option.not_isSome_iff_eq_none.1 running, ?_⟩
  cases event with
  | read =>
    obtain ⟨r, hr, rfl⟩ := Option.map_eq_some_iff.1 h
    exact .read hr
  | reserve =>
    simp only [step] at h
    split at h
    · rename_i free
      obtain ⟨r, hr, rfl⟩ := Option.map_eq_some_iff.1 h
      exact .reserve free hr
    · cases h
  | submit =>
    simp only [step] at h
    split at h
    · rename_i job phase
      split at h
      · rename_i takes
        obtain ⟨r, hr, rfl⟩ := Option.map_eq_some_iff.1 h
        simp only [Reader.next, phase, Option.some.injEq] at hr
        subst hr
        exact .submit phase takes
      · cases h
    · cases h
  | refuse =>
    simp only [step] at h
    split at h
    · rename_i cookie error phase
      split at h
      · rename_i room
        obtain ⟨r, hr, rfl⟩ := Option.map_eq_some_iff.1 h
        simp only [Reader.next, phase, Option.some.injEq] at hr
        subst hr
        exact .refuse phase room
      · cases h
    · cases h
  | start i =>
    simp only [step] at h
    split at h
    · rename_i job found
      split at h
      · cases h
        exact .start found ‹_›
      · cases h
    · cases h
  | execute i result =>
    simp only [step] at h
    split at h
    · rename_i job found
      split at h
      · cases h
        exact .execute found ‹_›
      · cases h
    · cases h
  | complete i =>
    simp only [step] at h
    split at h
    · rename_i job result found
      split at h
      · cases h
        exact .complete found ‹_›
      · cases h
    · cases h
  | receive =>
    simp only [step] at h
    split at h
    · rename_i reply replies writer queue
      cases h
      exact .receive writer queue
    · cases h
  | write n =>
    simp only [step] at h
    split at h
    · rename_i bytes slot writer
      split at h
      · rename_i bound
        cases h
        exact .write writer bound.1 bound.2
      · cases h
    · cases h
  | written =>
    simp only [step] at h
    split at h
    · rename_i slot writer
      cases h
      exact .written writer
    · cases h
  | writerReturns =>
    simp only [step] at h
    split at h
    · rename_i writer queue
      split at h
      · cases h
      · rename_i senders
        cases h
        exact .writerReturns writer queue (by simpa using senders)
    · cases h
  | finish =>
    simp only [step] at h
    split at h
    · rename_i result phase writer
      cases h
      exact .drained phase writer
    · rename_i result phase
      cases h
      exact .dropped phase
    · cases h

end Conn

end NbdServer
