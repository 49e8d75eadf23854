import NbdServer.Connection.Client

/-!
# One reply for each request

A session is a list of valid requests followed by a header that the server refuses, all with
distinct cookies. This module follows a connection over such a session (`ConnInv`): the reader is in
step with the requests, every job that was replied to has its reply in the queue or on the socket,
and the queue slots are accounted for. When the connection ends, the socket carries one whole frame
for each request and one for the refused header. A connection always ends: a measure falls with
every step, and as long as it has not ended some step is possible.
-/

namespace NbdServer

open Lib TransmissionRequest

/-- The requests of a client, and the refused header behind them. -/
structure Session where
  requests : List TransmissionRequest
  bad : RequestHeader
  error : ProtocolError
  valid : ∀ r ∈ requests, r.Valid
  plain : ∀ r ∈ requests, r.isDisconnect = false
  refused : bad.payloadLen MAX_IO_BYTES = .error error
  distinct : ((requests.map header ++ [bad]).map (·.cookie)).Nodup

namespace Session

variable (x : Session)

def outstanding : List RequestHeader := x.requests.map header ++ [x.bad]

/-- The bytes that the client sends: the session, and anything behind it. -/
def input (rest : Buf) : Buf := x.requests.flatMap wire ++ (encodeRequestHeader x.bad ++ rest)

def refusal : ConnectionReply := ⟨x.bad.cookie, .simpleError NBD_EINVAL⟩

def refusals : ReaderPhase → List ConnectionReply
  | .exited _ => [x.refusal]
  | _ => []

/-- The reader of a session: it is in step with the requests, or it refuses the bad header. -/
inductive ReaderAt (rest : Buf) : Reader → Prop where
  | requests {r : Reader} (done todo : List TransmissionRequest) :
      x.requests = done ++ todo → r.submitted = done.filterMap job? →
      r.Expects todo (encodeRequestHeader x.bad ++ rest) →
      (∀ cookie e, r.phase ≠ .refusing cookie e) → (∀ e, r.phase ≠ .exited e) → ReaderAt rest r
  | refusing {r : Reader} : r.submitted = x.requests.filterMap job? →
      r.phase = .refusing x.bad.cookie (.protocol x.error) → ReaderAt rest r
  | exited {r : Reader} : r.submitted = x.requests.filterMap job? →
      r.phase = .exited (.drain (fail (.protocol x.error))) → ReaderAt rest r

end Session

def WriterPhase.rest : WriterPhase → Buf
  | .writing bytes _ => bytes
  | _ => []

def WriterPhase.slots : WriterPhase → Nat
  | .writing _ slot => slot.toNat
  | _ => 0

@[simp] lemma WriterPhase.rest_receiving : WriterPhase.receiving.rest = [] := rfl

@[simp] lemma WriterPhase.rest_writing (bytes : Buf) (slot : Bool) :
    (WriterPhase.writing bytes slot).rest = bytes := rfl

@[simp] lemma WriterPhase.slots_receiving : WriterPhase.receiving.slots = 0 := rfl

@[simp] lemma WriterPhase.slots_writing (bytes : Buf) (slot : Bool) :
    (WriterPhase.writing bytes slot).slots = slot.toNat := rfl

def ReaderPhase.slots : ReaderPhase → Nat
  | .payload _ _ _ | .submitting _ => 1
  | _ => 0

structure ConnInv (x : Session) (rest : Buf) (c : ConnConfig) (s : Conn) : Prop where
  reader : x.ReaderAt rest s.reader
  jobs : s.jobs.map (·.job) = s.reader.submitted
  fits : ∀ j ∈ s.jobs, ∀ result, (j.phase = .completing result ∨ j.phase = .replied result) →
    j.job.fits result = true
  replies : ∃ taken : List ConnectionReply, s.output ++ s.writer.rest = taken.flatMap (·.frame) ∧
    (taken ++ s.replies).Perm (s.jobs.filterMap (·.reply?) ++ x.refusals s.reader.phase)
  returned : s.writer = .returned → s.replies = [] ∧ s.senders = false
  slots : s.available + s.reader.phase.slots + s.jobs.countP (·.phase.running) +
    s.replies.countP (·.holdsSlot) + s.writer.slots = c.queueDepth
  ended : s.ended.isSome → s.writer = .returned

section Reader

variable {x : Session} {rest : Buf} {r r' : Reader}

lemma readHeader_refused (rest : Buf) (done : List ExportJob) {h : RequestHeader}
    {e : ProtocolError} (refused : h.payloadLen MAX_IO_BYTES = .error e) :
    Reader.readHeader ⟨encodeRequestHeader h ++ rest, .header, done⟩ =
      ⟨rest, .refusing h.cookie (.protocol e), done⟩ := by
  have len := length_encodeRequestHeader h
  have long : ¬ (encodeRequestHeader h ++ rest).length < REQUEST_HEADER_BYTES := by
    rw [List.length_append, len]
    omega
  rw [Reader.readHeader, if_neg long]
  simp only [List.take_left' len, List.drop_left' len, parseRequestHeader_eq_ok.2 rfl, refused]

lemma Session.ReaderAt.read (h : x.ReaderAt rest r) (step : r.next .read = some r') :
    x.ReaderAt rest r' ∧ r'.submitted = r.submitted ∧ (∀ e, r'.phase ≠ .exited e) ∧
      r'.phase.slots = r.phase.slots := by
  cases h with
  | refusing _ phase => simp [Reader.next, phase] at step
  | exited _ phase => simp [Reader.next, phase] at step
  | requests done todo eq taken expects _ _ =>
    have moves := Reader.Moves.of_next step
    cases moves with
    | @header unread jobs =>
      obtain rfl : unread = todo.flatMap wire ++ (encodeRequestHeader x.bad ++ rest) := expects
      cases todo with
      | nil =>
        have turn := readHeader_refused rest jobs x.refused
        rw [List.flatMap_nil, List.nil_append, turn]
        exact ⟨.refusing (by rw [eq, List.append_nil]; exact taken) rfl, rfl, by simp, rfl⟩
      | cons q todo =>
        have mem : q ∈ x.requests := eq ▸ by simp
        have disc := x.plain q mem
        have turn := readHeader_valid (todo.flatMap wire ++ (encodeRequestHeader x.bad ++ rest))
          jobs
          (x.valid q mem)
        rw [disc] at turn
        rw [List.flatMap_cons, List.append_assoc, turn]
        exact ⟨.requests _ _ eq taken ⟨q, todo, rfl, disc, rfl, rfl, rfl, rfl⟩ (by simp) (by simp),
          rfl, by simp, rfl⟩
    | payload =>
      obtain ⟨q, todo, rfl, disc, rfl, rfl, rfl, rfl⟩ := expects
      obtain ⟨job, hjob⟩ := job?_eq_some disc
      rw [readPayload_valid (x.valid q (eq ▸ by simp)) hjob]
      exact ⟨.requests _ _ eq taken ⟨q, todo, rfl, hjob, rfl⟩ (by simp) (by simp), rfl,
        by simp, rfl⟩

lemma Session.ReaderAt.reserve (h : x.ReaderAt rest r)
    (step : r.next (.reserved (.ok ())) = some r') :
    x.ReaderAt rest r' ∧ r'.submitted = r.submitted ∧ (∀ e, r'.phase ≠ .exited e) ∧
      r'.phase.slots = r.phase.slots + 1 := by
  cases h with
  | refusing _ phase => simp [Reader.next, phase] at step
  | exited _ phase => simp [Reader.next, phase] at step
  | requests done todo eq taken expects _ _ =>
    have moves := Reader.Moves.of_next step
    cases moves with
    | reserved => exact ⟨.requests _ _ eq taken expects (by simp) (by simp), rfl, by simp, rfl⟩

lemma Session.ReaderAt.submit {job : ExportJob} (h : x.ReaderAt rest r)
    (phase : r.phase = .submitting job) :
    x.ReaderAt rest ⟨r.unread, .header, r.submitted ++ [job]⟩ := by
  cases h with
  | refusing _ phase' => simp [phase] at phase'
  | exited _ phase' => simp [phase] at phase'
  | requests done todo eq taken expects _ _ =>
    unfold Reader.Expects at expects
    rw [phase] at expects
    obtain ⟨q, todo, rfl, hjob, unread⟩ := expects
    refine .requests (done ++ [q]) todo (by rw [eq]; simp) ?_ unread (by simp) (by simp)
    rw [List.filterMap_append, List.filterMap_cons_some hjob, taken]
    rfl

lemma Session.ReaderAt.refuse {cookie : NbdCookie} {error : ServerError} (h : x.ReaderAt rest r)
    (phase : r.phase = .refusing cookie error) :
    cookie = x.bad.cookie ∧ x.ReaderAt rest (r.exit (.drain (fail error))) := by
  cases h with
  | requests _ _ _ _ _ none _ => exact absurd phase (none _ _)
  | exited _ phase' => simp [phase] at phase'
  | refusing taken phase' =>
    rw [phase] at phase'
    cases phase'
    exact ⟨rfl, .exited taken rfl⟩

lemma Session.ReaderAt.of_exited {e : RequestReaderExit} (h : x.ReaderAt rest r)
    (phase : r.phase = .exited e) :
    r.submitted = x.requests.filterMap job? ∧ e = .drain (fail (.protocol x.error)) := by
  cases h with
  | requests _ _ _ _ _ _ none => exact absurd phase (none _)
  | refusing _ phase' => simp [phase] at phase'
  | exited taken phase' =>
    rw [phase] at phase'
    cases phase'
    exact ⟨taken, rfl⟩

end Reader

namespace ConnInv

variable {x : Session} {rest : Buf} {c : ConnConfig} {s s' : Conn} {event : ConnEvent}

lemma init (x : Session) (rest : Buf) (c : ConnConfig) :
    ConnInv x rest c (.new c (x.input rest)) where
  reader := .requests [] x.requests rfl rfl rfl (by simp [Conn.new, Reader.new])
    (by simp [Conn.new, Reader.new])
  jobs := rfl
  fits := by simp [Conn.new]
  replies := ⟨[], rfl, .refl _⟩
  returned h := nomatch h
  slots := by simp [Conn.new, Reader.new, ReaderPhase.slots, WriterPhase.slots]
  ended h := nomatch h

lemma exited_of_senders (h : s.senders = false) :
    (∃ e, s.reader.phase = .exited e) ∧ ∀ j ∈ s.jobs, j.phase.running = false := by
  unfold Conn.senders at h
  rw [Bool.or_eq_false_iff, List.any_eq_false] at h
  obtain ⟨phase, idle⟩ := h
  refine ⟨?_, fun j hj => by simpa using idle j hj⟩
  split at phase
  · exact ⟨_, ‹_›⟩
  · cases phase

lemma not_returned (inv : ConnInv x rest c s) (h : ∀ e, s.reader.phase ≠ .exited e) :
    s.writer ≠ .returned := by
  intro returned
  obtain ⟨⟨e, phase⟩, -⟩ := exited_of_senders (inv.returned returned).2
  exact h e phase

lemma refusals_eq_nil {phase : ReaderPhase} (h : ∀ e, phase ≠ .exited e) :
    x.refusals phase = [] := by
  cases phase with
  | exited e => exact absurd rfl (h e)
  | _ => rfl

lemma withReader (inv : ConnInv x rest c s) {r : Reader} {available : Nat}
    (reader : x.ReaderAt rest r) (same : r.submitted = s.reader.submitted)
    (before : ∀ e, s.reader.phase ≠ .exited e) (after : ∀ e, r.phase ≠ .exited e)
    (slots : available + r.phase.slots = s.available + s.reader.phase.slots) :
    ConnInv x rest c { s with reader := r, available := available } where
  reader := reader
  jobs := inv.jobs.trans same.symm
  fits := inv.fits
  replies := by
    obtain ⟨taken, out, perm⟩ := inv.replies
    rw [refusals_eq_nil before] at perm
    exact ⟨taken, out, by rw [refusals_eq_nil after]; exact perm⟩
  returned h := absurd h (inv.not_returned before)
  slots := by
    have := inv.slots
    dsimp only
    omega
  ended := inv.ended

lemma setPhase (inv : ConnInv x rest c s) {i : Nat} {job : ExportJob} {before after : RunPhase}
    (found : s.jobs[i]? = some ⟨job, before⟩) (was : before.running = true)
    (runs : after.running = true)
    (fits : ∀ result, after = .completing result → job.fits result = true) :
    ConnInv x rest c (s.setPhase i job after) where
  reader := inv.reader
  jobs := by
    have eq : (s.jobs.set i ⟨job, after⟩).map (·.job) = s.jobs.map (·.job) := by
      rw [List.map_set]
      exact set_self (by rw [List.getElem?_map, found]; rfl)
    exact eq.trans inv.jobs
  fits := by
    intro j hj result phase
    rcases List.mem_or_eq_of_mem_set hj with hj | rfl
    · exact inv.fits j hj result phase
    · rcases phase with phase | phase
      · exact fits result phase
      · cases (phase : after = .replied result)
        cases runs
  replies := by
    obtain ⟨taken, out, perm⟩ := inv.replies
    refine ⟨taken, out, perm.trans (List.Perm.append_right _ ?_)⟩
    have none (phase : RunPhase) (h : phase.running = true) : (RunningJob.mk job phase).reply? =
        none := by
      cases phase with
      | replied result => cases h
      | _ => rfl
    have moved := filterMap_set (f := RunningJob.reply?) found (none _ was) ⟨job, after⟩
    rw [none after runs] at moved
    exact moved.symm
  returned h := by
    obtain ⟨empty, senders⟩ := inv.returned h
    have idle := (exited_of_senders senders).2 _ (List.mem_of_getElem? found)
    rw [show before.running = false from idle] at was
    cases was
  slots := by
    have count := countP_set found ⟨job, after⟩ (fun j : RunningJob => j.phase.running)
    have total := inv.slots
    simp only [was, runs] at count
    simp only [Conn.setPhase]
    omega
  ended := inv.ended

lemma submit (inv : ConnInv x rest c s) {job : ExportJob}
    (phase : s.reader.phase = .submitting job) :
    ConnInv x rest c { s with
      reader := ⟨s.reader.unread, .header, s.reader.submitted ++ [job]⟩
      jobs := s.jobs ++ [⟨job, .queued⟩] } where
  reader := inv.reader.submit phase
  jobs := by
    rw [List.map_append, inv.jobs]
    rfl
  fits := by
    intro j hj result h
    rcases List.mem_append.1 hj with hj | hj
    · exact inv.fits j hj result h
    · rw [List.mem_singleton.1 hj] at h
      rcases h with h | h <;> cases h
  replies := by
    obtain ⟨taken, out, perm⟩ := inv.replies
    rw [phase] at perm
    refine ⟨taken, out, ?_⟩
    rw [List.filterMap_append]
    simpa [RunningJob.reply?, Session.refusals] using perm
  returned h := absurd h (inv.not_returned (by rw [phase]; simp))
  slots := by
    have total := inv.slots
    rw [phase] at total
    simp only [List.countP_append, List.countP_singleton, RunPhase.running, if_true,
      ReaderPhase.slots] at total ⊢
    omega
  ended := inv.ended

lemma refuse (inv : ConnInv x rest c s) {cookie : NbdCookie} {error : ServerError}
    (phase : s.reader.phase = .refusing cookie error) :
    ConnInv x rest c { s with
      reader := s.reader.exit (.drain (fail error))
      replies := s.replies ++ [⟨cookie, .simpleError NBD_EINVAL⟩] } := by
  obtain ⟨rfl, reader⟩ := inv.reader.refuse phase
  have running : ∀ e, s.reader.phase ≠ .exited e := by
    rw [phase]
    simp
  refine ⟨reader, inv.jobs, inv.fits, ?_, fun h => absurd h (inv.not_returned running), ?_,
    inv.ended⟩
  · obtain ⟨taken, out, perm⟩ := inv.replies
    rw [refusals_eq_nil running, List.append_nil] at perm
    refine ⟨taken, out, ?_⟩
    rw [← List.append_assoc]
    exact perm.append_right _
  · have total := inv.slots
    rw [phase] at total
    simp only [List.countP_append, List.countP_singleton, ConnectionReply.holdsSlot, Reader.exit,
      ReaderPhase.slots] at total ⊢
    simpa using total

lemma complete (inv : ConnInv x rest c s) {i : Nat} {job : ExportJob} {result : ExportResult}
    (found : s.jobs[i]? = some ⟨job, .completing result⟩) :
    ConnInv x rest c { s.setPhase i job (.replied result) with
      replies := s.replies ++ [⟨job.cookie, .exported job.kind result⟩] } where
  reader := inv.reader
  jobs := by
    have eq : (s.jobs.set i ⟨job, .replied result⟩).map (·.job) = s.jobs.map (·.job) := by
      rw [List.map_set]
      exact set_self (by rw [List.getElem?_map, found]; rfl)
    exact eq.trans inv.jobs
  fits := by
    intro j hj result' phase
    rcases List.mem_or_eq_of_mem_set hj with hj | rfl
    · exact inv.fits j hj result' phase
    · rcases phase with phase | phase
      · cases phase
      · cases phase
        exact inv.fits _ (List.mem_of_getElem? found) _ (.inl rfl)
  replies := by
    obtain ⟨taken, out, perm⟩ := inv.replies
    refine ⟨taken, out, ?_⟩
    have moved := filterMap_set (f := RunningJob.reply?) found rfl ⟨job, .replied result⟩
    -- the new reply moves from the end of the queue to the front of the replies of the jobs
    refine (List.append_assoc _ _ _ ▸ List.perm_append_singleton _ _).trans ?_
    exact (perm.cons _).trans (moved.symm.append_right _)
  returned h := by
    have idle := (exited_of_senders (inv.returned h).2).2 _ (List.mem_of_getElem? found)
    cases idle
  slots := by
    have count : (s.jobs.set i ⟨job, .replied result⟩).countP (·.phase.running) + 1 =
        s.jobs.countP (·.phase.running) + 0 := countP_set found _ _
    have one : [ConnectionReply.mk job.cookie (.exported job.kind result)].countP (·.holdsSlot) =
      1 := rfl
    have total := inv.slots
    rw [List.countP_append, one]
    simp only [Conn.setPhase]
    omega
  ended := inv.ended

lemma receive (inv : ConnInv x rest c s) {reply : ConnectionReply} {replies : List ConnectionReply}
    (writer : s.writer = .receiving) (queue : s.replies = reply :: replies)
    (running : s.ended = none) :
    ConnInv x rest c { s with
      replies := replies
      writer := .writing reply.frame reply.holdsSlot } where
  reader := inv.reader
  jobs := inv.jobs
  fits := inv.fits
  replies := by
    obtain ⟨taken, out, perm⟩ := inv.replies
    rw [writer, WriterPhase.rest_receiving, List.append_nil] at out
    rw [queue] at perm
    refine ⟨taken ++ [reply], ?_, ?_⟩
    · rw [List.flatMap_append, ← out]
      simp
    · rw [List.append_assoc]
      exact perm
  returned h := nomatch h
  slots := by
    have total := inv.slots
    have one : (if reply.holdsSlot = true then 1 else 0) = reply.holdsSlot.toNat := by
      cases reply.holdsSlot <;> rfl
    rw [writer, queue, List.countP_cons, one] at total
    simp only [WriterPhase.slots_receiving, WriterPhase.slots_writing] at total ⊢
    omega
  ended h := by
    rw [running] at h
    cases h

lemma writes (inv : ConnInv x rest c s) {writer : WriterPhase} {output : Buf} {available : Nat}
    (active : s.writer ≠ .returned) (active' : writer ≠ .returned)
    (out : output ++ writer.rest = s.output ++ s.writer.rest)
    (slots : available + writer.slots = s.available + s.writer.slots) :
    ConnInv x rest c { s with available := available, output := output, writer := writer } where
  reader := inv.reader
  jobs := inv.jobs
  fits := inv.fits
  replies := by
    obtain ⟨taken, written, perm⟩ := inv.replies
    exact ⟨taken, out.trans written, perm⟩
  returned h := absurd h active'
  slots := by
    have := inv.slots
    dsimp only
    omega
  ended h := absurd (inv.ended h) active

lemma step (inv : ConnInv x rest c s) (h : s.next c event = some s') : ConnInv x rest c s' := by
  obtain ⟨running, moves⟩ := Conn.Step.of_next h
  cases moves with
  | read next =>
    obtain ⟨reader, same, after, slots⟩ := inv.reader.read next
    refine inv.withReader reader same ?_ after (by rw [slots])
    intro e phase
    rw [Reader.next, phase] at next
    cases next
  | reserve free next =>
    obtain ⟨reader, same, after, slots⟩ := inv.reader.reserve next
    refine inv.withReader reader same ?_ after (by rw [slots]; omega)
    intro e phase
    simp [Reader.next, phase] at next
  | submit phase _ => exact inv.submit phase
  | refuse phase _ => exact inv.refuse phase
  | @start i job found _ =>
    have runs : (c.start job).running = true := by
      unfold ConnConfig.start
      split <;> rfl
    refine inv.setPhase found rfl runs fun result eq => ?_
    unfold ConnConfig.start at eq
    split at eq
    · cases eq
    · cases eq
      unfold ExportJob.fits
      split
      · rename_i eq
        cases eq
      · rfl
  | execute found fits =>
    refine inv.setPhase found rfl rfl fun result eq => ?_
    cases eq
    exact fits
  | complete found _ => exact inv.complete found
  | receive writer queue => exact inv.receive writer queue running
  | write writer _ _ =>
    refine inv.writes (by rw [writer]; simp) (by simp) ?_ (by rw [writer]; rfl)
    rw [writer, WriterPhase.rest_writing, WriterPhase.rest_writing, List.append_assoc,
      List.take_append_drop]
  | written writer =>
    refine inv.writes (by rw [writer]; simp) (by simp) (by rw [writer]; rfl) ?_
    rw [writer, WriterPhase.slots_receiving, WriterPhase.slots_writing]
    omega
  | writerReturns writer queue senders =>
    refine ⟨inv.reader, inv.jobs, inv.fits, ?_, fun _ => ⟨queue, senders⟩, ?_, fun _ => rfl⟩
    · have := inv.replies
      rwa [writer] at this
    · have := inv.slots
      rwa [writer] at this
  | drained _ writer =>
    exact ⟨inv.reader, inv.jobs, inv.fits, inv.replies, inv.returned, inv.slots, fun _ => writer⟩
  | dropped phase =>
    obtain ⟨-, eq⟩ := inv.reader.of_exited phase
    cases eq

lemma of_reachable (h : (connSystem c (x.input rest)).Reachable s) : ConnInv x rest c s := by
  refine System.invariant _ (P := ConnInv x rest c) ?_ ?_ h
  · rintro s rfl
    exact init x rest c
  · exact fun inv next => inv.step next

end ConnInv

section Progress

variable {x : Session} {rest : Buf} {c : ConnConfig} {s s' : Conn} {event : ConnEvent}

lemma Conn.next_eq (running : s.ended = none) (event : ConnEvent) :
    s.next c event = s.step c event := by
  rw [Conn.next, running]
  rfl

lemma ConnConfig.mayStart_first {earlier : List RunningJob}
    (h : ∀ j ∈ earlier, j.phase.running = false) (job : ExportJob) :
    c.mayStart earlier job = true := by
  unfold ConnConfig.mayStart
  cases c.kind with
  | serial => exact List.all_eq_true.2 fun j hj => by rw [h j hj]; rfl
  | concurrent =>
    refine List.all_eq_true.2 fun j hj => ?_
    have idle : j.phase.registered = false := by
      have := h j hj
      cases phase : j.phase with
      | replied result => rfl
      | _ =>
        rw [phase] at this
        cases this
    rw [idle]
    rfl

lemma Conn.writer_goes_on (running : s.ended = none)
    (h : (∃ bytes slot, s.writer = .writing bytes slot) ∨ s.writer = .receiving ∧ s.replies ≠ []) :
    ∃ event s', s.next c event = some s' := by
  rcases h with ⟨bytes, slot, writer⟩ | ⟨writer, queue⟩
  · cases bytes with
    | nil => exact ⟨.written, _, by rw [next_eq running, step, writer]⟩
    | cons b bytes =>
      have bound : 0 < 1 ∧ 1 ≤ (b :: bytes).length := ⟨by decide, by simp⟩
      refine ⟨.write 1, { s with output := s.output ++ [b], writer := .writing bytes slot }, ?_⟩
      rw [next_eq running, step, writer]
      simp
  · obtain ⟨reply, replies, eq⟩ := List.exists_cons_of_ne_nil queue
    exact ⟨.receive, _, by rw [next_eq running, step, writer, eq]⟩

lemma Conn.job_goes_on (running : s.ended = none) (room : s.replies.length < c.replyCapacity)
    (h : ∃ j ∈ s.jobs, j.phase.running = true) : ∃ event s', s.next c event = some s' := by
  obtain ⟨i, ⟨job, phase⟩, found, runs, before⟩ := exists_first h
  cases phase with
  | queued =>
    have may := ConnConfig.mayStart_first (c := c) before job
    exact ⟨.start i, _, by simp only [next_eq running, step, found, may, if_true]; rfl⟩
  | executing =>
    -- an execution that fails
    have fits : job.fits (fail (.runtimeClosed "engine")) = true := by
      unfold ExportJob.fits
      split
      · rename_i eq
        cases eq
      · rfl
    exact ⟨.execute i (fail (.runtimeClosed "engine")), _, by
      simp only [next_eq running, step, found, fits, if_true]; rfl⟩
  | completing result =>
    exact ⟨.complete i, _, by simp only [next_eq running, step, found, if_pos room]; rfl⟩
  | replied result => cases runs

lemma ConnInv.busy (inv : ConnInv x rest c s) (running : s.ended = none) (cap : 0 < c.replyCapacity)
    (h : 0 < s.jobs.countP (·.phase.running) + s.replies.length + s.writer.slots) :
    ∃ event s', s.next c event = some s' := by
  cases writer : s.writer with
  | writing bytes slot => exact Conn.writer_goes_on running (.inl ⟨bytes, slot, writer⟩)
  | receiving =>
    by_cases queue : s.replies = []
    · rw [writer, queue] at h
      refine Conn.job_goes_on running (by rw [queue]; exact cap) ?_
      exact List.countP_pos_iff.1 (by simpa using h)
    · exact Conn.writer_goes_on running (.inr ⟨writer, queue⟩)
  | returned =>
    obtain ⟨queue, senders⟩ := inv.returned writer
    have idle := (ConnInv.exited_of_senders senders).2
    have none : s.jobs.countP (·.phase.running) = 0 :=
      List.countP_eq_zero.2 fun j hj => by rw [idle j hj]; simp
    rw [none, queue, writer] at h
    exact absurd h (by decide)

lemma ConnInv.progress (inv : ConnInv x rest c s) (depth : 0 < c.queueDepth)
    (cap : 0 < c.replyCapacity) (running : s.ended = none) :
    ∃ event s', s.next c event = some s' := by
  have total := inv.slots
  cases phase : s.reader.phase with
  | header =>
    exact ⟨.read, _, by
      simp only [Conn.next_eq running, Conn.step, Conn.withReader, Reader.next, phase]; rfl⟩
  | payload bytes header n =>
    exact ⟨.read, _, by
      simp only [Conn.next_eq running, Conn.step, Conn.withReader, Reader.next, phase]; rfl⟩
  | reserving bytes header n =>
    by_cases free : 0 < s.available
    · exact ⟨.reserve, _, by
        simp only [Conn.next_eq running, Conn.step, if_pos free, Conn.withReader, Reader.next,
          phase]
        rfl⟩
    · -- all slots are with jobs, with queued replies or with the writer
      refine inv.busy running cap ?_
      have held := List.countP_le_length (p := (·.holdsSlot)) (l := s.replies)
      rw [phase, show (ReaderPhase.reserving bytes header n).slots = 0 from rfl] at total
      omega
  | submitting job =>
    have takes : c.takes s.jobs = true := by
      unfold ConnConfig.takes
      split
      · have le : s.jobs.countP (·.phase.isQueued) ≤ s.jobs.countP (·.phase.running) := by
          refine List.countP_mono_left fun j _ queued => ?_
          cases eq : j.phase with
          | queued => rfl
          | _ =>
            rw [eq] at queued
            cases queued
        rw [phase, show (ReaderPhase.submitting job).slots = 1 from rfl] at total
        exact decide_eq_true (by omega)
      · rfl
    exact ⟨.submit, _, by
      simp only [Conn.next_eq running, Conn.step, phase, takes, if_true, Conn.withReader,
        Reader.next]
      rfl⟩
  | refusing cookie error =>
    by_cases room : s.replies.length < c.replyCapacity
    · exact ⟨.refuse, _, by
        simp only [Conn.next_eq running, Conn.step, phase, if_pos room, Conn.withReader,
          Reader.next]
        rfl⟩
    · exact inv.busy running cap (by omega)
  | exited e =>
    by_cases work : 0 < s.jobs.countP (·.phase.running) + s.replies.length + s.writer.slots
    · exact inv.busy running cap work
    · have idle : s.jobs.any (·.phase.running) = false := by
        rw [List.any_eq_false]
        have none : s.jobs.countP (·.phase.running) = 0 := by omega
        exact fun j hj => List.countP_eq_zero.1 none j hj
      have queue : s.replies = [] := List.length_eq_zero_iff.1 (by omega)
      obtain ⟨-, rfl⟩ := inv.reader.of_exited phase
      cases writer : s.writer with
      | writing bytes slot => exact Conn.writer_goes_on running (.inl ⟨bytes, slot, writer⟩)
      | receiving =>
        have senders : s.senders = false := by
          rw [Conn.senders, phase, idle]
          rfl
        exact ⟨.writerReturns, { s with writer := .returned }, by
          simp [Conn.next_eq running, Conn.step, writer, queue, senders]⟩
      | returned => exact ⟨.finish, _, by rw [Conn.next_eq running, Conn.step, phase, writer]; rfl⟩

end Progress

section Measure

variable {x : Session} {rest : Buf} {c : ConnConfig} {s s' : Conn} {event : ConnEvent}

def replyBound : Nat := 2 ^ 32 + 20

/-- The steps that a reply in the queue has still to take. -/
def ConnectionReply.cost (r : ConnectionReply) : Nat := r.frame.length + 3

/-- A bound on the steps that a job and its reply have still to take. -/
def RunPhase.cost : RunPhase → Nat
  | .queued => replyBound + 3
  | .executing => replyBound + 2
  | .completing _ => replyBound + 1
  | .replied _ => 0

/-- A bound on the steps of a reader that has read its header, with those of the job it submits. -/
def ReaderPhase.cost : ReaderPhase → Nat
  | .header => 1
  | .reserving _ _ _ => replyBound + 8
  | .payload _ _ _ => replyBound + 7
  | .submitting _ => replyBound + 6
  | .refusing _ _ => 25
  | .exited _ => 0

def WriterPhase.cost : WriterPhase → Nat
  | .receiving => 1
  | .writing bytes _ => bytes.length + 2
  | .returned => 0

/-- A bound on the steps of the reader: each unread byte pays for the job of the request it is
in. -/
def Reader.cost (r : Reader) : Nat := (replyBound + 40) * r.unread.length + r.phase.cost

/-- A bound on the steps that a connection has still to take. -/
def Conn.cost (s : Conn) : Nat :=
  s.reader.cost + (s.jobs.map (·.phase.cost)).sum + (s.replies.map (·.cost)).sum + s.writer.cost +
    if s.ended.isSome then 0 else 1

lemma cost_reply {job : ExportJob} {result : ExportResult} (h : job.fits result = true)
    (kind : job.kind = .read → ∃ offset len, job.request = .read offset len) :
    (ConnectionReply.mk job.cookie (.exported job.kind result)).cost ≤ replyBound := by
  have small : SIMPLE_REPLY_BYTES + 3 ≤ replyBound := by decide
  unfold ConnectionReply.cost
  rw [ConnectionReply.frame_eq, List.length_append, length_encodeSimpleReply]
  unfold ConnectionReply.data
  split
  · rename_i data eq
    obtain ⟨isRead, rfl⟩ := (ConnectionReplyPayload.exported.injEq ..).mp eq
    obtain ⟨offset, len, request⟩ := kind isRead
    unfold ExportJob.fits at h
    rw [request] at h
    have lt := len.toNat_lt
    have eq : data.length = len.toNat := of_decide_eq_true h
    unfold SIMPLE_REPLY_BYTES replyBound
    omega
  · simpa using small

lemma cost_readHeader (unread : Buf) (done : List ExportJob) :
    (Reader.readHeader ⟨unread, .header, done⟩).cost < Reader.cost ⟨unread, .header, done⟩ := by
  unfold Reader.readHeader
  dsimp only
  split
  · simp only [Reader.cost, ReaderPhase.cost, List.length_nil]
    omega
  · rename_i long
    have fewer : (unread.drop REQUEST_HEADER_BYTES).length + 28 = unread.length := by
      rw [List.length_drop]
      unfold REQUEST_HEADER_BYTES at long ⊢
      omega
    have paid : (replyBound + 40) * unread.length =
        (replyBound + 40) * (unread.drop REQUEST_HEADER_BYTES).length + (replyBound + 40) * 28 := by
      rw [← fewer, Nat.mul_add]
    split
    · simp only [Reader.exit, Reader.cost, ReaderPhase.cost]
      omega
    · split
      · simp only [Reader.cost, ReaderPhase.cost]
        omega
      · split
        · simp only [Reader.exit, Reader.cost, ReaderPhase.cost]
          omega
        · simp only [Reader.cost, ReaderPhase.cost]
          omega

lemma cost_readPayload (unread bytes : Buf) (header : RequestHeader) (n : Nat)
    (done : List ExportJob) :
    (Reader.readPayload ⟨unread, .payload bytes header n, done⟩ bytes header n).cost <
      Reader.cost ⟨unread, .payload bytes header n, done⟩ := by
  have fewer : (replyBound + 40) * (unread.drop n).length ≤ (replyBound + 40) * unread.length :=
    Nat.mul_le_mul_left _ (by rw [List.length_drop]; omega)
  have big : 25 < replyBound := by decide
  unfold Reader.readPayload
  dsimp only
  split
  · simp only [Reader.cost, ReaderPhase.cost, List.length_nil]
    omega
  · split
    · simp only [Reader.cost, ReaderPhase.cost]
      omega
    · split
      · simp only [Reader.cost, ReaderPhase.cost]
        omega
      · simp only [Reader.exit, Reader.cost, ReaderPhase.cost]
        omega

lemma ConnInv.kind_read (inv : ConnInv x rest c s) {j : RunningJob} (hj : j ∈ s.jobs) :
    j.job.kind = .read → ∃ offset len, j.job.request = .read offset len := by
  have mem : j.job ∈ s.reader.submitted := inv.jobs ▸ List.mem_map_of_mem hj
  have from_request : ∃ q : TransmissionRequest, q.job? = some j.job := by
    cases inv.reader with
    | requests _ _ _ taken _ _ _ =>
      obtain ⟨q, -, hq⟩ := List.mem_filterMap.1 (taken ▸ mem)
      exact ⟨q, hq⟩
    | refusing taken _ =>
      obtain ⟨q, -, hq⟩ := List.mem_filterMap.1 (taken ▸ mem)
      exact ⟨q, hq⟩
    | exited taken _ =>
      obtain ⟨q, -, hq⟩ := List.mem_filterMap.1 (taken ▸ mem)
      exact ⟨q, hq⟩
  obtain ⟨q, hq⟩ := from_request
  generalize j.job = job at hq
  intro kind
  cases q with
  | read cookie offset length =>
    cases hq
    exact ⟨offset, length, rfl⟩
  | disconnect cookie => cases hq
  | write cookie offset data =>
    cases hq
    cases kind
  | flush cookie =>
    cases hq
    cases kind

lemma ConnInv.cost_lt (inv : ConnInv x rest c s) (h : s.next c event = some s') :
    s'.cost < s.cost := by
  obtain ⟨running, moves⟩ := Conn.Step.of_next h
  cases moves with
  | @read r next =>
    suffices lt : r.cost < s.reader.cost by
      unfold Conn.cost
      dsimp only
      omega
    have moves := Reader.Moves.of_next next
    generalize s.reader = before at moves
    cases moves with
    | header => exact cost_readHeader _ _
    | payload => exact cost_readPayload _ _ _ _ _
  | @reserve r _ next =>
    suffices lt : r.cost < s.reader.cost by
      unfold Conn.cost
      dsimp only
      omega
    have moves := Reader.Moves.of_next next
    generalize s.reader = before at moves
    cases moves with
    | reserved =>
      simp only [Reader.cost, ReaderPhase.cost]
      omega
  | submit phase _ =>
    simp only [Conn.cost, Reader.cost, phase, ReaderPhase.cost, List.map_append, List.sum_append,
      List.map_cons, List.map_nil, List.sum_cons, List.sum_nil, RunPhase.cost]
    omega
  | @refuse cookie _ phase _ =>
    have frame : (ConnectionReply.mk cookie (.simpleError NBD_EINVAL)).cost = 19 := by
      rw [ConnectionReply.cost, ConnectionReply.frame, length_encodeSimpleReply]
      rfl
    simp only [Conn.cost, Reader.exit, Reader.cost, phase, ReaderPhase.cost, List.map_append,
      List.sum_append, List.map_cons, List.map_nil, List.sum_cons, List.sum_nil, frame]
    omega
  | @start i job found _ =>
    have sum : ((s.jobs.set i ⟨job, c.start job⟩).map (·.phase.cost)).sum + RunPhase.queued.cost =
        (s.jobs.map (·.phase.cost)).sum + (c.start job).cost := sum_set found _ _
    have started : (c.start job).cost < RunPhase.queued.cost := by
      unfold ConnConfig.start
      split <;> simp [RunPhase.cost]
    simp only [Conn.cost, Conn.setPhase, running, Option.isSome_none, Bool.false_eq_true, if_false]
    omega
  | @execute i job result found _ =>
    have sum : ((s.jobs.set i ⟨job, .completing result⟩).map (·.phase.cost)).sum +
      (replyBound + 2) =
        (s.jobs.map (·.phase.cost)).sum + (replyBound + 1) := sum_set found _ _
    simp only [Conn.cost, Conn.setPhase, running, Option.isSome_none, Bool.false_eq_true, if_false]
    omega
  | @complete i job result found _ =>
    have sum : ((s.jobs.set i ⟨job, .replied result⟩).map (·.phase.cost)).sum + (replyBound + 1) =
        (s.jobs.map (·.phase.cost)).sum + 0 := sum_set found _ _
    have mem := List.mem_of_getElem? found
    have bound : (ConnectionReply.mk job.cookie (.exported job.kind result)).cost ≤ replyBound :=
      cost_reply (inv.fits _ mem result (.inl rfl)) (inv.kind_read mem)
    simp only [Conn.cost, Conn.setPhase, List.map_append, List.sum_append, List.map_cons,
      List.map_nil, List.sum_cons, List.sum_nil, running, Option.isSome_none, Bool.false_eq_true,
        if_false]
    omega
  | receive writer queue =>
    simp only [Conn.cost, writer, queue, WriterPhase.cost, List.map_cons, List.sum_cons,
      ConnectionReply.cost]
    omega
  | write writer pos le =>
    simp only [Conn.cost, writer, WriterPhase.cost, List.length_drop]
    omega
  | written writer =>
    simp only [Conn.cost, writer, WriterPhase.cost, List.length_nil]
    omega
  | writerReturns writer _ _ =>
    simp only [Conn.cost, writer, WriterPhase.cost]
    omega
  | drained _ _ => simp [Conn.cost, running]
  | dropped _ => simp [Conn.cost, running]

lemma ConnInv.length_le (inv : ConnInv x rest c s) {events : List ConnEvent}
    (run : events.foldlM (Conn.next c) s = some s') : events.length ≤ s.cost := by
  induction events generalizing s with
  | nil => exact Nat.zero_le _
  | cons event events ih =>
    simp only [List.foldlM_cons, Option.bind_eq_bind, Option.bind_eq_some_iff] at run
    obtain ⟨t, first, run⟩ := run
    have lt := inv.cost_lt first
    have le := ih (inv.step first) run
    rw [List.length_cons]
    omega

end Measure

/-- The socket carries one whole frame for each request of the session: a client that looks the
cookies up among its outstanding requests finds one answer for each of them, a successful read with
its number of bytes, the answer that the runtime gave to each job, and an error for the refused
header. -/
def Session.Answered (x : Session) (s : Conn) : Prop :=
  ∃ answers : List ClientReply, s.output = answers.flatMap (·.frame) ∧
    clientReplies x.outstanding s.output = some answers ∧
    (answers.map (·.header)).Perm x.outstanding ∧
    (∀ a ∈ answers, a.error = 0 → a.header.command = NBD_CMD_READ →
      a.data.length = a.header.length.toNat) ∧
    (∀ q ∈ x.requests, ∃ j ∈ s.jobs, ∃ reply, q.job? = some j.job ∧ j.reply? = some reply ∧
      ⟨q.header, reply.code, reply.data⟩ ∈ answers) ∧
    ⟨x.bad, NBD_EINVAL, []⟩ ∈ answers

section Answers

variable {x : Session} {rest : Buf} {c : ConnConfig} {s : Conn}

def Session.headerFor (x : Session) (cookie : NbdCookie) : RequestHeader :=
  (x.outstanding.find? (·.cookie = cookie)).getD x.bad

def Session.answer (x : Session) (reply : ConnectionReply) : ClientReply :=
  ⟨x.headerFor reply.cookie, reply.code, reply.data⟩

lemma Session.headerFor_eq {h : RequestHeader} (mem : h ∈ x.outstanding) :
    x.headerFor h.cookie = h := by
  have found := find?_cookie (show (x.outstanding.map (·.cookie)).Nodup from x.distinct) mem
  rw [headerFor, found]
  rfl

lemma cookie_job {q : TransmissionRequest} {job : ExportJob} (h : q.job? = some job) :
    job.cookie = q.header.cookie := by
  cases q with
  | disconnect cookie => cases h
  | _ =>
    cases h
    rfl

lemma fits_reply {q : TransmissionRequest} {job : ExportJob} {result : ExportResult}
    (h : q.job? = some job) (fits : job.fits result = true) :
    let reply : ConnectionReply := ⟨job.cookie, .exported job.kind result⟩
    reply.data.length = q.header.dataLen reply.code := by
  cases q with
  | disconnect cookie => cases h
  | read cookie offset length =>
    cases h
    rcases result with e | (data | _)
    · rfl
    · exact of_decide_eq_true fits
    · rfl
  | write cookie offset data =>
    cases h
    rcases result with e | (data | _) <;> rfl
  | flush cookie =>
    cases h
    rcases result with e | (data | _) <;> rfl

lemma replies_answer {jobs : List RunningJob} {requests : List TransmissionRequest}
    (same : jobs.map (·.job) = requests.filterMap job?)
    (plain : ∀ q ∈ requests, q.isDisconnect = false)
    (mem : ∀ q ∈ requests, q.header ∈ x.outstanding)
    (replied : ∀ j ∈ jobs, ∃ result, j.phase = .replied result ∧ j.job.fits result = true) :
    ((jobs.filterMap (·.reply?)).map x.answer).map (·.header) = requests.map header ∧
    (∀ r ∈ jobs.filterMap (·.reply?), (x.headerFor r.cookie).cookie = r.cookie) ∧
    (∀ a ∈ (jobs.filterMap (·.reply?)).map x.answer, a.data.length = a.header.dataLen a.error) ∧
    ∀ q ∈ requests, ∃ j ∈ jobs, ∃ reply, q.job? = some j.job ∧ j.reply? = some reply ∧
      reply ∈ jobs.filterMap (·.reply?) ∧ x.answer reply = ⟨q.header, reply.code, reply.data⟩ := by
  induction requests generalizing jobs with
  | nil =>
    rw [List.filterMap_nil, List.map_eq_nil_iff] at same
    rw [same]
    simp
  | cons q requests ih =>
    obtain ⟨first, plain⟩ := List.forall_mem_cons.1 plain
    obtain ⟨memq, mem⟩ := List.forall_mem_cons.1 mem
    obtain ⟨job, hjob⟩ := job?_eq_some first
    rw [List.filterMap_cons_some hjob] at same
    cases jobs with
    | nil => cases same
    | cons j jobs =>
      obtain ⟨rfl, tail⟩ := List.cons_eq_cons.1 same
      obtain ⟨⟨result, phase, fits⟩, replied⟩ := List.forall_mem_cons.1 replied
      obtain ⟨headers, known, lengths, all⟩ := ih tail plain mem replied
      have reply : j.reply? = some ⟨j.job.cookie, .exported j.job.kind result⟩ := by
        rw [RunningJob.reply?, phase]
      have found : x.headerFor j.job.cookie = q.header := by
        rw [cookie_job hjob, Session.headerFor_eq memq]
      have answers : (j :: jobs).filterMap (·.reply?) =
          ⟨j.job.cookie, .exported j.job.kind result⟩ :: jobs.filterMap (·.reply?) :=
        List.filterMap_cons_some reply
      rw [answers, List.map_cons, List.map_cons, List.map_cons, headers]
      refine ⟨?_, List.forall_mem_cons.2 ⟨?_, known⟩, List.forall_mem_cons.2 ⟨?_, lengths⟩,
        List.forall_mem_cons.2 ⟨?_, ?_⟩⟩
      · exact congrArg (· :: _) found
      · rw [found, cookie_job hjob]
      · simp only [Session.answer, found]
        exact fits_reply hjob fits
      · refine ⟨j, List.mem_cons_self, _, hjob, reply, List.mem_cons_self, ?_⟩
        rw [Session.answer, found]
      · intro q' hq'
        obtain ⟨j', hj', reply', h₁, h₂, h₃, h₄⟩ := all q' hq'
        exact ⟨j', List.mem_cons_of_mem _ hj', reply', h₁, h₂, List.mem_cons_of_mem _ h₃, h₄⟩

lemma flatMap_answer (replies : List ConnectionReply)
    (known : ∀ r ∈ replies, (x.headerFor r.cookie).cookie = r.cookie) :
    replies.flatMap (·.frame) = (replies.map x.answer).flatMap (·.frame) := by
  rw [List.flatMap_map]
  refine List.flatMap_congr fun r hr => ?_
  rw [ConnectionReply.frame_eq, ClientReply.frame, Session.answer, known r hr]

lemma ConnInv.answered (inv : ConnInv x rest c s) (ended : s.ended.isSome) : x.Answered s := by
  have writer := inv.ended ended
  obtain ⟨queue, senders⟩ := inv.returned writer
  obtain ⟨⟨e, phase⟩, idle⟩ := exited_of_senders senders
  have submitted := (inv.reader.of_exited phase).1
  obtain ⟨taken, out, perm⟩ := inv.replies
  rw [queue, List.append_nil, phase] at perm
  rw [writer, show WriterPhase.returned.rest = [] from rfl, List.append_nil] at out
  have replied : ∀ j ∈ s.jobs, ∃ result, j.phase = .replied result ∧ j.job.fits result = true := by
    intro j hj
    cases eq : j.phase with
    | replied result => exact ⟨result, rfl, inv.fits j hj result (.inr eq)⟩
    | _ =>
      have := idle j hj
      rw [eq] at this
      cases this
  obtain ⟨headers, known, lengths, all⟩ := replies_answer (x := x) (inv.jobs.trans submitted)
    x.plain
    (fun q hq => List.mem_append_left _ (List.mem_map_of_mem hq)) replied
  have bad : x.headerFor x.bad.cookie = x.bad :=
    Session.headerFor_eq (by simp [Session.outstanding])
  have refusal : x.answer x.refusal = ⟨x.bad, NBD_EINVAL, []⟩ := by
    show ClientReply.mk (x.headerFor x.bad.cookie) _ _ = _
    rw [bad]
    rfl
  have mem {r : ConnectionReply} (hr : r ∈ taken) :
      r ∈ s.jobs.filterMap (·.reply?) ∨ r = x.refusal := by
    rcases List.mem_append.1 (perm.subset hr) with hr | hr
    · exact .inl hr
    · exact .inr (List.mem_singleton.1 hr)
  have frames : s.output = (taken.map x.answer).flatMap (·.frame) := by
    rw [out]
    refine flatMap_answer taken fun r hr => ?_
    rcases mem hr with hr | rfl
    · exact known r hr
    · exact congrArg (·.cookie) bad
  have once : ((taken.map x.answer).map (·.header)).Perm x.outstanding := by
    refine ((perm.map x.answer).map (·.header)).trans ?_
    rw [List.map_append, List.map_append, headers]
    show (_ ++ [x.headerFor x.bad.cookie]).Perm _
    rw [bad]
    exact .refl _
  have fits : ∀ a ∈ taken.map x.answer, a.data.length = a.header.dataLen a.error := by
    intro a ha
    obtain ⟨r, hr, rfl⟩ := List.mem_map.1 ha
    rcases mem hr with hr | rfl
    · exact lengths _ (List.mem_map_of_mem hr)
    · rw [refusal]
      rfl
  refine ⟨taken.map x.answer, frames, ?_, once, ?_, ?_, ?_⟩
  · rw [frames]
    exact clientReplies_frames x.distinct once fits
  · intro a ha ok read
    rw [fits a ha, RequestHeader.dataLen, if_pos ⟨ok, read⟩]
  · intro q hq
    obtain ⟨j, hj, reply, job, replied, sent, answer⟩ := all q hq
    refine ⟨j, hj, reply, job, replied, List.mem_map.2 ⟨reply, ?_, answer⟩⟩
    exact perm.mem_iff.2 (List.mem_append_left _ sent)
  · exact List.mem_map.2 ⟨x.refusal, perm.mem_iff.2 (List.mem_append_right _ List.mem_cons_self),
      refusal⟩

end Answers

/-- A connection answers every request of a session exactly once, and always ends: its runs are
bounded, and one that cannot go on has ended. -/
theorem connection_answers_once (x : Session) (rest : Buf) (c : ConnConfig)
    (depth : 0 < c.queueDepth) (capacity : 0 < c.replyCapacity) :
    (∀ s, (connSystem c (x.input rest)).Reachable s → s.ended.isSome → x.Answered s) ∧
    (∀ s, (connSystem c (x.input rest)).Reachable s → s.ended = none →
      ∃ event s', s.next c event = some s') ∧
    ∃ bound, ∀ (events : List ConnEvent) (s : Conn),
      events.foldlM (Conn.next c) (.new c (x.input rest)) = some s → events.length ≤ bound := by
  refine ⟨fun s h => (ConnInv.of_reachable h).answered, fun s h running => ?_,
    (Conn.new c (x.input rest)).cost, fun events s run => ?_⟩
  · exact (ConnInv.of_reachable h).progress depth capacity running
  · exact (ConnInv.init x rest c).length_le run

/-- Two reads, and a read of no bytes, which the server refuses. -/
def twoReads : Session where
  requests := [.read 1 0 2, .read 2 4 1]
  bad := ⟨0, NBD_CMD_READ, 3, 0, 0⟩
  error := .invalidRequest "NBD_CMD_READ" "zero length is unsupported"
  valid := by
    intro r hr
    fin_cases hr <;> rfl
  plain := by decide
  refused := rfl
  distinct := by decide

/-- A concurrent runtime with two queue slots, and room for one reply. -/
def narrow : ConnConfig where
  kind := .concurrent
  queueDepth := 2
  replyCapacity := 1
  sizeBytes := 16
  operationFor
    | .read offset len => .ok (.read (.new offset.toNat len.toNat))
    | .write offset data => .ok (.write (.new offset.toNat data.length))
    | .flush => .ok .flush

/-- The second read is answered first, with an error; the refusal of the bad header is sent between
the two. -/
def outOfOrder : List ConnEvent :=
  [.read, .reserve, .read, .submit, .read, .reserve, .read, .submit, .read, .start 0, .start 1,
    .execute 1 (fail (.runtimeClosed "engine")), .complete 1, .receive, .refuse, .write 10,
      .write 6,
    .written, .execute 0 (.ok (.read [7, 8])), .receive, .complete 0, .write 16, .written, .receive,
    .write 18, .written, .writerReturns, .finish]

def answeredConn : Conn :=
  (outOfOrder.foldlM (Conn.next narrow) (.new narrow (twoReads.input []))).getD (.new narrow [])

/-- The run ends with the three answers on the socket. -/
theorem connection_answers_once_out_of_order : answeredConn.ended.isSome ∧
    twoReads.Answered answeredConn ∧
    (clientReplies twoReads.outstanding answeredConn.output).map
      (·.map fun a => (a.header.cookie, a.error, a.data)) =
      some [(2, NBD_EINVAL, []), (3, NBD_EINVAL, []), (1, 0, [7, 8])] := by
  have ended : answeredConn.ended.isSome = true := by decide +kernel
  have run : outOfOrder.foldlM (Conn.next narrow) (.new narrow (twoReads.input [])) =
      some answeredConn := by
    have played : (outOfOrder.foldlM (Conn.next narrow) (.new narrow (twoReads.input []))).isSome =
        true := by
      decide +kernel
    obtain ⟨s, hs⟩ := Option.isSome_iff_exists.1 played
    rw [answeredConn, hs]
    rfl
  have reachable : (connSystem narrow (twoReads.input [])).Reachable answeredConn :=
    System.Reachable.foldlM (fun h => h) (.init rfl) run
  have answered := connection_answers_once twoReads [] narrow (by decide) (by decide)
  exact ⟨ended, answered.1 _ reachable ended, by decide +kernel⟩

end NbdServer
