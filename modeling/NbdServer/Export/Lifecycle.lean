import NbdServer.Core.Error
import NbdServer.Lib.Trace

/-!
# The lifecycle of a runtime

Model of `SerialRuntimeLifecycle` and `ConcurrentRuntimeLifecycle` in `export/runtime.rs` with the
functions `reserve`, `submit` and `close` of the two runtimes around them, and `RuntimeEngineClose`.
Every call is a task of its own; its steps are cut at the mutex, at the awaits and at the atomic
operations of the semaphore, the notification and the once cell. The two runtimes differ in how a
job is handed over and executed only: the serial one sends it through a bounded channel to its
worker, the concurrent one spawns a task for it.

`Notify` counts the calls of `notify_waiters`: a `Notified` future remembers the count at its
creation and is ready once the count has changed, also if it was not polled before.
-/

namespace NbdServer.Lifecycle

open Lib

/-- The two implementations of `ExportRuntime`. -/
inductive RuntimeKind where
  | serial
  | concurrent
  deriving DecidableEq

/-- Rust `ServerError::RuntimeClosed` of a runtime. -/
def RuntimeKind.closedError : RuntimeKind → ServerError
  | serial => .runtimeClosed "serial export runtime"
  | concurrent => .runtimeClosed "concurrent export runtime"

/-- How far a call of `reserve` is. -/
inductive ReservePhase where
  | called
  | acquiring
  | acquired
  | returned (result : Res Unit)

/-- How far a job is: its `submit` was called, `begin_submit` has counted it, it was handed over, it
is executed, its completion was called and its queue slot is free, `finish_job` was called; or it
was refused. -/
inductive JobPhase where
  | called
  | counted
  | queued
  | executing
  | completed
  | finished
  | refused
  deriving DecidableEq

/-- A job with the answer of its `submit`. -/
structure Job where
  phase : JobPhase
  returned : Option (Res Unit)

/-- How far a call of `close` is: `lifecycle.close` has marked the runtime, the queue depth is
closed and it is at the head of the loop of `wait_empty`, it has created its `Notified`, it awaits
it, `wait_empty` has returned, it runs `engine.close`, it has returned. -/
inductive ClosePhase where
  | called
  | marked
  | waiting
  | created (seen : Nat)
  | awaiting (seen : Nat)
  | empty
  | initializing
  | returned (result : Res Unit)

/-- The once cell of `RuntimeEngineClose`. -/
inductive EngineClose where
  | idle
  | running
  | done (result : Res Unit)

structure World where
  closed : Bool
  activeJobs : Nat
  notifications : Nat
  /-- The free permits of the `queue_depth` semaphore, and whether it is closed. -/
  available : Nat
  depthClosed : Bool
  /-- The queue slots that callers hold outside of a job. -/
  slots : Nat
  channel : List Nat
  engine : EngineClose
  /-- The number of calls of `engine.close`. -/
  engineCloses : Nat
  reserves : List ReservePhase
  jobs : List Job
  closes : List ClosePhase

inductive Event where
  | reserve
  | reserveStep (call : Nat)
  | dropSlot
  | submit
  | submitStep (job : Nat)
  | submitReturn (job : Nat)
  | execute (job : Nat)
  | complete (job : Nat)
  | finish (job : Nat)
  | close
  | closeStep (call : Nat)
  | engineClosed (call : Nat) (result : Res Unit)

/-- The job is counted in `active_jobs`. -/
def JobPhase.active : JobPhase → Bool
  | .counted | .queued | .executing | .completed => true
  | _ => false

def JobPhase.holds : JobPhase → Bool
  | .called | .counted | .queued | .executing => true
  | _ => false

def JobPhase.accepted : JobPhase → Bool
  | .queued | .executing | .completed | .finished => true
  | _ => false

def JobPhase.worked : JobPhase → Bool
  | .executing | .completed => true
  | _ => false

namespace World

def new (capacity : Nat) : World where
  closed := false
  activeJobs := 0
  notifications := 0
  available := capacity
  depthClosed := false
  slots := 0
  channel := []
  engine := .idle
  engineCloses := 0
  reserves := []
  jobs := []
  closes := []

def setJob (w : World) (j : Nat) (job : Job) (phase : JobPhase) : World :=
  { w with jobs := w.jobs.set j { job with phase } }

/-- Another phase of a call of `reserve`. -/
def setReserve (w : World) (i : Nat) (phase : ReservePhase) : World :=
  { w with reserves := w.reserves.set i phase }

/-- Another phase of a call of `close`. -/
def setClose (w : World) (i : Nat) (phase : ClosePhase) : World :=
  { w with closes := w.closes.set i phase }

/-- `notify_waiters`, if no job is active. -/
def notifyEmpty (w : World) : World :=
  if w.activeJobs = 0 then { w with notifications := w.notifications + 1 } else w

/-- A step of `reserve`: `ensure_open`, `acquire_owned`, `ensure_open`. -/
def reserveStep (kind : RuntimeKind) (w : World) (i : Nat) : ReservePhase → Option World
  | .called =>
    if w.closed then some (w.setReserve i (.returned (fail kind.closedError)))
    else some (w.setReserve i .acquiring)
  | .acquiring =>
    if w.depthClosed then some (w.setReserve i (.returned (fail kind.closedError)))
    else if 0 < w.available then some { w.setReserve i .acquired with available := w.available - 1 }
    else none
  | .acquired =>
    if w.closed then
      some { w.setReserve i (.returned (fail kind.closedError)) with available := w.available + 1 }
    else some { w.setReserve i (.returned (.ok ())) with slots := w.slots + 1 }
  | .returned _ => none

/-- A step of `submit`: `begin_submit`, and the hand over. A refused job is dropped with its
slot. -/
def submitStep (kind : RuntimeKind) (capacity : Nat) (w : World) (j : Nat) (job : Job) :
    Option World :=
  match job.phase with
  | .called =>
    if w.closed then some { w.setJob j job .refused with available := w.available + 1 }
    else some { w.setJob j job .counted with activeJobs := w.activeJobs + 1 }
  | .counted =>
    match kind with
    | .serial =>
      if w.channel.length < capacity then
        some { w.setJob j job .queued with channel := w.channel ++ [j] }
      else none
    | .concurrent => some (w.setJob j job .queued)
  | _ => none

/-- The return of `submit`. -/
def submitReturn (kind : RuntimeKind) (w : World) (j : Nat) (job : Job) : Option World :=
  if job.returned.isSome then none
  else if job.phase.accepted then some { w with jobs := w.jobs.set j ⟨job.phase, some (.ok ())⟩ }
  else if job.phase = .refused then
    some { w with jobs := w.jobs.set j ⟨job.phase, some (fail kind.closedError)⟩ }
  else none

/-- A job begins to execute: when its task starts, or when the worker takes it from the channel. -/
def execute (kind : RuntimeKind) (w : World) (j : Nat) (job : Job) : Option World :=
  if job.phase = .queued then
    match kind with
    | .serial =>
      match w.channel with
      | first :: rest =>
        if first = j ∧ w.jobs.all (!·.phase.worked) then
          some { w.setJob j job .executing with channel := rest }
        else none
      | [] => none
    | .concurrent => some (w.setJob j job .executing)
  else none

/-- Rust `finish_job`, which panics if no job is counted. -/
def finish (w : World) (j : Nat) (job : Job) : Option World :=
  if job.phase = .completed then do
    let activeJobs ← checkedSub w.activeJobs 1
    some { w.setJob j job .finished with activeJobs }.notifyEmpty
  else none

/-- A step of `close`: `lifecycle.close`, `queue_depth.close`, the loop of `wait_empty`, and the
once cell. -/
def closeStep (w : World) (i : Nat) : ClosePhase → Option World
  | .called => some ({ w with closed := true }.notifyEmpty.setClose i .marked)
  | .marked => some ({ w with depthClosed := true }.setClose i .waiting)
  | .waiting => some (w.setClose i (.created w.notifications))
  | .created seen => some (w.setClose i (if w.activeJobs = 0 then .empty else .awaiting seen))
  | .awaiting seen => if w.notifications ≠ seen then some (w.setClose i .waiting) else none
  | .empty =>
    match w.engine with
    | .idle =>
      some ({ w with engine := .running, engineCloses := w.engineCloses + 1 }.setClose i
        .initializing)
    | .running => none
    | .done result => some (w.setClose i (.returned result))
  | .initializing => none
  | .returned _ => none

/-- The effect of an event, `none` where it cannot happen. -/
def next (kind : RuntimeKind) (capacity : Nat) (w : World) : Event → Option World
  | .reserve => some { w with reserves := w.reserves ++ [.called] }
  | .reserveStep i => do w.reserveStep kind i (← w.reserves[i]?)
  | .dropSlot =>
    if 0 < w.slots then some { w with slots := w.slots - 1, available := w.available + 1 } else none
  | .submit =>
    if 0 < w.slots then
      some { w with slots := w.slots - 1, jobs := w.jobs ++ [⟨.called, none⟩] } else none
  | .submitStep j => do w.submitStep kind capacity j (← w.jobs[j]?)
  | .submitReturn j => do w.submitReturn kind j (← w.jobs[j]?)
  | .execute j => do w.execute kind j (← w.jobs[j]?)
  | .complete j => do
    let job ← w.jobs[j]?
    if job.phase = .executing then
      some { w.setJob j job .completed with available := w.available + 1 }
    else none
  | .finish j => do w.finish j (← w.jobs[j]?)
  | .close => some { w with closes := w.closes ++ [.called] }
  | .closeStep i => do w.closeStep i (← w.closes[i]?)
  | .engineClosed i result => do
    match ← w.closes[i]? with
    | .initializing => some ({ w with engine := .done result }.setClose i (.returned result))
    | _ => none

end World

def system (kind : RuntimeKind) (capacity : Nat) : System World Event where
  init w := w = .new capacity
  step w e w' := w.next kind capacity e = some w'

/-- The call of `reserve` holds a permit. -/
def ReservePhase.holds : ReservePhase → Bool
  | .acquired => true
  | _ => false

inductive Step (kind : RuntimeKind) (capacity : Nat) (w : World) : Event → World → Prop where
  | reserved : Step kind capacity w .reserve { w with reserves := w.reserves ++ [.called] }
  | reserving {i x y available slots} : w.reserves[i]? = some x →
      available + slots + y.holds.toNat = w.available + w.slots + x.holds.toNat →
      Step kind capacity w (.reserveStep i) { w.setReserve i y with available, slots }
  | slotDropped {slots} : w.slots = slots + 1 →
      Step kind capacity w .dropSlot { w with slots, available := w.available + 1 }
  | submitted {slots} : w.slots = slots + 1 →
      Step kind capacity w .submit { w with slots, jobs := w.jobs ++ [⟨.called, none⟩] }
  | refused {j job} : w.jobs[j]? = some job → job.phase = .called → w.closed = true →
      Step kind capacity w (.submitStep j)
        { w.setJob j job .refused with available := w.available + 1 }
  | counted {j job} : w.jobs[j]? = some job → job.phase = .called → w.closed = false →
      Step kind capacity w (.submitStep j)
        { w.setJob j job .counted with activeJobs := w.activeJobs + 1 }
  | sent {j job} : kind = .serial → w.jobs[j]? = some job → job.phase = .counted →
      Step kind capacity w (.submitStep j) { w.setJob j job .queued with
        channel := w.channel ++ [j] }
  | spawned {j job} : kind = .concurrent → w.jobs[j]? = some job → job.phase = .counted →
      Step kind capacity w (.submitStep j) (w.setJob j job .queued)
  | answered {j job result} : w.jobs[j]? = some job → job.returned = none →
      (result = .ok () → job.phase.accepted = true) →
      Step kind capacity w (.submitReturn j)
        { w with jobs := w.jobs.set j ⟨job.phase, some result⟩ }
  | received {j job rest} : kind = .serial → w.jobs[j]? = some job → job.phase = .queued →
      w.channel = j :: rest →
      Step kind capacity w (.execute j) { w.setJob j job .executing with channel := rest }
  | started {j job} : kind = .concurrent → w.jobs[j]? = some job → job.phase = .queued →
      Step kind capacity w (.execute j) (w.setJob j job .executing)
  | completed {j job} : w.jobs[j]? = some job → job.phase = .executing →
      Step kind capacity w (.complete j)
        { w.setJob j job .completed with available := w.available + 1 }
  | finished {j job activeJobs} : w.jobs[j]? = some job → job.phase = .completed →
      w.activeJobs = activeJobs + 1 →
      Step kind capacity w (.finish j) { w.setJob j job .finished with activeJobs }.notifyEmpty
  | closeCalled : Step kind capacity w .close { w with closes := w.closes ++ [.called] }
  | marked {i} : w.closes[i]? = some .called →
      Step kind capacity w (.closeStep i) ({ w with closed := true }.notifyEmpty.setClose i .marked)
  | depthClosed {i} : w.closes[i]? = some .marked →
      Step kind capacity w (.closeStep i) ({ w with depthClosed := true }.setClose i .waiting)
  | created {i} : w.closes[i]? = some .waiting →
      Step kind capacity w (.closeStep i) (w.setClose i (.created w.notifications))
  | emptied {i seen} : w.closes[i]? = some (.created seen) → w.activeJobs = 0 →
      Step kind capacity w (.closeStep i) (w.setClose i .empty)
  | awaits {i seen} : w.closes[i]? = some (.created seen) → w.activeJobs ≠ 0 →
      Step kind capacity w (.closeStep i) (w.setClose i (.awaiting seen))
  | woken {i seen} : w.closes[i]? = some (.awaiting seen) → w.notifications ≠ seen →
      Step kind capacity w (.closeStep i) (w.setClose i .waiting)
  | initializes {i} : w.closes[i]? = some .empty → w.engine = .idle →
      Step kind capacity w (.closeStep i)
        ({ w with engine := .running, engineCloses := w.engineCloses + 1 }.setClose i .initializing)
  | joined {i result} : w.closes[i]? = some .empty → w.engine = .done result →
      Step kind capacity w (.closeStep i) (w.setClose i (.returned result))
  | engineClosed {i result} : w.closes[i]? = some .initializing →
      Step kind capacity w (.engineClosed i result)
        ({ w with engine := .done result }.setClose i (.returned result))

variable {kind : RuntimeKind} {capacity : Nat} {w w' : World} {e : Event}

lemma Step.of_reserveStep {i : Nat} {x : ReservePhase} (hx : w.reserves[i]? = some x)
    (h : w.reserveStep kind i x = some w') : Step kind capacity w (.reserveStep i) w' := by
  cases x with
  | called =>
    simp only [World.reserveStep] at h
    split_ifs at h
    · cases h
      exact .reserving hx rfl
    · cases h
      exact .reserving hx rfl
  | acquiring =>
    simp only [World.reserveStep] at h
    split_ifs at h with closed free
    · cases h
      exact .reserving hx rfl
    · cases h
      refine .reserving hx ?_
      simp only [World.setReserve, ReservePhase.holds, Bool.toNat_true, Bool.toNat_false]
      omega
  | acquired =>
    simp only [World.reserveStep] at h
    split_ifs at h
    · cases h
      refine .reserving hx ?_
      simp only [World.setReserve, ReservePhase.holds, Bool.toNat_true, Bool.toNat_false]
      omega
    · cases h
      refine .reserving hx ?_
      simp only [World.setReserve, ReservePhase.holds, Bool.toNat_true, Bool.toNat_false]
      omega
  | returned result => cases h

lemma Step.of_submitStep {j : Nat} {job : Job} (hj : w.jobs[j]? = some job)
    (h : w.submitStep kind capacity j job = some w') : Step kind capacity w (.submitStep j) w' := by
  cases phase : job.phase with
  | called =>
    simp only [World.submitStep, phase] at h
    split_ifs at h with closed
    · cases h
      exact .refused hj phase closed
    · cases h
      exact .counted hj phase (Bool.eq_false_iff.2 closed)
  | counted =>
    simp only [World.submitStep, phase] at h
    cases kind with
    | serial =>
      simp only [Option.ite_none_right_eq_some, Option.some.injEq] at h
      obtain ⟨-, rfl⟩ := h
      exact .sent rfl hj phase
    | concurrent =>
      cases h
      exact .spawned rfl hj phase
  | _ => simp [World.submitStep, phase] at h

lemma Step.of_execute {j : Nat} {job : Job} (hj : w.jobs[j]? = some job)
    (h : w.execute kind j job = some w') : Step kind capacity w (.execute j) w' := by
  simp only [World.execute, Option.ite_none_right_eq_some] at h
  obtain ⟨phase, h⟩ := h
  cases kind with
  | serial =>
    simp only at h
    split at h
    · simp only [Option.ite_none_right_eq_some, Option.some.injEq] at h
      obtain ⟨⟨rfl, -⟩, rfl⟩ := h
      exact .received rfl hj phase ‹_›
    · cases h
  | concurrent =>
    cases h
    exact .started rfl hj phase

lemma Step.of_closeStep {i : Nat} {x : ClosePhase} (hx : w.closes[i]? = some x)
    (h : w.closeStep i x = some w') : Step kind capacity w (.closeStep i) w' := by
  cases x with
  | called =>
    cases h
    exact .marked hx
  | marked =>
    cases h
    exact .depthClosed hx
  | waiting =>
    cases h
    exact .created hx
  | created seen =>
    cases h
    split_ifs with none
    · exact .emptied hx none
    · exact .awaits hx none
  | awaiting seen =>
    simp only [World.closeStep, Option.ite_none_right_eq_some, Option.some.injEq] at h
    obtain ⟨changed, rfl⟩ := h
    exact .woken hx changed
  | empty =>
    simp only [World.closeStep] at h
    cases engine : w.engine with
    | idle =>
      rw [engine] at h
      cases h
      exact .initializes hx engine
    | running => simp [engine] at h
    | done result =>
      rw [engine] at h
      cases h
      exact .joined hx engine
  | initializing => cases h
  | returned result => cases h

lemma Step.of_next (h : w.next kind capacity e = some w') : Step kind capacity w e w' := by
  cases e with
  | reserve =>
    cases h
    exact .reserved
  | reserveStep i =>
    obtain ⟨x, hx, h⟩ := Option.bind_eq_some_iff.1 h
    exact .of_reserveStep hx h
  | dropSlot =>
    simp only [World.next, Option.ite_none_right_eq_some, Option.some.injEq] at h
    obtain ⟨some, rfl⟩ := h
    exact .slotDropped (by omega)
  | submit =>
    simp only [World.next, Option.ite_none_right_eq_some, Option.some.injEq] at h
    obtain ⟨some, rfl⟩ := h
    exact .submitted (by omega)
  | submitStep j =>
    obtain ⟨job, hj, h⟩ := Option.bind_eq_some_iff.1 h
    exact .of_submitStep hj h
  | submitReturn j =>
    obtain ⟨job, hj, h⟩ := Option.bind_eq_some_iff.1 h
    simp only [World.submitReturn] at h
    split_ifs at h with answered accepted refused
    · cases h
      exact .answered hj (by simpa using answered) fun _ => accepted
    · cases h
      exact .answered hj (by simpa using answered) (by simp [fail])
  | execute j =>
    obtain ⟨job, hj, h⟩ := Option.bind_eq_some_iff.1 h
    exact .of_execute hj h
  | complete j =>
    obtain ⟨job, hj, h⟩ := Option.bind_eq_some_iff.1 h
    simp only [Option.ite_none_right_eq_some, Option.some.injEq] at h
    obtain ⟨phase, rfl⟩ := h
    exact .completed hj phase
  | finish j =>
    obtain ⟨job, hj, h⟩ := Option.bind_eq_some_iff.1 h
    simp only [World.finish, Option.ite_none_right_eq_some] at h
    obtain ⟨phase, h⟩ := h
    obtain ⟨n, sub, h⟩ := Option.bind_eq_some_iff.1 h
    cases h
    simp only [checkedSub, Option.ite_none_right_eq_some, Option.some.injEq] at sub
    exact .finished hj phase (by omega)
  | close =>
    cases h
    exact .closeCalled
  | closeStep i =>
    obtain ⟨x, hx, h⟩ := Option.bind_eq_some_iff.1 h
    exact .of_closeStep hx h
  | engineClosed i result =>
    obtain ⟨x, hx, h⟩ := Option.bind_eq_some_iff.1 h
    split at h
    · cases h
      exact .engineClosed hx
    · cases h

end NbdServer.Lifecycle
