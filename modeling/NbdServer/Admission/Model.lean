import NbdServer.Core.Range
import NbdServer.Lib.System

/-!
# Export admission

Model of `export/admission.rs`: the admission queue of one export and the clients that use it.

`AdmissionState` is the state behind the mutex of `AdmissionInner`. Around it `World` keeps what the
clients hold: one `Slot` for each ticket, with the receiving half of its oneshot grant channel, the
permit that travels through it and how far its `AdmissionWaiter` is. The receiving half is dropped
without taking the mutex, so it may close while `promote_with_inner` runs, also between its check
`is_closed` and its `send`; `World.lock` is therefore the program counter of the task inside the
mutex, and each turn of the promotion loop is cut where the outcome depends on the channel.

A waiter that was never awaited is dropped by `cancel` first and its receiver second; one dropped
inside `wait` loses its receiver first (the awaited value is dropped before `self`) and cancels
second. A permit found in a dropped receiver is dropped by that task, which then waits for the
mutex: it counts as held until its `release` runs.
-/

namespace NbdServer.Admission

/-- Rust `AdmissionOp`. -/
inductive AdmissionOp where
  | read (range : ByteRange)
  | write (range : ByteRange)
  | flush
  deriving DecidableEq

/-- Rust `AdmissionOp::conflicts`. -/
def AdmissionOp.conflicts : AdmissionOp → AdmissionOp → Bool
  | .flush, _ => true
  | _, .flush => true
  | .read _, .read _ => false
  | .read left, .write right => left.overlaps right
  | .write left, .read right => left.overlaps right
  | .write left, .write right => left.overlaps right

lemma AdmissionOp.conflicts_comm (a b : AdmissionOp) : a.conflicts b = b.conflicts a := by
  cases a <;> cases b <;> first | rfl | exact ByteRange.overlaps_comm _ _

/-- Rust `WaitingAdmission`; its grant sender is the channel of the ticket's slot. -/
structure WaitingAdmission where
  ticket : Nat
  op : AdmissionOp
  deriving DecidableEq

/-- Rust `ActiveAdmission`. -/
structure ActiveAdmission where
  ticket : Nat
  op : AdmissionOp
  deriving DecidableEq

/-- Rust `AdmissionState`. The ticket counter is a `u64` in Rust; it is assumed not to wrap
around. -/
structure AdmissionState where
  extentBytes : Nat
  nextTicket : Nat
  waiting : List WaitingAdmission
  active : List ActiveAdmission
  deriving DecidableEq

namespace AdmissionState

/-- Rust `AdmissionInner::new`. -/
def new (extentBytes : Nat) : AdmissionState :=
  { extentBytes, nextTicket := 0, waiting := [], active := [] }

/-- The range check of `AdmissionState::validate` for one kind of operation. -/
def validateRange (s : AdmissionState) (operation : String) (range : ByteRange) : Res Unit := do
  let error := .outOfBounds operation range.start range.len s.extentBytes
  let stop ← okOr range.checkedEnd error
  if stop > s.extentBytes then fail error else .ok ()

/-- Rust `AdmissionState::validate`. -/
def validate (s : AdmissionState) : AdmissionOp → Res Unit
  | .read range => s.validateRange "read" range
  | .write range => s.validateRange "write" range
  | .flush => .ok ()

lemma validateRange_error {extentBytes start len : Nat} {operation : String} {fault : Fault}
    (extent : extentBytes < U64) (hs : start < U64) (hl : len < U32)
    (h : (new extentBytes).validateRange operation (.new start len) = .error fault) :
    ¬ start + len ≤ extentBytes ∧ fault = .err (.outOfBounds operation start len extentBytes) := by
  simp only [validateRange, ByteRange.checkedEnd, ByteRange.new_start hs, ByteRange.new_len hl,
    AdmissionState.new] at h
  by_cases fits : start + len < U64
  · rw [checkedAdd_of_lt fits, okOr_some, Res.ok_bind] at h
    split_ifs at h with outside
    · cases h
      exact ⟨by omega, rfl⟩
  · rw [checkedAdd, if_neg fits] at h
    cases h
    exact ⟨by omega, rfl⟩

lemma validate_congr {s : AdmissionState} (s' : AdmissionState)
    (h : s.extentBytes = s'.extentBytes) (op : AdmissionOp) :
    s.validate op = s'.validate op := by
  cases op <;> simp only [validate, validateRange, h]

/-- The queue update of `ExportAdmissionCtl::register`: take the next ticket and wait at the
back. -/
def enqueue (s : AdmissionState) (op : AdmissionOp) : AdmissionState :=
  { s with
    nextTicket := s.nextTicket + 1
    waiting := s.waiting ++ [{ ticket := s.nextTicket, op }] }

/-- The queue update of `AdmissionInner::cancel`. -/
def cancel (s : AdmissionState) (ticket : Nat) : AdmissionState :=
  { s with waiting := s.waiting.filter (·.ticket ≠ ticket) }

/-- The queue update of `AdmissionInner::release`. -/
def release (s : AdmissionState) (ticket : Nat) : AdmissionState :=
  { s with active := s.active.filter (·.ticket ≠ ticket) }

/-- Rust `is_admissible`, for the waiter `w` at `index`. -/
def isAdmissible (s : AdmissionState) (index : Nat) (w : WaitingAdmission) : Bool :=
  let conflictsActive := s.active.any (·.op.conflicts w.op)
  let conflictsEarlierWaiter := (s.waiting.take index).any (·.op.conflicts w.op)
  !conflictsActive && !conflictsEarlierWaiter

end AdmissionState

/-- Where the task inside the mutex is in `promote_with_inner`: at the loop head, or after
`is_closed` answered no for the waiter it has just removed from the queue. -/
inductive PromotePc where
  | scan (index : Nat)
  | send (index : Nat) (w : WaitingAdmission)
  deriving DecidableEq

/-- The permit of a ticket: not granted, in the grant channel, with a client (or being dropped by
one), or released. -/
inductive PermitState where
  | absent
  | sent
  | held
  | released
  deriving DecidableEq

/-- How far the `AdmissionWaiter` of a ticket is: not awaited yet, inside `wait`, dropped with
`cancel` done but its receiver alive, dropped with its receiver gone but `cancel` to come, or
gone. -/
inductive WaiterPhase where
  | idle
  | awaiting
  | cancelled
  | receiverDropped
  | gone
  deriving DecidableEq

structure Slot where
  op : AdmissionOp
  receiverOpen : Bool
  permit : PermitState
  phase : WaiterPhase
  deriving DecidableEq

def Slot.new (op : AdmissionOp) : Slot :=
  { op, receiverOpen := true, permit := .absent, phase := .idle }

def Slot.Live (x : Slot) : Prop := x.permit = .sent ∨ x.permit = .held

instance (x : Slot) : Decidable x.Live := inferInstanceAs (Decidable (_ ∨ _))

def Slot.Waiter (x : Slot) : Prop := x.phase = .idle ∨ x.phase = .awaiting

/-- The operation still waits: its waiter was not dropped and no permit was sent to it. -/
def Slot.Waits (x : Slot) : Prop := x.Waiter ∧ x.permit = .absent

/-- The admission controller of one export with its clients. `slots` is indexed by ticket. -/
structure World where
  state : AdmissionState
  lock : Option PromotePc
  slots : List Slot
  deriving DecidableEq

inductive Event where
  | register (op : AdmissionOp)
  | startWait (ticket : Nat)
  | receive (ticket : Nat)
  | cancelIdle (ticket : Nat)
  | dropReceiver (ticket : Nat)
  | cancelClosed (ticket : Nat)
  | dropPermit (ticket : Nat)
  | promote
  deriving DecidableEq

namespace World

/-- A fresh controller (Rust `ExportAdmissionCtl::new`). -/
def new (extentBytes : Nat) : World :=
  { state := .new extentBytes, lock := none, slots := [] }

/-- Rust `oneshot::Sender::is_closed` of a ticket's grant channel. -/
def isClosed (w : World) (ticket : Nat) : Bool :=
  match w.slots[ticket]? with
  | some x => !x.receiverOpen
  | none => true

def updateSlot (w : World) (ticket : Nat) (f : Slot → Slot) : World :=
  { w with slots := w.slots.modify ticket f }

/-- Enter `promote_with_inner` with the given state. The lock stays held. -/
def promoteFrom (w : World) (state : AdmissionState) : World :=
  { w with state, lock := some (.scan 0) }

/-- One turn of the loop of `promote_with_inner`. -/
def promoteStep (w : World) : PromotePc → World
  | .scan index =>
    match w.state.waiting[index]? with
    | none => { w with lock := none }
    | some x =>
      if w.state.isAdmissible index x then
        let state := { w.state with waiting := w.state.waiting.eraseIdx index }
        if w.isClosed x.ticket then
          { w with state, lock := some (.scan index) }
        else
          { w with state, lock := some (.send index x) }
      else
        { w with lock := some (.scan (index + 1)) }
  | .send index x =>
    let state := { w.state with active := w.state.active ++ [{ ticket := x.ticket, op := x.op }] }
    if w.isClosed x.ticket then
      -- `send` gave the permit back: it is disarmed and the operation leaves the active list again
      { w with state := state.release x.ticket, lock := some (.scan index) }
    else
      { w with state, lock := some (.scan index) }.updateSlot x.ticket
        ({ · with permit := .sent })

/-- The effect of an event, `none` where it cannot happen. Events that need the mutex wait for
it. -/
def next (w : World) : Event → Option World
  | .register op =>
    if w.lock.isSome then none
    else
      match w.state.validate op with
      | .error _ => some w
      | .ok () =>
        some ({ w with slots := w.slots ++ [Slot.new op] }.promoteFrom (w.state.enqueue op))
  | .startWait t => do
    let x ← w.slots[t]?
    if x.phase = .idle then some (w.updateSlot t ({ · with phase := .awaiting })) else none
  | .receive t => do
    let x ← w.slots[t]?
    if x.phase = .awaiting ∧ x.permit = .sent then
      some (w.updateSlot t ({ · with permit := .held, receiverOpen := false, phase := .gone }))
    else none
  | .cancelIdle t => do
    let x ← w.slots[t]?
    if w.lock = none ∧ x.phase = .idle then
      some ((w.updateSlot t ({ · with phase := .cancelled })).promoteFrom (w.state.cancel t))
    else none
  | .dropReceiver t => do
    let x ← w.slots[t]?
    let permit := if x.permit = .sent then .held else x.permit
    match x.phase with
    | .cancelled =>
      some (w.updateSlot t ({ · with receiverOpen := false, permit, phase := .gone }))
    | .awaiting =>
      some (w.updateSlot t ({ · with receiverOpen := false, permit, phase := .receiverDropped }))
    | _ => none
  | .cancelClosed t => do
    let x ← w.slots[t]?
    if w.lock = none ∧ x.phase = .receiverDropped then
      some ((w.updateSlot t ({ · with phase := .gone })).promoteFrom (w.state.cancel t))
    else none
  | .dropPermit t => do
    let x ← w.slots[t]?
    if w.lock = none ∧ x.permit = .held then
      some ((w.updateSlot t ({ · with permit := .released })).promoteFrom (w.state.release t))
    else none
  | .promote => w.lock.map w.promoteStep

end World

/-- The runs of the admission controller of an export of `extentBytes` bytes. -/
def system (extentBytes : Nat) : Lib.System World Event where
  init w := w = .new extentBytes
  step w e w' := w.next e = some w'

end NbdServer.Admission
