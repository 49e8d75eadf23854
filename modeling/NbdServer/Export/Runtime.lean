import NbdServer.Admission.Liveness
import NbdServer.Export.Request

/-!
# The concurrent export runtime

Model of `ConcurrentExportRuntime` in `export/runtime.rs`: `submit` registers its request for
admission in the order of the calls and spawns a task, which waits for the grant, lets the engine
execute the request under the permit and completes it. A request whose operation is refused is
completed with the error. The reservation of queue slots and the closing of the runtime are modelled
elsewhere; here every submission is accepted.

`Tracks` relates the jobs to the slots of the admission controller. Its consequences are what the
engines rely on: requests that conflict are executed one after the other, in the order of their
submission (`Tracks.earlier_completed`, `Tracks.exclusive`), and the runtime does not get stuck
(`Tracks.completed_of_stuck`).
-/

namespace NbdServer

open Admission Lib

variable {σ L : Type}

inductive JobPhase (L : Type) where
  | rejected (fault : Fault)
  | waiting (ticket : Nat)
  | executing (ticket : Nat) (task : L)
  | completed (ticket : Nat) (result : ExportResult)

structure Job (L : Type) where
  request : ExportRequest
  phase : JobPhase L

/-- The admission ticket of a job that was not refused. -/
def Job.ticket (job : Job L) : Option Nat :=
  match job.phase with
  | .rejected _ => none
  | .waiting t => some t
  | .executing t _ => some t
  | .completed t _ => some t

def Job.result (job : Job L) : Option ExportResult :=
  match job.phase with
  | .rejected fault => some (.error fault)
  | .completed _ result => some result
  | _ => none

/-- A runtime with the state of its engine. The jobs are in the order of their submission. -/
structure Runtime (σ L : Type) where
  admission : World
  jobs : List (Job L)
  store : σ

inductive RuntimeEvent where
  | submit (request : ExportRequest)
  | promote
  | wait (job : Nat)
  | begin (job : Nat)
  | work (job : Nat)
  | finish (job : Nat)
  | background

namespace Runtime

def setPhase (w : Runtime σ L) (j : Nat) (job : Job L) (phase : JobPhase L) : Runtime σ L :=
  { w with jobs := w.jobs.set j { job with phase } }

/-- The steps of the runtime. `submit` is Rust `ConcurrentExportRuntime::submit` with
`prepare_admitted_job`, the others are `execute_registered_job`; the permit is dropped with the
admitted request, at the end of `execute_admitted`. -/
inductive Step (E : Engine σ L) (w : Runtime σ L) : RuntimeEvent → Runtime σ L → Prop where
  | refused {request fault} : E.operationFor request = .error fault →
      Step E w (.submit request) { w with jobs := w.jobs ++ [⟨request, .rejected fault⟩] }
  | invalid {request op fault} : E.operationFor request = .ok op → w.admission.lock = none →
      w.admission.state.validate op = .error fault →
      Step E w (.submit request) { w with jobs := w.jobs ++ [⟨request, .rejected fault⟩] }
  | registered {request op a} : E.operationFor request = .ok op →
      w.admission.state.validate op = .ok () → w.admission.next (.register op) = some a →
      Step E w (.submit request)
        { w with
          admission := a
          jobs := w.jobs ++ [⟨request, .waiting w.admission.state.nextTicket⟩] }
  | promote {a} : w.admission.next .promote = some a → Step E w .promote { w with admission := a }
  | wait {j job t a} : w.jobs[j]? = some job → job.phase = .waiting t →
      w.admission.next (.startWait t) = some a → Step E w (.wait j) { w with admission := a }
  | begin {j job t a} : w.jobs[j]? = some job → job.phase = .waiting t →
      w.admission.next (.receive t) = some a →
      Step E w (.begin j)
        (setPhase { w with admission := a } j job (.executing t (E.start job.request)))
  | work {j job t l l' s} : w.jobs[j]? = some job → job.phase = .executing t l →
      E.result l = none → E.step l w.store l' s →
      Step E w (.work j) (setPhase { w with store := s } j job (.executing t l'))
  | finish {j job t l r a} : w.jobs[j]? = some job → job.phase = .executing t l →
      E.result l = some r → w.admission.next (.dropPermit t) = some a →
      Step E w (.finish j) (setPhase { w with admission := a } j job (.completed t r))
  | background {s} : E.background w.store s → Step E w .background { w with store := s }

/-- The steps of a runtime whose engine runs by a function, `none` where the event cannot happen. -/
def next (E : Engine σ L) (run : L → σ → L × σ) (w : Runtime σ L) :
    RuntimeEvent → Option (Runtime σ L)
  | .submit request =>
    match E.operationFor request with
    | .error fault => some { w with jobs := w.jobs ++ [⟨request, .rejected fault⟩] }
    | .ok op =>
      match w.admission.state.validate op with
      | .error fault =>
        if w.admission.lock = none then
          some { w with jobs := w.jobs ++ [⟨request, .rejected fault⟩] }
        else none
      | .ok () => do
        let admission ← w.admission.next (.register op)
        some { w with
          admission, jobs := w.jobs ++ [⟨request, .waiting w.admission.state.nextTicket⟩] }
  | .promote => do
    let admission ← w.admission.next .promote
    some { w with admission }
  | .wait j => do
    let job ← w.jobs[j]?
    match job.phase with
    | .waiting t =>
      let admission ← w.admission.next (.startWait t)
      some { w with admission }
    | _ => none
  | .begin j => do
    let job ← w.jobs[j]?
    match job.phase with
    | .waiting t =>
      let admission ← w.admission.next (.receive t)
      some (setPhase { w with admission } j job (.executing t (E.start job.request)))
    | _ => none
  | .work j => do
    let job ← w.jobs[j]?
    match job.phase with
    | .executing t l =>
      let (l', store) := run l w.store
      if (E.result l).isNone then some (setPhase { w with store } j job (.executing t l')) else none
    | _ => none
  | .finish j => do
    let job ← w.jobs[j]?
    match job.phase with
    | .executing t l =>
      let r ← E.result l
      let admission ← w.admission.next (.dropPermit t)
      some (setPhase { w with admission } j job (.completed t r))
    | _ => none
  | .background => none

lemma step_of_next {E : Engine σ L} {run : L → σ → L × σ}
    (ran : ∀ l s, E.step l s (run l s).1 (run l s).2) {w w' : Runtime σ L} {e : RuntimeEvent}
    (h : w.next E run e = some w') : Step E w e w' := by
  cases e with
  | submit request =>
    simp only [next] at h
    split at h
    · cases h
      exact .refused ‹_›
    · split at h
      · split_ifs at h with free
        cases h
        exact .invalid ‹_› free ‹_›
      · obtain ⟨a, register, h⟩ := Option.bind_eq_some_iff.1 h
        cases h
        exact .registered ‹_› ‹_› register
  | promote =>
    obtain ⟨a, promoted, h⟩ := Option.bind_eq_some_iff.1 h
    cases h
    exact .promote promoted
  | wait j =>
    obtain ⟨job, hj, h⟩ := Option.bind_eq_some_iff.1 h
    split at h
    · obtain ⟨a, waited, h⟩ := Option.bind_eq_some_iff.1 h
      cases h
      exact .wait hj ‹_› waited
    · cases h
  | begin j =>
    obtain ⟨job, hj, h⟩ := Option.bind_eq_some_iff.1 h
    split at h
    · obtain ⟨a, received, h⟩ := Option.bind_eq_some_iff.1 h
      cases h
      exact .begin hj ‹_› received
    · cases h
  | work j =>
    obtain ⟨job, hj, h⟩ := Option.bind_eq_some_iff.1 h
    split at h
    · split_ifs at h with running
      cases h
      exact .work hj ‹_› (Option.isNone_iff_eq_none.1 running) (ran _ _)
    · cases h
  | finish j =>
    obtain ⟨job, hj, h⟩ := Option.bind_eq_some_iff.1 h
    split at h
    · obtain ⟨r, done, h⟩ := Option.bind_eq_some_iff.1 h
      obtain ⟨a, dropped, h⟩ := Option.bind_eq_some_iff.1 h
      cases h
      exact .finish hj ‹_› done dropped
    · cases h
  | background => cases h

/-- A run of `next`. -/
def play (E : Engine σ L) (run : L → σ → L × σ) (w : Runtime σ L) :
    List RuntimeEvent → Option (Runtime σ L)
  | [] => some w
  | e :: es => (w.next E run e).bind (play E run · es)

end Runtime

/-- The runs of the runtime of an export of `extentBytes` bytes over an engine. -/
def runtimeSystem (E : Engine σ L) (extentBytes : Nat) (init : σ → Prop) :
    System (Runtime σ L) RuntimeEvent where
  init w := w.admission = .new extentBytes ∧ w.jobs = [] ∧ init w.store
  step := Runtime.Step E

lemma Runtime.reachable_of_play {E : Engine σ L} {run : L → σ → L × σ} {extentBytes : Nat}
    {init : σ → Prop} (ran : ∀ l s, E.step l s (run l s).1 (run l s).2) {es : List RuntimeEvent}
    {w w' : Runtime σ L} (h : w.play E run es = some w')
    (reach : (runtimeSystem E extentBytes init).Reachable w) :
    (runtimeSystem E extentBytes init).Reachable w' := by
  induction es generalizing w with
  | nil =>
    cases h
    exact reach
  | cons e es ih =>
    obtain ⟨m, first, rest⟩ := Option.bind_eq_some_iff.1 h
    exact ih rest (reach.step (step_of_next ran first))

def JobPhase.Matches : JobPhase L → Slot → Prop
  | .rejected _, _ => False
  | .waiting _, x => x.Waiter ∧ (x.permit = .absent ∨ x.permit = .sent)
  | .executing _ _, x => x.permit = .held
  | .completed _ _, x => x.permit = .released

/-- How the jobs and the admission controller belong together. -/
structure Tracks (E : Engine σ L) (extentBytes : Nat) (w : Runtime σ L) : Prop where
  reach : (system extentBytes).Reachable w.admission
  slot : ∀ {j : Nat} {job : Job L} {t : Nat}, w.jobs[j]? = some job → job.ticket = some t →
    ∃ x, w.admission.slots[t]? = some x ∧ E.operationFor job.request = .ok x.op ∧
      job.phase.Matches x
  increasing : ∀ {i j : Nat} {job job' : Job L} {t u : Nat}, i < j → w.jobs[i]? = some job →
    w.jobs[j]? = some job' → job.ticket = some t → job'.ticket = some u → t < u
  covered : ∀ {t : Nat} {x : Slot}, w.admission.slots[t]? = some x →
    ∃ (j : Nat) (job : Job L), w.jobs[j]? = some job ∧ job.ticket = some t
  ordered : ∀ {t u : Nat} {x y : Slot}, w.admission.slots[t]? = some x → x.permit ≠ .absent →
    u < t →
    w.admission.slots[u]? = some y → y.op.conflicts x.op = true → y.permit = .released

namespace Tracks

variable {E : Engine σ L} {extentBytes : Nat} {w : Runtime σ L}

lemma inv (h : Tracks E extentBytes w) : Inv w.admission := .of_reachable h.reach

lemma new (store : σ) : Tracks E extentBytes (⟨.new extentBytes, [], store⟩ : Runtime σ L) where
  reach := .init rfl
  slot := by simp
  increasing := by simp
  covered := by simp [World.new]
  ordered := by simp [World.new]

lemma matched (h : Tracks E extentBytes w) {t : Nat} {x : Slot}
    (hx : w.admission.slots[t]? = some x) :
    ∃ (j : Nat) (job : Job L), w.jobs[j]? = some job ∧ job.ticket = some t ∧
      E.operationFor job.request = .ok x.op ∧ job.phase.Matches x := by
  obtain ⟨j, job, hj, ticket⟩ := h.covered hx
  obtain ⟨y, hy, op, phase⟩ := h.slot hj ticket
  rw [hx] at hy
  cases hy
  exact ⟨j, job, hj, ticket, op, phase⟩

lemma released (h : Tracks E extentBytes w) {t : Nat} {x : Slot}
    (hx : w.admission.slots[t]? = some x) (waits : ¬ x.Waits) (live : ¬ x.Live) :
    x.permit = .released := by
  obtain ⟨j, job, -, -, -, phase⟩ := h.matched hx
  cases eq : job.phase with
  | rejected fault => simp [eq, JobPhase.Matches] at phase
  | waiting t =>
    rw [eq] at phase
    rcases phase.2 with absent | sent
    · exact absurd ⟨phase.1, absent⟩ waits
    · exact absurd (.inl sent) live
  | executing t l =>
    rw [eq] at phase
    exact absurd (.inr phase) live
  | completed t r =>
    rw [eq] at phase
    exact phase

lemma reject (h : Tracks E extentBytes w) (request : ExportRequest) (fault : Fault) :
    Tracks E extentBytes { w with jobs := w.jobs ++ [⟨request, .rejected fault⟩] } where
  reach := h.reach
  slot {j job t} hj ticket := by
    rcases get_concat hj with hj | ⟨-, rfl⟩
    · exact h.slot hj ticket
    · cases ticket
  increasing {i j job job' t u} lt hi hj ti tj := by
    rcases get_concat hj with hj | ⟨-, rfl⟩
    · rcases get_concat hi with hi | ⟨-, rfl⟩
      · exact h.increasing lt hi hj ti tj
      · cases ti
    · cases tj
  covered {t x} hx := by
    obtain ⟨j, job, hj, ticket⟩ := h.covered hx
    exact ⟨j, job,
      by rw [List.getElem?_append_left (List.getElem?_eq_some_iff.1 hj).1]; exact hj, ticket⟩
  ordered := h.ordered

lemma register (h : Tracks E extentBytes w) {request : ExportRequest} {op : AdmissionOp} {a : World}
    (hop : E.operationFor request = .ok op) (valid : w.admission.state.validate op = .ok ())
    (run : w.admission.next (.register op) = some a) :
    Tracks E extentBytes { w with
      admission := a
      jobs := w.jobs ++ [⟨request, .waiting w.admission.state.nextTicket⟩] } := by
  have reach := h.reach.step run
  have slots : a.slots = w.admission.slots ++ [Slot.new op] := by
    simp only [World.next, valid] at run
    split_ifs at run
    cases run
    rfl
  have length := h.inv.length
  have old : ∀ {u : Nat} {y : Slot}, w.admission.slots[u]? = some y → a.slots[u]? = some y := by
    intro u y hy
    rw [slots, List.getElem?_append_left (List.getElem?_eq_some_iff.1 hy).1]
    exact hy
  have slot : ∀ {u : Nat} {y : Slot}, a.slots[u]? = some y →
      w.admission.slots[u]? = some y ∨ u = w.admission.state.nextTicket ∧ y = Slot.new op := by
    intro u y hy
    rw [slots] at hy
    rcases Nat.lt_trichotomy u w.admission.slots.length with lt | eq | gt
    · rw [List.getElem?_append_left lt] at hy
      exact .inl hy
    · subst eq
      rw [List.getElem?_concat_length] at hy
      exact .inr ⟨length, (Option.some.inj hy).symm⟩
    · rw [List.getElem?_eq_none (by simp; omega)] at hy
      cases hy
  refine ⟨reach, ?_, ?_, ?_, ?_⟩
  · intro j job t hj ticket
    rcases get_concat hj with hj | ⟨-, rfl⟩
    · obtain ⟨x, hx, rest⟩ := h.slot hj ticket
      exact ⟨x, old hx, rest⟩
    · cases ticket
      refine ⟨Slot.new op, ?_, hop, .inl rfl, .inl rfl⟩
      simp [slots, ← length]
  · intro i j job job' t u lt hi hj ti tj
    rcases get_concat hj with hj | ⟨eq, rfl⟩
    · rcases get_concat hi with hi | ⟨eq, rfl⟩
      · exact h.increasing lt hi hj ti tj
      · have := (List.getElem?_eq_some_iff.1 hj).1
        omega
    · rcases get_concat hi with hi | ⟨eq', rfl⟩
      · cases tj
        obtain ⟨x, hx, -⟩ := h.slot hi ti
        have := (List.getElem?_eq_some_iff.1 hx).1
        omega
      · omega
  · intro t x hx
    rcases slot hx with hx | ⟨rfl, rfl⟩
    · obtain ⟨j, job, hj, ticket⟩ := h.covered hx
      refine ⟨j, job, ?_, ticket⟩
      rw [List.getElem?_append_left (List.getElem?_eq_some_iff.1 hj).1]
      exact hj
    · exact ⟨w.jobs.length, _, List.getElem?_concat_length, rfl⟩
  · intro t u x y hx granted lt hy conflict
    rcases slot hx with hx | ⟨rfl, rfl⟩
    · rcases slot hy with hy | ⟨rfl, rfl⟩
      · exact h.ordered hx granted lt hy conflict
      · have := (List.getElem?_eq_some_iff.1 hx).1
        omega
    · exact absurd rfl granted

lemma promote_slots {a a' : World} (inv : Inv a) (st : Admission.Step a .promote a') {t : Nat}
    {y : Slot} (hy : a'.slots[t]? = some y) :
    ∃ x, a.slots[t]? = some x ∧ (y = x ∨
      x.permit = .absent ∧ y = { x with permit := .sent } ∧ ∃ i,
        a.lock = some (.send i ⟨t, x.op⟩)) := by
  cases st with
  | moved ne _ _ => exact absurd rfl ne
  | cancelled ne _ _ _ => exact absurd rfl ne
  | @granted i q x lock hx =>
    obtain ⟨x', hx', op, absent⟩ := (inv.sending lock).slot
    rw [hx] at hx'
    cases hx'
    rw [List.getElem?_set] at hy
    by_cases e : q.ticket = t
    · subst e
      have lt := (List.getElem?_eq_some_iff.1 hx).1
      simp only [lt, if_true, Option.some.injEq] at hy
      exact ⟨x, hx, .inr ⟨absent, hy.symm, i, by rw [lock, op]⟩⟩
    · rw [if_neg e] at hy
      exact ⟨y, hy, .inl rfl⟩
  | _ => exact ⟨y, hy, .inl rfl⟩

lemma promote (h : Tracks E extentBytes w) {a : World} (run : w.admission.next .promote = some a) :
    Tracks E extentBytes { w with admission := a } := by
  have inv := h.inv
  have st := inv.step run
  refine ⟨h.reach.step run, ?_, h.increasing, ?_, ?_⟩
  · intro j job t hj ticket
    obtain ⟨x, hx, op, phase⟩ := h.slot hj ticket
    obtain ⟨y, hy, -⟩ := inv.evolves st hx
    obtain ⟨x', hx', change⟩ := promote_slots inv st hy
    rw [hx] at hx'
    cases hx'
    rcases change with rfl | ⟨absent, rfl, -⟩
    · exact ⟨y, hy, op, phase⟩
    · refine ⟨_, hy, op, ?_⟩
      cases eq : job.phase with
      | rejected fault => simp [eq, JobPhase.Matches] at phase
      | waiting t =>
        rw [eq] at phase
        exact ⟨phase.1, .inr rfl⟩
      | executing t l => simp [eq, JobPhase.Matches, absent] at phase
      | completed t r => simp [eq, JobPhase.Matches, absent] at phase
  · intro t y hy
    obtain ⟨x, hx, -⟩ := promote_slots inv st hy
    exact h.covered hx
  · intro t u y z hy granted lt hz conflict
    obtain ⟨x, hx, change⟩ := promote_slots inv st hy
    obtain ⟨v, hv, change'⟩ := promote_slots inv st hz
    have op : z.op = v.op := by
      rcases change' with rfl | ⟨-, rfl, -⟩
      · rfl
      · rfl
    have before : v.permit = .released := by
      rcases change with rfl | ⟨absent, rfl, i, lock⟩
      · exact h.ordered hx granted lt hv (op ▸ conflict)
      · obtain ⟨waits, live⟩ := inv.sending_settled lock lt hv (op ▸ conflict)
        exact h.released hv waits live
    rcases change' with rfl | ⟨absent, -, -⟩
    · exact before
    · simp [before] at absent

lemma update (h : Tracks E extentBytes w) {j t : Nat} {job : Job L} {x y : Slot} {a : World}
    (phase : JobPhase L) (reach : (system extentBytes).Reachable a) (hj : w.jobs[j]? = some job)
    (ticket : job.ticket = some t) (hx : w.admission.slots[t]? = some x)
    (slots : a.slots = w.admission.slots.set t y) (op : y.op = x.op)
    (granted : y.permit ≠ .absent → x.permit ≠ .absent)
    (released : x.permit = .released → y.permit = .released)
    (ticket' : ({ job with phase } : Job L).ticket = some t) (phase_y : phase.Matches y) :
    Tracks E extentBytes (Runtime.setPhase { w with admission := a } j job phase) := by
  have lt := (List.getElem?_eq_some_iff.1 hx).1
  have short := (List.getElem?_eq_some_iff.1 hj).1
  have slot : ∀ u, a.slots[u]? = if t = u then some y else w.admission.slots[u]? := by
    intro u
    rw [slots, List.getElem?_set]
    split_ifs with e <;> simp_all
  have job_at : ∀ i, (w.jobs.set j { job with phase })[i]? =
      if j = i then some { job with phase } else w.jobs[i]? := by
    intro i
    rw [List.getElem?_set]
    split_ifs with e <;> simp_all
  -- the tickets of the jobs are as before
  have tickets : ∀ {i : Nat} {job' : Job L} {u : Nat},
      (w.jobs.set j { job with phase })[i]? = some job' → job'.ticket = some u →
      ∃ job'', w.jobs[i]? = some job'' ∧ job''.ticket = some u := by
    intro i job' u hi tick
    rw [job_at] at hi
    split_ifs at hi with e
    · subst e
      cases hi
      rw [ticket'] at tick
      exact ⟨job, hj, ticket.trans tick⟩
    · exact ⟨job', hi, tick⟩
  refine ⟨reach, ?_, ?_, ?_, ?_⟩
  · intro i job' u hi tick
    simp only [Runtime.setPhase, job_at] at hi
    simp only [Runtime.setPhase, slot]
    split_ifs at hi with e
    · cases hi
      rw [ticket'] at tick
      cases tick
      obtain ⟨x', hx', hop, -⟩ := h.slot hj ticket
      rw [hx] at hx'
      cases hx'
      exact ⟨y, if_pos rfl, by rw [op]; exact hop, phase_y⟩
    · obtain ⟨z, hz, rest⟩ := h.slot hi tick
      have ne : t ≠ u := by
        rintro rfl
        rcases Nat.lt_or_gt_of_ne e with less | more
        · exact absurd (h.increasing less hj hi ticket tick) (lt_irrefl _)
        · exact absurd (h.increasing more hi hj tick ticket) (lt_irrefl _)
      exact ⟨z, by rw [if_neg ne]; exact hz, rest⟩
  · intro i k job' job'' u v less hi hk ti tk
    obtain ⟨_, hi, ti⟩ := tickets hi ti
    obtain ⟨_, hk, tk⟩ := tickets hk tk
    exact h.increasing less hi hk ti tk
  · intro u z hz
    simp only [Runtime.setPhase, slot] at hz
    have old : ∃ z', w.admission.slots[u]? = some z' := by
      split_ifs at hz with e
      · exact ⟨x, e ▸ hx⟩
      · exact ⟨z, hz⟩
    obtain ⟨z', hz'⟩ := old
    obtain ⟨i, job', hi, tick⟩ := h.covered hz'
    by_cases e : j = i
    · subst e
      rw [hj] at hi
      cases hi
      refine ⟨j, _, (job_at j).trans (if_pos rfl), ?_⟩
      rw [ticket', ← ticket, tick]
    · exact ⟨i, job', (job_at i).trans ((if_neg e).trans hi), tick⟩
  · intro u v z z' hz permit less hz' conflict
    simp only [Runtime.setPhase, slot] at hz hz'
    -- both slots before the step
    obtain ⟨z₀, hz₀, op₀, permit₀⟩ : ∃ z₀, w.admission.slots[u]? = some z₀ ∧ z.op = z₀.op ∧
        z₀.permit ≠ .absent := by
      split_ifs at hz with e
      · cases hz
        exact ⟨x, e ▸ hx, op, granted permit⟩
      · exact ⟨z, hz, rfl, permit⟩
    obtain ⟨z₁, hz₁, op₁, rel⟩ : ∃ z₁, w.admission.slots[v]? = some z₁ ∧ z'.op = z₁.op ∧
        (z₁.permit = .released → z'.permit = .released) := by
      split_ifs at hz' with e
      · cases hz'
        exact ⟨x, e ▸ hx, op, released⟩
      · exact ⟨z', hz', rfl, id⟩
    rw [op₀, op₁] at conflict
    exact rel (h.ordered hz₀ permit₀ less hz₁ conflict)

lemma setStore (h : Tracks E extentBytes w) (s : σ) : Tracks E extentBytes { w with store := s } :=
  ⟨h.reach, h.slot, h.increasing, h.covered, h.ordered⟩

lemma step (h : Tracks E extentBytes w) {e : RuntimeEvent} {w' : Runtime σ L}
    (st : Runtime.Step E w e w') : Tracks E extentBytes w' := by
  cases st with
  | refused refused => exact h.reject _ _
  | invalid hop free invalid => exact h.reject _ _
  | registered hop valid run => exact h.register hop valid run
  | promote run => exact h.promote run
  | @wait j job t a hj phase run =>
    have ticket : job.ticket = some t := by simp [Job.ticket, phase]
    obtain ⟨x, hx, -, matched⟩ := h.slot hj ticket
    have reach := h.reach.step run
    simp only [World.next, hx, Option.bind_eq_bind, Option.bind_some] at run
    split_ifs at run with idle
    cases run
    rw [phase] at matched
    have updated := h.update (y := { x with phase := .awaiting }) job.phase reach hj ticket hx
      (modify_eq_set hx _) rfl (fun granted => granted) (fun released => released) ticket
      (by rw [phase]; exact ⟨.inr rfl, matched.2⟩)
    rw [Runtime.setPhase] at updated
    simp only [set_self hj] at updated
    exact updated
  | @begin j job t a hj phase run =>
    have ticket : job.ticket = some t := by simp [Job.ticket, phase]
    obtain ⟨x, hx, -, matched⟩ := h.slot hj ticket
    have reach := h.reach.step run
    simp only [World.next, hx, Option.bind_eq_bind, Option.bind_some] at run
    split_ifs at run with ready
    cases run
    exact h.update (y := { x with permit := .held, receiverOpen := false, phase := .gone }) _ reach
      hj
      ticket hx (modify_eq_set hx _) rfl (fun _ => by simp [ready.2]) (by simp [ready.2]) rfl rfl
  | @work j job t l l' s hj phase running worked =>
    have ticket : job.ticket = some t := by simp [Job.ticket, phase]
    obtain ⟨x, hx, -, matched⟩ := h.slot hj ticket
    rw [phase] at matched
    exact (h.setStore s).update (y := x) (.executing t l') h.reach hj ticket hx (set_self hx).symm
      rfl
      (fun granted => granted) (fun released => released) rfl matched
  | @finish j job t l r a hj phase done run =>
    have ticket : job.ticket = some t := by simp [Job.ticket, phase]
    obtain ⟨x, hx, -, matched⟩ := h.slot hj ticket
    have reach := h.reach.step run
    simp only [World.next, hx, Option.bind_eq_bind, Option.bind_some] at run
    split_ifs at run with ready
    cases run
    exact h.update (y := { x with permit := .released }) _ reach hj
      ticket hx (modify_eq_set hx _) rfl (fun _ => by simp [ready.2]) (fun _ => rfl) rfl rfl
  | background ran => exact h.setStore _

lemma of_reachable {init : σ → Prop} (h : (runtimeSystem E extentBytes init).Reachable w) :
    Tracks E extentBytes w := by
  refine System.invariant _ ?_ (fun tracks st => tracks.step st) h
  rintro ⟨admission, jobs, store⟩ ⟨rfl, rfl, -⟩
  exact .new store

lemma earlier_completed (h : Tracks E extentBytes w) {i j t u : Nat} {job job' : Job L}
    {op op' : AdmissionOp} (lt : i < j) (hi : w.jobs[i]? = some job) (hj : w.jobs[j]? = some job')
    (ti : job.ticket = some t) (tj : job'.ticket = some u)
    (hop : E.operationFor job.request = .ok op) (hop' : E.operationFor job'.request = .ok op')
    (conflict : op.conflicts op' = true) (admitted : job'.phase ≠ .waiting u) :
    ∃ r, job.phase = .completed t r := by
  obtain ⟨x, hx, opx, matched⟩ := h.slot hi ti
  obtain ⟨y, hy, opy, matched'⟩ := h.slot hj tj
  rw [hop] at opx
  rw [hop'] at opy
  cases opx
  cases opy
  have granted : y.permit ≠ .absent := by
    cases eq : job'.phase with
    | rejected fault => simp [eq, JobPhase.Matches] at matched'
    | waiting v =>
      simp only [Job.ticket, eq, Option.some.injEq] at tj
      rw [eq, tj] at admitted
      exact absurd rfl admitted
    | executing v l =>
      rw [eq] at matched'
      simp [show y.permit = .held from matched']
    | completed v r =>
      rw [eq] at matched'
      simp [show y.permit = .released from matched']
  have released := h.ordered hy granted (h.increasing lt hi hj ti tj) hx conflict
  cases eq : job.phase with
  | rejected fault => simp [eq, JobPhase.Matches] at matched
  | waiting v =>
    rw [eq] at matched
    rcases matched.2 with absent | sent
    · simp [absent] at released
    · simp [sent] at released
  | executing v l =>
    rw [eq] at matched
    simp [show x.permit = .held from matched] at released
  | completed v r =>
    simp only [Job.ticket, eq, Option.some.injEq] at ti
    exact ⟨r, by rw [ti]⟩

lemma exclusive (h : Tracks E extentBytes w) {i j t u : Nat} {job job' : Job L} {l l' : L}
    {op op' : AdmissionOp} (ne : i ≠ j) (hi : w.jobs[i]? = some job) (hj : w.jobs[j]? = some job')
    (pi : job.phase = .executing t l) (pj : job'.phase = .executing u l')
    (hop : E.operationFor job.request = .ok op) (hop' : E.operationFor job'.request = .ok op') :
    op.conflicts op' = false := by
  have ti : job.ticket = some t := by simp [Job.ticket, pi]
  have tj : job'.ticket = some u := by simp [Job.ticket, pj]
  by_contra conflict
  rw [Bool.not_eq_false] at conflict
  rcases Nat.lt_or_gt_of_ne ne with lt | gt
  · obtain ⟨r, done⟩ := h.earlier_completed lt hi hj ti tj hop hop' conflict (by simp [pj])
    rw [pi] at done
    cases done
  · rw [AdmissionOp.conflicts_comm] at conflict
    obtain ⟨r, done⟩ := h.earlier_completed gt hj hi tj ti hop' hop conflict (by simp [pi])
    rw [pj] at done
    cases done

/-- A runtime whose tasks cannot move has completed all its jobs, if the engine always finishes or
has a next step. -/
lemma completed_of_stuck (h : Tracks E extentBytes w)
    (progress : ∀ l s, E.result l = none → ∃ l' s', E.step l s l' s')
    (stuck : ∀ e w', (∀ request, e ≠ .submit request) → ¬ Runtime.Step E w e w') :
    ∀ job ∈ w.jobs, job.result.isSome := by
  have inv := h.inv
  have scanned := Scanned.of_reachable h.reach
  have free : w.admission.lock = none := by
    cases lock : w.admission.lock with
    | none => rfl
    | some pc =>
      have run : w.admission.next .promote = some (w.admission.promoteStep pc) := by
        simp [World.next, lock]
      exact absurd (.promote run) (stuck .promote _ (by simp))
  have executing : ∀ {j : Nat} {job : Job L} {t : Nat} {l : L}, w.jobs[j]? = some job →
      job.phase = .executing t l → False := by
    intro j job t l hj phase
    cases done : E.result l with
    | none =>
      obtain ⟨l', s, worked⟩ := progress l w.store done
      exact stuck (.work j) _ (by simp) (.work hj phase done worked)
    | some r =>
      obtain ⟨x, hx, -, held⟩ := h.slot hj (t := t) (by simp [Job.ticket, phase])
      rw [phase] at held
      obtain ⟨a, run⟩ : ∃ a, w.admission.next (.dropPermit t) = some a := by
        simp only [World.next, hx, Option.bind_eq_bind, Option.bind_some]
        exact ⟨_, if_pos ⟨free, held⟩⟩
      exact stuck (.finish j) _ (by simp) (.finish hj phase done run)
  -- a waiting job has taken its place in `wait`, and its permit was not sent
  have waiting : ∀ {j : Nat} {job : Job L} {t : Nat}, w.jobs[j]? = some job →
    job.phase = .waiting t →
      ∃ x, w.admission.slots[t]? = some x ∧ x.Waits := by
    intro j job t hj phase
    obtain ⟨x, hx, -, matched⟩ := h.slot hj (t := t) (by simp [Job.ticket, phase])
    rw [phase] at matched
    obtain ⟨waiter, permit⟩ := matched
    rcases waiter with idle | awaiting
    · obtain ⟨a, run⟩ : ∃ a, w.admission.next (.startWait t) = some a := by
        simp only [World.next, hx, Option.bind_eq_bind, Option.bind_some]
        exact ⟨_, if_pos idle⟩
      exact absurd (.wait hj phase run) (stuck (.wait j) _ (by simp))
    · rcases permit with absent | sent
      · exact ⟨x, hx, .inr awaiting, absent⟩
      · obtain ⟨a, run⟩ : ∃ a, w.admission.next (.receive t) = some a := by
          simp only [World.next, hx, Option.bind_eq_bind, Option.bind_some]
          exact ⟨_, if_pos ⟨awaiting, sent⟩⟩
        exact absurd (.begin hj phase run) (stuck (.begin j) _ (by simp))
  have none_waits : ∀ (t : Nat) (x : Slot), w.admission.slots[t]? = some x → ¬ x.Waits := by
    intro t
    induction t using Nat.strong_induction_on with
    | _ t ih =>
      intro x hx waits
      have queued : ⟨t, x.op⟩ ∈ w.admission.state.waiting := by
        rcases inv.queued hx waits with queued | ⟨i, hand⟩
        · exact queued
        · simp [free] at hand
      rcases scanned.blocked ⟨t, x.op⟩ (by simpa [World.passed, free] using queued) with
        ⟨a, ha, -⟩ | ⟨q, hq, lt, -⟩
      · obtain ⟨y, hy, -, live⟩ := inv.active a ha
        obtain ⟨j, job, hj, ticket, -, matched⟩ := h.matched hy
        cases phase : job.phase with
        | rejected fault => simp [phase, JobPhase.Matches] at matched
        | executing u l => exact executing hj phase
        | waiting u =>
          obtain ⟨z, hz, notSent⟩ := waiting hj phase
          simp only [Job.ticket, phase, Option.some.injEq] at ticket
          rw [ticket, hy] at hz
          cases hz
          simp [Slot.Live, notSent.2] at live
        | completed u r =>
          rw [phase] at matched
          simp [Slot.Live, show y.permit = .released from matched] at live
      · obtain ⟨y, hy, -, absent⟩ := inv.waiting q hq
        obtain ⟨j, job, hj, ticket, -, matched⟩ := h.matched hy
        refine ih q.ticket lt y hy ?_
        by_contra notWaits
        have released := h.released hy notWaits (by simp [Slot.Live, absent])
        simp [absent] at released
  intro job mem
  obtain ⟨j, hj⟩ := List.mem_iff_getElem?.1 mem
  cases phase : job.phase with
  | rejected fault => simp [Job.result, phase]
  | executing t l => exact (executing hj phase).elim
  | waiting t =>
    obtain ⟨x, hx, waits⟩ := waiting hj phase
    exact absurd waits (none_waits t x hx)
  | completed t r => simp [Job.result, phase]

end Tracks

end NbdServer
