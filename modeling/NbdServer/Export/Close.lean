import NbdServer.Export.Lifecycle
import NbdServer.Lib.Update

/-!
# Closing a runtime is safe and live

Theorems about `close` of the two runtimes in `export/runtime.rs`. The safety part is one invariant:
`active_jobs` counts the jobs between `begin_submit` and `finish_job`, and once the runtime is
marked as closed and no job is active, this stays so (`Later`). The liveness part rests on the order
of the steps in `wait_empty`: a `Notified` is created before the counter is looked at, so a call
that awaits either sees an active job or was notified after its creation (`ClosePhase.Ok`).
-/

namespace NbdServer.Lifecycle

open Lib

variable {kind : RuntimeKind} {capacity : Nat} {w w' : World} {e : Event}

/-- The flag, the counter and the notification at a later time. -/
structure Later (w w' : World) : Prop where
  closed : w.closed = true → w'.closed = true
  empty : w.closed = true → w.activeJobs = 0 → w'.activeJobs = 0
  woken : 0 < w.activeJobs → 0 < w'.activeJobs ∨ w.notifications < w'.notifications
  notifications : w.notifications ≤ w'.notifications

lemma Later.of_eq (closed : w'.closed = w.closed) (active : w'.activeJobs = w.activeJobs)
    (notifications : w'.notifications = w.notifications) : Later w w' where
  closed h := closed ▸ h
  empty _ h := active ▸ h
  woken h := .inl (active ▸ h)
  notifications := notifications ▸ le_rfl

lemma Later.finishJob {n : Nat} (active : w.activeJobs = n + 1) (closed : w'.closed = w.closed)
    (notifications : w'.notifications = w.notifications) :
    Later w { w' with activeJobs := n }.notifyEmpty := by
  have some : w.activeJobs ≠ 0 := by omega
  by_cases last : n = 0
  · have eq : { w' with activeJobs := n }.notifyEmpty =
        { w' with activeJobs := n, notifications := w'.notifications + 1 } := if_pos last
    rw [eq]
    exact ⟨fun h => closed ▸ h, fun _ h => absurd h some,
      fun _ => .inr (notifications ▸ Nat.lt_succ_self _), notifications ▸ Nat.le_succ _⟩
  · have eq : { w' with activeJobs := n }.notifyEmpty = { w' with activeJobs := n } := if_neg last
    rw [eq]
    exact ⟨fun h => closed ▸ h, fun _ h => absurd h some, fun _ => .inl (Nat.pos_of_ne_zero last),
      notifications ▸ le_rfl⟩

lemma Step.later (st : Step kind capacity w e w') : Later w w' := by
  cases st with
  | counted _ _ opened =>
    refine ⟨fun h => h, fun h => ?_, fun _ => .inl (Nat.succ_pos _), le_rfl⟩
    rw [opened] at h
    cases h
  | finished _ _ active => exact .finishJob active rfl rfl
  | @marked i _ =>
    by_cases none : w.activeJobs = 0
    · have eq : { w with closed := true }.notifyEmpty =
          { w with closed := true, notifications := w.notifications + 1 } := if_pos none
      rw [eq]
      exact ⟨fun _ => rfl, fun _ h => h, fun h => .inl h, Nat.le_succ _⟩
    · have eq : { w with closed := true }.notifyEmpty = { w with closed := true } := if_neg none
      rw [eq]
      exact ⟨fun _ => rfl, fun _ h => h, fun h => .inl h, le_rfl⟩
  | _ => exact .of_eq rfl rfl rfl

/-- What a call of `close` knows in each of its phases. -/
def ClosePhase.Ok (w : World) : ClosePhase → Prop
  | .called => True
  | .marked => w.closed = true
  | .waiting => w.closed = true
  | .created seen => w.closed = true ∧ seen ≤ w.notifications
  | .awaiting seen =>
    w.closed = true ∧ seen ≤ w.notifications ∧ (0 < w.activeJobs ∨ seen < w.notifications)
  | .empty => w.closed = true ∧ w.activeJobs = 0
  | .initializing => w.closed = true ∧ w.activeJobs = 0
  | .returned _ => w.closed = true ∧ w.activeJobs = 0

lemma ClosePhase.Ok.later {p : ClosePhase} (ok : p.Ok w) (later : Later w w') : p.Ok w' := by
  cases p with
  | called => trivial
  | marked => exact later.closed ok
  | waiting => exact later.closed ok
  | created seen => exact ⟨later.closed ok.1, ok.2.trans later.notifications⟩
  | awaiting seen =>
    obtain ⟨closed, le, cause⟩ := ok
    refine ⟨later.closed closed, le.trans later.notifications, ?_⟩
    rcases cause with active | notified
    · exact (later.woken active).imp_right le.trans_lt
    · exact .inr (notified.trans_le later.notifications)
  | empty => exact ⟨later.closed ok.1, later.empty ok.1 ok.2⟩
  | initializing => exact ⟨later.closed ok.1, later.empty ok.1 ok.2⟩
  | returned result => exact ⟨later.closed ok.1, later.empty ok.1 ok.2⟩

structure Counts (kind : RuntimeKind) (capacity : Nat) (w : World) : Prop where
  active : w.activeJobs = w.jobs.countP (·.phase.active)
  permits : w.available + w.slots + w.jobs.countP (·.phase.holds) +
    w.reserves.countP ReservePhase.holds = capacity
  channel : kind = .serial → w.channel.length ≤ w.jobs.countP (·.phase = .queued)
  answered : ∀ job ∈ w.jobs, job.returned = some (.ok ()) → job.phase.accepted = true

lemma Counts.setJob (h : Counts kind capacity w) {j : Nat} {job new : Job}
    (hj : w.jobs[j]? = some job) (jobs : w'.jobs = w.jobs.set j new)
    (active : w'.activeJobs + job.phase.active.toNat = w.activeJobs + new.phase.active.toNat)
    (permits : w'.available + w'.slots + new.phase.holds.toNat =
      w.available + w.slots + job.phase.holds.toNat) (reserves : w'.reserves = w.reserves)
    (channel : kind = .serial → w'.channel.length + (decide (job.phase = .queued)).toNat =
      w.channel.length + (decide (new.phase = .queued)).toNat)
    (answered : new.returned = some (.ok ()) → new.phase.accepted = true) :
    Counts kind capacity w' := by
  have c₁ := countP_set hj new (·.phase.active)
  have c₂ := countP_set hj new (·.phase.holds)
  have c₃ := countP_set hj new (·.phase = .queued)
  refine ⟨?_, ?_, ?_, ?_⟩
  · rw [jobs]
    have := h.active
    omega
  · rw [jobs, reserves]
    have := h.permits
    omega
  · intro serial
    rw [jobs]
    have := h.channel serial
    have := channel serial
    omega
  · rw [jobs]
    intro job' mem
    rcases List.mem_or_eq_of_mem_set mem with mem | rfl
    · exact h.answered job' mem
    · exact answered

lemma Counts.notifyEmpty (h : Counts kind capacity w) : Counts kind capacity w.notifyEmpty := by
  unfold World.notifyEmpty
  split_ifs
  · exact ⟨h.active, h.permits, h.channel, h.answered⟩
  · exact h

lemma Counts.step (h : Counts kind capacity w) (st : Step kind capacity w e w') :
    Counts kind capacity w' := by
  have old : ∀ {j : Nat} {job : Job}, w.jobs[j]? = some job → job.returned = some (.ok ()) →
      job.phase.accepted = true := fun hj => h.answered _ (List.mem_of_getElem? hj)
  have permits := h.permits
  cases st with
  | reserved => exact ⟨h.active, by simpa [ReservePhase.holds] using permits, h.channel, h.answered⟩
  | @reserving i x y available slots hx kept =>
    have c := countP_set hx y ReservePhase.holds
    refine ⟨h.active, ?_, h.channel, h.answered⟩
    simp only [World.setReserve]
    omega
  | slotDropped some =>
    refine ⟨h.active, ?_, h.channel, h.answered⟩
    simp only
    omega
  | submitted some =>
    refine ⟨?_, ?_, ?_, ?_⟩
    · simpa [JobPhase.active] using h.active
    · have one : [(⟨.called, none⟩ : Job)].countP (·.phase.holds) = 1 := rfl
      simp only [List.countP_append, one]
      omega
    · intro serial
      simpa using h.channel serial
    · intro job mem
      rcases List.mem_append.1 mem with mem | mem
      · exact h.answered job mem
      · cases List.mem_singleton.1 mem
        simp
  | refused hj phase closed =>
    refine h.setJob hj rfl ?_ ?_ rfl ?_ ?_
    · simp [World.setJob, phase, JobPhase.active]
    · simp only [World.setJob, phase, JobPhase.holds, Bool.toNat_true, Bool.toNat_false]
      omega
    · simp [World.setJob, phase]
    · intro ok
      simpa [phase, JobPhase.accepted] using old hj ok
  | counted hj phase opened =>
    refine h.setJob hj rfl ?_ ?_ rfl ?_ ?_
    · simp [phase, JobPhase.active]
    · simp [World.setJob, phase, JobPhase.holds]
    · simp [World.setJob, phase]
    · intro ok
      simpa [phase, JobPhase.accepted] using old hj ok
  | sent serial hj phase =>
    refine h.setJob hj rfl ?_ ?_ rfl ?_ ?_
    · simp [World.setJob, phase, JobPhase.active]
    · simp [World.setJob, phase, JobPhase.holds]
    · simp [phase]
    · exact fun _ => rfl
  | spawned concurrent hj phase =>
    refine h.setJob hj rfl ?_ ?_ rfl ?_ ?_
    · simp [World.setJob, phase, JobPhase.active]
    · simp [World.setJob, phase, JobPhase.holds]
    · simp [concurrent]
    · exact fun _ => rfl
  | @answered j job result hj _ accepted =>
    refine h.setJob hj rfl rfl rfl rfl (fun _ => rfl) ?_
    intro ok
    exact accepted (Option.some.inj ok)
  | received serial hj phase channel =>
    refine h.setJob hj rfl ?_ ?_ rfl ?_ ?_
    · simp [World.setJob, phase, JobPhase.active]
    · simp [World.setJob, phase, JobPhase.holds]
    · simp [phase, channel]
    · exact fun _ => rfl
  | started concurrent hj phase =>
    refine h.setJob hj rfl ?_ ?_ rfl ?_ ?_
    · simp [World.setJob, phase, JobPhase.active]
    · simp [World.setJob, phase, JobPhase.holds]
    · simp [concurrent]
    · exact fun _ => rfl
  | completed hj phase =>
    refine h.setJob hj rfl ?_ ?_ rfl ?_ ?_
    · simp [World.setJob, phase, JobPhase.active]
    · simp only [World.setJob, phase, JobPhase.holds, Bool.toNat_true, Bool.toNat_false]
      omega
    · simp [World.setJob, phase]
    · exact fun _ => rfl
  | finished hj phase active =>
    refine Counts.notifyEmpty (h.setJob hj rfl ?_ ?_ rfl ?_ ?_)
    · simp [phase, JobPhase.active, active]
    · simp [World.setJob, phase, JobPhase.holds]
    · simp [World.setJob, phase]
    · exact fun _ => rfl
  | marked _ =>
    have marked : Counts kind capacity { w with closed := true } :=
      ⟨h.active, permits, h.channel, h.answered⟩
    have notified := marked.notifyEmpty
    exact ⟨notified.active, notified.permits, notified.channel, notified.answered⟩
  | _ => exact ⟨h.active, permits, h.channel, h.answered⟩

/-- The calls of `close` against the once cell. -/
structure Closing (w : World) : Prop where
  closes : ∀ p ∈ w.closes, p.Ok w
  engine : w.engine = .idle ∧ w.engineCloses = 0 ∨
    w.engine ≠ .idle ∧ w.engineCloses = 1 ∧ w.closed = true ∧ w.activeJobs = 0
  initializing : ∀ {i : Nat}, w.closes[i]? = some .initializing → w.engine = .running
  single : ∀ {i k : Nat}, w.closes[i]? = some .initializing → w.closes[k]? = some .initializing →
    i = k
  returned : ∀ {i : Nat} {r : Res Unit}, w.closes[i]? = some (.returned r) → w.engine = .done r

namespace Closing

lemma keep (h : Closing w) (later : Later w w') (closes : w'.closes = w.closes)
    (engine : w'.engine = w.engine) (calls : w'.engineCloses = w.engineCloses) : Closing w' where
  closes := by
    rw [closes]
    exact fun p mem => (h.closes p mem).later later
  engine := by
    rw [engine, calls]
    exact h.engine.imp_right fun ⟨ne, one, closed, empty⟩ =>
      ⟨ne, one, later.closed closed, later.empty closed empty⟩
  initializing := by
    rw [closes, engine]
    exact h.initializing
  single := by
    rw [closes]
    exact h.single
  returned := by
    rw [closes, engine]
    exact h.returned

lemma call (h : Closing w) : Closing { w with closes := w.closes ++ [.called] } := by
  have old : ∀ {i : Nat} {p : ClosePhase}, (w.closes ++ [.called])[i]? = some p → p ≠ .called →
      w.closes[i]? = some p := by
    intro i p hi ne
    rw [List.getElem?_append] at hi
    split_ifs at hi with lt
    · exact hi
    · have := List.mem_singleton.1 (List.mem_of_getElem? hi)
      exact absurd this ne
  refine ⟨?_, h.engine, fun hi => h.initializing (old hi (by simp)),
    fun hi hk => h.single (old hi (by simp)) (old hk (by simp)), fun hi =>
      h.returned (old hi (by simp))⟩
  intro p mem
  rcases List.mem_append.1 mem with mem | mem
  · exact h.closes p mem
  · cases List.mem_singleton.1 mem
    trivial

lemma move (h : Closing w) {p : ClosePhase} {i : Nat} (later : Later w w')
    (closes : w'.closes = w.closes.set i p) (engine : w'.engine = w.engine)
    (calls : w'.engineCloses = w.engineCloses) (ok : p.Ok w') (ne : p ≠ .initializing)
    (returned : ∀ r, p = .returned r → w.engine = .done r) : Closing w' where
  closes := by
    rw [closes]
    intro q mem
    rcases List.mem_or_eq_of_mem_set mem with mem | rfl
    · exact (h.closes q mem).later later
    · exact ok
  engine := by
    rw [engine, calls]
    exact h.engine.imp_right fun ⟨ne, one, closed, empty⟩ =>
      ⟨ne, one, later.closed closed, later.empty closed empty⟩
  initializing {k} hk := by
    rw [closes] at hk
    rcases get_set hk with ⟨-, same⟩ | ⟨-, hk⟩
    · exact absurd same.symm ne
    · rw [engine]
      exact h.initializing hk
  single {k m} hk hm := by
    rw [closes] at hk hm
    rcases get_set hk with ⟨-, same⟩ | ⟨-, hk⟩
    · exact absurd same.symm ne
    · rcases get_set hm with ⟨-, same⟩ | ⟨-, hm⟩
      · exact absurd same.symm ne
      · exact h.single hk hm
  returned {k r} hk := by
    rw [closes] at hk
    rw [engine]
    rcases get_set hk with ⟨-, same⟩ | ⟨-, hk⟩
    · exact returned r same.symm
    · exact h.returned hk

lemma runs (h : Closing w) {i : Nat} (hi : w.closes[i]? = some .empty) (idle : w.engine = .idle) :
    Closing ({ w with engine := .running, engineCloses := w.engineCloses + 1 }.setClose i
      .initializing) := by
  have ok := h.closes _ (List.mem_of_getElem? hi)
  have none : ∀ {k : Nat}, w.closes[k]? ≠ some .initializing := by
    intro k hk
    have := h.initializing hk
    simp [idle] at this
  have at_i : ∀ {k : Nat}, (w.closes.set i .initializing)[k]? = some .initializing → i = k := by
    intro k hk
    rcases get_set hk with ⟨eq, -⟩ | ⟨-, hk⟩
    · exact eq
    · exact absurd hk none
  refine ⟨?_, .inr ⟨by simp [World.setClose], ?_, ok.1, ok.2⟩, fun _ => rfl, ?_, ?_⟩
  · intro q mem
    rcases List.mem_or_eq_of_mem_set mem with mem | rfl
    · exact (h.closes q mem).later (.of_eq rfl rfl rfl)
    · exact ok
  · rcases h.engine with ⟨-, zero⟩ | ⟨ne, -⟩
    · simp [World.setClose, zero]
    · exact absurd idle ne
  · intro k m hk hm
    exact (at_i hk).symm.trans (at_i hm)
  · intro k r hk
    rcases get_set hk with ⟨-, same⟩ | ⟨-, hk⟩
    · cases same
    · have := h.returned hk
      simp [idle] at this

lemma done (h : Closing w) {i : Nat} {result : Res Unit} (hi : w.closes[i]? = some .initializing) :
    Closing ({ w with engine := .done result }.setClose i (.returned result)) := by
  have ok := h.closes _ (List.mem_of_getElem? hi)
  have running := h.initializing hi
  have none : ∀ {k : Nat}, (w.closes.set i (.returned result))[k]? ≠ some .initializing := by
    intro k hk
    rcases get_set hk with ⟨-, same⟩ | ⟨ne, hk⟩
    · cases same
    · exact ne (h.single hi hk)
  refine ⟨?_, ?_, fun hk => absurd hk none, fun hk => absurd hk none, ?_⟩
  · intro q mem
    rcases List.mem_or_eq_of_mem_set mem with mem | rfl
    · exact (h.closes q mem).later (.of_eq rfl rfl rfl)
    · exact ok
  · rcases h.engine with ⟨idle, -⟩ | ⟨-, one, rest⟩
    · simp [running] at idle
    · exact .inr ⟨by simp [World.setClose], one, rest⟩
  · intro k r hk
    rcases get_set hk with ⟨-, same⟩ | ⟨-, hk⟩
    · cases same
      rfl
    · have := h.returned hk
      simp [running] at this

lemma step (h : Closing w) (st : Step kind capacity w e w') : Closing w' := by
  have later := st.later
  have ok : ∀ {i : Nat} {p : ClosePhase}, w.closes[i]? = some p → p.Ok w := fun hi =>
    h.closes _ (List.mem_of_getElem? hi)
  cases st with
  | finished hj phase active =>
    refine h.keep later ?_ ?_ ?_ <;> simp only [World.notifyEmpty] <;> split_ifs <;> rfl
  | closeCalled => exact h.call
  | @marked i hi =>
    have eq : { w with closed := true }.notifyEmpty.setClose i .marked =
        { { w with closed := true }.notifyEmpty with closes := w.closes.set i .marked } := by
      unfold World.notifyEmpty
      split_ifs <;> rfl
    refine h.move later (p := .marked) (i := i) ?_ ?_ ?_ ?_ (by simp) (by simp)
    · rw [eq]
    · simp only [World.setClose, World.notifyEmpty]
      split_ifs <;> rfl
    · simp only [World.setClose, World.notifyEmpty]
      split_ifs <;> rfl
    · simp only [ClosePhase.Ok, World.setClose, World.notifyEmpty]
      split_ifs <;> rfl
  | depthClosed hi => exact h.move later rfl rfl rfl (ok hi) (by simp) (by simp)
  | created hi => exact h.move later rfl rfl rfl ⟨ok hi, le_rfl⟩ (by simp) (by simp)
  | emptied hi none => exact h.move later rfl rfl rfl ⟨(ok hi).1, none⟩ (by simp) (by simp)
  | awaits hi some =>
    exact h.move later rfl rfl rfl ⟨(ok hi).1, (ok hi).2, .inl (Nat.pos_of_ne_zero some)⟩ (by simp)
      (by simp)
  | woken hi _ => exact h.move later rfl rfl rfl (ok hi).1 (by simp) (by simp)
  | initializes hi idle => exact h.runs hi idle
  | joined hi done =>
    refine h.move later rfl rfl rfl (ok hi) (by simp) fun r same => ?_
    cases same
    exact done
  | engineClosed hi => exact h.done hi
  | _ => exact h.keep later rfl rfl rfl

end Closing

lemma inv_of_reachable (h : (system kind capacity).Reachable w) : Counts kind capacity w ∧
    Closing w := by
  refine (system kind capacity).invariant (P := fun w => Counts kind capacity w ∧ Closing w) ?_ ?_ h
  · rintro w rfl
    exact ⟨⟨rfl, by simp [World.new], fun _ => le_rfl, by simp [World.new]⟩,
      ⟨by simp [World.new], .inl ⟨rfl, rfl⟩, by simp [World.new], by simp [World.new],
        by simp [World.new]⟩⟩
  · rintro w e w' ⟨counts, closing⟩ st
    have st := Step.of_next st
    exact ⟨counts.step st, closing.step st⟩

/-- How a call of `close` goes on. -/
inductive ClosePhase.Moves (w : World) : ClosePhase → ClosePhase → Prop where
  | marked : Moves w .called .marked
  | waiting : Moves w .marked .waiting
  | created : Moves w .waiting (.created w.notifications)
  | emptied {seen} : w.activeJobs = 0 → Moves w (.created seen) .empty
  | awaits {seen} : w.activeJobs ≠ 0 → Moves w (.created seen) (.awaiting seen)
  | woken {seen} : Moves w (.awaiting seen) .waiting
  | initializes : w.engine = .idle → Moves w .empty .initializing
  | joined {result} : Moves w .empty (.returned result)
  | returned {result} : Moves w .initializing (.returned result)

lemma Step.close_at (st : Step kind capacity w e w') {i : Nat} {p : ClosePhase}
    (hi : w.closes[i]? = some p) :
    ∃ q, w'.closes[i]? = some q ∧ (p.Moves w q ∨ q = p ∧ e ≠ .closeStep i) := by
  -- a move of the call `k`
  have set : ∀ {k : Nat} {q q' : ClosePhase}, w.closes[k]? = some q → q.Moves w q' →
      (k = i ∨ e ≠ .closeStep i) → ∃ q, (w.closes.set k q')[i]? = some q ∧
        (p.Moves w q ∨ q = p ∧ e ≠ .closeStep i) := by
    intro k q q' hk moves own
    by_cases eq : k = i
    · subst eq
      rw [hk] at hi
      cases hi
      exact ⟨q', by rw [List.getElem?_set_self (List.getElem?_eq_some_iff.1 hk).1], .inl moves⟩
    · exact ⟨p, by rw [List.getElem?_set_ne eq]; exact hi, .inr ⟨rfl, own.resolve_left eq⟩⟩
  have own : ∀ k : Nat, k = i ∨ Event.closeStep k ≠ .closeStep i := by
    intro k
    by_cases eq : k = i
    · exact .inl eq
    · exact .inr fun same => eq (Event.closeStep.inj same)
  cases st with
  | closeCalled =>
    refine ⟨p, ?_, .inr ⟨rfl, by simp⟩⟩
    rw [List.getElem?_append_left (List.getElem?_eq_some_iff.1 hi).1]
    exact hi
  | @finished j job n _ _ _ =>
    refine ⟨p, ?_, .inr ⟨rfl, by simp⟩⟩
    simp only [World.notifyEmpty]
    split_ifs <;> exact hi
  | @marked k hk =>
    have closes : ({ w with closed := true }.notifyEmpty.setClose k .marked).closes =
        w.closes.set k .marked := by
      simp only [World.setClose, World.notifyEmpty]
      split_ifs <;> rfl
    rw [closes]
    exact set hk .marked (own k)
  | @depthClosed k hk => exact set hk .waiting (own k)
  | @created k hk => exact set hk .created (own k)
  | @emptied k _ hk none => exact set hk (.emptied none) (own k)
  | @awaits k _ hk some => exact set hk (.awaits some) (own k)
  | @woken k _ hk _ => exact set hk .woken (own k)
  | @initializes k hk idle => exact set hk (.initializes idle) (own k)
  | @joined k _ hk _ => exact set hk .joined (own k)
  | @engineClosed k _ hk => exact set hk .returned (.inr (by simp))
  | _ => exact ⟨p, hi, .inr ⟨rfl, by simp⟩⟩

inductive JobPhase.Moves (w : World) : JobPhase → JobPhase → Prop where
  | refused : Moves w .called .refused
  | counted : w.closed = false → Moves w .called .counted
  | queued : Moves w .counted .queued
  | executing : Moves w .queued .executing
  | completed : Moves w .executing .completed
  | finished : Moves w .completed .finished

lemma JobPhase.Moves.of_counted {q : JobPhase} (h : JobPhase.Moves w .counted q) : q = .queued := by
  cases h
  rfl

lemma JobPhase.Moves.of_completed {q : JobPhase} (h : JobPhase.Moves w .completed q) :
    q = .finished := by
  cases h
  rfl

def Event.job : Event → Option Nat
  | .submitStep j | .submitReturn j | .execute j | .complete j | .finish j => some j
  | _ => none

lemma Step.jobs (st : Step kind capacity w e w') :
    (∃ j job new, e.job = some j ∧ w.jobs[j]? = some job ∧ w'.jobs = w.jobs.set j new ∧
      (job.phase.Moves w new.phase ∨ new.phase = job.phase ∧ e = .submitReturn j)) ∨
    e.job = none ∧ (w'.jobs = w.jobs ++ [⟨.called, none⟩] ∨ w'.jobs = w.jobs) := by
  have set : ∀ {j : Nat} {job : Job} {phase : JobPhase}, w.jobs[j]? = some job → e.job = some j →
      job.phase.Moves w phase → ∃ j' job' new, e.job = some j' ∧ w.jobs[j']? = some job' ∧
        (w.setJob j job phase).jobs = w.jobs.set j' new ∧
        (job'.phase.Moves w new.phase ∨ new.phase = job'.phase ∧ e = .submitReturn j') :=
    fun hj own moves => ⟨_, _, _, own, hj, rfl, .inl moves⟩
  cases st with
  | submitted _ => exact .inr ⟨rfl, .inl rfl⟩
  | refused hj phase _ => exact .inl (set hj rfl (phase ▸ .refused))
  | counted hj phase opened => exact .inl (set hj rfl (phase ▸ .counted opened))
  | sent _ hj phase => exact .inl (set hj rfl (phase ▸ .queued))
  | spawned _ hj phase => exact .inl (set hj rfl (phase ▸ .queued))
  | answered hj _ _ => exact .inl ⟨_, _, _, rfl, hj, rfl, .inr ⟨rfl, rfl⟩⟩
  | received _ hj phase _ => exact .inl (set hj rfl (phase ▸ .executing))
  | started _ hj phase => exact .inl (set hj rfl (phase ▸ .executing))
  | completed hj phase => exact .inl (set hj rfl (phase ▸ .completed))
  | @finished j job n hj phase _ =>
    have same : ({ w.setJob j job .finished with activeJobs := n }.notifyEmpty).jobs =
        (w.setJob j job .finished).jobs := by
      simp only [World.notifyEmpty]
      split_ifs <;> rfl
    rw [same]
    exact .inl (set hj rfl (phase ▸ .finished))
  | marked _ =>
    refine .inr ⟨rfl, .inr ?_⟩
    simp only [World.setClose, World.notifyEmpty]
    split_ifs <;> rfl
  | _ => exact .inr ⟨rfl, .inr rfl⟩

lemma Step.job_at (st : Step kind capacity w e w') {j : Nat} {job : Job}
    (hj : w.jobs[j]? = some job) :
    ∃ job', w'.jobs[j]? = some job' ∧ (job.phase.Moves w job'.phase ∨
      job'.phase = job.phase ∧ (e.job = some j → e = .submitReturn j)) := by
  rcases st.jobs with ⟨k, job', new, own, hk, jobs, change⟩ | ⟨other, jobs | jobs⟩
  · rw [jobs]
    by_cases eq : k = j
    · subst eq
      rw [hk] at hj
      cases hj
      refine ⟨new, List.getElem?_set_self (List.getElem?_eq_some_iff.1 hk).1, ?_⟩
      exact change.imp_right fun ⟨same, answer⟩ => ⟨same, fun _ => answer⟩
    · refine ⟨job, by rw [List.getElem?_set_ne eq]; exact hj, .inr ⟨rfl, fun here => ?_⟩⟩
      rw [own] at here
      exact absurd (Option.some.inj here) eq
  · refine ⟨job, ?_, .inr ⟨rfl, by simp [other]⟩⟩
    rw [jobs, List.getElem?_append_left (List.getElem?_eq_some_iff.1 hj).1]
    exact hj
  · exact ⟨job, by rw [jobs]; exact hj, .inr ⟨rfl, by simp [other]⟩⟩

lemma Step.job_new (st : Step kind capacity w e w') {j : Nat} {job : Job}
    (hj : w'.jobs[j]? = some job) :
    (∃ old, w.jobs[j]? = some old) ∨ job.phase = .called := by
  rcases st.jobs with ⟨k, job', new, -, -, jobs, -⟩ | ⟨-, jobs | jobs⟩
  · have lt := (List.getElem?_eq_some_iff.1 hj).1
    rw [jobs, List.length_set] at lt
    exact .inl ⟨_, List.getElem?_eq_getElem lt⟩
  · rw [jobs, List.getElem?_append] at hj
    split_ifs at hj
    · exact .inl ⟨job, hj⟩
    · cases List.mem_singleton.1 (List.mem_of_getElem? hj)
      exact .inr rfl
  · rw [jobs] at hj
    exact .inl ⟨job, hj⟩

def Drained (w : World) : Prop := w.closed = true ∧ w.activeJobs = 0

def Settled (j : Nat) (w : World) : Prop :=
  w.closed = true ∧ ∀ job, w.jobs[j]? = some job → job.phase.active = false

lemma Settled.step {j : Nat} (h : Settled j w) (st : Step kind capacity w e w') : Settled j w' := by
  refine ⟨st.later.closed h.1, ?_⟩
  intro job' hj'
  rcases st.job_new hj' with ⟨job, hj⟩ | called
  · obtain ⟨job'', hj'', change⟩ := st.job_at hj
    rw [hj'] at hj''
    cases hj''
    have inactive := h.2 job hj
    rcases change with moves | ⟨same, -⟩
    · generalize job.phase = p at moves inactive
      generalize job'.phase = q at moves
      cases moves with
      | refused => rfl
      | counted opened =>
        have := h.1
        simp [opened] at this
      | finished => rfl
      | _ => cases inactive
    · rw [same]
      exact inactive
  · rw [called]
    rfl

lemma Drained.step (h : Drained w) (st : Step kind capacity w e w') : Drained w' :=
  ⟨st.later.closed h.1, st.later.empty h.1 h.2⟩

/-- The channel has room for a job that has been counted: the jobs in it hold queue slots, and so
does the new one. -/
lemma Counts.room (h : Counts .serial capacity w) {j : Nat} {job : Job} (hj : w.jobs[j]? = some job)
    (phase : job.phase = .counted) : w.channel.length < capacity := by
  have queued := countP_set hj { job with phase := .queued } (·.phase = .queued)
  have holds := countP_set hj { job with phase := .queued } (·.phase.holds)
  have le : (w.jobs.set j { job with phase := .queued }).countP (·.phase = .queued) ≤
      (w.jobs.set j { job with phase := .queued }).countP (·.phase.holds) := by
    refine List.countP_mono_left fun job' _ queued => ?_
    rw [of_decide_eq_true queued]
    rfl
  have same : job.phase.holds = true := by rw [phase]; rfl
  have other : decide (job.phase = .queued) = false := by rw [phase]; rfl
  simp only [other, same, decide_true, Bool.toNat_true, Bool.toNat_false] at queued holds
  have holds' : (JobPhase.queued.holds).toNat = 1 := rfl
  have channel := h.channel rfl
  have permits := h.permits
  omega

lemma Counts.submitStep (h : Counts kind capacity w) {j : Nat} {job : Job}
    (hj : w.jobs[j]? = some job) (phase : job.phase = .counted) :
    ∃ w', w.next kind capacity (.submitStep j) = some w' := by
  simp only [World.next, hj, Option.bind_eq_bind, Option.bind_some, World.submitStep, phase]
  cases kind with
  | serial => exact ⟨_, if_pos (h.room hj phase)⟩
  | concurrent => exact ⟨_, rfl⟩

lemma Counts.finish (h : Counts kind capacity w) {j : Nat} {job : Job} (hj : w.jobs[j]? = some job)
    (phase : job.phase = .completed) : ∃ w', w.next kind capacity (.finish j) = some w' := by
  have counted : 0 < w.jobs.countP (·.phase.active) :=
    List.countP_pos_iff.2 ⟨job, List.mem_of_getElem? hj, by rw [phase]; rfl⟩
  have active := h.active
  simp only [World.next, hj, Option.bind_eq_bind, Option.bind_some, World.finish, if_pos phase,
    checkedSub_of_le (show 1 ≤ w.activeJobs by omega)]
  exact ⟨_, rfl⟩

section Runs

/-- The calls and the tasks of the runtime make progress. -/
structure Fair (r : (system kind capacity).Trace) : Prop where
  submit : ∀ j, r.WeaklyFair (.submitStep j)
  finish : ∀ j, r.WeaklyFair (.finish j)
  close : ∀ i, r.WeaklyFair (.closeStep i)

/-- Every job that the runtime has accepted is completed eventually. -/
def JobsComplete (r : (system kind capacity).Trace) : Prop :=
  ∀ (n j : Nat) (job : Job), (r.state n).jobs[j]? = some job → job.phase.accepted = true →
    ∃ (m : Nat) (job' : Job), n ≤ m ∧ (r.state m).jobs[j]? = some job' ∧
      (job'.phase = .completed ∨ job'.phase = .finished)

/-- `engine.close` returns. -/
def EngineReturns (r : (system kind capacity).Trace) : Prop :=
  ∀ n, (r.state n).engine = .running → ∃ m result, n ≤ m ∧ (r.state m).engine = .done result

variable {r : (system kind capacity).Trace}

lemma job_leaves {p q : JobPhase} {e : Event} {j : Nat} (fair : r.WeaklyFair e)
    (own : e.job = some j) (ne : e ≠ .submitReturn j)
    (enabled : ∀ {w : World} {job : Job}, (system kind capacity).Reachable w →
    w.jobs[j]? = some job →
      job.phase = p → ∃ w', w.next kind capacity e = some w')
    (moves : ∀ {w : World} {p'}, JobPhase.Moves w p p' → p' = q) {n : Nat} {job : Job}
    (hj : (r.state n).jobs[j]? = some job) (phase : job.phase = p) :
    ∃ m job', n ≤ m ∧ (r.state m).jobs[j]? = some job' ∧ job'.phase = q := by
  obtain ⟨m, le, job', hj', left⟩ := r.leadsTo fair
    (P := fun w => ∃ job, w.jobs[j]? = some job ∧ job.phase = p)
    (Q := fun w => ∃ job, w.jobs[j]? = some job ∧ job.phase = q)
    (fun reach ⟨_, hj, phase⟩ => enabled reach hj phase) (by
      rintro w k w' - ⟨job, hj, rfl⟩ st
      obtain ⟨job', hj', moved | ⟨same, -⟩⟩ := (Step.of_next st).job_at hj
      · exact .inr ⟨job', hj', moves moved⟩
      · exact .inl ⟨job', hj', same⟩) (by
      rintro w w' - ⟨job, hj, rfl⟩ st
      obtain ⟨job', hj', moved | ⟨-, only⟩⟩ := (Step.of_next st).job_at hj
      · exact ⟨job', hj', moves moved⟩
      · exact absurd (only own) ne) ⟨job, hj, phase⟩
  exact ⟨m, job', le, hj', left⟩

lemma Fair.settled (fair : Fair r) (complete : JobsComplete r) {n j : Nat}
    (closed : (r.state n).closed = true) : ∃ m, n ≤ m ∧ Settled j (r.state m) := by
  have later : ∀ {m}, n ≤ m → (r.state m).closed = true := fun le =>
    r.stable (P := fun w => w.closed = true) (fun _ h st => (Step.of_next st).later.closed h) closed
      le
  have finished : ∀ {m job}, n ≤ m → (r.state m).jobs[j]? = some job → job.phase = .finished →
      ∃ m, n ≤ m ∧ Settled j (r.state m) := by
    intro m job le hj phase
    refine ⟨m, le, later le, ?_⟩
    intro job' hj'
    rw [hj] at hj'
    cases hj'
    rw [phase]
    rfl
  have accepted : ∀ {m job}, n ≤ m → (r.state m).jobs[j]? = some job → job.phase.accepted = true →
      ∃ m, n ≤ m ∧ Settled j (r.state m) := by
    intro m job le hj accepted
    obtain ⟨m', job', le', hj', phase | phase⟩ := complete m j job hj accepted
    · obtain ⟨k, job'', le'', hj'', done⟩ := job_leaves (fair.finish j) rfl (by simp)
        (fun reach hj phase => (inv_of_reachable reach).1.finish hj phase)
        JobPhase.Moves.of_completed hj' phase
      exact finished (by omega) hj'' done
    · exact finished (by omega) hj' phase
  cases hj : (r.state n).jobs[j]? with
  | none => exact ⟨n, le_rfl, closed, by simp [hj]⟩
  | some job =>
    cases phase : job.phase with
    | counted =>
      obtain ⟨m, job', le, hj', queued⟩ := job_leaves (fair.submit j) rfl (by simp)
        (fun reach hj phase => (inv_of_reachable reach).1.submitStep hj phase)
        JobPhase.Moves.of_counted hj phase
      exact accepted le hj' (by rw [queued]; rfl)
    | called => exact ⟨n, le_rfl, closed, by simp [hj, phase, JobPhase.active]⟩
    | refused => exact ⟨n, le_rfl, closed, by simp [hj, phase, JobPhase.active]⟩
    | _ => exact accepted le_rfl hj (by rw [phase]; rfl)

lemma Fair.drained (fair : Fair r) (complete : JobsComplete r) {n : Nat}
    (closed : (r.state n).closed = true) : ∃ m, n ≤ m ∧ Drained (r.state m) := by
  have keep : ∀ {j w e w'}, (system kind capacity).Reachable w → Settled j w →
      (system kind capacity).step w e w' → Settled j w' := fun _ h st => h.step (Step.of_next st)
  obtain ⟨m, le, all⟩ := r.eventually_all (P := Settled) keep (List.range (r.state n).jobs.length)
    fun j _ => fair.settled complete closed
  refine ⟨m, le, ?_, ?_⟩
  · exact r.stable (P := fun w => w.closed = true)
      (fun _ h st => (Step.of_next st).later.closed h) closed le
  · rw [(inv_of_reachable (r.reachable m)).1.active, List.countP_eq_zero]
    intro job mem
    obtain ⟨j, hj⟩ := List.mem_iff_getElem?.1 mem
    have settled : Settled j (r.state m) := by
      rcases Nat.lt_or_ge j (r.state n).jobs.length with lt | ge
      · exact all j (List.mem_range.2 lt)
      · -- a job that was submitted later has never been active
        refine r.stable keep (n := n) ⟨closed, ?_⟩ le
        intro job hj
        rw [List.getElem?_eq_none ge] at hj
        cases hj
    simpa using settled.2 job hj

/-- The steps a call has before it comes out of `wait_empty` of an empty runtime. -/
def ClosePhase.rank : ClosePhase → Nat
  | .called => 5
  | .marked => 4
  | .awaiting _ => 3
  | .waiting => 2
  | .created _ => 1
  | _ => 0

lemma ClosePhase.Moves.rank_lt {p q : ClosePhase} (moves : p.Moves w q) (drained : Drained w)
    (inside : p.rank ≠ 0) : q.rank < p.rank := by
  cases moves with
  | awaits some => exact absurd drained.2 some
  | initializes _ => exact absurd rfl inside
  | joined => exact absurd rfl inside
  | returned => exact absurd rfl inside
  | _ => simp [ClosePhase.rank]

lemma closeStep_of {i : Nat} {p : ClosePhase} (hi : w.closes[i]? = some p)
    (h : ∃ w', w.closeStep i p = some w') : ∃ w', w.next kind capacity (.closeStep i) =
    some w' := by
  simp only [World.next, hi, Option.bind_eq_bind, Option.bind_some]
  exact h

lemma Closing.closeStep (h : Closing w) (drained : Drained w) {i : Nat} {p : ClosePhase}
    (hi : w.closes[i]? = some p) (inside : p.rank ≠ 0) :
    ∃ w', w.next kind capacity (.closeStep i) = some w' := by
  have ok := h.closes p (List.mem_of_getElem? hi)
  refine closeStep_of hi ?_
  cases p with
  | awaiting seen =>
    obtain ⟨-, -, cause⟩ := ok
    have ne : w.notifications ≠ seen := by
      have := drained.2
      omega
    exact ⟨_, if_pos ne⟩
  | empty => exact absurd rfl inside
  | initializing => exact absurd rfl inside
  | returned result => exact absurd rfl inside
  | _ => exact ⟨_, rfl⟩

lemma Fair.comes_out (fair : Fair r) {n i : Nat} {p : ClosePhase} (drained : Drained (r.state n))
    (hi : (r.state n).closes[i]? = some p) :
    ∃ m q, n ≤ m ∧ (r.state m).closes[i]? = some q ∧ q.rank = 0 := by
  induction rank : p.rank using Nat.strong_induction_on generalizing n p with
  | _ k ih =>
    by_cases zero : k = 0
    · exact ⟨n, p, le_rfl, hi, rank.trans zero⟩
    · have inside : p.rank ≠ 0 := rank ▸ zero
      obtain ⟨m, le, drained', q, hq, less⟩ := r.leadsTo (fair.close i)
        (P := fun w => Drained w ∧ w.closes[i]? = some p)
        (Q := fun w => Drained w ∧ ∃ q, w.closes[i]? = some q ∧ q.rank < p.rank)
        (fun reach h => (inv_of_reachable reach).2.closeStep h.1 h.2 inside) (by
          rintro w e w' - ⟨drained, hi⟩ st
          have st := Step.of_next st
          obtain ⟨q, hq, moves | ⟨same, -⟩⟩ := st.close_at hi
          · exact .inr ⟨drained.step st, q, hq, moves.rank_lt drained inside⟩
          · exact .inl ⟨drained.step st, by rw [hq, same]⟩) (by
          rintro w w' - ⟨drained, hi⟩ st
          have st := Step.of_next st
          obtain ⟨q, hq, moves | ⟨-, other⟩⟩ := st.close_at hi
          · exact ⟨drained.step st, q, hq, moves.rank_lt drained inside⟩
          · exact absurd rfl other) ⟨drained, hi⟩
      obtain ⟨m', q', le', rest⟩ := ih q.rank (rank ▸ less) drained' hq rfl
      exact ⟨m', q', le.trans le', rest⟩

lemma out_later {n m i : Nat} {p : ClosePhase} (hi : (r.state n).closes[i]? = some p)
    (out : p.rank = 0) (le : n ≤ m) : ∃ q, (r.state m).closes[i]? = some q ∧ q.rank = 0 := by
  refine r.stable (P := fun w => ∃ q, w.closes[i]? = some q ∧ q.rank = 0) ?_ ⟨p, hi, out⟩ le
  rintro w e w' - ⟨q, hq, out⟩ st
  obtain ⟨q', hq', moves | ⟨rfl, -⟩⟩ := (Step.of_next st).close_at hq
  · refine ⟨q', hq', ?_⟩
    cases moves with
    | initializes _ => rfl
    | joined => rfl
    | returned => rfl
    | _ => simp [ClosePhase.rank] at out
  · exact ⟨q', hq', out⟩

lemma Closing.empty_of_idle (h : Closing w) (idle : w.engine = .idle) {i : Nat} {p : ClosePhase}
    (hi : w.closes[i]? = some p) (out : p.rank = 0) : p = .empty := by
  cases p with
  | empty => rfl
  | initializing =>
    have running := h.initializing hi
    simp [idle] at running
  | returned result =>
    have done := h.returned hi
    simp [idle] at done
  | _ => simp [ClosePhase.rank] at out

lemma Fair.engine_started (fair : Fair r) {n i : Nat} {p : ClosePhase}
    (hi : (r.state n).closes[i]? = some p) (out : p.rank = 0) :
    ∃ m, n ≤ m ∧ (r.state m).engine ≠ .idle := by
  by_cases idle : (r.state n).engine = .idle
  swap
  · exact ⟨n, le_rfl, idle⟩
  refine r.leadsTo (fair.close i) (P := fun w => w.engine = .idle ∧ w.closes[i]? = some .empty)
    (Q := fun w => w.engine ≠ .idle) ?_ ?_ ?_ ⟨idle, ?_⟩
  · rintro w - ⟨idle, hi⟩
    exact closeStep_of hi (by simp [World.closeStep, idle])
  · rintro w e w' reach ⟨-, hi⟩ st
    by_cases idle' : w'.engine = .idle
    swap
    · exact .inr idle'
    have closing := (inv_of_reachable (reach.step st)).2
    obtain ⟨q, hq, moves | ⟨rfl, -⟩⟩ := (Step.of_next st).close_at hi
    · cases moves with
      | initializes _ => exact .inl ⟨idle', closing.empty_of_idle idle' hq rfl ▸ hq⟩
      | joined => exact .inl ⟨idle', closing.empty_of_idle idle' hq rfl ▸ hq⟩
    · exact .inl ⟨idle', hq⟩
  · rintro w w' reach ⟨-, hi⟩ st idle'
    have closing := (inv_of_reachable (reach.step st)).2
    obtain ⟨q, hq, moves | ⟨-, other⟩⟩ := (Step.of_next st).close_at hi
    · cases moves with
      | initializes _ => cases closing.empty_of_idle idle' hq rfl
      | joined => cases closing.empty_of_idle idle' hq rfl
    · exact other rfl
  · exact (inv_of_reachable (r.reachable n)).2.empty_of_idle idle hi out ▸ hi

lemma Step.done (st : Step kind capacity w e w') (closing : Closing w) {result : Res Unit}
    (h : w.engine = .done result) : w'.engine = .done result := by
  cases st with
  | finished hj phase active =>
    simp only [World.notifyEmpty]
    split_ifs <;> exact h
  | marked hi =>
    simp only [World.setClose, World.notifyEmpty]
    split_ifs <;> exact h
  | initializes hi idle => simp [idle] at h
  | engineClosed hi => simp [closing.initializing hi] at h
  | _ => exact h

lemma Fair.joins (fair : Fair r) {n i : Nat} {p : ClosePhase} {result : Res Unit}
    (hi : (r.state n).closes[i]? = some p) (out : p.rank = 0)
    (done : (r.state n).engine = .done result) :
    ∃ m result, n ≤ m ∧ (r.state m).closes[i]? = some (.returned result) := by
  have closing := (inv_of_reachable (r.reachable n)).2
  cases p with
  | returned result' => exact ⟨n, result', le_rfl, hi⟩
  | initializing =>
    have running := closing.initializing hi
    simp [done] at running
  | empty =>
    obtain ⟨m, le, result', hm⟩ := r.leadsTo (fair.close i)
      (P := fun w => w.engine = .done result ∧ w.closes[i]? = some .empty)
      (Q := fun w => ∃ result, w.closes[i]? = some (.returned result)) (by
        rintro w - ⟨done, hi⟩
        exact closeStep_of hi (by simp [World.closeStep, done])) (by
        rintro w e w' reach ⟨done, hi⟩ st
        have st := Step.of_next st
        obtain ⟨q, hq, moves | ⟨rfl, -⟩⟩ := st.close_at hi
        · cases moves with
          | initializes idle => simp [idle] at done
          | joined => exact .inr ⟨_, hq⟩
        · exact .inl ⟨st.done (inv_of_reachable reach).2 done, hq⟩) (by
        rintro w w' - ⟨done, hi⟩ st
        obtain ⟨q, hq, moves | ⟨-, other⟩⟩ := (Step.of_next st).close_at hi
        · cases moves with
          | initializes idle => simp [idle] at done
          | joined => exact ⟨_, hq⟩
        · exact absurd rfl other) ⟨done, hi⟩
    exact ⟨m, result', le, hm⟩
  | _ => simp [ClosePhase.rank] at out

lemma Fair.marks (fair : Fair r) {n i : Nat} {p : ClosePhase}
    (hi : (r.state n).closes[i]? = some p) :
    ∃ m q, n ≤ m ∧ (r.state m).closes[i]? = some q ∧ (r.state m).closed = true := by
  have ok : ∀ {m q}, (r.state m).closes[i]? = some q → q ≠ .called → (r.state m).closed = true := by
    intro m q hq ne
    have ok := (inv_of_reachable (r.reachable m)).2.closes q (List.mem_of_getElem? hq)
    cases q with
    | called => exact absurd rfl ne
    | marked => exact ok
    | waiting => exact ok
    | _ => exact ok.1
  by_cases called : p = .called
  swap
  · exact ⟨n, p, le_rfl, hi, ok hi called⟩
  subst called
  obtain ⟨m, le, hm⟩ := r.leadsTo (fair.close i) (P := fun w => w.closes[i]? = some .called)
    (Q := fun w => w.closes[i]? = some .marked) (by
      intro w _ hi
      exact closeStep_of hi (by simp [World.closeStep])) (by
      intro w e w' _ hi st
      obtain ⟨q, hq, moves | ⟨rfl, -⟩⟩ := (Step.of_next st).close_at hi
      · cases moves
        exact .inr hq
      · exact .inl hq) (by
      intro w w' _ hi st
      obtain ⟨q, hq, moves | ⟨-, other⟩⟩ := (Step.of_next st).close_at hi
      · cases moves
        exact hq
      · exact absurd rfl other) hi
  exact ⟨m, .marked, le, hm, ok hm (by simp)⟩

lemma close_later {n m i : Nat} {p : ClosePhase} (hi : (r.state n).closes[i]? = some p)
    (le : n ≤ m) :
    ∃ q, (r.state m).closes[i]? = some q := by
  refine r.stable (P := fun w => ∃ q, w.closes[i]? = some q) ?_ ⟨p, hi⟩ le
  rintro w e w' - ⟨q, hq⟩ st
  obtain ⟨q', hq', -⟩ := (Step.of_next st).close_at hq
  exact ⟨q', hq'⟩

lemma Fair.returns (fair : Fair r) (complete : JobsComplete r) (engine : EngineReturns r)
    {n i : Nat} {p : ClosePhase} (hi : (r.state n).closes[i]? = some p) :
    ∃ m result, n ≤ m ∧ (r.state m).closes[i]? = some (.returned result) := by
  obtain ⟨n₁, p₁, le₁, h₁, closed⟩ := fair.marks hi
  obtain ⟨n₂, le₂, drained⟩ := fair.drained complete closed
  obtain ⟨p₂, h₂⟩ := close_later h₁ le₂
  obtain ⟨n₃, p₃, le₃, h₃, out⟩ := fair.comes_out drained h₂
  obtain ⟨n₄, le₄, started⟩ := fair.engine_started h₃ out
  obtain ⟨n₅, result, le₅, done⟩ : ∃ m result, n₄ ≤ m ∧ (r.state m).engine = .done result := by
    cases eng : (r.state n₄).engine with
    | idle => exact absurd eng started
    | running => exact engine n₄ eng
    | done result => exact ⟨n₄, result, le_rfl, eng⟩
  obtain ⟨p₅, h₅, out₅⟩ := out_later h₃ out (le₄.trans le₅)
  obtain ⟨m, result', le, returned⟩ := fair.joins h₅ out₅ done
  exact ⟨m, result', by omega, returned⟩

end Runs

/-- Closing a runtime is safe and live. In every run of either runtime: * once `engine.close` has
been called, every job whose `submit` returns `Ok` is finished; * `engine.close` is called at most
once, and every call of `close` that returns gives its result; * once `engine.close` has been called
or a call of `close` has returned, no job is accepted. If the tasks make progress, all accepted jobs
are completed eventually and `engine.close` returns, then every call of `close` returns. -/
theorem runtime_close_safe_and_live (kind : RuntimeKind) (capacity : Nat) :
    (∀ w, (system kind capacity).Reachable w →
      (w.engine ≠ .idle →
        ∀ job ∈ w.jobs, job.returned = some (.ok ()) → job.phase = .finished) ∧
      w.engineCloses ≤ 1 ∧
      (∀ (i : Nat) (result : Res Unit), w.closes[i]? = some (.returned result) →
        w.engine = .done result) ∧
      ((w.engine ≠ .idle ∨ ∃ (i : Nat) (result : Res Unit), w.closes[i]? =
      some (.returned result)) →
        ∀ e w', (system kind capacity).step w e w' →
          ∀ (j : Nat) (job' : Job), w'.jobs[j]? = some job' → job'.phase.accepted = true →
            ∃ job, w.jobs[j]? = some job ∧ job.phase.accepted = true)) ∧
    ∀ r : (system kind capacity).Trace, Fair r → JobsComplete r → EngineReturns r →
      ∀ n i, i < (r.state n).closes.length →
        ∃ m result, n ≤ m ∧ (r.state m).closes[i]? = some (.returned result) := by
  refine ⟨?_, ?_⟩
  · intro w reach
    obtain ⟨counts, closing⟩ := inv_of_reachable reach
    have started : w.engine ≠ .idle → Drained w := by
      intro ne
      rcases closing.engine with ⟨idle, -⟩ | ⟨-, -, drained⟩
      · exact absurd idle ne
      · exact drained
    have inactive : Drained w → ∀ job ∈ w.jobs, job.phase.active = false := by
      intro drained job mem
      have none := counts.active
      rw [drained.2, eq_comm, List.countP_eq_zero] at none
      simpa using none job mem
    refine ⟨?_, ?_, fun _ _ => closing.returned, ?_⟩
    · intro ne job mem ok
      have accepted := counts.answered job mem ok
      have idle := inactive (started ne) job mem
      cases phase : job.phase <;> simp_all [JobPhase.accepted, JobPhase.active]
    · rcases closing.engine with ⟨-, zero⟩ | ⟨-, one, -⟩ <;> omega
    · intro late e w' st j job' hj' accepted
      have drained : Drained w := by
        rcases late with ne | ⟨i, result, hi⟩
        · exact started ne
        · exact started (by simp [closing.returned hi])
      have st := Step.of_next st
      rcases st.job_new hj' with ⟨job, hj⟩ | called
      · obtain ⟨job'', hj'', change⟩ := st.job_at hj
        rw [hj'] at hj''
        cases hj''
        refine ⟨job, hj, ?_⟩
        have idle := inactive drained job (List.mem_of_getElem? hj)
        rcases change with moves | ⟨same, -⟩
        · generalize job.phase = p at moves idle
          generalize job'.phase = q at moves accepted
          cases moves with
          | refused => cases accepted
          | counted _ => cases accepted
          | _ => cases idle
        · rw [← same]
          exact accepted
      · rw [called] at accepted
        cases accepted
  · intro r fair complete engine n i lt
    exact fair.returns complete engine (List.getElem?_eq_getElem lt)

/-- A serial runtime that is closed while a job is being submitted. -/
def closeDuringSubmit : List Event :=
  [.reserve, .reserveStep 0, .reserveStep 0, .reserveStep 0, .submit, .submitStep 0, .close,
    .closeStep 0, .submitStep 0, .submitReturn 0, .closeStep 0, .closeStep 0, .closeStep 0,
      .execute 0,
    .complete 0, .finish 0, .closeStep 0, .closeStep 0, .closeStep 0, .closeStep 0,
    .engineClosed 0 (.ok ())]

def closeDuringSubmitRun : (system .serial 1).Trace :=
  .ofList (World.next .serial 1) (fun h => h) rfl closeDuringSubmit rfl

lemma closeDuringSubmitRun_fair : Fair closeDuringSubmitRun where
  submit j := by
    refine System.Trace.ofList_weaklyFair (fun h => h) fun s st => ?_
    cases j with
    | zero => cases st
    | succ j => cases st
  finish j := by
    refine System.Trace.ofList_weaklyFair (fun h => h) fun s st => ?_
    cases j with
    | zero => cases st
    | succ j => cases st
  close i := by
    refine System.Trace.ofList_weaklyFair (fun h => h) fun s st => ?_
    cases i with
    | zero => cases st
    | succ i => cases st

lemma closeDuringSubmitRun_late {n : Nat} (le : closeDuringSubmit.length ≤ n) :
    closeDuringSubmitRun.state n = closeDuringSubmitRun.state closeDuringSubmit.length :=
  System.Trace.ofList_late le

lemma closeDuringSubmitRun_complete : JobsComplete closeDuringSubmitRun := by
  intro n j job hj _
  have lt := (List.getElem?_eq_some_iff.1 hj).1
  have one : (closeDuringSubmitRun.state n).jobs.length ≤ 1 :=
    System.Trace.ofList_all (P := fun w : World => w.jobs.length ≤ 1) (by decide) n
  obtain rfl : j = 0 := by omega
  refine ⟨max n closeDuringSubmit.length, ⟨.finished, some (.ok ())⟩, le_max_left _ _, ?_, .inr rfl⟩
  rw [closeDuringSubmitRun_late (le_max_right _ _)]
  rfl

lemma closeDuringSubmitRun_engine : EngineReturns closeDuringSubmitRun := by
  intro n _
  refine ⟨max n closeDuringSubmit.length, .ok (), le_max_left _ _, ?_⟩
  rw [closeDuringSubmitRun_late (le_max_right _ _)]
  rfl

/-- The call of `close` that finds the job counted awaits it and returns. -/
theorem runtime_close_safe_and_live_during_submit :
    (closeDuringSubmitRun.state 13).closes[0]? = some (.awaiting 0) ∧
      ∃ m result, 13 ≤ m ∧ (closeDuringSubmitRun.state m).closes[0]? = some (.returned result) :=
  ⟨rfl, (runtime_close_safe_and_live .serial 1).2 closeDuringSubmitRun closeDuringSubmitRun_fair
    closeDuringSubmitRun_complete closeDuringSubmitRun_engine 13 0 (by decide)⟩

end NbdServer.Lifecycle
