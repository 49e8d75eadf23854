import NbdServer.Registry.Model
import NbdServer.Lib.Update

/-!
# One live runtime per export

Invariant of `LocalExportRegistry`. An `Opening` entry belongs to the one call of `open` that is
between its two locks, a `Closing` entry to the one call of `close` that is; no other call changes
them. A runtime that is not closed is therefore with exactly one of these calls or in an `Open`
entry (`Good`).
-/

namespace NbdServer.Registry

open Lib

def OpenPhase.Busy : OpenPhase → Prop
  | .creating | .created _ | .failed _ => True
  | _ => False

def ClosePhase.Busy : ClosePhase → Prop
  | .closing _ | .awaiting _ | .closed _ _ => True
  | _ => False

def OpenPhase.gave (runtime : Nat) : OpenPhase → Bool
  | .returned (.ok r) => r = runtime
  | _ => false

namespace Desk

/-- The number of calls of `open` that have returned a runtime. -/
def opensOf (d : Desk) (runtime : Nat) : Nat := d.opens.countP (·.phase.gave runtime)

/-- The number of calls of `close` that have given up a runtime. -/
def closesOf (d : Desk) (runtime : Nat) : Nat := d.closes.countP (·.released = some runtime)

/-- The calls that have returned or given up a runtime are those of one owner. -/
structure OwnedBy (d : Desk) (owner : ExportOwner) (runtime : Nat) : Prop where
  opens : ∀ call ∈ d.opens, call.phase.gave runtime = true → call.owner = owner
  closes : ∀ call ∈ d.closes, call.released = some runtime → call.owner = owner

/-- The runtime was opened, and given up as often as it was opened. -/
def Settled (d : Desk) (runtime : Nat) : Prop :=
  0 < d.opensOf runtime ∧ d.opensOf runtime = d.closesOf runtime

inductive Held (d : Desk) (runtime : Nat) : Prop where
  | created {i : Nat} {call : OpenCall} : d.opens[i]? = some call → call.phase = .created runtime →
      Held d runtime
  | opened {owner n : Nat} : d.entry = some (.opened owner runtime n) → Held d runtime
  | closing {i : Nat} {call : CloseCall} : d.closes[i]? = some call →
      call.phase = .closing runtime →
      Held d runtime
  | awaiting {i : Nat} {call : CloseCall} : d.closes[i]? = some call →
      call.phase = .awaiting runtime →
      Held d runtime

end Desk

inductive Step (name : ExportName) (d : Desk) : Event → Desk → Prop where
  | openCalled {owner} : Step name d (.openCall owner) { d with
      opens := d.opens ++ [⟨owner, .called⟩] }
  | joined {i call runtime n} : d.opens[i]? = some call → call.phase = .called →
      d.entry = some (.opened call.owner runtime n) →
      Step name d (.openStep i) { d.setOpen i call (.returned (.ok runtime)) with
        entry := some (.opened call.owner runtime (n + 1)) }
  | busy {i call} : d.opens[i]? = some call → call.phase = .called →
      Step name d (.openStep i) (d.setOpen i call (.returned (fail (.exportBusy name))))
  | begins {i call} : d.opens[i]? = some call → call.phase = .called → d.entry = none →
      Step name d (.openStep i) { d.setOpen i call .creating with
        entry := some (.opening call.owner) }
  | createdRuntime {i call} : d.opens[i]? = some call → call.phase = .creating →
      Step name d (.created i (.ok ())) { d.setOpen i call (.created d.runtimes.length) with
        runtimes := d.runtimes ++ [⟨0, false⟩] }
  | createFailed {i call error} : d.opens[i]? = some call → call.phase = .creating →
      Step name d (.created i (.error error)) (d.setOpen i call (.failed error))
  | installed {i call runtime} : d.opens[i]? = some call → call.phase = .created runtime →
      Step name d (.openStep i) { d.setOpen i call (.returned (.ok runtime)) with
        entry := some (.opened call.owner runtime 1) }
  | removed {i call error} : d.opens[i]? = some call → call.phase = .failed error →
      Step name d (.openStep i) { d.setOpen i call (.returned (.error error)) with
        entry := if d.entry = some (.opening call.owner) then none else d.entry }
  | closeCalled {owner} :
      Step name d (.closeCall owner) { d with closes := d.closes ++ [⟨owner, none, .called⟩] }
  | ignored {i call result} : d.closes[i]? = some call → call.phase = .called →
      (∀ runtime n, d.entry ≠ some (.opened call.owner runtime n)) →
      Step name d (.closeStep i) (d.setClose i call (.returned result))
  | left {i call runtime n} : d.closes[i]? = some call → call.phase = .called →
      d.entry = some (.opened call.owner runtime (n + 2)) →
      Step name d (.closeStep i)
        { d.setClose i { call with released := some runtime } (.returned (.ok ())) with
          entry := some (.opened call.owner runtime (n + 1)) }
  | last {i call runtime} : d.closes[i]? = some call → call.phase = .called →
      d.entry = some (.opened call.owner runtime 1) →
      Step name d (.closeStep i) { d.setClose i { call with released := some runtime }
        (.closing runtime) with
        entry := some (.closing call.owner) }
  | closes {i call runtime} : d.closes[i]? = some call → call.phase = .closing runtime →
      Step name d (.closeStep i) { d.setClose i call (.awaiting runtime) with
        runtimes := d.runtimes.modify runtime fun r => { r with closeCalls := r.closeCalls + 1 } }
  | closed {i call runtime result} : d.closes[i]? = some call → call.phase = .awaiting runtime →
      Step name d (.runtimeClosed i result) { d.setClose i call (.closed runtime result) with
        runtimes := d.runtimes.modify runtime ({ · with closed := true }) }
  | cleaned {i call runtime result} : d.closes[i]? = some call →
      call.phase = .closed runtime result →
      Step name d (.closeStep i) { d.setClose i call (.returned result) with
        entry := if d.entry = some (.closing call.owner) then none else d.entry }

variable {name : ExportName} {d d' : Desk} {e : Event}

lemma Step.of_openStep {i : Nat} {call : OpenCall} (hi : d.opens[i]? = some call)
    (h : d.openStep name i call = some d') : Step name d (.openStep i) d' := by
  cases phase : call.phase with
  | called =>
    simp only [Desk.openStep, phase] at h
    split at h
    · split_ifs at h with same
      · cases h
        subst same
        exact .joined hi phase ‹_›
      · cases h
        exact .busy hi phase
    · cases h
      exact .busy hi phase
    · cases h
      exact .begins hi phase ‹_›
  | created runtime =>
    simp only [Desk.openStep, phase] at h
    cases h
    exact .installed hi phase
  | failed error =>
    simp only [Desk.openStep, phase] at h
    cases h
    exact .removed hi phase
  | _ => simp [Desk.openStep, phase] at h

lemma Step.of_closeStep {i : Nat} {call : CloseCall} (hi : d.closes[i]? = some call)
    (h : d.closeStep name i call = some d') : Step name d (.closeStep i) d' := by
  cases phase : call.phase with
  | called =>
    simp only [Desk.closeStep, phase] at h
    cases entry : d.entry with
    | none =>
      simp only [entry] at h
      cases h
      exact .ignored hi phase (by simp [entry])
    | some state =>
      cases state with
      | opened owner runtime connections =>
        simp only [entry] at h
        split_ifs at h with same
        · subst same
          obtain ⟨rest, sub, h⟩ := Option.bind_eq_some_iff.1 h
          simp only [checkedSub, Option.ite_none_right_eq_some, Option.some.injEq] at sub
          split_ifs at h with more
          · cases h
            obtain ⟨n, rfl⟩ : ∃ n, rest = n + 1 := ⟨rest - 1, by omega⟩
            exact .left hi phase (by rw [entry]; congr; omega)
          · cases h
            exact .last hi phase (by rw [entry]; congr; omega)
        · cases h
          refine .ignored hi phase fun r n eq => same ?_
          rw [entry] at eq
          cases eq
          rfl
      | opening owner =>
        simp only [entry] at h
        split_ifs at h
        · cases h
          exact .ignored hi phase (by simp [entry])
        · cases h
          exact .ignored hi phase (by simp [entry])
      | closing owner =>
        simp only [entry] at h
        split_ifs at h
        · cases h
          exact .ignored hi phase (by simp [entry])
        · cases h
          exact .ignored hi phase (by simp [entry])
  | closing runtime =>
    simp only [Desk.closeStep, phase] at h
    cases h
    exact .closes hi phase
  | closed runtime result =>
    simp only [Desk.closeStep, phase] at h
    cases h
    exact .cleaned hi phase
  | _ => simp [Desk.closeStep, phase] at h

lemma Step.of_next (h : d.next name e = some d') : Step name d e d' := by
  cases e with
  | openCall owner =>
    cases h
    exact .openCalled
  | openStep i =>
    obtain ⟨call, hi, h⟩ := Option.bind_eq_some_iff.1 h
    exact .of_openStep hi h
  | created i result =>
    obtain ⟨call, hi, h⟩ := Option.bind_eq_some_iff.1 h
    cases phase : call.phase with
    | creating =>
      simp only [Desk.created, phase] at h
      cases result with
      | ok _ =>
        cases h
        exact .createdRuntime hi phase
      | error error =>
        cases h
        exact .createFailed hi phase
    | _ => simp [Desk.created, phase] at h
  | closeCall owner =>
    cases h
    exact .closeCalled
  | closeStep i =>
    obtain ⟨call, hi, h⟩ := Option.bind_eq_some_iff.1 h
    exact .of_closeStep hi h
  | runtimeClosed i result =>
    obtain ⟨call, hi, h⟩ := Option.bind_eq_some_iff.1 h
    cases phase : call.phase with
    | awaiting runtime =>
      simp only [Desk.runtimeClosed, phase] at h
      cases h
      exact .closed hi phase
    | _ => simp [Desk.runtimeClosed, phase] at h

/-- The calls and the runtimes of a name belong to its entry. -/
structure Good (d : Desk) : Prop where
  opening : ∀ {i : Nat} {call : OpenCall}, d.opens[i]? = some call → call.phase.Busy →
    d.entry = some (.opening call.owner)
  oneOpen : ∀ {i k : Nat} {call call' : OpenCall}, d.opens[i]? = some call → d.opens[k]? =
    some call' →
    call.phase.Busy → call'.phase.Busy → i = k
  closing : ∀ {i : Nat} {call : CloseCall}, d.closes[i]? = some call → call.phase.Busy →
    d.entry = some (.closing call.owner)
  oneClose : ∀ {i k : Nat} {call call' : CloseCall}, d.closes[i]? = some call → d.closes[k]? =
    some call' →
    call.phase.Busy → call'.phase.Busy → i = k
  created : ∀ {i runtime : Nat} {call : OpenCall}, d.opens[i]? = some call →
    call.phase = .created runtime →
    d.runtimes[runtime]? = some ⟨0, false⟩ ∧ d.opensOf runtime = 0 ∧ d.closesOf runtime = 0
  opened : ∀ {owner runtime n : Nat}, d.entry = some (.opened owner runtime n) →
    d.runtimes[runtime]? = some ⟨0, false⟩ ∧ 1 ≤ n ∧ n + d.closesOf runtime = d.opensOf runtime ∧
      d.OwnedBy owner runtime
  closes : ∀ {i runtime : Nat} {call : CloseCall}, d.closes[i]? = some call →
    call.phase = .closing runtime → d.runtimes[runtime]? = some ⟨0, false⟩ ∧ d.Settled runtime
  awaiting : ∀ {i runtime : Nat} {call : CloseCall}, d.closes[i]? = some call →
    call.phase = .awaiting runtime → d.runtimes[runtime]? = some ⟨1, false⟩ ∧ d.Settled runtime
  status : ∀ {runtime : Nat} {r : Runtime}, d.runtimes[runtime]? = some r →
    r = ⟨1, true⟩ ∧ d.Settled runtime ∨ d.Held runtime
  fresh : ∀ {runtime : Nat}, d.runtimes.length ≤ runtime →
    d.opensOf runtime = 0 ∧ d.closesOf runtime = 0
  unreleased : ∀ {i : Nat} {call : CloseCall}, d.closes[i]? = some call → call.phase = .called →
    call.released = none

lemma opensOf_set {i : Nat} {call new : OpenCall} (opens : d'.opens = d.opens.set i new)
    (hi : d.opens[i]? = some call) (runtime : Nat) :
    d'.opensOf runtime + (call.phase.gave runtime).toNat =
      d.opensOf runtime + (new.phase.gave runtime).toNat := by
  rw [Desk.opensOf, opens]
  exact countP_set hi new _

lemma closesOf_set {i : Nat} {call new : CloseCall} (closes : d'.closes = d.closes.set i new)
    (hi : d.closes[i]? = some call) (runtime : Nat) :
    d'.closesOf runtime + (decide (call.released = some runtime)).toNat =
      d.closesOf runtime + (decide (new.released = some runtime)).toNat := by
  rw [Desk.closesOf, closes]
  exact countP_set hi new _

structure Same (d d' : Desk) (runtime : Nat) : Prop where
  opens : d'.opensOf runtime = d.opensOf runtime
  closes : d'.closesOf runtime = d.closesOf runtime

lemma Same.settled {runtime : Nat} (same : Same d d' runtime) (h : d.Settled runtime) :
    d'.Settled runtime := by
  rw [Desk.Settled, same.opens, same.closes]
  exact h

lemma OpenPhase.gave_self (runtime : Nat) : (OpenPhase.returned (.ok runtime)).gave runtime =
    true :=
  decide_eq_true rfl

/-- What a step of a call of `open` changes. -/
structure OpenMoves (d d' : Desk) (i : Nat) (call : OpenCall) (phase : OpenPhase) : Prop where
  at_i : d.opens[i]? = some call
  opens : d'.opens = d.opens.set i ⟨call.owner, phase⟩
  closes : d'.closes = d.closes

lemma OpenMoves.same {i : Nat} {call : OpenCall} {phase : OpenPhase}
    (m : OpenMoves d d' i call phase) {runtime : Nat} (old : call.phase.gave runtime = false)
    (new : phase.gave runtime = false) :
    Same d d' runtime := by
  have count := opensOf_set m.opens m.at_i runtime
  rw [old, new] at count
  exact ⟨by simpa using count, by rw [Desk.closesOf, m.closes]; rfl⟩

/-- What a step of a call of `close` changes. -/
structure CloseMoves (d d' : Desk) (i : Nat) (call : CloseCall) (released : Option Nat)
    (phase : ClosePhase) : Prop where
  at_i : d.closes[i]? = some call
  closes : d'.closes = d.closes.set i ⟨call.owner, released, phase⟩
  opens : d'.opens = d.opens

lemma CloseMoves.same {i : Nat} {call : CloseCall} {released : Option Nat} {phase : ClosePhase}
    (m : CloseMoves d d' i call released phase) {runtime : Nat}
    (other : decide (released = some runtime) = decide (call.released = some runtime)) :
    Same d d' runtime := by
  have count := closesOf_set m.closes m.at_i runtime
  simp only [other] at count
  exact ⟨by rw [Desk.opensOf, m.opens]; rfl, by omega⟩

namespace Good

lemma not_busy_open (h : Good d) {i : Nat} {call : OpenCall} (hi : d.opens[i]? = some call)
    (entry : ∀ owner, d.entry ≠ some (.opening owner)) : ¬ call.phase.Busy :=
  fun busy => entry _ (h.opening hi busy)

lemma not_busy_close (h : Good d) {i : Nat} {call : CloseCall} (hi : d.closes[i]? = some call)
    (entry : ∀ owner, d.entry ≠ some (.closing owner)) : ¬ call.phase.Busy :=
  fun busy => entry _ (h.closing hi busy)

lemma neutral (h : Good d) (entry : d'.entry = d.entry) (runtimes : d'.runtimes = d.runtimes)
    (opens : ∀ {k : Nat} {c : OpenCall}, c.phase.Busy →
    (d'.opens[k]? = some c ↔ d.opens[k]? = some c)) (closes : ∀ {k : Nat} {c : CloseCall},
      c.phase.Busy → (d'.closes[k]? = some c ↔ d.closes[k]? = some c))
    (same : ∀ runtime, Same d d' runtime)
    (owned : ∀ {owner runtime}, d.OwnedBy owner runtime → d'.OwnedBy owner runtime)
    (unreleased : ∀ {k : Nat} {c : CloseCall}, d'.closes[k]? = some c → c.phase = .called →
      c.released = none) : Good d' where
  opening hi busy := by
    rw [entry]
    exact h.opening ((opens busy).1 hi) busy
  oneOpen hi hk busy busy' := h.oneOpen ((opens busy).1 hi) ((opens busy').1 hk) busy busy'
  closing hi busy := by
    rw [entry]
    exact h.closing ((closes busy).1 hi) busy
  oneClose hi hk busy busy' := h.oneClose ((closes busy).1 hi) ((closes busy').1 hk) busy busy'
  created {i runtime call} hi phase := by
    rw [runtimes, (same _).opens, (same _).closes]
    exact h.created ((opens (by rw [phase]; trivial)).1 hi) phase
  opened hd := by
    rw [runtimes, (same _).opens, (same _).closes]
    rw [entry] at hd
    obtain ⟨live, pos, count, own⟩ := h.opened hd
    exact ⟨live, pos, count, owned own⟩
  closes hi phase := by
    rw [runtimes]
    obtain ⟨live, settled⟩ := h.closes ((closes (by rw [phase]; trivial)).1 hi) phase
    exact ⟨live, (same _).settled settled⟩
  awaiting hi phase := by
    rw [runtimes]
    obtain ⟨live, settled⟩ := h.awaiting ((closes (by rw [phase]; trivial)).1 hi) phase
    exact ⟨live, (same _).settled settled⟩
  status hr := by
    rw [runtimes] at hr
    rcases h.status hr with ⟨closed, settled⟩ | held
    · exact .inl ⟨closed, (same _).settled settled⟩
    · refine .inr ?_
      cases held with
      | created hi phase => exact .created ((opens (by rw [phase]; trivial)).2 hi) phase
      | opened hd => exact .opened (entry.trans hd)
      | closing hi phase => exact .closing ((closes (by rw [phase]; trivial)).2 hi) phase
      | awaiting hi phase => exact .awaiting ((closes (by rw [phase]; trivial)).2 hi) phase
  fresh le := by
    rw [runtimes] at le
    rw [(same _).opens, (same _).closes]
    exact h.fresh le
  unreleased := unreleased

lemma moveOpen (h : Good d) {i : Nat} {new : OpenCall} (opens : d'.opens = d.opens.set i new)
    (closes : d'.closes = d.closes)
    (alone : ∀ {k : Nat} {c : OpenCall}, i ≠ k → d.opens[k]? = some c → ¬ c.phase.Busy)
    (quiet : ∀ {k : Nat} {c : CloseCall}, d.closes[k]? = some c → ¬ c.phase.Busy)
    (entry : new.phase.Busy → d'.entry = some (.opening new.owner))
    (created : ∀ {runtime}, new.phase = .created runtime →
      d'.runtimes[runtime]? = some ⟨0, false⟩ ∧ d'.opensOf runtime = 0 ∧ d'.closesOf runtime = 0)
    (opened : ∀ {owner runtime n : Nat}, d'.entry = some (.opened owner runtime n) →
      d'.runtimes[runtime]? = some ⟨0, false⟩ ∧ 1 ≤ n ∧ n + d'.closesOf runtime =
      d'.opensOf runtime ∧
        d'.OwnedBy owner runtime)
    (status : ∀ {runtime : Nat} {r : Runtime}, d'.runtimes[runtime]? = some r →
      r = ⟨1, true⟩ ∧ d'.Settled runtime ∨ d'.Held runtime)
    (fresh : ∀ {runtime : Nat}, d'.runtimes.length ≤ runtime →
      d'.opensOf runtime = 0 ∧ d'.closesOf runtime = 0) : Good d' := by
  have busy_at : ∀ {k : Nat} {c : OpenCall}, d'.opens[k]? = some c → c.phase.Busy → i = k ∧
      c = new := by
    intro k c hk busy
    rw [opens] at hk
    rcases get_set hk with here | ⟨ne, hk⟩
    · exact here
    · exact absurd busy (alone ne hk)
  have quiet' : ∀ {k : Nat} {c : CloseCall}, d'.closes[k]? = some c → ¬ c.phase.Busy := by
    intro k c hk
    rw [closes] at hk
    exact quiet hk
  refine ⟨?_, ?_, ?_, ?_, ?_, opened, ?_, ?_, status, fresh, ?_⟩
  · intro k c hk busy
    obtain ⟨-, rfl⟩ := busy_at hk busy
    exact entry busy
  · intro k m c c' hk hm busy busy'
    exact (busy_at hk busy).1.symm.trans (busy_at hm busy').1
  · intro k c hk busy
    exact absurd busy (quiet' hk)
  · intro k m c c' hk hm busy busy'
    exact absurd busy (quiet' hk)
  · intro k runtime c hk phase
    obtain ⟨-, rfl⟩ := busy_at hk (by rw [phase]; trivial)
    exact created phase
  · intro k runtime c hk phase
    exact absurd (by rw [phase]; trivial) (quiet' hk)
  · intro k runtime c hk phase
    exact absurd (by rw [phase]; trivial) (quiet' hk)
  · rw [closes]
    exact h.unreleased

lemma moveClose (h : Good d) {i : Nat} {new : CloseCall} (closes : d'.closes = d.closes.set i new)
    (opens : d'.opens = d.opens)
    (alone : ∀ {k : Nat} {c : CloseCall}, i ≠ k → d.closes[k]? = some c → ¬ c.phase.Busy)
    (quiet : ∀ {k : Nat} {c : OpenCall}, d.opens[k]? = some c → ¬ c.phase.Busy)
    (entry : new.phase.Busy → d'.entry = some (.closing new.owner)) (moved : new.phase ≠ .called)
    (opened : ∀ {owner runtime n : Nat}, d'.entry = some (.opened owner runtime n) →
      d'.runtimes[runtime]? = some ⟨0, false⟩ ∧ 1 ≤ n ∧ n + d'.closesOf runtime =
      d'.opensOf runtime ∧
        d'.OwnedBy owner runtime)
    (closing : ∀ {runtime}, new.phase = .closing runtime →
      d'.runtimes[runtime]? = some ⟨0, false⟩ ∧ d'.Settled runtime)
    (awaiting : ∀ {runtime}, new.phase = .awaiting runtime →
      d'.runtimes[runtime]? = some ⟨1, false⟩ ∧ d'.Settled runtime)
    (status : ∀ {runtime : Nat} {r : Runtime}, d'.runtimes[runtime]? = some r →
      r = ⟨1, true⟩ ∧ d'.Settled runtime ∨ d'.Held runtime)
    (fresh : ∀ {runtime : Nat}, d'.runtimes.length ≤ runtime →
      d'.opensOf runtime = 0 ∧ d'.closesOf runtime = 0) : Good d' := by
  have busy_at : ∀ {k : Nat} {c : CloseCall}, d'.closes[k]? = some c → c.phase.Busy → i = k ∧
      c = new := by
    intro k c hk busy
    rw [closes] at hk
    rcases get_set hk with here | ⟨ne, hk⟩
    · exact here
    · exact absurd busy (alone ne hk)
  have quiet' : ∀ {k : Nat} {c : OpenCall}, d'.opens[k]? = some c → ¬ c.phase.Busy := by
    intro k c hk
    rw [opens] at hk
    exact quiet hk
  refine ⟨?_, ?_, ?_, ?_, ?_, opened, ?_, ?_, status, fresh, ?_⟩
  · intro k c hk busy
    exact absurd busy (quiet' hk)
  · intro k m c c' hk hm busy busy'
    exact absurd busy (quiet' hk)
  · intro k c hk busy
    obtain ⟨-, rfl⟩ := busy_at hk busy
    exact entry busy
  · intro k m c c' hk hm busy busy'
    exact (busy_at hk busy).1.symm.trans (busy_at hm busy').1
  · intro k runtime c hk phase
    exact absurd (by rw [phase]; trivial) (quiet' hk)
  · intro k runtime c hk phase
    obtain ⟨-, rfl⟩ := busy_at hk (by rw [phase]; trivial)
    exact closing phase
  · intro k runtime c hk phase
    obtain ⟨-, rfl⟩ := busy_at hk (by rw [phase]; trivial)
    exact awaiting phase
  · intro k c hk phase
    rw [closes] at hk
    rcases get_set hk with ⟨-, rfl⟩ | ⟨-, hk⟩
    · exact absurd phase moved
    · exact h.unreleased hk phase

lemma not_held (h : Good d) (entry : d.entry = none) {runtime : Nat} : ¬ d.Held runtime := by
  intro held
  cases held with
  | created hi phase => simpa [entry] using h.opening hi (by rw [phase]; trivial)
  | opened hd => simp [entry] at hd
  | closing hi phase => simpa [entry] using h.closing hi (by rw [phase]; trivial)
  | awaiting hi phase => simpa [entry] using h.closing hi (by rw [phase]; trivial)

lemma held_opening (h : Good d) {owner : ExportOwner} (entry : d.entry = some (.opening owner))
    {runtime : Nat} (held : d.Held runtime) :
    ∃ (i : Nat) (call : OpenCall), d.opens[i]? = some call ∧ call.phase = .created runtime := by
  cases held with
  | created hi phase => exact ⟨_, _, hi, phase⟩
  | opened hd => simp [entry] at hd
  | closing hi phase => simpa [entry] using h.closing hi (by rw [phase]; trivial)
  | awaiting hi phase => simpa [entry] using h.closing hi (by rw [phase]; trivial)

lemma held_opened (h : Good d) {owner runtime n : Nat}
    (entry : d.entry = some (.opened owner runtime n)) {other : Nat} (held : d.Held other) :
    other = runtime := by
  cases held with
  | created hi phase => simpa [entry] using h.opening hi (by rw [phase]; trivial)
  | opened hd =>
    rw [entry] at hd
    cases hd
    rfl
  | closing hi phase => simpa [entry] using h.closing hi (by rw [phase]; trivial)
  | awaiting hi phase => simpa [entry] using h.closing hi (by rw [phase]; trivial)

lemma held_closing (h : Good d) {owner : ExportOwner} (entry : d.entry = some (.closing owner))
    {runtime : Nat} (held : d.Held runtime) :
    ∃ (i : Nat) (call : CloseCall), d.closes[i]? = some call ∧
      (call.phase = .closing runtime ∨ call.phase = .awaiting runtime) := by
  cases held with
  | created hi phase => simpa [entry] using h.opening hi (by rw [phase]; trivial)
  | opened hd => simp [entry] at hd
  | closing hi phase => exact ⟨_, _, hi, .inl phase⟩
  | awaiting hi phase => exact ⟨_, _, hi, .inr phase⟩

lemma not_held_opening (h : Good d) {i : Nat} {call : OpenCall} (hi : d.opens[i]? = some call)
    (busy : call.phase.Busy) (no : ∀ runtime, call.phase ≠ .created runtime) {runtime : Nat} :
    ¬ d.Held runtime := by
  intro held
  obtain ⟨k, c, hk, phase⟩ := h.held_opening (h.opening hi busy) held
  obtain rfl := h.oneOpen hi hk busy (by rw [phase]; trivial)
  rw [hi] at hk
  cases hk
  exact no _ phase

lemma openMove (h : Good d) {i : Nat} {call : OpenCall} {phase : OpenPhase}
    (m : OpenMoves d d' i call phase)
    (alone : ∀ {k : Nat} {c : OpenCall}, i ≠ k → d.opens[k]? = some c → ¬ c.phase.Busy)
    (quiet : ∀ {k : Nat} {c : CloseCall}, d.closes[k]? = some c → ¬ c.phase.Busy)
    (unheld : ∀ {runtime}, ¬ d.Held runtime) (old : ∀ runtime, call.phase.gave runtime = false)
    (new : ∀ runtime, phase.gave runtime = false) (runtimes : d'.runtimes = d.runtimes)
    (entry : phase.Busy → d'.entry = some (.opening call.owner))
    (unopened : ∀ owner runtime n, d'.entry ≠ some (.opened owner runtime n))
    (uncreated : ∀ runtime, phase ≠ .created runtime) : Good d' := by
  have same : ∀ r, Same d d' r := fun r => m.same (old r) (new r)
  refine h.moveOpen m.opens m.closes alone quiet entry (fun created => absurd created (uncreated _))
    (fun opened => absurd opened (unopened _ _ _)) ?_ ?_
  · intro r x hr
    rw [runtimes] at hr
    rcases h.status hr with ⟨closed, settled⟩ | held
    · exact .inl ⟨closed, (same r).settled settled⟩
    · exact absurd held unheld
  · intro r le
    rw [runtimes] at le
    rw [(same r).opens, (same r).closes]
    exact h.fresh le

lemma join (h : Good d) {i runtime n : Nat} {call : OpenCall}
    (m : OpenMoves d d' i call (.returned (.ok runtime))) (phase : call.phase = .called)
    (entry : d.entry = some (.opened call.owner runtime n)) (runtimes : d'.runtimes = d.runtimes)
    (entry' : d'.entry = some (.opened call.owner runtime (n + 1))) : Good d' := by
  obtain ⟨live, pos, count, owned⟩ := h.opened entry
  have unopened : ∀ r, call.phase.gave r = false := fun r => by rw [phase]; rfl
  have same : ∀ {r}, r ≠ runtime → Same d d' r := fun ne =>
    m.same (unopened _) (decide_eq_false ne.symm)
  have opens := opensOf_set m.opens m.at_i runtime
  rw [unopened, OpenPhase.gave_self, Bool.toNat_false, Bool.toNat_true] at opens
  have closes : d'.closesOf runtime = d.closesOf runtime := by rw [Desk.closesOf, m.closes]; rfl
  refine h.moveOpen m.opens m.closes (fun _ hk => h.not_busy_open hk (by simp [entry]))
    (fun hk => h.not_busy_close hk (by simp [entry])) (fun busy => busy.elim) nofun ?_ ?_ ?_
  · intro owner' runtime' n' eq
    rw [entry'] at eq
    cases eq
    refine ⟨by rw [runtimes]; exact live, by omega, by omega, ?_, ?_⟩
    · rw [m.opens]
      intro c mem gave
      rcases List.mem_or_eq_of_mem_set mem with mem | rfl
      · exact owned.opens c mem gave
      · rfl
    · rw [m.closes]
      exact owned.closes
  · intro r x hr
    rw [runtimes] at hr
    by_cases eq : r = runtime
    · exact .inr (.opened (by rw [entry', eq]))
    · rcases h.status hr with ⟨closed, settled⟩ | held
      · exact .inl ⟨closed, (same eq).settled settled⟩
      · exact absurd (h.held_opened entry held) eq
  · intro r le
    rw [runtimes] at le
    have ne : r ≠ runtime := by
      rintro rfl
      have := (List.getElem?_eq_some_iff.1 live).1
      exact absurd this (not_lt.2 le)
    rw [(same ne).opens, (same ne).closes]
    exact h.fresh le

lemma create (h : Good d) {i : Nat} {call : OpenCall}
    (m : OpenMoves d d' i call (.created d.runtimes.length)) (phase : call.phase = .creating)
    (entry : d'.entry = d.entry) (runtimes : d'.runtimes = d.runtimes ++ [⟨0, false⟩]) :
    Good d' := by
  have busy : call.phase.Busy := by rw [phase]; trivial
  have opening := h.opening m.at_i busy
  have unheld : ∀ {runtime}, ¬ d.Held runtime := h.not_held_opening m.at_i busy (by simp [phase])
  have same : ∀ r, Same d d' r := fun r => m.same (by rw [phase]; rfl) rfl
  refine h.moveOpen m.opens m.closes ?_ (fun hk => h.not_busy_close hk (by simp [opening]))
    (fun _ => entry.trans opening) ?_ ?_ ?_ ?_
  · intro k c ne hk busy'
    exact ne (h.oneOpen m.at_i hk busy busy')
  · intro r eq
    cases eq
    rw [(same _).opens, (same _).closes, runtimes, List.getElem?_concat_length]
    exact ⟨rfl, h.fresh le_rfl⟩
  · intro owner r n eq
    rw [entry, opening] at eq
    cases eq
  · intro r x hr
    rw [runtimes] at hr
    rcases get_concat hr with hr | ⟨rfl, -⟩
    · rcases h.status hr with ⟨closed, settled⟩ | held
      · exact .inl ⟨closed, (same r).settled settled⟩
      · exact absurd held unheld
    · have at_i : d'.opens[i]? = some ⟨call.owner, .created d.runtimes.length⟩ := by
        rw [m.opens]
        exact get_set_self m.at_i _
      exact .inr (.created at_i rfl)
  · intro r le
    rw [runtimes, List.length_append] at le
    rw [(same r).opens, (same r).closes]
    exact h.fresh (by omega)

lemma install (h : Good d) {i runtime : Nat} {call : OpenCall}
    (m : OpenMoves d d' i call (.returned (.ok runtime))) (phase : call.phase = .created runtime)
    (entry : d'.entry = some (.opened call.owner runtime 1)) (runtimes : d'.runtimes = d.runtimes) :
    Good d' := by
  have busy : call.phase.Busy := by rw [phase]; trivial
  have opening := h.opening m.at_i busy
  obtain ⟨live, noOpens, noCloses⟩ := h.created m.at_i phase
  have unopened : ∀ r, call.phase.gave r = false := fun r => by rw [phase]; rfl
  have same : ∀ {r}, r ≠ runtime → Same d d' r := fun ne =>
    m.same (unopened _) (decide_eq_false ne.symm)
  have opens := opensOf_set m.opens m.at_i runtime
  rw [unopened, OpenPhase.gave_self, Bool.toNat_false, Bool.toNat_true] at opens
  have closes : d'.closesOf runtime = d.closesOf runtime := by rw [Desk.closesOf, m.closes]; rfl
  refine h.moveOpen m.opens m.closes ?_ (fun hk => h.not_busy_close hk (by simp [opening]))
    (fun busy => busy.elim) nofun ?_ ?_ ?_
  · intro k c ne hk busy'
    exact ne (h.oneOpen m.at_i hk busy busy')
  · intro owner r n eq
    rw [entry] at eq
    cases eq
    refine ⟨by rw [runtimes]; exact live, le_rfl, by omega, ?_, ?_⟩
    · rw [m.opens]
      intro c mem gave
      rcases List.mem_or_eq_of_mem_set mem with mem | rfl
      · exact absurd gave (List.countP_eq_zero.1 noOpens c mem)
      · rfl
    · rw [m.closes]
      intro c mem released
      have := List.countP_eq_zero.1 noCloses c mem
      simp [released] at this
  · intro r x hr
    rw [runtimes] at hr
    by_cases eq : r = runtime
    · exact .inr (.opened (by rw [entry, eq]))
    · rcases h.status hr with ⟨closed, settled⟩ | held
      · exact .inl ⟨closed, (same eq).settled settled⟩
      · obtain ⟨k, c, hk, created⟩ := h.held_opening opening held
        obtain rfl := h.oneOpen m.at_i hk busy (by rw [created]; trivial)
        have at_k := m.at_i
        rw [hk] at at_k
        cases at_k
        rw [phase] at created
        cases created
        exact absurd rfl eq
  · intro r le
    rw [runtimes] at le
    have ne : r ≠ runtime := by
      rintro rfl
      have := (List.getElem?_eq_some_iff.1 live).1
      exact absurd this (not_lt.2 le)
    rw [(same ne).opens, (same ne).closes]
    exact h.fresh le

lemma released (h : Good d) {i runtime : Nat} {call : CloseCall} {phase : ClosePhase}
    (m : CloseMoves d d' i call (some runtime) phase) (called : call.phase = .called) :
    d'.closesOf runtime = d.closesOf runtime + 1 ∧ d'.opensOf runtime = d.opensOf runtime ∧
      ∀ {r}, r ≠ runtime → Same d d' r := by
  have none := h.unreleased m.at_i called
  have closes := closesOf_set m.closes m.at_i runtime
  simp only [none, reduceCtorEq, decide_false, decide_true, Bool.toNat_false,
    Bool.toNat_true] at closes
  refine ⟨by omega, by rw [Desk.opensOf, m.opens]; rfl, fun ne => m.same ?_⟩
  simp [none, ne.symm]

lemma leave (h : Good d) {i runtime n : Nat} {call : CloseCall} {result : Res Unit}
    (m : CloseMoves d d' i call (some runtime) (.returned result)) (called : call.phase = .called)
    (entry : d.entry = some (.opened call.owner runtime (n + 2)))
    (runtimes : d'.runtimes = d.runtimes)
    (entry' : d'.entry = some (.opened call.owner runtime (n + 1))) : Good d' := by
  obtain ⟨live, -, count, owned⟩ := h.opened entry
  obtain ⟨closes, opens, same⟩ := h.released m called
  refine h.moveClose m.closes m.opens (fun _ hk => h.not_busy_close hk (by simp [entry]))
    (fun hk => h.not_busy_open hk (by simp [entry])) (fun busy => busy.elim) (by simp) ?_ nofun
      nofun ?_ ?_
  · intro owner r n' eq
    rw [entry'] at eq
    cases eq
    refine ⟨by rw [runtimes]; exact live, by omega, by omega, ?_, ?_⟩
    · rw [m.opens]
      exact owned.opens
    · rw [m.closes]
      intro c mem released
      rcases List.mem_or_eq_of_mem_set mem with mem | rfl
      · exact owned.closes c mem released
      · rfl
  · intro r x hr
    rw [runtimes] at hr
    by_cases eq : r = runtime
    · exact .inr (.opened (by rw [entry', eq]))
    · rcases h.status hr with ⟨closed, settled⟩ | held
      · exact .inl ⟨closed, (same eq).settled settled⟩
      · exact absurd (h.held_opened entry held) eq
  · intro r le
    rw [runtimes] at le
    have ne : r ≠ runtime := by
      rintro rfl
      have := (List.getElem?_eq_some_iff.1 live).1
      exact absurd this (not_lt.2 le)
    rw [(same ne).opens, (same ne).closes]
    exact h.fresh le

lemma last (h : Good d) {i runtime : Nat} {call : CloseCall}
    (m : CloseMoves d d' i call (some runtime) (.closing runtime)) (called : call.phase = .called)
    (entry : d.entry = some (.opened call.owner runtime 1)) (runtimes : d'.runtimes = d.runtimes)
    (entry' : d'.entry = some (.closing call.owner)) : Good d' := by
  obtain ⟨live, -, count, -⟩ := h.opened entry
  obtain ⟨closes, opens, same⟩ := h.released m called
  have settled : d'.Settled runtime := ⟨by omega, by omega⟩
  have at_i : d'.closes[i]? = some ⟨call.owner, some runtime, .closing runtime⟩ := by
    rw [m.closes]
    exact get_set_self m.at_i _
  refine h.moveClose m.closes m.opens (fun _ hk => h.not_busy_close hk (by simp [entry]))
    (fun hk => h.not_busy_open hk (by simp [entry])) (fun _ => entry') (by simp) ?_ ?_ nofun ?_ ?_
  · intro owner r n' eq
    rw [entry'] at eq
    cases eq
  · intro r eq
    cases eq
    exact ⟨by rw [runtimes]; exact live, settled⟩
  · intro r x hr
    rw [runtimes] at hr
    by_cases eq : r = runtime
    · subst eq
      exact .inr (.closing at_i rfl)
    · rcases h.status hr with ⟨closed, settled⟩ | held
      · exact .inl ⟨closed, (same eq).settled settled⟩
      · exact absurd (h.held_opened entry held) eq
  · intro r le
    rw [runtimes] at le
    have ne : r ≠ runtime := by
      rintro rfl
      have := (List.getElem?_eq_some_iff.1 live).1
      exact absurd this (not_lt.2 le)
    rw [(same ne).opens, (same ne).closes]
    exact h.fresh le

lemma closing_alone (h : Good d) {i : Nat} {call : CloseCall} (hi : d.closes[i]? = some call)
    (busy : call.phase.Busy) {k : Nat} {c : CloseCall} (ne : i ≠ k) (hk : d.closes[k]? = some c) :
    ¬ c.phase.Busy := fun busy' => ne (h.oneClose hi hk busy busy')

lemma held_by (h : Good d) {i runtime : Nat} {call : CloseCall} (hi : d.closes[i]? = some call)
    (busy : call.phase.Busy) (held : d.Held runtime) :
    call.phase = .closing runtime ∨ call.phase = .awaiting runtime := by
  obtain ⟨k, c, hk, phase⟩ := h.held_closing (h.closing hi busy) held
  obtain rfl :=
    h.oneClose hi hk busy (by rcases phase with phase | phase <;> rw [phase] <;> trivial)
  rw [hi] at hk
  cases hk
  exact phase

lemma closingMove (h : Good d) {i runtime : Nat} {call : CloseCall} {phase : ClosePhase}
    {r : Runtime} (m : CloseMoves d d' i call call.released phase)
    (busy : call.phase = .closing runtime ∨ call.phase = .awaiting runtime) (busy' : phase.Busy)
    (settled : d.Settled runtime) (lt : runtime < d.runtimes.length) (entry : d'.entry = d.entry)
    (runtimes : d'.runtimes = d.runtimes.set runtime r)
    (closing : ∀ {x}, phase ≠ .closing x)
    (awaiting : ∀ {x}, phase = .awaiting x → x = runtime ∧ r = ⟨1, false⟩)
    (status : r = ⟨1, true⟩ ∨ phase = .awaiting runtime) : Good d' := by
  have same : ∀ x, Same d d' x := fun x => m.same rfl
  have before : call.phase.Busy := by rcases busy with eq | eq <;> rw [eq] <;> trivial
  have closes := h.closing m.at_i before
  have at_i : d'.closes[i]? = some ⟨call.owner, call.released, phase⟩ := by
    rw [m.closes]
    exact get_set_self m.at_i _
  have here : d'.runtimes[runtime]? = some r := by rw [runtimes, List.getElem?_set_self lt]
  refine h.moveClose m.closes m.opens (fun ne hk => h.closing_alone m.at_i before ne hk)
    (fun hk => h.not_busy_open hk (by simp [closes])) (fun _ => entry.trans closes) ?_ ?_
    (fun eq => absurd eq closing) ?_ ?_ ?_
  · rintro rfl
    exact busy'
  · intro owner x n eq
    rw [entry, closes] at eq
    cases eq
  · intro x eq
    obtain ⟨rfl, rfl⟩ := awaiting eq
    exact ⟨here, (same x).settled settled⟩
  · intro x r' hr
    rw [runtimes] at hr
    rcases get_set hr with ⟨rfl, rfl⟩ | ⟨ne, hr⟩
    · rcases status with closed | phase_eq
      · exact .inl ⟨closed, (same _).settled settled⟩
      · exact .inr (.awaiting at_i phase_eq)
    · rcases h.status hr with ⟨closed, settled⟩ | held
      · exact .inl ⟨closed, (same x).settled settled⟩
      · rcases h.held_by m.at_i before held with eq | eq <;> rcases busy with eq' | eq' <;>
          rw [eq'] at eq <;> cases eq <;> exact absurd rfl ne
  · intro x le
    rw [runtimes, List.length_set] at le
    rw [(same x).opens, (same x).closes]
    exact h.fresh le

lemma clean (h : Good d) {i runtime : Nat} {call : CloseCall} {result result' : Res Unit}
    (m : CloseMoves d d' i call call.released (.returned result))
    (phase : call.phase = .closed runtime result') (entry : d'.entry = none)
    (runtimes : d'.runtimes = d.runtimes) : Good d' := by
  have same : ∀ x, Same d d' x := fun x => m.same rfl
  have busy : call.phase.Busy := by rw [phase]; trivial
  have closes := h.closing m.at_i busy
  refine h.moveClose m.closes m.opens (fun ne hk => h.closing_alone m.at_i busy ne hk)
    (fun hk => h.not_busy_open hk (by simp [closes])) (fun busy => busy.elim) (by simp) ?_ nofun
      nofun
    ?_ ?_
  · intro owner x n eq
    rw [entry] at eq
    cases eq
  · intro x r hr
    rw [runtimes] at hr
    rcases h.status hr with ⟨closed, settled⟩ | held
    · exact .inl ⟨closed, (same x).settled settled⟩
    · rcases h.held_by m.at_i busy held with eq | eq <;> rw [phase] at eq <;> cases eq
  · intro x le
    rw [runtimes] at le
    rw [(same x).opens, (same x).closes]
    exact h.fresh le

lemma step (h : Good d) (st : Step name d e d') : Good d' := by
  cases st with
  | @openCalled owner =>
    refine h.neutral rfl rfl (get_concat_iff (p := fun c : OpenCall => c.phase.Busy) id)
      (fun _ => Iff.rfl) ?_ ?_ h.unreleased
    · intro r
      exact ⟨by simp [Desk.opensOf, OpenPhase.gave], rfl⟩
    · intro owner' r owned
      refine ⟨?_, owned.closes⟩
      intro c mem gave
      rcases List.mem_append.1 mem with mem | mem
      · exact owned.opens c mem gave
      · cases List.mem_singleton.1 mem
        cases gave
  | @joined i call runtime n hi phase entry => exact h.join ⟨hi, rfl, rfl⟩ phase entry rfl rfl
  | @busy i call hi phase =>
    have m : OpenMoves d (d.setOpen i call (.returned (fail (.exportBusy name)))) i call
        (.returned (fail (.exportBusy name))) := ⟨hi, rfl, rfl⟩
    refine h.neutral rfl rfl (get_set_iff (p := fun c => c.phase.Busy) hi (by rw [phase]; exact id)
      id)
      (fun _ => Iff.rfl) (fun r => m.same (by rw [phase]; rfl) rfl) ?_ h.unreleased
    intro owner' r owned
    refine ⟨?_, owned.closes⟩
    intro c mem gave
    rcases List.mem_or_eq_of_mem_set mem with mem | rfl
    · exact owned.opens c mem gave
    · cases gave
  | @begins i call hi phase entry =>
    refine h.openMove ⟨hi, rfl, rfl⟩ (fun _ hk => h.not_busy_open hk (by simp [entry]))
      (fun hk => h.not_busy_close hk (by simp [entry])) (h.not_held entry) ?_ (fun _ => rfl) rfl
      (fun _ => rfl) (by simp) (by simp)
    intro r
    rw [phase]
    rfl
  | @createdRuntime i call hi phase => exact h.create ⟨hi, rfl, rfl⟩ phase rfl rfl
  | @createFailed i call error hi phase =>
    have busy : call.phase.Busy := by rw [phase]; trivial
    have opening := h.opening hi busy
    refine h.openMove ⟨hi, rfl, rfl⟩ (fun ne hk busy' => ne (h.oneOpen hi hk busy busy'))
      (fun hk => h.not_busy_close hk (by simp [opening]))
      (h.not_held_opening hi busy (by simp [phase])) ?_ (fun _ => rfl) rfl (fun _ => opening) ?_
        (by simp)
    · intro r
      rw [phase]
      rfl
    · intro owner runtime n eq
      rw [show (d.setOpen i call (.failed error)).entry = d.entry from rfl, opening] at eq
      cases eq
  | @installed i call runtime hi phase => exact h.install ⟨hi, rfl, rfl⟩ phase rfl rfl
  | @removed i call error hi phase =>
    have busy : call.phase.Busy := by rw [phase]; trivial
    have opening := h.opening hi busy
    refine h.openMove ⟨hi, rfl, rfl⟩ (fun ne hk busy' => ne (h.oneOpen hi hk busy busy'))
      (fun hk => h.not_busy_close hk (by simp [opening]))
      (h.not_held_opening hi busy (by simp [phase])) ?_ (fun _ => rfl) rfl (fun busy => busy.elim)
        ?_
      (by simp)
    · intro r
      rw [phase]
      rfl
    · simp [opening]
  | @closeCalled owner =>
    refine h.neutral rfl rfl (fun _ => Iff.rfl)
      (get_concat_iff (p := fun c : CloseCall => c.phase.Busy) id) ?_
      ?_ ?_
    · intro r
      exact ⟨rfl, by simp [Desk.closesOf]⟩
    · intro owner' r owned
      refine ⟨owned.opens, ?_⟩
      intro c mem released
      rcases List.mem_append.1 mem with mem | mem
      · exact owned.closes c mem released
      · cases List.mem_singleton.1 mem
        cases released
    · intro k c hk called
      rcases get_concat hk with hk | ⟨-, rfl⟩
      · exact h.unreleased hk called
      · rfl
  | @ignored i call result hi phase _ =>
    have none := h.unreleased hi phase
    have m : CloseMoves d (d.setClose i call (.returned result)) i call call.released
        (.returned result) := ⟨hi, rfl, rfl⟩
    refine h.neutral rfl rfl (fun _ => Iff.rfl)
      (get_set_iff (p := fun c => c.phase.Busy) hi (by rw [phase]; exact id) id)
      (fun r => m.same rfl) ?_ ?_
    · intro owner' r owned
      refine ⟨owned.opens, ?_⟩
      intro c mem released
      rcases List.mem_or_eq_of_mem_set mem with mem | rfl
      · exact owned.closes c mem released
      · simp [none] at released
    · intro k c hk called
      rcases get_set hk with ⟨-, rfl⟩ | ⟨-, hk⟩
      · cases called
      · exact h.unreleased hk called
  | @left i call runtime n hi phase entry => exact h.leave ⟨hi, rfl, rfl⟩ phase entry rfl rfl
  | @last i call runtime hi phase entry => exact h.last ⟨hi, rfl, rfl⟩ phase entry rfl rfl
  | @closes i call runtime hi phase =>
    obtain ⟨live, settled⟩ := h.closes hi phase
    refine h.closingMove ⟨hi, rfl, rfl⟩ (.inl phase) trivial settled
      (List.getElem?_eq_some_iff.1 live).1 rfl (modify_eq_set live _) (by simp) ?_ (.inr rfl)
    rintro x ⟨⟩
    exact ⟨rfl, rfl⟩
  | @closed i call runtime result hi phase =>
    obtain ⟨live, settled⟩ := h.awaiting hi phase
    exact h.closingMove ⟨hi, rfl, rfl⟩ (.inr phase) trivial settled
      (List.getElem?_eq_some_iff.1 live).1 rfl (modify_eq_set live _) (by simp) nofun (.inl rfl)
  | @cleaned i call runtime result hi phase =>
    have closing := h.closing hi (by rw [phase]; trivial)
    exact h.clean ⟨hi, rfl, rfl⟩ phase (if_pos closing) rfl

lemma new : Good .new := by
  constructor <;> simp [Desk.new, Desk.opensOf, Desk.closesOf]

lemma held_unique (h : Good d) {i k : Nat} (hi : d.Held i) (hk : d.Held k) : i = k := by
  cases entry : d.entry with
  | none => exact absurd hi (h.not_held entry)
  | some state =>
    cases state with
    | opening owner =>
      obtain ⟨m, c, hm, created⟩ := h.held_opening entry hi
      obtain ⟨m', c', hm', created'⟩ := h.held_opening entry hk
      obtain rfl := h.oneOpen hm hm' (by rw [created]; trivial) (by rw [created']; trivial)
      rw [hm] at hm'
      cases hm'
      rw [created] at created'
      exact OpenPhase.created.inj created'
    | opened owner runtime n => exact (h.held_opened entry hi).trans (h.held_opened entry hk).symm
    | closing owner =>
      obtain ⟨m, c, hm, phase⟩ := h.held_closing entry hi
      have busy : c.phase.Busy := by rcases phase with phase | phase <;> rw [phase] <;> trivial
      rcases h.held_by hm busy hk with phase' | phase' <;> rcases phase with phase | phase <;>
        rw [phase] at phase' <;> cases phase' <;> rfl

lemma held_of_live (h : Good d) {runtime : Nat} {r : Runtime} (hr : d.runtimes[runtime]? = some r)
    (live : r.closed = false) : d.Held runtime := by
  rcases h.status hr with ⟨rfl, -⟩ | held
  · cases live
  · exact held

lemma closeCalls (h : Good d) {runtime : Nat} {r : Runtime} (hr : d.runtimes[runtime]? = some r) :
    r.closeCalls ≤ 1 ∧ (r.closeCalls = 1 → d.Settled runtime) ∧
      (d.Settled runtime → r.closeCalls = 1 ∨
        ∃ (i : Nat) (call : CloseCall), d.closes[i]? = some call ∧
        call.phase = .closing runtime) := by
  rcases h.status hr with ⟨rfl, settled⟩ | held
  · exact ⟨le_rfl, fun _ => settled, fun _ => .inl rfl⟩
  · cases held with
    | created hi phase =>
      obtain ⟨live, noOpens, -⟩ := h.created hi phase
      rw [hr] at live
      cases live
      refine ⟨Nat.zero_le _, by simp, fun settled => ?_⟩
      have := settled.1
      omega
    | opened entry =>
      obtain ⟨live, pos, count, -⟩ := h.opened entry
      rw [hr] at live
      cases live
      refine ⟨Nat.zero_le _, by simp, fun settled => ?_⟩
      have := settled.2
      omega
    | closing hi phase =>
      obtain ⟨live, settled⟩ := h.closes hi phase
      rw [hr] at live
      cases live
      exact ⟨Nat.zero_le _, by simp, fun _ => .inr ⟨_, _, hi, phase⟩⟩
    | awaiting hi phase =>
      obtain ⟨live, settled⟩ := h.awaiting hi phase
      rw [hr] at live
      cases live
      exact ⟨le_rfl, fun _ => settled, fun _ => .inl rfl⟩

end Good

lemma Step.closing_at (st : Step name d e d') {i runtime : Nat} {call : CloseCall}
    (hi : d.closes[i]? = some call) (phase : call.phase = .closing runtime) :
    d'.closes[i]? = some call ∧ e ≠ .closeStep i ∨
      d'.closes[i]? = some { call with phase := .awaiting runtime } := by
  -- a step of another call of `close`
  have other : ∀ {k : Nat} {c new : CloseCall}, d.closes[k]? = some c → c.phase ≠ .closing runtime →
      (d.closes.set k new)[i]? = some call ∧ Event.closeStep k ≠ .closeStep i := by
    intro k c new hk ne
    have neq : k ≠ i := by
      rintro rfl
      rw [hi] at hk
      cases hk
      exact ne phase
    exact ⟨by rw [List.getElem?_set_ne neq]; exact hi, fun same => neq (Event.closeStep.inj same)⟩
  cases st with
  | closeCalled =>
    refine .inl ⟨?_, by simp⟩
    rw [List.getElem?_append_left (List.getElem?_eq_some_iff.1 hi).1]
    exact hi
  | ignored hk called _ => exact .inl (other hk (by simp [called]))
  | left hk called _ => exact .inl (other hk (by simp [called]))
  | last hk called _ => exact .inl (other hk (by simp [called]))
  | @closes k c runtime' hk closing =>
    by_cases eq : k = i
    · subst eq
      rw [hi] at hk
      cases hk
      rw [phase] at closing
      cases closing
      exact .inr (get_set_self hi _)
    · refine .inl ⟨?_, fun same => eq (Event.closeStep.inj same)⟩
      exact (List.getElem?_set_ne eq).trans hi
  | closed hk awaiting => exact .inl ⟨(other hk (by simp [awaiting])).1, by simp⟩
  | cleaned hk closed => exact .inl (other hk (by simp [closed]))
  | _ => exact .inl ⟨hi, by simp⟩

lemma good_of_reachable {w : World} (reach : system.Reachable w) (name : ExportName) :
    Good (w name) := by
  refine system.invariant (P := fun w => ∀ name, Good (w name)) ?_ ?_ reach name
  · rintro w rfl name
    exact .new
  · rintro w ⟨x, e⟩ w' good ⟨d, run, rfl⟩ name
    by_cases eq : name = x
    · subst eq
      rw [Function.update_self]
      exact (good name).step (.of_next run)
    · rw [Function.update_of_ne eq]
      exact good name

lemma closing_step {w w' : World} {ev : ExportName × Event} (reach : system.Reachable w)
    (st : system.step w ev w') {i runtime : Nat} {call : CloseCall}
    (hi : (w name).closes[i]? = some call) (phase : call.phase = .closing runtime) :
    (w' name).closes[i]? = some call ∧ ev ≠ (name, .closeStep i) ∨
      ∃ r, (w' name).runtimes[runtime]? = some r ∧ r.closeCalls = 1 := by
  have good := good_of_reachable (reach.step st) name
  obtain ⟨d, run, rfl⟩ := st
  by_cases eq : name = ev.1
  · subst eq
    rw [Function.update_self] at good ⊢
    rcases (Step.of_next run).closing_at hi phase with ⟨hi, ne⟩ | awaiting
    · exact .inl ⟨hi, fun same => ne (by rw [same])⟩
    · exact .inr ⟨_, (good.awaiting awaiting rfl).1, rfl⟩
  · rw [Function.update_of_ne eq]
    exact .inl ⟨hi, fun same => eq (by rw [same])⟩

/-- One live runtime per export. In every run of the registry, for every name: * at most one runtime
has been created whose close has not returned; * while a call of `open` creates a runtime, the close
of every earlier one has returned; * the count of an `Open` entry is at least 1 and is the number of
calls of `open` that returned its runtime minus the number of calls of `close` that gave it up, all
of them by the owner of the entry; * the close of a runtime is called at most once, and only if as
many calls gave it up as were returned it; when that is so it has been called, or the call of
`close` that calls it next is there; * a call of `open` whose creation failed leaves no entry. If
the calls of `close` go on, the close of every runtime that has been given up is called. -/
theorem one_runtime_per_export :
    (∀ w, system.Reachable w → ∀ name,
      (∀ {i k : Nat} {r r' : Runtime}, (w name).runtimes[i]? = some r → (w name).runtimes[k]? =
      some r' →
        r.closed = false → r'.closed = false → i = k) ∧
      (∀ call ∈ (w name).opens, call.phase = .creating → ∀ r ∈ (w name).runtimes, r.closed = true) ∧
      (∀ owner runtime n, (w name).entry = some (.opened owner runtime n) →
        1 ≤ n ∧ n + (w name).closesOf runtime = (w name).opensOf runtime ∧
          (w name).OwnedBy owner runtime) ∧
      (∀ (runtime : Nat) (r : Runtime), (w name).runtimes[runtime]? = some r →
        r.closeCalls ≤ 1 ∧ (r.closeCalls = 1 → (w name).Settled runtime) ∧
          ((w name).Settled runtime → r.closeCalls = 1 ∨
            ∃ (i : Nat) (call : CloseCall), (w name).closes[i]? = some call ∧
              call.phase = .closing runtime)) ∧
      ∀ (i : Nat) (call : OpenCall) (error : Fault) (w' : World), (w name).opens[i]? = some call →
        call.phase = .failed error → system.step w (name, .openStep i) w' →
        (w' name).opens[i]? = some ⟨call.owner, .returned (.error error)⟩ ∧ (w' name).entry =
        none) ∧
    ∀ t : system.Trace, (∀ name i, t.WeaklyFair (name, .closeStep i)) →
      ∀ (n : Nat) (name : ExportName) (runtime : Nat), (t.state n name).Settled runtime →
        ∃ m r, n ≤ m ∧ (t.state m name).runtimes[runtime]? = some r ∧ r.closeCalls = 1 := by
  refine ⟨?_, ?_⟩
  · intro w reach name
    have good := good_of_reachable reach name
    refine ⟨?_, ?_, ?_, fun _ _ => good.closeCalls, ?_⟩
    · intro i k r r' hi hk live live'
      exact good.held_unique (good.held_of_live hi live) (good.held_of_live hk live')
    · intro call mem creating r hr
      obtain ⟨i, hi⟩ := List.mem_iff_getElem?.1 mem
      obtain ⟨k, hk⟩ := List.mem_iff_getElem?.1 hr
      by_contra live
      rw [Bool.not_eq_true] at live
      exact good.not_held_opening hi (by rw [creating]; trivial) (by simp [creating])
        (good.held_of_live hk live)
    · intro owner runtime n entry
      exact (good.opened entry).2
    · rintro i call error w' hi phase ⟨d, run, rfl⟩
      have opening := good.opening hi (by rw [phase]; trivial)
      simp only [Desk.next, hi, Option.bind_eq_bind, Option.bind_some, Desk.openStep, phase] at run
      cases run
      rw [Function.update_self]
      exact ⟨get_set_self hi _, if_pos opening⟩
  · intro t fair n name runtime settled
    have good := good_of_reachable (t.reachable n) name
    obtain ⟨r, hr⟩ : ∃ r, (t.state n name).runtimes[runtime]? = some r := by
      cases hr : (t.state n name).runtimes[runtime]? with
      | some r => exact ⟨r, rfl⟩
      | none =>
        have none := good.fresh (List.getElem?_eq_none_iff.1 hr)
        have := settled.1
        omega
    rcases (good.closeCalls hr).2.2 settled with called | ⟨i, call, hi, phase⟩
    · exact ⟨n, r, le_rfl, hr, called⟩
    · obtain ⟨m, le, r, hr, called⟩ := t.leadsTo (fair name i)
        (P := fun w => (w name).closes[i]? = some call)
        (Q := fun w => ∃ r, (w name).runtimes[runtime]? = some r ∧ r.closeCalls = 1) (by
          intro w _ hi
          obtain ⟨d, run⟩ : ∃ d, (w name).next name (.closeStep i) = some d := by
            simp [Desk.next, hi, Desk.closeStep, phase]
          exact ⟨_, d, run, rfl⟩)
        (fun reach hi st => (closing_step reach st hi phase).imp_left And.left)
        (fun reach hi st => (closing_step reach st hi phase).resolve_left fun h => h.2 rfl) hi
      exact ⟨m, r, le, hr, called⟩

/-- An owner opens an export twice and closes it twice. -/
def openTwice : List (ExportName × Event) :=
  [(0, .openCall 1), (0, .openStep 0), (0, .created 0 (.ok ())), (0, .openStep 0), (0, .openCall 1),
    (0, .openStep 1), (0, .closeCall 1), (0, .closeStep 0), (0, .closeCall 1), (0, .closeStep 1),
    (0, .closeStep 1), (0, .runtimeClosed 1 (.ok ())), (0, .closeStep 1)]

def World.next (w : World) (e : ExportName × Event) : Option World :=
  ((w e.1).next e.1 e.2).map (Function.update w e.1)

lemma World.step_of_next {w w' : World} {e : ExportName × Event} (h : w.next e = some w') :
    system.step w e w' := by
  obtain ⟨d, run, rfl⟩ := Option.map_eq_some_iff.1 h
  exact ⟨d, run, rfl⟩

def openTwiceRun : system.Trace := .ofList World.next World.step_of_next rfl openTwice rfl

lemma openTwiceRun_fair (name : ExportName) (i : Nat) :
    openTwiceRun.WeaklyFair (name, .closeStep i) := by
  refine System.Trace.ofList_weaklyFair World.step_of_next ?_
  rintro w ⟨d, run, -⟩
  cases name with
  | zero =>
    match i with
    | 0 => cases run
    | 1 => cases run
    | _ + 2 => cases run
  | succ name => cases run

/-- After the second `open` the count is 2; the second `close` calls the close of the runtime. -/
theorem one_runtime_per_export_open_twice :
    (openTwiceRun.state 6 0).entry = some (.opened 1 0 2) ∧
      2 + (openTwiceRun.state 6 0).closesOf 0 = (openTwiceRun.state 6 0).opensOf 0 ∧
      ∃ m r, 10 ≤ m ∧ (openTwiceRun.state m 0).runtimes[0]? = some r ∧ r.closeCalls = 1 := by
  have entry : (openTwiceRun.state 6 0).entry = some (.opened 1 0 2) := rfl
  obtain ⟨safe, live⟩ := one_runtime_per_export
  obtain ⟨-, -, count, -⟩ := safe _ (openTwiceRun.reachable 6) 0
  exact ⟨entry, (count 1 0 2 entry).2.1, live openTwiceRun openTwiceRun_fair 10 0 0
    ⟨by decide, by decide⟩⟩

end NbdServer.Registry
