import NbdServer.Admission.Safety
import NbdServer.Lib.Trace
import NbdServer.Lib.Update

/-!
# Admission never strands a waiter

`Step` lists what an event can do, turn by turn of the promotion loop. From it: one left-to-right
pass of `promote_with_inner` leaves no admissible waiter in the queue (`Settled`), and in every fair
run in which permits are dropped again every waiter that is not cancelled gets its grant
(`admission_never_strands`). The second part is by induction on the ticket: the earlier tickets
leave the queue, the active operations that conflict with the waiter are released, and later
arrivals cannot overtake it.
-/

namespace NbdServer.Admission

open Lib

inductive Moves : Slot → Slot → Prop where
  | startWait {x : Slot} : x.phase = .idle → Moves x { x with phase := .awaiting }
  | receive {x : Slot} : x.phase = .awaiting → x.permit = .sent →
      Moves x { x with permit := .held, receiverOpen := false, phase := .gone }
  | dropReceiver {x : Slot} {phase : WaiterPhase} :
      x.phase = .cancelled ∧ phase = .gone ∨ x.phase = .awaiting ∧ phase = .receiverDropped →
      Moves x { x with
        receiverOpen := false
        permit := if x.permit = .sent then .held else x.permit
        phase }

/-- How the slot of a waiter changes when its drop takes it off the queue. -/
inductive Cancels : Slot → Slot → Prop where
  | idle {x : Slot} : x.phase = .idle → Cancels x { x with phase := .cancelled }
  | closed {x : Slot} : x.phase = .receiverDropped → Cancels x { x with phase := .gone }

inductive Step (w : World) : Event → World → Prop where
  | rejected {op} : Step w (.register op) w
  | registered {op} : w.lock = none →
      Step w (.register op)
        ({ w with slots := w.slots ++ [Slot.new op] }.promoteFrom (w.state.enqueue op))
  | moved {e t x y} : e ≠ .promote → w.slots[t]? = some x → Moves x y →
      Step w e { w with slots := w.slots.set t y }
  | cancelled {e t x y} : e ≠ .promote → w.lock = none → w.slots[t]? = some x → Cancels x y →
      Step w e ({ w with slots := w.slots.set t y }.promoteFrom (w.state.cancel t))
  | released {t x} : w.lock = none → w.slots[t]? = some x → x.permit = .held →
      Step w (.dropPermit t)
        ({ w with slots := w.slots.set t { x with permit := .released } }.promoteFrom
          (w.state.release t))
  | finished {i} : w.lock = some (.scan i) → w.state.waiting[i]? = none →
      Step w .promote { w with lock := none }
  | skipped {i q} : w.lock = some (.scan i) → w.state.waiting[i]? = some q →
      w.state.isAdmissible i q = false → Step w .promote { w with lock := some (.scan (i + 1)) }
  | purged {i q} : w.lock = some (.scan i) → w.state.waiting[i]? = some q →
      w.isClosed q.ticket = true →
      Step w .promote { w with
        state := { w.state with waiting := w.state.waiting.eraseIdx i }
        lock := some (.scan i) }
  | taken {i q} : w.lock = some (.scan i) → w.state.waiting[i]? = some q →
      Step w .promote { w with
        state := { w.state with waiting := w.state.waiting.eraseIdx i }
        lock := some (.send i q) }
  | undone {i q} : w.lock = some (.send i q) → w.isClosed q.ticket = true →
      Step w .promote { w with lock := some (.scan i) }
  | granted {i q y} : w.lock = some (.send i q) → w.slots[q.ticket]? = some y →
      Step w .promote { w with
        state := { w.state with active := w.state.active ++ [⟨q.ticket, q.op⟩] }
        lock := some (.scan i)
        slots := w.slots.set q.ticket { y with permit := .sent } }

lemma Inv.undo {w : World} {i : Nat} {q : WaitingAdmission} (inv : Inv w)
    (lock : w.lock = some (.send i q)) :
    (w.state.active ++ [(⟨q.ticket, q.op⟩ : ActiveAdmission)]).filter (·.ticket ≠ q.ticket) =
      w.state.active := by
  obtain ⟨y, hy, -, absent⟩ := (inv.sending lock).slot
  rw [List.filter_append, List.filter_eq_self.2]
  · simp
  · intro a ha
    obtain ⟨z, hz, -, live⟩ := inv.active a ha
    simp only [ne_eq, decide_not, Bool.not_eq_eq_eq_not, Bool.not_true, decide_eq_false_iff_not]
    rintro e
    rw [e, hy] at hz
    cases hz
    simp [Slot.Live, absent] at live

lemma Inv.step_promote {w : World} {pc : PromotePc} (inv : Inv w) (lock : w.lock = some pc) :
    Step w .promote (w.promoteStep pc) := by
  cases pc with
  | scan i =>
    cases hq : w.state.waiting[i]? with
    | none =>
      simp only [World.promoteStep, hq]
      exact .finished lock hq
    | some q =>
      simp only [World.promoteStep, hq]
      split_ifs with adm closed
      · exact .purged lock hq closed
      · exact .taken lock hq
      · exact .skipped lock hq (by simpa using adm)
  | send i q =>
    simp only [World.promoteStep]
    split_ifs with closed
    · rw [AdmissionState.release, inv.undo lock]
      exact .undone lock closed
    · obtain ⟨y, hy, -⟩ := (inv.sending lock).slot
      simp only [World.updateSlot, modify_eq_set hy]
      exact .granted lock hy

lemma Inv.step {w w' : World} {e : Event} (inv : Inv w) (st : w.next e = some w') :
    Step w e w' := by
  cases e with
  | register op =>
    simp only [World.next] at st
    split_ifs at st with locked
    split at st
    · cases st
      exact .rejected
    · cases st
      exact .registered (by simpa using locked)
  | startWait t =>
    simp only [World.next, Option.bind_eq_bind, Option.bind_eq_some_iff] at st
    obtain ⟨x, hx, st⟩ := st
    split_ifs at st with idle
    cases st
    rw [World.updateSlot, modify_eq_set hx]
    exact .moved (by simp) hx (.startWait idle)
  | receive t =>
    simp only [World.next, Option.bind_eq_bind, Option.bind_eq_some_iff] at st
    obtain ⟨x, hx, st⟩ := st
    split_ifs at st with ready
    cases st
    rw [World.updateSlot, modify_eq_set hx]
    exact .moved (by simp) hx (.receive ready.1 ready.2)
  | cancelIdle t =>
    simp only [World.next, Option.bind_eq_bind, Option.bind_eq_some_iff] at st
    obtain ⟨x, hx, st⟩ := st
    split_ifs at st with ready
    cases st
    rw [World.updateSlot, modify_eq_set hx]
    exact .cancelled (by simp) ready.1 hx (.idle ready.2)
  | dropReceiver t =>
    simp only [World.next, Option.bind_eq_bind, Option.bind_eq_some_iff] at st
    obtain ⟨x, hx, st⟩ := st
    split at st
    · rename_i phase
      cases st
      rw [World.updateSlot, modify_eq_set hx]
      exact .moved (by simp) hx (.dropReceiver (.inl ⟨phase, rfl⟩))
    · rename_i phase
      cases st
      rw [World.updateSlot, modify_eq_set hx]
      exact .moved (by simp) hx (.dropReceiver (.inr ⟨phase, rfl⟩))
    · cases st
  | cancelClosed t =>
    simp only [World.next, Option.bind_eq_bind, Option.bind_eq_some_iff] at st
    obtain ⟨x, hx, st⟩ := st
    split_ifs at st with ready
    cases st
    rw [World.updateSlot, modify_eq_set hx]
    exact .cancelled (by simp) ready.1 hx (.closed ready.2)
  | dropPermit t =>
    simp only [World.next, Option.bind_eq_bind, Option.bind_eq_some_iff] at st
    obtain ⟨x, hx, st⟩ := st
    split_ifs at st with ready
    cases st
    rw [World.updateSlot, modify_eq_set hx]
    exact .released ready.1 hx ready.2
  | promote =>
    simp only [World.next, Option.map_eq_some_iff] at st
    obtain ⟨pc, lock, rfl⟩ := st
    exact inv.step_promote lock

lemma extentBytes_of_reachable {extentBytes : Nat} {w : World}
    (h : (system extentBytes).Reachable w) :
    w.state.extentBytes = extentBytes := by
  induction h with
  | init e => exact e ▸ rfl
  | step reach run ih => cases (Inv.of_reachable reach).step run <;> exact ih

/-- A queued operation conflicts with an active one or with an earlier queued one. -/
def Blocked (w : World) (q : WaitingAdmission) : Prop :=
  (∃ a ∈ w.state.active, a.op.conflicts q.op = true) ∨
    ∃ y ∈ w.state.waiting, y.ticket < q.ticket ∧ y.op.conflicts q.op = true

def Slot.Dropped (x : Slot) : Prop := x.phase = .cancelled ∨ x.phase = .gone

/-- How much of the queue the promotion loop has passed; all of it when no loop runs. -/
def World.passed (w : World) : Nat :=
  match w.lock with
  | none => w.state.waiting.length
  | some (.scan i) => i
  | some (.send i _) => i

/-- The passed part of the queue is blocked, and no queued waiter is completely dropped. -/
structure Scanned (w : World) : Prop where
  blocked : ∀ q ∈ w.state.waiting.take w.passed, Blocked w q
  present : ∀ q ∈ w.state.waiting, ∀ y, w.slots[q.ticket]? = some y → ¬ y.Dropped

lemma Inv.blocked_of_not_admissible {w : World} {i : Nat} {q : WaitingAdmission} (inv : Inv w)
    (hq : w.state.waiting[i]? = some q) (adm : w.state.isAdmissible i q = false) : Blocked w q := by
  simp only [AdmissionState.isAdmissible, Bool.and_eq_false_iff, Bool.not_eq_eq_eq_not,
    Bool.not_false, List.any_eq_true] at adm
  rcases adm with ⟨a, ha, conflict⟩ | ⟨y, hy, conflict⟩
  · exact .inl ⟨a, ha, conflict⟩
  · obtain ⟨lt, rfl⟩ := List.getElem?_eq_some_iff.1 hq
    have sorted := inv.sorted
    rw [← List.take_append_drop i w.state.waiting, List.pairwise_append] at sorted
    refine .inr ⟨y, List.mem_of_mem_take hy, sorted.2.2 y hy _ ?_, conflict⟩
    rw [List.mem_drop_iff_getElem]
    exact ⟨0, by omega, by simp⟩

lemma Inv.blocked_erase {w : World} {i : Nat} {q : WaitingAdmission} (inv : Inv w)
    (hq : q ∈ w.state.waiting.take i) (blocked : Blocked w q) (lock : Option PromotePc) :
    Blocked { w with state := { w.state with waiting := w.state.waiting.eraseIdx i }, lock } q := by
  rcases blocked with active | ⟨y, hy, lt, conflict⟩
  · exact .inl active
  · refine .inr ⟨y, ?_, lt, conflict⟩
    have sorted := inv.sorted
    rw [← List.take_append_drop i w.state.waiting, List.pairwise_append] at sorted
    rw [← List.take_append_drop i w.state.waiting, List.mem_append] at hy
    rcases hy with hy | hy
    · exact List.mem_of_mem_take (i := i) (by rwa [List.take_eraseIdx_eq_take_of_le _ _ _ le_rfl])
    · have := sorted.2.2 q hq y hy
      omega

lemma not_dropped_of_moves {x y : Slot} (h : Moves x y) (absent : x.permit = .absent)
    (present : ¬ x.Dropped) : ¬ y.Dropped := by
  cases h with
  | startWait phase => simp [Slot.Dropped]
  | receive phase sent => simp [absent] at sent
  | dropReceiver phase =>
    rcases phase with ⟨phase, rfl⟩ | ⟨phase, rfl⟩
    · exact absurd (.inl phase) present
    · simp [Slot.Dropped]

lemma Scanned.new (extentBytes : Nat) : Scanned (.new extentBytes) := by
  constructor <;> simp [World.new, AdmissionState.new]

lemma Scanned.set_slot {w : World} {t : Nat} {x y : Slot} {queue : List WaitingAdmission}
    (scanned : Scanned w) (sub : ∀ q ∈ queue, q ∈ w.state.waiting) (hx : w.slots[t]? = some x)
    (keep : ∀ q ∈ queue, q.ticket = t → ¬ x.Dropped → ¬ y.Dropped) :
    ∀ q ∈ queue, ∀ z, (w.slots.set t y)[q.ticket]? = some z → ¬ z.Dropped := by
  intro q hq z hz
  have present := scanned.present q (sub q hq)
  rw [List.getElem?_set] at hz
  by_cases e : t = q.ticket
  · subst e
    have lt := (List.getElem?_eq_some_iff.1 hx).1
    simp only [lt, if_true, Option.some.injEq] at hz
    subst hz
    exact keep q hq rfl (present x hx)
  · rw [if_neg e] at hz
    exact present z hz

lemma Scanned.step {w w' : World} {e : Event} (inv : Inv w) (scanned : Scanned w)
    (st : Step w e w') : Scanned w' := by
  have absent : ∀ {q x}, q ∈ w.state.waiting → w.slots[q.ticket]? = some x →
      x.permit = .absent := by
    intro q x hq hx
    obtain ⟨y, hy, -, absent⟩ := inv.waiting q hq
    rw [hx] at hy
    cases hy
    exact absent
  cases st with
  | rejected => exact scanned
  | registered free =>
    refine ⟨by simp [World.promoteFrom, World.passed], ?_⟩
    intro q hq y hy
    rcases List.mem_append.1 hq with hq | hq
    · obtain ⟨z, hz, -⟩ := inv.waiting q hq
      have lt := (List.getElem?_eq_some_iff.1 hz).1
      simp only [World.promoteFrom] at hy
      rw [List.getElem?_append_left lt] at hy
      exact scanned.present q hq y hy
    · cases List.mem_singleton.1 hq
      simp only [World.promoteFrom, ← inv.length, List.getElem?_concat_length,
        Option.some.injEq] at hy
      subst hy
      simp [Slot.Dropped, Slot.new]
  | moved ne hx moves =>
    refine ⟨scanned.blocked, scanned.set_slot (fun _ hq => hq) hx ?_⟩
    rintro q hq rfl
    exact not_dropped_of_moves moves (absent hq hx)
  | cancelled ne free hx cancels =>
    refine ⟨by simp [World.promoteFrom, World.passed], ?_⟩
    refine scanned.set_slot (fun _ hq => List.mem_of_mem_filter hq) hx ?_
    intro q hq e
    simp [World.promoteFrom, AdmissionState.cancel, e] at hq
  | released free hx held =>
    refine ⟨by simp [World.promoteFrom, World.passed], scanned.set_slot (fun _ hq => hq) hx ?_⟩
    exact fun q hq e present => present
  | finished lock hq =>
    refine ⟨?_, scanned.present⟩
    have passed := scanned.blocked
    have short := List.getElem?_eq_none_iff.1 hq
    simp only [World.passed, lock] at passed
    rw [List.take_of_length_le short] at passed
    exact fun q hq => passed q (List.mem_of_mem_take hq)
  | skipped lock hq adm =>
    refine ⟨?_, scanned.present⟩
    have passed := scanned.blocked
    simp only [World.passed, lock] at passed
    intro q hq'
    simp only [World.passed, List.take_add_one, hq, Option.toList_some, List.mem_append,
      List.mem_singleton] at hq'
    rcases hq' with hq' | rfl
    · exact passed q hq'
    · exact inv.blocked_of_not_admissible hq adm
  | purged lock hq closed =>
    refine ⟨?_, fun q hq' => scanned.present q (List.mem_of_mem_eraseIdx hq')⟩
    have passed := scanned.blocked
    simp only [World.passed, lock] at passed
    intro q hq'
    simp only [World.passed, List.take_eraseIdx_eq_take_of_le _ _ _ le_rfl] at hq'
    exact inv.blocked_erase hq' (passed q hq') _
  | taken lock hq =>
    refine ⟨?_, fun q hq' => scanned.present q (List.mem_of_mem_eraseIdx hq')⟩
    have passed := scanned.blocked
    simp only [World.passed, lock] at passed
    intro q hq'
    simp only [World.passed, List.take_eraseIdx_eq_take_of_le _ _ _ le_rfl] at hq'
    exact inv.blocked_erase hq' (passed q hq') _
  | undone lock closed =>
    have passed := scanned.blocked
    simp only [World.passed, lock] at passed
    exact ⟨passed, scanned.present⟩
  | granted lock hy =>
    have passed := scanned.blocked
    simp only [World.passed, lock] at passed
    refine ⟨?_, scanned.set_slot (fun _ hq => hq) hy fun q hq e present => present⟩
    intro q hq
    rcases passed q hq with ⟨a, ha, conflict⟩ | earlier
    · exact .inl ⟨a, List.mem_append_left _ ha, conflict⟩
    · exact .inr earlier

lemma Scanned.of_reachable {extentBytes : Nat} {w : World} (h : (system extentBytes).Reachable w) :
    Scanned w := by
  induction h with
  | init e => exact e ▸ .new extentBytes
  | step reach st ih =>
    have inv := Inv.of_reachable reach
    exact ih.step inv (inv.step st)

inductive Evolves : Slot → Slot → Prop where
  | same {x} : Evolves x x
  | moved {x y} : Moves x y → Evolves x y
  | cancelled {x y} : Cancels x y → Evolves x y
  | granted {x : Slot} : x.permit = .absent → Evolves x { x with permit := .sent }
  | released {x : Slot} : x.permit = .held → Evolves x { x with permit := .released }

lemma evolves_set {w : World} {t u : Nat} {x y z : Slot} (hx : w.slots[t]? = some x)
    (change : Evolves x y) (hz : w.slots[u]? = some z) :
    ∃ z', (w.slots.set t y)[u]? = some z' ∧ Evolves z z' := by
  rw [List.getElem?_set]
  by_cases e : t = u
  · subst e
    have lt := (List.getElem?_eq_some_iff.1 hx).1
    rw [hx] at hz
    cases hz
    exact ⟨y, by simp [lt], change⟩
  · exact ⟨z, by rw [if_neg e]; exact hz, .same⟩

lemma Inv.evolves {w w' : World} {e : Event} {t : Nat} {x : Slot} (inv : Inv w) (st : Step w e w')
    (hx : w.slots[t]? = some x) : ∃ y, w'.slots[t]? = some y ∧ Evolves x y := by
  cases st with
  | rejected => exact ⟨x, hx, .same⟩
  | registered free =>
    refine ⟨x, ?_, .same⟩
    simp only [World.promoteFrom]
    rw [List.getElem?_append_left (List.getElem?_eq_some_iff.1 hx).1]
    exact hx
  | moved ne hy moves => exact evolves_set hy (.moved moves) hx
  | cancelled ne free hy cancels => exact evolves_set hy (.cancelled cancels) hx
  | released free hy held => exact evolves_set hy (.released held) hx
  | finished lock hq => exact ⟨x, hx, .same⟩
  | skipped lock hq adm => exact ⟨x, hx, .same⟩
  | purged lock hq closed => exact ⟨x, hx, .same⟩
  | taken lock hq => exact ⟨x, hx, .same⟩
  | undone lock closed => exact ⟨x, hx, .same⟩
  | granted lock hy =>
    obtain ⟨z, hz, -, absent⟩ := (inv.sending lock).slot
    rw [hy] at hz
    cases hz
    exact evolves_set hy (.granted absent) hx

namespace Evolves

variable {x y : Slot}

lemma op_eq (h : Evolves x y) : y.op = x.op := by
  cases h with
  | moved moves => cases moves <;> rfl
  | cancelled cancels => cases cancels <;> rfl
  | _ => rfl

lemma absent (h : Evolves x y) (absent : x.permit = .absent) :
    y.permit = .absent ∨ y.permit = .sent := by
  cases h with
  | same => exact .inl absent
  | moved moves =>
    cases moves with
    | startWait phase => exact .inl absent
    | receive phase sent => simp [absent] at sent
    | dropReceiver phase => simp [absent]
  | cancelled cancels =>
    cases cancels with
    | idle phase => exact .inl absent
    | closed phase => exact .inl absent
  | granted => exact .inr rfl
  | released held => simp [absent] at held

lemma granted_stays (h : Evolves x y) (granted : x.permit ≠ .absent) : y.permit ≠ .absent := by
  cases h with
  | same => exact granted
  | moved moves =>
    cases moves with
    | startWait phase => exact granted
    | receive phase sent => simp
    | dropReceiver phase =>
      show (if x.permit = .sent then PermitState.held else x.permit) ≠ .absent
      split_ifs
      · simp
      · exact granted
  | cancelled cancels =>
    cases cancels with
    | idle phase => exact granted
    | closed phase => exact granted
  | granted => simp
  | released => simp

lemma released_stays (h : Evolves x y) (released : x.permit = .released) :
    y.permit = .released := by
  cases h with
  | same => exact released
  | moved moves =>
    cases moves with
    | startWait phase => exact released
    | receive phase sent => simp [released] at sent
    | dropReceiver phase => simp [released]
  | cancelled cancels =>
    cases cancels with
    | idle phase => exact released
    | closed phase => exact released
  | granted absent => simp [released] at absent
  | released held => rfl

lemma waiter (h : Evolves x y) (waiter : y.Waiter) : x.Waiter := by
  cases h with
  | same => exact waiter
  | moved moves =>
    cases moves with
    | startWait phase => exact .inl phase
    | receive phase sent => simp [Slot.Waiter] at waiter
    | dropReceiver phase =>
      rcases phase with ⟨-, rfl⟩ | ⟨-, rfl⟩
      · simp [Slot.Waiter] at waiter
      · simp [Slot.Waiter] at waiter
  | cancelled cancels =>
    cases cancels with
    | idle phase => simp [Slot.Waiter] at waiter
    | closed phase => simp [Slot.Waiter] at waiter
  | granted => exact waiter
  | released => exact waiter

lemma waits (h : Evolves x y) (waits : y.Waits) : x.Waits :=
  ⟨h.waiter waits.1, by_contra fun granted => h.granted_stays granted waits.2⟩

end Evolves

/-- A ticket that was given out and is neither queued nor in the hand of the promotion loop. -/
structure Out (t : Nat) (w : World) : Prop where
  given : t < w.state.nextTicket
  queue : ∀ q ∈ w.state.waiting, q.ticket ≠ t
  hand : ∀ {i q}, w.lock = some (.send i q) → q.ticket ≠ t

lemma Out.step {w w' : World} {e : Event} {t : Nat} (out : Out t w) (st : Step w e w') :
    Out t w' := by
  cases st with
  | rejected => exact out
  | registered free =>
    refine ⟨Nat.lt_succ_of_lt out.given, ?_, by simp [World.promoteFrom]⟩
    intro q hq
    rcases List.mem_append.1 hq with hq | hq
    · exact out.queue q hq
    · cases List.mem_singleton.1 hq
      exact out.given.ne'
  | moved ne hx moves => exact ⟨out.given, out.queue, out.hand⟩
  | cancelled ne free hx cancels =>
    exact ⟨out.given, fun q hq => out.queue q (List.mem_of_mem_filter hq),
      by simp [World.promoteFrom]⟩
  | released free hx held => exact ⟨out.given, out.queue, by simp [World.promoteFrom]⟩
  | finished lock hq => exact ⟨out.given, out.queue, by simp⟩
  | skipped lock hq adm => exact ⟨out.given, out.queue, by simp⟩
  | purged lock hq closed =>
    exact ⟨out.given, fun q hq => out.queue q (List.mem_of_mem_eraseIdx hq), by simp⟩
  | taken lock hq =>
    refine ⟨out.given, fun q hq => out.queue q (List.mem_of_mem_eraseIdx hq), ?_⟩
    intro i q eq
    cases eq
    exact out.queue _ (List.mem_of_getElem? hq)
  | undone lock closed => exact ⟨out.given, out.queue, by simp⟩
  | granted lock hy => exact ⟨out.given, out.queue, by simp⟩

def World.turns (w : World) : Nat :=
  match w.lock with
  | none => 0
  | some (.scan i) => 2 * (w.state.waiting.length - i)
  | some (.send i _) => 2 * (w.state.waiting.length - i) + 1

lemma turns_promote {w w' : World} (st : Step w .promote w') :
    w'.lock = none ∨ w'.turns < w.turns := by
  have erase : ∀ {i q}, w.state.waiting[i]? = some q →
      i < w.state.waiting.length ∧
        (w.state.waiting.eraseIdx i).length = w.state.waiting.length - 1 := by
    intro i q hq
    have lt := (List.getElem?_eq_some_iff.1 hq).1
    exact ⟨lt, List.length_eraseIdx_of_lt lt⟩
  cases st with
  | moved ne _ _ => exact absurd rfl ne
  | cancelled ne _ _ _ => exact absurd rfl ne
  | finished lock hq => exact .inl rfl
  | skipped lock hq adm =>
    have := (erase hq).1
    simp only [World.turns, lock]
    omega
  | purged lock hq closed =>
    have := erase hq
    simp only [World.turns, lock]
    omega
  | taken lock hq =>
    have := erase hq
    simp only [World.turns, lock]
    omega
  | undone lock closed =>
    simp only [World.turns, lock]
    omega
  | granted lock hy =>
    simp only [World.turns, lock]
    omega

lemma turns_step {w w' : World} {e : Event} (locked : w.lock ≠ none) (st : Step w e w') :
    w'.lock = none ∨ w'.turns ≤ w.turns := by
  by_cases promote : e = .promote
  · subst promote
    exact (turns_promote st).imp_right le_of_lt
  cases st with
  | rejected => exact .inr le_rfl
  | registered free => exact absurd free locked
  | moved ne hx moves => exact .inr le_rfl
  | cancelled ne free hx cancels => exact absurd free locked
  | released free hx held => exact absurd free locked
  | _ => exact absurd rfl promote

section Runs

variable {extentBytes : Nat}

/-- The tasks make progress: the loop inside the mutex goes on, and a waiter that has lost its
receiver in its drop comes to its `cancel`. -/
structure Fair (r : (system extentBytes).Trace) : Prop where
  promote : ∀ n, (r.state n).lock ≠ none → ∃ m, n ≤ m ∧ r.label m = some .promote
  cancel : ∀ n t x, (r.state n).slots[t]? = some x → x.phase = .receiverDropped →
    ∃ m, n ≤ m ∧ r.label m = some (.cancelClosed t)

def PermitsDropped (r : (system extentBytes).Trace) : Prop :=
  ∀ n t x, (r.state n).slots[t]? = some x → x.Live → ∃ m, n ≤ m ∧ r.label m = some (.dropPermit t)

variable {r : (system extentBytes).Trace}

lemma inv_at (r : (system extentBytes).Trace) (n : Nat) : Inv (r.state n) :=
    .of_reachable (r.reachable n)

lemma Fair.unlocked (fair : Fair r) (n : Nat) : ∃ m, n ≤ m ∧ (r.state m).lock = none := by
  obtain ⟨m, le, free⟩ := r.eventually_of_measure (P := fun w => w.lock ≠ none) (μ := World.turns)
    fair.promote
    (fun reach _ st => (turns_promote ((Inv.of_reachable reach).step st)).imp_left not_not_intro)
    (fun reach locked st =>
      (turns_step locked ((Inv.of_reachable reach).step st)).imp_left not_not_intro) n
  exact ⟨m, le, not_not.1 free⟩

lemma slot_later {P : Slot → Prop} (keep : ∀ {x y}, Evolves x y → P x → P y) {n m t : Nat}
    {x : Slot} (hx : (r.state n).slots[t]? = some x) (px : P x) (le : n ≤ m) :
    ∃ y, (r.state m).slots[t]? = some y ∧ P y := by
  refine r.stable (P := fun w => ∃ y, w.slots[t]? = some y ∧ P y) ?_ ⟨x, hx, px⟩ le
  rintro w e w' reach ⟨y, hy, py⟩ st
  have inv := Inv.of_reachable reach
  obtain ⟨z, hz, change⟩ := inv.evolves (inv.step st) hy
  exact ⟨z, hz, keep change py⟩

lemma out_cancelClosed {w w' : World} {t : Nat} {x : Slot} (inv : Inv w)
    (hx : w.slots[t]? = some x) (st : w.next (.cancelClosed t) = some w') : Out t w' := by
  have given : t < w.state.nextTicket := by
    rw [← inv.length]
    exact (List.getElem?_eq_some_iff.1 hx).1
  simp only [World.next, hx, Option.bind_eq_bind, Option.bind_some] at st
  split_ifs at st
  cases st
  refine ⟨given, ?_, by simp [World.promoteFrom]⟩
  intro q hq
  simpa using (List.mem_filter.1 hq).2

lemma Fair.eventually_out (fair : Fair r) {n t : Nat} {x : Slot}
    (hx : (r.state n).slots[t]? = some x)
    (done : ∀ m y, n ≤ m → (r.state m).slots[t]? = some y → y.Waits →
      ∃ k z, m ≤ k ∧ (r.state k).slots[t]? = some z ∧ ¬ z.Waits) :
    ∃ m, n ≤ m ∧ Out t (r.state m) := by
  -- a time at which the ticket no longer waits
  obtain ⟨k, z, le, hz, stopped⟩ : ∃ k z, n ≤ k ∧ (r.state k).slots[t]? = some z ∧ ¬ z.Waits := by
    by_cases waits : x.Waits
    · exact done n x le_rfl hx waits
    · exact ⟨n, x, le_rfl, hx, waits⟩
  obtain ⟨m, le', free⟩ := fair.unlocked k
  obtain ⟨y, hy, stopped'⟩ := slot_later (P := fun x => ¬ x.Waits)
    (fun change no waits => no (change.waits waits)) hz stopped le'
  have inv := inv_at r m
  by_cases queued : ∃ q ∈ (r.state m).state.waiting, q.ticket = t
  · obtain ⟨q, hq, rfl⟩ := queued
    obtain ⟨y', hy', -, absent⟩ := inv.waiting q hq
    have present := (Scanned.of_reachable (r.reachable m)).present q hq y hy
    rw [hy] at hy'
    cases hy'
    have phase : y.phase = .receiverDropped := by
      have not : ¬ y.Waiter := fun waiter => stopped' ⟨waiter, absent⟩
      unfold Slot.Waiter at not
      unfold Slot.Dropped at present
      cases phase : y.phase <;> simp_all
    obtain ⟨j, le'', label⟩ := fair.cancel m q.ticket y hy phase
    obtain ⟨v, hv, -⟩ := slot_later (P := fun _ => True) (fun _ _ => trivial) hy trivial le''
    exact ⟨j + 1, by omega, out_cancelClosed (inv_at r j) hv (r.step label)⟩
  · refine ⟨m, by omega, ?_, fun q hq e => queued ⟨q, hq, e⟩, by simp [free]⟩
    rw [← inv.length]
    exact (List.getElem?_eq_some_iff.1 hy).1

def Released (t : Nat) (w : World) : Prop := ∃ x, w.slots[t]? = some x ∧ x.permit = .released

lemma PermitsDropped.eventually_released (dropped : PermitsDropped r) {n : Nat}
    {a : ActiveAdmission} (ha : a ∈ (r.state n).state.active) :
    ∃ m, n ≤ m ∧ Released a.ticket (r.state m) := by
  obtain ⟨x, hx, -, live⟩ := (inv_at r n).active a ha
  obtain ⟨m, le, label⟩ := dropped n a.ticket x hx live
  refine ⟨m + 1, by omega, ?_⟩
  have st : (r.state m).next (.dropPermit a.ticket) = some (r.state (m + 1)) := r.step label
  simp only [World.next, Option.bind_eq_bind, Option.bind_eq_some_iff] at st
  obtain ⟨y, hy, st⟩ := st
  split_ifs at st
  rw [← Option.some.inj st]
  exact ⟨{ y with permit := .released }, by simp [World.promoteFrom, World.updateSlot, hy], rfl⟩

/-- While a waiter is in the queue and no earlier ticket is left, the active operations that
conflict with it are those that were active before. -/
lemma conflicts_old {n t : Nat} {op : AdmissionOp}
    (waits : ∀ m, n ≤ m → ∃ y, (r.state m).slots[t]? = some y ∧ y.op = op ∧ y.Waits)
    (out : ∀ u < t, Out u (r.state n)) {m : Nat} (le : n ≤ m) :
    ∀ a ∈ (r.state m).state.active, a.op.conflicts op = true → a ∈ (r.state n).state.active := by
  induction m, le using Nat.le_induction with
  | base => exact fun a ha _ => ha
  | succ m le ih =>
    intro a ha conflict
    cases label : r.label m with
    | none =>
      rw [r.idle label] at ha
      exact ih a ha conflict
    | some e =>
      by_cases before : a ∈ (r.state m).state.active
      · exact ih a before conflict
      -- a grant after `n`: not to an earlier ticket, not past the waiter, and not to the waiter
      -- itself
      obtain ⟨i, lock⟩ := active_of_next (r.step label) before ha
      have inv := inv_at r m
      obtain ⟨y, hy, rfl, wait⟩ := waits m le
      rcases lt_trichotomy a.ticket t with lt | eq | gt
      · have later := r.stable (P := Out a.ticket)
          (fun reach o st => o.step ((Inv.of_reachable reach).step st)) (out a.ticket lt) le
        exact absurd rfl (later.hand lock)
      · obtain ⟨z, hz, -, waits'⟩ := waits (m + 1) (by omega)
        obtain ⟨z', hz', -, live⟩ := (inv_at r (m + 1)).active a ha
        rw [eq, hz] at hz'
        cases hz'
        simp [Slot.Live, waits'.2] at live
      · rcases inv.queued hy wait with queued | ⟨j, hand⟩
        · have no := (inv.sending lock).earlier _ queued gt
          simp only [AdmissionOp.conflicts_comm y.op, conflict] at no
          cases no
        · simp only [lock, Option.some.injEq, PromotePc.send.injEq,
            WaitingAdmission.mk.injEq] at hand
          exact absurd hand.2.1 gt.ne'

lemma Fair.stops_waiting (fair : Fair r) (dropped : PermitsDropped r) (t : Nat) :
    ∀ n x, (r.state n).slots[t]? = some x → x.Waits →
      ∃ m y, n ≤ m ∧ (r.state m).slots[t]? = some y ∧ ¬ y.Waits := by
  induction t using Nat.strong_induction_on with
  | _ t ih =>
    intro n x hx waiting
    by_contra forever
    push Not at forever
    have waits : ∀ m, n ≤ m → ∃ y, (r.state m).slots[t]? = some y ∧ y.op = x.op ∧ y.Waits := by
      intro m le
      obtain ⟨y, hy, op⟩ := slot_later (P := fun y => y.op = x.op)
        (fun change eq => change.op_eq.trans eq) hx rfl le
      exact ⟨y, hy, op, forever m y le hy⟩
    -- the earlier tickets leave the queue
    obtain ⟨k, le, out⟩ : ∃ k, n ≤ k ∧ ∀ u ∈ List.range t, Out u (r.state k) := by
      refine r.eventually_all (fun reach o st => o.step ((Inv.of_reachable reach).step st)) _ ?_
      intro u hu
      have lt := List.mem_range.1 hu
      have short := (List.getElem?_eq_some_iff.1 hx).1
      refine fair.eventually_out (List.getElem?_eq_getElem (lt.trans short)) ?_
      exact fun m y _ hy wait => ih u lt m y hy wait
    -- the operations that are active then are released
    obtain ⟨j, le', released⟩ : ∃ j, k ≤ j ∧
        ∀ a ∈ (r.state k).state.active, Released a.ticket (r.state j) := by
      refine r.eventually_all (P := fun a => Released a.ticket) ?_ _
        fun a ha => dropped.eventually_released ha
      rintro a w e w' reach ⟨y, hy, rel⟩ st
      have inv := Inv.of_reachable reach
      obtain ⟨z, hz, change⟩ := inv.evolves (inv.step st) hy
      exact ⟨z, hz, change.released_stays rel⟩
    obtain ⟨m, le'', free⟩ := fair.unlocked j
    have inv := inv_at r m
    obtain ⟨y, hy, op, wait⟩ := waits m (by omega)
    have queued : ⟨t, y.op⟩ ∈ (r.state m).state.waiting := by
      rcases inv.queued hy wait with queued | ⟨i, hand⟩
      · exact queued
      · simp [free] at hand
    have blocked := (Scanned.of_reachable (r.reachable m)).blocked ⟨t, y.op⟩
      (by simpa [World.passed, free] using queued)
    rcases blocked with ⟨a, ha, conflict⟩ | ⟨q, hq, lt, -⟩
    · have old := conflicts_old (fun i hi => waits i (le.trans hi))
        (fun u hu => out u (List.mem_range.2 hu)) (le'.trans le'') a ha (op ▸ conflict)
      obtain ⟨z, hz, rel⟩ := released a old
      obtain ⟨v, hv, rel'⟩ := slot_later (P := fun x => x.permit = .released)
        (fun change => change.released_stays) hz rel le''
      obtain ⟨v', hv', -, live⟩ := inv.active a ha
      rw [hv] at hv'
      cases hv'
      simp [Slot.Live, rel'] at live
    · have later := r.stable (P := Out q.ticket)
        (fun reach o st => o.step ((Inv.of_reachable reach).step st))
        (out q.ticket (List.mem_range.2 lt)) (le'.trans le'')
      exact absurd rfl (later.queue q hq)

end Runs

/-- Admission never strands a waiter. When the mutex is free, no queued operation is admissible, and
every live waiter is queued and conflicts with an active operation or with an earlier queued one
whose drop is not complete. In every run whose tasks make progress and whose permits are all dropped
eventually, a live waiter that is not cancelled is granted. -/
theorem admission_never_strands (extentBytes : Nat) :
    (∀ w, (system extentBytes).Reachable w → w.lock = none →
      (∀ i q, w.state.waiting[i]? = some q → w.state.isAdmissible i q = false) ∧
      ∀ t x, w.slots[t]? = some x → x.Waits →
        (∃ a ∈ w.state.active, a.op.conflicts x.op = true) ∨
        ∃ u y, u < t ∧ w.slots[u]? = some y ∧ ⟨u, y.op⟩ ∈ w.state.waiting ∧ ¬ y.Dropped ∧
          y.op.conflicts x.op = true) ∧
    ∀ r : (system extentBytes).Trace, Fair r → PermitsDropped r →
      ∀ (n t : Nat) (x : Slot), (r.state n).slots[t]? = some x → x.Waits →
        (∀ (m : Nat) (y : Slot), n ≤ m → (r.state m).slots[t]? = some y → y.permit = .absent →
        y.Waiter) →
        ∃ (m : Nat) (y : Slot), n ≤ m ∧ (r.state m).slots[t]? = some y ∧ y.permit = .sent := by
  refine ⟨?_, ?_⟩
  · intro w reach free
    have inv := Inv.of_reachable reach
    have scanned := Scanned.of_reachable reach
    have blocked : ∀ q ∈ w.state.waiting, Blocked w q := by
      intro q hq
      exact scanned.blocked q (by simpa [World.passed, free] using hq)
    refine ⟨?_, ?_⟩
    · intro i q hq
      by_contra adm
      obtain ⟨mem, -, -, earlier⟩ := inv.split hq
      simp only [Bool.not_eq_false, AdmissionState.isAdmissible, Bool.and_eq_true,
        Bool.not_eq_eq_eq_not, Bool.not_true, List.any_eq_false] at adm
      rcases blocked q mem with ⟨a, ha, conflict⟩ | ⟨y, hy, lt, conflict⟩
      · exact adm.1 a ha conflict
      · exact adm.2 y (earlier y hy lt) conflict
    · intro t x hx waits
      rcases inv.queued hx waits with queued | ⟨i, hand⟩
      · rcases blocked _ queued with active | ⟨q, hq, lt, conflict⟩
        · exact .inl active
        · obtain ⟨y, hy, op, -⟩ := inv.waiting q hq
          refine .inr ⟨q.ticket, y, lt, hy, by rw [op]; exact hq, scanned.present q hq y hy, ?_⟩
          rw [op]
          exact conflict
      · simp [free] at hand
  · intro r fair dropped n t x hx waits uncancelled
    obtain ⟨m, y, le, hy, stopped⟩ := fair.stops_waiting dropped t n x hx waits
    have lasting := r.lasts (P := fun w => ∃ z, w.slots[t]? = some z ∧ z.permit = .absent)
      (Q := fun w => ∃ z, w.slots[t]? = some z ∧ z.permit = .sent) (by
        rintro w e w' reach ⟨z, hz, absent⟩ st
        have inv := Inv.of_reachable reach
        obtain ⟨z', hz', change⟩ := inv.evolves (inv.step st) hz
        exact (change.absent absent).imp (fun h => ⟨z', hz', h⟩) fun h => ⟨z', hz', h⟩)
      ⟨x, hx, waits.2⟩ le
    rcases lasting with ⟨z, hz, absent⟩ | ⟨k, lo, -, z, hz, sent⟩
    · rw [hy] at hz
      cases hz
      exact absurd ⟨uncancelled m y le hy absent, absent⟩ stopped
    · exact ⟨k, z, lo, hz, sent⟩

instance (x : Slot) : Decidable x.Waiter := inferInstanceAs (Decidable (_ ∨ _))

/-- Two conflicting writes: the second waits until the permit of the first is dropped. -/
def secondWrite : List Event :=
  [.register (.write (.new 0 4096)), .promote, .promote, .promote, .startWait 0,
    .register (.write (.new 2048 4096)), .promote, .promote, .receive 0, .dropPermit 0, .promote,
    .promote, .promote, .startWait 1, .receive 1, .dropPermit 1, .promote]

def secondWriteRun : (system 8192).Trace :=
  .ofList World.next (fun h => h) rfl secondWrite (by decide)

lemma secondWriteRun_slots (n : Nat) : (secondWriteRun.state n).slots.length ≤ 2 :=
  System.Trace.ofList_all (P := fun w : World => w.slots.length ≤ 2) (by decide) n

lemma secondWriteRun_fair : Fair secondWriteRun where
  promote n locked :=
    System.Trace.ofList_fair (P := fun w : World => w.lock ≠ none) (by decide) (by decide) n locked
  cancel n t x hx phase := by
    have none : ∀ x ∈ (secondWriteRun.state n).slots, x.phase ≠ .receiverDropped :=
      System.Trace.ofList_all
        (P := fun w : World => ∀ x ∈ w.slots, x.phase ≠ .receiverDropped) (by decide) n
    exact absurd phase (none x (List.mem_of_getElem? hx))

lemma secondWriteRun_dropped : PermitsDropped secondWriteRun := by
  intro n t x hx live
  have lt := (List.getElem?_eq_some_iff.1 hx).1
  have two := secondWriteRun_slots n
  have due : ∃ x ∈ (secondWriteRun.state n).slots[t]?, x.Live := ⟨x, hx, live⟩
  have cases : t = 0 ∨ t = 1 := by omega
  rcases cases with rfl | rfl
  · exact System.Trace.ofList_fair (P := fun w : World => ∃ x ∈ w.slots[0]?, x.Live) (by decide)
      (by decide) n due
  · exact System.Trace.ofList_fair (P := fun w : World => ∃ x ∈ w.slots[1]?, x.Live) (by decide)
      (by decide) n due

/-- The second write waits behind the first at time 8 and is granted. -/
theorem admission_never_strands_second_write :
    (∃ x, (secondWriteRun.state 8).slots[1]? = some x ∧ x.Waits) ∧
      ∃ m y, 8 ≤ m ∧ (secondWriteRun.state m).slots[1]? = some y ∧ y.permit = .sent := by
  have waits : (⟨.write (.new 2048 4096), true, .absent, .idle⟩ : Slot).Waits := ⟨.inl rfl, rfl⟩
  have hx : (secondWriteRun.state 8).slots[1]? = some ⟨.write (.new 2048 4096), true, .absent,
      .idle⟩ := by
    decide
  have uncancelled : ∀ (m : Nat) (y : Slot), 8 ≤ m → (secondWriteRun.state m).slots[1]? = some y →
      y.permit = .absent → y.Waiter := by
    intro m y _ hy
    exact System.Trace.ofList_all
      (P := fun w : World => ∀ y ∈ w.slots[1]?, y.permit = .absent → y.Waiter) (by decide) m y hy
  exact ⟨⟨_, hx, waits⟩, (admission_never_strands 8192).2 secondWriteRun secondWriteRun_fair
    secondWriteRun_dropped 8 1 _ hx waits uncancelled⟩

end NbdServer.Admission
