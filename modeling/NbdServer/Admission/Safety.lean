import NbdServer.Admission.Model

/-!
# Admission safety

The invariant `Inv` of the admission controller and its preservation by every event. The active
operations never conflict with each other and are the ones with a live permit; the queue is ordered
by ticket and holds every operation that still waits, save the one the promotion loop has in hand.

`admission_exclusion` collects what holds in every reachable state, and of every step from one: an
operation becomes active only when no earlier conflicting one waits or is active.
-/

namespace NbdServer.Admission

open Lib

/-- What the promotion loop knows of the waiter `x` it has removed and is about to grant. -/
structure Sending (w : World) (x : WaitingAdmission) : Prop where
  slot : ∃ y, w.slots[x.ticket]? = some y ∧ y.op = x.op ∧ y.permit = .absent
  unqueued : ∀ y ∈ w.state.waiting, y.ticket ≠ x.ticket
  active : ∀ a ∈ w.state.active, a.op.conflicts x.op = false
  earlier : ∀ y ∈ w.state.waiting, y.ticket < x.ticket → y.op.conflicts x.op = false

structure Inv (w : World) : Prop where
  length : w.slots.length = w.state.nextTicket
  sorted : w.state.waiting.Pairwise (·.ticket < ·.ticket)
  waiting : ∀ x ∈ w.state.waiting,
    ∃ y, w.slots[x.ticket]? = some y ∧ y.op = x.op ∧ y.permit = .absent
  active : ∀ a ∈ w.state.active, ∃ y, w.slots[a.ticket]? = some y ∧ y.op = a.op ∧ y.Live
  live : ∀ {t y}, w.slots[t]? = some y → y.Live → ⟨t, y.op⟩ ∈ w.state.active
  exclusive : w.state.active.Pairwise fun a b => a.op.conflicts b.op = false
  distinct : w.state.active.Pairwise (·.ticket ≠ ·.ticket)
  queued : ∀ {t y}, w.slots[t]? = some y → y.Waits →
    ⟨t, y.op⟩ ∈ w.state.waiting ∨ ∃ i, w.lock = some (.send i ⟨t, y.op⟩)
  receiver : ∀ {t : Nat} {y : Slot}, w.slots[t]? = some y → y.Waiter → y.receiverOpen = true
  sending : ∀ {i x}, w.lock = some (.send i x) → Sending w x

lemma Inv.new (extentBytes : Nat) : Inv (.new extentBytes) := by
  constructor <;> simp [World.new, AdmissionState.new]

/-- A slot update that keeps the operation, the liveness of the permit and whether it was granted,
and leaves no waiter without its receiver, keeps the invariant. -/
lemma Inv.updateSlot {w : World} {t : Nat} {f : Slot → Slot} (inv : Inv w)
    (op : ∀ x, (f x).op = x.op)
    (live : ∀ {x}, w.slots[t]? = some x → ((f x).Live ↔ x.Live))
    (absent : ∀ {x}, w.slots[t]? = some x → x.permit = .absent → (f x).permit = .absent)
    (waits : ∀ {x}, w.slots[t]? = some x → (f x).Waits → x.Waits)
    (receiver : ∀ {x}, w.slots[t]? = some x → (f x).Waiter →
      (f x).receiverOpen = x.receiverOpen ∧ x.Waiter) :
    Inv (w.updateSlot t f) := by
  -- the slots before and after differ at `t` only
  have slot : ∀ {u y}, (w.updateSlot t f).slots[u]? = some y →
      ∃ x, w.slots[u]? = some x ∧ y = if t = u then f x else x := by
    intro u y h
    simp only [World.updateSlot, List.getElem?_modify] at h
    cases hx : w.slots[u]? with
    | none => simp [hx] at h
    | some x =>
      refine ⟨x, rfl, ?_⟩
      split_ifs with e <;> simp_all
  have keep : ∀ {u x}, w.slots[u]? = some x →
      (w.updateSlot t f).slots[u]? = some (if t = u then f x else x) := by
    intro u x h
    simp only [World.updateSlot, List.getElem?_modify, h]
    split_ifs <;> rfl
  have ungranted : ∀ {u : Nat} {o : AdmissionOp},
      (∃ y, w.slots[u]? = some y ∧ y.op = o ∧ y.permit = .absent) →
      ∃ y, (w.updateSlot t f).slots[u]? = some y ∧ y.op = o ∧ y.permit = .absent := by
    rintro u o ⟨y, hy, rfl, hp⟩
    refine ⟨_, keep hy, ?_, ?_⟩
    · split_ifs <;> simp [op]
    · split_ifs with e
      · subst e
        exact absent hy hp
      · exact hp
  constructor
  case length => simpa [World.updateSlot] using inv.length
  case sorted => exact inv.sorted
  case waiting => exact fun x hx => ungranted (inv.waiting x hx)
  case active =>
    intro a ha
    obtain ⟨y, hy, ho, hl⟩ := inv.active a ha
    refine ⟨_, keep hy, ?_, ?_⟩
    · split_ifs <;> simp [op, ho]
    · split_ifs with e
      · subst e
        exact (live hy).2 hl
      · exact hl
  case live =>
    intro u y hy hl
    obtain ⟨x, hx, rfl⟩ := slot hy
    split_ifs at hl ⊢ with e
    · subst e
      rw [op]
      exact inv.live hx ((live hx).1 hl)
    · exact inv.live hx hl
  case exclusive => exact inv.exclusive
  case distinct => exact inv.distinct
  case queued =>
    intro u y hy hw
    obtain ⟨x, hx, rfl⟩ := slot hy
    split_ifs at hw ⊢ with e
    · subst e
      rw [op]
      exact inv.queued hx (waits hx hw)
    · exact inv.queued hx hw
  case receiver =>
    intro u y hy hw
    obtain ⟨x, hx, rfl⟩ := slot hy
    split_ifs at hw ⊢ with e
    · subst e
      obtain ⟨same, hw'⟩ := receiver hx hw
      rw [same]
      exact inv.receiver hx hw'
    · exact inv.receiver hx hw
  case sending =>
    intro i x hx
    have snd := inv.sending hx
    exact ⟨ungranted snd.slot, snd.unqueued, snd.active, snd.earlier⟩

lemma Inv.register {w : World} {op : AdmissionOp} (inv : Inv w) (free : w.lock = none) :
    Inv ({ w with slots := w.slots ++ [Slot.new op] }.promoteFrom
      (w.state.enqueue op)) := by
  have old : ∀ {u : Nat} {y : Slot}, w.slots[u]? = some y →
      (w.slots ++ [Slot.new op])[u]? = some y := by
    intro u y h
    rw [List.getElem?_append_left]
    · exact h
    · exact (List.getElem?_eq_some_iff.1 h).1
  have slot : ∀ {u : Nat} {y : Slot}, (w.slots ++ [Slot.new op])[u]? = some y →
      w.slots[u]? = some y ∨ u = w.state.nextTicket ∧ y = Slot.new op := by
    intro u y h
    rw [← inv.length]
    by_cases hu : u < w.slots.length
    · rw [List.getElem?_append_left hu] at h
      exact .inl h
    · rw [List.getElem?_append_right (by omega)] at h
      right
      have := (List.getElem?_eq_some_iff.1 h).1
      simp only [List.length_singleton] at this
      have e : u = w.slots.length := by omega
      subst e
      simp at h
      exact ⟨rfl, h.symm⟩
  constructor
  case length => simp [World.promoteFrom, AdmissionState.enqueue, inv.length]
  case sorted =>
    simp only [World.promoteFrom, AdmissionState.enqueue, List.pairwise_append]
    refine ⟨inv.sorted, by simp, ?_⟩
    intro x hx y hy
    obtain ⟨z, hz, _, _⟩ := inv.waiting x hx
    have := (List.getElem?_eq_some_iff.1 hz).1
    rw [inv.length] at this
    simp only [List.mem_singleton] at hy
    subst hy
    exact this
  case waiting =>
    intro x hx
    simp only [World.promoteFrom, AdmissionState.enqueue, List.mem_append,
      List.mem_singleton] at hx ⊢
    rcases hx with hx | rfl
    · obtain ⟨y, hy, ho, hp⟩ := inv.waiting x hx
      exact ⟨y, old hy, ho, hp⟩
    · refine ⟨.new op, ?_, rfl, rfl⟩
      simp [← inv.length]
  case active =>
    intro a ha
    obtain ⟨y, hy, ho, hl⟩ := inv.active a ha
    exact ⟨y, old hy, ho, hl⟩
  case live =>
    intro t y hy hl
    rcases slot hy with hy | ⟨rfl, rfl⟩
    · exact inv.live hy hl
    · simp [Slot.Live, Slot.new] at hl
  case exclusive => exact inv.exclusive
  case distinct => exact inv.distinct
  case queued =>
    intro t y hy hw
    left
    simp only [World.promoteFrom, AdmissionState.enqueue, List.mem_append, List.mem_singleton]
    rcases slot hy with hy | ⟨rfl, rfl⟩
    · rcases inv.queued hy hw with h | ⟨i, h⟩
      · exact .inl h
      · simp [free] at h
    · exact .inr rfl
  case receiver =>
    intro t y hy hw
    rcases slot hy with hy | ⟨rfl, rfl⟩
    · exact inv.receiver hy hw
    · rfl
  case sending => simp [World.promoteFrom]

lemma Inv.cancel {w : World} {t : Nat} (inv : Inv w) (free : w.lock = none)
    (dropped : ∀ {x}, w.slots[t]? = some x → ¬ x.Waits) :
    Inv (w.promoteFrom (w.state.cancel t)) := by
  constructor
  case length => exact inv.length
  case sorted => exact inv.sorted.filter _
  case waiting => exact fun x hx => inv.waiting x (List.mem_of_mem_filter hx)
  case active => exact inv.active
  case live => exact inv.live
  case exclusive => exact inv.exclusive
  case distinct => exact inv.distinct
  case queued =>
    intro u y hy hw
    left
    simp only [World.promoteFrom, AdmissionState.cancel, List.mem_filter, ne_eq, decide_not,
      Bool.not_eq_eq_eq_not, Bool.not_true, decide_eq_false_iff_not]
    refine ⟨?_, ?_⟩
    · rcases inv.queued hy hw with h | ⟨i, h⟩
      · exact h
      · simp [free] at h
    · rintro rfl
      exact dropped hy hw
  case receiver => exact inv.receiver
  case sending => simp [World.promoteFrom]

lemma Inv.release {w : World} {t : Nat} {x : Slot} (inv : Inv w) (free : w.lock = none)
    (hx : w.slots[t]? = some x) (held : x.permit = .held) :
    Inv ((w.updateSlot t ({ · with permit := .released })).promoteFrom (w.state.release t)) := by
  have same : ∀ {u : Nat}, u ≠ t →
      (w.slots.modify t ({ · with permit := .released }))[u]? = w.slots[u]? := by
    intro u hu
    simp [Ne.symm hu]
  have at_t : (w.slots.modify t ({ · with permit := .released }))[t]?
      = some { x with permit := .released } := by
    simp [hx]
  constructor
  case length =>
    simpa [World.promoteFrom, World.updateSlot, AdmissionState.release] using inv.length
  case sorted => exact inv.sorted
  case waiting =>
    intro z hz
    obtain ⟨y, hy, ho, hp⟩ := inv.waiting z hz
    refine ⟨y, ?_, ho, hp⟩
    simp only [World.promoteFrom, World.updateSlot]
    rw [same]
    · exact hy
    · rintro e
      rw [e, hx] at hy
      cases hy
      simp [held] at hp
  case active =>
    intro a ha
    simp only [World.promoteFrom, AdmissionState.release, List.mem_filter, ne_eq, decide_not,
      Bool.not_eq_eq_eq_not, Bool.not_true, decide_eq_false_iff_not] at ha
    obtain ⟨y, hy, ho, hl⟩ := inv.active a ha.1
    refine ⟨y, ?_, ho, hl⟩
    simp only [World.promoteFrom, World.updateSlot]
    rw [same ha.2]
    exact hy
  case live =>
    intro u y hy hl
    simp only [World.promoteFrom, World.updateSlot, AdmissionState.release, List.mem_filter, ne_eq,
      decide_not, Bool.not_eq_eq_eq_not, Bool.not_true, decide_eq_false_iff_not] at hy ⊢
    by_cases e : u = t
    · subst e
      rw [at_t] at hy
      cases hy
      simp [Slot.Live] at hl
    · rw [same e] at hy
      exact ⟨inv.live hy hl, e⟩
  case exclusive => exact inv.exclusive.filter _
  case distinct => exact inv.distinct.filter _
  case queued =>
    intro u y hy hw
    simp only [World.promoteFrom, World.updateSlot, AdmissionState.release] at hy ⊢
    by_cases e : u = t
    · subst e
      rw [at_t] at hy
      cases hy
      simp [Slot.Waits] at hw
    · rw [same e] at hy
      rcases inv.queued hy hw with h | ⟨i, h⟩
      · exact .inl h
      · simp [free] at h
  case receiver =>
    intro u y hy hw
    simp only [World.promoteFrom, World.updateSlot] at hy
    by_cases e : u = t
    · subst e
      rw [at_t] at hy
      cases hy
      exact inv.receiver (y := x) hx hw
    · rw [same e] at hy
      exact inv.receiver hy hw
  case sending => simp [World.promoteFrom]

lemma Inv.split {w : World} {i : Nat} {x : WaitingAdmission} (inv : Inv w)
    (hx : w.state.waiting[i]? = some x) :
    x ∈ w.state.waiting ∧
      (∀ y ∈ w.state.waiting.eraseIdx i, y ∈ w.state.waiting ∧ y.ticket ≠ x.ticket) ∧
      (∀ y ∈ w.state.waiting, y ≠ x → y ∈ w.state.waiting.eraseIdx i) ∧
      (∀ y ∈ w.state.waiting, y.ticket < x.ticket → y ∈ w.state.waiting.take i) := by
  obtain ⟨hi, rfl⟩ := List.getElem?_eq_some_iff.1 hx
  have eq : w.state.waiting =
      w.state.waiting.take i ++ w.state.waiting[i] :: w.state.waiting.drop (i + 1) := by simp
  have srt := inv.sorted
  rw [eq, List.pairwise_append, List.pairwise_cons] at srt
  obtain ⟨_, ⟨after, _⟩, before⟩ := srt
  rw [List.eraseIdx_eq_take_drop_succ]
  refine ⟨List.getElem_mem hi, ?_, ?_, ?_⟩
  · intro y hy
    rcases List.mem_append.1 hy with hy | hy
    · have := before y hy _ (List.mem_cons_self ..)
      exact ⟨List.mem_of_mem_take hy, by omega⟩
    · have := after y hy
      exact ⟨List.mem_of_mem_drop hy, by omega⟩
  · intro y hy ne
    rw [eq] at hy
    simp only [List.mem_append, List.mem_cons] at hy ⊢
    tauto
  · intro y hy lt
    rw [eq] at hy
    simp only [List.mem_append, List.mem_cons] at hy
    rcases hy with hy | rfl | hy
    · exact hy
    · omega
    · have := after y hy
      omega

lemma Inv.scan {w : World} {pc : Option PromotePc} (inv : Inv w)
    (idle : ∀ i x, w.lock ≠ some (.send i x)) (pc_idle : ∀ i x, pc ≠ some (.send i x)) :
    Inv { w with lock := pc } := by
  refine { inv with queued := ?_, sending := ?_ }
  · intro t y hy hw
    rcases inv.queued hy hw with h | ⟨i, h⟩
    · exact .inl h
    · exact absurd h (idle i _)
  · intro i x h
    exact absurd h (pc_idle i x)

/-- Removing an admissible waiter keeps the invariant: dropped if its receiver is gone, in hand
otherwise. -/
lemma Inv.remove {w : World} {i j : Nat} {x : WaitingAdmission} (inv : Inv w)
    (lock : w.lock = some (.scan j)) (hx : w.state.waiting[i]? = some x)
    (adm : w.state.isAdmissible i x = true) :
    Inv { w with
      state := { w.state with waiting := w.state.waiting.eraseIdx i }
      lock := some (if w.isClosed x.ticket then .scan i else .send i x) } := by
  obtain ⟨mem, rest, keep, earlier⟩ := inv.split hx
  constructor
  case length => exact inv.length
  case sorted => exact inv.sorted.sublist (List.eraseIdx_sublist ..)
  case waiting => exact fun y hy => inv.waiting y (rest y hy).1
  case active => exact inv.active
  case live => exact inv.live
  case exclusive => exact inv.exclusive
  case distinct => exact inv.distinct
  case queued =>
    intro t y hy hw
    rcases inv.queued hy hw with h | ⟨k, h⟩
    · by_cases e : (⟨t, y.op⟩ : WaitingAdmission) = x
      · right
        subst e
        refine ⟨i, ?_⟩
        simp [World.isClosed, hy, inv.receiver hy hw.1]
      · exact .inl (keep _ h e)
    · simp [lock] at h
  case receiver => exact inv.receiver
  case sending =>
    intro k z hz
    by_cases closed : w.isClosed x.ticket
    · simp [closed] at hz
    · simp only [closed, Bool.false_eq_true, ↓reduceIte, Option.some.injEq,
        PromotePc.send.injEq] at hz
      obtain ⟨rfl, rfl⟩ := hz
      simp only [AdmissionState.isAdmissible, Bool.and_eq_true, Bool.not_eq_eq_eq_not,
        Bool.not_true, List.any_eq_false] at adm
      refine ⟨inv.waiting x mem, fun y hy => (rest y hy).2, ?_, ?_⟩
      · intro a ha
        simpa using adm.1 a ha
      · intro y hy lt
        simpa using adm.2 y (earlier y (rest y hy).1 lt)

lemma Inv.send {w : World} {i : Nat} {x : WaitingAdmission} (inv : Inv w)
    (lock : w.lock = some (.send i x)) : Inv (w.promoteStep (.send i x)) := by
  have snd := inv.sending lock
  obtain ⟨y, hy, hop, hp⟩ := snd.slot
  have fresh : ∀ a ∈ w.state.active, a.ticket ≠ x.ticket := by
    intro a ha e
    obtain ⟨z, hz, _, hl⟩ := inv.active a ha
    rw [e, hy] at hz
    cases hz
    simp [Slot.Live, hp] at hl
  by_cases closed : w.isClosed x.ticket
  · -- the undone grant leaves the active list as it was
    have undo : (w.state.active ++ [(⟨x.ticket, x.op⟩ : ActiveAdmission)]).filter
        (·.ticket ≠ x.ticket) = w.state.active := by
      rw [List.filter_append, List.filter_eq_self.2]
      · simp
      · intro a ha
        simpa using fresh a ha
    have shut : ¬ y.Waiter := by
      intro hw
      have := inv.receiver hy hw
      simp [World.isClosed, hy, this] at closed
    simp only [World.promoteStep, closed, ↓reduceIte, AdmissionState.release, undo]
    refine { inv with queued := ?_, sending := by simp }
    intro t z hz hw
    rcases inv.queued hz hw with h | ⟨j, h⟩
    · exact .inl h
    · rw [lock] at h
      cases h
      rw [hy] at hz
      cases hz
      exact absurd hw.1 shut
  · simp only [World.promoteStep, closed, Bool.false_eq_true, ↓reduceIte, World.updateSlot]
    -- the send changes the slot of `x` and no other
    have same : ∀ {u : Nat}, u ≠ x.ticket →
        (w.slots.modify x.ticket ({ · with permit := .sent }))[u]? = w.slots[u]? := by
      intro u hu
      simp [Ne.symm hu]
    have at_x : (w.slots.modify x.ticket ({ · with permit := .sent }))[x.ticket]?
        = some { y with permit := .sent } := by
      simp [hy]
    constructor
    case length => simpa using inv.length
    case sorted => exact inv.sorted
    case waiting =>
      intro z hz
      obtain ⟨v, hv, ho, hq⟩ := inv.waiting z hz
      exact ⟨v, by rw [same (snd.unqueued z hz)]; exact hv, ho, hq⟩
    case active =>
      intro a ha
      rcases List.mem_append.1 ha with ha | ha
      · obtain ⟨v, hv, ho, hl⟩ := inv.active a ha
        exact ⟨v, by rw [same (fresh a ha)]; exact hv, ho, hl⟩
      · simp only [List.mem_singleton] at ha
        subst ha
        exact ⟨_, at_x, hop, .inl rfl⟩
    case live =>
      intro u v hv hl
      simp only [List.mem_append, List.mem_singleton]
      by_cases e : u = x.ticket
      · subst e
        rw [at_x] at hv
        cases hv
        exact .inr (by simp [hop])
      · rw [same e] at hv
        exact .inl (inv.live hv hl)
    case exclusive =>
      rw [List.pairwise_append]
      refine ⟨inv.exclusive, by simp, ?_⟩
      intro a ha b hb
      simp only [List.mem_singleton] at hb
      subst hb
      exact snd.active a ha
    case distinct =>
      rw [List.pairwise_append]
      refine ⟨inv.distinct, by simp, ?_⟩
      intro a ha b hb
      simp only [List.mem_singleton] at hb
      subst hb
      exact fresh a ha
    case queued =>
      intro u v hv hw
      by_cases e : u = x.ticket
      · subst e
        rw [at_x] at hv
        cases hv
        simp [Slot.Waits] at hw
      · rw [same e] at hv
        rcases inv.queued hv hw with h | ⟨j, h⟩
        · exact .inl h
        · rw [lock] at h
          cases h
          exact absurd rfl e
    case receiver =>
      intro u v hv hw
      by_cases e : u = x.ticket
      · subst e
        rw [at_x] at hv
        cases hv
        exact inv.receiver (y := y) hy hw
      · rw [same e] at hv
        exact inv.receiver hv hw
    case sending => simp

lemma Inv.promote {w : World} {pc : PromotePc} (inv : Inv w) (lock : w.lock = some pc) :
    Inv (w.promoteStep pc) := by
  cases pc with
  | send i x => exact inv.send lock
  | scan i =>
    have idle : ∀ j x, w.lock ≠ some (.send j x) := by simp [lock]
    cases hx : w.state.waiting[i]? with
    | none =>
      simp only [World.promoteStep, hx]
      exact inv.scan idle (by simp)
    | some x =>
      simp only [World.promoteStep, hx]
      split_ifs with adm closed
      · simpa [closed] using inv.remove lock hx adm
      · simpa [closed] using inv.remove lock hx adm
      · exact inv.scan idle (by simp)

lemma Inv.next {w w' : World} {e : Event} (inv : Inv w) (st : w.next e = some w') : Inv w' := by
  cases e with
  | register op =>
    simp only [World.next] at st
    split_ifs at st with locked
    have free : w.lock = none := by simpa using locked
    split at st
    · cases st
      exact inv
    · cases st
      exact inv.register free
  | startWait t =>
    simp only [World.next, Option.bind_eq_bind, Option.bind_eq_some_iff] at st
    obtain ⟨x, hx, st⟩ := st
    split_ifs at st with idle
    cases st
    apply inv.updateSlot
    · simp
    · simp [Slot.Live]
    · simp
    · intro y hy hw
      rw [hx] at hy
      cases hy
      exact ⟨.inl idle, hw.2⟩
    · intro y hy _
      rw [hx] at hy
      cases hy
      exact ⟨rfl, .inl idle⟩
  | receive t =>
    simp only [World.next, Option.bind_eq_bind, Option.bind_eq_some_iff] at st
    obtain ⟨x, hx, st⟩ := st
    split_ifs at st with ready
    cases st
    apply inv.updateSlot
    · simp
    · intro y hy
      rw [hx] at hy
      cases hy
      simp [Slot.Live, ready.2]
    · intro y hy hp
      rw [hx] at hy
      cases hy
      simp [ready.2] at hp
    · simp [Slot.Waits]
    · simp [Slot.Waiter]
  | cancelIdle t =>
    simp only [World.next, Option.bind_eq_bind, Option.bind_eq_some_iff] at st
    obtain ⟨x, hx, st⟩ := st
    split_ifs at st with ready
    cases st
    refine Inv.cancel ?_ ready.1 ?_
    · apply inv.updateSlot <;> simp [Slot.Live, Slot.Waits, Slot.Waiter]
    · intro y hy hw
      simp only [World.updateSlot, List.getElem?_modify_eq, hx] at hy
      cases hy
      simp [Slot.Waits, Slot.Waiter] at hw
  | dropReceiver t =>
    simp only [World.next, Option.bind_eq_bind, Option.bind_eq_some_iff] at st
    obtain ⟨x, hx, st⟩ := st
    -- both phases only differ in the phase they leave behind, and neither is a waiter's
    have keep : ∀ phase, phase ≠ .idle → phase ≠ .awaiting → Inv (w.updateSlot t fun s =>
        { s with
          receiverOpen := false
          permit := if x.permit = .sent then .held else x.permit
          phase }) := by
      intro phase ne₁ ne₂
      apply inv.updateSlot
      · simp
      · intro y hy
        rw [hx] at hy
        cases hy
        simp only [Slot.Live]
        split_ifs with h <;> simp [h]
      · intro y hy hp
        rw [hx] at hy
        cases hy
        simp [hp]
      · simp [Slot.Waits, Slot.Waiter, ne₁, ne₂]
      · simp [Slot.Waiter, ne₁, ne₂]
    split at st
    · cases st
      exact keep _ (by simp) (by simp)
    · cases st
      exact keep _ (by simp) (by simp)
    · cases st
  | cancelClosed t =>
    simp only [World.next, Option.bind_eq_bind, Option.bind_eq_some_iff] at st
    obtain ⟨x, hx, st⟩ := st
    split_ifs at st with ready
    cases st
    refine Inv.cancel ?_ ready.1 ?_
    · apply inv.updateSlot <;> simp [Slot.Live, Slot.Waits, Slot.Waiter]
    · intro y hy hw
      simp only [World.updateSlot, List.getElem?_modify_eq, hx] at hy
      cases hy
      simp [Slot.Waits, Slot.Waiter] at hw
  | dropPermit t =>
    simp only [World.next, Option.bind_eq_bind, Option.bind_eq_some_iff] at st
    obtain ⟨x, hx, st⟩ := st
    split_ifs at st with ready
    cases st
    exact inv.release ready.1 hx ready.2
  | promote =>
    simp only [World.next, Option.map_eq_some_iff] at st
    obtain ⟨pc, lock, rfl⟩ := st
    exact inv.promote lock

lemma Inv.of_reachable {extentBytes : Nat} {w : World} (h : (system extentBytes).Reachable w) :
    Inv w :=
  (system extentBytes).invariant (fun e => e ▸ .new extentBytes) (fun inv st => inv.next st) h

lemma active_of_next {w w' : World} {e : Event} {a : ActiveAdmission} (st : w.next e = some w')
    (before : a ∉ w.state.active) (after : a ∈ w'.state.active) :
    ∃ i, w.lock = some (.send i ⟨a.ticket, a.op⟩) := by
  cases e with
  | register op =>
    simp only [World.next] at st
    split_ifs at st
    split at st <;> cases st <;> exact absurd after before
  | startWait t | receive t =>
    simp only [World.next, Option.bind_eq_bind, Option.bind_eq_some_iff] at st
    obtain ⟨x, _, st⟩ := st
    split_ifs at st
    cases st
    exact absurd after before
  | cancelIdle t | cancelClosed t =>
    simp only [World.next, Option.bind_eq_bind, Option.bind_eq_some_iff] at st
    obtain ⟨x, _, st⟩ := st
    split_ifs at st
    cases st
    exact absurd after before
  | dropReceiver t =>
    simp only [World.next, Option.bind_eq_bind, Option.bind_eq_some_iff] at st
    obtain ⟨x, _, st⟩ := st
    split at st <;> cases st <;> exact absurd after before
  | dropPermit t =>
    simp only [World.next, Option.bind_eq_bind, Option.bind_eq_some_iff] at st
    obtain ⟨x, _, st⟩ := st
    split_ifs at st
    cases st
    exact absurd (List.mem_of_mem_filter after) before
  | promote =>
    simp only [World.next, Option.map_eq_some_iff] at st
    obtain ⟨pc, lock, rfl⟩ := st
    cases pc with
    | scan i =>
      simp only [World.promoteStep] at after
      split at after
      · exact absurd after before
      · split_ifs at after <;> exact absurd after before
    | send i x =>
      refine ⟨i, ?_⟩
      rw [lock]
      have mem : a ∈ w.state.active ++ [(⟨x.ticket, x.op⟩ : ActiveAdmission)] := by
        simp only [World.promoteStep] at after
        split_ifs at after
        · exact List.mem_of_mem_filter after
        · exact after
      rcases List.mem_append.1 mem with h | h
      · exact absurd h before
      · simp only [List.mem_singleton] at h
        subst h
        rfl

lemma Inv.sending_settled {w : World} {i : Nat} {q : WaitingAdmission} (inv : Inv w)
    (lock : w.lock = some (.send i q)) {u : Nat} {x : Slot} (lt : u < q.ticket)
    (hx : w.slots[u]? = some x) (conflict : x.op.conflicts q.op = true) : ¬ x.Waits ∧ ¬ x.Live := by
  have snd := inv.sending lock
  refine ⟨?_, ?_⟩
  · intro waits
    rcases inv.queued hx waits with h | ⟨j, h⟩
    · have := snd.earlier _ h lt
      simp_all
    · rw [lock] at h
      cases h
      exact absurd lt (lt_irrefl _)
  · intro live
    have := snd.active _ (inv.live hx live)
    simp_all

/-- Admission exclusion and conflict order. In every reachable state the active operations are
pairwise conflict-free and are exactly those with a live permit; and no step from such a state makes
an operation active while an earlier conflicting one still waits or is active. -/
theorem admission_exclusion {extentBytes : Nat} {w : World}
    (reach : (system extentBytes).Reachable w) :
    (w.state.active.Pairwise fun a b => a.op.conflicts b.op = false) ∧
    (∀ t op, ⟨t, op⟩ ∈ w.state.active ↔ ∃ x, w.slots[t]? = some x ∧ x.op = op ∧ x.Live) ∧
    (w.state.active.Pairwise (·.ticket ≠ ·.ticket)) ∧
    (∀ e w' t op, w.next e = some w' → ⟨t, op⟩ ∉ w.state.active → ⟨t, op⟩ ∈ w'.state.active →
      ∀ u x, u < t → w.slots[u]? = some x → x.op.conflicts op = true → ¬ x.Waits ∧ ¬ x.Live) := by
  have inv := Inv.of_reachable reach
  refine ⟨inv.exclusive, ?_, inv.distinct, ?_⟩
  · intro t op
    constructor
    · exact inv.active ⟨t, op⟩
    · rintro ⟨x, hx, rfl, live⟩
      exact inv.live hx live
  · intro e w' t op st before after u x lt hx conflict
    obtain ⟨i, lock⟩ := active_of_next st before after
    exact inv.sending_settled lock lt hx conflict

/-- A write that waits behind a conflicting one: the second promotion pass leaves it in the
queue. -/
def queuedWrites : Option World :=
  [.register (.write (.new 0 4096)), .promote, .promote, .promote,
    .register (.write (.new 2048 4096)), .promote, .promote].foldlM World.next (.new 8192)

/-- `admission_exclusion` at a state with one active and one waiting write. -/
theorem admission_exclusion_queued_writes :
    ∃ w, queuedWrites = some w ∧ (w.state.active.map (·.ticket)) = [0] ∧
      (w.state.waiting.map (·.ticket)) = [1] ∧
      (w.state.active.Pairwise fun a b => a.op.conflicts b.op = false) ∧
      (∀ e w' t op, w.next e = some w' → ⟨t, op⟩ ∉ w.state.active → ⟨t, op⟩ ∈ w'.state.active →
        ∀ u x, u < t → w.slots[u]? = some x → x.op.conflicts op = true → ¬ x.Waits ∧ ¬ x.Live) := by
  have run : queuedWrites.isSome := by decide
  obtain ⟨w, hw⟩ := Option.isSome_iff_exists.1 run
  have reach : (system 8192).Reachable w := .foldlM (fun h => h) (.init rfl) hw
  have all := admission_exclusion reach
  have active : (queuedWrites.map fun w => w.state.active.map (·.ticket)) = some [0] := by decide
  have waiting : (queuedWrites.map fun w => w.state.waiting.map (·.ticket)) = some [1] := by decide
  rw [hw] at active waiting
  exact ⟨w, hw, by simpa using active, by simpa using waiting, all.1, all.2.2.2⟩

end NbdServer.Admission
