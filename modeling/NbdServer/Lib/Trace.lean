import NbdServer.Lib.System

/-!
# Infinite runs

Infinite runs of a transition system, in which a step may also be idle, with the rules the liveness
results use: what is kept by every step holds from some time on (`Trace.stable`), a phase lasts
until one of its exits is taken (`Trace.lasts`), a weakly fair event ends the phase in which it can
happen (`Trace.leadsTo`), and finitely many stable facts that each come true are true together
(`Trace.eventually_all`).
-/

namespace Lib

universe u v
variable {σ : Type u} {ℓ : Type v}

/-- An infinite run; the label of an idle step is `none`. -/
structure System.Trace (S : System σ ℓ) where
  state : ℕ → σ
  label : ℕ → Option ℓ
  init : S.init (state 0)
  idle : ∀ {n}, label n = none → state (n + 1) = state n
  step : ∀ {n l}, label n = some l → S.step (state n) l (state (n + 1))

namespace System.Trace

/-- The run that performs a list of events and then idles. -/
def ofList {S : System σ ℓ} (f : σ → ℓ → Option σ)
    (step : ∀ {s l s'}, f s l = some s' → S.step s l s') {s₀ : σ} (init : S.init s₀) (ls : List ℓ)
    (run : (ls.foldlM f s₀).isSome) : S.Trace where
  state n := ((ls.take n).foldlM f s₀).getD s₀
  label n := ls[n]?
  init := init
  idle {n} h := by
    have short := List.getElem?_eq_none_iff.1 h
    rw [List.take_of_length_le short, List.take_of_length_le (by omega)]
  step {n l} h := by
    have split : ls = ls.take n ++ l :: ls.drop (n + 1) := by
      obtain ⟨lt, rfl⟩ := List.getElem?_eq_some_iff.1 h
      simp
    have here : ls.take (n + 1) = ls.take n ++ [l] := by rw [List.take_add_one, h]; rfl
    rw [split, List.foldlM_append] at run
    rw [here, List.foldlM_append]
    cases before : (ls.take n).foldlM f s₀ with
    | none => simp [before] at run
    | some s =>
      cases after : f s l with
      | none => simp [before, after] at run
      | some s' => simpa [after] using step after

section OfList

variable {S : System σ ℓ} {f : σ → ℓ → Option σ}
    {step : ∀ {s l s'}, f s l = some s' → S.step s l s'}
  {s₀ : σ} {init : S.init s₀} {ls : List ℓ} {run : (ls.foldlM f s₀).isSome}

/-- After its events the run stays where it is. -/
lemma ofList_late {n : ℕ} (le : ls.length ≤ n) :
    (ofList f step init ls run).state n = (ofList f step init ls run).state ls.length := by
  show ((ls.take n).foldlM f s₀).getD s₀ = ((ls.take ls.length).foldlM f s₀).getD s₀
  rw [List.take_of_length_le le, List.take_length]

/-- What holds at all times up to the last event holds at all times. -/
lemma ofList_all {P : σ → Prop} (all : ∀ n < ls.length + 1, P ((ofList f step init ls run).state n))
    (n : ℕ) : P ((ofList f step init ls run).state n) := by
  rcases Nat.lt_or_ge n (ls.length + 1) with lt | ge
  · exact all n lt
  · rw [ofList_late (by omega)]
    exact all ls.length (by omega)

/-- An event follows whenever it is due, if it follows among the listed events. -/
lemma ofList_fair {P : σ → Prop} {l : ℓ} (last : ¬ P ((ofList f step init ls run).state ls.length))
    (each : ∀ n < ls.length, P ((ofList f step init ls run).state n) →
      ∃ m < ls.length, n ≤ m ∧ ls[m]? = some l) (n : ℕ)
    (due : P ((ofList f step init ls run).state n)) :
    ∃ m, n ≤ m ∧ (ofList f step init ls run).label m = some l := by
  rcases Nat.lt_or_ge n ls.length with lt | ge
  · obtain ⟨m, -, le, label⟩ := each n lt due
    exact ⟨m, le, label⟩
  · rw [ofList_late ge] at due
    exact absurd due last

end OfList

variable {S : System σ ℓ} (r : S.Trace)

/-- The states of a run are reachable. -/
lemma reachable (n : ℕ) : S.Reachable (r.state n) := by
  induction n with
  | zero => exact .init r.init
  | succ n ih =>
    cases h : r.label n with
    | none =>
      rw [r.idle h]
      exact ih
    | some l => exact ih.step (r.step h)

/-- What every step from a reachable state keeps holds from some time on. -/
lemma stable {P : σ → Prop} (keep : ∀ {s l s'}, S.Reachable s → P s → S.step s l s' → P s')
    {n : ℕ} (h : P (r.state n)) {m : ℕ} (le : n ≤ m) : P (r.state m) := by
  induction m, le using Nat.le_induction with
  | base => exact h
  | succ m _ ih =>
    cases hl : r.label m with
    | none =>
      rw [r.idle hl]
      exact ih
    | some l => exact keep (r.reachable m) ih (r.step hl)

/-- A phase lasts until an exit is taken. -/
lemma lasts {P Q : σ → Prop}
    (keep : ∀ {s l s'}, S.Reachable s → P s → S.step s l s' → P s' ∨ Q s')
    {n : ℕ} (h : P (r.state n)) {m : ℕ} (le : n ≤ m) :
    P (r.state m) ∨ ∃ k, n ≤ k ∧ k ≤ m ∧ Q (r.state k) := by
  induction m, le using Nat.le_induction with
  | base => exact .inl h
  | succ m le ih =>
    rcases ih with ih | ⟨k, lo, hi, q⟩
    · cases hl : r.label m with
      | none =>
        rw [r.idle hl]
        exact .inl ih
      | some l =>
        rcases keep (r.reachable m) ih (r.step hl) with p | q
        · exact .inl p
        · exact .inr ⟨m + 1, by omega, le_rfl, q⟩
    · exact .inr ⟨k, lo, by omega, q⟩

/-- Finitely many stable facts that each come true are true together. -/
lemma eventually_all {ι : Type*} {P : ι → σ → Prop}
    (keep : ∀ {i s l s'}, S.Reachable s → P i s → S.step s l s' → P i s') {n : ℕ} (is : List ι)
    (each : ∀ i ∈ is, ∃ m, n ≤ m ∧ P i (r.state m)) :
    ∃ m, n ≤ m ∧ ∀ i ∈ is, P i (r.state m) := by
  induction is with
  | nil => exact ⟨n, le_rfl, by simp⟩
  | cons i is ih =>
    obtain ⟨m, le, rest⟩ := ih fun j hj => each j (List.mem_cons_of_mem _ hj)
    obtain ⟨k, le', first⟩ := each i List.mem_cons_self
    refine ⟨max m k, by omega, ?_⟩
    intro j hj
    rcases List.mem_cons.1 hj with rfl | hj
    · exact r.stable keep first (le_max_right _ _)
    · exact r.stable keep (rest j hj) (le_max_left _ _)

/-- A measure that an always recurring event decreases, and nothing increases, runs out. -/
lemma eventually_of_measure {P : σ → Prop} {μ : σ → ℕ} {l : ℓ}
    (fair : ∀ n, P (r.state n) → ∃ m, n ≤ m ∧ r.label m = some l)
    (down : ∀ {s s'}, S.Reachable s → P s → S.step s l s' → ¬ P s' ∨ μ s' < μ s)
    (keep : ∀ {s k s'}, S.Reachable s → P s → S.step s k s' → ¬ P s' ∨ μ s' ≤ μ s) (n : ℕ) :
    ∃ m, n ≤ m ∧ ¬ P (r.state m) := by
  by_contra never
  push Not at never
  have antitone : ∀ {m k}, n ≤ m → m ≤ k → μ (r.state k) ≤ μ (r.state m) := by
    intro m k le le'
    induction k, le' using Nat.le_induction with
    | base => exact le_rfl
    | succ k le' ih =>
      have here := never k (le.trans le')
      have next := never (k + 1) (by omega)
      cases hl : r.label k with
      | none =>
        rw [r.idle hl]
        exact ih
      | some l' =>
        rcases keep (r.reachable k) here (r.step hl) with h | h
        · exact absurd next h
        · exact h.trans ih
  -- every turn of the event lowers the bound on the measure
  have low : ∀ b m, n ≤ m → μ (r.state m) = b → False := by
    intro b
    induction b using Nat.strong_induction_on with
    | _ b ih =>
      intro m le eq
      obtain ⟨k, le', hk⟩ := fair m (never m le)
      rcases down (r.reachable k) (never k (le.trans le')) (r.step hk) with h | h
      · exact h (never (k + 1) (by omega))
      · have := antitone le le'
        exact ih _ (by omega) (k + 1) (by omega) rfl
  exact low _ n le_rfl rfl

/-- Weak fairness of an event: if it can happen at all times from some time on, it happens. -/
def WeaklyFair (l : ℓ) : Prop :=
  ∀ n, (∀ m, n ≤ m → ∃ s, S.step (r.state m) l s) → ∃ m, n ≤ m ∧ r.label m = some l

/-- A phase in which a weakly fair event can happen is left, if the event leaves it. -/
lemma leadsTo {P Q : σ → Prop} {l : ℓ} (fair : r.WeaklyFair l)
    (enabled : ∀ {s}, S.Reachable s → P s → ∃ s', S.step s l s')
    (keep : ∀ {s k s'}, S.Reachable s → P s → S.step s k s' → P s' ∨ Q s')
    (leave : ∀ {s s'}, S.Reachable s → P s → S.step s l s' → Q s') {n : ℕ} (h : P (r.state n)) :
    ∃ m, n ≤ m ∧ Q (r.state m) := by
  by_contra never
  push Not at never
  have always : ∀ m, n ≤ m → P (r.state m) := by
    intro m le
    rcases r.lasts keep h le with p | ⟨k, lo, -, q⟩
    · exact p
    · exact absurd q (never k lo)
  obtain ⟨m, le, label⟩ := fair n fun m le => enabled (r.reachable m) (always m le)
  exact never (m + 1) (by omega) (leave (r.reachable m) (always m le) (r.step label))

/-- A finite run is fair to an event that cannot happen at its end. -/
lemma ofList_weaklyFair {f : σ → ℓ → Option σ} (step : ∀ {s l s'}, f s l = some s' → S.step s l s')
    {s₀ : σ} {init : S.init s₀} {ls : List ℓ} {run : (ls.foldlM f s₀).isSome} {l : ℓ}
    (last : ∀ s, ¬ S.step ((ofList f step init ls run).state ls.length) l s) :
    (ofList f step init ls run).WeaklyFair l := by
  intro n always
  obtain ⟨s, st⟩ := always (max n ls.length) (le_max_left _ _)
  rw [ofList_late (le_max_right _ _)] at st
  exact absurd st (last s)

end System.Trace

end Lib
