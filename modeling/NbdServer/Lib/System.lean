import Mathlib

/-!
# Transition systems

Labelled transition systems with a set of initial states, their reachable states, and the one
induction every safety result of the development goes through: a predicate that holds initially and
is kept by each step holds in every reachable state (`System.invariant`).
-/

namespace Lib

universe u v
variable {σ : Type u} {ℓ : Type v}

/-- A labelled transition system over states `σ` and labels `ℓ`. -/
structure System (σ : Type u) (ℓ : Type v) where
  init : σ → Prop
  step : σ → ℓ → σ → Prop

/-- States reachable from an initial state by finitely many steps. -/
inductive System.Reachable (S : System σ ℓ) : σ → Prop where
  | init {s} : S.init s → S.Reachable s
  | step {s l s'} : S.Reachable s → S.step s l s' → S.Reachable s'

/-- The runs from a state, with the labels of their steps. -/
inductive System.Runs (S : System σ ℓ) (s : σ) : List ℓ → σ → Prop where
  | nil : S.Runs s [] s
  | concat {ls s' l s''} : S.Runs s ls s' → S.step s' l s'' → S.Runs s (ls ++ [l]) s''

/-- An inductive predicate holds in every reachable state. -/
theorem System.invariant (S : System σ ℓ) {P : σ → Prop}
    (init : ∀ {s}, S.init s → P s)
    (step : ∀ {s l s'}, P s → S.step s l s' → P s') {s} (h : S.Reachable s) : P s := by
  induction h with
  | init h => exact init h
  | step _ st ih => exact step ih st

/-- A run of a function whose every answer is a step stays among the reachable states. -/
lemma System.Reachable.foldlM {S : System σ ℓ} {f : σ → ℓ → Option σ}
    (step : ∀ {s l s'}, f s l = some s' → S.step s l s') {s s'} {ls : List ℓ}
    (h : S.Reachable s) (run : ls.foldlM f s = some s') : S.Reachable s' := by
  induction ls generalizing s with
  | nil =>
    cases run
    exact h
  | cons l ls ih =>
    simp only [List.foldlM_cons, Option.bind_eq_bind, Option.bind_eq_some_iff] at run
    obtain ⟨t, st, run⟩ := run
    exact ih (h.step (step st)) run

/-- A run of such a function is a run of the system. -/
lemma System.Runs.foldlM {S : System σ ℓ} {f : σ → ℓ → Option σ}
    (step : ∀ {s l s'}, f s l = some s' → S.step s l s') {s s'} {ls : List ℓ}
    (run : ls.foldlM f s = some s') : S.Runs s ls s' := by
  induction ls using List.reverseRecOn generalizing s' with
  | nil =>
    cases run
    exact .nil
  | append_singleton ls l ih =>
    rw [List.foldlM_append] at run
    obtain ⟨t, run, last⟩ := Option.bind_eq_some_iff.1 run
    rw [List.foldlM_cons] at last
    obtain ⟨t', st, last⟩ := Option.bind_eq_some_iff.1 last
    cases last
    exact (ih run).concat (step st)

end Lib
