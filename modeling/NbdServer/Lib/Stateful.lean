import Mathlib

/-!
# Computations with a state that survives errors

Rules for `EStateM`, the monad of the stateful code: a call that fails leaves the state as it is at
the failure. A run is peeled from the left, one call at a time (`bind_ok`, `bind_error`), and a call
on a part of the state is lifted to the whole state (`onPart`).
-/

namespace Lib

universe u
variable {ε σ τ α β : Type u}

/-- After a call that returned, the run goes on from its state. -/
lemma bind_ok {x : EStateM ε σ α} {f : α → EStateM ε σ β} {s a s'} (h : x s = .ok a s') :
    (x >>= f) s = f a s' := by
  show EStateM.bind x f s = f a s'
  rw [EStateM.bind, h]

/-- A call that failed ends the run. -/
lemma bind_error {x : EStateM ε σ α} {f : α → EStateM ε σ β} {s e s'} (h : x s = .error e s') :
    (x >>= f) s = .error e s' := by
  show EStateM.bind x f s = .error e s'
  rw [EStateM.bind, h]

/-- A run that returned had its first call return, and so did the rest. -/
lemma bind_eq_ok {x : EStateM ε σ α} {f : α → EStateM ε σ β} {s b s''} :
    (x >>= f) s = .ok b s'' ↔ ∃ a s', x s = .ok a s' ∧ f a s' = .ok b s'' := by
  cases h : x s with
  | ok a s' => rw [bind_ok h]; simp
  | error e s' => rw [bind_error h]; simp

/-- Return a value, or fail with an error. -/
def ofExcept (x : Except ε α) : EStateM ε σ α := fun s =>
  match x with
  | .ok a => .ok a s
  | .error e => .error e s

instance liftExcept : MonadLift (Except ε) (EStateM ε σ) := ⟨ofExcept⟩

lemma get_bind {f : σ → EStateM ε σ β} {s : σ} :
    ((get : EStateM ε σ σ) >>= f) s = f s s := rfl

lemma lift_ok_bind {a : α} {f : α → EStateM ε σ β} {s : σ} :
    ((liftM (Except.ok a : Except ε α) : EStateM ε σ α) >>= f) s = f a s := rfl

lemma lift_error_bind {e : ε} {f : α → EStateM ε σ β} {s : σ} :
    ((liftM (Except.error e : Except ε α) : EStateM ε σ α) >>= f) s = .error e s := rfl

lemma pure_run {a : α} {s : σ} : (pure a : EStateM ε σ α) s = .ok a s := rfl

lemma throw_run {e : ε} {s : σ} : (throw e : EStateM ε σ α) s = .error e s := rfl

/-- Run a computation on a part of the state. -/
def onPart (get : τ → σ) (set : τ → σ → τ) (x : EStateM ε σ α) : EStateM ε τ α := fun t =>
  match x (get t) with
  | .ok a s => .ok a (set t s)
  | .error e s => .error e (set t s)

lemma onPart_ok {get : τ → σ} {set : τ → σ → τ} {x : EStateM ε σ α} {t a s}
    (h : x (get t) = .ok a s) : onPart get set x t = .ok a (set t s) := by
  rw [onPart, h]

lemma onPart_error {get : τ → σ} {set : τ → σ → τ} {x : EStateM ε σ α} {t e s}
    (h : x (get t) = .error e s) : onPart get set x t = .error e (set t s) := by
  rw [onPart, h]

/-- A run ends in a result and a state that satisfy `ok`, or in an error and a state that satisfy
`err`. -/
def Ends (x : EStateM ε σ α) (s : σ) (ok : α → σ → Prop) (err : σ → Prop) : Prop :=
  match x s with
  | .ok a s' => ok a s'
  | .error _ s' => err s'

/-- The rule of a sequence: what is shown of the rest is a postcondition of the first call. -/
lemma Ends.bind {x : EStateM ε σ α} {f : α → EStateM ε σ β} {s : σ} {ok : β → σ → Prop}
    {err : σ → Prop} (h : Ends x s (fun a s' => Ends (f a) s' ok err) err) :
    Ends (x >>= f) s ok err := by
  unfold Ends at h ⊢
  cases run : x s with
  | ok a s' =>
    rw [run] at h
    rw [bind_ok run]
    exact h
  | error e s' =>
    rw [run] at h
    rw [bind_error run]
    exact h

/-- The rule of consequence. -/
lemma Ends.mono {x : EStateM ε σ α} {s : σ} {ok ok' : α → σ → Prop} {err err' : σ → Prop}
    (h : Ends x s ok err) (left : ∀ a s', ok a s' → ok' a s') (right : ∀ s', err s' → err' s') :
    Ends x s ok' err' := by
  unfold Ends at h ⊢
  cases run : x s with
  | ok a s' =>
    rw [run] at h
    exact left a s' h
  | error e s' =>
    rw [run] at h
    exact right s' h

lemma Ends.congr {x y : EStateM ε σ α} {s : σ} {ok : α → σ → Prop} {err : σ → Prop}
    (run : x s = y s) (h : Ends y s ok err) : Ends x s ok err := by
  rw [Ends, run]
  exact h

lemma Ends.of_ok {x : EStateM ε σ α} {s s' : σ} {a : α} {ok : α → σ → Prop} {err : σ → Prop}
    (run : x s = .ok a s') (h : ok a s') : Ends x s ok err := by
  rw [Ends, run]
  exact h

lemma Ends.of_error {x : EStateM ε σ α} {s s' : σ} {e : ε} {ok : α → σ → Prop} {err : σ → Prop}
    (run : x s = .error e s') (h : err s') : Ends x s ok err := by
  rw [Ends, run]
  exact h

/-- The state at the end of a run. -/
def finalState : EStateM.Result ε σ α → σ
  | .ok _ s => s
  | .error _ s => s

/-- What a run returned. -/
def outcome : EStateM.Result ε σ α → Except ε α
  | .ok a _ => .ok a
  | .error e _ => .error e

end Lib
