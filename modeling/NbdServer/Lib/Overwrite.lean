import Mathlib

/-!
# Content under a history of overwrites

A history is a list of writes, oldest first. A write covers some offsets and has a value at each of
them. The content after a history is the value of the last write that covers an offset, or the
content before where none does. `covers` and `value` are parameters, so this is about any kind of
write.
-/

namespace Lib

universe u v
variable {R : Type u} {α : Type v} {covers : R → Nat → Bool} {value : R → Nat → α}
variable {base : Nat → α} {h h' : List R} {x : Nat}

/-- The last write of the history that covers `x`. -/
def lastWriter (covers : R → Nat → Bool) (h : List R) (x : Nat) : Option R :=
  h.reverse.find? (covers · x)

/-- The content after the history. -/
def flat (covers : R → Nat → Bool) (value : R → Nat → α) (base : Nat → α) (h : List R) (x : Nat) :
    α :=
  match lastWriter covers h x with
  | some r => value r x
  | none => base x

@[simp] lemma lastWriter_nil : lastWriter covers [] x = none := rfl

@[simp] lemma flat_nil : flat covers value base [] x = base x := rfl

/-- The later part of a history decides first. -/
lemma lastWriter_append :
    lastWriter covers (h ++ h') x = (lastWriter covers h' x).or (lastWriter covers h x) := by
  rw [lastWriter, List.reverse_append, List.find?_append]
  rfl

lemma lastWriter_concat (r : R) :
    lastWriter covers (h ++ [r]) x = if covers r x then some r else lastWriter covers h x := by
  rw [lastWriter_append]
  by_cases hr : covers r x <;> simp [lastWriter, hr]

lemma mem_of_lastWriter {r} (e : lastWriter covers h x = some r) : r ∈ h ∧ covers r x := by
  refine ⟨?_, List.find?_some (p := (covers · x)) e⟩
  exact List.mem_reverse.1 (List.mem_of_find?_eq_some e)

lemma lastWriter_eq_none : lastWriter covers h x = none ↔ ∀ r ∈ h, ¬ covers r x := by
  simp [lastWriter]

lemma flat_of_some {r} (e : lastWriter covers h x = some r) :
    flat covers value base h x = value r x := by
  rw [flat, e]

lemma flat_of_none (e : lastWriter covers h x = none) : flat covers value base h x = base x := by
  rw [flat, e]

/-- A history is applied part by part. -/
lemma flat_append :
    flat covers value base (h ++ h') x = flat covers value (flat covers value base h) h' x := by
  unfold flat
  rw [lastWriter_append]
  cases lastWriter covers h' x with
  | none => rfl
  | some r => rfl

/-- The last writer has the highest sequence of all writes that cover the offset. -/
lemma lastWriter_max {seq : R → Nat} {r} (ord : h.Pairwise fun a b => seq a < seq b)
    (e : lastWriter covers h x = some r) : ∀ r' ∈ h, covers r' x → seq r' ≤ seq r := by
  induction h using List.reverseRecOn with
  | nil => simp
  | append_singleton h a ih =>
    obtain ⟨hord, -, last⟩ := List.pairwise_append.1 ord
    rw [lastWriter_concat] at e
    intro r' hr' hc
    split at e
    · cases e
      rcases List.mem_append.1 hr' with hr' | hr'
      · exact (last r' hr' r List.mem_cons_self).le
      · cases List.mem_singleton.1 hr'
        exact le_rfl
    · rename_i no
      rcases List.mem_append.1 hr' with hr' | hr'
      · exact ih hord e r' hr' hc
      · cases List.mem_singleton.1 hr'
        exact absurd hc no

end Lib
