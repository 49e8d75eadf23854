import NbdServer.View.ExtentMap

/-!
# Extent maps as functions

What an extent map stands for: a partial function from offsets to values, where the value at an
offset is that of its extent, split by the distance from the start of the extent. Each call of the
three operations that change a map changes this function on the range of the call only
(`Call.denote`), so a map that was built by any sequence of calls stands for the function built by
the same sequence.
-/

namespace NbdServer

open Lib

namespace ExtentMap

variable {V : Type}

inductive Call (V : Type) where
  | insertExact (start stop : Nat) (value : V)
  | insertOverwrite (start stop : Nat) (value : V)
  | removeRange (start stop : Nat)

/-- The map after a call. The operations check their arguments before they change anything, so a
call that fails leaves the map as it was. -/
def Call.run (split : V → Nat → V) (m : ExtentMap V) : Call V → ExtentMap V
  | insertExact start stop value =>
    match m.insertExact start stop value with
    | .ok m' => m'
    | .error _ => m
  | insertOverwrite start stop value =>
    match m.insertOverwriteWithSplit start stop value split with
    | .ok (m', _) => m'
    | .error _ => m
  | removeRange start stop =>
    match m.removeRangeWithSplit start stop split with
    | .ok (m', _) => m'
    | .error _ => m

def built (split : V → Nat → V) (calls : List (Call V)) : ExtentMap V :=
  calls.foldl (Call.run split) IntervalMap.empty

open Classical in
/-- What a call means for the function behind the map. -/
noncomputable def Call.denote (split : V → Nat → V) (f : Nat → Option V) : Call V → Nat → Option V
  | insertExact start stop value => fun x =>
    if start ≤ x ∧ x < stop ∧ ∀ y, start ≤ y → y < stop → f y = none then
      some (split value (x - start))
    else f x
  | insertOverwrite start stop value => fun x =>
    if start ≤ x ∧ x < stop then some (split value (x - start)) else f x
  | removeRange start stop => fun x => if start ≤ x ∧ x < stop then none else f x

noncomputable def denoted (split : V → Nat → V) (calls : List (Call V)) : Nat → Option V :=
  calls.foldl (Call.denote split) fun _ => none

section Values

variable {split : V → Nat → V} {m : ExtentMap V} {start stop : Nat} {value : V}

lemma valueAt_entry_more {m' : ExtentMap V} (lt : start < stop)
    (mem : ∀ y, y ∈ m'.entries ↔ y = ⟨start, stop, value, lt⟩ ∨ y ∈ m.entries) (x : Nat) :
    m'.valueAt split x =
      if start ≤ x ∧ x < stop then some (split value (x - start)) else m.valueAt split x :=
  IntervalMap.valueAt_of_mem_iff mem x

lemma valueAt_insertOverwrite (add : ∀ v a b, split (split v a) b = split v (a + b))
    (m : ExtentMap V) (value : V) (lt : start < stop) :
    ∃ m', m.insertOverwriteWithSplit start stop value split =
        .ok (m', m.entries.filter (·.Meets start stop)) ∧
      ∀ x, m'.valueAt split x =
        if start ≤ x ∧ x < stop then some (split value (x - start)) else m.valueAt split x := by
  obtain ⟨m₁, m', run, cut, mem⟩ := m.insertOverwriteWithSplit_spec value split lt
  refine ⟨m', run, fun x => ?_⟩
  rw [valueAt_entry_more lt mem, cut.valueAt add]
  by_cases inside : start ≤ x ∧ x < stop
  · rw [if_pos inside, if_pos inside]
  · rw [if_neg inside, if_neg inside, if_neg inside]

lemma valueAt_removeRange (add : ∀ v a b, split (split v a) b = split v (a + b)) (m : ExtentMap V)
    (lt : start < stop) :
    ∃ m', m.removeRangeWithSplit start stop split =
    .ok (m', m.entries.filter (·.Meets start stop)) ∧
      ∀ x, m'.valueAt split x = if start ≤ x ∧ x < stop then none else m.valueAt split x := by
  obtain ⟨m', run, cut⟩ := m.removeRangeWithSplit_spec split lt
  exact ⟨m', run, cut.valueAt add⟩

lemma valueAt_clear (lt : start < stop) :
    (∀ y, start ≤ y → y < stop → m.valueAt split y = none) ↔
      ∀ a ∈ m.entries, a.stop ≤ start ∨ stop ≤ a.start := by
  constructor
  · intro clear a ha
    by_contra meets
    rw [not_or, not_le, not_le] at meets
    have alt := a.lt
    have none := clear (max start a.start) (by omega) (by omega)
    exact IntervalMap.valueAt_eq_none.1 none a ha ⟨by omega, by omega⟩
  · intro apart y h₁ h₂
    refine IntervalMap.valueAt_eq_none.2 ?_
    rintro a ha ⟨h₃, h₄⟩
    rcases apart a ha with h | h <;> omega

lemma valueAt_insertExact (x : Nat) :
    ((Call.insertExact start stop value).run split m).valueAt split x =
      (Call.insertExact start stop value).denote split (m.valueAt split) x := by
  by_cases lt : start < stop
  · by_cases clear : ∀ y, start ≤ y → y < stop → m.valueAt split y = none
    · have apart := (valueAt_clear lt).1 clear
      simp only [Call.run, insertExact_eq lt apart, Call.denote]
      rw [valueAt_entry_more lt fun _ => IntervalMap.mem_insert]
      by_cases inside : start ≤ x ∧ x < stop
      · rw [if_pos inside, if_pos ⟨inside.1, inside.2, clear⟩]
      · rw [if_neg inside, if_neg fun h => inside ⟨h.1, h.2.1⟩]
    · have failed : ∃ fault, m.insertExact start stop value = .error fault := by
        cases checked : m.ensureNoOverlap start stop with
        | error fault =>
          refine ⟨fault, ?_⟩
          unfold insertExact
          rw [dif_pos lt]
          split
          · rename_i e
            rw [checked] at e
            cases e
            rfl
          · rename_i e
            rw [checked] at e
            cases e
        | ok _ => exact absurd ((valueAt_clear lt).2 ((ensureNoOverlap_eq_ok lt).1 checked)) clear
      obtain ⟨fault, failed⟩ := failed
      simp only [Call.run, failed, Call.denote]
      rw [if_neg fun h => clear h.2.2]
  · have failed : ∃ fault, m.insertExact start stop value = .error fault := by
      unfold insertExact validateExtent
      rw [dif_neg lt, if_pos (not_lt.1 lt)]
      exact ⟨_, rfl⟩
    obtain ⟨fault, failed⟩ := failed
    simp only [Call.run, failed, Call.denote]
    rw [if_neg fun h => lt (h.1.trans_lt h.2.1)]

lemma valueAt_run (add : ∀ v a b, split (split v a) b = split v (a + b)) (c : Call V) :
    (c.run split m).valueAt split = c.denote split (m.valueAt split) := by
  funext x
  cases c with
  | insertExact start stop value => exact valueAt_insertExact x
  | insertOverwrite start stop value =>
    by_cases lt : start < stop
    · obtain ⟨m', run, values⟩ := valueAt_insertOverwrite add m value lt
      simp only [Call.run, run, Call.denote, values]
    · have failed : ∃ fault, m.insertOverwriteWithSplit start stop value split = .error fault := by
        unfold insertOverwriteWithSplit validateExtent
        rw [if_pos (not_lt.1 lt)]
        exact ⟨_, rfl⟩
      obtain ⟨fault, failed⟩ := failed
      simp only [Call.run, failed, Call.denote]
      rw [if_neg fun h => lt (h.1.trans_lt h.2)]
  | removeRange start stop =>
    by_cases lt : start < stop
    · obtain ⟨m', run, values⟩ := valueAt_removeRange add m lt
      simp only [Call.run, run, Call.denote, values]
    · have kept : (Call.removeRange start stop).run split m = m := by
        simp only [Call.run, removeRangeWithSplit, validateExtent]
        rcases (not_lt.1 lt).eq_or_lt with eq | gt
        · rw [if_pos eq.symm]
        · rw [if_neg gt.ne', if_pos gt.le]
          rfl
      simp only [kept, Call.denote]
      rw [if_neg fun h => lt (h.1.trans_lt h.2)]

lemma valueAt_foldl (add : ∀ v a b, split (split v a) b = split v (a + b)) (calls : List (Call V)) :
    (calls.foldl (Call.run split) m).valueAt split =
      calls.foldl (Call.denote split) (m.valueAt split) := by
  induction calls generalizing m with
  | nil => rfl
  | cons c calls ih => rw [List.foldl_cons, List.foldl_cons, ih, valueAt_run add]

/-- `overlapping` lists the extents that share a byte with the range, each once and in ascending
order. -/
lemma overlapping_spec (le : start ≤ stop) :
    ∃ found, m.overlapping start stop = .ok found ∧
      found.Pairwise (fun a b => a.stop ≤ b.start) ∧
      ∀ e, e ∈ found ↔ e ∈ m.entries ∧ ∃ x, e.Has x ∧ start ≤ x ∧ x < stop := by
  rcases le.eq_or_lt with rfl | lt
  · refine ⟨[], if_pos rfl, .nil, fun e => ?_⟩
    simp only [List.not_mem_nil, false_iff]
    rintro ⟨-, x, -, h₁, h₂⟩
    omega
  · refine ⟨_, overlapping_eq lt, m.ordered.filter _, fun e => ?_⟩
    rw [List.mem_filter, decide_eq_true_eq]
    refine and_congr_right fun _ => ⟨?_, ?_⟩
    · rintro ⟨h₁, h₂⟩
      have elt := e.lt
      exact ⟨max start e.start, ⟨by omega, by omega⟩, by omega, by omega⟩
    · rintro ⟨x, has, h₁, h₂⟩
      exact Entry.meets_of_has has h₁ h₂

end Values

/-- An extent map is a range map, point by point. A map that was built by any sequence of calls has
non-empty, ascending and disjoint extents and stands for the function that the calls build;
`overlapping` returns the extents that share a byte with its range, an overwrite or a removal of a
non-empty range succeeds, changes the function on the range only and returns the extents that
overlapped it. -/
theorem extent_map_pointwise {split : V → Nat → V} (zero : ∀ v, split v 0 = v)
    (add : ∀ v a b, split (split v a) b = split v (a + b)) (calls : List (Call V)) :
    (∀ e ∈ (built split calls).entries, e.start < e.stop ∧
      (built split calls).valueAt split e.start = some e.value) ∧
    (built split calls).entries.Pairwise (fun a b => a.stop ≤ b.start) ∧
    (built split calls).valueAt split = denoted split calls ∧
    (∀ start stop, start ≤ stop → ∃ found, (built split calls).overlapping start stop = .ok found ∧
      found.Pairwise (fun a b => a.stop ≤ b.start) ∧
      ∀ e, e ∈ found ↔ e ∈ (built split calls).entries ∧ ∃ x, e.Has x ∧ start ≤ x ∧ x < stop) ∧
    (∀ start stop value, start < stop → ∃ m' removed,
      (built split calls).insertOverwriteWithSplit start stop value split = .ok (m', removed) ∧
      (built split calls).overlapping start stop = .ok removed ∧
      ∀ x, m'.valueAt split x = if start ≤ x ∧ x < stop then some (split value (x - start))
        else (built split calls).valueAt split x) ∧
    ∀ start stop, start < stop → ∃ m' removed,
      (built split calls).removeRangeWithSplit start stop split = .ok (m', removed) ∧
      (built split calls).overlapping start stop = .ok removed ∧
      ∀ x, m'.valueAt split x = if start ≤ x ∧ x < stop then none
        else (built split calls).valueAt split x := by
  refine ⟨?_, (built split calls).ordered, valueAt_foldl add calls, ?_, ?_, ?_⟩
  · intro e he
    refine ⟨e.lt, ?_⟩
    rw [IntervalMap.valueAt_of_mem he ⟨le_rfl, e.lt⟩, Nat.sub_self, zero]
  · exact fun start stop le => overlapping_spec le
  · intro start stop value lt
    obtain ⟨m', run, values⟩ := valueAt_insertOverwrite add (built split calls) value lt
    exact ⟨m', _, run, overlapping_eq lt, values⟩
  · intro start stop lt
    obtain ⟨m', run, values⟩ := valueAt_removeRange add (built split calls) lt
    exact ⟨m', _, run, overlapping_eq lt, values⟩

/-- Values with an offset, as a stored block has them. -/
def shifted (p : Nat × Nat) (d : Nat) : Nat × Nat := (p.1, p.2 + d)

/-- The right tail of an overwritten extent keeps the value it had there. -/
theorem extent_map_pointwise_tail :
    ∃ m' removed, (built shifted [.insertExact 0 8 (1, 0)]).insertOverwriteWithSplit 4 6 (2, 0)
      shifted = .ok (m', removed) ∧ m'.valueAt shifted 7 = some (1, 7) := by
  obtain ⟨-, -, -, -, overwrite, -⟩ := @extent_map_pointwise _ shifted
    (fun _ => rfl) (fun p a b => congrArg (Prod.mk p.1) (Nat.add_assoc p.2 a b))
    [.insertExact 0 8 (1, 0)]
  obtain ⟨m', removed, run, -, values⟩ := overwrite 4 6 (2, 0) (by decide)
  refine ⟨m', removed, run, ?_⟩
  rw [values 7]
  decide +kernel

end ExtentMap

end NbdServer
