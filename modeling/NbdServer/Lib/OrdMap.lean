import Mathlib

/-!
# Finite maps in key order

A finite map as the list of its bindings in ascending order of the keys. The order is a field, so a
key is bound at most once and two maps with the same lookups are equal (`OrdMap.ext_find`).
-/

namespace Lib

universe u v
variable {K : Type u} {V W : Type v} [LinearOrder K]

/-- Bindings in strictly ascending order of their keys. -/
structure OrdMap (K : Type u) (V : Type v) [LinearOrder K] where
  entries : List (K × V)
  ordered : entries.Pairwise fun a b => a.1 < b.1
  deriving DecidableEq

namespace OrdMap

/-- The map without bindings. -/
def empty : OrdMap K V := ⟨[], .nil⟩

/-- The value bound to `k`. -/
def find (m : OrdMap K V) (k : K) : Option V := (m.entries.find? (·.1 = k)).map (·.2)

/-- The map binds `k`. -/
def Has (m : OrdMap K V) (k : K) : Prop := (m.find k).isSome

instance (m : OrdMap K V) (k : K) : Decidable (m.Has k) := inferInstanceAs (Decidable (_ = true))

@[simp] lemma find_empty {k : K} : (empty : OrdMap K V).find k = none := rfl

lemma find_eq_some {m : OrdMap K V} {k v} : m.find k = some v ↔ (k, v) ∈ m.entries := by
  obtain ⟨l, ord⟩ := m
  show (l.find? (·.1 = k)).map (·.2) = some v ↔ (k, v) ∈ l
  induction ord with
  | nil => simp
  | @cons a l hd tl ih =>
    by_cases h : a.1 = k
    · rw [List.find?_cons_of_pos (by simpa using h), Option.map_some, List.mem_cons]
      constructor
      · intro e
        cases e
        cases h
        exact .inl rfl
      · rintro (e | e)
        · rw [← e]
        · exact absurd (hd _ e) (by simp [h])
    · rw [List.find?_cons_of_neg (by simpa using h), ih, List.mem_cons]
      constructor
      · exact .inr
      · rintro (e | e)
        · exact absurd (by rw [← e]) h
        · exact e

lemma has_iff {m : OrdMap K V} {k} : m.Has k ↔ ∃ v, (k, v) ∈ m.entries := by
  simp only [Has, Option.isSome_iff_exists, find_eq_some]

/-- Two maps with the same bindings are equal. -/
lemma ext_mem {m m' : OrdMap K V} (h : ∀ a, a ∈ m.entries ↔ a ∈ m'.entries) : m = m' := by
  obtain ⟨l, ord⟩ := m
  obtain ⟨l', ord'⟩ := m'
  have nodup : ∀ {l : List (K × V)}, l.Pairwise (fun a b => a.1 < b.1) → l.Nodup := by
    intro l ord
    refine ord.imp ?_
    rintro a b lt rfl
    exact lt.false
  have perm : l.Perm l' := (List.perm_ext_iff_of_nodup (nodup ord) (nodup ord')).2 h
  congr
  exact perm.eq_of_pairwise (fun a b _ _ h₁ h₂ => absurd h₁ h₂.asymm) ord ord'

/-- Two maps with the same lookups are equal. -/
lemma ext_find {m m' : OrdMap K V} (h : ∀ k, m.find k = m'.find k) : m = m' := by
  apply ext_mem
  rintro ⟨k, v⟩
  rw [← find_eq_some, ← find_eq_some, h]

/-- The bindings whose key satisfies `p`. -/
def filterKeys (p : K → Bool) (m : OrdMap K V) : OrdMap K V :=
  ⟨m.entries.filter fun a => p a.1, m.ordered.filter _⟩

lemma find_filterKeys {m : OrdMap K V} {p : K → Bool} {k} :
    (m.filterKeys p).find k = if p k then m.find k else none := by
  apply Option.ext
  intro v
  rw [find_eq_some, filterKeys, List.mem_filter]
  by_cases h : p k <;> simp [h, find_eq_some]

/-- The map without `k`. -/
def erase (m : OrdMap K V) (k : K) : OrdMap K V := m.filterKeys (· ≠ k)

@[simp] lemma find_erase {m : OrdMap K V} {k k'} :
    (m.erase k).find k' = if k' = k then none else m.find k' := by
  rw [erase, find_filterKeys]
  by_cases h : k' = k <;> simp [h]

/-- The map with `k` bound to `v` (an earlier binding is replaced). -/
def insert (m : OrdMap K V) (k : K) (v : V) : OrdMap K V where
  entries := m.entries.filter (·.1 < k) ++ (k, v) :: m.entries.filter (k < ·.1)
  ordered := by
    refine List.pairwise_append.2 ⟨m.ordered.filter _,
      List.pairwise_cons.2 ⟨?_, m.ordered.filter _⟩, ?_⟩
    · intro a ha
      simpa using (List.mem_filter.1 ha).2
    · intro a ha b hb
      have h₁ : a.1 < k := by simpa using (List.mem_filter.1 ha).2
      rcases List.mem_cons.1 hb with rfl | hb
      · exact h₁
      · exact h₁.trans (by simpa using (List.mem_filter.1 hb).2)

@[simp] lemma find_insert {m : OrdMap K V} {k k' v} :
    (m.insert k v).find k' = if k' = k then some v else m.find k' := by
  apply Option.ext
  intro w
  rw [find_eq_some, insert]
  simp only [List.mem_append, List.mem_cons, List.mem_filter, decide_eq_true_eq, Prod.mk.injEq]
  rcases lt_trichotomy k' k with lt | rfl | gt
  · simp [lt, lt.ne, lt.asymm, find_eq_some]
  · simp [eq_comm]
  · simp [gt, gt.ne', gt.asymm, find_eq_some]

lemma filter_lt_of_forall {l : List (K × V)} {k : K} (h : ∀ a ∈ l, a.1 < k) :
    l.filter (·.1 < k) = l ∧ l.filter (k < ·.1) = [] := by
  constructor
  · exact List.filter_eq_self.2 fun a ha => by simpa using h a ha
  · exact List.filter_eq_nil_iff.2 fun a ha => by simpa using (h a ha).le

/-- Binding a key above all others adds it at the end. -/
lemma entries_insert_above {m : OrdMap K V} {k v} (h : ∀ a ∈ m.entries, a.1 < k) :
    (m.insert k v).entries = m.entries ++ [(k, v)] := by
  obtain ⟨below, above⟩ := filter_lt_of_forall h
  show m.entries.filter (·.1 < k) ++ (k, v) :: m.entries.filter (k < ·.1) = _
  rw [below, above]

/-- Binding the last key again replaces its value. -/
lemma entries_insert_last {m : OrdMap K V} {k v w l} (h : m.entries = l ++ [(k, w)]) :
    (m.insert k v).entries = l ++ [(k, v)] := by
  have ord := m.ordered
  rw [h] at ord
  obtain ⟨below, above⟩ := filter_lt_of_forall (k := k) fun a ha =>
    (List.pairwise_append.1 ord).2.2 a ha _ List.mem_cons_self
  show m.entries.filter (·.1 < k) ++ (k, v) :: m.entries.filter (k < ·.1) = _
  rw [h, List.filter_append, List.filter_append, below, above]
  simp

/-- Removing the first key. -/
lemma entries_erase {m : OrdMap K V} {k w l l'} (h : m.entries = l ++ (k, w) :: l') :
    (m.erase k).entries = l ++ l' := by
  have ord := m.ordered
  rw [h] at ord
  obtain ⟨-, right, across⟩ := List.pairwise_append.1 ord
  show m.entries.filter (fun a => decide (a.1 ≠ k)) = l ++ l'
  rw [h, List.filter_append, List.filter_cons_of_neg (by simp), List.filter_eq_self.2,
    List.filter_eq_self.2]
  · intro a ha
    simpa using ((List.pairwise_cons.1 right).1 a ha).ne'
  · intro a ha
    simpa using (across a ha _ List.mem_cons_self).ne

/-- Change every value. -/
def mapValues (f : K → V → W) (m : OrdMap K V) : OrdMap K W where
  entries := m.entries.map fun a => (a.1, f a.1 a.2)
  ordered := List.pairwise_map.2 m.ordered

@[simp] lemma find_mapValues {f : K → V → W} {m : OrdMap K V} {k} :
    (m.mapValues f).find k = (m.find k).map (f k) := by
  apply Option.ext
  intro w
  rw [find_eq_some, mapValues, List.mem_map]
  constructor
  · rintro ⟨⟨k', v⟩, mem, e⟩
    cases e
    rw [find_eq_some.2 mem]
    rfl
  · intro h
    obtain ⟨v, hv, rfl⟩ := Option.map_eq_some_iff.1 h
    exact ⟨(k, v), find_eq_some.1 hv, rfl⟩

/-- The sum of a measure of the values. -/
def total (f : V → Nat) (m : OrdMap K V) : Nat := (m.entries.map fun a => f a.2).sum

lemma entries_split (m : OrdMap K V) {k v} (h : (k, v) ∈ m.entries) :
    m.entries = m.entries.filter (·.1 < k) ++ (k, v) :: m.entries.filter (k < ·.1) := by
  have : m = m.insert k v := by
    apply ext_find
    intro k'
    rw [find_insert]
    split
    · rename_i e
      rw [e, find_eq_some.2 h]
    · rfl
  exact congrArg entries this

lemma total_insert_new {m : OrdMap K V} {f : V → Nat} {k v} (h : ¬ m.Has k) :
    (m.insert k v).total f = m.total f + f v := by
  have fresh : ∀ a ∈ m.entries, a.1 ≠ k := by
    rintro ⟨k', w⟩ ha rfl
    exact h (has_iff.2 ⟨w, ha⟩)
  have split : m.entries = m.entries.filter (·.1 < k) ++ m.entries.filter (k < ·.1) := by
    have ord := m.ordered
    generalize m.entries = l at fresh ord
    induction ord with
    | nil => rfl
    | @cons a l hd tl ih =>
      have hl := ih fun b hb => fresh b (List.mem_cons_of_mem _ hb)
      rcases lt_or_gt_of_ne (fresh a List.mem_cons_self) with lt | gt
      · rw [List.filter_cons_of_pos (by simpa using lt), List.cons_append,
          List.filter_cons_of_neg (by simpa using lt.le), ← hl]
      · have above : ∀ b ∈ a :: l, k < b.1 := by
          intro b hb
          rcases List.mem_cons.1 hb with rfl | hb
          · exact gt
          · exact lt_trans gt (hd b hb)
        have none : (a :: l).filter (·.1 < k) = [] := by
          rw [List.filter_eq_nil_iff]
          intro b hb
          simpa using (above b hb).le
        rw [none, List.nil_append, List.filter_eq_self.2]
        intro b hb
        simpa using above b hb
  unfold total insert
  conv_rhs => rw [split]
  simp only [List.map_append, List.map_cons, List.sum_append, List.sum_cons]
  omega

lemma total_erase {m : OrdMap K V} {f : V → Nat} {k v} (h : m.find k = some v) :
    (m.erase k).total f + f v = m.total f := by
  have split : (m.erase k).insert k v = m := by
    apply ext_find
    intro k'
    rw [find_insert, find_erase]
    split
    · rename_i e
      rw [e, h]
    · rfl
  conv_rhs => rw [← split]
  rw [total_insert_new]
  simp [Has]

lemma total_mapValues {m : OrdMap K V} {f : V → Nat} {f' : W → Nat} {g : K → V → W}
    (h : ∀ k v, f' (g k v) = f v) : (m.mapValues g).total f' = m.total f := by
  unfold total mapValues
  rw [List.map_map]
  congr 1
  refine List.map_congr_left ?_
  intro a _
  exact h _ _

end OrdMap

end Lib
