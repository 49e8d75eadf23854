import Mathlib

/-!
# Updates of a list at an index

Lists that are changed at one index, seen through lookup and counting.
-/

namespace Lib

universe u
variable {α : Type u} {l : List α} {i j : Nat} {x y z : α}

/-- The element at an index after an update. -/
lemma get_set (h : (l.set i y)[j]? = some z) : i = j ∧ z = y ∨ i ≠ j ∧ l[j]? = some z := by
  rw [List.getElem?_set] at h
  split_ifs at h with eq lt
  · exact .inl ⟨eq, (Option.some.inj h).symm⟩
  · exact .inr ⟨eq, h⟩

/-- The updated element. -/
lemma get_set_self (h : l[i]? = some x) (y : α) : (l.set i y)[i]? = some y :=
  List.getElem?_set_self (List.getElem?_eq_some_iff.1 h).1

/-- The element at an index after one more was appended. -/
lemma get_concat (h : (l ++ [y])[j]? = some z) : l[j]? = some z ∨ j = l.length ∧ z = y := by
  rw [List.getElem?_append] at h
  split_ifs at h with lt
  · exact .inl h
  · obtain ⟨zero, eq⟩ := List.getElem?_eq_some_iff.1 h
    simp only [List.length_singleton] at zero
    exact .inr ⟨by omega, by simpa using eq.symm⟩

/-- An update that neither removes nor adds an element with a property leaves those elements
alone. -/
lemma get_set_iff {p : α → Prop} (h : l[i]? = some x) (hx : ¬ p x) (hy : ¬ p y) (hz : p z) :
    (l.set i y)[j]? = some z ↔ l[j]? = some z := by
  constructor
  · intro hj
    rcases get_set hj with ⟨-, rfl⟩ | ⟨-, hj⟩
    · exact absurd hz hy
    · exact hj
  · intro hj
    by_cases eq : i = j
    · subst eq
      rw [h] at hj
      cases hj
      exact absurd hz hx
    · rw [List.getElem?_set_ne eq]
      exact hj

/-- The elements with a property that the appended one does not have. -/
lemma get_concat_iff {p : α → Prop} (hy : ¬ p y) (hz : p z) :
    (l ++ [y])[j]? = some z ↔ l[j]? = some z := by
  constructor
  · intro hj
    rcases get_concat hj with hj | ⟨-, rfl⟩
    · exact hj
    · exact absurd hz hy
  · intro hj
    rw [List.getElem?_append_left (List.getElem?_eq_some_iff.1 hj).1]
    exact hj

lemma set_self (h : l[i]? = some x) : l.set i x = l := by
  obtain ⟨lt, rfl⟩ := List.getElem?_eq_some_iff.1 h
  exact List.set_getElem_self lt

lemma modify_eq_set (h : l[i]? = some x) (f : α → α) : l.modify i f = l.set i (f x) := by
  apply List.ext_getElem?
  intro j
  rw [List.getElem?_modify, List.getElem?_set]
  by_cases e : i = j
  · subst e
    obtain ⟨lt, rfl⟩ := List.getElem?_eq_some_iff.1 h
    simp [lt]
  · simp [e]

/-- How many elements have a property after an update. -/
lemma countP_set (h : l[i]? = some x) (y : α) (p : α → Bool) :
    (l.set i y).countP p + (p x).toNat = l.countP p + (p y).toNat := by
  obtain ⟨lt, rfl⟩ := List.getElem?_eq_some_iff.1 h
  have split := List.take_append_drop i l
  rw [List.drop_eq_getElem_cons lt] at split
  rw [List.set_eq_take_append_cons_drop, if_pos lt]
  nth_rewrite 4 [← split]
  simp only [List.countP_append, List.countP_cons]
  cases p y <;> cases p l[i] <;> simp <;> omega

/-- Counting the elements by their indices. -/
lemma countP_range (l : List α) (p : α → Bool) :
    (List.range l.length).countP (fun i => (l[i]?).any p) = l.countP p := by
  induction l using List.reverseRecOn with
  | nil => rfl
  | append_singleton l a ih =>
    have same : (List.range l.length).countP (fun i => ((l ++ [a])[i]?).any p) =
        (List.range l.length).countP (fun i => (l[i]?).any p) := by
      refine List.countP_congr fun i mem => ?_
      rw [List.getElem?_append_left (List.mem_range.1 mem)]
    simp [List.range_succ, same, ih, List.countP_append]

/-- Some of the indices that have a property are left out of the count. -/
lemma countP_without {n : Nat} {p : Nat → Bool} {out : List Nat} (nodup : out.Nodup)
    (inside : ∀ i ∈ out, i < n ∧ p i = true) :
    (List.range n).countP p = (List.range n).countP (fun i => p i && decide (i ∉ out)) +
    out.length := by
  have perm : ((List.range n).filter fun i => decide (i ∈ out)).Perm out := by
    refine (List.perm_ext_iff_of_nodup (List.nodup_range.filter _) nodup).2 fun i => ?_
    simp only [List.mem_filter, List.mem_range, decide_eq_true_eq, and_iff_right_iff_imp]
    exact fun mem => (inside i mem).1
  rw [List.countP_eq_countP_filter_add _ p fun i => decide (i ∉ out), ← perm.length_eq]
  congr 1
  · rw [List.countP_filter]
  · rw [List.countP_filter, List.countP_eq_length_filter]
    congr 1
    refine List.filter_congr fun i _ => ?_
    by_cases mem : i ∈ out
    · simp [mem, (inside i mem).2]
    · simp [mem]

/-- The elements before and after an index. -/
lemma split_at (h : l[i]? = some x) :
    l = l.take i ++ x :: l.drop (i + 1) ∧ ∀ y, l.set i y = l.take i ++ y :: l.drop (i + 1) := by
  obtain ⟨lt, rfl⟩ := List.getElem?_eq_some_iff.1 h
  refine ⟨?_, fun y => ?_⟩
  · rw [← List.drop_eq_getElem_cons lt, List.take_append_drop]
  · rw [List.set_eq_take_append_cons_drop, if_pos lt]

/-- The sum of a measure after an update. -/
lemma sum_set (h : l[i]? = some x) (y : α) (f : α → Nat) :
    ((l.set i y).map f).sum + f x = (l.map f).sum + f y := by
  obtain ⟨same, update⟩ := split_at h
  rw [update y]
  conv_rhs => rw [same]
  simp only [List.map_append, List.map_cons, List.sum_append, List.sum_cons]
  omega

/-- An update that makes an element count for a partial function. -/
lemma filterMap_set {β : Type u} {f : α → Option β} (h : l[i]? = some x) (hx : f x = none) (y : α) :
    ((l.set i y).filterMap f).Perm ((f y).toList ++ l.filterMap f) := by
  obtain ⟨same, update⟩ := split_at h
  rw [update y]
  conv_rhs => rw [same]
  simp only [List.filterMap_append, List.filterMap_cons, hx]
  cases f y with
  | none => exact .refl _
  | some b => exact List.perm_middle

/-- The first element with a property. -/
lemma exists_first {p : α → Bool} (h : ∃ a ∈ l, p a = true) :
    ∃ i a, l[i]? = some a ∧ p a = true ∧ ∀ b ∈ l.take i, p b = false := by
  induction l with
  | nil => simp at h
  | cons a l ih =>
    cases first : p a with
    | true => exact ⟨0, a, rfl, first, by simp⟩
    | false =>
      obtain ⟨b, hb, pb⟩ := h
      rcases List.mem_cons.1 hb with rfl | hb
      · rw [first] at pb
        cases pb
      · obtain ⟨i, z, at_i, pz, before⟩ := ih ⟨b, hb, pb⟩
        refine ⟨i + 1, z, at_i, pz, ?_⟩
        rw [List.take_succ_cons]
        exact List.forall_mem_cons.2 ⟨first, before⟩

end Lib
