import Mathlib

/-!
# Positions in a list

`Precedes l a b` says that `a` stands before `b` in the list `l`. What an element precedes can be
read off a split of the list at the other one (`precedes_append_cons`).

`precedes_insertIdx_iff` is about replacing several elements of a list by one: where the new element
has to go among the others for it to stand where the last of the replaced ones stood.
-/

namespace Lib

universe u
variable {α : Type u} [DecidableEq α]

/-- `a` stands before `b`. -/
def Precedes (l : List α) (a b : α) : Prop := l.idxOf a < l.idxOf b

instance (l : List α) (a b : α) : Decidable (Precedes l a b) := inferInstanceAs (Decidable (_ < _))

lemma precedes_asymm {l : List α} {a b : α} (h : Precedes l a b) : ¬ Precedes l b a :=
  Nat.lt_asymm h

/-- The elements before `b` are those of the list up to `b`. -/
lemma precedes_append_cons {front back : List α} {a b : α} (fresh : b ∉ front) :
    Precedes (front ++ b :: back) a b ↔ a ∈ front := by
  have pos : (front ++ b :: back).idxOf b = front.length := by
    rw [List.idxOf_append_of_notMem fresh, List.idxOf_cons_self, Nat.add_zero]
  rw [Precedes, pos]
  constructor
  · intro lt
    by_contra absent
    rw [List.idxOf_append_of_notMem absent] at lt
    omega
  · intro mem
    rw [List.idxOf_append_of_mem mem]
    exact List.idxOf_lt_length_of_mem mem

/-- The first part of a list precedes the second. -/
lemma precedes_of_mem_append {front back : List α} (nodup : (front ++ back).Nodup) {a b : α}
    (ha : a ∈ front) (hb : b ∈ back) : Precedes (front ++ back) a b := by
  have absent : b ∉ front := fun mem => (List.nodup_append.1 nodup).2.2 b mem b hb rfl
  rw [Precedes, List.idxOf_append_of_mem ha, List.idxOf_append_of_notMem absent]
  have := List.idxOf_lt_length_of_mem ha
  omega

/-- In the second part of a list the order is its own. -/
lemma precedes_append_right {front back : List α} (nodup : (front ++ back).Nodup) {a b : α}
    (ha : a ∈ back) (hb : b ∈ back) :
    Precedes (front ++ back) a b ↔ Precedes back a b := by
  have disjoint := (List.nodup_append.1 nodup).2.2
  have ha' : a ∉ front := fun mem => disjoint a mem a ha rfl
  have hb' : b ∉ front := fun mem => disjoint b mem b hb rfl
  rw [Precedes, List.idxOf_append_of_notMem ha', List.idxOf_append_of_notMem hb', Precedes]
  omega

/-- In a list of consecutive numbers the smaller precedes the larger. -/
lemma precedes_range' {start len a b : Nat} (ha : a ∈ List.range' start len)
    (hb : b ∈ List.range' start len) : Precedes (List.range' start len) a b ↔ a < b := by
  have pos : ∀ x ∈ List.range' start len, (List.range' start len).idxOf x = x - start := by
    intro x hx
    obtain ⟨lower, upper⟩ := List.mem_range'_1.1 hx
    have at_x : (List.range' start len)[x - start]? = some x := by
      rw [List.getElem?_range' (by omega)]
      congr 1
      omega
    obtain ⟨lt, eq⟩ := List.getElem?_eq_some_iff.1 at_x
    have := List.Nodup.idxOf_getElem List.nodup_range' (x - start) lt
    rwa [eq] at this
  rw [Precedes, pos a ha, pos b hb]
  have := (List.mem_range'_1.1 ha).1
  have := (List.mem_range'_1.1 hb).1
  omega

lemma idxOf?_of_mem {l : List α} {a : α} (h : a ∈ l) : l.idxOf? a = some (l.idxOf a) := by
  have lt := List.idxOf_lt_length_of_mem h
  rw [List.idxOf_eq_getD_idxOf?] at lt ⊢
  cases found : l.idxOf? a with
  | none =>
    rw [found] at lt
    exact absurd lt (Nat.lt_irrefl _)
  | some i => rfl

omit [DecidableEq α] in
/-- Two elements of a list are related the way they stand. -/
lemma pairwise_or {R : α → α → Prop} {l : List α} (h : l.Pairwise R) {a b : α} (ha : a ∈ l)
    (hb : b ∈ l) (ne : a ≠ b) : R a b ∨ R b a := by
  obtain ⟨i, hi, rfl⟩ := List.getElem_of_mem ha
  obtain ⟨j, hj, rfl⟩ := List.getElem_of_mem hb
  rw [List.pairwise_iff_getElem] at h
  rcases lt_trichotomy i j with lt | rfl | gt
  · exact .inl (h i j hi hj lt)
  · exact absurd rfl ne
  · exact .inr (h j i hj hi gt)

omit [DecidableEq α] in
lemma insertIdx_eq_take_drop {l : List α} {i : Nat} (le : i ≤ l.length) (a : α) :
    l.insertIdx i a = l.take i ++ a :: l.drop i := by
  induction l generalizing i with
  | nil =>
    obtain rfl : i = 0 := Nat.le_zero.1 le
    rfl
  | cons b l ih =>
    cases i with
    | zero => rfl
    | succ i =>
      rw [List.insertIdx_succ_cons, ih (Nat.le_of_succ_le_succ le)]
      rfl

/-- The elements with `gone`, the last of which is `x`, leave the list, and `m` enters at the old
position of `x`. It stands among the others where `x` stood exactly if nothing else left, or nothing
stood after `x`. -/
lemma precedes_insertIdx_iff (gone : α → Prop) [DecidablePred gone] {front back : List α} {x m : α}
    (nodup : (front ++ x :: back).Nodup) (leaves : gone x)
    (last : ∀ a ∈ back, ¬ gone a) (fresh : m ∉ front ++ x :: back) {others : List α}
    (others_eq : others = (front ++ x :: back).filter (¬ gone ·)) :
    (∀ a ∈ others, Precedes (others.insertIdx (min front.length others.length) m) a m ↔
      Precedes (front ++ x :: back) a x) ↔ (∀ a ∈ front, ¬ gone a) ∨ back = [] := by
  have split : others = front.filter (¬ gone ·) ++ back := by
    have stay : back.filter (¬ gone ·) = back := List.filter_eq_self.2 (by simpa using last)
    rw [others_eq, List.filter_append, List.filter_cons_of_neg (by simp [leaves]), stay]
  have x_front : x ∉ front := fun mem =>
    (List.nodup_append.1 nodup).2.2 x mem x List.mem_cons_self rfl
  have m_others : m ∉ others := by
    rw [others_eq]
    exact fun mem => fresh (List.mem_of_mem_filter mem)
  have apart : ∀ a ∈ back, a ∉ front := fun a ha mem =>
    (List.nodup_append.1 nodup).2.2 a mem a (List.mem_cons_of_mem _ ha) rfl
  have short : (front.filter (¬ gone ·)).length ≤ front.length := List.length_filter_le ..
  have len : others.length = (front.filter (¬ gone ·)).length + back.length := by
    rw [split, List.length_append]
  -- both sides are about the first elements of `others`
  have before : ∀ i ≤ others.length, ∀ a, Precedes (others.insertIdx i m) a m ↔
      a ∈ others.take i := by
    intro i le a
    rw [insertIdx_eq_take_drop le]
    exact precedes_append_cons fun mem => m_others (List.mem_of_mem_take mem)
  have kept : ∀ a ∈ others, (a ∈ others.take (front.filter (¬ gone ·)).length ↔ a ∈ front) := by
    intro a ha
    rw [split, List.take_left]
    constructor
    · exact List.mem_of_mem_filter
    · intro mem
      rw [split] at ha
      rcases List.mem_append.1 ha with h | h
      · exact h
      · exact absurd mem (apart a h)
  have none_gone : front.length = (front.filter (¬ gone ·)).length ↔ ∀ a ∈ front, ¬ gone a := by
    rw [eq_comm, List.length_filter_eq_length_iff]
    simp
  rw [← none_gone, ← List.length_eq_zero_iff (l := back)]
  constructor
  · intro same
    by_contra neither
    rw [not_or] at neither
    -- the first element after `x` now precedes `m`
    have lt : (front.filter (¬ gone ·)).length < others.length := by omega
    have mem : others[(front.filter (¬ gone ·)).length] ∈ others := List.getElem_mem lt
    have in_take : others[(front.filter (¬ gone ·)).length] ∈
        others.take (min front.length others.length) := by
      rw [List.mem_take_iff_getElem]
      exact ⟨(front.filter (¬ gone ·)).length, by omega, rfl⟩
    have in_front := (precedes_append_cons x_front).1
      ((same _ mem).1 ((before _ (Nat.min_le_right ..) _).2 in_take))
    have in_back : others[(front.filter (¬ gone ·)).length] ∈ back := by
      have : others[(front.filter (¬ gone ·)).length]? = back[0]? := by
        conv_lhs => rw [split]
        rw [List.getElem?_append_right le_rfl, Nat.sub_self]
      rw [List.getElem?_eq_getElem lt] at this
      exact List.mem_of_getElem? this.symm
    exact apart _ in_back in_front
  · intro either a ha
    have here : min front.length others.length = (front.filter (¬ gone ·)).length := by omega
    rw [here, before _ (by omega), kept a ha, precedes_append_cons x_front]

end Lib
