import Mathlib

/-!
# Maps on disjoint intervals

A finite map from offsets to values stored as a list of entries, each a value on a half-open
interval. The structure carries its invariant: entries are non-empty by construction and stand in
ascending order without overlap, so two maps with the same entries are equal (`IntervalMap.ext_mem`)
and an offset meets at most one entry (`IntervalMap.find_eq_some`).

A value may depend on the distance from the start of its entry. `shift v d` moves a value `d`
offsets to the right, and `IntervalMap.valueAt` is the value at an offset.
-/

namespace Lib

universe u
variable {V : Type u}

/-- The value `value` on `[start, stop)`. -/
structure Entry (V : Type u) where
  start : Nat
  stop : Nat
  value : V
  lt : start < stop
  deriving DecidableEq

namespace Entry

/-- An entry is its bounds and its value. -/
lemma eq_of {a b : Entry V} (h₁ : a.start = b.start) (h₂ : a.stop = b.stop)
    (h₃ : a.value = b.value) : a = b := by
  obtain ⟨s, t, v, lt⟩ := a
  cases h₁
  cases h₂
  cases h₃
  rfl

/-- The offset lies in the entry. -/
def Has (e : Entry V) (x : Nat) : Prop := e.start ≤ x ∧ x < e.stop

instance (e : Entry V) (x : Nat) : Decidable (e.Has x) := inferInstanceAs (Decidable (_ ∧ _))

/-- The entry shares an offset with `[start, stop)`. -/
def Meets (e : Entry V) (start stop : Nat) : Prop := e.start < stop ∧ start < e.stop

instance (e : Entry V) (start stop : Nat) : Decidable (e.Meets start stop) :=
  inferInstanceAs (Decidable (_ ∧ _))

lemma meets_of_has {e : Entry V} {start stop x : Nat} (h : e.Has x) (h₁ : start ≤ x)
    (h₂ : x < stop) : e.Meets start stop := ⟨h.1.trans_lt h₂, h₁.trans_lt h.2⟩

end Entry

/-- Entries in ascending order, none overlapping the next. -/
structure IntervalMap (V : Type u) where
  entries : List (Entry V)
  ordered : entries.Pairwise fun a b => a.stop ≤ b.start
  deriving DecidableEq

namespace IntervalMap

/-- The map without entries. -/
def empty : IntervalMap V := ⟨[], .nil⟩

/-- Two entries of a map are equal or lie apart. -/
lemma apart (m : IntervalMap V) {a b} (ha : a ∈ m.entries) (hb : b ∈ m.entries) :
    a = b ∨ a.stop ≤ b.start ∨ b.stop ≤ a.start := by
  obtain ⟨l, ord⟩ := m
  induction l with
  | nil => cases ha
  | cons e l ih =>
    obtain ⟨hd, tl⟩ := List.pairwise_cons.1 ord
    rcases List.mem_cons.1 ha with rfl | ha' <;> rcases List.mem_cons.1 hb with rfl | hb'
    · exact .inl rfl
    · exact .inr (.inl (hd b hb'))
    · exact .inr (.inr (hd a ha'))
    · exact ih tl ha' hb'

/-- An offset lies in one entry at most. -/
lemma eq_of_has (m : IntervalMap V) {a b} {x : Nat} (ha : a ∈ m.entries) (hb : b ∈ m.entries)
    (h₁ : a.Has x) (h₂ : b.Has x) : a = b := by
  unfold Entry.Has at h₁ h₂
  rcases m.apart ha hb with h | h | h
  · exact h
  · omega
  · omega

lemma nodup (m : IntervalMap V) : m.entries.Nodup := by
  refine m.ordered.imp ?_
  rintro a b h rfl
  have := a.lt
  omega

/-- A map is determined by its entries, whatever their order. -/
lemma ext_mem {m n : IntervalMap V} (h : ∀ e, e ∈ m.entries ↔ e ∈ n.entries) : m = n := by
  have perm : m.entries.Perm n.entries := (List.perm_ext_iff_of_nodup m.nodup n.nodup).2 h
  have eq : m.entries = n.entries := by
    refine List.Perm.eq_of_pairwise ?_ m.ordered n.ordered perm
    intro a b _ _ h₁ h₂
    have h₃ := a.lt
    have h₄ := b.lt
    omega
  cases m
  cases n
  cases eq
  rfl

/-- The entry at an offset. -/
def find (m : IntervalMap V) (x : Nat) : Option (Entry V) := m.entries.find? fun e => e.Has x

lemma find_eq_some {m : IntervalMap V} {x : Nat} {e} :
    m.find x = some e ↔ e ∈ m.entries ∧ e.Has x := by
  constructor
  · intro h
    exact ⟨List.mem_of_find?_eq_some h, by simpa using List.find?_some h⟩
  · rintro ⟨mem, has⟩
    cases h : m.find x with
    | none =>
      have := List.find?_eq_none.1 h e mem
      exact absurd has (by simpa using this)
    | some a =>
      have ha : a.Has x := by simpa using List.find?_some h
      rw [m.eq_of_has (List.mem_of_find?_eq_some h) mem ha has]

lemma find_eq_none {m : IntervalMap V} {x : Nat} :
    m.find x = none ↔ ∀ e ∈ m.entries, ¬ e.Has x := by
  simp [find, List.find?_eq_none]

/-- The value at an offset, moved by its distance from the start of its entry. -/
def valueAt (m : IntervalMap V) (shift : V → Nat → V) (x : Nat) : Option V :=
  (m.find x).map fun e => shift e.value (x - e.start)

lemma valueAt_of_mem {m : IntervalMap V} {shift : V → Nat → V} {x : Nat} {e} (he : e ∈ m.entries)
    (has : e.Has x) : m.valueAt shift x = some (shift e.value (x - e.start)) := by
  rw [valueAt, find_eq_some.2 ⟨he, has⟩, Option.map_some]

lemma valueAt_eq_none {m : IntervalMap V} {shift : V → Nat → V} {x : Nat} :
    m.valueAt shift x = none ↔ ∀ e ∈ m.entries, ¬ e.Has x := by
  rw [valueAt, Option.map_eq_none_iff, find_eq_none]

lemma valueAt_eq_some {m : IntervalMap V} {shift : V → Nat → V} {x : Nat} {v} :
    m.valueAt shift x = some v ↔ ∃ e ∈ m.entries, e.Has x ∧ v = shift e.value (x - e.start) := by
  simp only [valueAt, Option.map_eq_some_iff, find_eq_some, and_assoc, eq_comm (a := v)]

/-- One entry more. -/
lemma valueAt_of_mem_iff {m m' : IntervalMap V} {shift : V → Nat → V} {e}
    (h : ∀ y, y ∈ m'.entries ↔ y = e ∨ y ∈ m.entries) (x : Nat) :
    m'.valueAt shift x =
      if e.Has x then some (shift e.value (x - e.start)) else m.valueAt shift x := by
  split
  · rename_i has
    exact valueAt_of_mem ((h e).2 (.inl rfl)) has
  · rename_i has
    apply Option.ext
    intro v
    rw [valueAt_eq_some, valueAt_eq_some]
    constructor
    · rintro ⟨y, hy, hx, hv⟩
      rcases (h y).1 hy with rfl | hy
      · exact absurd hx has
      · exact ⟨y, hy, hx, hv⟩
    · rintro ⟨y, hy, hx, hv⟩
      exact ⟨y, (h y).2 (.inr hy), hx, hv⟩

/-- Keep the entries with `p`. -/
def filter (m : IntervalMap V) (p : Entry V → Bool) : IntervalMap V :=
  ⟨m.entries.filter p, m.ordered.filter p⟩

lemma find_filter {m : IntervalMap V} {p : Entry V → Bool} {x : Nat} :
    (m.filter p).find x = (m.find x).filter p := by
  apply Option.ext
  intro e
  simp only [find_eq_some, filter, List.mem_filter, Option.filter_eq_some_iff]
  tauto

/-- Add an entry that lies apart from all others. -/
def insert (m : IntervalMap V) (e : Entry V)
    (h : ∀ a ∈ m.entries, a.stop ≤ e.start ∨ e.stop ≤ a.start) : IntervalMap V where
  entries := m.entries.filter (·.start < e.start) ++ e :: m.entries.filter (e.start ≤ ·.start)
  ordered := by
    have before : ∀ a ∈ m.entries, a.start < e.start → a.stop ≤ e.start := by
      intro a ha lt
      have h₁ := h a ha
      have h₂ := e.lt
      omega
    have after : ∀ a ∈ m.entries, e.start ≤ a.start → e.stop ≤ a.start := by
      intro a ha le
      have h₁ := h a ha
      have h₂ := a.lt
      omega
    rw [List.pairwise_append, List.pairwise_cons]
    refine ⟨m.ordered.filter _, ⟨?_, m.ordered.filter _⟩, ?_⟩
    · intro a ha
      obtain ⟨mem, le⟩ := List.mem_filter.1 ha
      exact after a mem (by simpa using le)
    · intro a ha b hb
      obtain ⟨mem, lt⟩ := List.mem_filter.1 ha
      have le := before a mem (by simpa using lt)
      rcases List.mem_cons.1 hb with rfl | hb
      · exact le
      · obtain ⟨_, le'⟩ := List.mem_filter.1 hb
        have : e.start ≤ b.start := by simpa using le'
        omega

lemma mem_insert {m : IntervalMap V} {e a} {h} :
    a ∈ (m.insert e h).entries ↔ a = e ∨ a ∈ m.entries := by
  simp only [insert, List.mem_append, List.mem_cons, List.mem_filter, decide_eq_true_eq]
  constructor
  · rintro (h | h | h)
    · exact .inr h.1
    · exact .inl h
    · exact .inr h.1
  · rintro (h | h)
    · exact .inr (.inl h)
    · rcases lt_or_ge a.start e.start with lt | ge
      · exact .inl ⟨h, lt⟩
      · exact .inr (.inr ⟨h, ge⟩)

end IntervalMap

end Lib
