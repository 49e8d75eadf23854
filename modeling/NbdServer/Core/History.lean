import NbdServer.Core.Record
import NbdServer.Lib.Overwrite

/-!
# Histories of WAL records

The content of an export after a list of applied records: the abstract side of the read view. A
history starts after the sequence `first`, and its records have the sequences `first + 1`,
`first + 2` and so on (`Consecutive`).
-/

namespace NbdServer

open Lib

namespace WalRecord

/-- The record writes at `x`. -/
def covers (r : WalRecord) (x : Nat) : Bool := r.range.Has x

/-- The byte the record writes at an offset it covers. -/
def value (r : WalRecord) (x : Nat) : UInt8 := (r.byteAt x).getD 0

lemma covers_iff {r : WalRecord} {x : Nat} : r.covers x = true ↔ r.range.Has x := by
  simp [covers]

lemma byteAt_eq {r : WalRecord} {x : Nat} (h : r.range.Has x) : r.byteAt x = some (r.value x) := by
  obtain ⟨h₁, h₂⟩ := h
  have lt : x - r.range.start < r.data.length := by
    rw [r.data_len]
    omega
  rw [value, byteAt, List.getElem?_eq_getElem lt]
  rfl

end WalRecord

/-- The record an offset reads from after the history `h`. -/
abbrev writerIn (h : List WalRecord) (x : Nat) : Option WalRecord :=
  lastWriter WalRecord.covers h x

/-- The content after the history `h` over the content `base`. -/
abbrev contentAfter (base : Nat → UInt8) (h : List WalRecord) (x : Nat) : UInt8 :=
  flat WalRecord.covers WalRecord.value base h x

/-- The records have the sequences that follow `first`. -/
def Consecutive (first : Nat) (h : List WalRecord) : Prop :=
  ∀ i r, h[i]? = some r → r.seq = first + i + 1

namespace Consecutive

variable {first : Nat} {h h' : List WalRecord}

lemma nil : Consecutive first [] := by simp [Consecutive]

lemma append (c : Consecutive first h) (c' : Consecutive (first + h.length) h') :
    Consecutive first (h ++ h') := by
  intro i r e
  by_cases hi : i < h.length
  · rw [List.getElem?_append_left hi] at e
    exact c i r e
  · rw [List.getElem?_append_right (by omega)] at e
    have := c' _ r e
    omega

lemma concat {r : WalRecord} (c : Consecutive first h) (hr : r.seq = first + h.length + 1) :
    Consecutive first (h ++ [r]) := by
  refine c.append ?_
  intro i r' e
  obtain ⟨hlt, e⟩ := List.getElem?_eq_some_iff.1 e
  simp only [List.length_singleton] at hlt
  simp only [List.getElem_singleton] at e
  rw [← e, hr]
  omega

lemma left (c : Consecutive first (h ++ h')) : Consecutive first h := by
  intro i r e
  refine c i r ?_
  rw [List.getElem?_append_left, e]
  exact (List.getElem?_eq_some_iff.1 e).1

lemma right (c : Consecutive first (h ++ h')) : Consecutive (first + h.length) h' := by
  intro i r e
  have := c (h.length + i) r (by
    rw [List.getElem?_append_right (by omega), Nat.add_sub_cancel_left, e])
  omega

lemma head {r : WalRecord} (c : Consecutive first (r :: h)) : r.seq = first + 1 := c 0 r rfl

lemma tail {r : WalRecord} (c : Consecutive first (r :: h)) : Consecutive (first + 1) h :=
  right (show Consecutive first ([r] ++ h) from c)

lemma bounds (c : Consecutive first h) {r} (hr : r ∈ h) :
    first < r.seq ∧ r.seq ≤ first + h.length := by
  obtain ⟨i, hi, e⟩ := List.getElem_of_mem hr
  have := c i r (by rw [List.getElem?_eq_getElem hi, e])
  omega

lemma pairwise (c : Consecutive first h) : h.Pairwise fun a b => a.seq < b.seq := by
  rw [List.pairwise_iff_getElem]
  intro i j hi hj lt
  have h₁ := c i _ (List.getElem?_eq_getElem hi)
  have h₂ := c j _ (List.getElem?_eq_getElem hj)
  omega

lemma map_seq (c : Consecutive first h) : h.map (·.seq) = List.range' (first + 1) h.length := by
  refine List.ext_getElem (by simp) fun i h₁ h₂ => ?_
  rw [List.length_map] at h₁
  rw [List.getElem_map, List.getElem_range', c i _ (List.getElem?_eq_getElem h₁)]
  omega

lemma lt_or_gt (c : Consecutive first h) {r r'} (hr : r ∈ h) (hr' : r' ∈ h) (ne : r ≠ r') :
    r.seq < r'.seq ∨ r'.seq < r.seq := by
  obtain ⟨i, hi, rfl⟩ := List.getElem_of_mem hr
  obtain ⟨j, hj, rfl⟩ := List.getElem_of_mem hr'
  have h₁ := c i _ (List.getElem?_eq_getElem hi)
  have h₂ := c j _ (List.getElem?_eq_getElem hj)
  have : i ≠ j := by
    rintro rfl
    exact ne rfl
  omega

lemma filter_eq_drop (c : Consecutive 0 h) (p : Nat) :
    h.filter (p < ·.seq) = h.drop p := by
  conv_lhs => rw [← List.take_append_drop p h]
  have split : Consecutive 0 (h.take p ++ h.drop p) := by rwa [List.take_append_drop]
  rw [List.filter_append, List.filter_eq_nil_iff.2, List.filter_eq_self.2, List.nil_append]
  · intro r hr
    have := split.right.bounds hr
    have long : p < h.length := by
      by_contra short
      rw [List.drop_eq_nil_of_le (by omega)] at hr
      simp at hr
    rw [List.length_take] at this
    simp only [decide_eq_true_eq]
    omega
  · intro r hr
    have := split.left.bounds hr
    rw [List.length_take] at this
    simp only [decide_eq_true_eq]
    omega

end Consecutive

end NbdServer
