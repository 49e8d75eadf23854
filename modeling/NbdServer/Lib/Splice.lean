import Mathlib

/-!
# Slices of a buffer

Reading a slice of a list and overwriting one, with the lookup of both. A buffer that is filled by
several overwrites is described by the positions at which it already agrees with the wanted content
(`Agrees`): an overwrite with right content adds its positions (`Agrees.splice`).
-/

namespace Lib

universe u
variable {α : Type u}

/-- The `len` elements from `off` on. -/
def slice (l : List α) (off len : Nat) : List α := (l.drop off).take len

@[simp] lemma length_slice {l : List α} {off len : Nat} (h : off + len ≤ l.length) :
    (slice l off len).length = len := by
  simp only [slice, List.length_take, List.length_drop]
  omega

lemma getElem?_slice {l : List α} {off len i : Nat} (h : i < len) :
    (slice l off len)[i]? = l[off + i]? := by
  rw [slice, List.getElem?_take_of_lt h, List.getElem?_drop]

/-- A slice of the right part of a concatenation. -/
lemma slice_append_right (l l' : List α) (off len : Nat) :
    slice (l ++ l') (l.length + off) len = slice l' off len := by
  rw [slice, slice, List.drop_append, List.drop_eq_nil_of_le (by omega), List.nil_append,
    Nat.add_sub_cancel_left]

/-- A slice of the left part of a concatenation. -/
lemma slice_append_left {l : List α} (l' : List α) {off len : Nat} (h : off + len ≤ l.length) :
    slice (l ++ l') off len = slice l off len := by
  rw [slice, slice, List.drop_append_of_le_length (by omega), List.take_append_of_le_length]
  rw [List.length_drop]
  omega

/-- A slice of a slice. -/
lemma slice_slice {l : List α} {off len off' len' : Nat} (h : off' + len' ≤ len) :
    slice (slice l off len) off' len' = slice l (off + off') len' := by
  rw [slice, slice, slice, List.drop_take, List.take_take, List.drop_drop,
    Nat.min_eq_left (by omega)]

/-- The slice that holds all of a list. -/
lemma slice_all (l : List α) : slice l 0 l.length = l := by
  rw [slice, List.drop_zero, List.take_length]

/-- The slice that holds the right part of a concatenation. -/
lemma slice_last {l l' : List α} {off len : Nat} (h : l.length = off) (h' : l'.length = len) :
    slice (l ++ l') off len = l' := by
  subst h h'
  have := slice_append_right l l' 0 l'.length
  rwa [Nat.add_zero, slice_all] at this

/-- `data` with `src` written at `off`. -/
def splice (data : List α) (off : Nat) (src : List α) : List α :=
  data.take off ++ src ++ data.drop (off + src.length)

@[simp] lemma length_splice {data src : List α} {off : Nat}
    (h : off + src.length ≤ data.length) : (splice data off src).length = data.length := by
  simp only [splice, List.length_append, List.length_take, List.length_drop]
  omega

/-- The written positions hold `src`, all others are as before. -/
lemma getElem?_splice {data src : List α} {off i : Nat} (h : off + src.length ≤ data.length) :
    (splice data off src)[i]? =
      if off ≤ i ∧ i < off + src.length then src[i - off]? else data[i]? := by
  have hl : (data.take off).length = off := by
    rw [List.length_take]
    omega
  rw [splice, List.append_assoc]
  by_cases h₁ : i < off
  · rw [List.getElem?_append_left (by omega), List.getElem?_take_of_lt h₁, if_neg (by omega)]
  · rw [List.getElem?_append_right (by omega), hl]
    by_cases h₂ : i < off + src.length
    · rw [List.getElem?_append_left (by omega), if_pos ⟨by omega, h₂⟩]
    · rw [List.getElem?_append_right (by omega), List.getElem?_drop, if_neg (by omega)]
      congr 1
      omega

/-- `data` holds the content `f` at every position in `s`. -/
def Agrees (data : List α) (f : Nat → α) (s : Set Nat) : Prop :=
  ∀ i < data.length, i ∈ s → data[i]? = some (f i)

/-- Overwriting with right content extends the agreement. -/
lemma Agrees.splice {data : List α} {f : Nat → α} {s : Set Nat} (agree : Agrees data f s)
    (off : Nat) (src : List α) (fits : off + src.length ≤ data.length)
    (right : ∀ i < src.length, src[i]? = some (f (off + i))) :
    Agrees (splice data off src) f (s ∪ {i | off ≤ i ∧ i < off + src.length}) := by
  intro i hi hs
  rw [length_splice fits] at hi
  rw [getElem?_splice fits]
  by_cases h : off ≤ i ∧ i < off + src.length
  · rw [if_pos h, right _ (by omega)]
    congr 2
    omega
  · rw [if_neg h]
    rcases hs with hs | hs
    · exact agree i hi hs
    · exact absurd hs h

/-- A buffer that agrees everywhere is the content. -/
lemma Agrees.eq {data : List α} {f : Nat → α} {s : Set Nat} (agree : Agrees data f s)
    (all : ∀ i < data.length, i ∈ s) : data = (List.range data.length).map f := by
  apply List.ext_getElem?
  intro i
  by_cases hi : i < data.length
  · rw [agree i hi (all i hi), List.getElem?_map, List.getElem?_range hi]
    rfl
  · rw [List.getElem?_eq_none (by omega), List.getElem?_eq_none (by simp; omega)]

end Lib
