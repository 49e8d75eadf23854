import Mathlib

/-!
# Intervals cut at the multiples of a number

`Pieces c a b l` says that the list `l` of starts and lengths is the interval from `a` to `b`, cut
at the multiples of `c` that lie inside. There is one such list (`Pieces.unique`), and its pieces
are the nonempty parts of the interval in the blocks of length `c` (`Pieces.blocks`).
-/

namespace Lib

/-- Numbers of one block. -/
lemma same_block {c a i : Nat} (h : a % c + i < c) : (a + i) / c = a / c ∧ (a + i) % c = a % c +
    i := by
  have split := Nat.div_add_mod' a c
  refine ⟨?_, by rw [← Nat.mod_add_mod, Nat.mod_eq_of_lt h]⟩
  refine Nat.div_eq_of_lt_le (by omega) ?_
  rw [Nat.succ_mul]
  omega

/-- The length of the first piece. -/
def firstPiece (c a b : Nat) : Nat := min (c - a % c) (b - a)

/-- The pieces of an interval, as starts and lengths. -/
inductive Pieces (c : Nat) : Nat → Nat → List (Nat × Nat) → Prop where
  | nil {a} : Pieces c a a []
  | cons {a b l} : a < b → Pieces c (a + firstPiece c a b) b l →
      Pieces c a b ((a, firstPiece c a b) :: l)

variable {c a b : Nat} {l l' : List (Nat × Nat)}

lemma firstPiece_pos (pos : 0 < c) (lt : a < b) : 0 < firstPiece c a b := by
  have := Nat.mod_lt a pos
  unfold firstPiece
  omega

lemma firstPiece_le (lt : a < b) : a + firstPiece c a b ≤ b := by
  unfold firstPiece
  omega

/-- A piece does not cross a multiple of `c`. -/
lemma firstPiece_block (pos : 0 < c) (a b : Nat) : a % c + firstPiece c a b ≤ c := by
  have := Nat.mod_lt a pos
  unfold firstPiece
  omega

/-- The first piece ends at the end of the interval, or the second one starts the next block. -/
lemma firstPiece_next (pos : 0 < c) (lt : a < b) (more : a + firstPiece c a b < b) :
    (a + firstPiece c a b) / c = a / c + 1 ∧ (a + firstPiece c a b) % c = 0 := by
  have small := Nat.mod_lt a pos
  have split := Nat.div_add_mod a c
  have len : firstPiece c a b = c - a % c := by
    unfold firstPiece at more ⊢
    omega
  have sum : a + firstPiece c a b = c * (a / c + 1) := by
    rw [len, Nat.mul_add, Nat.mul_one]
    omega
  rw [sum]
  exact ⟨Nat.mul_div_cancel_left _ pos, Nat.mul_mod_right _ _⟩

namespace Pieces

lemma le (h : Pieces c a b l) : a ≤ b := by
  induction h with
  | nil => exact le_rfl
  | cons lt _ _ => exact lt.le

lemma eq_nil (h : Pieces c a b l) (empty : ¬ a < b) : l = [] := by
  cases h with
  | nil => rfl
  | cons lt _ => exact absurd lt empty

/-- There is one way to cut an interval. -/
lemma unique (h : Pieces c a b l) (h' : Pieces c a b l') : l = l' := by
  induction h generalizing l' with
  | nil =>
    cases h' with
    | nil => rfl
    | cons lt _ => exact absurd lt (lt_irrefl _)
  | cons lt _ ih =>
    cases h' with
    | nil => exact absurd lt (lt_irrefl _)
    | cons _ rest => rw [ih rest]

/-- Every piece lies in the interval and in one block. -/
lemma mem (pos : 0 < c) (h : Pieces c a b l) {p : Nat × Nat} (hp : p ∈ l) :
    a ≤ p.1 ∧ 0 < p.2 ∧ p.1 + p.2 ≤ b ∧ p.1 % c + p.2 ≤ c := by
  induction h with
  | nil => cases hp
  | @cons a b l lt rest ih =>
    rcases List.mem_cons.1 hp with rfl | hp
    · exact ⟨le_rfl, firstPiece_pos pos lt, firstPiece_le lt, firstPiece_block pos a b⟩
    · obtain ⟨h₁, h₂⟩ := ih hp
      exact ⟨by omega, h₂⟩

/-- The pieces are in blocks that follow each other. -/
lemma blocks_from (pos : 0 < c) (h : Pieces c a b l) :
    l.map (·.1 / c) = List.range' (a / c) l.length := by
  induction h with
  | nil => rfl
  | @cons a b l lt rest ih =>
    rw [List.map_cons, List.length_cons, List.range'_succ, ih]
    by_cases more : a + firstPiece c a b < b
    · rw [(firstPiece_next pos lt more).1]
    · rw [rest.eq_nil more]
      rfl

/-- One piece for each block that the interval meets. -/
lemma blocks (pos : 0 < c) (h : Pieces c a b l) :
    (l.map (·.1 / c)).Nodup ∧ ∀ k, k ∈ l.map (·.1 / c) ↔ ∃ x, a ≤ x ∧ x < b ∧ x / c = k := by
  constructor
  · rw [h.blocks_from pos]
    exact List.nodup_range'
  · intro k
    induction h with
    | nil =>
      simp only [List.map_nil, List.not_mem_nil, false_iff]
      rintro ⟨x, h₁, h₂, -⟩
      omega
    | @cons a b l lt rest ih =>
      have le := rest.le
      have first := firstPiece_pos pos lt
      rw [List.map_cons, List.mem_cons, ih]
      constructor
      · rintro (rfl | ⟨x, h₁, h₂, h₃⟩)
        · exact ⟨a, le_rfl, lt, rfl⟩
        · exact ⟨x, by omega, h₂, h₃⟩
      · rintro ⟨x, h₁, h₂, rfl⟩
        by_cases early : x < a + firstPiece c a b
        · left
          -- The first piece stays in the block of its start.
          have block := firstPiece_block pos a b
          obtain ⟨i, rfl⟩ := Nat.exists_eq_add_of_le h₁
          exact (same_block (by omega)).1
        · exact .inr ⟨x, by omega, h₂, rfl⟩

end Pieces

end Lib
