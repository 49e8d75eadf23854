import NbdServer.Core.Range
import NbdServer.Core.Bytes

/-!
# Blocks

Model of `Block` and `BlockPart` of `tree/read.rs`, the result of a read of the committed tree. The
constructor checks that the parts tile the range, which is a field of the structure here.
-/

namespace NbdServer

open Lib

/-- Rust `BlockPart`. -/
inductive BlockPart where
  | data (range : ByteRange) (bytes : Buf)
  | zero (range : ByteRange)
  deriving DecidableEq

namespace BlockPart

/-- Rust `BlockPart::range`. -/
def range : BlockPart → ByteRange
  | data r _ => r
  | zero r => r

def bytes : BlockPart → Buf
  | data _ b => b
  | zero r => List.replicate r.len 0

end BlockPart

/-- Rust `invalid_block`. -/
def invalidBlock (message : String) : ServerError := .io "block read" message

/-- Rust `checked_range_end`. -/
def checkedRangeEnd (range : ByteRange) : Res Nat :=
  okOr (checkedAdd range.start range.len) (invalidBlock "range end overflowed")

/-- The length check of a data part in `validate_block_parts`. -/
def validatePartLen : BlockPart → Res Unit
  | .data range bytes =>
    if bytes.length ≠ range.len then
      fail (invalidBlock s!"data part has {bytes.length} bytes for {range.len} byte range")
    else .ok ()
  | .zero _ => .ok ()

/-- The loop of `validate_block_parts`. -/
def validatePartsLoop (readEnd : Nat) : List BlockPart → Nat → Res Nat
  | [], expectedStart => .ok expectedStart
  | part :: parts, expectedStart =>
    if part.range.start ≠ expectedStart then
      fail (invalidBlock s!"part starts at {part.range.start}, expected {expectedStart}")
    else do
      validatePartLen part
      let expectedStart ← checkedRangeEnd part.range
      if expectedStart > readEnd then fail (invalidBlock "parts exceed read range")
      else validatePartsLoop readEnd parts expectedStart

/-- Rust `validate_block_parts`. -/
def validateBlockParts (range : ByteRange) (parts : List BlockPart) : Res Unit := do
  let readEnd ← checkedRangeEnd range
  let expectedStart ← validatePartsLoop readEnd parts range.start
  if expectedStart ≠ readEnd then
    fail (invalidBlock s!"parts end at {expectedStart}, expected {readEnd}")
  else .ok ()

/-- Rust `Block`. -/
structure Block where
  range : ByteRange
  parts : List BlockPart
  valid : validateBlockParts range parts = .ok ()

namespace Block

/-- Rust `Block::new`. -/
def new (range : ByteRange) (parts : List BlockPart) : Res Block :=
  match h : validateBlockParts range parts with
  | .ok () => .ok ⟨range, parts, h⟩
  | .error fault => .error fault

/-- Rust `Block::materialize`. -/
def materialize (b : Block) : Buf := b.parts.flatMap (·.bytes)

end Block

/-- Parts that follow each other without a gap from `start` to `stop`, each with as many bytes as
its range says. -/
inductive Tiles : List BlockPart → Nat → Nat → Prop where
  | nil {start} : Tiles [] start start
  | cons {part parts stop} :
    part.bytes.length = part.range.len →
    Tiles parts (part.range.start + part.range.len) stop →
    Tiles (part :: parts) part.range.start stop

namespace Tiles

lemma le {parts : List BlockPart} {start stop : Nat} (h : Tiles parts start stop) :
    start ≤ stop := by
  induction h with
  | nil => exact le_rfl
  | cons _ _ ih => omega

lemma length {parts : List BlockPart} {start stop : Nat} (h : Tiles parts start stop) :
    (parts.flatMap (·.bytes)).length = stop - start := by
  induction h with
  | nil => simp
  | @cons part parts stop hl rest ih =>
    have := rest.le
    rw [List.flatMap_cons, List.length_append, ih, hl]
    omega

lemma part {parts : List BlockPart} {start stop : Nat} (h : Tiles parts start stop) {p}
    (hp : p ∈ parts) :
    start ≤ p.range.start ∧ p.range.start + p.range.len ≤ stop ∧
      p.bytes.length = p.range.len ∧
      ∀ i < p.range.len, (parts.flatMap (·.bytes))[p.range.start - start + i]? = p.bytes[i]? := by
  induction h with
  | nil => simp at hp
  | @cons part parts stop hl rest ih =>
    have le := rest.le
    rcases List.mem_cons.1 hp with rfl | hp
    · refine ⟨le_rfl, le, hl, ?_⟩
      intro i hi
      rw [Nat.sub_self, Nat.zero_add, List.flatMap_cons, List.getElem?_append_left (by omega)]
    · obtain ⟨h₁, h₂, h₃, h₄⟩ := ih hp
      refine ⟨by omega, h₂, h₃, ?_⟩
      intro i hi
      rw [List.flatMap_cons, List.getElem?_append_right (by omega), ← h₄ i hi, hl]
      congr 1
      omega

end Tiles

lemma validatePartLen_eq_ok {part : BlockPart} :
    validatePartLen part = .ok () ↔ part.bytes.length = part.range.len := by
  cases part with
  | data range bytes =>
    rw [validatePartLen]
    split
    · rename_i ne
      simp only [fail, reduceCtorEq, false_iff]
      exact ne
    · rename_i eq
      simp only [true_iff]
      exact not_not.1 eq
  | zero range => simp [validatePartLen, BlockPart.bytes, BlockPart.range]

lemma checkedRangeEnd_eq_ok {range : ByteRange} {stop : Nat} :
    checkedRangeEnd range = .ok stop ↔
      range.start + range.len < U64 ∧ stop = range.start + range.len := by
  unfold checkedRangeEnd
  cases h : checkedAdd range.start range.len with
  | none =>
    have : ¬ range.start + range.len < U64 := by
      intro lt
      rw [checkedAdd_of_lt lt] at h
      cases h
    simp [fail, this]
  | some v =>
    obtain ⟨lt, rfl⟩ := checkedAdd_eq_some.1 h
    simp [lt, eq_comm]

lemma validatePartsLoop_eq_ok {readEnd start stop : Nat} {parts : List BlockPart}
    (lt : readEnd < U64) (le : start ≤ readEnd) :
    validatePartsLoop readEnd parts start = .ok stop ↔ Tiles parts start stop ∧ stop ≤ readEnd := by
  induction parts generalizing start with
  | nil =>
    rw [validatePartsLoop]
    constructor
    · intro h
      cases h
      exact ⟨.nil, le⟩
    · rintro ⟨h, -⟩
      cases h
      rfl
  | cons part parts ih =>
    rw [validatePartsLoop]
    by_cases hs : part.range.start = start
    · subst hs
      rw [if_neg (not_not.2 rfl)]
      simp only [Res.bind_eq_ok, checkedRangeEnd_eq_ok]
      constructor
      · rintro ⟨_, hl, next, ⟨-, rfl⟩, h⟩
        split at h
        · cases h
        · rename_i inside
          obtain ⟨tiles, hle⟩ := (ih (by omega)).1 h
          exact ⟨.cons (validatePartLen_eq_ok.1 hl) tiles, hle⟩
      · rintro ⟨tiles, hle⟩
        cases tiles with
        | cons hl rest =>
          have := rest.le
          refine ⟨(), validatePartLen_eq_ok.2 hl, _, ⟨by omega, rfl⟩, ?_⟩
          rw [if_neg (by omega)]
          exact (ih (by omega)).2 ⟨rest, hle⟩
    · rw [if_pos hs]
      constructor
      · intro h
        cases h
      · rintro ⟨tiles, -⟩
        cases tiles
        exact absurd rfl hs

lemma validateBlockParts_eq_ok {range : ByteRange} {parts : List BlockPart} :
    validateBlockParts range parts = .ok () ↔
      range.start + range.len < U64 ∧ Tiles parts range.start (range.start + range.len) := by
  unfold validateBlockParts
  simp only [Res.bind_eq_ok, checkedRangeEnd_eq_ok]
  constructor
  · rintro ⟨readEnd, ⟨lt, rfl⟩, stop, run, h⟩
    obtain ⟨tiles, -⟩ := (validatePartsLoop_eq_ok lt (by omega)).1 run
    split at h
    · cases h
    · rename_i eq
      rw [not_not.1 eq] at tiles
      exact ⟨lt, tiles⟩
  · rintro ⟨lt, tiles⟩
    refine ⟨_, ⟨lt, rfl⟩, _, (validatePartsLoop_eq_ok lt (by omega)).2 ⟨tiles, le_rfl⟩, ?_⟩
    exact if_neg (not_not.2 rfl)

namespace Block

lemma tiles (b : Block) : Tiles b.parts b.range.start (b.range.start + b.range.len) :=
  (validateBlockParts_eq_ok.1 b.valid).2

lemma fits (b : Block) : b.range.start + b.range.len < U64 := (validateBlockParts_eq_ok.1 b.valid).1

lemma length_materialize (b : Block) : b.materialize.length = b.range.len := by
  rw [materialize, b.tiles.length]
  omega

/-- The block holds the content `f` of its range. -/
def Holds (b : Block) (f : Nat → UInt8) : Prop :=
  ∀ i < b.range.len, b.materialize[i]? = some (f (b.range.start + i))

lemma Holds.part {b : Block} {f : Nat → UInt8} (h : b.Holds f) {p} (hp : p ∈ b.parts) :
    b.range.start ≤ p.range.start ∧ p.range.start + p.range.len ≤ b.range.start + b.range.len ∧
      p.bytes.length = p.range.len ∧
      ∀ i < p.range.len, p.bytes[i]? = some (f (p.range.start + i)) := by
  obtain ⟨h₁, h₂, h₃, h₄⟩ := b.tiles.part hp
  refine ⟨h₁, h₂, h₃, ?_⟩
  intro i hi
  have := h (p.range.start - b.range.start + i) (by omega)
  rw [materialize, h₄ i hi] at this
  rw [this]
  congr 2
  omega

end Block

end NbdServer
