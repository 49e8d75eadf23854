import NbdServer.Core.Error

/-!
# Byte ranges

Model of `range.rs`. A `ByteRange` is a `u64` start with a `u32` length; the bounds are fields of
the structure, so a range the Rust type cannot hold cannot be built. `ByteRange.new` truncates its
arguments as the Rust integer types do.
-/

namespace NbdServer

/-- Rust `ByteRange`. -/
structure ByteRange where
  start : Nat
  len : Nat
  start_lt : start < U64
  len_lt : len < U32
  deriving DecidableEq

namespace ByteRange

/-- Rust `ByteRange::new`. -/
def new (start len : Nat) : ByteRange where
  start := start % U64
  len := len % U32
  start_lt := Nat.mod_lt _ (by decide)
  len_lt := Nat.mod_lt _ (by decide)

/-- Rust `ByteRange::is_empty`. -/
def isEmpty (r : ByteRange) : Bool := r.len == 0

/-- Rust `ByteRange::checked_end`. -/
def checkedEnd (r : ByteRange) : Option Nat := checkedAdd r.start r.len

/-- Rust `ByteRange::end` and `range_end`: the saturating end of the range. -/
def stop (r : ByteRange) : Nat := min (r.start + r.len) (U64 - 1)

/-- Rust `ByteRange::overlaps`. -/
def overlaps (r s : ByteRange) : Bool := r.start < s.stop && s.start < r.stop

/-- `x` is a byte of the range. -/
def Has (r : ByteRange) (x : Nat) : Prop := r.start ≤ x ∧ x < r.start + r.len

instance (r : ByteRange) (x : Nat) : Decidable (r.Has x) := inferInstanceAs (Decidable (_ ∧ _))

lemma new_start {s l} (h : s < U64) : (new s l).start = s := Nat.mod_eq_of_lt h

lemma new_len {s l} (h : l < U32) : (new s l).len = l := Nat.mod_eq_of_lt h

lemma stop_lt (r : ByteRange) : r.stop < U64 := by
  have h : (0 : Nat) < U64 := by decide
  unfold stop
  omega

lemma stop_of_lt {r : ByteRange} (h : r.start + r.len < U64) : r.stop = r.start + r.len := by
  unfold stop
  omega

lemma overlaps_comm (r s : ByteRange) : r.overlaps s = s.overlaps r := by
  unfold overlaps
  exact Bool.and_comm _ _

lemma apart_of_overlaps_eq_false {r s : ByteRange} (h : r.overlaps s = false)
    (hr : r.start + r.len < U64) (hs : s.start + s.len < U64) {x : Nat} (hx : r.Has x) :
    ¬ s.Has x := by
  simp only [overlaps, stop_of_lt hr, stop_of_lt hs, Bool.and_eq_false_iff, decide_eq_false_iff_not,
    not_lt] at h
  unfold Has at *
  omega

@[ext] lemma ext {r s : ByteRange} (h₁ : r.start = s.start) (h₂ : r.len = s.len) : r = s := by
  cases r
  cases s
  cases h₁
  cases h₂
  rfl

end ByteRange

end NbdServer
