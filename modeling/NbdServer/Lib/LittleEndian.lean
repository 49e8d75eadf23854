import Mathlib

/-!
# Little-endian numbers

Fixed-width little-endian encodings of natural numbers. A number is truncated to its width when it
is encoded (`leVal_leBytes`), so a decoded encoding is the number itself when it fits.
-/

namespace Lib

/-- The `w` lowest bytes of `n`, the lowest one first. -/
def leBytes : Nat → Nat → List UInt8
  | 0, _ => []
  | w + 1, n => UInt8.ofNat n :: leBytes w (n / 256)

/-- The number a list of bytes encodes. -/
def leVal : List UInt8 → Nat
  | [] => 0
  | b :: bs => b.toNat + 256 * leVal bs

@[simp] lemma length_leBytes (w n : Nat) : (leBytes w n).length = w := by
  induction w generalizing n with
  | zero => rfl
  | succ w ih => rw [leBytes, List.length_cons, ih]

/-- Decoding an encoding gives the number modulo its width. -/
lemma leVal_leBytes (w n : Nat) : leVal (leBytes w n) = n % 256 ^ w := by
  induction w generalizing n with
  | zero => rw [leBytes, leVal, Nat.pow_zero, Nat.mod_one]
  | succ w ih =>
    rw [leBytes, leVal, ih, Nat.pow_succ, Nat.mul_comm (256 ^ w) 256, Nat.mod_mul]
    simp

/-- Decoding the encoding of a number that fits its width gives the number. -/
lemma leVal_leBytes_of_lt {w n : Nat} (h : n < 256 ^ w) : leVal (leBytes w n) = n := by
  rw [leVal_leBytes, Nat.mod_eq_of_lt h]

lemma leVal_lt (bs : List UInt8) : leVal bs < 256 ^ bs.length := by
  induction bs with
  | nil => decide
  | cons b bs ih =>
    have hb := b.toNat_lt
    rw [leVal, List.length_cons, Nat.pow_succ]
    omega

end Lib
