import NbdServer.Lib.LittleEndian

/-!
# Big-endian numbers

Fixed-width big-endian encodings of natural numbers: the little-endian ones, reversed. Encoding and
decoding are inverse to each other on the numbers of a width (`beVal_beBytes`) and on the byte lists
of that length (`beBytes_beVal`).
-/

namespace Lib

/-- The `w` lowest bytes of `n`, the highest one first. -/
def beBytes (w n : Nat) : List UInt8 := (leBytes w n).reverse

/-- The number a list of bytes encodes, the highest byte first. -/
def beVal (bs : List UInt8) : Nat := leVal bs.reverse

@[simp] lemma length_beBytes (w n : Nat) : (beBytes w n).length = w := by
  rw [beBytes, List.length_reverse, length_leBytes]

/-- Decoding the encoding of a number that fits its width gives the number. -/
lemma beVal_beBytes {w n : Nat} (h : n < 256 ^ w) : beVal (beBytes w n) = n := by
  rw [beVal, beBytes, List.reverse_reverse, leVal_leBytes_of_lt h]

lemma beVal_lt (bs : List UInt8) : beVal bs < 256 ^ bs.length := by
  have := leVal_lt bs.reverse
  rwa [List.length_reverse] at this

/-- Encoding the number of a list of bytes gives the list. -/
lemma leBytes_leVal (bs : List UInt8) : leBytes bs.length (leVal bs) = bs := by
  induction bs with
  | nil => rfl
  | cons b bs ih =>
    have hb := b.toNat_lt
    have low : UInt8.ofNat (b.toNat + 256 * leVal bs) = b := by
      apply UInt8.toNat_inj.1
      rw [UInt8.toNat_ofNat']
      omega
    have high : (b.toNat + 256 * leVal bs) / 256 = leVal bs := by omega
    rw [List.length_cons, leVal, leBytes, low, high, ih]

/-- Encoding the number of a list of bytes gives the list. -/
lemma beBytes_beVal (bs : List UInt8) : beBytes bs.length (beVal bs) = bs := by
  have := leBytes_leVal bs.reverse
  rw [List.length_reverse] at this
  rw [beBytes, beVal, this, List.reverse_reverse]

end Lib
