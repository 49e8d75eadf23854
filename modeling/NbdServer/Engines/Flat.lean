import NbdServer.Core.Bytes
import NbdServer.View.Gaps

/-!
# Flat arrays of bytes

What a client sees of an export, whichever engine serves it: an array of a fixed size. A read of a
range inside returns its bytes, and one that ends outside is an error.
-/

namespace NbdServer

/-- A read of an array of `size` bytes. -/
def flatRead (size : Nat) (content : Nat → UInt8) (range : ByteRange) : Res Buf :=
  if range.start + range.len ≤ size then
    .ok ((List.range range.len).map fun i => content (range.start + i))
  else fail (.outOfBounds "read" range.start range.len size)

def flatWrite (content : Nat → UInt8) (offset : Nat) (data : Buf) (x : Nat) : UInt8 :=
  if offset ≤ x then (data[x - offset]?).getD (content x) else content x

variable {size offset : Nat} {content content' : Nat → UInt8} {range : ByteRange} {data : Buf}

lemma flatWrite_outside {x : Nat} (away : x < offset ∨ offset + data.length ≤ x) :
    flatWrite content offset data x = content x := by
  unfold flatWrite
  split_ifs with le
  · rw [List.getElem?_eq_none (by omega), Option.getD_none]
  · rfl

lemma flatRead_eq_ok (inside : range.start + range.len ≤ size) {data : Buf}
    (length : data.length = range.len)
    (bytes : ∀ i < range.len, data[i]? = some (content (range.start + i))) :
    flatRead size content range = .ok data := by
  rw [flatRead, if_pos inside]
  refine congrArg Except.ok (List.ext_getElem? fun i => ?_)
  rcases Nat.lt_or_ge i range.len with lt | ge
  · rw [bytes i lt, List.getElem?_map, List.getElem?_range lt]
    rfl
  · rw [List.getElem?_eq_none (by simpa using ge), List.getElem?_eq_none (by rw [length]; exact ge)]

lemma flatRead_congr (same : ∀ x < size, content x = content' x) :
    flatRead size content range = flatRead size content' range := by
  unfold flatRead
  split_ifs with inside
  · refine congrArg Except.ok (List.map_congr_left fun i mem => same _ ?_)
    have := List.mem_range.1 mem
    omega
  · rfl

lemma validateRequestRange_eq (fits : size < U64) (operation : String) (offset len : Nat) :
    validateRequestRange operation offset len size =
      if offset + len ≤ size then .ok () else fail (.outOfBounds operation offset len size) := by
  unfold validateRequestRange
  by_cases lt : offset + len < U64
  · rw [checkedAdd_of_lt lt, okOr_some, Res.ok_bind]
    split_ifs <;> first | rfl | omega
  · rw [checkedAdd, if_neg lt, if_neg (by omega)]
    rfl

end NbdServer
