import NbdServer.Core.Error
import NbdServer.Lib.Splice

/-!
# Byte buffers

Rust slicing and `copy_from_slice` on byte buffers. An index out of range aborts in Rust; here it is
`Fault.abort`, so no buffer access is total by convention.
-/

namespace NbdServer

open Lib

/-- A byte buffer (`Vec<u8>`, `Bytes`, `&[u8]`). -/
abbrev Buf := List UInt8

/-- Rust `&bytes[off..off + len]`. -/
def sliceOf (bytes : Buf) (off len : Nat) : Res Buf :=
  if off + len ≤ bytes.length then .ok (slice bytes off len)
  else .error (.abort "slice index out of range")

/-- Rust `data[off..off + src.len()].copy_from_slice(src)`. -/
def copyInto (data : Buf) (off : Nat) (src : Buf) : Res Buf :=
  if off + src.length ≤ data.length then .ok (splice data off src)
  else .error (.abort "slice index out of range")

lemma sliceOf_eq {bytes : Buf} {off len : Nat} (h : off + len ≤ bytes.length) :
    sliceOf bytes off len = .ok (slice bytes off len) := if_pos h

lemma copyInto_eq {data src : Buf} {off : Nat} (h : off + src.length ≤ data.length) :
    copyInto data off src = .ok (splice data off src) := if_pos h

/-- Copy `len` bytes of `bytes` from `src` on to `data` at `dst`. -/
def copySlice (data : Buf) (dst : Nat) (bytes : Buf) (src len : Nat) : Res Buf := do
  copyInto data dst (← sliceOf bytes src len)

lemma copySlice_eq {data bytes : Buf} {dst src len : Nat} (h₁ : src + len ≤ bytes.length)
    (h₂ : dst + len ≤ data.length) :
    copySlice data dst bytes src len = .ok (splice data dst (slice bytes src len)) := by
  unfold copySlice
  rw [sliceOf_eq h₁, Res.ok_bind, copyInto_eq (by rw [length_slice h₁]; exact h₂)]

lemma copySlice_agrees {data bytes : Buf} (dst : Nat) {src len : Nat} {f : Nat → UInt8}
    {s : Set Nat} (agree : Agrees data f s) (h₁ : src + len ≤ bytes.length)
    (h₂ : dst + len ≤ data.length) (right : ∀ i < len, bytes[src + i]? = some (f (dst + i))) :
    ∃ data', copySlice data dst bytes src len = .ok data' ∧ data'.length = data.length ∧
      Agrees data' f (s ∪ {i | dst ≤ i ∧ i < dst + len}) := by
  have hl := length_slice h₁
  refine ⟨_, copySlice_eq h₁ h₂, length_splice (by omega), ?_⟩
  have := agree.splice dst (slice bytes src len) (by omega) (by
    intro i hi
    rw [hl] at hi
    rw [getElem?_slice hi, right i hi])
  rwa [hl] at this

end NbdServer
