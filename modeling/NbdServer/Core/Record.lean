import NbdServer.Core.Range
import NbdServer.Core.Bytes

/-!
# WAL requests and records

Model of the data types of `wal/mod.rs`. Their fields are private in Rust and only the checked
constructors build them, so what the constructors check are fields of the structures here.
-/

namespace NbdServer

/-- Rust `WalRequest`. -/
structure WalRequest where
  range : ByteRange
  data : Buf
  data_ne : data ≠ []
  data_len : data.length = range.len
  deriving DecidableEq

/-- Rust `WalRecord`. -/
structure WalRecord where
  seq : Nat
  range : ByteRange
  data : Buf
  seq_ne : seq ≠ 0
  seq_lt : seq < U64
  data_ne : data ≠ []
  data_len : data.length = range.len

/-- Rust `WalRequest::new`. -/
def WalRequest.new (range : ByteRange) (data : Buf) : Res WalRequest :=
  if h₁ : data = [] then
    fail (.wal "create WAL request" "write payload must not be empty")
  else if h₂ : data.length = range.len then .ok ⟨range, data, h₁, h₂⟩
  else fail (.wal "create WAL request"
    s!"payload length {data.length} does not match range length {range.len}")

/-- The record that writes `data` at `start`. -/
def recordAt (seq start : Nat) (data : Buf) (h₁ : seq ≠ 0 ∧ seq < U64) (h₂ : data ≠ [])
    (h₃ : data.length = (ByteRange.new start data.length).len) : WalRecord :=
  ⟨seq, .new start data.length, data, h₁.1, h₁.2, h₂, h₃⟩

lemma byte_ne (b : UInt8) : [b] ≠ [] := List.cons_ne_nil b []

lemma byte_len (b : UInt8) : [b].length = 1 := rfl

lemma seq_one : 1 ≠ 0 ∧ 1 < U64 := by decide

lemma seq_two : 2 ≠ 0 ∧ 2 < U64 := by decide

namespace WalRecord

lemma eq_iff {r r' : WalRecord} : r.seq = r'.seq ∧ r.range = r'.range ∧ r.data = r'.data ↔
    r = r' := by
  obtain ⟨seq, range, data, _, _, _, _⟩ := r
  obtain ⟨seq', range', data', _, _, _, _⟩ := r'
  simp

instance decEq : DecidableEq WalRecord := fun _ _ => decidable_of_iff _ eq_iff

/-- Rust `WalRecord::from_request`. -/
def fromRequest (seq : Nat) (lt : seq < U64) (request : WalRequest) : Res WalRecord :=
  if h : seq = 0 then fail (.wal "create WAL record" "record sequence must be nonzero")
  else .ok ⟨seq, request.range, request.data, h, lt, request.data_ne, request.data_len⟩

/-- Rust `WalRecord::new`. -/
def new (seq : Nat) (lt : seq < U64) (range : ByteRange) (data : Buf) : Res WalRecord := do
  let request ← WalRequest.new range data
  fromRequest seq lt request

lemma len_pos (r : WalRecord) : 0 < r.range.len := by
  rw [← r.data_len]
  exact List.length_pos_of_ne_nil r.data_ne

/-- The record that writes the byte `b` at `start`. -/
def byte (seq start : Nat) (b : UInt8) (h : seq ≠ 0 ∧ seq < U64) : WalRecord :=
  recordAt seq start [b] h (byte_ne b) (byte_len b)

/-- The byte the record writes at `x`. -/
def byteAt (r : WalRecord) (x : Nat) : Option UInt8 := r.data[x - r.range.start]?

end WalRecord

end NbdServer
