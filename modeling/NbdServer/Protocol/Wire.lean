import NbdServer.Core.Bytes
import NbdServer.Lib.BigEndian

/-!
# The wire reader

Model of `nbd-protocol/src/wire.rs`. A `WireReader` is the list of the bytes it has not read yet.
Reading a field succeeds exactly when the unread bytes start with the encoding of its value
(`readU32_eq_ok` and its like), so a sequence of fields is parsed exactly from the concatenation of
their encodings.
-/

namespace NbdServer

open Lib

/-- Rust `NbdCookie`. -/
abbrev NbdCookie := UInt64

/-- A function on a `WireReader`. -/
abbrev WireM (α : Type) := StateT Buf (Except ProtocolError) α

namespace Wire

/-- Rust `WireReader::read_bytes`. -/
def readBytes (len : Nat) : WireM Buf := do
  let unread ← get
  if unread.length < len then
    throw (.unexpectedEof len unread.length)
  set (unread.drop len)
  pure (unread.take len)

/-- Rust `WireReader::read_u16`. -/
def readU16 : WireM UInt16 := do
  let bytes ← readBytes 2
  pure (UInt16.ofNat (beVal bytes))

/-- Rust `WireReader::read_u32`. -/
def readU32 : WireM UInt32 := do
  let bytes ← readBytes 4
  pure (UInt32.ofNat (beVal bytes))

/-- Rust `WireReader::read_u64`. -/
def readU64 : WireM UInt64 := do
  let bytes ← readBytes 8
  pure (UInt64.ofNat (beVal bytes))

/-- Rust `write_u16`. -/
def writeU16 (value : UInt16) : Buf := beBytes 2 value.toNat

/-- Rust `write_u32`. -/
def writeU32 (value : UInt32) : Buf := beBytes 4 value.toNat

/-- Rust `write_u64`. -/
def writeU64 (value : UInt64) : Buf := beBytes 8 value.toNat

@[simp] lemma length_writeU16 (value : UInt16) : (writeU16 value).length = 2 := length_beBytes _ _

@[simp] lemma length_writeU32 (value : UInt32) : (writeU32 value).length = 4 := length_beBytes _ _

@[simp] lemma length_writeU64 (value : UInt64) : (writeU64 value).length = 8 := length_beBytes _ _

variable {α β : Type} {s : Buf}

lemma parse_bind_eq_ok {x : WireM α} {f : α → WireM β} {r : β × Buf} :
    (x >>= f) s = .ok r ↔ ∃ a rest, x s = .ok (a, rest) ∧ f a rest = .ok r := by
  show (x s >>= fun p => f p.1 p.2) = .ok r ↔ _
  cases x s with
  | error e => simp [bind, Except.bind]
  | ok p =>
    obtain ⟨a, rest⟩ := p
    simp [bind, Except.bind]

lemma parse_pure_eq_ok {a b : α} {rest : Buf} :
    (pure a : WireM α) s = .ok (b, rest) ↔ b = a ∧ rest = s := by
  show Except.ok (a, s) = Except.ok (b, rest) ↔ _
  rw [Except.ok.injEq, Prod.mk.injEq, eq_comm, eq_comm (a := s)]

lemma parse_lift_eq_ok {x : Parsed α} {a : α} {rest : Buf} :
    (liftM x : WireM α) s = .ok (a, rest) ↔ x = .ok a ∧ rest = s := by
  cases x with
  | error e => exact ⟨fun h => (nomatch h), fun h => (nomatch h.1)⟩
  | ok b =>
    show Except.ok (b, s) = Except.ok (a, rest) ↔ _
    rw [Except.ok.injEq, Except.ok.injEq, Prod.mk.injEq, eq_comm (a := s)]

lemma readBytes_eq_ok {len : Nat} {bytes rest : Buf} :
    readBytes len s = .ok (bytes, rest) ↔ s = bytes ++ rest ∧ bytes.length = len := by
  have run : readBytes len s =
      if s.length < len then .error (.unexpectedEof len s.length) else
          .ok (s.take len, s.drop len) := by
    show (if s.length < len then _ else _ : WireM Buf) s = _
    split <;> rfl
  rw [run]
  split
  · rename_i short
    refine ⟨fun h => (nomatch h), ?_⟩
    rintro ⟨rfl, rfl⟩
    rw [List.length_append] at short
    omega
  · rename_i long
    rw [Except.ok.injEq, Prod.mk.injEq]
    constructor
    · rintro ⟨rfl, rfl⟩
      exact ⟨(List.take_append_drop _ _).symm, List.length_take_of_le (not_lt.1 long)⟩
    · rintro ⟨rfl, rfl⟩
      exact ⟨List.take_left, List.drop_left⟩

lemma readNat_eq_ok {w : Nat} {ofNat : Nat → α} {toNat : α → Nat}
    (fits : ∀ a, toNat a < 256 ^ w) (left : ∀ a, ofNat (toNat a) = a)
    (right : ∀ n < 256 ^ w, toNat (ofNat n) = n) {a : α} {rest : Buf} :
    (readBytes w >>= fun bytes => pure (ofNat (beVal bytes)) : WireM α) s = .ok (a, rest) ↔
      s = beBytes w (toNat a) ++ rest := by
  simp only [parse_bind_eq_ok, readBytes_eq_ok, parse_pure_eq_ok]
  constructor
  · rintro ⟨bytes, _, ⟨rfl, rfl⟩, rfl, rfl⟩
    rw [right _ (beVal_lt bytes), beBytes_beVal]
  · rintro rfl
    refine ⟨_, _, ⟨rfl, length_beBytes _ _⟩, ?_, rfl⟩
    rw [beVal_beBytes (fits a), left]

lemma readU16_eq_ok {v : UInt16} {rest : Buf} : readU16 s = .ok (v, rest) ↔ s = writeU16 v ++
    rest :=
  readNat_eq_ok (fun a => a.toNat_lt) (fun _ => UInt16.ofNat_toNat)
    fun _ h => UInt16.toNat_ofNat_of_lt' h

lemma readU32_eq_ok {v : UInt32} {rest : Buf} : readU32 s = .ok (v, rest) ↔ s = writeU32 v ++
    rest :=
  readNat_eq_ok (fun a => a.toNat_lt) (fun _ => UInt32.ofNat_toNat)
    fun _ h => UInt32.toNat_ofNat_of_lt' h

lemma readU64_eq_ok {v : UInt64} {rest : Buf} : readU64 s = .ok (v, rest) ↔ s = writeU64 v ++
    rest :=
  readNat_eq_ok (fun a => a.toNat_lt) (fun _ => UInt64.ofNat_toNat)
    fun _ h => UInt64.toNat_ofNat_of_lt' h

end Wire

end NbdServer
