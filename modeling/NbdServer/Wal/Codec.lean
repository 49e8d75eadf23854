import NbdServer.Core.Record
import NbdServer.Lib.LittleEndian

/-!
# The WAL byte format

Model of `wal/codec.rs`: segment headers, record frames, and the record decoder with its error
kinds. The checksum of the `crc` crate is a parameter `crc`; Rust feeds it in pieces
(`digest.update`), which is the checksum of the concatenation. All slices below are taken after the
length checks of the source, so none is out of range.
-/

namespace NbdServer

namespace Wal

open Lib

/-- A checksum function over bytes (`CRC32C` in Rust). -/
abbrev Checksum := Buf → UInt32

/-- Rust `SEGMENT_MAGIC`, the text `NBDWALSG`. -/
def SEGMENT_MAGIC : Buf := [0x4e, 0x42, 0x44, 0x57, 0x41, 0x4c, 0x53, 0x47]

/-- Rust `RECORD_MAGIC`, the text `NBDWALRC`. -/
def RECORD_MAGIC : Buf := [0x4e, 0x42, 0x44, 0x57, 0x41, 0x4c, 0x52, 0x43]

/-- Rust `WAL_FORMAT_VERSION`. -/
def WAL_FORMAT_VERSION : Nat := 1

/-- Rust `SEGMENT_HEADER_LEN`. -/
def SEGMENT_HEADER_LEN : Nat := 24

/-- Rust `RECORD_KIND_WRITE`. -/
def RECORD_KIND_WRITE : Nat := 1

/-- Rust `RECORD_HEADER_LEN`. -/
def RECORD_HEADER_LEN : Nat := 40

/-- Rust `RECORD_CRC_OFFSET`. -/
def RECORD_CRC_OFFSET : Nat := 36

/-- Rust `RecordDecodeErrorKind`. -/
inductive RecordDecodeErrorKind where
  | partialHeader
  | partialPayload
  | checksumMismatch (nextOffset : Nat)
  | corrupt
  deriving DecidableEq, Repr

/-- Rust `RecordDecodeError`. -/
structure RecordDecodeError where
  kind : RecordDecodeErrorKind
  error : Fault
  deriving DecidableEq, Repr

/-- Rust `u16_at`. -/
def u16At (data : Buf) (offset : Nat) : Nat := leVal (slice data offset 2)

/-- Rust `u32_at`. -/
def u32At (data : Buf) (offset : Nat) : Nat := leVal (slice data offset 4)

/-- Rust `u64_at`. -/
def u64At (data : Buf) (offset : Nat) : Nat := leVal (slice data offset 8)

/-- The first 20 bytes of a segment header, which its checksum covers. -/
def segmentFields (firstSeq : Nat) : Buf :=
  SEGMENT_MAGIC ++ leBytes 2 WAL_FORMAT_VERSION ++ leBytes 2 SEGMENT_HEADER_LEN ++
    leBytes 8 firstSeq

/-- Rust `encode_segment_header`. -/
def encodeSegmentHeader (crc : Checksum) (firstSeq : Nat) : Buf :=
  segmentFields firstSeq ++ leBytes 4 (crc (segmentFields firstSeq)).toNat

def headerError {α} (message : String) : Res α := fail (.wal "read WAL segment header" message)

/-- Rust `decode_segment_header`. -/
def decodeSegmentHeader (crc : Checksum) (path : String) (data : Buf) : Res Nat :=
  if data.length < SEGMENT_HEADER_LEN then
    headerError s!"segment {path} is shorter than header"
  else if slice data 0 8 ≠ SEGMENT_MAGIC then
    headerError s!"segment {path} has invalid magic"
  else if u16At data 8 ≠ WAL_FORMAT_VERSION then
    headerError s!"segment {path} has unsupported version {u16At data 8}"
  else if u16At data 10 ≠ SEGMENT_HEADER_LEN then
    headerError s!"segment {path} has invalid header length {u16At data 10}"
  else if u32At data 20 ≠ (crc (slice data 0 20)).toNat then
    headerError s!"segment {path} header checksum mismatch"
  else .ok (u64At data 12)

/-- The first 36 bytes of a record header, which the checksum covers together with the payload. -/
def recordFields (record : WalRecord) : Buf :=
  RECORD_MAGIC ++ leBytes 2 WAL_FORMAT_VERSION ++ leBytes 2 RECORD_HEADER_LEN ++
    leBytes 2 RECORD_KIND_WRITE ++ leBytes 2 0 ++ leBytes 8 record.seq ++
    leBytes 8 record.range.start ++ leBytes 4 record.data.length

/-- Rust `encode_record`, which always returns `Ok`. -/
def encodeRecord (crc : Checksum) (record : WalRecord) : Buf :=
  recordFields record ++ leBytes 4 (crc (recordFields record ++ record.data)).toNat ++ record.data

namespace RecordDecodeError

def wal (kind : RecordDecodeErrorKind) (message : String) : RecordDecodeError :=
  ⟨kind, .err (.wal "read WAL record" message)⟩

/-- Rust `RecordDecodeError::partial_header`. -/
def partialHeader (path : String) : RecordDecodeError :=
  wal .partialHeader s!"segment {path} has partial record header"

/-- Rust `RecordDecodeError::partial_payload`. -/
def partialPayload (path : String) : RecordDecodeError :=
  wal .partialPayload s!"segment {path} has partial record payload"

/-- Rust `RecordDecodeError::checksum_mismatch`. -/
def checksumMismatch (path : String) (nextOffset : Nat) : RecordDecodeError :=
  wal (.checksumMismatch nextOffset) s!"segment {path} record checksum mismatch"

/-- Rust `RecordDecodeError::corrupt` of a WAL error. -/
def corrupt (message : String) : RecordDecodeError := wal .corrupt message

/-- Rust `RecordDecodeError::repair_offset`. -/
def repairOffset (e : RecordDecodeError) (dataLen offset : Nat) : Option Nat :=
  match e.kind with
  | .partialHeader | .partialPayload => some offset
  | .checksumMismatch nextOffset => if nextOffset = dataLen then some offset else none
  | .corrupt => none

end RecordDecodeError

/-- Rust `decode_record_at` after the checks of the fixed header fields. -/
def decodeRecordBody (crc : Checksum) (path : String) (data header : Buf) (offset : Nat) :
    Except RecordDecodeError (WalRecord × Nat) :=
  match (checkedAdd offset RECORD_HEADER_LEN).bind (checkedAdd · (u32At header 32)) with
  | none => .error (.corrupt "record length overflow")
  | some nextOffset =>
    if data.length < nextOffset then .error (.partialPayload path)
    else if u32At header RECORD_CRC_OFFSET ≠
        (crc (slice header 0 RECORD_CRC_OFFSET ++
          slice data (offset + RECORD_HEADER_LEN) (u32At header 32))).toNat then
      .error (.checksumMismatch path nextOffset)
    else
      match WalRecord.new (u64At header 16 % U64) (Nat.mod_lt _ (by decide))
          (ByteRange.new (u64At header 24) (u32At header 32))
          (slice data (offset + RECORD_HEADER_LEN) (u32At header 32)) with
      | .error e => .error ⟨.corrupt, e⟩
      | .ok record => .ok (record, nextOffset)

/-- Rust `decode_record_at`. -/
def decodeRecordAt (crc : Checksum) (path : String) (data : Buf) (offset : Nat) :
    Except RecordDecodeError (WalRecord × Nat) :=
  let header := slice data offset RECORD_HEADER_LEN
  if data.length - offset < RECORD_HEADER_LEN then .error (.partialHeader path)
  else if slice header 0 8 ≠ RECORD_MAGIC then
    .error (.corrupt s!"segment {path} has invalid record magic")
  else if u16At header 8 ≠ WAL_FORMAT_VERSION then
    .error (.corrupt s!"segment {path} has unsupported record version {u16At header 8}")
  else if u16At header 10 ≠ RECORD_HEADER_LEN then
    .error (.corrupt s!"segment {path} has invalid record header length {u16At header 10}")
  else if u16At header 12 ≠ RECORD_KIND_WRITE then
    .error (.corrupt s!"segment {path} has unsupported record kind {u16At header 12}")
  else decodeRecordBody crc path data header offset

/-- The CRC-32C of the Castagnoli polynomial (`CRC_32_ISCSI`), bit by bit. -/
def crc32c : Checksum := fun bytes =>
  let step (c : UInt32) : UInt32 := if c &&& 1 = 1 then (c >>> 1) ^^^ 0x82f63b78 else c >>> 1
  let byte (c : UInt32) (b : UInt8) : UInt32 :=
    step (step (step (step (step (step (step (step (c ^^^ b.toUInt32))))))))
  (bytes.foldl byte 0xffffffff) ^^^ 0xffffffff

end Wal

end NbdServer
