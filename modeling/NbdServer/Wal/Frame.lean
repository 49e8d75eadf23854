import NbdServer.Wal.Codec

/-!
# Encoding and decoding WAL bytes

What the decoders of the WAL format return on encoded bytes: a segment header and a record frame are
read back wherever they stand, and the decoder reports a torn frame, a proper prefix of one at the
end of the data, as an error that the scan may repair. None of this depends on the checksum
function.
-/

namespace NbdServer

namespace Wal

open Lib

variable (crc : Checksum)

@[simp] lemma length_segmentFields (seq : Nat) : (segmentFields seq).length = 20 := by
  simp [segmentFields, SEGMENT_MAGIC]

@[simp] lemma length_encodeSegmentHeader (seq : Nat) :
    (encodeSegmentHeader crc seq).length = SEGMENT_HEADER_LEN := by
  simp [encodeSegmentHeader, SEGMENT_HEADER_LEN]

lemma checksum_lt (c : UInt32) : c.toNat < 256 ^ 4 := c.toNat_lt

lemma encodeSegmentHeader_fields {seq : Nat} (h : seq < U64) :
    slice (encodeSegmentHeader crc seq) 0 8 = SEGMENT_MAGIC ∧
    u16At (encodeSegmentHeader crc seq) 8 = WAL_FORMAT_VERSION ∧
    u16At (encodeSegmentHeader crc seq) 10 = SEGMENT_HEADER_LEN ∧
    u64At (encodeSegmentHeader crc seq) 12 = seq ∧
    slice (encodeSegmentHeader crc seq) 0 20 = segmentFields seq ∧
    u32At (encodeSegmentHeader crc seq) 20 = (crc (segmentFields seq)).toNat := by
  have left : ∀ off len, off + len ≤ 20 → slice (encodeSegmentHeader crc seq) off len =
      slice (segmentFields seq) off len := by
    intro off len le
    exact slice_append_left _ (by simpa using le)
  refine ⟨?_, ?_, ?_, ?_, ?_, ?_⟩
  · rw [left 0 8 (by decide), segmentFields, slice_append_left _ (by simp [SEGMENT_MAGIC]),
      slice_append_left _ (by simp [SEGMENT_MAGIC]), slice_append_left _ (by simp [SEGMENT_MAGIC])]
    exact slice_all SEGMENT_MAGIC
  · rw [u16At, left 8 2 (by decide), segmentFields, slice_append_left _ (by simp [SEGMENT_MAGIC]),
      slice_append_left _ (by simp [SEGMENT_MAGIC]), slice_last (by simp [SEGMENT_MAGIC]) (by simp)]
    exact leVal_leBytes_of_lt (by decide)
  · rw [u16At, left 10 2 (by decide), segmentFields, slice_append_left _ (by simp [SEGMENT_MAGIC]),
      slice_last (by simp [SEGMENT_MAGIC]) (by simp)]
    exact leVal_leBytes_of_lt (by decide)
  · rw [u64At, left 12 8 (by decide), segmentFields, slice_last (by simp [SEGMENT_MAGIC]) (by simp)]
    exact leVal_leBytes_of_lt h
  · rw [left 0 20 (by decide)]
    simpa using slice_all (segmentFields seq)
  · rw [u32At, encodeSegmentHeader, slice_last (by simp) (by simp)]
    exact leVal_leBytes_of_lt (checksum_lt _)

lemma decodeSegmentHeader_encode {seq : Nat} (h : seq < U64) (path : String) (rest : Buf) :
    decodeSegmentHeader crc path (encodeSegmentHeader crc seq ++ rest) = .ok seq := by
  have left : ∀ off len, off + len ≤ 24 → slice (encodeSegmentHeader crc seq ++ rest) off len =
      slice (encodeSegmentHeader crc seq) off len := by
    intro off len le
    exact slice_append_left rest (by simpa [SEGMENT_HEADER_LEN] using le)
  obtain ⟨magic, version, headerLen, first, fields, sum⟩ := encodeSegmentHeader_fields crc h
  rw [u16At, ← left _ _ (by decide)] at version headerLen
  rw [u64At, ← left _ _ (by decide)] at first
  rw [u32At, ← left _ _ (by decide)] at sum
  rw [← left _ _ (by decide)] at magic fields
  have long : ¬ (encodeSegmentHeader crc seq ++ rest).length < SEGMENT_HEADER_LEN := by simp
  unfold decodeSegmentHeader u16At u32At u64At
  rw [if_neg long, if_neg (not_not.2 magic), if_neg (not_not.2 version),
    if_neg (not_not.2 headerLen), fields, if_neg (not_not.2 sum), first]

lemma decodeSegmentHeader_short {data : Buf} (h : data.length < SEGMENT_HEADER_LEN)
    (path : String) :
    decodeSegmentHeader crc path data =
      headerError s!"segment {path} is shorter than header" := if_pos h

def recordHead (record : WalRecord) : Buf :=
  recordFields record ++ leBytes 4 (crc (recordFields record ++ record.data)).toNat

lemma encodeRecord_eq (record : WalRecord) :
    encodeRecord crc record = recordHead crc record ++ record.data := rfl

@[simp] lemma length_recordFields (record : WalRecord) : (recordFields record).length = 36 := by
  simp [recordFields, RECORD_MAGIC]

@[simp] lemma length_recordHead (record : WalRecord) : (recordHead crc record).length = 40 := by
  simp [recordHead]

@[simp] lemma length_encodeRecord (record : WalRecord) :
    (encodeRecord crc record).length = 40 + record.data.length := by
  simp [encodeRecord_eq]

lemma data_lt (record : WalRecord) : record.data.length < 256 ^ 4 := by
  rw [record.data_len]
  exact record.range.len_lt

lemma recordHead_fields (record : WalRecord) :
    slice (recordHead crc record) 0 8 = RECORD_MAGIC ∧
    u16At (recordHead crc record) 8 = WAL_FORMAT_VERSION ∧
    u16At (recordHead crc record) 10 = RECORD_HEADER_LEN ∧
    u16At (recordHead crc record) 12 = RECORD_KIND_WRITE ∧
    u64At (recordHead crc record) 16 = record.seq ∧
    u64At (recordHead crc record) 24 = record.range.start ∧
    u32At (recordHead crc record) 32 = record.data.length ∧
    slice (recordHead crc record) 0 36 = recordFields record ∧
    u32At (recordHead crc record) 36 = (crc (recordFields record ++ record.data)).toNat := by
  have left : ∀ off len, off + len ≤ 36 → slice (recordHead crc record) off len =
      slice (recordFields record) off len := by
    intro off len le
    exact slice_append_left _ (by simpa using le)
  refine ⟨?_, ?_, ?_, ?_, ?_, ?_, ?_, ?_, ?_⟩
  · rw [left 0 8 (by decide)]
    simp [slice, recordFields, RECORD_MAGIC]
  · rw [u16At, left 8 2 (by decide)]
    simp [slice, recordFields, RECORD_MAGIC, leVal_leBytes_of_lt, WAL_FORMAT_VERSION]
  · rw [u16At, left 10 2 (by decide)]
    simp [slice, recordFields, RECORD_MAGIC, leVal_leBytes_of_lt, RECORD_HEADER_LEN]
  · rw [u16At, left 12 2 (by decide), recordFields]
    iterate 4 rw [slice_append_left _ (by simp [RECORD_MAGIC])]
    rw [slice_last (by simp [RECORD_MAGIC]) (by simp)]
    exact leVal_leBytes_of_lt (by decide)
  · rw [u64At, left 16 8 (by decide), recordFields]
    iterate 2 rw [slice_append_left _ (by simp [RECORD_MAGIC])]
    rw [slice_last (by simp [RECORD_MAGIC]) (by simp)]
    exact leVal_leBytes_of_lt record.seq_lt
  · rw [u64At, left 24 8 (by decide), recordFields, slice_append_left _ (by simp [RECORD_MAGIC]),
      slice_last (by simp [RECORD_MAGIC]) (by simp)]
    exact leVal_leBytes_of_lt record.range.start_lt
  · rw [u32At, left 32 4 (by decide), recordFields, slice_last (by simp [RECORD_MAGIC]) (by simp)]
    exact leVal_leBytes_of_lt (data_lt record)
  · rw [left 0 36 (by decide)]
    simpa using slice_all (recordFields record)
  · rw [u32At, recordHead, slice_last (by simp) (by simp)]
    exact leVal_leBytes_of_lt (checksum_lt _)

lemma decodeRecordAt_head {data : Buf} {offset : Nat} {record : WalRecord}
    (h : slice data offset RECORD_HEADER_LEN = recordHead crc record) (path : String) :
    decodeRecordAt crc path data offset =
      decodeRecordBody crc path data (recordHead crc record) offset := by
  obtain ⟨magic, version, headerLen, kind, -⟩ := recordHead_fields crc record
  have long : ¬ data.length - offset < RECORD_HEADER_LEN := by
    have := congrArg List.length h
    simp only [slice, List.length_take, List.length_drop, length_recordHead] at this
    simp only [RECORD_HEADER_LEN] at this ⊢
    omega
  simp only [decodeRecordAt, h]
  rw [if_neg long, if_neg (not_not.2 magic), if_neg (not_not.2 version),
    if_neg (not_not.2 headerLen), if_neg (not_not.2 kind)]

lemma nextOffset_eq {offset : Nat} {record : WalRecord}
    (fits : offset + (encodeRecord crc record).length < U64) :
    (checkedAdd offset RECORD_HEADER_LEN).bind (checkedAdd · (u32At (recordHead crc record) 32)) =
      some (offset + (encodeRecord crc record).length) := by
  obtain ⟨-, -, -, -, -, -, len, -⟩ := recordHead_fields crc record
  rw [length_encodeRecord] at fits ⊢
  rw [len, checkedAdd_of_lt (by simp only [RECORD_HEADER_LEN]; omega), Option.bind_some,
    checkedAdd_of_lt (by simp only [RECORD_HEADER_LEN]; omega), RECORD_HEADER_LEN, Nat.add_assoc]

lemma new_fields {record : WalRecord} {seq start : Nat} (hseq : seq = record.seq)
    (hstart : start = record.range.start) (lt : seq % U64 < U64) :
    WalRecord.new (seq % U64) lt (ByteRange.new start record.data.length) record.data =
      .ok record := by
  have range : ByteRange.new start record.data.length = record.range := by
    apply ByteRange.ext
    · rw [hstart]
      exact ByteRange.new_start record.range.start_lt
    · rw [ByteRange.new_len (data_lt record), record.data_len]
  have mod : seq % U64 = record.seq := by
    rw [hseq]
    exact Nat.mod_eq_of_lt record.seq_lt
  simp only [WalRecord.new, WalRequest.new, range, dif_neg record.data_ne, dif_pos record.data_len,
    Res.ok_bind, WalRecord.fromRequest, mod, dif_neg record.seq_ne]

lemma decodeRecordAt_frame {before : Buf} {record : WalRecord} (path : String)
    (fits : before.length + (encodeRecord crc record).length < U64) (rest : Buf) :
    decodeRecordAt crc path (before ++ (encodeRecord crc record ++ rest)) before.length =
      .ok (record, before.length + (encodeRecord crc record).length) := by
  obtain ⟨-, -, -, -, seq, start, len, fields, sum⟩ := recordHead_fields crc record
  have head : slice (before ++ (encodeRecord crc record ++ rest)) before.length RECORD_HEADER_LEN =
      recordHead crc record := by
    have := slice_append_right before (encodeRecord crc record ++ rest) 0 RECORD_HEADER_LEN
    rw [Nat.add_zero] at this
    rw [this, encodeRecord_eq, List.append_assoc, slice_append_left _ (by simp [RECORD_HEADER_LEN])]
    simpa [RECORD_HEADER_LEN] using slice_all (recordHead crc record)
  have payload : slice (before ++ (encodeRecord crc record ++ rest))
      (before.length + RECORD_HEADER_LEN) record.data.length = record.data := by
    rw [slice_append_right, encodeRecord_eq, slice_append_left _ (by simp [RECORD_HEADER_LEN]),
      slice_last (by simp [RECORD_HEADER_LEN]) rfl]
  have long : ¬ (before ++ (encodeRecord crc record ++ rest)).length <
      before.length + (encodeRecord crc record).length := by
    simp only [List.length_append]
    omega
  rw [decodeRecordAt_head crc head, decodeRecordBody, nextOffset_eq crc fits]
  dsimp only
  rw [if_neg long, len, payload, RECORD_CRC_OFFSET, fields, sum, if_neg (not_not.2 rfl)]
  rw [new_fields seq start]

lemma decodeRecordAt_torn {before tail : Buf} {record : WalRecord} (path : String)
    (torn : tail <+: encodeRecord crc record) (short : tail ≠ encodeRecord crc record)
    (fits : before.length + (encodeRecord crc record).length < U64) :
    ∃ e, decodeRecordAt crc path (before ++ tail) before.length = .error e ∧
      e.repairOffset (before ++ tail).length before.length = some before.length := by
  obtain ⟨rest, eq⟩ := torn
  have lt : tail.length < (encodeRecord crc record).length := by
    rw [← eq, List.length_append]
    have : rest ≠ [] := by
      rintro rfl
      exact short (by rw [← eq, List.append_nil])
    have := List.length_pos_of_ne_nil this
    omega
  by_cases partialHead : tail.length < RECORD_HEADER_LEN
  · refine ⟨.partialHeader path, ?_, rfl⟩
    simp only [decodeRecordAt]
    rw [if_pos]
    rw [List.length_append]
    omega
  · have head : slice (before ++ tail) before.length RECORD_HEADER_LEN = recordHead crc record := by
      have := slice_append_right before tail 0 RECORD_HEADER_LEN
      rw [Nat.add_zero] at this
      rw [this, ← slice_append_left rest (by omega), eq, encodeRecord_eq,
        slice_append_left _ (by simp [RECORD_HEADER_LEN])]
      simpa [RECORD_HEADER_LEN] using slice_all (recordHead crc record)
    refine ⟨.partialPayload path, ?_, rfl⟩
    rw [decodeRecordAt_head crc head, decodeRecordBody, nextOffset_eq crc fits]
    simp only [List.length_append, if_pos (Nat.add_lt_add_left lt before.length)]

end Wal

end NbdServer
