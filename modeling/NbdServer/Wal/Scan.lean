import NbdServer.Wal.Layout

/-!
# Scanning one damaged segment

What `scan_segment` makes of a newest segment that does not end where a frame ends, or in which a
frame was altered. A segment cut at any byte keeps the records whose frames are whole
(`torn_tail_recovery`). How the bytes of a segment read is the relation `ReadAs`, which the loop of
the scan follows (`scanRecords_reads`). An altered frame in the middle is told apart from a torn one
at the end only by its own length field and checksum, so some alterations make the scan cut off or
skip the frames behind it (`interior_alteration_detected_iff`).
-/

namespace NbdServer

namespace Wal

open Lib

/-- Rust `isize::MAX`, the most bytes a `Vec` has: `fs::read` returns no longer file. -/
def MAX_VEC_LEN : Nat := 2 ^ 63 - 1

/-- The records whose frames lie wholly in the first `n` bytes of the frames. -/
def recordsWithin (crc : Checksum) : Nat → List WalRecord → List WalRecord
  | _, [] => []
  | n, r :: rs =>
    if (encodeRecord crc r).length ≤ n then
      r :: recordsWithin crc (n - (encodeRecord crc r).length) rs
    else []

variable {crc : Checksum}

lemma recordsWithin_prefix (n : Nat) (rs : List WalRecord) : recordsWithin crc n rs <+: rs := by
  induction rs generalizing n with
  | nil => exact List.prefix_rfl
  | cons r rs ih =>
    rw [recordsWithin]
    split
    · exact List.prefix_cons_inj r |>.2 (ih _)
    · exact List.nil_prefix

lemma cut_frames {rs : List WalRecord} {cut : Buf} (pref : cut <+: frames crc rs) :
    ∃ tail, cut = frames crc (recordsWithin crc cut.length rs) ++ tail ∧
      (tail = [] ∨ Torn crc tail) := by
  induction rs generalizing cut with
  | nil =>
    rw [List.prefix_nil.1 pref]
    exact ⟨[], rfl, .inl rfl⟩
  | cons r rs ih =>
    rw [frames_cons] at pref
    by_cases fits : (encodeRecord crc r).length ≤ cut.length
    · obtain ⟨cut, rfl⟩ := List.prefix_of_prefix_length_le (List.prefix_append _ _) pref fits
      obtain ⟨tail, eq, torn⟩ := ih ((List.prefix_append_right_inj _).1 pref)
      refine ⟨tail, ?_, torn⟩
      rw [recordsWithin, if_pos fits, frames_cons, List.append_assoc, List.length_append,
        Nat.add_sub_cancel_left, ← eq]
    · refine ⟨cut, ?_, .inr ⟨r, ?_, ?_⟩⟩
      · rw [recordsWithin, if_neg fits]
        rfl
      · exact List.prefix_of_prefix_length_le pref (List.prefix_append _ _) (by omega)
      · rintro rfl
        exact fits le_rfl

lemma Consecutive.room {first : Nat} {rs : List WalRecord} (cons : Consecutive first rs)
    (start : first + 1 < U64) (below : ∀ r ∈ rs, r.seq < U64 - 1) :
    first + rs.length + 1 < U64 := by
  rcases List.eq_nil_or_concat' rs with rfl | ⟨init, r, rfl⟩
  · simpa using start
  · have last := cons init.length r (by simp)
    have := below r (by simp)
    rw [List.length_append, List.length_singleton]
    omega

lemma find_repair {f : Files} {path : Nat} {kept tail : Buf}
    (found : f.disk.find path = some (kept ++ tail)) :
    (f.issue (repair path kept.length tail)).disk.find path = some kept := by
  rw [Files.disk_issue, repair]
  split
  · rename_i empty
    rw [replay_nil, found, empty, List.append_nil]
  · simp [Effect.apply, found]

/-- Torn-tail recovery: the scan of a cut newest segment returns exactly the records whose frames
are whole and truncates the file behind them, and the file goes on from there. -/
theorem torn_tail_recovery {firstSeq : Nat} (nonzero : firstSeq ≠ 0) (first : firstSeq < U64)
    {rs : List WalRecord} (cons : Consecutive (firstSeq - 1) rs) (below : ∀ r ∈ rs, r.seq < U64 - 1)
    {cut : Buf} (pref : cut <+: encodeSegmentHeader crc firstSeq ++ frames crc rs)
    (header : SEGMENT_HEADER_LEN ≤ cut.length) (vec : cut.length ≤ MAX_VEC_LEN)
    {f : Files} (plan : f.plan = []) (found : f.disk.find firstSeq = some cut) :
    let whole := recordsWithin crc (cut.length - SEGMENT_HEADER_LEN) rs
    let kept := encodeSegmentHeader crc firstSeq ++ frames crc whole
    (∃ f', scanSegment crc firstSeq firstSeq true f =
        .ok ⟨firstSeq, firstSeq, kept.length, whole⟩ f' ∧
      f'.plan = [] ∧ f'.disk.find firstSeq = some kept) ∧
    ∀ more, Consecutive (firstSeq - 1) (whole ++ more) → (∀ r ∈ more, r.seq < U64 - 1) →
      (kept ++ frames crc more).length ≤ MAX_VEC_LEN →
      ∀ g : Files, g.plan = [] → g.disk.find firstSeq = some (kept ++ frames crc more) →
        scanSegment crc firstSeq firstSeq true g =
          .ok ⟨firstSeq, firstSeq, (kept ++ frames crc more).length, whole ++ more⟩ g := by
  obtain ⟨b, rfl⟩ := Nat.exists_eq_succ_of_ne_zero nonzero
  intro whole kept
  have within : whole <+: rs := recordsWithin_prefix _ _
  have belowWhole : ∀ r ∈ whole, r.seq < U64 - 1 := fun r hr => below r (within.subset hr)
  obtain ⟨cut, rfl⟩ := List.prefix_of_prefix_length_le (List.prefix_append _ _) pref
    (by rwa [length_encodeSegmentHeader])
  have rest : whole = recordsWithin crc cut.length rs := by
    simp only [whole, List.length_append, length_encodeSegmentHeader, Nat.add_sub_cancel_left]
  obtain ⟨tail, eq, torn⟩ := cut_frames ((List.prefix_append_right_inj _).1 pref)
  rw [← rest] at eq
  have file : encodeSegmentHeader crc (b + 1) ++ cut = kept ++ tail := by
    rw [eq, ← List.append_assoc]
  -- a segment of records after `b` is small as long as its file fits a `Vec`
  have small : ∀ s : Segment, s.before = b → (∀ r ∈ s.records, r.seq < U64 - 1) →
      (s.bytes crc).length ≤ MAX_VEC_LEN → s.Small crc := by
    intro s before seqs len
    refine ⟨Consecutive.room s.consecutive (by omega) seqs, ?_⟩
    simp only [MAX_VEC_LEN, U64] at len ⊢
    omega
  have consWhole : Consecutive b whole := by
    obtain ⟨later, eq⟩ := within
    rw [← eq] at cons
    exact cons.left
  constructor
  · have len : kept.length ≤ MAX_VEC_LEN := by
      rw [file, List.length_append] at vec
      omega
    rw [file] at found
    exact ⟨_, scanSegment_spec plan (s := ⟨b, whole, consWhole⟩) found
      (torn.imp_right fun t => ⟨rfl, t⟩) (small _ rfl belowWhole len), plan, find_repair found⟩
  · intro more cons below len g plan found
    have bytes : kept ++ frames crc more =
        encodeSegmentHeader crc (b + 1) ++ frames crc (whole ++ more) := by
      rw [List.append_assoc, frames, frames, frames, List.flatMap_append]
    have seqs : ∀ r ∈ whole ++ more, r.seq < U64 - 1 := by
      intro r hr
      exact (List.mem_append.1 hr).elim (belowWhole r) (below r)
    rw [bytes] at found len ⊢
    rw [← List.append_nil (encodeSegmentHeader crc (b + 1) ++ frames crc (whole ++ more))] at found
    have run : scanSegment crc (b + 1) (b + 1) true g = _ :=
      scanSegment_spec plan (s := ⟨b, whole ++ more, cons⟩) found (.inl rfl) (small _ rfl seqs len)
    rwa [repair, if_pos rfl, Files.issue_nil] at run

def byteRecords : List WalRecord :=
  [.byte 1 0 7 seq_one, .byte 2 1 9 seq_two]

def byteSegment : Buf := encodeSegmentHeader crc32c 1 ++ frames crc32c byteRecords

def oneFile (data : Buf) : Files := ⟨"wal", OrdMap.empty.insert 1 data, [], []⟩

lemma find_oneFile (data : Buf) : (oneFile data).disk.find 1 = some data := by
  simp [oneFile, Files.disk]

lemma consecutive_byteRecords : Consecutive 0 byteRecords :=
  (Consecutive.nil.concat (r := byteRecords[0]) rfl).concat (r := byteRecords[1]) rfl

/-- The segment cut 15 bytes into the frame of its second record. -/
theorem torn_tail_recovery_second_frame :
    recordsWithin crc32c ((byteSegment.take 80).length - SEGMENT_HEADER_LEN) byteRecords =
      byteRecords.take 1 ∧
    ∃ f', scanSegment crc32c 1 1 true (oneFile (byteSegment.take 80)) =
        .ok ⟨1, 1, 65, byteRecords.take 1⟩ f' ∧ f'.disk.find 1 = some (byteSegment.take 65) := by
  have whole : recordsWithin crc32c ((byteSegment.take 80).length - SEGMENT_HEADER_LEN)
    byteRecords =
      byteRecords.take 1 := by decide +kernel
  have kept : encodeSegmentHeader crc32c 1 ++ frames crc32c (byteRecords.take 1) =
      byteSegment.take 65 := by decide +kernel
  obtain ⟨⟨f', run, -, file⟩, -⟩ := torn_tail_recovery (f := oneFile (byteSegment.take 80))
    (by decide) (by decide) consecutive_byteRecords (by decide) (List.take_prefix 80 byteSegment)
    (by decide +kernel) (by decide +kernel) rfl (find_oneFile _)
  rw [whole, kept] at run file
  exact ⟨whole, f', run, file⟩

/-- The header fields that all records share are in place. -/
def FixedFields (bytes : Buf) : Prop :=
  slice bytes 0 8 = RECORD_MAGIC ∧ u16At bytes 8 = WAL_FORMAT_VERSION ∧
    u16At bytes 10 = RECORD_HEADER_LEN ∧ u16At bytes 12 = RECORD_KIND_WRITE

instance (bytes : Buf) : Decidable (FixedFields bytes) :=
  inferInstanceAs (Decidable (_ ∧ _ ∧ _ ∧ _))

def statedLen (bytes : Buf) : Nat := u32At bytes 32

/-- The checksum in the header is that of the header and the payload of the stated length. -/
def ChecksumMatches (crc : Checksum) (bytes : Buf) : Prop :=
  u32At bytes RECORD_CRC_OFFSET =
    (crc (slice bytes 0 RECORD_CRC_OFFSET ++ slice bytes RECORD_HEADER_LEN (statedLen bytes))).toNat

instance (crc : Checksum) (bytes : Buf) : Decidable (ChecksumMatches crc bytes) :=
  inferInstanceAs (Decidable (_ = _))

/-- The bytes start with a frame that decodes to the record `r`. -/
structure Starts (crc : Checksum) (r : WalRecord) (bytes : Buf) : Prop where
  fields : FixedFields bytes
  fits : RECORD_HEADER_LEN + statedLen bytes ≤ bytes.length
  sum : ChecksumMatches crc bytes
  seq : u64At bytes 16 = r.seq
  start : u64At bytes 24 = r.range.start
  data : slice bytes RECORD_HEADER_LEN (statedLen bytes) = r.data

/-- The scan takes the bytes for a torn frame: they are shorter than a header or than the length in
it says, or they end where it says and the checksum is wrong. -/
def LooksTorn (crc : Checksum) (bytes : Buf) : Prop :=
  bytes.length < RECORD_HEADER_LEN ∨ FixedFields bytes ∧
    (bytes.length < RECORD_HEADER_LEN + statedLen bytes ∨
      bytes.length = RECORD_HEADER_LEN + statedLen bytes ∧ ¬ ChecksumMatches crc bytes)

instance (crc : Checksum) (bytes : Buf) : Decidable (LooksTorn crc bytes) :=
  inferInstanceAs (Decidable (_ ∨ _))

/-- What the decoder makes of the bytes from an offset on. -/
inductive Decodes (crc : Checksum) (bytes : Buf) (offset : Nat) :
    Except RecordDecodeError (WalRecord × Nat) → Prop where
  | torn (e : RecordDecodeError) (looks : LooksTorn crc bytes)
    (repair : e.repairOffset (offset + bytes.length) offset = some offset) :
    Decodes crc bytes offset (.error e)
  | corrupt (e : RecordDecodeError) (whole : ¬ LooksTorn crc bytes)
    (noRecord : ∀ r, ¬ Starts crc r bytes)
    (repair : e.repairOffset (offset + bytes.length) offset = none) :
    Decodes crc bytes offset (.error e)
  | record (r : WalRecord) (starts : Starts crc r bytes) :
    Decodes crc bytes offset (.ok (r, offset + (RECORD_HEADER_LEN + r.data.length)))

lemma leVal_slice_lt (bytes : Buf) (off len : Nat) : leVal (slice bytes off len) < 256 ^ len :=
  (leVal_lt _).trans_le (Nat.pow_le_pow_right (by decide) (List.length_take_le len _))

lemma Starts.data_length {r : WalRecord} {bytes : Buf} (h : Starts crc r bytes) :
    r.data.length = statedLen bytes := by
  rw [← h.data, length_slice h.fits]

lemma Starts.not_torn {r : WalRecord} {bytes : Buf} (h : Starts crc r bytes) :
    ¬ LooksTorn crc bytes := by
  have := h.fits
  rintro (short | ⟨-, long | ⟨-, bad⟩⟩)
  · omega
  · omega
  · exact bad h.sum

lemma Starts.unique {r r' : WalRecord} {bytes : Buf} (h : Starts crc r bytes)
    (h' : Starts crc r' bytes) : r = r' := by
  refine WalRecord.eq_iff.1 ⟨h.seq.symm.trans h'.seq, ByteRange.ext ?_ ?_,
    h.data.symm.trans h'.data⟩
  · exact h.start.symm.trans h'.start
  · rw [← r.data_len, ← r'.data_len, h.data_length, h'.data_length]

lemma fields_of_new {seq : Nat} {lt : seq < U64} {range : ByteRange} {data : Buf} {r : WalRecord}
    (ok : WalRecord.new seq lt range data = .ok r) :
    seq = r.seq ∧ range = r.range ∧ data = r.data := by
  unfold WalRecord.new WalRequest.new at ok
  split_ifs at ok
  · cases ok
  · rw [Res.ok_bind, WalRecord.fromRequest] at ok
    split_ifs at ok
    · cases ok
    · cases ok
      exact ⟨rfl, rfl, rfl⟩
  · cases ok

lemma decodes_body (path : String) {pre bytes : Buf} (fields : FixedFields bytes)
    (long : RECORD_HEADER_LEN ≤ bytes.length) (fits : (pre ++ bytes).length ≤ MAX_VEC_LEN) :
    Decodes crc bytes pre.length
      (decodeRecordBody crc path (pre ++ bytes) (slice bytes 0 RECORD_HEADER_LEN) pre.length) := by
  have field : ∀ off len, off + len ≤ RECORD_HEADER_LEN →
      leVal (slice (slice bytes 0 RECORD_HEADER_LEN) off len) = leVal (slice bytes off len) := by
    intro off len le
    rw [slice_slice le, Nat.zero_add]
  have len : u32At (slice bytes 0 RECORD_HEADER_LEN) 32 = statedLen bytes := field 32 4 (by decide)
  have sum : u32At (slice bytes 0 RECORD_HEADER_LEN) RECORD_CRC_OFFSET =
      u32At bytes RECORD_CRC_OFFSET := field RECORD_CRC_OFFSET 4 (by decide)
  have seq : u64At (slice bytes 0 RECORD_HEADER_LEN) 16 = u64At bytes 16 := field 16 8 (by decide)
  have start : u64At (slice bytes 0 RECORD_HEADER_LEN) 24 = u64At bytes 24 := field 24 8 (by decide)
  have covered : slice (slice bytes 0 RECORD_HEADER_LEN) 0 RECORD_CRC_OFFSET =
      slice bytes 0 RECORD_CRC_OFFSET := slice_slice (by decide)
  have next : (checkedAdd pre.length RECORD_HEADER_LEN).bind (checkedAdd · (statedLen bytes)) =
      some (pre.length + (RECORD_HEADER_LEN + statedLen bytes)) := by
    have stated : statedLen bytes < 256 ^ 4 := leVal_slice_lt bytes 32 4
    simp only [List.length_append, MAX_VEC_LEN] at fits
    rw [checkedAdd_of_lt (by simp only [RECORD_HEADER_LEN, U64]; omega), Option.bind_some,
      checkedAdd_of_lt (by simp only [RECORD_HEADER_LEN, U64]; omega), Nat.add_assoc]
  simp only [decodeRecordBody, len, sum, seq, start, covered, next, slice_append_right,
    List.length_append, Nat.add_lt_add_iff_left]
  split
  · exact .torn _ (.inr ⟨fields, .inl ‹_›⟩) rfl
  rename_i whole
  rw [not_lt] at whole
  split
  · rename_i bad
    -- a wrong checksum is repairable only at the end of the file
    by_cases last : bytes.length = RECORD_HEADER_LEN + statedLen bytes
    · refine .torn _ (.inr ⟨fields, .inr ⟨last, bad⟩⟩) ?_
      rw [last]
      exact if_pos rfl
    · refine .corrupt _ ?_ (fun r starts => bad starts.sum) (if_neg (by omega))
      rintro (short | ⟨-, beyond | ⟨ends, -⟩⟩) <;> omega
  · rename_i ok
    rw [not_not] at ok
    have sound : ¬ LooksTorn crc bytes := by
      rintro (short | ⟨-, beyond | ⟨-, bad⟩⟩)
      · omega
      · omega
      · exact bad ok
    split
    · rename_i e failed
      refine .corrupt _ sound ?_ rfl
      intro r starts
      rw [starts.data, ← starts.data_length, new_fields starts.seq starts.start] at failed
      cases failed
    · rename_i r made
      obtain ⟨seq, range, data⟩ := fields_of_new made
      have starts : Starts crc r bytes := by
        refine ⟨fields, whole, ok, ?_, ?_, data⟩
        · rw [← seq]
          exact (Nat.mod_eq_of_lt (leVal_slice_lt bytes 16 8)).symm
        · rw [← range]
          exact (ByteRange.new_start (leVal_slice_lt bytes 24 8)).symm
      rw [← starts.data_length]
      exact .record r starts

lemma decodes (path : String) {pre bytes : Buf} (fits : (pre ++ bytes).length ≤ MAX_VEC_LEN) :
    Decodes crc bytes pre.length (decodeRecordAt crc path (pre ++ bytes) pre.length) := by
  have head : slice (pre ++ bytes) pre.length RECORD_HEADER_LEN = slice bytes 0 RECORD_HEADER_LEN :=
    slice_append_right pre bytes 0 RECORD_HEADER_LEN
  have field : ∀ off len, off + len ≤ RECORD_HEADER_LEN →
      slice (slice bytes 0 RECORD_HEADER_LEN) off len = slice bytes off len := by
    intro off len le
    rw [slice_slice le, Nat.zero_add]
  simp only [decodeRecordAt, head, List.length_append, Nat.add_sub_cancel_left]
  split
  · exact .torn _ (.inl ‹_›) rfl
  rename_i enough
  -- a wrong fixed field is never repaired
  have corrupt : ∀ message, ¬ FixedFields bytes →
      Decodes crc bytes pre.length (.error (.corrupt message)) := by
    intro message bad
    exact .corrupt _ (fun torn => torn.elim enough fun h => bad h.1)
      (fun r starts => bad starts.fields) rfl
  unfold u16At
  rw [field 0 8 (by decide), field 8 2 (by decide), field 10 2 (by decide), field 12 2 (by decide)]
  split
  · exact corrupt _ fun h => absurd h.1 ‹_›
  · split
    · exact corrupt _ fun h => absurd h.2.1 ‹_›
    · split
      · exact corrupt _ fun h => absurd h.2.2.1 ‹_›
      · split
        · exact corrupt _ fun h => absurd h.2.2.2 ‹_›
        · rename_i magic version headerLen kind
          rw [not_not] at magic version headerLen kind
          exact decodes_body path ⟨magic, version, headerLen, kind⟩ (not_lt.1 enough) fits

lemma starts_frame (r : WalRecord) {rest : Buf}
    (fits : (encodeRecord crc r ++ rest).length ≤ MAX_VEC_LEN) :
    Starts crc r (encodeRecord crc r ++ rest) := by
  have lt : ([] : Buf).length + (encodeRecord crc r).length < U64 := by
    simp only [List.length_append, List.length_nil, MAX_VEC_LEN, U64] at fits ⊢
    omega
  have decoded : Decodes crc (encodeRecord crc r ++ rest) ([] : Buf).length
      (decodeRecordAt crc "" ([] ++ (encodeRecord crc r ++ rest)) ([] : Buf).length) :=
    decodes "" fits
  rw [decodeRecordAt_frame crc "" lt rest] at decoded
  generalize eq : Except.ok (r, _) = result at decoded
  cases decoded with
  | torn e _ _ | corrupt e _ _ _ => cases eq
  | record r' starts =>
    obtain ⟨rfl, -⟩ := Prod.mk.inj (Except.ok.inj eq)
    exact starts

/-- Bytes that read as the frames of `records` in sequence, up to the end or to a tail that looks
like a torn frame. -/
inductive ReadAs (crc : Checksum) : Nat → Buf → List WalRecord → Buf → Prop where
  | done (seq : Nat) : ReadAs crc seq [] [] []
  | torn {bytes : Buf} (seq : Nat) (ne : bytes ≠ []) (looks : LooksTorn crc bytes) :
    ReadAs crc seq bytes [] bytes
  | frame {seq : Nat} {r : WalRecord} {bytes rest : Buf} {records : List WalRecord}
    (starts : Starts crc r bytes) (order : r.seq = seq) (max : seq + 1 < U64)
    (later : ReadAs crc (seq + 1) (bytes.drop (RECORD_HEADER_LEN + r.data.length)) records rest) :
    ReadAs crc seq bytes (r :: records) rest

namespace ReadAs

variable {seq : Nat} {bytes rest : Buf} {records : List WalRecord}

lemma unique (h : ReadAs crc seq bytes records rest) {records' : List WalRecord} {rest' : Buf}
    (h' : ReadAs crc seq bytes records' rest') : records = records' ∧ rest = rest' := by
  induction h generalizing records' rest' with
  | done seq =>
    cases h' with
    | done => exact ⟨rfl, rfl⟩
    | torn _ ne _ => exact absurd rfl ne
    | frame starts _ _ _ => exact absurd starts.fits (by simp [RECORD_HEADER_LEN])
  | torn seq ne looks =>
    cases h' with
    | done => exact absurd rfl ne
    | torn => exact ⟨rfl, rfl⟩
    | frame starts _ _ _ => exact absurd looks starts.not_torn
  | frame starts order max later ih =>
    cases h' with
    | done => exact absurd starts.fits (by simp [RECORD_HEADER_LEN])
    | torn _ _ looks => exact absurd looks starts.not_torn
    | frame starts' _ _ later' =>
      obtain rfl := starts.unique starts'
      obtain ⟨rfl, rfl⟩ := ih later'
      exact ⟨rfl, rfl⟩

lemma logBytes_cons (r : WalRecord) (rs : List WalRecord) :
    logBytes (r :: rs) = RECORD_HEADER_LEN + r.data.length + logBytes rs := List.sum_cons

lemma split (h : ReadAs crc seq bytes records rest) :
    ∃ whole, bytes = whole ++ rest ∧ whole.length = logBytes records := by
  induction h with
  | done | torn => exact ⟨[], rfl, rfl⟩
  | @frame seq r bytes rest records starts _ _ _ ih =>
    obtain ⟨whole, eq, len⟩ := ih
    have fits := starts.fits
    rw [← starts.data_length] at fits
    refine ⟨bytes.take (RECORD_HEADER_LEN + r.data.length) ++ whole, ?_, ?_⟩
    · rw [List.append_assoc, ← eq, List.take_append_drop]
    · rw [List.length_append, List.length_take_of_le fits, len, logBytes_cons]

lemma drop (h : ReadAs crc seq bytes records rest) (k : Nat) :
    ∃ seq', ReadAs crc seq' (bytes.drop (logBytes (records.take k))) (records.drop k) rest := by
  induction h generalizing k with
  | done seq => exact ⟨seq, by simpa using .done seq⟩
  | torn seq ne looks => exact ⟨seq, by simpa [logBytes] using .torn seq ne looks⟩
  | frame starts order max later ih =>
    cases k with
    | zero => exact ⟨_, .frame starts order max later⟩
    | succ k =>
      obtain ⟨seq', read⟩ := ih k
      rw [List.drop_drop, ← logBytes_cons] at read
      exact ⟨seq', read⟩

lemma of_frames {rs : List WalRecord} (fits : (frames crc rs).length ≤ MAX_VEC_LEN)
    (h : ReadAs crc seq (frames crc rs) records rest) : records = rs := by
  induction rs generalizing seq records with
  | nil =>
    cases h with
    | done => rfl
    | torn _ ne _ => exact absurd rfl ne
    | frame starts _ _ _ => exact absurd starts.fits (by simp [RECORD_HEADER_LEN, frames])
  | cons r rs ih =>
    rw [frames_cons] at fits h
    have starts := starts_frame r fits
    cases h with
    | torn _ _ looks => exact absurd looks starts.not_torn
    | frame starts' _ _ later =>
      obtain rfl := starts.unique starts'
      have behind : (encodeRecord crc r ++ frames crc rs).drop (RECORD_HEADER_LEN + r.data.length) =
          frames crc rs := by
        rw [RECORD_HEADER_LEN, ← length_encodeRecord crc, List.drop_left]
      rw [behind] at later
      rw [List.length_append] at fits
      rw [ih (by omega) later]

end ReadAs

/-- The loop over the records of the newest segment takes the records that the bytes read as and
cuts the file before the tail; it fails when they read as no records. -/
lemma scanRecords_reads {f : Files} (plan : f.plan = []) {path : Nat} (has : f.disk.Has path)
    {fuel : Nat} {pre bytes : Buf} (seq : Nat) (acc : List WalRecord) (enough : bytes.length < fuel)
    (vec : (pre ++ bytes).length ≤ MAX_VEC_LEN) :
    ((∀ records rest, ¬ ReadAs crc seq bytes records rest) ∧ ∃ e,
      scanRecords crc path (pre ++ bytes) true fuel pre.length seq acc f = .error e f) ∨
    ∃ records rest, ReadAs crc seq bytes records rest ∧
      scanRecords crc path (pre ++ bytes) true fuel pre.length seq acc f =
        .ok (pre.length + logBytes records, acc ++ records)
          (f.issue (repair path (pre.length + logBytes records) rest)) := by
  induction fuel generalizing pre bytes seq acc with
  | zero => exact absurd enough (Nat.not_lt_zero _)
  | succ fuel ih =>
    -- one turn of the loop: it decodes what the first bytes look like
    by_cases empty : bytes = []
    · subst empty
      refine .inr ⟨[], [], .done seq, ?_⟩
      rw [List.append_nil, scanRecords_end, repair, if_pos rfl, Files.issue_nil, List.append_nil]
      rfl
    have lt : pre.length < (pre ++ bytes).length := by
      rw [List.length_append]
      exact Nat.lt_add_of_pos_right (List.length_pos_of_ne_nil empty)
    have decoded : Decodes crc bytes pre.length _ := decodes (segmentPath f.dir path) vec
    rw [scanRecords, get_bind, if_pos lt]
    generalize decodeRecordAt crc (segmentPath f.dir path) _ pre.length = result at decoded
    cases decoded with
    | torn e looks found =>
      refine .inr ⟨[], bytes, .torn seq empty looks, ?_⟩
      rw [← List.length_append] at found
      simp only [found, Option.isSome_some, Bool.and_self, if_true]
      rw [bind_ok (truncateSegmentTail_ok plan has _), pure_run, repair, if_neg empty,
        List.append_nil]
      rfl
    | corrupt e whole noRecord kept =>
      refine .inl ⟨?_, e.error, ?_⟩
      · intro records rest read
        cases read with
        | done => exact empty rfl
        | torn _ _ looks => exact whole looks
        | frame starts _ _ _ => exact noRecord _ starts
      · rw [← List.length_append] at kept
        simp only [kept, Option.isSome_none, Bool.and_false, Bool.false_eq_true, if_false]
        rfl
    | record r starts =>
      dsimp only
      -- the only way to read on is through this record
      have only : ∀ {records rest}, ReadAs crc seq bytes records rest → r.seq = seq ∧
          seq + 1 < U64 ∧ ∃ records' rest', ReadAs crc (seq + 1)
            (bytes.drop (RECORD_HEADER_LEN + r.data.length)) records' rest' := by
        intro records rest read
        cases read with
        | done => exact absurd rfl empty
        | torn _ _ looks => exact absurd looks starts.not_torn
        | frame starts' order max later =>
          obtain rfl := starts.unique starts'
          exact ⟨order, max, _, _, later⟩
      by_cases order : r.seq = seq
      · rw [if_neg (not_not.2 order)]
        by_cases max : r.seq + 1 < U64
        · rw [nextSeqAfter_eq max, lift_ok_bind]
          have fits := starts.fits
          rw [← starts.data_length] at fits
          have file : pre ++ bytes = pre ++ bytes.take (RECORD_HEADER_LEN + r.data.length) ++
              bytes.drop (RECORD_HEADER_LEN + r.data.length) := by
            rw [List.append_assoc, List.take_append_drop]
          have next : pre.length + (RECORD_HEADER_LEN + r.data.length) =
              (pre ++ bytes.take (RECORD_HEADER_LEN + r.data.length)).length := by
            rw [List.length_append, List.length_take_of_le fits]
          have shorter : (bytes.drop (RECORD_HEADER_LEN + r.data.length)).length < fuel := by
            have : 0 < RECORD_HEADER_LEN := by decide
            rw [List.length_drop]
            omega
          rw [file] at vec ⊢
          rw [next]
          rcases ih (r.seq + 1) (acc ++ [r]) shorter vec with
            ⟨none, failed⟩ | ⟨records, rest, read, run⟩
          · refine .inl ⟨fun records rest read => ?_, failed⟩
            obtain ⟨-, -, _, _, later⟩ := only read
            exact none _ _ (order ▸ later)
          · refine .inr ⟨r :: records, rest, .frame starts order (order ▸ max) (order ▸ read), ?_⟩
            rw [run, ← next, ReadAs.logBytes_cons, List.append_assoc acc, Nat.add_assoc]
            rfl
        · refine .inl ⟨fun records rest read => max (order ▸ (only read).2.1), ?_⟩
          rw [nextSeqAfter, dif_neg max]
          exact ⟨_, rfl⟩
      · refine .inl ⟨fun records rest read => order (only read).1, ?_⟩
        rw [if_pos order]
        exact ⟨_, rfl⟩

/-- The damaged bytes mislead the scan: with the bytes behind them they read as frames up to a tail
that looks torn, or up to the end without a frame that ends where the damaged bytes end. -/
def Misleads (crc : Checksum) (seq : Nat) (damaged later : Buf) : Prop :=
  ∃ records rest, ReadAs crc seq (damaged ++ later) records rest ∧
    (rest = [] → ∀ k, logBytes (records.take k) ≠ damaged.length)

/-- The file of a segment with the frame of one of its records replaced. -/
def alteredFile (crc : Checksum) (firstSeq : Nat) (before : List WalRecord) (frame : Buf)
    (after : List WalRecord) : Buf :=
  encodeSegmentHeader crc firstSeq ++ (frames crc before ++ frame ++ frames crc after)

/-- A scan that does not fail returns the records `after` at the end and does not change the
directory. -/
def KeepsLater (after : List WalRecord) (f : Files)
    (result : EStateM.Result Fault Files SegmentScan) : Prop :=
  ∀ scan f', result = .ok scan f' → after <:+ scan.records ∧ f'.disk = f.disk

/-- A reading to the end returns the records behind the damaged bytes exactly when a frame ends
where these end. -/
lemma ReadAs.suffix_iff {seq : Nat} {damaged : Buf} {after records : List WalRecord}
    (vec : (frames crc after).length ≤ MAX_VEC_LEN)
    (read : ReadAs crc seq (damaged ++ frames crc after) records []) :
    after <:+ records ↔ ∃ k, logBytes (records.take k) = damaged.length := by
  constructor
  · rintro ⟨earlier, rfl⟩
    obtain ⟨whole, eq, len⟩ := read.split
    refine ⟨earlier.length, ?_⟩
    have total := congrArg List.length eq
    simp only [List.length_append, List.length_nil, len, length_frames, logBytes_append] at total
    rw [List.take_left]
    omega
  · rintro ⟨k, boundary⟩
    obtain ⟨seq', later⟩ := read.drop k
    rw [boundary, List.drop_left] at later
    rw [← later.of_frames vec]
    exact List.drop_suffix k records

/-- An alteration inside a frame is detected exactly when the bytes up to it do not mislead the
scan: the scan then fails, or it returns the records behind the frame and leaves the file as it
is. -/
theorem interior_alteration_detected_iff {firstSeq : Nat} (first : firstSeq < U64)
    {before after : List WalRecord} {frame : Buf}
    (vec : (alteredFile crc firstSeq before frame after).length ≤ MAX_VEC_LEN) {f : Files}
    (plan : f.plan = [])
    (found : f.disk.find firstSeq = some (alteredFile crc firstSeq before frame after)) :
    KeepsLater after f (scanSegment crc firstSeq firstSeq true f) ↔
      ¬ Misleads crc firstSeq (frames crc before ++ frame) (frames crc after) := by
  have has : f.disk.Has firstSeq := by
    rw [OrdMap.Has, found]
    rfl
  rw [alteredFile] at vec found
  generalize frames crc before ++ frame = damaged at vec found
  rw [scanSegment_header plan first found]
  have enough : (damaged ++ frames crc after).length <
      (encodeSegmentHeader crc firstSeq ++ (damaged ++ frames crc after)).length + 1 := by
    simp only [List.length_append]
    omega
  rcases scanRecords_reads plan has firstSeq [] enough vec
    with ⟨none, e, failed⟩ | ⟨records, rest, read, ok⟩
  · rw [bind_error failed]
    constructor
    · rintro - ⟨records, rest, read, -⟩
      exact none _ _ read
    · intro _ scan f' ok
      cases ok
  rw [bind_ok ok]
  have later : (frames crc after).length ≤ MAX_VEC_LEN := by
    simp only [List.length_append] at vec ⊢
    omega
  constructor
  · rintro keeps ⟨records', rest', read', lost⟩
    obtain ⟨rfl, rfl⟩ := read.unique read'
    obtain ⟨suffix, disk⟩ := keeps _ _ rfl
    -- a tail would have been cut off
    obtain ⟨whole, eq, len⟩ := read.split
    rw [eq, ← List.append_assoc] at found
    have cut := find_repair found
    rw [List.length_append, len, disk, found] at cut
    obtain rfl : rest = [] := by simpa using cut
    obtain ⟨k, boundary⟩ := (read.suffix_iff later).1 suffix
    exact lost rfl k boundary
  · rintro sound scan f' ⟨⟩
    obtain ⟨rfl, boundary⟩ : rest = [] ∧ ∃ k, logBytes (records.take k) = damaged.length := by
      by_contra lost
      exact sound ⟨records, rest, read, fun nil k eq => lost ⟨nil, k, eq⟩⟩
    refine ⟨(read.suffix_iff later).2 boundary, ?_⟩
    rw [repair, if_pos rfl, Files.issue_nil]

/-- The segment of the two records with one byte in the frame of the first one set. -/
def damagedSegment (i : Nat) (b : UInt8) : Buf :=
  alteredFile crc32c 1 [] ((encodeRecord crc32c byteRecords[0]).set i b) [byteRecords[1]]

/-- The two records with the payload of the first one altered: the scan fails. -/
theorem interior_alteration_detected_payload :
    KeepsLater [byteRecords[1]] (oneFile (damagedSegment 40 8))
      (scanSegment crc32c 1 1 true (oneFile (damagedSegment 40 8))) ∧
    (outcome (scanSegment crc32c 1 1 true (oneFile (damagedSegment 40 8)))).toOption = none := by
  have sound : ¬ LooksTorn crc32c (frames crc32c [] ++
      (encodeRecord crc32c byteRecords[0]).set 40 8 ++ frames crc32c [byteRecords[1]]) := by
    decide +kernel
  have sum : ¬ ChecksumMatches crc32c (frames crc32c [] ++
      (encodeRecord crc32c byteRecords[0]).set 40 8 ++ frames crc32c [byteRecords[1]]) := by
    decide +kernel
  refine ⟨(interior_alteration_detected_iff (f := oneFile (damagedSegment 40 8)) (by decide)
    (by decide +kernel) rfl (find_oneFile _)).2 ?_, by decide +kernel⟩
  rintro ⟨records, rest, read, -⟩
  generalize frames crc32c [] ++ _ ++ _ = bytes at read sound sum
  cases read with
  | done => exact sound (.inl (by decide))
  | torn _ _ looks => exact sound looks
  | frame starts _ _ _ => exact sum starts.sum

/-- The two records with the length of the first one altered. The scan succeeds without a record and
cuts both frames off, though the second one is intact. -/
theorem intact_record_cut_off :
    alteredFile crc32c 1 [] (encodeRecord crc32c byteRecords[0]) [byteRecords[1]] = byteSegment ∧
    (outcome (scanSegment crc32c 1 1 true (oneFile (damagedSegment 32 200)))).toOption =
      some ⟨1, 1, SEGMENT_HEADER_LEN, []⟩ ∧
    (finalState (scanSegment crc32c 1 1 true (oneFile (damagedSegment 32 200)))).disk.find 1 =
      some (encodeSegmentHeader crc32c 1) := by
  decide +kernel

end Wal

end NbdServer
