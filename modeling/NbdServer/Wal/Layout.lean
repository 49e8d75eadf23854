import NbdServer.Core.History
import NbdServer.Wal.Frame
import NbdServer.Wal.Local

/-!
# The directory of a WAL as a list of segments

The abstract side of the WAL: segments of consecutive records that continue one another (`Chain`). A
directory holds a chain when its files are the encodings of the segments (`image`); the file of the
last segment may end in a torn frame. The scan reads the chain back and cuts the torn frame off.
-/

namespace NbdServer

namespace Wal

open Lib

/-- A segment: records that follow the sequence `before`. -/
structure Segment where
  before : Nat
  records : List WalRecord
  consecutive : Consecutive before records

def frames (crc : Checksum) (records : List WalRecord) : Buf := records.flatMap (encodeRecord crc)

/-- The number of bytes some records take in the log. -/
def logBytes (records : List WalRecord) : Nat := (records.map fun r => 40 + r.data.length).sum

namespace Segment

/-- The first sequence of the segment, which names its file. -/
def firstSeq (s : Segment) : Nat := s.before + 1

/-- The last sequence in the segment, or the one before it when it is empty. -/
def last (s : Segment) : Nat := s.before + s.records.length

def bytes (crc : Checksum) (s : Segment) : Buf :=
  encodeSegmentHeader crc s.firstSeq ++ frames crc s.records

def scan (crc : Checksum) (s : Segment) : SegmentScan :=
  ⟨s.firstSeq, s.firstSeq, (s.bytes crc).length, s.records⟩

/-- The sequences and offsets of the segment are far from the end of the 64-bit range. -/
def Small (crc : Checksum) (s : Segment) : Prop :=
  s.last + 1 < U64 ∧ (s.bytes crc).length + 2 ^ 33 ≤ U64

end Segment

/-- Segments that continue one another from the sequence `p` on. -/
def Chain : Nat → List Segment → Prop
  | _, [] => True
  | p, s :: rest => s.before = p ∧ Chain s.last rest

def chainLast : Nat → List Segment → Nat
  | p, [] => p
  | _, s :: rest => chainLast s.last rest

def chainRecords (segs : List Segment) : List WalRecord := segs.flatMap Segment.records

/-- The files of a chain whose last one ends in `tail`. -/
def image (crc : Checksum) : List Segment → Buf → List (Nat × Buf)
  | [], _ => []
  | [s], tail => [(s.firstSeq, s.bytes crc ++ tail)]
  | s :: t :: rest, tail => (s.firstSeq, s.bytes crc) :: image crc (t :: rest) tail

def Torn (crc : Checksum) (tail : Buf) : Prop :=
  ∃ r, tail <+: encodeRecord crc r ∧ tail ≠ encodeRecord crc r

/-- The effects of the repair that cuts `tail` off a segment. -/
def repair (path len : Nat) (tail : Buf) : List Effect :=
  if tail = [] then [] else [.setLen path len, .sync path]

def repairLast (crc : Checksum) : List Segment → Buf → List Effect
  | [], _ => []
  | [s], tail => repair s.firstSeq (s.bytes crc).length tail
  | _ :: t :: rest, tail => repairLast crc (t :: rest) tail

variable {crc : Checksum}

lemma frames_cons (r : WalRecord) (rs : List WalRecord) :
    frames crc (r :: rs) = encodeRecord crc r ++ frames crc rs := rfl

lemma length_frame_lt (r : WalRecord) : (encodeRecord crc r).length < 2 ^ 33 := by
  rw [length_encodeRecord]
  have := data_lt r
  omega

lemma nextSeqAfter_eq {seq : Nat} (h : seq + 1 < U64) : nextSeqAfter seq = .ok ⟨seq + 1, h⟩ :=
  dif_pos h

lemma truncateSegmentTail_ok {f : Files} (plan : f.plan = []) {path : Nat} (has : f.disk.Has path)
    (offset : Nat) : truncateSegmentTail path offset f =
      .ok () (f.issue [.setLen path offset, .sync path]) := by
  rw [truncateSegmentTail, bind_ok (openSegment_ok plan has _), bind_ok (perform_ok plan _ _),
    perform_ok (by simpa using plan), Files.issue_issue]
  rfl

lemma scanRecords_frame {path : Nat} {isNewest : Bool} {pre : Buf} {r : WalRecord}
    (small : (pre ++ encodeRecord crc r).length < U64) (rest : Buf) (fuel seq : Nat)
    (acc : List WalRecord) (f : Files) :
    scanRecords crc path (pre ++ (encodeRecord crc r ++ rest)) isNewest (fuel + 1) pre.length seq
      acc f =
      (if r.seq ≠ seq then
        throw (.err (.wal "scan WAL segment"
          s!"record sequence {r.seq} does not match expected {seq}"))
      else do
        let expectedSeq ← nextSeqAfter r.seq
        scanRecords crc path (pre ++ encodeRecord crc r ++ rest) isNewest fuel
          (pre ++ encodeRecord crc r).length expectedSeq (acc ++ [r]) : FileM _) f := by
  rw [List.length_append] at small ⊢
  have run := decodeRecordAt_frame crc (segmentPath f.dir path) small rest
  have lt : pre.length < (pre ++ (encodeRecord crc r ++ rest)).length := by
    simp only [List.length_append, length_encodeRecord]
    omega
  rw [scanRecords, get_bind, if_pos lt, run, List.append_assoc]

lemma scanRecords_frames {f : Files} {path : Nat} {isNewest : Bool} {rest : Buf}
    {rs : List WalRecord} {pre : Buf} {b fuel : Nat} (acc : List WalRecord)
    (cons : Consecutive b rs) (seqs : b + rs.length + 1 < U64)
    (small : (pre ++ frames crc rs).length < U64) :
    scanRecords crc path (pre ++ (frames crc rs ++ rest)) isNewest (fuel + rs.length) pre.length
      (b + 1)
        acc f =
      scanRecords crc path (pre ++ (frames crc rs ++ rest)) isNewest fuel
        (pre ++ frames crc rs).length
        (b + rs.length + 1) (acc ++ rs) f := by
  induction rs generalizing pre b acc with
  | nil => simp [frames]
  | cons r rs ih =>
    have split : pre ++ (frames crc (r :: rs) ++ rest) =
        pre ++ (encodeRecord crc r ++ (frames crc rs ++ rest)) := by
      rw [frames_cons, List.append_assoc (encodeRecord crc r)]
    have whole : pre ++ frames crc (r :: rs) = pre ++ encodeRecord crc r ++ frames crc rs := by
      rw [frames_cons, List.append_assoc]
    rw [List.length_cons] at seqs ⊢
    rw [whole] at small ⊢
    have fits : (pre ++ encodeRecord crc r).length < U64 := by
      rw [List.length_append] at small
      omega
    have next := ih (acc ++ [r]) cons.tail (by omega) small
    have count : b + (rs.length + 1) + 1 = b + 1 + rs.length + 1 := by omega
    have after : nextSeqAfter r.seq = .ok ⟨b + 1 + 1, by omega⟩ := by
      rw [cons.head]
      exact nextSeqAfter_eq _
    rw [List.append_assoc acc, List.singleton_append] at next
    rw [split, ← Nat.add_assoc, scanRecords_frame fits, if_neg (not_not.2 cons.head), after,
      lift_ok_bind, count, next, List.append_assoc pre]

lemma scanRecords_end (path : Nat) (data : Buf) (isNewest : Bool) (fuel seq : Nat)
    (acc : List WalRecord) (f : Files) :
    scanRecords crc path data isNewest (fuel + 1) data.length seq acc f =
    .ok (data.length, acc) f := by
  rw [scanRecords, get_bind, if_neg (lt_irrefl _), pure_run]

/-- The loop over the records of a segment ends behind the last frame and repairs a torn tail of the
newest segment. -/
lemma scanRecords_tail {f : Files} (plan : f.plan = []) {path : Nat} (has : f.disk.Has path)
    {isNewest : Bool} {done tail : Buf} (torn : tail = [] ∨ isNewest = true ∧ Torn crc tail)
    (small : done.length + 2 ^ 33 ≤ U64) (fuel seq : Nat) (acc : List WalRecord) :
    scanRecords crc path (done ++ tail) isNewest (fuel + 1) done.length seq acc f =
      .ok (done.length, acc) (f.issue (repair path done.length tail)) := by
  by_cases empty : tail = []
  · rw [empty, List.append_nil, scanRecords_end, repair, if_pos rfl, Files.issue_nil]
  · obtain ⟨newest, r, pref, short⟩ := torn.resolve_left empty
    have lt : done.length < (done ++ tail).length := by
      rw [List.length_append]
      have := List.length_pos_of_ne_nil empty
      omega
    have fits : done.length + (encodeRecord crc r).length < U64 := by
      have : (encodeRecord crc r).length < 2 ^ 33 := length_frame_lt r
      omega
    obtain ⟨e, run, rep⟩ := decodeRecordAt_torn crc (segmentPath f.dir path) pref short fits
    rw [scanRecords, get_bind, if_pos lt, run]
    simp only [newest, rep, Option.isSome_some, Bool.and_self, if_true]
    rw [bind_ok (truncateSegmentTail_ok plan has _), pure_run, repair, if_neg empty]

lemma length_frames (rs : List WalRecord) : (frames crc rs).length = logBytes rs := by
  simp only [frames, logBytes, List.length_flatMap, length_encodeRecord]

lemma logBytes_append (rs rs' : List WalRecord) :
    logBytes (rs ++ rs') = logBytes rs + logBytes rs' := by
  simp only [logBytes, List.map_append, List.sum_append]

lemma length_le_logBytes (rs : List WalRecord) : rs.length ≤ logBytes rs := by
  induction rs with
  | nil => exact le_rfl
  | cons r rs ih =>
    rw [List.length_cons, ← List.singleton_append, logBytes_append]
    have : 1 ≤ logBytes [r] := by
      simp [logBytes]
      omega
    omega

lemma scanSegment_header {f : Files} (plan : f.plan = []) {firstSeq : Nat} {rest : Buf}
    (first : firstSeq < U64)
    (found : f.disk.find firstSeq = some (encodeSegmentHeader crc firstSeq ++ rest))
    (isNewest : Bool) :
    scanSegment crc firstSeq firstSeq isNewest f =
      (do
        let (lenBytes, records) ← scanRecords crc firstSeq
          (encodeSegmentHeader crc firstSeq ++ rest)
          isNewest ((encodeSegmentHeader crc firstSeq ++ rest).length + 1)
          (encodeSegmentHeader crc firstSeq).length firstSeq []
        pure ⟨firstSeq, firstSeq, lenBytes, records⟩ : FileM SegmentScan) f := by
  have header := decodeSegmentHeader_encode crc first (segmentPath f.dir firstSeq) rest
  rw [scanSegment, bind_ok (readFile_ok plan found _), get_bind, header, lift_ok_bind,
    if_neg (not_not.2 rfl), length_encodeSegmentHeader]

lemma scanRecords_segment {s : Segment} (small : s.Small crc) (isNewest : Bool) (tail : Buf)
    (f : Files) :
    ∃ fuel, scanRecords crc s.firstSeq (s.bytes crc ++ tail) isNewest
        ((s.bytes crc ++ tail).length + 1) (encodeSegmentHeader crc s.firstSeq).length s.firstSeq
          [] f =
      scanRecords crc s.firstSeq (s.bytes crc ++ tail) isNewest (fuel + 1) (s.bytes crc).length
        (s.last + 1) s.records f := by
  obtain ⟨seqs, room⟩ := small
  obtain ⟨fuel, eq⟩ : ∃ n, (s.bytes crc ++ tail).length + 1 = n + 1 + s.records.length := by
    have := length_le_logBytes s.records
    refine ⟨(s.bytes crc ++ tail).length - s.records.length, ?_⟩
    simp only [Segment.bytes, List.length_append, length_frames]
    omega
  have len : (s.bytes crc).length < U64 := by omega
  have file : s.bytes crc ++ tail =
      encodeSegmentHeader crc s.firstSeq ++ (frames crc s.records ++ tail) :=
        List.append_assoc _ _ _
  refine ⟨fuel, ?_⟩
  rw [eq, file]
  exact scanRecords_frames [] s.consecutive seqs len

lemma Segment.Small.first_lt {s : Segment} (small : s.Small crc) : s.firstSeq < U64 := by
  have := small.1
  unfold Segment.last at this
  unfold Segment.firstSeq
  omega

lemma scanSegment_spec {f : Files} (plan : f.plan = []) {s : Segment} {isNewest : Bool} {tail : Buf}
    (found : f.disk.find s.firstSeq = some (s.bytes crc ++ tail))
    (torn : tail = [] ∨ isNewest = true ∧ Torn crc tail) (small : s.Small crc) :
    scanSegment crc s.firstSeq s.firstSeq isNewest f =
      .ok (s.scan crc) (f.issue (repair s.firstSeq (s.bytes crc).length tail)) := by
  have has : f.disk.Has s.firstSeq := by
    rw [OrdMap.Has, found]
    rfl
  have file : s.bytes crc ++ tail =
      encodeSegmentHeader crc s.firstSeq ++ (frames crc s.records ++ tail) :=
        List.append_assoc _ _ _
  obtain ⟨fuel, records⟩ := scanRecords_segment small isNewest tail f
  have ends := scanRecords_tail plan has torn small.2 fuel (s.last + 1) s.records
  rw [file] at found
  rw [scanSegment_header plan small.first_lt found, ← file, bind_ok (records.trans ends)]
  rfl

lemma Segment.last_eq (s : Segment) {rs : List WalRecord} {r : WalRecord}
    (h : s.records = rs ++ [r]) : r.seq = s.last := by
  have := s.consecutive rs.length r (by rw [h]; simp)
  rw [Segment.last, h, List.length_append, List.length_singleton]
  omega

lemma expectedNext_scan {s : Segment} (small : s.Small crc) :
    (s.scan crc).expectedNext = .ok (s.last + 1) := by
  unfold SegmentScan.expectedNext Segment.scan
  rcases List.eq_nil_or_concat' s.records with h | ⟨rs, r, h⟩
  · simp [h, Segment.firstSeq, Segment.last]
  · rw [h, List.getLast?_concat]
    simp only [s.last_eq h]
    rw [nextSeqAfter_eq small.1]
    rfl

lemma chain_append {p : Nat} {segs rest : List Segment} :
    Chain p (segs ++ rest) ↔ Chain p segs ∧ Chain (chainLast p segs) rest := by
  induction segs generalizing p with
  | nil => exact ⟨fun c => ⟨trivial, c⟩, fun c => c.2⟩
  | cons s segs ih =>
    show s.before = p ∧ Chain s.last (segs ++ rest) ↔ (s.before = p ∧ Chain s.last segs) ∧ _
    rw [ih, and_assoc]
    rfl

lemma chainLast_append (p : Nat) (segs rest : List Segment) :
    chainLast p (segs ++ rest) = chainLast (chainLast p segs) rest := by
  induction segs generalizing p with
  | nil => rfl
  | cons s segs ih => exact ih s.last

lemma chainRecords_cons (s : Segment) (segs : List Segment) :
    chainRecords (s :: segs) = s.records ++ chainRecords segs := rfl

lemma chainRecords_append (segs rest : List Segment) :
    chainRecords (segs ++ rest) = chainRecords segs ++ chainRecords rest := List.flatMap_append

lemma chainLast_eq {p : Nat} {segs : List Segment} (c : Chain p segs) :
    chainLast p segs = p + (chainRecords segs).length := by
  induction segs generalizing p with
  | nil => rfl
  | cons s segs ih =>
    obtain ⟨rfl, rest⟩ := c
    rw [chainLast, ih rest, chainRecords_cons, List.length_append, Segment.last, Nat.add_assoc]

lemma Chain.consecutive {p : Nat} {segs : List Segment} (c : Chain p segs) :
    Consecutive p (chainRecords segs) := by
  induction segs generalizing p with
  | nil => exact Consecutive.nil
  | cons s segs ih =>
    obtain ⟨rfl, rest⟩ := c
    exact s.consecutive.append (ih rest)

lemma image_concat (init : List Segment) (s : Segment) (tail : Buf) :
    image crc (init ++ [s]) tail =
      init.map (fun s => (s.firstSeq, s.bytes crc)) ++ [(s.firstSeq, s.bytes crc ++ tail)] := by
  induction init with
  | nil => rfl
  | cons t init ih =>
    rw [List.cons_append, List.map_cons, List.cons_append, ← ih]
    cases init with
    | nil => rfl
    | cons u init => rfl

lemma image_nil (segs : List Segment) :
    image crc segs [] = segs.map fun s => (s.firstSeq, s.bytes crc) := by
  rcases List.eq_nil_or_concat' segs with rfl | ⟨init, s, rfl⟩
  · rfl
  · rw [image_concat, List.append_nil, List.map_append]
    rfl

lemma repairLast_concat (init : List Segment) (s : Segment) (tail : Buf) :
    repairLast crc (init ++ [s]) tail = repair s.firstSeq (s.bytes crc).length tail := by
  induction init with
  | nil => rfl
  | cons t init ih =>
    rw [← ih]
    cases init with
    | nil => rfl
    | cons u init => rfl

lemma repairLast_nil (segs : List Segment) : repairLast crc segs [] = [] := by
  rcases List.eq_nil_or_concat' segs with rfl | ⟨init, s, rfl⟩
  · rfl
  · rw [repairLast_concat, repair, if_pos rfl]

lemma scanEntries_older {f : Files} (plan : f.plan = []) {p : Nat} {segs : List Segment}
    {acc : List SegmentScan} {rest : List Nat} (ne : rest ≠ []) (chain : Chain p segs)
    (found : ∀ s ∈ segs, f.disk.find s.firstSeq = some (s.bytes crc))
    (small : ∀ s ∈ segs, s.Small crc) :
    scanEntries crc (segs.map Segment.firstSeq ++ rest) (p + 1) acc f =
      scanEntries crc rest (chainLast p segs + 1) (acc ++ segs.map (Segment.scan crc)) f := by
  induction segs generalizing p acc with
  | nil => rw [List.map_nil, List.map_nil, List.nil_append, List.append_nil, chainLast]
  | cons s segs ih =>
    obtain ⟨rfl, later⟩ := chain
    have file : f.disk.find s.firstSeq = some (s.bytes crc ++ []) := by
      rw [List.append_nil]
      exact found _ List.mem_cons_self
    have run : scanSegment crc s.firstSeq s.firstSeq false f = _ :=
      scanSegment_spec plan file (.inl rfl) (small s List.mem_cons_self)
    rw [repair, if_pos rfl, Files.issue_nil] at run
    have older : (segs.map Segment.firstSeq ++ rest).isEmpty = false := by simp [ne]
    show scanEntries crc (s.firstSeq :: (segs.map Segment.firstSeq ++ rest)) s.firstSeq acc f = _
    rw [scanEntries, get_bind, if_neg (not_not.2 rfl), older, bind_ok run,
      expectedNext_scan (small s List.mem_cons_self), lift_ok_bind,
      ih later (fun t ht => found t (List.mem_cons_of_mem _ ht))
        fun t ht => small t (List.mem_cons_of_mem _ ht), List.append_assoc]
    rfl

lemma scanEntries_spec {f : Files} (plan : f.plan = []) {p : Nat} {segs : List Segment} {tail : Buf}
    (chain : Chain p segs) (torn : tail = [] ∨ Torn crc tail)
    (found : ∀ a ∈ image crc segs tail, f.disk.find a.1 = some a.2)
    (small : ∀ s ∈ segs, s.Small crc) :
    scanEntries crc (segs.map Segment.firstSeq) (p + 1) [] f =
      .ok (segs.map (Segment.scan crc)) (f.issue (repairLast crc segs tail)) := by
  rcases List.eq_nil_or_concat' segs with rfl | ⟨init, s, rfl⟩
  · rw [repairLast, Files.issue_nil]
    rfl
  · obtain ⟨older, before, -⟩ := chain_append.1 chain
    have ss := small s (by simp)
    rw [image_concat] at found
    have run : scanSegment crc s.firstSeq s.firstSeq true f = _ :=
      scanSegment_spec plan (found (s.firstSeq, s.bytes crc ++ tail) (by simp))
        (torn.imp_right fun t => ⟨rfl, t⟩) ss
    rw [List.map_append, scanEntries_older plan (by simp) older
      (fun t ht => found (t.firstSeq, t.bytes crc)
        (by simp [Prod.ext_iff]; exact .inl ⟨t, ht, rfl, rfl⟩))
      fun t ht => small t (List.mem_append_left _ ht), ← before, repairLast_concat]
    show scanEntries crc [s.firstSeq] s.firstSeq _ f = _
    rw [scanEntries, get_bind, if_neg (not_not.2 rfl), List.isEmpty_nil, bind_ok run,
      expectedNext_scan ss, lift_ok_bind, List.map_append]
    rfl

lemma listSegments_ok {f : Files} (plan : f.plan = []) {l : List Nat} (pos : ∀ n ∈ l, n ≠ 0) :
    listSegments l f = .ok () f := by
  induction l with
  | nil => rfl
  | cons n l ih =>
    rw [listSegments, bind_ok (ask_ok plan _), get_bind, parseSegmentFileName,
      if_neg (pos n List.mem_cons_self), lift_ok_bind]
    exact ih fun m hm => pos m (List.mem_cons_of_mem _ hm)

lemma image_keys (segs : List Segment) (tail : Buf) :
    (image crc segs tail).map (·.1) = segs.map Segment.firstSeq := by
  induction segs with
  | nil => rfl
  | cons s segs ih =>
    cases segs with
    | nil => rfl
    | cons t segs =>
      rw [image, List.map_cons, ih]
      rfl

lemma Chain.small {p : Nat} {segs : List Segment} (c : Chain p segs)
    (room : p + logBytes (chainRecords segs) + 2 ^ 34 ≤ U64) : ∀ s ∈ segs, s.Small crc := by
  induction segs generalizing p with
  | nil => simp
  | cons s segs ih =>
    obtain ⟨rfl, rest⟩ := c
    have split : logBytes (chainRecords (s :: segs)) =
        logBytes s.records + logBytes (chainRecords segs) := logBytes_append _ _
    have le := length_le_logBytes s.records
    intro t ht
    rcases List.mem_cons.1 ht with rfl | ht
    · refine ⟨?_, ?_⟩
      · unfold Segment.last
        omega
      · simp only [Segment.bytes, List.length_append, length_encodeSegmentHeader, length_frames,
          SEGMENT_HEADER_LEN]
        omega
    · refine ih rest ?_ t ht
      unfold Segment.last
      omega

/-- A directory that holds a chain of segments, with room for more records. -/
structure Holds (crc : Checksum) (d : Disk) (p : Nat) (segs : List Segment) (tail : Buf) :
    Prop where
  chain : Chain p segs
  start : segs = [] → p = 0
  files : d.entries = image crc segs tail
  torn : tail = [] ∨ Torn crc tail
  room : p + logBytes (chainRecords segs) + 2 ^ 34 ≤ U64

namespace Holds

variable {d : Disk} {p : Nat} {segs : List Segment} {tail : Buf}

lemma first_eq (h : Holds crc d p segs tail) : (segs.map Segment.firstSeq).head?.getD 1 = p +
    1 := by
  cases segs with
  | nil => rw [h.start rfl]; rfl
  | cons s segs => rw [← h.chain.1]; rfl

lemma found (h : Holds crc d p segs tail) : ∀ a ∈ image crc segs tail, d.find a.1 = some a.2 := by
  intro a ha
  exact OrdMap.find_eq_some.2 (by rw [h.files]; exact ha)

lemma scanSegments {f : Files} (h : Holds crc f.disk p segs tail) (plan : f.plan = []) :
    Wal.scanSegments crc f =
      .ok (segs.map (Segment.scan crc)) (f.issue (repairLast crc segs tail)) := by
  have pos : ∀ n ∈ segs.map Segment.firstSeq, n ≠ 0 := by
    intro n hn
    obtain ⟨s, -, rfl⟩ := List.mem_map.1 hn
    exact Nat.succ_ne_zero _
  rw [Wal.scanSegments, bind_ok (ask_ok plan _), get_bind, h.files, image_keys,
    bind_ok (listSegments_ok plan pos), h.first_eq,
    scanEntries_spec plan h.chain h.torn h.found (h.chain.small h.room)]

end Holds

end Wal

end NbdServer
