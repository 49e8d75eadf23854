import NbdServer.Wal.Codec
import NbdServer.Wal.Files

/-!
# The local WAL

Model of `wal/local.rs` and `wal/replay.rs`: scanning a directory of segments with repair of the
torn tail, appending with segment rollover, replay, and pruning. The calls on one WAL are serialised
by its lock, so each is one function of the WAL; an error leaves the files and the state as they are
at the point of failure.
-/

namespace NbdServer

namespace Wal

open Lib

/-- Rust `WalBounds`. -/
structure WalBounds where
  prunedThrough : Nat
  lastDurable : Nat
  deriving DecidableEq, Repr

/-- Rust `WalBounds::new`. -/
def WalBounds.new (prunedThrough lastDurable : Nat) : Res WalBounds :=
  if lastDurable < prunedThrough then
    fail (.wal "create WAL bounds"
      s!"pruned_through {prunedThrough} is greater than last_durable {lastDurable}")
  else .ok ⟨prunedThrough, lastDurable⟩

/-- Rust `WalPruneResult`. -/
structure WalPruneResult where
  requestedThrough : Nat
  prunedThrough : Nat
  removedSegments : Nat
  deriving DecidableEq, Repr

/-- Rust `ActiveSegment`; the path is the segment's first sequence. -/
structure ActiveSegment where
  path : Nat
  lenBytes : Nat
  deriving DecidableEq, Repr

/-- Rust `LocalWalState`. -/
structure LocalWalState where
  bounds : WalBounds
  active : Option ActiveSegment
  deriving DecidableEq, Repr

/-- Rust `SegmentScan`. -/
structure SegmentScan where
  firstSeq : Nat
  path : Nat
  lenBytes : Nat
  records : List WalRecord
  deriving DecidableEq

/-- Rust `LocalExportWal`, with the files of its directory. -/
structure LocalExportWal where
  segmentTargetBytes : Nat
  files : Files
  state : LocalWalState
  deriving DecidableEq

abbrev WalM := EStateM Fault LocalExportWal

def onFiles {α} (x : FileM α) : WalM α :=
  onPart LocalExportWal.files (fun w f => { w with files := f }) x

def setState (state : LocalWalState) : WalM Unit := fun w => .ok () { w with state := state }

/-- Rust `next_seq_after`. -/
def nextSeqAfter (seq : Nat) : Res { n : Nat // n < U64 } :=
  if h : seq + 1 < U64 then .ok ⟨seq + 1, h⟩
  else fail (.wal "assign WAL sequence" "WAL sequence overflow")

/-- Rust `previous_seq_before`. -/
def previousSeqBefore (seq : Nat) : Res Nat :=
  okOr (checkedSub seq 1) (.wal "read WAL segment" "segment starts at sequence zero")

def pad16 (n : Nat) : String :=
  String.ofList (List.replicate (16 - (Nat.toDigits 10 n).length) '0' ++ Nat.toDigits 10 n)

/-- Rust `segment_path`. -/
def segmentPath (dir : String) (firstSeq : Nat) : String := s!"{dir}/{pad16 firstSeq}.wal"

/-- Rust `parse_segment_file_name`. The names in the directory are those `segment_path` makes, so
only the sequence zero is rejected. -/
def parseSegmentFileName (dir : String) (seq : Nat) : Res Nat :=
  if seq = 0 then
    fail (.wal "parse WAL segment name"
      s!"segment path {segmentPath dir seq} starts at sequence zero")
  else .ok seq

/-- Rust `write_new_segment`. -/
def writeNewSegment (crc : Checksum) (firstSeq : Nat) : FileM Unit := do
  createNew "create WAL segment" firstSeq
  writeAll "write WAL segment header" firstSeq (encodeSegmentHeader crc firstSeq)
  perform "sync WAL segment header" (.sync firstSeq)

/-- Rust `truncate_segment_tail`. -/
def truncateSegmentTail (path offset : Nat) : FileM Unit := do
  openSegment "open WAL segment for tail repair" path
  perform "truncate WAL segment tail" (.setLen path offset)
  perform "sync WAL segment after tail repair" (.sync path)

/-- The loop of Rust `scan_segment`: the length of the segment and its records. Each round consumes
a record header at least, so a fuel of one more than the length of the data is enough. -/
def scanRecords (crc : Checksum) (path : Nat) (data : Buf) (isNewest : Bool) :
    Nat → Nat → Nat → List WalRecord → FileM (Nat × List WalRecord)
  | 0, _, _, _ => throw (.abort "out of fuel")
  | fuel + 1, offset, expectedSeq, records => do
    let f ← get
    if offset < data.length then
      match decodeRecordAt crc (segmentPath f.dir path) data offset with
      | .error e =>
        if isNewest && (e.repairOffset data.length offset).isSome then
          truncateSegmentTail path offset
          pure (offset, records)
        else throw e.error
      | .ok (record, nextOffset) =>
        if record.seq ≠ expectedSeq then
          throw (.err (.wal "scan WAL segment"
            s!"record sequence {record.seq} does not match expected {expectedSeq}"))
        else
          let expectedSeq ← nextSeqAfter record.seq
          scanRecords crc path data isNewest fuel nextOffset expectedSeq (records ++ [record])
    else pure (data.length, records)

/-- Rust `scan_segment`. -/
def scanSegment (crc : Checksum) (path expectedFirstSeq : Nat) (isNewest : Bool) :
    FileM SegmentScan := do
  let data ← readFile "read WAL segment" path
  let f ← get
  let firstSeq ← decodeSegmentHeader crc (segmentPath f.dir path) data
  if firstSeq ≠ expectedFirstSeq then
    throw (.err (.wal "scan WAL segment"
      s!"segment header first_seq {firstSeq} does not match expected {expectedFirstSeq}"))
  else
    let (lenBytes, records) ← scanRecords crc path data isNewest (data.length + 1)
      SEGMENT_HEADER_LEN firstSeq []
    pure ⟨firstSeq, path, lenBytes, records⟩

/-- The first sequence expected in the segment after a scanned one. -/
def SegmentScan.expectedNext (scan : SegmentScan) : Res Nat :=
  match scan.records.getLast? with
  | some record => (nextSeqAfter record.seq).map (·.val)
  | none => .ok scan.firstSeq

/-- The loop of Rust `scan_segments` over the sorted segments; the last one is the newest. -/
def scanEntries (crc : Checksum) : List Nat → Nat → List SegmentScan → FileM (List SegmentScan)
  | [], _, scans => pure scans
  | path :: rest, expectedSeq, scans => do
    let f ← get
    if path ≠ expectedSeq then
      throw (.err (.wal "scan WAL"
        s!"segment {segmentPath f.dir path} starts at {path}, expected {expectedSeq}"))
    else
      let scan ← scanSegment crc path expectedSeq rest.isEmpty
      let expectedSeq ← scan.expectedNext
      scanEntries crc rest expectedSeq (scans ++ [scan])

/-- The loop of Rust `scan_segments` over the directory: the first sequences of the segments. -/
def listSegments : List Nat → FileM Unit
  | [] => pure ()
  | seq :: rest => do
    ask "read WAL directory entry"
    let f ← get
    let _ ← parseSegmentFileName f.dir seq
    listSegments rest

/-- Rust `scan_segments`. -/
def scanSegments (crc : Checksum) : FileM (List SegmentScan) := do
  ask "read WAL directory"
  let f ← get
  let entries := f.disk.entries.map (·.1)
  listSegments entries
  scanEntries crc entries (entries.head?.getD 1) []

/-- Rust `SegmentScan::max_seq`. -/
def SegmentScan.maxSeq (scan : SegmentScan) : Res Nat :=
  match scan.records.getLast? with
  | some record => .ok record.seq
  | none => previousSeqBefore scan.firstSeq

/-- The `pruned_through` of a scanned directory. -/
def prunedThroughOf (scans : List SegmentScan) : Res Nat :=
  match scans.head? with
  | some scan => previousSeqBefore scan.firstSeq
  | none => .ok 0

/-- The loop of Rust `scan_wal_dir`: the last durable sequence and the active segment. -/
def scanTail : List SegmentScan → Nat → Option ActiveSegment → Nat × Option ActiveSegment
  | [], lastDurable, active => (lastDurable, active)
  | scan :: scans, lastDurable, _ =>
    scanTail scans ((scan.records.getLast?.map (·.seq)).getD lastDurable)
      (some ⟨scan.path, scan.lenBytes⟩)

/-- Rust `scan_wal_dir`. -/
def scanWalDir (crc : Checksum) : FileM LocalWalState := do
  let scans ← scanSegments crc
  let prunedThrough ← prunedThroughOf scans
  let (lastDurable, active) := scanTail scans prunedThrough none
  let bounds ← WalBounds.new prunedThrough lastDurable
  pure ⟨bounds, active⟩

/-- Rust `LocalExportWal::open`, on the files of the WAL directory. -/
def LocalExportWal.open (crc : Checksum) (segmentTargetBytes : Nat) (f : Files) :
    EStateM.Result Fault Files LocalExportWal :=
  let opened : FileM LocalWalState := do
    ask "create WAL directory"
    ask "sync WAL directory"
    scanWalDir crc
  match opened f with
  | .ok state f' => .ok ⟨segmentTargetBytes, f', state⟩ f'
  | .error e f' => .error e f'

/-- `LocalExportWal::open` on the directory as it stands. -/
def LocalExportWal.reopen (crc : Checksum) (wal : LocalExportWal) :
    EStateM.Result Fault Files LocalExportWal :=
  LocalExportWal.open crc wal.segmentTargetBytes ⟨wal.files.dir, wal.files.disk, [], []⟩

/-- Rust `LocalExportWal::ensure_active_segment`. -/
def ensureActiveSegment (crc : Checksum) : WalM Unit := do
  let w ← get
  let nextSeq ← nextSeqAfter w.state.bounds.lastDurable
  if w.state.active.all (w.segmentTargetBytes ≤ ·.lenBytes) then
    onFiles (writeNewSegment crc nextSeq)
    onFiles syncDirectory
    setState { w.state with active := some ⟨nextSeq, SEGMENT_HEADER_LEN⟩ }
  else pure ()

/-- Rust `LocalExportWal::append` after the active segment is ensured. -/
def appendRecord (crc : Checksum) (request : WalRequest) : WalM WalRecord := do
  let w ← get
  let seq ← nextSeqAfter w.state.bounds.lastDurable
  let record ← WalRecord.fromRequest seq.val seq.property request
  let active ← expect w.state.active "active segment exists after ensure_active_segment"
  onFiles (openSegment "open WAL segment for append" active.path)
  onFiles (writeAll "write WAL record" active.path (encodeRecord crc record))
  onFiles (perform "sync WAL segment" (.sync active.path))
  setState ⟨{ w.state.bounds with lastDurable := seq },
    some { active with lenBytes := active.lenBytes + (encodeRecord crc record).length }⟩
  pure record

/-- Rust `LocalExportWal::append`. -/
def append (crc : Checksum) (request : WalRequest) : WalM WalRecord := do
  ensureActiveSegment crc
  appendRecord crc request

/-- Rust `LocalExportWal::load_records`. -/
def loadRecords (crc : Checksum) : FileM (List WalRecord) := do
  let scans ← scanSegments crc
  pure (scans.flatMap (·.records))

/-- Rust `validate_replay_range`. -/
def validateReplayRange (bounds : WalBounds) (after through : Nat) : Res Unit :=
  if through < after then
    fail (.wal "replay WAL" s!"through sequence {through} is less than after sequence {after}")
  else if after < bounds.prunedThrough then
    fail (.wal "replay WAL" (s!"requested checkpoint {after} is older than pruned WAL prefix " ++
      s!"{bounds.prunedThrough}"))
  else if bounds.lastDurable < through then
    fail (.wal "replay WAL"
      s!"through sequence {through} is greater than last durable {bounds.lastDurable}")
  else .ok ()

/-- The loop of Rust `WalReplay::from_records`. -/
def checkOrdered : List WalRecord → Nat → Res Unit
  | [], _ => .ok ()
  | record :: records, previous =>
    if record.seq ≤ previous then
      fail (.wal "create WAL replay" "records must be strictly ordered by sequence")
    else checkOrdered records record.seq

/-- Rust `LocalExportWal::replay_range`; the replay is the list of its records. -/
def replayRange (crc : Checksum) (after through : Nat) : WalM (List WalRecord) := do
  let w ← get
  validateReplayRange w.state.bounds after through
  let loaded ← onFiles (loadRecords crc)
  let records := loaded.filter fun r => after < r.seq ∧ r.seq ≤ through
  checkOrdered records 0
  pure records

/-- Rust `LocalExportWal::replay_after`. -/
def replayAfter (crc : Checksum) (after : Nat) : WalM (List WalRecord) := do
  let w ← get
  replayRange crc after w.state.bounds.lastDurable

/-- Rust `sync_and_reload_wal_state`. -/
def syncAndReloadWalState (crc : Checksum) : WalM Unit := do
  onFiles syncDirectory
  let state ← onFiles (scanWalDir crc)
  setState state

/-- Remove a segment in `prune_through`; when that fails after an earlier change of the directory,
the state is reloaded before the error is returned. -/
def removeOrReload (crc : Checksum) (context : String) (path : Nat) (changed : Bool) : WalM Unit :=
  fun w =>
    match onFiles (removeFile context path) w with
    | .ok () w' => .ok () w'
    | .error e w' =>
      let reload : WalM Unit := if changed then syncAndReloadWalState crc else pure ()
      (do reload; throw e : WalM Unit) w'

/-- The loop of Rust `LocalExportWal::prune_through` over the segments that are not active. -/
def removeRetired (crc : Checksum) (active : Option Nat) (seq : Nat) :
    List SegmentScan → Nat → WalM Nat
  | [], removed => pure removed
  | scan :: scans, removed =>
    if some scan.path = active then removeRetired crc active seq scans removed
    else do
      let maxSeq ← scan.maxSeq
      if maxSeq ≤ seq then
        removeOrReload crc "remove WAL segment" scan.path (0 < removed)
        removeRetired crc active seq scans (removed + 1)
      else removeRetired crc active seq scans removed

/-- Rust `LocalExportWal::prune_through`: replace the active segment by an empty one. -/
def rollActive (crc : Checksum) (path : Nat) : WalM Unit := do
  let w ← get
  let nextSeq ← nextSeqAfter w.state.bounds.lastDurable
  onFiles (writeNewSegment crc nextSeq)
  onFiles syncDirectory
  setState { w.state with active := some ⟨nextSeq, SEGMENT_HEADER_LEN⟩ }
  removeOrReload crc "remove active WAL segment" path true

/-- Rust `LocalExportWal::prune_through`: the active segment is replaced when it has records and all
of them are pruned. Returns the number of removed segments. -/
def pruneActive (crc : Checksum) (active : Option Nat) (seq : Nat) (scans : List SegmentScan)
    (removed : Nat) : WalM Nat :=
  match scans.find? (some ·.path = active) with
  | none => pure removed
  | some scan => do
    if scan.records.isEmpty then pure removed
    else
      let maxSeq ← scan.maxSeq
      if maxSeq ≤ seq then
        rollActive crc scan.path
        pure (removed + 1)
      else pure removed

/-- Rust `LocalExportWal::prune_through`. The directory has changed exactly when a segment was
removed. -/
def pruneThrough (crc : Checksum) (seq : Nat) : WalM WalPruneResult := do
  let w ← get
  if w.state.bounds.lastDurable < seq then
    throw (.err (.wal "prune WAL"
      (s!"requested prune sequence {seq} is greater than last durable " ++
      s!"{w.state.bounds.lastDurable}")))
  else
    let scans ← onFiles (scanSegments crc)
    let active := w.state.active.map (·.path)
    let removed ← removeRetired crc active seq scans 0
    let removed ← pruneActive crc active seq scans removed
    let reload : WalM Unit := if 0 < removed then syncAndReloadWalState crc else pure ()
    reload
    let w ← get
    pure ⟨seq, w.state.bounds.prunedThrough, removed⟩

end Wal

end NbdServer
