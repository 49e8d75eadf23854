import NbdServer.Catalog.Types
import NbdServer.Tree.Block
import NbdServer.View.Cache
import NbdServer.View.Overlay

/-!
# The read view

Model of `read_view.rs`: a committed root, the WAL overlay over it and the read cache, with the
operations that run under the lock of the view. A read takes the lock twice, with the reads of the
committed tree in between: `capture` is the first critical section, `finishRead` the last one.

An operation returns the state after it next to its result, so that what an error leaves behind is
part of the model. The mutating part of an operation is a `Res` of the new state; should it fail,
the state is left as it was, and the lemmas on the operations show that it does not fail.
-/

namespace NbdServer

/-- Rust `RootSnapshot` with its `RootBacking`. -/
inductive RootSnapshot where
  | zero (rootNodeId : Option NodeId) (baseWalSeq sizeBytes : Nat)
  | cowHead (rootNodeId : Option NodeId) (baseWalSeq sizeBytes : Nat) (treeFormat : TreeFormat)
  deriving DecidableEq, Repr

namespace RootSnapshot

/-- Rust `RootSnapshot::from_head`. -/
def fromHead (head : ExportHead) : Res RootSnapshot :=
  if head.layoutKind ≠ .cowImmutableTree then
    fail (.catalog s!"WAL root requires cow_immutable_tree head, got {head.layoutKind.text}")
  else do
    let format ← okOr head.treeFormat (.catalog "WAL root head is missing tree format")
    .ok (.cowHead head.rootNodeId head.baseWalSeq head.sizeBytes format)

/-- Rust `RootSnapshot::root_node_id`. -/
def rootNodeId : RootSnapshot → Option NodeId
  | zero id _ _ => id
  | cowHead id _ _ _ => id

/-- Rust `RootSnapshot::base_wal_seq`. -/
def baseWalSeq : RootSnapshot → Nat
  | zero _ seq _ => seq
  | cowHead _ seq _ _ => seq

/-- Rust `RootSnapshot::size_bytes`. -/
def sizeBytes : RootSnapshot → Nat
  | zero _ _ size => size
  | cowHead _ _ size _ => size

/-- Rust `RootSnapshot::is_zero_backed`. -/
def isZeroBacked : RootSnapshot → Bool
  | zero .. => true
  | cowHead .. => false

/-- Rust `RootSnapshot::tree_format`. -/
def treeFormat : RootSnapshot → Option TreeFormat
  | zero .. => none
  | cowHead _ _ _ format => some format

/-- Rust `RootSnapshot::to_export_head`. -/
def toExportHead (root : RootSnapshot) : Res ExportHead :=
  ofCatalog (ExportHead.newWithTreeFormat .cowImmutableTree root.rootNodeId root.sizeBytes
    root.baseWalSeq root.treeFormat)

end RootSnapshot

/-- Rust `ExportReadViewState`. -/
structure ReadViewState where
  root : RootSnapshot
  lastAppliedSeq : Nat
  walDebtBytes : Nat
  overlay : OverlayExtentMap
  cache : ReadCache

/-- Rust `ReadViewCompactionSnapshot`. -/
structure CompactionSnapshot where
  root : RootSnapshot
  targetWalSeq : Nat
  walDebtBytes : Nat
  overlay : OverlayExtentMap

/-- What the first critical section of a read takes from the state. -/
structure Capture where
  range : ByteRange
  root : RootSnapshot
  overlaySlices : List OverlayReadSlice
  cacheSlices : List CacheReadSlice
  treeMisses : List ByteRange

namespace ReadViewState

/-- Rust `ExportReadView::new_with_cache_budget`. -/
def new (root : RootSnapshot) (cacheBytes : Nat) : ReadViewState where
  root := root
  lastAppliedSeq := root.baseWalSeq
  walDebtBytes := 0
  overlay := OverlayExtentMap.new
  cache := ReadCache.new cacheBytes

/-- Rust `ExportReadView::capture_compaction_snapshot`. -/
def captureCompactionSnapshot (s : ReadViewState) : Option CompactionSnapshot :=
  if s.lastAppliedSeq ≤ s.root.baseWalSeq ∨ s.overlay.isEmpty then none
  else some ⟨s.root, s.lastAppliedSeq, s.walDebtBytes, s.overlay⟩

/-! ## Reading -/

def cacheSlicesIn (c : ReadCache) : List ByteRange → Res (List CacheReadSlice)
  | [] => .ok []
  | range :: ranges => do
    let slices ← c.readSlices range
    let rest ← cacheSlicesIn c ranges
    .ok (slices ++ rest)

/-- The first critical section of `ExportReadView::read`. -/
def capture (s : ReadViewState) (range : ByteRange) : Res Capture := do
  validateRange "read" range s.root.sizeBytes
  let overlaySlices ← s.overlay.readSlices range
  let overlaySpans := overlaySlices.map fun slice => (slice.start, slice.stop)
  let cacheRanges ← gapsInRange range overlaySpans
  let cacheSlices ← cacheSlicesIn s.cache cacheRanges
  let treeMisses ← gapsInRange range
    (overlaySpans ++ cacheSlices.map fun slice => (slice.start, slice.stop))
  .ok ⟨range, s.root, overlaySlices, cacheSlices, treeMisses⟩

/-- Rust `{:?}` of a `ByteRange`. -/
def debugRange (r : ByteRange) : String := s!"ByteRange \x7b start: {r.start}, len: {r.len} \x7d"

/-- The check that `read` makes on the block a tree read returned. -/
def checkBlock (miss : ByteRange) (block : Block) : Res Unit :=
  if block.range ≠ miss then
    fail (.wal "read committed backing" s!"tree reader returned range {debugRange block.range
      } for requested range {debugRange miss}")
  else .ok ()

/-- Rust `copy_tree_block`. -/
def copyTreeBlock (data : Buf) (readRange : ByteRange) (block : Block) : Res Buf :=
  if block.range.stop > readRange.stop ∨ block.range.start < readRange.start then
    fail (.wal "read committed backing" s!"tree reader returned range {debugRange block.range
      } outside requested range {debugRange readRange}")
  else if block.materialize.length ≠ block.range.len then
    fail (.wal "read committed backing"
      s!"backing returned {block.materialize.length} bytes for {block.range.len} byte range")
  else copyInto data (block.range.start - readRange.start) block.materialize

/-- Rust `overlay_record`. -/
def overlayRecord (data : Buf) (readRange : ByteRange) (slice : OverlayReadSlice) : Res Buf :=
  if max readRange.start slice.start ≥ min readRange.stop slice.stop then .ok data
  else copySlice data (max readRange.start slice.start - readRange.start) slice.record.data
    (slice.recordOffset + (max readRange.start slice.start - slice.start))
    (min readRange.stop slice.stop - max readRange.start slice.start)

/-- A loop that fills the buffer of a read from one source after another. -/
def fillFrom {α} (copy : Buf → α → Res Buf) : List α → Buf → Res Buf
  | [], data => .ok data
  | source :: sources, data => do
    let data ← copy data source
    fillFrom copy sources data

/-- The buffer of a read: the cached slices, the blocks read from the tree and the overlay, in this
order. -/
def assemble (c : Capture) (blocks : List Block) : Res Buf := do
  let data ← fillFrom (fun data slice => CacheReadSlice.copyTo slice c.range data) c.cacheSlices
    (List.replicate c.range.len 0)
  let data ← fillFrom (fun data block => copyTreeBlock data c.range block) blocks data
  fillFrom (fun data slice => overlayRecord data c.range slice) c.overlaySlices data

/-- The loop over the holes in `insert_tree_block_fills`. -/
def insertHoles (cache : ReadCache) (range : ByteRange) (bytes : Buf) :
    List ByteRange → Res ReadCache
  | [] => .ok cache
  | hole :: holes => do
    let start ← minus hole.start range.start
    let fill ← sliceOf bytes start hole.len
    let cache ← cache.insertBytes hole fill .hot
    insertHoles cache range bytes holes

/-- The body of the loop over the parts in `insert_tree_block_fills`. -/
def insertPartFill (s : ReadViewState) (range : ByteRange) (bytes : Buf) : Res ReadViewState := do
  let overlaySlices ← s.overlay.readSlices range
  let cacheSlices ← s.cache.readSlices range
  let holes ← gapsInRange range (overlaySlices.map (fun slice => (slice.start, slice.stop)) ++
    cacheSlices.map fun slice => (slice.start, slice.stop))
  let cache ← insertHoles s.cache range bytes holes
  .ok { s with cache := cache }

/-- The loop over the parts in `insert_tree_block_fills`. -/
def insertPartFills (s : ReadViewState) : List BlockPart → Res ReadViewState
  | [] => .ok s
  | .data range bytes :: parts => do
    let s ← s.insertPartFill range bytes
    s.insertPartFills parts
  | .zero _ :: parts => s.insertPartFills parts

/-- Rust `insert_tree_block_fills`, for all blocks of a read. -/
def insertTreeFills (s : ReadViewState) : List Block → Res ReadViewState
  | [] => .ok s
  | block :: blocks => do
    let s ← s.insertPartFills block.parts
    s.insertTreeFills blocks

/-- The last critical section of `ExportReadView::read`: hits are promoted, and the blocks that were
read are cached if the root is still the captured one. -/
def finishRead (s : ReadViewState) (c : Capture) (blocks : List Block) : ReadViewState × Res Unit :=
  if c.cacheSlices = [] ∧ blocks.isEmpty then (s, .ok ())
  else
    let s := { s with cache := s.cache.promoteHits (c.cacheSlices.map (·.objectId)) }
    if s.root = c.root then
      match s.insertTreeFills blocks with
      | .ok s' => (s', .ok ())
      | .error fault => (s, .error fault)
    else (s, .ok ())

/-! ## Applying records and advancing the root -/

/-- The checks of `ExportReadView::apply_wal_record`; the result is the sequence it expects. -/
def checkRecord (s : ReadViewState) (record : WalRecord) : Res Nat := do
  validateRange "write" record.range s.root.sizeBytes
  if record.seq ≤ s.root.baseWalSeq then
    fail (.wal "apply WAL record" s!"record sequence {record.seq
      } is at or before checkpoint {s.root.baseWalSeq}")
  else do
    let expectedSeq ← okOr (checkedAdd s.lastAppliedSeq 1)
      (.wal "apply WAL record" "WAL sequence overflowed")
    if record.seq ≠ expectedSeq then
      fail (.wal "apply WAL record" s!"expected WAL sequence {expectedSeq}, got {record.seq}")
    else .ok expectedSeq

/-- `ExportReadView::apply_wal_record` up to the update of the last applied sequence. -/
def installRecord (s : ReadViewState) (record : WalRecord) : Res ReadViewState := do
  let expectedSeq ← s.checkRecord record
  let overlay ← s.overlay.insertRecord record
  let cache ← s.cache.trimRange record.range
  .ok { s with overlay := overlay, cache := cache, lastAppliedSeq := expectedSeq }

/-- Rust `ExportReadView::apply_wal_record`. An overflow of the debt counter is reported after the
record has been installed. -/
def applyWalRecord (s : ReadViewState) (record : WalRecord) : ReadViewState × Res Unit :=
  match s.installRecord record with
  | .error fault => (s, .error fault)
  | .ok s' =>
    match checkedAdd s'.walDebtBytes record.data.length with
    | some debt => ({ s' with walDebtBytes := debt }, .ok ())
    | none => (s', fail (.wal "apply WAL record" "WAL debt bytes overflowed"))

/-- The loop that moves the retired extents to the cache. -/
def cacheRetired (cache : ReadCache) : List RetiredOverlayExtent → Res ReadCache
  | [] => .ok cache
  | extent :: retired => do
    let range ← byteRangeFromBounds extent.start extent.stop
    let cache ← cache.insertWalRecordSlice range extent.record extent.recordOffset .cold
    cacheRetired cache retired

/-- Retire the overlay extents the new root holds and install this root: the common part of
`advance_root` and `advance_after_compaction`. -/
def installRoot (s : ReadViewState) (newRoot : RootSnapshot) : Res ReadViewState := do
  let retired := s.overlay.visibleThrough newRoot.baseWalSeq
  let cache ← cacheRetired s.cache retired
  let overlay ← s.overlay.removeRetired retired
  .ok { s with cache := cache, overlay := overlay, root := newRoot }

/-- The checks of `ExportReadView::advance_root`; `false` says that the view stands on this
checkpoint already. -/
def checkAdvanceRoot (s : ReadViewState) (newRoot : RootSnapshot) : Res Bool :=
  if newRoot.sizeBytes ≠ s.root.sizeBytes then
    fail (.wal "advance read-view root" s!"new root size {newRoot.sizeBytes
      } does not match current size {s.root.sizeBytes}")
  else if newRoot.baseWalSeq < s.root.baseWalSeq then
    fail (.wal "advance read-view root" s!"new checkpoint {newRoot.baseWalSeq
      } is before current checkpoint {s.root.baseWalSeq}")
  else if newRoot.baseWalSeq = s.root.baseWalSeq then .ok false
  else if newRoot.baseWalSeq > s.lastAppliedSeq then
    fail (.wal "advance read-view root" s!"new checkpoint {newRoot.baseWalSeq
      } is beyond last applied WAL sequence {s.lastAppliedSeq}")
  else .ok true

/-- Rust `ExportReadView::advance_root`. -/
def advanceRoot (s : ReadViewState) (newRoot : RootSnapshot) : ReadViewState × Res Unit :=
  match s.checkAdvanceRoot newRoot with
  | .error fault => (s, .error fault)
  | .ok false => (s, .ok ())
  | .ok true =>
    match s.installRoot newRoot with
    | .ok s' => ({ s' with
        walDebtBytes := if newRoot.baseWalSeq = s'.lastAppliedSeq then 0 else s'.walDebtBytes },
        .ok ())
    | .error fault => (s, .error fault)

/-- The checks of `ExportReadView::advance_after_compaction`; `false` says that the view has already
advanced. -/
def checkAdvance (s : ReadViewState) (newRoot : RootSnapshot) (snapshot : CompactionSnapshot) :
    Res Bool :=
  if newRoot.sizeBytes ≠ s.root.sizeBytes then
    fail (.wal "advance read-view root after compaction" s!"new root size {newRoot.sizeBytes
      } does not match current size {s.root.sizeBytes}")
  else if s.root.baseWalSeq ≥ snapshot.targetWalSeq then .ok false
  else if s.root.baseWalSeq ≠ snapshot.root.baseWalSeq then
    fail (.wal "advance read-view root after compaction" s!"current checkpoint {s.root.baseWalSeq
      } does not match snapshot base {snapshot.root.baseWalSeq}")
  else if newRoot.baseWalSeq < snapshot.targetWalSeq then
    fail (.wal "advance read-view root after compaction" s!"new checkpoint {newRoot.baseWalSeq
      } is before snapshot target {snapshot.targetWalSeq}")
  else if newRoot.baseWalSeq > snapshot.targetWalSeq then
    fail (.wal "advance read-view root after compaction" s!"new checkpoint {newRoot.baseWalSeq
      } is after snapshot target {snapshot.targetWalSeq}")
  else if newRoot.baseWalSeq > s.lastAppliedSeq then
    fail (.wal "advance read-view root after compaction" s!"new checkpoint {newRoot.baseWalSeq
      } is beyond last applied WAL sequence {s.lastAppliedSeq}")
  else if snapshot.walDebtBytes > s.walDebtBytes then
    fail (.wal "advance read-view root after compaction" s!"snapshot WAL debt {snapshot.walDebtBytes
      } exceeds live WAL debt {s.walDebtBytes}")
  else .ok true

/-- The mutating part of `ExportReadView::advance_after_compaction`. -/
def advance (s : ReadViewState) (newRoot : RootSnapshot) (snapshot : CompactionSnapshot) :
    Res ReadViewState := do
  let s ← s.installRoot newRoot
  let debt ← minus s.walDebtBytes snapshot.walDebtBytes
  .ok { s with walDebtBytes := if newRoot.baseWalSeq = s.lastAppliedSeq then 0 else debt }

/-- Rust `ExportReadView::advance_after_compaction`. -/
def advanceAfterCompaction (s : ReadViewState) (newRoot : RootSnapshot)
    (snapshot : CompactionSnapshot) : ReadViewState × Res Unit :=
  match s.checkAdvance newRoot snapshot with
  | .error fault => (s, .error fault)
  | .ok false => (s, .ok ())
  | .ok true =>
    match s.advance newRoot snapshot with
    | .ok s' => (s', .ok ())
    | .error fault => (s, .error fault)

end ReadViewState

end NbdServer
