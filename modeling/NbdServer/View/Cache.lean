import NbdServer.Lib.OrdMap
import NbdServer.View.ExtentMap
import NbdServer.View.Merge

/-!
# The read cache

Model of `read_cache.rs`: cached extents of objects, an LRU list of the objects and a byte budget.
Sizes in memory (`charged_bytes`, `next_object_id`) are natural numbers. `charged_bytes` is
decreased with `minus`, which aborts below zero, as are the slice accesses, so that a call returning
`.ok` also says that it does not abort. Debug assertions are not modelled.
-/

namespace NbdServer

open Lib

/-- Rust `CACHE_BLOCK_BYTES`. -/
def CACHE_BLOCK_BYTES : Nat := 2 * 1024 * 1024

/-- Rust `CacheInsertPlacement`. -/
inductive CacheInsertPlacement where
  | hot
  | cold
  deriving DecidableEq

/-- Rust `CacheExtent`. -/
structure CacheExtent where
  objectId : Nat
  objectOffset : Nat
  deriving DecidableEq

/-- Rust `CacheExtent::split_at`. -/
def CacheExtent.splitAt (e : CacheExtent) (delta : Nat) : CacheExtent :=
  { e with objectOffset := e.objectOffset + delta }

/-- Rust `CacheObject`. -/
structure CacheObject where
  logicalStart : Nat
  len : Nat
  payload : CachePayload
  extentStarts : Finset Nat
  chargedBytes : Nat
  deriving DecidableEq

/-- Rust `CacheReadSlice`. -/
structure CacheReadSlice where
  start : Nat
  stop : Nat
  objectId : Nat
  objectOffset : Nat
  payload : CachePayload
  deriving DecidableEq

/-- Rust `CacheObjectLru`: the ids of the cached objects, hottest first. -/
abbrev CacheObjectLru := List Nat

namespace CacheObjectLru

/-- Rust `CacheObjectLru::push_front`. -/
def pushFront (lru : CacheObjectLru) (id : Nat) : CacheObjectLru := id :: lru

/-- Rust `CacheObjectLru::push_back`. -/
def pushBack (lru : CacheObjectLru) (id : Nat) : CacheObjectLru := lru ++ [id]

/-- Rust `CacheObjectLru::insert_at`. -/
def insertAt (lru : CacheObjectLru) (position id : Nat) : CacheObjectLru :=
  lru.insertIdx (min position lru.length) id

/-- Rust `CacheObjectLru::remove`. -/
def remove (lru : CacheObjectLru) (id : Nat) : CacheObjectLru := lru.erase id

/-- Rust `CacheObjectLru::promote`. -/
def promote (lru : CacheObjectLru) (id : Nat) : CacheObjectLru :=
  if id ∈ lru then (remove lru id).pushFront id else lru

/-- Rust `CacheObjectLru::tail`. -/
def tail (lru : CacheObjectLru) : Option Nat := lru.getLast?

/-- Rust `CacheObjectLru::coldest_position`. -/
def coldestPosition (lru : CacheObjectLru) (ids : List Nat) : Option Nat :=
  (ids.filterMap fun id => lru.idxOf? id).max?

/-- Put an id where `placement` says. -/
def place (lru : CacheObjectLru) (id : Nat) : CacheInsertPlacement → CacheObjectLru
  | .hot => lru.pushFront id
  | .cold => lru.pushBack id

end CacheObjectLru

/-- Rust `ReadCache`. -/
structure ReadCache where
  extents : ExtentMap CacheExtent
  objects : OrdMap Nat CacheObject
  lru : CacheObjectLru
  maxBytes : Nat
  chargedBytes : Nat
  nextObjectId : Nat

/-- Rust `cache_block_start`. -/
def cacheBlockStart (offset : Nat) : Nat := offset / CACHE_BLOCK_BYTES * CACHE_BLOCK_BYTES

/-- Rust `cache_block_end`. -/
def cacheBlockEnd (offset : Nat) : Res Nat :=
  okOr (checkedAdd (cacheBlockStart offset) CACHE_BLOCK_BYTES)
    (.wal "read cache" "cache block end overflowed")

namespace ReadCache

/-- Rust `ReadCache::new`. -/
def new (maxBytes : Nat) : ReadCache where
  extents := IntervalMap.empty
  objects := OrdMap.empty
  lru := []
  maxBytes := maxBytes
  chargedBytes := 0
  nextObjectId := 1

/-- The slice of an extent that `read_slices` returns for a read of `[start, stop)`. -/
def readSlice (c : ReadCache) (start stop : Nat) (extent : ExtentEntry CacheExtent) :
    Res CacheReadSlice := do
  let object ← okOr (c.objects.find extent.value.objectId)
    (.wal "read cache" "cache extent references missing object")
  let objectOffset ← okOr
    (checkedAdd extent.value.objectOffset (max start extent.start - extent.start))
    (.wal "read cache" "object offset overflowed")
  .ok ⟨max start extent.start, min stop extent.stop, extent.value.objectId, objectOffset,
    object.payload⟩

/-- Rust `ReadCache::read_slices`. -/
def readSlices (c : ReadCache) (range : ByteRange) : Res (List CacheReadSlice) := do
  let extents ← c.extents.overlapping range.start range.stop
  extents.mapM (c.readSlice range.start range.stop)

/-- Rust `ReadCache::remove_object`. -/
def removeObject (c : ReadCache) (id : Nat) : Res ReadCache :=
  match c.objects.find id with
  | some object => do
    let chargedBytes ← minus c.chargedBytes object.chargedBytes
    .ok { c with
      objects := c.objects.erase id
      chargedBytes := chargedBytes
      lru := c.lru.remove id }
  | none => .ok { c with lru := c.lru.remove id }

/-- Add an extent start to the object it belongs to, if this object exists. -/
def addBackref (objects : OrdMap Nat CacheObject) (extent : ExtentEntry CacheExtent) :
    OrdMap Nat CacheObject :=
  match objects.find extent.value.objectId with
  | some object => objects.insert extent.value.objectId
      { object with extentStarts := insert extent.start object.extentStarts }
  | none => objects

/-- The back references are cleared and collected again from the extents. -/
def rebuildBackrefs (c : ReadCache) : ReadCache :=
  { c with
    objects := c.extents.entries.foldl addBackref
      (c.objects.mapValues fun _ object => { object with extentStarts := ∅ }) }

def removeObjects (c : ReadCache) : List Nat → Res ReadCache
  | [] => .ok c
  | id :: ids => do
    let c ← c.removeObject id
    c.removeObjects ids

def emptyObjects (c : ReadCache) : List Nat :=
  (c.objects.entries.filter (·.2.extentStarts = ∅)).map (·.1)

def inheritPosition (c : ReadCache) (inheritedId : Nat) (position : Option Nat)
    (placement : CacheInsertPlacement) : ReadCache :=
  if c.objects.Has inheritedId then
    match position with
    | some position =>
      { c with lru := (c.lru.remove inheritedId).insertAt position inheritedId }
    | none => { c with lru := (c.lru.remove inheritedId).place inheritedId placement }
  else c

/-- Rust `ReadCache::rebuild_backrefs_and_gc_with_inherited_lru`. -/
def rebuildBackrefsAndGcWithInheritedLru (c : ReadCache) (inheritedId : Nat)
    (inheritedPosition : Option Nat) (placement : CacheInsertPlacement) : Res ReadCache := do
  let c := c.rebuildBackrefs
  let c ← c.removeObjects c.emptyObjects
  .ok (c.inheritPosition inheritedId inheritedPosition placement)

/-- Rust `ReadCache::rebuild_backrefs_and_gc`. -/
def rebuildBackrefsAndGc (c : ReadCache) : Res ReadCache :=
  c.rebuildBackrefsAndGcWithInheritedLru 0 none .hot

/-- Rust `ReadCache::trim_range`. -/
def trimRange (c : ReadCache) (range : ByteRange) : Res ReadCache :=
  if range.isEmpty then .ok c
  else do
    let (extents, _) ← c.extents.removeRangeWithSplit range.start range.stop CacheExtent.splitAt
    { c with extents := extents }.rebuildBackrefsAndGc

/-- Rust `ReadCache::promote_hits`. -/
def promoteHits (c : ReadCache) (hits : List Nat) : ReadCache :=
  hits.foldl (fun c id => if c.objects.Has id then { c with lru := c.lru.promote id } else c) c

/-- Rust `ReadCache::insert_object`. -/
def insertObject (c : ReadCache) (start stop : Nat) (payload : CachePayload)
    (placement : CacheInsertPlacement) : ReadCache :=
  { c with
    nextObjectId := c.nextObjectId + 1
    chargedBytes := c.chargedBytes + payload.chargedBytes
    objects := c.objects.insert c.nextObjectId
      ⟨start, stop - start, payload, ∅, payload.chargedBytes⟩
    lru := c.lru.place c.nextObjectId placement }

/-- The source of an extent in `existing_sources_for_window`. -/
def existingSource (c : ReadCache) (extent : ExtentEntry CacheExtent) : Res ExistingSource := do
  let object ← okOr (c.objects.find extent.value.objectId)
    (.wal "read cache" "cache extent references missing object")
  .ok ⟨extent.start, extent.stop, extent.value.objectId, extent.value.objectOffset, object.payload⟩

/-- Rust `ReadCache::existing_sources_for_window`. -/
def existingSourcesForWindow (c : ReadCache) (start : Nat) : Res (List ExistingSource) := do
  let windowEnd ← okOr (checkedAdd (cacheBlockStart start) CACHE_BLOCK_BYTES)
    (.wal "read cache" "cache block end overflowed")
  let extents ← c.extents.overlapping (cacheBlockStart start) windowEnd
  extents.mapM c.existingSource

/-- Put an object that holds `payload` on the component `[start, stop)`, in place of what the cache
holds there: the second half of `insert_window_bytes` and `insert_window_wal_record`. -/
def replaceComponent (c : ReadCache) (start stop : Nat) (payload : CachePayload)
    (position : Option Nat) (placement : CacheInsertPlacement) : Res ReadCache := do
  let (extents, _) ← c.extents.removeRangeWithSplit start stop CacheExtent.splitAt
  let extents ← extents.insertExact start stop ⟨c.nextObjectId, 0⟩
  { c.insertObject start stop payload placement with extents := extents
    }.rebuildBackrefsAndGcWithInheritedLru c.nextObjectId position placement

/-- Replace the component of the connected sources and the new range by one object. -/
def insertConnected (c : ReadCache) (start stop : Nat) (placement : CacheInsertPlacement)
    (build : Nat → Nat → List ExistingSource → Res CachePayload)
    (connected : List ExistingSource) : Res ReadCache := do
  let componentStart ← expect (connected.map (·.start) ++ [start]).min? "component has new source"
  let componentEnd ← expect (connected.map (·.stop) ++ [stop]).max? "component has new source"
  let payload ← build componentStart componentEnd connected
  c.replaceComponent componentStart componentEnd payload
    (c.lru.coldestPosition (connected.map (·.objectId))) placement

/-- The common body of `insert_window_bytes` and `insert_window_wal_record`. They differ in how the
payload is built from the component and its sources. -/
def insertWindow (c : ReadCache) (start stop : Nat) (placement : CacheInsertPlacement)
    (build : Nat → Nat → List ExistingSource → Res CachePayload) : Res ReadCache := do
  let sources ← c.existingSourcesForWindow start
  c.insertConnected start stop placement build (connectedSources start stop sources)

/-- The payload that `insert_window_bytes` stores. -/
def bytesPayload (start stop : Nat) (bytes : Buf) (componentStart componentEnd : Nat)
    (connected : List ExistingSource) : Res CachePayload :=
  if connected = [] ∧ componentStart = start ∧ componentEnd = stop then .ok (.bytes bytes)
  else do
    let merged ← materializeMergedBytes componentStart componentEnd start stop bytes connected
    .ok (.bytes merged)

/-- Rust `ReadCache::insert_window_bytes`. -/
def insertWindowBytes (c : ReadCache) (start stop : Nat) (bytes : Buf)
    (placement : CacheInsertPlacement) : Res ReadCache :=
  c.insertWindow start stop placement (bytesPayload start stop bytes)

/-- The payload that `insert_window_wal_record` stores: a whole record of at most one block is kept
as a record. -/
def walRecordPayload (start stop : Nat) (record : WalRecord) (recordOffset : Nat)
    (componentStart componentEnd : Nat) (connected : List ExistingSource) : Res CachePayload :=
  if connected = [] ∧ recordOffset = 0 ∧ stop - start = record.data.length ∧
      record.data.length ≤ CACHE_BLOCK_BYTES then .ok (.walRecord record)
  else do
    let merged ← materializeMergedWalBytes componentStart componentEnd start stop recordOffset
      record
      connected
    .ok (.bytes merged)

/-- Rust `ReadCache::insert_window_wal_record`. -/
def insertWindowWalRecord (c : ReadCache) (start stop : Nat) (record : WalRecord)
    (recordOffset : Nat) (placement : CacheInsertPlacement) : Res ReadCache :=
  c.insertWindow start stop placement (walRecordPayload start stop record recordOffset)

/-- The extents of one object are removed one after another. -/
def removeExtents (extents : ExtentMap CacheExtent) : List Nat → Res (ExtentMap CacheExtent)
  | [] => .ok extents
  | start :: starts =>
    match extents.entries.find? (·.start = start) with
    | some extent => do
      let (extents, _) ← extents.removeRangeWithSplit extent.start extent.stop CacheExtent.splitAt
      removeExtents extents starts
    | none => removeExtents extents starts

/-- Rust `ReadCache::evict_object`. -/
def evictObject (c : ReadCache) (id : Nat) : Res ReadCache :=
  match c.objects.find id with
  | none => .ok { c with lru := c.lru.remove id }
  | some object => do
    let extents ← removeExtents c.extents (object.extentStarts.sort (· ≤ ·))
    { c with extents := extents }.removeObject id

/-- The loop of `evict_to_budget`. Every round removes the tail of the LRU list, so its length is
enough fuel. -/
def evictLoop : Nat → ReadCache → Res ReadCache
  | 0, c => .ok c
  | fuel + 1, c =>
    if c.chargedBytes > c.maxBytes then
      match c.lru.tail with
      | none => .ok c
      | some id => do
        let c ← c.evictObject id
        evictLoop fuel c
    else .ok c

/-- Rust `ReadCache::evict_to_budget`. -/
def evictToBudget (c : ReadCache) : Res ReadCache := evictLoop c.lru.length c

/-- The `while` loop of `insert_bytes` and `insert_wal_record_slice`: one insert per cache block.
Every round advances `start`, so the length of the range is enough fuel. -/
def windowLoop (insert : ReadCache → Nat → Nat → Res ReadCache) (stop : Nat) :
    Nat → Nat → ReadCache → Res ReadCache
  | 0, _, c => .ok c
  | fuel + 1, start, c =>
    if start < stop then do
      let windowEnd ← cacheBlockEnd start
      let c ← insert c start (min stop windowEnd)
      windowLoop insert stop fuel (min stop windowEnd) c
    else .ok c

/-- Rust `ReadCache::insert_bytes`. -/
def insertBytes (c : ReadCache) (range : ByteRange) (bytes : Buf)
    (placement : CacheInsertPlacement) : Res ReadCache :=
  if bytes.length ≠ range.len then
    fail (.wal "insert read cache bytes"
      s!"payload length {bytes.length} does not match range length {range.len}")
  else if range.isEmpty then .ok c
  else do
    let c ← windowLoop (fun c start stop => do
        let window ← sliceOf bytes (start - range.start) (stop - start)
        c.insertWindowBytes start stop window placement)
      range.stop range.len range.start c
    c.evictToBudget

/-- Rust `ReadCache::insert_wal_record_slice`. -/
def insertWalRecordSlice (c : ReadCache) (range : ByteRange) (record : WalRecord)
    (recordOffset : Nat) (placement : CacheInsertPlacement) : Res ReadCache := do
  let recordEnd ← okOr (checkedAdd recordOffset range.len)
    (.wal "insert read cache WAL record" "record offset overflowed")
  if recordEnd > record.data.length then
    fail (.wal "insert read cache WAL record" "retired WAL slice exceeds record payload")
  else if range.isEmpty then .ok c
  else do
    let c ← windowLoop (fun c start stop => do
        let sliceOffset ← okOr (checkedAdd recordOffset (start - range.start))
          (.wal "insert read cache WAL record" "record offset overflowed")
        c.insertWindowWalRecord start stop record sliceOffset placement)
      range.stop range.len range.start c
    c.evictToBudget

end ReadCache

/-- Rust `CacheReadSlice::copy_to`. -/
def CacheReadSlice.copyTo (s : CacheReadSlice) (readRange : ByteRange) (data : Buf) : Res Buf :=
  if max readRange.start s.start ≥ min readRange.stop s.stop then .ok data
  else do
    let srcStart ← okOr (checkedAdd s.objectOffset (max readRange.start s.start - s.start))
      (.wal "read cache" "source offset overflowed")
    s.payload.copyTo srcStart (min readRange.stop s.stop - max readRange.start s.start) data
      (max readRange.start s.start - readRange.start)

end NbdServer
