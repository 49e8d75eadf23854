import NbdServer.Compaction.World
import NbdServer.Engines.Readers
import NbdServer.View.Uses
import NbdServer.Wal.Ordered

/-!
# The WAL-durable engine

Model of `wal_durable/mod.rs`: opening with the replay of the log, reads, writes under `write_lock`,
and the compaction coordinator with its three callers (the background task, a write under pressure,
and close). Each call is cut where it waits: for a lock of the engine, for the log, for the view or
for a store, so that the steps of all calls can be interleaved.

The engine of an export shares the catalog and the blobs with all others (`ExportWorld`). What the
others do there is to create, clone and delete exports and to compact WAL-durable ones. Commits of
simple-durable exports, which write blobs again, are not among these steps. The log belongs to the
export, and the record of what it has acknowledged stays when an engine is lost. No file operation
of the log fails.
-/

namespace NbdServer

open Lib Wal

/-- Rust `CompactionPolicy`. -/
structure CompactionPolicy where
  backgroundWalDebtThresholdBytes : Nat
  hardWalDebtThresholdBytes : Nat
  deriving Repr

inductive CompactionTrigger where
  | background
  | writePressure
  | close
  deriving DecidableEq, Repr

inductive CoordinatorPhase where
  /-- Before `compaction_lock`, without a snapshot. -/
  | waiting
  /-- Before `compaction_lock`, with the snapshot that close captures first. -/
  | waitingWith (snapshot : CompactionSnapshot)
  /-- Under the lock, before the debt is read. -/
  | locked
  /-- Under the lock, before the snapshot is captured. -/
  | checked
  /-- In `compact_snapshot`, which is the compaction `index` of the stores. -/
  | compacting (index : Nat) (snapshot : CompactionSnapshot)
  /-- The compaction was published, and the view does not know yet. -/
  | advancing (root : RootSnapshot) (snapshot : CompactionSnapshot)
  /-- Close without a snapshot. -/
  | readingHead
  /-- Before `prune_through`. -/
  | pruning (through : Nat)
  | ended

structure CoordinatorCall where
  trigger : CompactionTrigger
  phase : CoordinatorPhase

/-- Where the write that holds `write_lock` stands. -/
inductive WritePhase where
  | free
  | appended (record : WalRecord)
  | applied
  | compacting (call : Nat)

/-- Rust `WalDurableEngine` with its `CompactionCoordinator`. The root that it was opened on is not
part of the program. -/
structure WalDurableEngine where
  sizeBytes : Nat
  policy : CompactionPolicy
  view : ViewWorld
  write : WritePhase
  calls : List CoordinatorCall
  compactionLock : Option Nat
  first : RootSnapshot

inductive EngineEvent where
  | beginRead (offset len : Nat)
  | treeRead (read : Nat)
  | finishRead (read : Nat)
  | append (offset : Nat) (data : Buf)
  | apply
  | finishWrite
  | tick
  | close
  | lock (call : Nat)
  | check (call : Nat)
  | capture (call : Nat)
  | compacted (call : Nat)
  | advance (call : Nat)
  | readHead (call : Nat)
  | prune (call : Nat)

namespace WalDurableEngine

/-! ## Opening -/

/-- The loop of `replay_wal_after`. -/
def replayRecords (state : ReadViewState) : List WalRecord → Res ReadViewState
  | [] => .ok state
  | record :: records =>
    match state.applyWalRecord record with
    | (state, .ok ()) => replayRecords state records
    | (_, .error fault) => .error fault

/-- Rust `validate_head_can_open`. -/
def validateHeadCanOpen (name : ExportName) (head : ExportHead) : Res Unit :=
  if head.layoutKind ≠ .cowImmutableTree then
    fail (.catalog
      s!"WAL durable export `{name}` requires cow_immutable_tree head, got {head.layoutKind.text}")
  else .ok ()

/-- Rust `WalDurableEngine::open_with_cow_tree_and_compaction_policy`: the engine, and the records
that it replayed. -/
def openWithCowTree (crc : Checksum) (record : ExportRecord) (wal : LocalExportWal)
    (policy : CompactionPolicy) (cacheBytes : Nat) : Res (WalDurableEngine × List WalRecord) :=
  if record.engineKind ≠ .walDurable then
    fail (.catalog s!"export `{record.name}` is not a wal_durable export")
  else do
    validateHeadCanOpen record.name record.head
    let root ← RootSnapshot.fromHead record.head
    let records ← outcome (replayAfter crc root.baseWalSeq wal)
    let view ← replayRecords (.new root cacheBytes) records
    .ok (⟨root.sizeBytes, policy, ⟨view, records, [], [], [], []⟩, .free, [], none, root⟩, records)

/-! ## Writes -/

/-- The part of `WalDurableEngine::write` before `write_lock`; an empty write has no request. -/
def writeRequest (sizeBytes offset : Nat) (data : Buf) : Res (Option WalRequest) := do
  validateRequestRange "write" offset data.length sizeBytes
  if data = [] then .ok none
  else if data.length < U32 then do
    let request ← WalRequest.new (.new offset data.length) data
    .ok (some request)
  else fail (.outOfBounds "write" offset data.length sizeBytes)

/-! ## The coordinator -/

def setCall (g : WalDurableEngine) (j : Nat) (call : CoordinatorCall) (phase : CoordinatorPhase) :
    WalDurableEngine :=
  { g with calls := g.calls.set j { call with phase := phase } }

/-- A call of the coordinator ends, and gives `compaction_lock` back if it has it. -/
def endCall (g : WalDurableEngine) (j : Nat) (call : CoordinatorCall) : WalDurableEngine :=
  { g.setCall j call .ended with compactionLock := if g.compactionLock = some j then none else
    g.compactionLock }

/-- The debt is between the thresholds, as the background task wants it. -/
def debtInBackgroundRange (g : WalDurableEngine) : Bool :=
  g.policy.backgroundWalDebtThresholdBytes ≤ g.view.view.walDebtBytes &&
    g.view.view.walDebtBytes < g.policy.hardWalDebtThresholdBytes

/-- The check of the debt under `compaction_lock`. -/
def checkDebt (g : WalDurableEngine) : CompactionTrigger → Bool
  | .background => g.debtInBackgroundRange
  | .writePressure => g.policy.hardWalDebtThresholdBytes ≤ g.view.view.walDebtBytes
  | .close => true

/-- What `compact_snapshot_locked` does with the result of a compaction. -/
def afterCompaction (g : WalDurableEngine) (j : Nat) (call : CoordinatorCall)
    (snapshot : CompactionSnapshot) :
    Res CompactionResult → WalDurableEngine
  | .ok { outcome := .published, publishedRoot := some root, .. } =>
    g.setCall j call (.advancing root snapshot)
  | _ => g.endCall j call

end WalDurableEngine

/-! ## The steps of an engine -/

/-- What the steps of an engine work on: the engine, the log of its export and the stores. -/
structure EngineState where
  engine : WalDurableEngine
  wal : WalWorld
  store : StoreWorld

/-- The stores when a compaction of a snapshot starts. -/
def StoreWorld.withCompaction (w : StoreWorld) (id : ExportId) (snapshot : CompactionSnapshot) :
    StoreWorld :=
  { w with compactions := w.compactions ++ [.start id snapshot w.db.tables w.blobs] }

namespace EngineState

variable (crc : Checksum) (exportId : ExportId) (s : EngineState)

def withEngine (g : WalDurableEngine) : EngineState := { s with engine := g }

def withView (view : ViewWorld) : EngineState := { s with engine := { s.engine with view := view } }

/-- `compact_snapshot` is called. -/
def startCompaction (j : Nat) (call : CoordinatorCall) (snapshot : CompactionSnapshot) :
    EngineState :=
  { s with
    engine := s.engine.setCall j call (.compacting s.store.compactions.length snapshot)
    store := s.store.withCompaction exportId snapshot }

def treeRead (i : Nat) : Option EngineState := do
  let read ← s.engine.view.reads[i]?
  let miss ← ViewWorld.nextMiss read
  match CowTreeReader.readCommitted read.capture.root miss s.store.stores with
  | .ok block _ => (s.engine.view.next (.treeRead i block)).map s.withView
  | .error _ _ => (s.engine.view.next (.treeFail i)).map s.withView

/-- The reads of the committed tree for the misses of one read. -/
def readBlocks (stores : Stores) (root : RootSnapshot) : List ByteRange → Res (List Block)
  | [] => .ok []
  | miss :: misses =>
    match CowTreeReader.readCommitted root miss stores with
    | .error fault _ => .error fault
    | .ok block _ => do
      ReadViewState.checkBlock miss block
      let blocks ← readBlocks stores root misses
      .ok (block :: blocks)

/-- Rust `WalDurableEngine::read`, when nothing else happens before it returns. -/
def read (offset len : Nat) : Res Buf := do
  validateRange "read" (.new offset len) s.engine.sizeBytes
  let c ← s.engine.view.view.capture (.new offset len)
  let blocks ← readBlocks s.store.stores c.root c.treeMisses
  let data ← ReadViewState.assemble c blocks
  (s.engine.view.view.finishRead c blocks).2
  .ok data

/-- A write takes `write_lock` and appends. -/
def append (offset : Nat) (data : Buf) : Option EngineState :=
  match WalDurableEngine.writeRequest s.engine.sizeBytes offset data, s.engine.write with
  | .ok (some request), .free =>
    some { s with
      wal := s.wal.call crc (.append request)
      engine := match outcome (Wal.append crc request s.wal.wal) with
        | .ok record => { s.engine with write := .appended record }
        | .error _ => s.engine }
  -- a write that waits for the lock has no effect
  | .ok (some _), _ => none
  | _, _ => some s

def apply : Option EngineState :=
  match s.engine.write with
  | .appended record => do
    let view ← s.engine.view.next (.apply record)
    let write := match (s.engine.view.view.applyWalRecord record).2 with
      | .ok () => .applied
      | .error _ => .free
    some (s.withEngine { s.engine with view := view, write := write })
  | _ => none

/-- The rest of a write: `compact_if_wal_debt_exceeds_threshold`. -/
def finishWrite : Option EngineState :=
  match s.engine.write with
  | .applied =>
    if s.engine.view.view.walDebtBytes < s.engine.policy.hardWalDebtThresholdBytes then
      some (s.withEngine { s.engine with write := .free })
    else some (s.withEngine { s.engine with
      write := .compacting s.engine.calls.length
      calls := s.engine.calls ++ [⟨.writePressure, .waiting⟩] })
  | .compacting j =>
    match s.engine.calls[j]? with
    | some ⟨_, .ended⟩ => some (s.withEngine { s.engine with write := .free })
    | _ => none
  | _ => none

/-- A tick of the background task, up to `try_lock`. -/
def tick : EngineState :=
  if s.engine.debtInBackgroundRange then
    s.withEngine { s.engine with calls := s.engine.calls ++ [⟨.background, .waiting⟩] }
  else s

/-- The start of `compact_close_best_effort`. -/
def close : EngineState :=
  match s.engine.view.view.captureCompactionSnapshot with
  | some snapshot => s.withEngine { s.engine with
      view := { s.engine.view with snapshots := s.engine.view.snapshots ++ [snapshot] }
      calls := s.engine.calls ++ [⟨.close, .waitingWith snapshot⟩] }
  | none => s.withEngine { s.engine with calls := s.engine.calls ++ [⟨.close, .readingHead⟩] }

/-- A call asks for `compaction_lock`; the background task does not wait for it. -/
def lock (j : Nat) : Option EngineState := do
  let call ← s.engine.calls[j]?
  match call.phase, s.engine.compactionLock with
  | .waiting, none =>
    some (s.withEngine { s.engine.setCall j call .locked with compactionLock := some j })
  | .waitingWith snapshot, none =>
    some (startCompaction exportId (s.withEngine { s.engine with compactionLock := some j }) j call
      snapshot)
  | .waiting, some _ =>
    if call.trigger = .background then some (s.withEngine (s.engine.endCall j call)) else none
  | _, _ => none

def check (j : Nat) : Option EngineState := do
  let call ← s.engine.calls[j]?
  match call.phase with
  | .locked =>
    if s.engine.checkDebt call.trigger then some (s.withEngine (s.engine.setCall j call .checked))
    else some (s.withEngine (s.engine.endCall j call))
  | _ => none

def capture (j : Nat) : Option EngineState := do
  let call ← s.engine.calls[j]?
  match call.phase with
  | .checked =>
    match s.engine.view.view.captureCompactionSnapshot with
    | some snapshot => some (startCompaction exportId (s.withView
        { s.engine.view with snapshots := s.engine.view.snapshots ++ [snapshot] }) j call snapshot)
    | none => some (s.withEngine (s.engine.endCall j call))
  | _ => none

/-- `compact_snapshot` has returned. -/
def compacted (j : Nat) : Option EngineState := do
  let call ← s.engine.calls[j]?
  match call.phase with
  | .compacting index snapshot => do
    let compaction ← s.store.compactions[index]?
    match compaction.phase with
    | .done result => some (s.withEngine (s.engine.afterCompaction j call snapshot result))
    | _ => none
  | _ => none

def advance (j : Nat) : Option EngineState := do
  let call ← s.engine.calls[j]?
  match call.phase with
  | .advancing root snapshot =>
    let g := { s.engine with view := s.engine.view.withPublished root snapshot }
    match (s.engine.view.view.advanceAfterCompaction root snapshot).2 with
    | .ok () => some (s.withEngine (g.setCall j call (.pruning root.baseWalSeq)))
    | .error _ => some (s.withEngine (g.endCall j call))
  | _ => none

/-- Close without a snapshot reads the head of the view. -/
def readHead (j : Nat) : Option EngineState := do
  let call ← s.engine.calls[j]?
  match call.phase with
  | .readingHead =>
    match s.engine.view.view.root.toExportHead with
    | .ok head => some (s.withEngine (s.engine.setCall j call (.pruning head.baseWalSeq)))
    | .error _ => some (s.withEngine (s.engine.endCall j call))
  | _ => none

/-- Rust `prune_published_wal`: an error is logged. -/
def prune (j : Nat) : Option EngineState := do
  let call ← s.engine.calls[j]?
  match call.phase with
  | .pruning through => some { s with
      wal := s.wal.call crc (.prune through)
      engine := s.engine.endCall j call }
  | _ => none

/-- The effect of a step of an engine, `none` where it cannot happen. -/
def next : EngineEvent → Option EngineState
  | .beginRead offset len =>
    match validateRange "read" (.new offset len) s.engine.sizeBytes with
    | .error _ => some s
    | .ok () => (s.engine.view.next (.beginRead (.new offset len))).map s.withView
  | .treeRead i => s.treeRead i
  | .finishRead i => (s.engine.view.next (.finishRead i)).map s.withView
  | .append offset data => s.append crc offset data
  | .apply => s.apply
  | .finishWrite => s.finishWrite
  | .tick => some s.tick
  | .close => some s.close
  | .lock j => s.lock exportId j
  | .check j => s.check j
  | .capture j => s.capture exportId j
  | .compacted j => s.compacted j
  | .advance j => s.advance j
  | .readHead j => s.readHead j
  | .prune j => s.prune crc j

end EngineState

/-! ## An export -/

/-- The size of an export, and its content at a sequence of its log. -/
structure Origin where
  base : Nat
  size : Nat
  content : Nat → UInt8

/-- The stores, the log of an export, and its engine while it is open. -/
structure ExportWorld where
  store : StoreWorld
  wal : WalWorld
  engine : Option WalDurableEngine

/-- The steps around an export. Those of the stores are taken by its compactions and by all other
exports. -/
inductive ExportEvent where
  | store (e : StoreEvent)
  | engine (e : EngineEvent)
  | open (policy : CompactionPolicy) (cacheBytes : Nat)
  | crash (call : Call) (kept : List Effect)

def Stores.originOf (stores : Stores) (root : RootSnapshot) : Origin :=
  ⟨root.baseWalSeq, root.sizeBytes, stores.committed root⟩

namespace ExportWorld

variable (crc : Checksum) (exportId : ExportId) (w : ExportWorld)

/-- A read of an export that is open, when nothing else happens before it returns. -/
def read (offset len : Nat) : Option (Res Buf) :=
  w.engine.map fun g => EngineState.read ⟨g, w.wal, w.store⟩ offset len

/-- The export is opened: its log is opened again on its directory, and the engine on the head of
the catalog. -/
def openEngine (policy : CompactionPolicy) (cacheBytes : Nat) :
    Option (WalDurableEngine × List WalRecord) :=
  match w.wal.wal.reopen crc, w.store.db.find exportId with
  | .ok wal _, some record =>
    if record.state = .deleted then none
    else (WalDurableEngine.openWithCowTree crc record wal policy cacheBytes).toOption
  | _, _ => none

/-- The effect of a step, `none` where it cannot happen. -/
def next : ExportEvent → Option ExportWorld
  | .store e => (w.store.next e).map fun store => { w with store := store }
  | .engine e => do
    let g ← w.engine
    let s ← EngineState.next crc exportId ⟨g, w.wal, w.store⟩ e
    some ⟨s.store, s.wal, some s.engine⟩
  -- an engine that was open is gone
  | .open policy cacheBytes => some { w with
      wal := w.wal.logCall crc .reopen
      engine := (w.openEngine crc exportId policy cacheBytes).map (·.1) }
  -- only crashes after which the log can be opened
  | .crash call kept =>
    match LocalExportWal.open crc w.wal.wal.segmentTargetBytes (filesAfter w.wal kept) with
    | .error _ _ => none
    | .ok wal _ =>
      match loadRecords crc wal.files with
      | .error _ _ => none
      | .ok records _ => some { w with
          wal := ⟨wal, w.wal.history ++ records.filter (w.wal.history.length < ·.seq),
            max w.wal.pruneRequest call.pruneRequest⟩
          engine := none }

/-- The calls on the log that can be in flight. To prune nothing stands for no call. -/
def InFlight : Call → Prop
  | .append request => ∃ (g : WalDurableEngine) (offset : Nat) (data : Buf), w.engine = some g ∧
      g.write = .free ∧
      WalDurableEngine.writeRequest g.sizeBytes offset data = .ok (some request)
  | .prune seq => seq = 0 ∨ ∃ (g : WalDurableEngine) (j : Nat) (trigger : CompactionTrigger),
      w.engine = some g ∧ g.calls[j]? = some ⟨trigger, .pruning seq⟩

/-- What is assumed of the environment: that of the stores, that only the engine starts compactions
of its export, and that a crash keeps a part of the effects of the call in flight and all that was
synced. -/
def Legal : ExportEvent → Prop
  | .store e => w.store.Legal e ∧ ∀ sn, e ≠ .start exportId sn
  | .crash call kept => w.InFlight call ∧ Crash crc w.wal call kept
  | _ => True

end ExportWorld

end NbdServer
