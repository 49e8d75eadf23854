import NbdServer.Compaction.Images
import NbdServer.Compaction.Publish
import NbdServer.Lib.System

/-!
# The catalog under concurrent compactions

A catalog and a blob store with the compactions that run on them, any number for any export, next to
calls that create, clone and delete exports. `CowCompactor::compact_snapshot` is cut where it calls
a store: its reads (`observe`), the puts of its blobs and the transaction of its publish are steps
of their own, and between two of them all others can take steps. A compaction can fail at each call,
and the report of a publish that the catalog committed can be lost.

A compaction starts from a root that its export has had (`StoreWorld.roots`), which need not be the
one that it has now.
-/

namespace NbdServer

open Lib TreeGeometry

/-- Rust `CompactionResult`. -/
structure CompactionResult where
  exportId : ExportId
  baseWalSeq : Nat
  targetWalSeq : Nat
  compactedRecords : Nat
  writtenLeafBlobs : Nat
  outcome : CompactionOutcome
  publishedRoot : Option RootSnapshot

/-- Where `compact_snapshot` stands. `seen` is what its reads returned so far. -/
inductive CompactionPhase where
  | imaging (seen : List Stores)
  | writing (chunks : ChunkImages) (left : List (Nat × Buf)) (refs : OrdMap Nat CowChunkRef)
    (seen : List TreeRows)
  | done (result : Res CompactionResult)

/-- A call of `compact_snapshot`. The tables and blobs at its start are not part of the program. -/
structure Compaction where
  exportId : ExportId
  snapshot : CompactionSnapshot
  phase : CompactionPhase
  tables : TreeTables
  blobs : Blobs

namespace Compaction

def result (c : Compaction) (compactedRecords writtenLeafBlobs : Nat) (outcome : CompactionOutcome)
    (publishedRoot : Option RootSnapshot) : CompactionResult :=
  ⟨c.exportId, c.snapshot.root.baseWalSeq, c.snapshot.targetWalSeq, compactedRecords,
    writtenLeafBlobs, outcome, publishedRoot⟩

/-- The start of `compact_snapshot`. -/
def start (exportId : ExportId) (snapshot : CompactionSnapshot) (tables : TreeTables)
    (blobs : Blobs) :
    Compaction :=
  let c : Compaction := ⟨exportId, snapshot, .imaging [], tables, blobs⟩
  if snapshot.targetWalSeq ≤ snapshot.root.baseWalSeq ∨ snapshot.overlay.allSlices.isEmpty then
    { c with phase := .done (.ok (c.result 0 0 .noRecords none)) }
  else c

/-- The images of the snapshot, from what the reads returned. -/
def images (c : Compaction) (stores : Nat → Stores) : CompactionPhase :=
  match ChunkImages.applySlices stores c.snapshot.root c.snapshot.targetWalSeq
    c.snapshot.overlay.allSlices with
  | .ok chunks => .writing chunks chunks.images.entries .empty []
  | .error fault => .done (.error fault)

/-- The end of `compact_snapshot`, from the chunks that were written. -/
def publish (c : Compaction) (chunks : ChunkImages) (refs : OrdMap Nat CowChunkRef)
    (rows : Nat → TreeRows) (ids : Nat → NodeId)
    (shuffle : List TreeEdgeRecord → List TreeEdgeRecord) (db : Catalog) :
    Catalog × Res CompactionResult :=
  let (db, published) := publishLazyCompaction rows ids shuffle c.exportId c.snapshot.root
    c.snapshot.targetWalSeq (refs.entries.map (·.2)) db
  (db, published.map fun (outcome, root) =>
    c.result chunks.visibleRecords.entries.length refs.entries.length outcome root)

def outcome (c : Compaction) : Option CompactionOutcome :=
  match c.phase with
  | .done (.ok result) => some result.outcome
  | _ => none

end Compaction

/-- A committed publish: the root of the snapshot was replaced. -/
structure Publication where
  exportId : ExportId
  snapshot : CompactionSnapshot
  root : RootSnapshot

/-- The stores with the compactions that use them. `roots` are the COW roots that the exports have
had, and `publications` the publishes that were committed; they are not part of the program. -/
structure StoreWorld where
  db : Catalog
  blobs : Blobs
  compactions : List Compaction
  roots : List (ExportId × RootSnapshot)
  publications : List Publication

inductive StoreEvent where
  | create (id : ExportId) (request : CreateExport)
  | clone (id : ExportId) (request : CloneExport)
  | delete (name : ExportName)
  | start (exportId : ExportId) (snapshot : CompactionSnapshot)
  | observe (compaction : Nat)
  | image (compaction : Nat)
  | put (compaction : Nat) (draw : Nat → BlobKey)
  | publish (compaction : Nat) (ids : Nat → NodeId)
    (shuffle : List TreeEdgeRecord → List TreeEdgeRecord) (lost : Bool)
  | stop (compaction : Nat) (error : ServerError)

def ExportRecord.cowRoot (e : ExportRecord) : Option RootSnapshot :=
  (RootSnapshot.fromHead e.head).toOption

namespace StoreWorld

def stores (w : StoreWorld) : Stores := ⟨w.db.tables.toTreeRows, w.blobs⟩

def rootsOf (exports : List ExportRecord) : List (ExportId × RootSnapshot) :=
  exports.flatMap fun e => e.cowRoot.toList.map (e.id, ·)

def new (db : Catalog) (blobs : Blobs) : StoreWorld := ⟨db, blobs, [], rootsOf db.exports, []⟩

def withExport (w : StoreWorld) (db : Catalog) (record : ExportRecord) : StoreWorld :=
  { w with db := db, roots := w.roots ++ rootsOf [record] }

def setPhase (w : StoreWorld) (i : Nat) (c : Compaction) (phase : CompactionPhase) : StoreWorld :=
  { w with compactions := w.compactions.set i { c with phase := phase } }

/-- A read of a compaction: the one of its moment, or the one that the stores would return now. -/
def atRead {α : Type} (seen : List α) (now : α) (k : Nat) : α := (seen[k]?).getD now

def record (w : StoreWorld) (c : Compaction) : Res CompactionResult → StoreWorld
  | .ok { outcome := .published, publishedRoot := some root, .. } => { w with
      roots := w.roots ++ [(c.exportId, root)]
      publications := w.publications ++ [⟨c.exportId, c.snapshot, root⟩] }
  | _ => w

/-- The effect of an event, `none` where it cannot happen. -/
def next (w : StoreWorld) : StoreEvent → Option StoreWorld
  | .create id request =>
    match w.db.createExport id request with
    | .ok (db, record) => some (w.withExport db record)
    | .error _ => some w
  | .clone id request =>
    match w.db.cloneExport id request with
    | .ok (db, _, record) => some (w.withExport db record)
    | .error _ => some w
  | .delete name =>
    match w.db.deleteExport name with
    | .ok db => some { w with db := db }
    | .error _ => some w
  | .start exportId snapshot =>
    some { w with compactions := w.compactions ++ [.start exportId snapshot w.db.tables w.blobs] }
  | .observe i => do
    let c ← w.compactions[i]?
    match c.phase with
    | .imaging seen => some (w.setPhase i c (.imaging (seen ++ [w.stores])))
    | .writing chunks [] refs seen =>
      some (w.setPhase i c (.writing chunks [] refs (seen ++ [w.stores.rows])))
    | _ => none
  | .image i => do
    let c ← w.compactions[i]?
    match c.phase with
    | .imaging seen => some (w.setPhase i c (c.images (atRead seen w.stores)))
    | _ => none
  | .put i draw => do
    let c ← w.compactions[i]?
    match c.phase with
    | .writing chunks ((idx, data) :: left) refs seen =>
      match w.blobs.putRandomBlob draw data with
      | .ok (blobs, key) => some { w.setPhase i c (.writing chunks left
          (refs.insert idx ⟨idx, key, TREE_CHUNK_BYTES, rfl⟩) seen) with blobs := blobs }
      | .error fault => some (w.setPhase i c (.done (.error fault)))
    | _ => none
  | .publish i ids shuffle lost => do
    let c ← w.compactions[i]?
    match c.phase with
    | .writing chunks [] refs seen =>
      let (db, result) := c.publish chunks refs (atRead seen w.stores.rows) ids shuffle w.db
      -- the publish may have been committed although its report is an error
      let reported := if lost then fail (.catalog "database error") else result
      some ({ w.setPhase i c (.done reported) with db := db }.record c result)
    | _ => none
  | .stop i error => do
    let c ← w.compactions[i]?
    match c.phase with
    | .done _ => none
    | _ => some (w.setPhase i c (.done (fail error)))

/-- What is assumed of the environment: a compaction starts from a root of its export, the node ids
that it draws are unused, and a hash map returns its edges in some order. -/
def Legal (w : StoreWorld) : StoreEvent → Prop
  | .start exportId snapshot => (exportId, snapshot.root) ∈ w.roots
  | .publish _ ids shuffle _ => FreshIds ids w.stores.rows ∧ ∀ l, (shuffle l).Perm l
  | _ => True

end StoreWorld

def storeSystem (db : Catalog) (blobs : Blobs) : System StoreWorld StoreEvent where
  init w := w = .new db blobs
  step w e w' := w.Legal e ∧ w.next e = some w'

end NbdServer
