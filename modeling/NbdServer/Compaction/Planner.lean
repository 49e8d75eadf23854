import NbdServer.Lib.OrdMap
import NbdServer.Catalog.Store
import NbdServer.Tree.Edit

/-!
# The copy-on-write planner

Model of `CowTreePublishPlanner` of `wal_durable/compaction.rs`. The planner makes a new root and
new nodes on the way to every chunk; a new node gets the edges of the old node at its position once,
and the edges on the way are then replaced. Rows of the catalog are never changed.

Other exports are published while a planner works, so each of its reads sees the rows of its own
moment: `rows k` are the rows at the planner's read number `k`. Drawn ids are a stream, and the
order in which the pending edges leave their hash map is a parameter.
-/

namespace NbdServer

open Lib

/-- Rust `CowChunkRef`. -/
structure CowChunkRef where
  chunkIndex : Nat
  blobKey : BlobKey
  lenBytes : Nat
  len_eq : lenBytes = TREE_CHUNK_BYTES

abbrev EdgeMap := OrdMap (NodeId ×ₗ Nat) NodeId

/-- Rust `CowTreePublishPlanner`, with the numbers of ids it has drawn and of reads it has made. -/
structure CowTreePublishPlanner where
  geometry : TreeGeometry
  factory : TreeRecordFactory
  oldRootNodeId : Option NodeId
  newRootNodeId : NodeId
  copiedParents : List NodeId
  newInternalEdges : NodeId → Nat → Option NodeId
  pendingEdges : EdgeMap
  records : TreeRecordBatch
  drawn : Nat
  reads : Nat

namespace CowTreePublishPlanner

/-- Rust `CowTreePublishPlanner::new`. -/
def new (ids : Nat → NodeId) (geometry : TreeGeometry) (exportId : ExportId)
    (oldRootNodeId : Option NodeId) : CowTreePublishPlanner :=
  let factory : TreeRecordFactory := ⟨geometry, .cowImmutableTree, some exportId⟩
  { geometry := geometry
    factory := factory
    oldRootNodeId := oldRootNodeId
    newRootNodeId := ids 0
    copiedParents := []
    newInternalEdges := fun _ _ => none
    pendingEdges := .empty
    records := ⟨[factory.rootNode (ids 0)], [], []⟩
    drawn := 1
    reads := 0 }

def tick (planner : CowTreePublishPlanner) : CowTreePublishPlanner :=
  { planner with reads := planner.reads + 1 }

/-- Rust `load_child_edge` of the planner. -/
def loadChildEdge (rows : TreeRows) (parent : NodeId) (slot : Nat) : Res (Option TreeEdgeRecord) :=
  rows.loadChildEdgeWith s!"node `{parent}` has duplicate edge for slot {slot}"
    s!"node `{parent}` slot {slot} returned mismatched edge row" parent slot

/-- Rust `validate_existing_node` of the planner. -/
def validateExistingNode (node : TreeNodeRecord) (span : TreeNodeSpan) : Res Unit :=
  NbdServer.validateExistingNode "COW tree" node .cowImmutableTree span .internal

/-- The loop of `copy_existing_edges_once` over the edges of the old node. -/
def copyEdges (fanout : Nat) (oldParent newParent : NodeId) : EdgeMap → List TreeEdgeRecord →
    Res EdgeMap
  | pending, [] => .ok pending
  | pending, edge :: edges =>
    if edge.parentNodeId ≠ oldParent then
      fail (invalidTree s!"node `{oldParent}` returned edge for mismatched parent `{
        edge.parentNodeId}`")
    else if edge.slot ≥ fanout then
      fail (invalidTree s!"node `{oldParent}` returned edge for invalid slot {edge.slot}")
    else copyEdges fanout oldParent newParent
      (pending.insert (toLex (newParent, edge.slot)) edge.childNodeId) edges

variable (rows : Nat → TreeRows) (ids : Nat → NodeId) (planner : CowTreePublishPlanner)

/-- The old node at the span, which is loaded and checked. -/
def checkOld (old : NodeId) (span : TreeNodeSpan) : Res CowTreePublishPlanner := do
  let node ← (rows planner.reads).loadRequiredNode old
  validateExistingNode node span
  .ok planner.tick

/-- Rust `CowTreePublishPlanner::copy_existing_edges_once`. -/
def copyExistingEdgesOnce (oldParent : Option NodeId) (newParent : NodeId) (span : TreeNodeSpan) :
    Res CowTreePublishPlanner :=
  match oldParent with
  | none => .ok planner
  | some oldParent =>
    if newParent ∈ planner.copiedParents then .ok planner
    else do
      let planner ← planner.checkOld rows oldParent span
      let edges := (rows planner.reads).loadChildEdges oldParent
        (List.range planner.geometry.fanout)
      let pending ← copyEdges planner.geometry.fanout oldParent newParent planner.pendingEdges edges
      .ok { planner.tick with
        copiedParents := newParent :: planner.copiedParents
        pendingEdges := pending }

def oldChild (oldParent : Option NodeId) (slot : Nat) :
    Res (CowTreePublishPlanner × Option NodeId) :=
  match oldParent with
  | none => .ok (planner, none)
  | some parent => do
    let edge ← loadChildEdge (rows planner.reads) parent slot
    .ok (planner.tick, edge.map (·.childNodeId))

def newLeaf (blobKey : BlobKey) (newParent : NodeId) (slot : Nat) (childSpan : TreeNodeSpan) :
    CowTreePublishPlanner :=
  let child := ids planner.drawn
  { planner with
    records := { planner.records with
      nodes := planner.records.nodes ++ [planner.factory.leafNode child childSpan]
      leafRefs := planner.records.leafRefs ++ [planner.factory.leafRef child .immutableBlob blobKey]
        }
    pendingEdges := planner.pendingEdges.insert (toLex (newParent, slot)) child
    drawn := planner.drawn + 1 }

def newInternal (newParent : NodeId) (slot : Nat) (childSpan : TreeNodeSpan) :
    CowTreePublishPlanner :=
  let child := ids planner.drawn
  { planner with
    records := { planner.records with
      nodes := planner.records.nodes ++ [planner.factory.internalNode child childSpan] }
    pendingEdges := planner.pendingEdges.insert (toLex (newParent, slot)) child
    newInternalEdges := TreeRows.setEdge planner.newInternalEdges ⟨newParent, slot, child⟩
    drawn := planner.drawn + 1 }

/-- The new internal child: the one of an earlier chunk, or one that is made after the old child was
checked. -/
def internalChild (oldChild : Option NodeId) (newParent : NodeId) (slot : Nat)
    (childSpan : TreeNodeSpan) : Res (CowTreePublishPlanner × NodeId) :=
  match planner.newInternalEdges newParent slot with
  | some child => .ok (planner, child)
  | none =>
    match oldChild with
    | none => .ok (planner.newInternal ids newParent slot childSpan, ids planner.drawn)
    | some old => do
      let planner ← planner.checkOld rows old childSpan
      .ok (planner.newInternal ids newParent slot childSpan, ids planner.drawn)

/-- The loop of `plan_chunk` over the slots of the path. -/
def planSlots (chunk : CowChunkRef) : CowTreePublishPlanner → Option NodeId → NodeId →
    TreeNodeSpan →
    List Nat → Res CowTreePublishPlanner
  | planner, _, _, _, [] => .ok planner
  | planner, oldParent, newParent, parentSpan, slot :: slots => do
    let childSpan ← planner.geometry.childSpan parentSpan slot
    let (planner, oldChild) ← planner.oldChild rows oldParent slot
    if childSpan.level = 0 then .ok (planner.newLeaf ids chunk.blobKey newParent slot childSpan)
    else do
      let (planner, newChild) ← planner.internalChild rows ids oldChild newParent slot childSpan
      let planner ← planner.copyExistingEdgesOnce rows oldChild newChild childSpan
      planSlots chunk planner oldChild newChild childSpan slots

/-- Rust `CowTreePublishPlanner::plan_chunk`. -/
def planChunk (chunk : CowChunkRef) : Res CowTreePublishPlanner := do
  let path ← planner.geometry.pathForChunk chunk.chunkIndex
  let planner ← planner.copyExistingEdgesOnce rows planner.oldRootNodeId planner.newRootNodeId
    planner.geometry.rootSpan
  planner.planSlots rows ids chunk planner.oldRootNodeId planner.newRootNodeId
    planner.geometry.rootSpan path.slots

/-- The loop of `CowTreePublishPlanner::plan_chunks` over the chunks. -/
def planChunks (chunks : List CowChunkRef) : Res CowTreePublishPlanner :=
  chunks.foldlM (fun planner chunk => planner.planChunk rows ids chunk) planner

/-- The edges that are pending, in the order of the map. -/
def edges : List TreeEdgeRecord :=
  planner.pendingEdges.entries.map fun entry =>
    TreeRecordFactory.childEdge (ofLex entry.1).1 (ofLex entry.1).2 entry.2

/-- The batch that `plan_chunks` returns; the pending edges come in any order. -/
def batch (shuffle : List TreeEdgeRecord → List TreeEdgeRecord) : TreeRecordBatch :=
  { planner.records with edges := planner.records.edges ++ shuffle planner.edges }

end CowTreePublishPlanner

end NbdServer
