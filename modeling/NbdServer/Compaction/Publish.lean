import NbdServer.Compaction.Plan
import NbdServer.Compaction.Stores

/-!
# The publication of a compaction

Model of `publish_lazy_compaction` of `wal_durable/compaction.rs`: the new chunks are planned, with
reads of the catalog at different moments, and the plan is sent to the catalog in one transaction.
What is planned for a well-formed root is accepted, whatever other exports published meanwhile
(`publishRequest_spec`).
-/

namespace NbdServer

open Lib TreeGeometry

/-- Rust `CompactionOutcome`. -/
inductive CompactionOutcome where
  | published
  | stalePlan
  | noRecords
  deriving DecidableEq, Repr

section Model

variable (rows : Nat → TreeRows) (ids : Nat → NodeId)
    (shuffle : List TreeEdgeRecord → List TreeEdgeRecord)
variable (exportId : ExportId) (root : RootSnapshot) (compactedThrough : Nat)
    (chunks : List CowChunkRef)

/-- The part of `publish_lazy_compaction` before the call of `publish_tree_update`. -/
def publishRequest : Res PublishTreeUpdate := do
  let treeFormat ← okOr root.treeFormat (.catalog "COW compaction root is missing tree format")
  let geometry ← TreeGeometry.new treeFormat root.sizeBytes
  let planner ← (CowTreePublishPlanner.new ids geometry exportId root.rootNodeId).planChunks rows
    ids chunks
  let nextHead ← ofCatalog (ExportHead.newWithTreeFormat .cowImmutableTree
    (some planner.newRootNodeId) root.sizeBytes compactedThrough (some treeFormat))
  let expectedHead ← root.toExportHead
  .ok ⟨exportId, expectedHead, nextHead, planner.batch shuffle⟩

/-- The part of `publish_lazy_compaction` after the call of `publish_tree_update`. -/
def publishResult (outcome : CatalogRes PublishTreeUpdateOutcome) :
    Res (CompactionOutcome × Option RootSnapshot) := do
  match ← ofCatalog outcome with
  | .published record =>
    let published ← RootSnapshot.fromHead record.head
    .ok (.published, some published)
  | .staleHead _ => .ok (.stalePlan, none)

/-- Rust `publish_lazy_compaction`. -/
def publishLazyCompaction (db : Catalog) :
    Catalog × Res (CompactionOutcome × Option RootSnapshot) :=
  if chunks.isEmpty then (db, .ok (.noRecords, none))
  else
    match publishRequest rows ids shuffle exportId root compactedThrough chunks with
    | .error fault => (db, .error fault)
    | .ok request =>
      let (db, outcome) := db.publishTreeUpdate request
      (db, publishResult outcome)

end Model

variable {t t' : TreeTables} {g : TreeGeometry} {format : TreeFormat} {leaves₀ : Nat → Found}
variable {rows : Nat → TreeRows} {ids : Nat → NodeId}
    {shuffle : List TreeEdgeRecord → List TreeEdgeRecord}
variable {root : RootSnapshot} {chunks : List CowChunkRef}

/-- The tree of a root with new leaves for some chunks. -/
structure NewLeaves (chunks : List CowChunkRef) (leaves₀ leaves : Nat → Found) : Prop where
  made : ∀ chunk ∈ chunks, ∃ leaf, leaves chunk.chunkIndex = some leaf ∧
    CowTreePublishPlanner.IsLeafOf chunk leaf
  kept : ∀ idx, idx ∉ chunks.map (·.chunkIndex) → leaves idx = leaves₀ idx

/-- A request that the catalog accepts in the tables `t'` and that adds to them the tree of its new
root. -/
structure Publishable (g : TreeGeometry) (t' : TreeTables) (leaves : Nat → Found)
    (request : PublishTreeUpdate) : Prop where
  accepts : ∀ has : ExportId → Bool, has request.exportId = true →
    TreeTables.Accepts has t'.toTreeRows request.records
  later : t'.toTreeRows.Later (t'.toTreeRows.add request.records)
  tree : g.HoldsRoot .cowImmutableTree (t'.toTreeRows.add request.records)
    request.nextHead.rootNodeId leaves

lemma RootSnapshot.toExportHead_eq {root : RootSnapshot} (pos : 0 < root.sizeBytes)
    (is_format : root.treeFormat = some format) : root.toExportHead =
      .ok (.cowImmutableTree root.sizeBytes root.rootNodeId root.baseWalSeq format) := by
  rw [RootSnapshot.toExportHead, is_format, ExportHead.newWithTreeFormat_cow pos]
  rfl

/-- Distinct chunks of a well-formed root are planned, and the plan can be published. The rows may
have grown while the planner read them and until the publish. -/
lemma publishRequest_spec (exportId : ExportId) (target : Nat)
    (is_format : root.treeFormat = some format)
    (built : TreeGeometry.new format root.sizeBytes = .ok g) (size : root.sizeBytes < I64)
    (holds : g.HoldsRoot .cowImmutableTree t.toTreeRows root.rootNodeId leaves₀)
    (some_chunk : chunks ≠ []) (distinct : (chunks.map (·.chunkIndex)).Nodup)
    (valid : ∀ chunk ∈ chunks, g.Valid chunk.chunkIndex) (reads : ∀ k, t.toTreeRows.Later (rows k))
    (later : t.toTreeRows.Later t'.toTreeRows) (unused : FreshIds ids t'.toTreeRows)
    (perm : ∀ l, (shuffle l).Perm l) :
    ∃ records leaves, publishRequest rows ids shuffle exportId root target chunks = .ok
        ⟨exportId, .cowImmutableTree root.sizeBytes root.rootNodeId root.baseWalSeq format,
          .cowImmutableTree root.sizeBytes (some (ids 0)) target format, records⟩ ∧
      NewLeaves chunks leaves₀ leaves ∧
      Publishable g t' leaves
        ⟨exportId, .cowImmutableTree root.sizeBytes root.rootNodeId root.baseWalSeq format,
          .cowImmutableTree root.sizeBytes (some (ids 0)) target format, records⟩ := by
  obtain ⟨is_size, -⟩ := of_new built
  have pos : 0 < root.sizeBytes := is_size ▸ g.size_pos
  have unused₀ := unused.earlier later
  have ready : CowTreePublishPlanner.Ready rows t (fun _ => true) g exportId ids root.rootNodeId
      (.new ids g exportId root.rootNodeId) leaves₀ :=
    CowTreePublishPlanner.ready_new reads unused₀ (is_size ▸ size) rfl holds
  obtain ⟨planner, leaves, run, new_root, inv, made, kept⟩ :=
    CowTreePublishPlanner.planChunks_spec reads unused₀
    (is_size ▸ size) rfl holds ready some_chunk distinct valid
  have head : ExportHead.newWithTreeFormat .cowImmutableTree (some planner.newRootNodeId)
      root.sizeBytes target (some format) =
        .ok (.cowImmutableTree root.sizeBytes (some (ids 0)) target format) := by
    rw [ExportHead.newWithTreeFormat_cow pos, new_root]
  refine ⟨planner.batch shuffle, leaves, ?_, ⟨made, kept⟩, ?_, ?_, ?_⟩
  · rw [publishRequest, is_format, okOr_some, Res.ok_bind, built, Res.ok_bind, run, Res.ok_bind,
      head, ofCatalog, Res.ok_bind, RootSnapshot.toExportHead_eq pos is_format, Res.ok_bind]
  · exact fun has owner => inv.accepts_batch perm later unused has owner
  · exact inv.later_add perm later unused
  · have planned : g.HoldsRoot .cowImmutableTree (planner.view t.toTreeRows)
      (some planner.newRootNodeId)
      leaves := inv.holds
    rw [new_root] at planned
    exact planned.kept (trie_kept (inv.later_batch perm later unused))

end NbdServer
