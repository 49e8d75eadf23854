import NbdServer.Compaction.World

/-!
# What a step does to the stores

A step of `storeSystem` inserts an export, deletes one, starts a compaction, moves a compaction on
or replaces the root of an export (`StoreStep`). A compaction reads rows at different moments; they
all have what was there at its start, and so does the catalog at its publish (`CompactionOk.later`),
which is why its plan still fits and a publish either replaces the root or changes nothing
(`Compaction.publish_cases`).
-/

namespace NbdServer

open Lib TreeGeometry

/-! ## Heads and roots -/

lemma RootSnapshot.fromHead_eq_ok {head : ExportHead} {root : RootSnapshot} :
    RootSnapshot.fromHead head = .ok root ↔ ∃ size rootNodeId base format,
      head = .cowImmutableTree size rootNodeId base format ∧
      root = .cowHead rootNodeId base size format := by
  cases head with
  | memoryEmpty size => simp [fromHead, ExportHead.layoutKind, fail]
  | simpleMutableTree size rootNodeId format => simp [fromHead, ExportHead.layoutKind, fail]
  | cowImmutableTree size rootNodeId base format =>
    have run : fromHead (.cowImmutableTree size rootNodeId base format) =
      .ok (.cowHead rootNodeId base size format) := rfl
    rw [run]
    constructor
    · intro same
      cases same
      exact ⟨_, _, _, _, rfl, rfl⟩
    · rintro ⟨_, _, _, _, same, rfl⟩
      cases same
      rfl

lemma ExportRecord.cowRoot_eq_some {e : ExportRecord} {root : RootSnapshot} :
    e.cowRoot = some root ↔ ∃ size rootNodeId base format,
      e.head = .cowImmutableTree size rootNodeId base format ∧
      root = .cowHead rootNodeId base size format := by
  rw [← RootSnapshot.fromHead_eq_ok, cowRoot]
  cases RootSnapshot.fromHead e.head <;> simp [Except.toOption]

/-- `load_leaf` returns from the root of a head for every chunk of the export. -/
def HeadLoads (rows : TreeRows) (head : ExportHead) : Prop :=
  ∀ format, head.treeFormat = some format → ∃ g, TreeGeometry.new format head.sizeBytes = .ok g ∧
    ∀ idx, g.Valid idx → ∃ leaf,
      LazyTreeMetadataReader.loadLeaf ⟨g, head.layoutKind, head.rootNodeId⟩ rows idx = .ok leaf

structure RootHolds (rows : TreeRows) (root : RootSnapshot) (format : TreeFormat) (g : TreeGeometry)
    (leaves : Nat → Found) : Prop where
  is_format : root.treeFormat = some format
  built : TreeGeometry.new format root.sizeBytes = .ok g
  size : root.sizeBytes < I64
  holds : g.HoldsRoot .cowImmutableTree rows root.rootNodeId leaves

def RootLoads (rows : TreeRows) (root : RootSnapshot) : Prop :=
  ∃ format g leaves, RootHolds rows root format g leaves

variable {rows rows' : TreeRows} {head : ExportHead} {root : RootSnapshot}

lemma HeadLoads.later (h : HeadLoads rows head) (later : rows.Later rows') :
    HeadLoads rows' head := by
  intro format is_format
  obtain ⟨g, built, loads⟩ := h format is_format
  obtain ⟨leaves, holds⟩ := holdsRoot_of_loadLeaf loads
  exact ⟨g, built, fun idx valid => ⟨_, (holds.kept (trie_kept later)).loadLeaf_eq valid⟩⟩

lemma RootLoads.later (h : RootLoads rows root) (later : rows.Later rows') :
    RootLoads rows' root := by
  obtain ⟨format, g, leaves, is_format, built, size, holds⟩ := h
  exact ⟨format, g, leaves, is_format, built, size, holds.kept (trie_kept later)⟩

lemma HeadLoads.of_none (pos : 0 < head.sizeBytes) (size : head.sizeBytes < I64)
    (none : head.rootNodeId = none) : HeadLoads rows head := by
  intro format _
  obtain ⟨g, built⟩ := @new_eq_ok format head.sizeBytes pos (by
    have : I64 + (TREE_CHUNK_BYTES - 1) < U64 := by decide
    omega)
  refine ⟨g, built, fun idx _ => ?_⟩
  rw [none]
  exact ⟨Option.none, rfl⟩

lemma HeadLoads.rootLoads {e : ExportRecord} (h : HeadLoads rows e.head)
    (size : e.head.sizeBytes < I64) (is_root : e.cowRoot = some root) : RootLoads rows root := by
  obtain ⟨size', rootNodeId, base, format, is_head, rfl⟩ := ExportRecord.cowRoot_eq_some.1 is_root
  rw [is_head] at h size
  obtain ⟨g, built, loads⟩ := h format rfl
  obtain ⟨leaves, holds⟩ := holdsRoot_of_loadLeaf loads
  exact ⟨format, g, leaves, rfl, built, size, holds⟩

lemma StoreWorld.mem_rootsOf {exports : List ExportRecord} {id : ExportId} :
    (id, root) ∈ rootsOf exports ↔ ∃ e ∈ exports, e.cowRoot = some root ∧ e.id = id := by
  simp [rootsOf]

/-! ## What the calls do to the catalog -/

namespace Catalog

variable {db db' : Catalog}

lemma insertExport_eq_ok {record : ExportRecord} (run : db.insertExport record = .ok db') :
    db'.exports = db.exports ++ [record] ∧ db'.tables = db.tables ∧
      (∀ e ∈ db.exports, e.id ≠ record.id) ∧ StoredHead db.tables.toTreeRows record.head := by
  unfold insertExport at run
  split_ifs at run with zero fresh stored <;> cases run
  exact ⟨rfl, rfl, fun e mem => (fresh e mem).1, stored⟩

lemma createExport_eq_ok {id : ExportId} {request : CreateExport} {record : ExportRecord}
    (run : db.createExport id request = .ok (db', record)) :
    db.insertExport record = .ok db' ∧ record.id = id ∧ record.head.rootNodeId = none := by
  unfold createExport at run
  obtain ⟨sizeBytes, -, run⟩ := CatalogRes.bind_eq_ok.1 run
  obtain ⟨blockSize, -, run⟩ := CatalogRes.bind_eq_ok.1 run
  have inserted : ∀ head : ExportHead, head.rootNodeId = none → (do
      let db ← db.insertExport ⟨id, request.name, blockSize, request.engineKind, .active, head⟩
      .ok (db, ⟨id, request.name, blockSize, request.engineKind, .active, head⟩) :
        CatalogRes (Catalog × ExportRecord)) = .ok (db', record) →
      db.insertExport record = .ok db' ∧ record.id = id ∧ record.head.rootNodeId = none := by
    intro head none run
    obtain ⟨db₁, inserted, run⟩ := CatalogRes.bind_eq_ok.1 run
    cases run
    exact ⟨inserted, rfl, none⟩
  dsimp only at run
  split at run
  · obtain ⟨head, is_head, run⟩ := CatalogRes.bind_eq_ok.1 run
    obtain ⟨-, -, is_head⟩ := CatalogRes.bind_eq_ok.1 is_head
    cases is_head
    exact inserted _ rfl run
  · obtain ⟨head, is_head, run⟩ := CatalogRes.bind_eq_ok.1 run
    obtain ⟨-, -, is_head⟩ := CatalogRes.bind_eq_ok.1 is_head
    cases is_head
    exact inserted _ rfl run
  · obtain ⟨head, is_head, run⟩ := CatalogRes.bind_eq_ok.1 run
    obtain ⟨-, -, is_head⟩ := CatalogRes.bind_eq_ok.1 is_head
    cases is_head
    exact inserted _ rfl run

lemma cloneExport_eq_ok {id : ExportId} {request : CloneExport} {source record : ExportRecord}
    (run : db.cloneExport id request = .ok (db', source, record)) :
    db.insertExport record = .ok db' ∧ record.id = id ∧ source ∈ db.exports ∧
      ∃ size root base format, source.head = .cowImmutableTree size (some root) base format ∧
        record.head = .cowImmutableTree size (some root) 0 format := by
  unfold cloneExport at run
  cases found : db.findName request.source with
  | none =>
    rw [found] at run
    cases run
  | some e =>
    rw [found] at run
    dsimp only at run
    split_ifs at run
    cases is_head : e.head with
    | memoryEmpty size =>
      rw [is_head] at run
      cases run
    | simpleMutableTree size rootNodeId format =>
      rw [is_head] at run
      cases run
    | cowImmutableTree size rootNodeId base format =>
      rw [is_head] at run
      cases rootNodeId with
      | none => cases run
      | some root =>
        obtain ⟨blockSize, -, run⟩ := CatalogRes.bind_eq_ok.1 run
        obtain ⟨sizeBytes, is_size, run⟩ := CatalogRes.bind_eq_ok.1 run
        obtain ⟨db₁, inserted, run⟩ := CatalogRes.bind_eq_ok.1 run
        cases run
        unfold u64ToI64 at is_size
        split_ifs at is_size
        cases is_size
        exact ⟨inserted, rfl, (findName_eq_some.1 found).1, size, root, base, format, is_head, rfl⟩

lemma deleteExport_eq_ok {name : ExportName} (run : db.deleteExport name = .ok db') :
    db'.tables = db.tables ∧ ∃ f : ExportRecord → ExportRecord, db'.exports = db.exports.map f ∧
      ∀ e, (f e).id = e.id ∧ (f e).head = e.head := by
  unfold deleteExport at run
  cases found : db.findName name with
  | none =>
    rw [found] at run
    cases run
  | some record =>
    rw [found] at run
    dsimp only at run
    split_ifs at run
    cases run
    refine ⟨rfl, _, rfl, fun e => ?_⟩
    split_ifs <;> exact ⟨rfl, rfl⟩

end Catalog

/-- A committed publish: the head of the export was the root of the snapshot and is a new root now,
whose tree has the new chunks and otherwise the leaves of the old one. -/
structure Replaces (db db' : Catalog) (c : Compaction) (chunks : List CowChunkRef)
    (root : RootSnapshot) :
    Prop where
  published : ∃ request record, db.Published db' request record ∧ request.exportId = c.exportId ∧
    RootSnapshot.fromHead request.expectedHead = .ok c.snapshot.root ∧
    RootSnapshot.fromHead request.nextHead = .ok root
  later : db.tables.toTreeRows.Later db'.tables.toTreeRows
  base : root.baseWalSeq = c.snapshot.targetWalSeq
  tree : ∃ format g leaves₀ leaves, RootHolds c.tables.toTreeRows c.snapshot.root format g leaves₀ ∧
    RootHolds db'.tables.toTreeRows root format g leaves ∧ NewLeaves chunks leaves₀ leaves

/-- The chunks that a compaction has written: chunks of the export, by their index. -/
def RefsOk (size : Nat) (refs : OrdMap Nat CowChunkRef) : Prop :=
  ∀ k ref, refs.find k = some ref → ref.chunkIndex = k ∧ k * TREE_CHUNK_BYTES < size

lemma RefsOk.indices {size : Nat} {refs : OrdMap Nat CowChunkRef} (h : RefsOk size refs) :
    (refs.entries.map (·.2)).map (·.chunkIndex) = refs.entries.map (·.1) := by
  rw [List.map_map]
  refine List.map_congr_left fun entry mem => ?_
  exact (h entry.1 entry.2 (OrdMap.find_eq_some.2 mem)).1

lemma RefsOk.distinct {size : Nat} {refs : OrdMap Nat CowChunkRef} (h : RefsOk size refs) :
    ((refs.entries.map (·.2)).map (·.chunkIndex)).Nodup := by
  rw [h.indices]
  exact List.pairwise_map.2 (refs.ordered.imp fun lt => lt.ne)

section Publish

variable {c : Compaction} {db db' : Catalog} {chunks : ChunkImages} {refs : OrdMap Nat CowChunkRef}
variable {reads : Nat → TreeRows} {ids : Nat → NodeId}
variable {shuffle : List TreeEdgeRecord → List TreeEdgeRecord} {result : Res CompactionResult}

def Compaction.request (c : Compaction) (format : TreeFormat) (newRoot : NodeId)
    (records : TreeRecordBatch) :
    PublishTreeUpdate :=
  ⟨c.exportId, .cowImmutableTree c.snapshot.root.sizeBytes c.snapshot.root.rootNodeId
    c.snapshot.root.baseWalSeq format,
    .cowImmutableTree c.snapshot.root.sizeBytes (some newRoot) c.snapshot.targetWalSeq format,
      records⟩

lemma RootSnapshot.eq_cowHead {root : RootSnapshot} {format : TreeFormat}
    (is_format : root.treeFormat = some format) :
    root = .cowHead root.rootNodeId root.baseWalSeq root.sizeBytes format := by
  cases root with
  | zero => cases is_format
  | cowHead => cases is_format; rfl

lemma Compaction.planned (loads : RootLoads c.tables.toTreeRows c.snapshot.root)
    (ok : RefsOk c.snapshot.root.sizeBytes refs) (seen : ∀ k, c.tables.toTreeRows.Later (reads k))
    (later : c.tables.toTreeRows.Later db.tables.toTreeRows)
    (unused : FreshIds ids db.tables.toTreeRows) (perm : ∀ l, (shuffle l).Perm l)
    (some_chunk : refs.entries ≠ []) :
    ∃ format g leaves₀ leaves records, RootHolds c.tables.toTreeRows c.snapshot.root format g
      leaves₀ ∧
      (∀ db', c.publish chunks refs reads ids shuffle db' =
        ((db'.publishTreeUpdate (c.request format (ids 0) records)).1,
          (publishResult (db'.publishTreeUpdate (c.request format (ids 0) records)).2).map
            fun (outcome, root) => c.result chunks.visibleRecords.entries.length refs.entries.length
              outcome root)) ∧
      NewLeaves (refs.entries.map (·.2)) leaves₀ leaves ∧
      Publishable g db.tables leaves (c.request format (ids 0) records) := by
  obtain ⟨format, g, leaves₀, tree⟩ := loads
  have valid : ∀ chunk ∈ refs.entries.map (·.2), g.Valid chunk.chunkIndex := by
    intro chunk mem
    obtain ⟨entry, is, rfl⟩ := List.mem_map.1 mem
    obtain ⟨index, inside⟩ := ok entry.1 entry.2 (OrdMap.find_eq_some.2 is)
    show entry.2.chunkIndex * TREE_CHUNK_BYTES < g.sizeBytes
    rw [index, (of_new tree.built).1]
    exact inside
  have some_ref : refs.entries.map (·.2) ≠ [] := fun none => some_chunk (List.map_eq_nil_iff.1 none)
  obtain ⟨records, leaves, request, new, publishable⟩ := publishRequest_spec c.exportId
    c.snapshot.targetWalSeq tree.is_format tree.built tree.size tree.holds some_ref ok.distinct
      valid seen
    later unused perm
  refine ⟨format, g, leaves₀, leaves, records, tree, fun db' => ?_, new, publishable⟩
  unfold Compaction.publish publishLazyCompaction
  rw [if_neg (by rwa [List.isEmpty_iff]), request]
  rfl

lemma Compaction.publish_cases (loads : RootLoads c.tables.toTreeRows c.snapshot.root)
    (ok : RefsOk c.snapshot.root.sizeBytes refs) (seen : ∀ k, c.tables.toTreeRows.Later (reads k))
    (later : c.tables.toTreeRows.Later db.tables.toTreeRows)
    (unused : FreshIds ids db.tables.toTreeRows) (perm : ∀ l, (shuffle l).Perm l)
    (run : c.publish chunks refs reads ids shuffle db = (db', result)) :
    (db' = db ∧ (∀ r, result = .ok r → r.outcome ≠ .published) ∧
        ∀ fault, result = .error fault → ∃ e, fault = .err e) ∨
      ∃ root, result =
      .ok (c.result chunks.visibleRecords.entries.length refs.entries.length .published
          (some root)) ∧ Replaces db db' c (refs.entries.map (·.2)) root := by
  by_cases empty : refs.entries = []
  · unfold Compaction.publish publishLazyCompaction at run
    rw [empty, List.map_nil, List.isEmpty_nil, if_pos rfl] at run
    cases run
    refine .inl ⟨rfl, ?_, fun fault failed => by cases failed⟩
    intro r same
    cases same
    exact fun no => by cases no
  · obtain ⟨format, g, leaves₀, leaves, records, tree, call, new, publishable⟩ :=
      Compaction.planned loads ok seen later unused perm empty
    rw [call] at run
    rcases db.publishTreeUpdate_cases (c.request format (ids 0) records) with
      ⟨db₁, record, call, published⟩ | ⟨e, call⟩ | ⟨current, call, -⟩
    · rw [call] at run
      obtain ⟨e, -, -, -, is_record⟩ := published.was
      have is_head := congrArg ExportRecord.head is_record
      dsimp only at is_head
      simp only [publishResult, ofCatalog, Res.ok_bind, is_head] at run
      cases run
      refine .inr ⟨.cowHead (some (ids 0)) c.snapshot.targetWalSeq c.snapshot.root.sizeBytes format,
        rfl, ⟨_, record, published, rfl, ?_, rfl⟩, ?_, rfl, ?_⟩
      · rw [RootSnapshot.fromHead_eq_ok]
        exact ⟨_, _, _, _, rfl, RootSnapshot.eq_cowHead tree.is_format⟩
      · rw [published.rows]
        exact publishable.later
      · refine ⟨format, g, leaves₀, leaves, tree, ⟨rfl, tree.built, tree.size, ?_⟩, new⟩
        rw [published.rows]
        exact publishable.tree
    · rw [call] at run
      cases run
      refine .inl ⟨rfl, fun r same => (by cases same), ?_⟩
      intro fault failed
      cases failed
      exact ⟨_, rfl⟩
    · rw [call] at run
      cases run
      refine .inl ⟨rfl, ?_, fun fault failed => by cases failed⟩
      intro r same
      cases same
      exact fun no => by cases no

lemma Compaction.publish_current {current : ExportRecord}
    (loads : RootLoads c.tables.toTreeRows c.snapshot.root)
    (ok : RefsOk c.snapshot.root.sizeBytes refs) (seen : ∀ k, c.tables.toTreeRows.Later (reads k))
    (later : c.tables.toTreeRows.Later db.tables.toTreeRows)
    (unused : FreshIds ids db.tables.toTreeRows) (perm : ∀ l, (shuffle l).Perm l)
    (some_chunk : refs.entries ≠ []) (found : db.find c.exportId = some current)
    (active : current.state ≠ .deleted) (is_root : current.cowRoot = some c.snapshot.root)
    (fits : c.snapshot.targetWalSeq < I64) :
    ∃ db' format, c.publish chunks refs reads ids shuffle db = (db', .ok (c.result
      chunks.visibleRecords.entries.length refs.entries.length .published (some (.cowHead
        (some (ids 0)) c.snapshot.targetWalSeq c.snapshot.root.sizeBytes format)))) := by
  obtain ⟨format, g, leaves₀, leaves, records, tree, call, new, publishable⟩ :=
    @Compaction.planned c db chunks refs reads ids shuffle loads ok seen later unused perm
      some_chunk
  have head : current.head = (c.request format (ids 0) records).expectedHead := by
    obtain ⟨size, rootNodeId, base, format', is_head, same⟩ :=
      ExportRecord.cowRoot_eq_some.1 is_root
    have is_format := tree.is_format
    rw [is_head, Compaction.request, same]
    rw [same] at is_format
    cases is_format
    rfl
  have stored : StoredHead (db.tables.toTreeRows.add records)
      (c.request format (ids 0) records).nextHead := by
    have pos : 0 < c.snapshot.root.sizeBytes := (of_new tree.built).1 ▸ g.size_pos
    refine ⟨pos, tree.size, fits, ?_⟩
    intro root is
    cases is
    exact publishable.tree.root_isSome
  obtain ⟨db', record, outcome, published⟩ := db.publishTreeUpdate_of_accepts _ found active head
    (publishable.accepts db.hasExport (by rw [Catalog.hasExport]; exact found ▸ rfl)) stored
  obtain ⟨e, -, -, -, is_record⟩ := published.was
  have is_head := congrArg ExportRecord.head is_record
  refine ⟨db', format, ?_⟩
  dsimp only at is_head
  simp only [call, outcome, publishResult, ofCatalog, Res.ok_bind, is_head]
  rfl

lemma Compaction.publish_stale {current : ExportRecord}
    (loads : RootLoads c.tables.toTreeRows c.snapshot.root)
    (ok : RefsOk c.snapshot.root.sizeBytes refs) (seen : ∀ k, c.tables.toTreeRows.Later (reads k))
    (later : c.tables.toTreeRows.Later db.tables.toTreeRows)
    (unused : FreshIds ids db.tables.toTreeRows) (perm : ∀ l, (shuffle l).Perm l)
    (some_chunk : refs.entries ≠ []) (found : db.find c.exportId = some current)
    (active : current.state ≠ .deleted) (other : current.cowRoot ≠ some c.snapshot.root) :
    c.publish chunks refs reads ids shuffle db = (db, .ok (c.result
      chunks.visibleRecords.entries.length refs.entries.length .stalePlan none)) := by
  obtain ⟨format, g, leaves₀, leaves, records, tree, call, -, -⟩ :=
    @Compaction.planned c db chunks refs reads ids shuffle loads ok seen later unused perm
      some_chunk
  have head : current.head ≠ (c.request format (ids 0) records).expectedHead := by
    intro same
    refine other (ExportRecord.cowRoot_eq_some.2 ⟨_, _, _, _, same, ?_⟩)
    exact RootSnapshot.eq_cowHead tree.is_format
  have stale : db.publishTreeUpdate (c.request format (ids 0) records) =
      (db, .ok (.staleHead current)) := by
    have found : db.find (c.request format (ids 0) records).exportId = some current := found
    unfold Catalog.publishTreeUpdate
    simp only [found, if_neg active, if_pos head]
  rw [call, stale]
  rfl

end Publish

/-! ## What is known of a compaction -/

/-- The phase of a compaction fits what it started with. -/
def Compaction.PhaseOk (c : Compaction) : Prop :=
  match c.phase with
  | .imaging seen => c.snapshot.root.baseWalSeq < c.snapshot.targetWalSeq ∧
      ∀ s ∈ seen, c.tables.toTreeRows.Later s.rows
  | .writing _ left refs seen => c.snapshot.root.baseWalSeq < c.snapshot.targetWalSeq ∧
      (∀ entry ∈ left, entry.1 * TREE_CHUNK_BYTES < c.snapshot.root.sizeBytes) ∧
      RefsOk c.snapshot.root.sizeBytes refs ∧ ∀ r ∈ seen, c.tables.toTreeRows.Later r
  | .done _ => True

/-- What is known of a compaction: its root loads, and the rows of its start are there. -/
structure CompactionOk (now : TreeRows) (c : Compaction) : Prop where
  later : c.tables.toTreeRows.Later now
  loads : RootLoads c.tables.toTreeRows c.snapshot.root
  phase : c.PhaseOk

lemma CompactionOk.mono {rows rows' : TreeRows} {c : Compaction} (h : CompactionOk rows c)
    (later : rows.Later rows') : CompactionOk rows' c := ⟨h.later.trans later, h.loads, h.phase⟩

lemma StoreWorld.atRead_all {α : Type} {P : α → Prop} {now : α} {seen : List α} (h : P now)
    (all : ∀ s ∈ seen, P s) (k : Nat) : P (atRead seen now k) := by
  unfold atRead
  cases found : seen[k]? with
  | none => exact h
  | some s => exact all s (List.mem_of_getElem? found)

/-! ## The steps -/

/-- The steps of a compaction that leave the catalog as it is: its next phase and the blobs after
it. -/
inductive Compaction.Moves (now : Stores) (c : Compaction) : CompactionPhase → Blobs → Prop
  | seeStores {seen : List Stores} (phase : c.phase = .imaging seen) :
    Moves now c (.imaging (seen ++ [now])) now.blobs
  | seeRows {chunks : ChunkImages} {refs : OrdMap Nat CowChunkRef} {seen : List TreeRows}
      (phase : c.phase = .writing chunks [] refs seen) :
    Moves now c (.writing chunks [] refs (seen ++ [now.rows])) now.blobs
  | images {seen : List Stores} {chunks : ChunkImages} (phase : c.phase = .imaging seen)
      (run : ChunkImages.applySlices (StoreWorld.atRead seen now) c.snapshot.root
        c.snapshot.targetWalSeq c.snapshot.overlay.allSlices = .ok chunks) :
    Moves now c (.writing chunks chunks.images.entries .empty []) now.blobs
  | imageFault {seen : List Stores} {fault : Fault} (phase : c.phase = .imaging seen)
      (run : ChunkImages.applySlices (StoreWorld.atRead seen now) c.snapshot.root
        c.snapshot.targetWalSeq c.snapshot.overlay.allSlices = .error fault) :
    Moves now c (.done (.error fault)) now.blobs
  | put {chunks : ChunkImages} {idx : Nat} {data : Buf} {left : List (Nat × Buf)}
      {refs : OrdMap Nat CowChunkRef} {seen : List TreeRows} {draw : Nat → BlobKey} {blobs : Blobs}
      {key : BlobKey} (phase : c.phase = .writing chunks ((idx, data) :: left) refs seen)
      (run : now.blobs.putRandomBlob draw data = .ok (blobs, key)) :
    Moves now c (.writing chunks left (refs.insert idx ⟨idx, key, TREE_CHUNK_BYTES, rfl⟩) seen)
      blobs
  | unpublished {result : Res CompactionResult} (other : ∀ r, result = .ok r →
      r.outcome ≠ .published)
      (errors : ∀ fault, result = .error fault → ∃ e, fault = .err e) :
    Moves now c (.done result) now.blobs

lemma Compaction.Moves.fails {now : Stores} {c : Compaction} (error : ServerError) :
    c.Moves now (.done (fail error)) now.blobs :=
  .unpublished (fun r same => (by cases same)) fun fault same => by cases same; exact ⟨error, rfl⟩

lemma CompactionOk.moves {now : Stores} {c : Compaction} {phase : CompactionPhase} {blobs : Blobs}
    (h : CompactionOk now.rows c) (moves : c.Moves now phase blobs) :
    Compaction.PhaseOk { c with phase := phase } := by
  obtain ⟨later, -, ok⟩ := h
  unfold Compaction.PhaseOk at ok
  cases moves with
  | seeStores is =>
    rw [is] at ok
    refine ⟨ok.1, fun s mem => ?_⟩
    rcases List.mem_append.1 mem with mem | mem
    · exact ok.2 s mem
    · rw [List.mem_singleton.1 mem]
      exact later
  | seeRows is =>
    rw [is] at ok
    obtain ⟨lt, left, refs_ok, all⟩ := ok
    refine ⟨lt, left, refs_ok, fun r mem => ?_⟩
    rcases List.mem_append.1 mem with mem | mem
    · exact all r mem
    · rw [List.mem_singleton.1 mem]
      exact later
  | images is run =>
    rw [is] at ok
    refine ⟨ok.1, fun entry mem => ?_, fun k ref is => (by cases is), by simp⟩
    exact ChunkImages.applySlices_inside run entry.1 entry.2 (OrdMap.find_eq_some.2 mem)
  | imageFault => trivial
  | @put chunks idx data left refs seen draw blobs key is run =>
    rw [is] at ok
    obtain ⟨lt, inside, refs_ok, all⟩ := ok
    refine ⟨lt, fun entry mem => inside entry (List.mem_cons_of_mem _ mem), ?_, all⟩
    intro k ref is
    rw [OrdMap.find_insert] at is
    split_ifs at is with same
    · cases is
      refine ⟨same.symm, ?_⟩
      rw [same]
      exact inside (idx, data) List.mem_cons_self
    · exact refs_ok k ref is
  | unpublished => trivial

/-- The head of a new export: it has no root, or the tree of another export. -/
def NewHead (exports : List ExportRecord) (head : ExportHead) : Prop :=
  head.rootNodeId = none ∨ ∃ source ∈ exports, ∃ size root base format,
    source.head = .cowImmutableTree size (some root) base format ∧
      head = .cowImmutableTree size (some root) 0 format

inductive StoreStep (w : StoreWorld) : StoreWorld → Prop
  | same : StoreStep w w
  | insert {db : Catalog} {record : ExportRecord} (inserted : w.db.insertExport record = .ok db)
      (origin : NewHead w.db.exports record.head) : StoreStep w (w.withExport db record)
  | delete {db : Catalog} {f : ExportRecord → ExportRecord} (tables : db.tables = w.db.tables)
      (exports : db.exports = w.db.exports.map f) (same : ∀ e, (f e).id = e.id ∧
        (f e).head = e.head) :
    StoreStep w { w with db := db }
  | start {exportId : ExportId} {snapshot : CompactionSnapshot} (legal : (exportId, snapshot.root) ∈
      w.roots) :
    StoreStep w { w with
      compactions := w.compactions ++ [.start exportId snapshot w.db.tables w.blobs] }
  | move {i : Nat} {c : Compaction} {phase : CompactionPhase} {blobs : Blobs}
      (found : w.compactions[i]? = some c) (moves : c.Moves w.stores phase blobs) :
    StoreStep w { w.setPhase i c phase with blobs := blobs }
  | publish {i : Nat} {c : Compaction} {chunks : ChunkImages} {refs : OrdMap Nat CowChunkRef}
      {seen : List TreeRows} {db : Catalog} {root : RootSnapshot} {reported : Res CompactionResult}
      (found : w.compactions[i]? = some c) (phase : c.phase = .writing chunks [] refs seen)
      (lt : c.snapshot.root.baseWalSeq < c.snapshot.targetWalSeq)
      (replaces : Replaces w.db db c (refs.entries.map (·.2)) root)
      (reported_eq :
        reported = .ok (c.result chunks.visibleRecords.entries.length refs.entries.length .published
          (some root)) ∨ ∃ e, reported = fail e) :
    StoreStep w { w.setPhase i c (.done reported) with
      db := db
      roots := w.roots ++ [(c.exportId, root)]
      publications := w.publications ++ [⟨c.exportId, c.snapshot, root⟩] }

namespace StoreStep

variable {w w' : StoreWorld}

lemma of_publish (ok : ∀ c ∈ w.compactions, CompactionOk w.stores.rows c) {i : Nat}
    {ids : Nat → NodeId} {shuffle : List TreeEdgeRecord → List TreeEdgeRecord} {lost : Bool}
    (unused : FreshIds ids w.stores.rows) (perm : ∀ l, (shuffle l).Perm l)
    (st : w.next (.publish i ids shuffle lost) = some w') : StoreStep w w' := by
  rw [StoreWorld.next] at st
  obtain ⟨c, found, st⟩ := Option.bind_eq_some_iff.1 st
  obtain ⟨later, loads, phase_ok⟩ := ok c (List.mem_of_getElem? found)
  unfold Compaction.PhaseOk at phase_ok
  split at st
  · rename_i chunks refs seen phase
    rw [phase] at phase_ok
    obtain ⟨lt, -, refs_ok, all⟩ := phase_ok
    cases run : c.publish chunks refs (StoreWorld.atRead seen w.stores.rows) ids shuffle w.db with
    | mk db result =>
      rw [run] at st
      cases st
      rcases Compaction.publish_cases loads refs_ok (StoreWorld.atRead_all later all) later unused
        perm run with
        ⟨rfl, other, errors⟩ | ⟨root, rfl, replaces⟩
      · have same : ∀ w : StoreWorld, w.record c result = w := by
          intro w
          unfold StoreWorld.record
          split
          · exact absurd rfl (other _ rfl)
          · rfl
        rw [same]
        cases lost with
        | true => exact .move found (.fails _)
        | false => exact .move found (.unpublished other errors)
      · cases lost with
        | true => exact .publish found phase lt replaces (.inr ⟨_, rfl⟩)
        | false => exact .publish found phase lt replaces (.inl rfl)
  · cases st

lemma of_next (ok : ∀ c ∈ w.compactions, CompactionOk w.stores.rows c) {e : StoreEvent}
    (legal : w.Legal e) (st : w.next e = some w') : StoreStep w w' := by
  cases e with
  | create id request =>
    rw [StoreWorld.next] at st
    split at st <;> cases st
    · rename_i run
      obtain ⟨inserted, -, none⟩ := Catalog.createExport_eq_ok run
      exact .insert inserted (.inl none)
    · exact .same
  | clone id request =>
    rw [StoreWorld.next] at st
    split at st <;> cases st
    · rename_i run
      obtain ⟨inserted, -, mem, origin⟩ := Catalog.cloneExport_eq_ok run
      exact .insert inserted (.inr ⟨_, mem, origin⟩)
    · exact .same
  | delete name =>
    rw [StoreWorld.next] at st
    split at st <;> cases st
    · rename_i run
      obtain ⟨tables, f, exports, same⟩ := Catalog.deleteExport_eq_ok run
      exact .delete tables exports same
    · exact .same
  | start exportId snapshot =>
    cases st
    exact .start legal
  | observe i =>
    rw [StoreWorld.next] at st
    obtain ⟨c, found, st⟩ := Option.bind_eq_some_iff.1 st
    split at st <;> cases st
    · exact .move found (.seeStores ‹_›)
    · exact .move found (.seeRows ‹_›)
  | image i =>
    rw [StoreWorld.next] at st
    obtain ⟨c, found, st⟩ := Option.bind_eq_some_iff.1 st
    split at st <;> cases st
    unfold Compaction.images
    split
    · exact .move found (.images ‹_› ‹_›)
    · exact .move found (.imageFault ‹_› ‹_›)
  | put i draw =>
    rw [StoreWorld.next] at st
    obtain ⟨c, found, st⟩ := Option.bind_eq_some_iff.1 st
    split at st
    · rename_i phase
      split at st <;> cases st
      · exact .move found (.put phase ‹_›)
      · rename_i run
        obtain ⟨error, rfl⟩ := Blobs.putRandomBlob_error run
        exact .move found (.fails error)
    · cases st
  | publish i ids shuffle lost => exact of_publish ok legal.1 legal.2 st
  | stop i error =>
    rw [StoreWorld.next] at st
    obtain ⟨c, found, st⟩ := Option.bind_eq_some_iff.1 st
    split at st <;> cases st
    exact .move found (.fails error)

end StoreStep

end NbdServer
