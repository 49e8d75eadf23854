import NbdServer.Catalog.Store
import NbdServer.Tree.Edit

/-!
# The simple mutable tree

Model of `simple_durable/mutable_tree.rs`: the tree of an export whose chunks are blobs that are
replaced in place. `lookup_chunk` walks the tree and remembers what it found; `commit_new_chunks`
plans rows for chunks that are not there yet and publishes them. New rows are linked below the nodes
that exist, so the tree of the catalog itself changes; the rows of the batch so far, on top of those
of the catalog, are a tree at every moment of the planning (`PlanInv`).

The model of a call takes the ids that it draws as a stream. The commit lock makes the calls of
`commit_new_chunks` on one tree follow each other, so a call is a function.
-/

namespace NbdServer

open Lib

/-- Rust `SIMPLE_CHUNK_BYTES`. -/
def SIMPLE_CHUNK_BYTES : Nat := TREE_CHUNK_BYTES

/-- Rust `SimpleChunkRef`. -/
structure SimpleChunkRef where
  chunkIndex : Nat
  blobKey : BlobKey
  lenBytes : Nat
  len_eq : lenBytes = SIMPLE_CHUNK_BYTES
  deriving DecidableEq

/-- Rust `SimpleChunkRef::new`. -/
def SimpleChunkRef.new (chunkIndex : Nat) (blobKey : BlobKey) (lenBytes : Nat) :
    CatalogRes SimpleChunkRef :=
  if len : lenBytes ≠ SIMPLE_CHUNK_BYTES then
    .error (.invalidField "len_bytes" s!"simple chunks must be exactly {SIMPLE_CHUNK_BYTES} bytes")
  else .ok ⟨chunkIndex, blobKey, lenBytes, not_not.1 len⟩

/-- Rust `SimpleTreeState`. -/
structure SimpleTreeState where
  exportId : ExportId
  sizeBytes : Nat
  rootNodeId : Option NodeId
  treeFormat : TreeFormat
  chunks : Nat → Option SimpleChunkRef

/-- Rust `SimpleMutableTree`: its state and the catalog. -/
structure SimpleMutableTree where
  catalog : Catalog
  state : SimpleTreeState

/-- Rust `SimpleTreeState::export_head`. -/
def SimpleTreeState.exportHead (s : SimpleTreeState) : CatalogRes ExportHead :=
  ExportHead.newWithTreeFormat .simpleMutableTree s.rootNodeId s.sizeBytes 0 (some s.treeFormat)

/-- Rust `SimpleTreeCommitPlanner`, with the number of ids it has drawn. -/
structure SimpleTreeCommitPlanner where
  geometry : TreeGeometry
  factory : TreeRecordFactory
  rootNodeId : Option NodeId
  pendingNodes : List NodeId
  pendingEdges : NodeId → Nat → Option NodeId
  records : TreeRecordBatch
  drawn : Nat

namespace SimpleTreeCommitPlanner

/-- Rust `SimpleTreeCommitPlanner::new`. -/
def new (geometry : TreeGeometry) (state : SimpleTreeState) : SimpleTreeCommitPlanner where
  geometry := geometry
  factory := ⟨geometry, .simpleMutableTree, some state.exportId⟩
  rootNodeId := state.rootNodeId
  pendingNodes := []
  pendingEdges := fun _ _ => none
  records := .default
  drawn := 0

variable (rows : TreeRows) (ids : Nat → NodeId) (planner : SimpleTreeCommitPlanner)

/-- Rust `SimpleTreeCommitPlanner::ensure_root`. -/
def ensureRoot : SimpleTreeCommitPlanner × NodeId :=
  match planner.rootNodeId with
  | some root => (planner, root)
  | none =>
    let root := ids planner.drawn
    ({ planner with
        records := { planner.records with
          nodes := planner.records.nodes ++ [planner.factory.rootNode root] }
        pendingNodes := root :: planner.pendingNodes
        rootNodeId := some root
        drawn := planner.drawn + 1 }, root)

/-- Rust `load_child_edge` of the planner. -/
def loadChildEdge (parent : NodeId) (slot : Nat) : Res (Option TreeEdgeRecord) :=
  rows.loadChildEdgeWith s!"node `{parent}` has duplicate edge for slot {slot}"
    s!"node `{parent}` slot {slot} returned mismatched edge row" parent slot

/-- The child that the catalog has below a parent that is not new. -/
def existingChild (chunkIndex : Nat) (parent : NodeId) (slot : Nat) (childSpan : TreeNodeSpan) :
    Res (Option NodeId) :=
  if parent ∈ planner.pendingNodes then .ok none
  else do
    match ← loadChildEdge rows parent slot with
    | none => .ok none
    | some edge =>
      if childSpan.level = 0 then
        fail (.catalog s!"chunk {chunkIndex} is already materialized")
      else do
        let child ← rows.loadRequiredNode edge.childNodeId
        validateExistingNode "simple tree" child .simpleMutableTree childSpan .internal
        .ok (some edge.childNodeId)

def addChild (blobKey : BlobKey) (parent : NodeId) (slot : Nat) (childSpan : TreeNodeSpan)
    (child : NodeId) : TreeRecordBatch :=
  let edges := planner.records.edges ++ [TreeRecordFactory.childEdge parent slot child]
  if childSpan.level = 0 then
    { nodes := planner.records.nodes ++ [planner.factory.leafNode child childSpan]
      leafRefs := planner.records.leafRefs ++ [planner.factory.leafRef child .mutableBlob blobKey]
      edges := edges }
  else
    { nodes := planner.records.nodes ++ [planner.factory.internalNode child childSpan]
      leafRefs := planner.records.leafRefs
      edges := edges }

def newChild (blobKey : BlobKey) (parent : NodeId) (slot : Nat) (childSpan : TreeNodeSpan) :
    SimpleTreeCommitPlanner :=
  let child := ids planner.drawn
  { planner with
    records := planner.addChild blobKey parent slot childSpan child
    pendingNodes := child :: planner.pendingNodes
    pendingEdges := TreeRows.setEdge planner.pendingEdges ⟨parent, slot, child⟩
    drawn := planner.drawn + 1 }

/-- The loop of `plan_chunk` over the slots of the path. -/
def planSlots (chunk : SimpleChunkRef) : SimpleTreeCommitPlanner → NodeId → TreeNodeSpan →
    List Nat →
    Res SimpleTreeCommitPlanner
  | planner, _, _, [] => .ok planner
  | planner, parent, parentSpan, slot :: slots => do
    let childSpan ← planner.geometry.childSpan parentSpan slot
    match planner.pendingEdges parent slot with
    | some child =>
      if childSpan.level = 0 then
        fail (.catalog s!"chunk {chunk.chunkIndex} is already pending")
      else planSlots chunk planner child childSpan slots
    | none => do
      match ← planner.existingChild rows chunk.chunkIndex parent slot childSpan with
      | some child => planSlots chunk planner child childSpan slots
      | none =>
        planSlots chunk (planner.newChild ids chunk.blobKey parent slot childSpan)
          (ids planner.drawn) childSpan slots

/-- Rust `SimpleTreeCommitPlanner::plan_chunk`. -/
def planChunk (chunk : SimpleChunkRef) : Res SimpleTreeCommitPlanner := do
  let path ← planner.geometry.pathForChunk chunk.chunkIndex
  let ensured := planner.ensureRoot ids
  ensured.1.planSlots rows ids chunk ensured.2 planner.geometry.rootSpan path.slots

/-- Rust `SimpleTreeCommitPlanner::plan_chunks`. -/
def planChunks (chunks : List SimpleChunkRef) : Res SimpleTreeCommitPlanner :=
  chunks.foldlM (fun planner chunk => planner.planChunk rows ids chunk) planner

end SimpleTreeCommitPlanner

namespace SimpleMutableTree

/-- Rust `SimpleMutableTree::load`. -/
def load (catalog : Catalog) (exportId : ExportId) (head : ExportHead) : Res SimpleMutableTree :=
  if head.layoutKind ≠ .simpleMutableTree then
    fail (.catalog s!"simple durable export requires simple_mutable_tree head, got {
      head.layoutKind.text}")
  else do
    let treeFormat ← okOr head.treeFormat (.catalog "simple durable head is missing tree format")
    let _ ← TreeGeometry.new treeFormat head.sizeBytes
    .ok ⟨catalog, exportId, head.sizeBytes, head.rootNodeId, treeFormat, fun _ => none⟩

variable (t : SimpleMutableTree)

/-- The chunk that `lookup_chunk` finds, in the remembered chunks or in the tree. -/
def findChunk (idx : Nat) : Res (Option SimpleChunkRef) :=
  match t.state.chunks idx with
  | some chunk => .ok (some chunk)
  | none => do
    let geometry ← TreeGeometry.new t.state.treeFormat t.state.sizeBytes
    match ← LazyTreeMetadataReader.loadLeaf ⟨geometry, .simpleMutableTree, t.state.rootNodeId⟩
      t.catalog.tables.toTreeRows idx with
    | none => .ok none
    | some leaf =>
      if leaf.leafRef.storageKind ≠ .mutableBlob then
        fail (.catalog s!"simple tree chunk {idx} has storage kind {leaf.leafRef.storageKind.text}")
      else do
        let chunk ← ofCatalog (SimpleChunkRef.new idx leaf.leafRef.storageKey leaf.leafRef.lenBytes)
        .ok (some chunk)

/-- The tree remembers a chunk, unless it does already. -/
def remember (idx : Nat) (chunk : SimpleChunkRef) : SimpleMutableTree :=
  { t with state := { t.state with
    chunks := Function.update t.state.chunks idx ((t.state.chunks idx).or (some chunk)) } }

/-- Rust `SimpleMutableTree::lookup_chunk`. -/
def lookupChunk (idx : Nat) : SimpleMutableTree × Res (Option BlobKey) :=
  match t.findChunk idx with
  | .error fault => (t, .error fault)
  | .ok none => (t, .ok none)
  | .ok (some chunk) => (t.remember idx chunk, .ok (some chunk.blobKey))

/-- The checks of `commit_new_chunks`. -/
def checkNew : SimpleMutableTree → List Nat → List SimpleChunkRef → SimpleMutableTree × Res Unit
  | t, _, [] => (t, .ok ())
  | t, seen, chunk :: chunks =>
    if chunk.chunkIndex ∈ seen then
      (t, fail (.catalog s!"duplicate chunk index {chunk.chunkIndex}"))
    else
      match t.lookupChunk chunk.chunkIndex with
      | (t, .error fault) => (t, .error fault)
      | (t, .ok (some _)) =>
        (t, fail (.catalog s!"chunk {chunk.chunkIndex} is already materialized"))
      | (t, .ok none) => checkNew t (chunk.chunkIndex :: seen) chunks

/-- The part of `commit_new_chunks` that plans the rows and the heads. -/
def planCommit (ids : Nat → NodeId) (chunks : List SimpleChunkRef) : Res PublishTreeUpdate := do
  let geometry ← TreeGeometry.new t.state.treeFormat t.state.sizeBytes
  let planner ← (SimpleTreeCommitPlanner.new geometry t.state).planChunks
    t.catalog.tables.toTreeRows ids chunks
  let expectedHead ← ofCatalog t.state.exportHead
  let nextHead ← ofCatalog (ExportHead.newWithTreeFormat .simpleMutableTree planner.rootNodeId
    t.state.sizeBytes 0 (some t.state.treeFormat))
  .ok ⟨t.state.exportId, expectedHead, nextHead, planner.records⟩

/-- The loop of `commit_new_chunks` over the remembered chunks. -/
def insertChunks (known : Nat → Option SimpleChunkRef) (chunks : List SimpleChunkRef) :
    Nat → Option SimpleChunkRef :=
  chunks.foldl (fun known chunk => Function.update known chunk.chunkIndex (some chunk)) known

def committed (catalog : Catalog) (root : Option NodeId) (chunks : List SimpleChunkRef) :
    SimpleMutableTree where
  catalog := catalog
  state := { t.state with
    rootNodeId := root
    chunks := insertChunks t.state.chunks chunks }

/-- Rust `Debug` for the root of a head. -/
def rootText : Option NodeId → String
  | none => "None"
  | some id => s!"Some(NodeId({id}))"

/-- Rust `SimpleMutableTree::commit_new_chunks`. -/
def commitNewChunks (ids : Nat → NodeId) (chunks : List SimpleChunkRef) :
    SimpleMutableTree × Res Unit :=
  if chunks.isEmpty then (t, .ok ())
  else
    match t.checkNew [] chunks with
    | (t, .error fault) => (t, .error fault)
    | (t, .ok ()) =>
      match t.planCommit ids chunks with
      | .error fault => (t, .error fault)
      | .ok request =>
        match t.catalog.publishTreeUpdate request with
        | (catalog, .error e) => ({ t with catalog := catalog }, fail (.catalog e.text))
        | (catalog, .ok (.staleHead record)) => ({ t with catalog := catalog }, fail (.catalog
            s!"simple tree publish lost stale head race; current root is {
              rootText record.head.rootNodeId}"))
        | (catalog, .ok (.published _)) =>
          (t.committed catalog request.nextHead.rootNodeId chunks, .ok ())

end SimpleMutableTree

/-! ## Planning -/

/-- The leaf is the one that a commit makes for the chunk. -/
structure IsLeafOf (chunk : SimpleChunkRef) (leaf : TreeNodeRecord × TreeLeafRefRecord) : Prop where
  kind : leaf.2.storageKind = .mutableBlob
  key : leaf.2.storageKey = chunk.blobKey
  len : leaf.2.lenBytes = SIMPLE_CHUNK_BYTES

namespace SimpleTreeCommitPlanner

open TreeGeometry

/-- The planner in the middle of a commit: the constraints accept the batch so far, and the rows of
the catalog with the batch are a tree with the given leaves. -/
structure PlanInv (t : TreeTables) (has : ExportId → Bool) (g : TreeGeometry) (exportId : ExportId)
    (ids : Nat → NodeId) (planner : SimpleTreeCommitPlanner) (leaves : Nat → Found) : Prop where
  geometry : planner.geometry = g
  factory : planner.factory = ⟨g, .simpleMutableTree, some exportId⟩
  accepts : TreeTables.Accepts has t.toTreeRows planner.records
  edges : ∀ n s, (t.toTreeRows.add planner.records).edges n s =
    (planner.pendingEdges n s).or (t.edges n s)
  nodes : ∀ n, n ∈ planner.pendingNodes ↔ ∃ node ∈ planner.records.nodes, node.id = n
  drawn : ∀ node ∈ planner.records.nodes, ∃ k < planner.drawn, node.id = ids k
  holds : g.HoldsRoot .simpleMutableTree (t.toTreeRows.add planner.records) planner.rootNodeId
    leaves

variable {t : TreeTables} {has : ExportId → Bool} {g : TreeGeometry} {exportId : ExportId}
variable {ids : Nat → NodeId} {planner : SimpleTreeCommitPlanner} {leaves : Nat → Found}

namespace PlanInv

lemma new {state : SimpleTreeState} (holds : g.HoldsRoot .simpleMutableTree t.toTreeRows
    state.rootNodeId leaves) (id : state.exportId = exportId) :
    PlanInv t has g exportId ids (SimpleTreeCommitPlanner.new g state) leaves where
  geometry := rfl
  factory := by rw [← id]; rfl
  accepts := by constructor <;> simp [SimpleTreeCommitPlanner.new, TreeRecordBatch.default]
  edges _ _ := rfl
  nodes := by simp [SimpleTreeCommitPlanner.new, TreeRecordBatch.default]
  drawn := by simp [SimpleTreeCommitPlanner.new, TreeRecordBatch.default]
  holds := holds

lemma fresh (inv : PlanInv t has g exportId ids planner leaves)
    (unused : FreshIds ids t.toTreeRows) :
    (t.toTreeRows.add planner.records).nodes (ids planner.drawn) = none := by
  rw [← Option.not_isSome_iff_eq_none, TreeTables.add_nodes_isSome, unused.new]
  rintro (⟨node, mem, same⟩ | is)
  · obtain ⟨k, lt, id⟩ := inv.drawn node mem
    have := unused.inj (id.symm.trans same)
    omega
  · cases is

lemma drawn_concat {node : TreeNodeRecord} (inv : PlanInv t has g exportId ids planner leaves)
    (id : node.id = ids planner.drawn) :
    ∀ n ∈ planner.records.nodes ++ [node], ∃ k < planner.drawn + 1, n.id = ids k := by
  intro n mem
  rcases List.mem_append.1 mem with mem | mem
  · obtain ⟨k, lt, same⟩ := inv.drawn n mem
    exact ⟨k, by omega, same⟩
  · rw [List.mem_singleton.1 mem]
    exact ⟨planner.drawn, by omega, id⟩

lemma nodes_concat (inv : PlanInv t has g exportId ids planner leaves) (node : TreeNodeRecord)
    (n : NodeId) :
    n ∈ node.id :: planner.pendingNodes ↔ ∃ m ∈ planner.records.nodes ++ [node], m.id = n := by
  rw [List.mem_cons, inv.nodes]
  constructor
  · rintro (rfl | ⟨m, mem, same⟩)
    · exact ⟨node, by simp, rfl⟩
    · exact ⟨m, by simp [mem], same⟩
  · rintro ⟨m, mem, same⟩
    rcases List.mem_append.1 mem with mem | mem
    · exact .inr ⟨m, mem, same⟩
    · rw [List.mem_singleton.1 mem] at same
      exact .inl same.symm

lemma ensureRoot (inv : PlanInv t has g exportId ids planner leaves)
    (unused : FreshIds ids t.toTreeRows) (size : g.sizeBytes < I64) (owner : has exportId = true) :
    PlanInv t has g exportId ids (planner.ensureRoot ids).1 leaves ∧
      (planner.ensureRoot ids).1.rootNodeId = some (planner.ensureRoot ids).2 := by
  unfold SimpleTreeCommitPlanner.ensureRoot
  cases is_root : planner.rootNodeId with
  | some root => exact ⟨inv, is_root⟩
  | none =>
    refine ⟨?_, rfl⟩
    have none_found : ∀ idx, g.Valid idx → leaves idx = none := by
      have := inv.holds
      rwa [is_root] at this
    have fresh := inv.fresh unused
    have made : planner.factory.rootNode (ids planner.drawn) =
        planner.factory.node .internal (ids planner.drawn) g.rootSpan := by
      rw [TreeRecordFactory.rootNode, inv.factory]
      rfl
    have ok : TreeTables.NodeOk has (planner.factory.rootNode (ids planner.drawn)) := by
      rw [made, inv.factory]
      exact factory_nodeOk size (by simp) rfl owner g.size_pos g.size_pos le_rfl
    have accepts := inv.accepts.addNode ok fresh
    obtain ⟨t', rows⟩ := inv.accepts.tables
    refine ⟨inv.geometry, inv.factory, accepts, inv.edges,
      inv.nodes_concat (planner.factory.rootNode (ids planner.drawn)), inv.drawn_concat rfl, ?_⟩
    intro idx valid
    rw [none_found idx valid]
    refine Trie.Finds.bare ?_ ?_ ?_
    · refine factory_fits (planner.factory.rootNode (ids planner.drawn)) ?_ made ?_ ?_ rfl
      · simp [TreeRows.add, TreeRows.setNode]
      · rw [inv.factory]
      · exact (if_neg (Nat.ne_of_gt g.level.pos)).symm
    · intro s
      have absent : t'.nodes (ids planner.drawn) = none := by rw [rows]; exact fresh
      have := TreeTables.no_edge (s := s) absent
      rw [rows] at this
      exact this
    · rw [ne_eq, ← List.length_eq_zero_iff, digits_length]
      exact Nat.ne_of_gt g.level.pos

/-! A new child of a node that the planner has reached. -/

section Child

variable {n root : NodeId} {s idx : Nat} {childSpan : TreeNodeSpan} {key : BlobKey}
    {q path : List Nat}

lemma addChild_nodes (key : BlobKey) (n : NodeId) (s : Nat) (childSpan : TreeNodeSpan)
    (c : NodeId) :
    (planner.addChild key n s childSpan c).nodes =
      planner.records.nodes ++
      [planner.factory.node (expectedKind childSpan.level) c childSpan] := by
  unfold addChild expectedKind
  split_ifs <;> rfl

lemma add_addChild (rows : TreeRows) (key : BlobKey) (n : NodeId) (s : Nat)
    (childSpan : TreeNodeSpan) (c : NodeId) : rows.add (planner.addChild key n s childSpan c) =
      { nodes := TreeRows.setNode (rows.add planner.records).nodes
          (planner.factory.node (expectedKind childSpan.level) c childSpan)
        edges := TreeRows.setEdge (rows.add planner.records).edges ⟨n, s, c⟩
        leafRefs := if childSpan.level = 0 then
          TreeRows.setLeafRef (rows.add planner.records).leafRefs
            (planner.factory.leafRef c .mutableBlob key)
          else (rows.add planner.records).leafRefs } := by
  unfold addChild expectedKind
  split_ifs <;> simp only [TreeRows.add, List.foldl_append, List.foldl_cons, List.foldl_nil] <;> rfl

lemma accepts_addChild (inv : PlanInv t has g exportId ids planner leaves)
    (unused : FreshIds ids t.toTreeRows) (size : g.sizeBytes < I64) (owner : has exportId = true)
    (parent : ((t.toTreeRows.add planner.records).nodes n).isSome)
    (empty : (t.toTreeRows.add planner.records).edges n s = none)
    (at_child : g.spanAt q = .ok childSpan) :
    TreeTables.Accepts has t.toTreeRows
      (planner.addChild key n s childSpan (ids planner.drawn)) := by
  obtain ⟨inside, pos, le⟩ := spanAt_inside at_child
  have fresh := inv.fresh unused
  have ok : ∀ kind,
      TreeTables.NodeOk has (planner.factory.node kind (ids planner.drawn) childSpan) := by
    intro kind
    rw [inv.factory]
    exact factory_nodeOk size (by simp) rfl owner inside pos le
  have linked : ∀ kind, TreeTables.Accepts has t.toTreeRows { planner.records with
      nodes := planner.records.nodes ++ [planner.factory.node kind (ids planner.drawn) childSpan]
      edges := planner.records.edges ++ [⟨n, s, ids planner.drawn⟩] } := by
    intro kind
    refine (inv.accepts.addNode (ok kind) fresh).addEdge empty ?_ ?_
    · rw [TreeTables.add_nodes_isSome] at parent ⊢
      refine parent.imp_left ?_
      rintro ⟨node, mem, same⟩
      exact ⟨node, List.mem_append_left _ mem, same⟩
    · rw [TreeTables.add_nodes_isSome]
      exact .inl ⟨_, List.mem_append_right _ (List.mem_singleton_self _), rfl⟩
  unfold addChild
  split_ifs
  · refine (linked .leaf).addLeafRef ?_ ?_ ?_ ?_
    · show 0 < planner.factory.geometry.chunkBytes ∧ planner.factory.geometry.chunkBytes < I64
      rw [inv.factory, g.chunk_eq]
      decide
    · intro l mem same
      have there := inv.accepts.leafRefs_fk l mem
      have id : l.nodeId = ids planner.drawn := same
      rw [id, fresh] at there
      cases there
    · exact TreeTables.no_leafRef (unused.new _)
    · rw [TreeTables.add_nodes_isSome]
      exact .inl ⟨_, List.mem_append_right _ (List.mem_singleton_self _), rfl⟩
  · exact linked .internal

lemma grows_addChild (inv : PlanInv t has g exportId ids planner leaves)
    (unused : FreshIds ids t.toTreeRows) (key : BlobKey) (s : Nat) (childSpan : TreeNodeSpan)
    (at_parent : (g.trie .simpleMutableTree (t.toTreeRows.add planner.records)).fits n q) :
    Trie.Grows (g.trie .simpleMutableTree (t.toTreeRows.add planner.records))
      (g.trie .simpleMutableTree
        (t.toTreeRows.add (planner.addChild key n s childSpan (ids planner.drawn))))
      fun p => p = q ++ [s] := by
  rw [add_addChild]
  refine trie_grows (c := ids planner.drawn) (inv.fresh unused) at_parent ?_ ?_ ?_
  · intro m other
    exact Function.update_of_ne other _ _
  · intro m x _ other
    exact (TreeRows.setEdge_apply ..).trans (if_neg other)
  · intro m other
    dsimp only
    split_ifs
    · exact Function.update_of_ne other _ _
    · rfl

lemma fits_addChild (inv : PlanInv t has g exportId ids planner leaves) (key : BlobKey) (n : NodeId)
    (s : Nat) (at_child : g.spanAt q = .ok childSpan) :
    (g.trie .simpleMutableTree
      (t.toTreeRows.add (planner.addChild key n s childSpan (ids planner.drawn)))).fits
        (ids planner.drawn) q := by
  rw [add_addChild]
  refine factory_fits (planner.factory.node (expectedKind childSpan.level) (ids planner.drawn)
    childSpan)
    ?_ rfl ?_ rfl at_child
  · exact Function.update_self _ _ _
  · rw [inv.factory]

lemma newChild {leaves' : Nat → Found} (inv : PlanInv t has g exportId ids planner leaves)
    (unused : FreshIds ids t.toTreeRows) (size : g.sizeBytes < I64) (owner : has exportId = true)
    (parent : ((t.toTreeRows.add planner.records).nodes n).isSome)
    (empty : (t.toTreeRows.add planner.records).edges n s = none)
    (at_child : g.spanAt q = .ok childSpan)
    (holds : g.HoldsRoot .simpleMutableTree
      (t.toTreeRows.add (planner.addChild key n s childSpan (ids planner.drawn)))
      planner.rootNodeId leaves') :
    PlanInv t has g exportId ids (planner.newChild ids key n s childSpan) leaves' where
  geometry := inv.geometry
  factory := inv.factory
  accepts := inv.accepts_addChild unused size owner parent empty at_child
  edges m x := by
    show (t.toTreeRows.add (planner.addChild key n s childSpan (ids planner.drawn))).edges m x = _
    rw [add_addChild]
    show TreeRows.setEdge _ _ m x = (TreeRows.setEdge planner.pendingEdges _ m x).or _
    rw [TreeRows.setEdge_apply, TreeRows.setEdge_apply, inv.edges]
    split_ifs <;> rfl
  nodes m := by
    show _ ↔ ∃ node ∈ (planner.addChild key n s childSpan (ids planner.drawn)).nodes, node.id = m
    rw [addChild_nodes]
    exact inv.nodes_concat
      (planner.factory.node (expectedKind childSpan.level) (ids planner.drawn) childSpan) m
  drawn := by
    show ∀ node ∈ (planner.addChild key n s childSpan (ids planner.drawn)).nodes, _
    rw [addChild_nodes]
    exact inv.drawn_concat rfl
  holds := holds

/-- Where the planner stands: at a node that the edges lead to, without an edge for the next
slot. -/
structure Stands (t : TreeTables) (g : TreeGeometry) (planner : SimpleTreeCommitPlanner)
    (leaves : Nat → Found) (root : NodeId) (idx : Nat) (q : List Nat) (s : Nat) (path : List Nat)
    (n : NodeId) : Prop where
  tree : g.Holds .simpleMutableTree (t.toTreeRows.add planner.records) root leaves
  valid : g.Valid idx
  split : digits idx g.rootLevel = q ++ s :: path
  lead : q.foldlM (t.toTreeRows.add planner.records).edges root = some n
  empty : (t.toTreeRows.add planner.records).edges n s = none

namespace Stands

lemma fits (h : Stands t g planner leaves root idx q s path n) :
    (g.trie .simpleMutableTree (t.toTreeRows.add planner.records)).fits n q :=
  h.tree.lead_fits h.valid ⟨_, h.split.symm⟩ h.lead

lemma parent (h : Stands t g planner leaves root idx q s path n) :
    ((t.toTreeRows.add planner.records).nodes n).isSome := by
  obtain ⟨row, -, is_row, -⟩ := h.fits
  rw [is_row]
  rfl

lemma leaf_none (h : Stands t g planner leaves root idx q s path n) {j : Nat} {path' : List Nat}
    (valid : g.Valid j) (split : digits j g.rootLevel = q ++ s :: path') : leaves j = none := by
  have walk := h.tree j valid
  rw [split] at walk
  exact (walk.arrive h.lead).unique (.stop h.fits h.empty)

lemma lead_addChild (h : Stands t g planner leaves root idx q s path n)
    (inv : PlanInv t has g exportId ids planner leaves) (unused : FreshIds ids t.toTreeRows)
    (key : BlobKey) (childSpan : TreeNodeSpan) :
    (t.toTreeRows.add (planner.addChild key n s childSpan (ids planner.drawn))).edges n s =
        some (ids planner.drawn) ∧
      (q ++ [s]).foldlM (t.toTreeRows.add
        (planner.addChild key n s childSpan (ids planner.drawn))).edges root =
        some (ids planner.drawn) := by
  have grows := inv.grows_addChild unused key s childSpan h.fits
  have edge : (t.toTreeRows.add (planner.addChild key n s childSpan (ids planner.drawn))).edges n
    s =
      some (ids planner.drawn) := by
    rw [add_addChild]
    exact (TreeRows.setEdge_apply ..).trans (if_pos ⟨rfl, rfl⟩)
  have walk := h.tree idx h.valid
  rw [h.split] at walk
  have lead := walk.lead_kept (p := []) grows h.lead
  refine ⟨edge, ?_⟩
  rw [List.foldlM_append]
  refine Option.bind_eq_some_iff.2 ⟨n, lead, ?_⟩
  rw [List.foldlM_cons]
  exact Option.bind_eq_some_iff.2 ⟨_, edge, rfl⟩

end Stands

lemma newInternal (inv : PlanInv t has g exportId ids planner leaves)
    (unused : FreshIds ids t.toTreeRows) (size : g.sizeBytes < I64) (owner : has exportId = true)
    (is_root : planner.rootNodeId = some root) (h : Stands t g planner leaves root idx q s path n)
    (at_child : g.spanAt (q ++ [s]) = .ok childSpan) (inner : path ≠ []) :
    PlanInv t has g exportId ids (planner.newChild ids key n s childSpan) leaves := by
  have fresh := inv.fresh unused
  have grows := inv.grows_addChild unused key s childSpan h.fits
  obtain ⟨tables, rows⟩ := inv.accepts.tables
  have bare : ∀ x, (t.toTreeRows.add
      (planner.addChild key n s childSpan (ids planner.drawn))).edges (ids planner.drawn) x =
          none := by
    intro x
    have absent : tables.nodes (ids planner.drawn) = none := by rw [rows]; exact fresh
    have none_before := TreeTables.no_edge (s := x) absent
    rw [rows] at none_before
    rw [add_addChild]
    refine (TreeRows.setEdge_apply ..).trans ((if_neg ?_).trans none_before)
    rintro ⟨same, -⟩
    have parent := h.parent
    have same : ids planner.drawn = n := same
    rw [← same, fresh] at parent
    cases parent
  refine inv.newChild unused size owner h.parent h.empty at_child ?_
  rw [is_root]
  refine h.tree.graft grows h.lead ?_ (fun _ _ _ => rfl)
  intro j path' valid split
  have len := digits_split split
  have len' := digits_split h.split
  simp only [List.length_cons] at len len'
  rw [h.leaf_none valid split]
  refine .step (grows.fits h.fits) (h.lead_addChild inv unused key childSpan).1
    (.bare (inv.fits_addChild key n s at_child) bare ?_)
  rintro rfl
  refine inner (List.eq_nil_of_length_eq_zero ?_)
  rw [List.length_nil] at len
  omega

lemma newLeaf (inv : PlanInv t has g exportId ids planner leaves) {chunk : SimpleChunkRef}
    (unused : FreshIds ids t.toTreeRows) (size : g.sizeBytes < I64) (owner : has exportId = true)
    (is_root : planner.rootNodeId = some root) (h : Stands t g planner leaves root idx q s [] n)
    (at_child : g.spanAt (q ++ [s]) = .ok childSpan) :
    ∃ leaf, IsLeafOf chunk leaf ∧ PlanInv t has g exportId ids
      (planner.newChild ids chunk.blobKey n s childSpan)
      (Function.update leaves idx (some leaf)) := by
  have grows := inv.grows_addChild unused chunk.blobKey s childSpan h.fits
  have level : childSpan.level = 0 := by
    obtain ⟨-, level, -⟩ := spanAt_eq_ok at_child
    have len := digits_split h.split
    simp only [List.length_append, List.length_cons, List.length_nil] at level len
    omega
  refine ⟨(planner.factory.node (expectedKind childSpan.level) (ids planner.drawn) childSpan,
    planner.factory.leafRef (ids planner.drawn) .mutableBlob chunk.blobKey), ⟨rfl, rfl, ?_⟩, ?_⟩
  · show planner.factory.geometry.chunkBytes = SIMPLE_CHUNK_BYTES
    rw [inv.factory]
    exact g.chunk_eq
  refine inv.newChild unused size owner h.parent h.empty at_child ?_
  rw [is_root]
  refine h.tree.graft grows h.lead ?_ ?_
  · intro j path' valid split
    have len := digits_split split
    have len' := digits_split h.split
    simp only [List.length_cons, List.length_nil] at len len'
    have last : path' = [] := List.eq_nil_of_length_eq_zero (by omega)
    subst last
    have same : j = idx := valid.digits_inj h.valid (split.trans h.split.symm)
    rw [same, Function.update_self]
    refine .step (grows.fits h.fits) (h.lead_addChild inv unused chunk.blobKey childSpan).1
      (.leaf (inv.fits_addChild chunk.blobKey n s at_child) ?_)
    rw [add_addChild]
    simp [TreeGeometry.trie, TreeRows.setNode, TreeRows.setLeafRef, level, TreeRecordFactory.node,
      TreeRecordFactory.leafRef]
  · intro j valid off
    refine Function.update_of_ne ?_ _ _
    rintro rfl
    exact off ⟨[], by rw [h.split]; simp⟩

end Child

end PlanInv

@[simp] lemma loadChildEdge_eq (rows : TreeRows) (parent : NodeId) (slot : Nat) :
    loadChildEdge rows parent slot =
      .ok ((rows.edges parent slot).map fun child => ⟨parent, slot, child⟩) :=
  rows.loadChildEdgeWith_eq _ _ parent slot

lemma existingChild_none {n : NodeId} {s idx : Nat} {childSpan : TreeNodeSpan}
    (missing : t.edges n s = none) :
    planner.existingChild t.toTreeRows idx n s childSpan = .ok none := by
  unfold existingChild
  by_cases new : n ∈ planner.pendingNodes
  · rw [if_pos new]
  · rw [if_neg new, loadChildEdge_eq, missing]
    rfl

lemma existingChild_some (inv : PlanInv t has g exportId ids planner leaves) (idx : Nat)
    {n c : NodeId} {s : Nat} {q : List Nat} {childSpan : TreeNodeSpan} (edge : t.edges n s = some c)
    (fits : (g.trie .simpleMutableTree (t.toTreeRows.add planner.records)).fits c q)
    (at_child : g.spanAt q = .ok childSpan) (inner : childSpan.level ≠ 0) :
    planner.existingChild t.toTreeRows idx n s childSpan = .ok (some c) := by
  obtain ⟨parent, child⟩ := t.edges_fk n s c edge
  have old : ∀ {m}, (t.nodes m).isSome → ∀ node ∈ planner.records.nodes, node.id ≠ m := by
    rintro m is node mem rfl
    rw [inv.accepts.nodes_new node mem] at is
    cases is
  have known : n ∉ planner.pendingNodes := by
    rw [inv.nodes]
    rintro ⟨node, mem, same⟩
    exact old parent node mem same
  obtain ⟨row, span, is_row, at_span, is_node⟩ := fits
  cases at_child.symm.trans at_span
  have stored : t.nodes c = some row := by
    rw [← is_row]
    exact (TreeRows.foldl_setNode_of_not_mem (old child)).symm
  have loaded : t.toTreeRows.loadRequiredNode c = .ok ⟨row, c⟩ :=
    TreeRows.loadRequiredNode_eq_ok.2 ⟨stored, rfl⟩
  have kind : expectedKind childSpan.level = .internal := if_neg inner
  rw [kind] at is_node
  unfold existingChild
  rw [if_neg known, loadChildEdge_eq, edge, Res.ok_bind, Option.map_some]
  dsimp only
  rw [if_neg inner, loaded, Res.ok_bind, validateExistingNode_of_matches is_node]
  rfl

lemma planSlots_spec {chunk : SimpleChunkRef} (unused : FreshIds ids t.toTreeRows)
    (size : g.sizeBytes < I64) (owner : has exportId = true) {root n : NodeId} {q path : List Nat}
    {parentSpan : TreeNodeSpan} (inv : PlanInv t has g exportId ids planner leaves)
    (is_root : planner.rootNodeId = some root) (valid : g.Valid chunk.chunkIndex)
    (missing : leaves chunk.chunkIndex = none)
    (split : digits chunk.chunkIndex g.rootLevel = q ++ path) (some_slot : path ≠ [])
    (lead : q.foldlM (t.toTreeRows.add planner.records).edges root = some n)
    (at_parent : g.spanAt q = .ok parentSpan) :
    ∃ planner' leaf, planSlots t.toTreeRows ids chunk planner n parentSpan path = .ok planner' ∧
      planner'.rootNodeId = some root ∧ IsLeafOf chunk leaf ∧
      PlanInv t has g exportId ids planner'
        (Function.update leaves chunk.chunkIndex (some leaf)) := by
  induction path generalizing planner q n parentSpan with
  | nil => exact absurd rfl some_slot
  | cons s path ih =>
    have tree : g.Holds .simpleMutableTree (t.toTreeRows.add planner.records) root leaves := by
      have := inv.holds
      rwa [is_root] at this
    have split' : digits chunk.chunkIndex g.rootLevel = q ++ [s] ++ path := by
      rw [split, List.append_assoc, List.singleton_append]
    have at_child := valid.spanAt_eq split'
    have level : (g.nodeAt chunk.chunkIndex path.length).level = path.length := rfl
    have down : planner.geometry.childSpan parentSpan s =
        .ok (g.nodeAt chunk.chunkIndex path.length) := by
      rw [spanAt_append, at_parent, Res.ok_bind] at at_child
      rw [inv.geometry, at_child]
    have walk := tree chunk.chunkIndex valid
    rw [missing, split] at walk
    have here := walk.arrive lead
    rw [planSlots, down, Res.ok_bind]
    have edges := inv.edges n s
    cases edge : (t.toTreeRows.add planner.records).edges n s with
    | some c =>
      -- The edge exists, in the batch or in the catalog, and the chunk is not below it yet.
      have rest := here.along edge
      have inner : path ≠ [] := by
        rintro rfl
        cases rest
      have inner' : (g.nodeAt chunk.chunkIndex path.length).level ≠ 0 := by
        rw [level]
        exact mt List.eq_nil_of_length_eq_zero inner
      have lead' : (q ++ [s]).foldlM (t.toTreeRows.add planner.records).edges root = some c := by
        rw [List.foldlM_append]
        refine Option.bind_eq_some_iff.2 ⟨n, lead, ?_⟩
        rw [List.foldlM_cons]
        exact Option.bind_eq_some_iff.2 ⟨_, edge, rfl⟩
      have next := ih inv is_root split' inner lead' at_child
      rw [edge] at edges
      cases pending : planner.pendingEdges n s with
      | some c' =>
        rw [pending] at edges
        cases edges
        dsimp only
        rw [if_neg inner']
        exact next
      | none =>
        rw [pending, Option.none_or] at edges
        have found := existingChild_some inv chunk.chunkIndex edges.symm rest.fits at_child inner'
        simp only [found, Res.ok_bind]
        exact next
    | none =>
      have stands : PlanInv.Stands t g planner leaves root chunk.chunkIndex q s path n :=
        ⟨tree, valid, split, lead, edge⟩
      rw [edge, eq_comm, Option.or_eq_none_iff] at edges
      obtain ⟨pending, absent⟩ := edges
      rw [pending]
      dsimp only
      rw [existingChild_none absent, Res.ok_bind]
      dsimp only
      by_cases last : path = []
      · subst last
        obtain ⟨leaf, is_leaf, next⟩ := inv.newLeaf unused size owner is_root stands at_child
        exact ⟨_, leaf, rfl, is_root, is_leaf, next⟩
      · refine ih (inv.newInternal unused size owner is_root stands at_child last) is_root split'
          last
          ?_ at_child
        exact (stands.lead_addChild inv unused chunk.blobKey _).2

lemma planChunk_spec {chunk : SimpleChunkRef} (unused : FreshIds ids t.toTreeRows)
    (size : g.sizeBytes < I64) (owner : has exportId = true)
    (inv : PlanInv t has g exportId ids planner leaves) (valid : g.Valid chunk.chunkIndex)
    (missing : leaves chunk.chunkIndex = none) :
    ∃ planner' leaf, planner.planChunk t.toTreeRows ids chunk = .ok planner' ∧ IsLeafOf chunk leaf ∧
      PlanInv t has g exportId ids planner'
        (Function.update leaves chunk.chunkIndex (some leaf)) := by
  obtain ⟨inv', is_root⟩ := inv.ensureRoot unused size owner
  have path : planner.geometry.pathForChunk chunk.chunkIndex =
      .ok ⟨chunk.chunkIndex, digits chunk.chunkIndex g.rootLevel⟩ := by
    rw [inv.geometry]
    exact pathForChunk_eq_ok.2 ⟨valid, rfl⟩
  have some_slot : digits chunk.chunkIndex g.rootLevel ≠ [] := by
    rw [ne_eq, ← List.length_eq_zero_iff, digits_length]
    exact Nat.ne_of_gt g.level.pos
  obtain ⟨planner', leaf, run, -, is_leaf, next⟩ :=
    planSlots_spec unused size owner inv' is_root valid
    missing (q := []) rfl some_slot rfl (rfl : g.spanAt [] = .ok g.rootSpan)
  refine ⟨planner', leaf, ?_, is_leaf, next⟩
  rw [planChunk, path, Res.ok_bind, inv.geometry]
  exact run

/-- `plan_chunks` for distinct chunks of the export without leaf: they get their leaves, and the
others keep theirs. -/
lemma planChunks_spec {chunks : List SimpleChunkRef} (unused : FreshIds ids t.toTreeRows)
    (size : g.sizeBytes < I64) (owner : has exportId = true)
    (inv : PlanInv t has g exportId ids planner leaves)
    (distinct : (chunks.map (·.chunkIndex)).Nodup)
    (new : ∀ chunk ∈ chunks, g.Valid chunk.chunkIndex ∧ leaves chunk.chunkIndex = none) :
    ∃ planner' leaves', planner.planChunks t.toTreeRows ids chunks = .ok planner' ∧
      PlanInv t has g exportId ids planner' leaves' ∧
      (∀ chunk ∈ chunks, ∃ leaf, leaves' chunk.chunkIndex = some leaf ∧ IsLeafOf chunk leaf) ∧
      ∀ j, j ∉ chunks.map (·.chunkIndex) → leaves' j = leaves j := by
  induction chunks generalizing planner leaves with
  | nil => exact ⟨planner, leaves, rfl, inv, by simp, fun _ _ => rfl⟩
  | cons chunk chunks ih =>
    obtain ⟨valid, missing⟩ := new chunk List.mem_cons_self
    obtain ⟨planner₁, leaf, run, is_leaf, inv₁⟩ :=
      planChunk_spec unused size owner inv valid missing
    rw [List.map_cons, List.nodup_cons] at distinct
    obtain ⟨other, distinct⟩ := distinct
    have others : ∀ c ∈ chunks, c.chunkIndex ≠ chunk.chunkIndex := by
      intro c mem same
      exact other (List.mem_map.2 ⟨c, mem, same⟩)
    obtain ⟨planner₂, leaves₂, runs, inv₂, made, kept⟩ := ih inv₁ distinct (by
      intro c mem
      obtain ⟨valid', missing'⟩ := new c (List.mem_cons_of_mem _ mem)
      exact ⟨valid', by rw [Function.update_of_ne (others c mem), missing']⟩)
    refine ⟨planner₂, leaves₂, ?_, inv₂, ?_, ?_⟩
    · rw [planChunks, List.foldlM_cons, run, Res.ok_bind]
      exact runs
    · intro c mem
      rcases List.mem_cons.1 mem with rfl | mem
      · exact ⟨leaf, by rw [kept _ other, Function.update_self], is_leaf⟩
      · exact made c mem
    · intro j off
      rw [List.map_cons, List.mem_cons, not_or] at off
      rw [kept j off.2, Function.update_of_ne off.1]

lemma planChunks_valid {chunks : List SimpleChunkRef} (unused : FreshIds ids t.toTreeRows)
    (size : g.sizeBytes < I64) (owner : has exportId = true)
    (inv : PlanInv t has g exportId ids planner leaves)
    (distinct : (chunks.map (·.chunkIndex)).Nodup)
    (new : ∀ chunk ∈ chunks, g.Valid chunk.chunkIndex → leaves chunk.chunkIndex = none)
    {planner' : SimpleTreeCommitPlanner}
    (run : planner.planChunks t.toTreeRows ids chunks = .ok planner') :
    ∀ chunk ∈ chunks, g.Valid chunk.chunkIndex := by
  induction chunks generalizing planner leaves with
  | nil => simp
  | cons chunk chunks ih =>
    rw [planChunks, List.foldlM_cons] at run
    obtain ⟨planner₁, first, run⟩ := Res.bind_eq_ok.1 run
    have valid : g.Valid chunk.chunkIndex := by
      obtain ⟨path, is_path, -⟩ := Res.bind_eq_ok.1 first
      rw [inv.geometry] at is_path
      exact (pathForChunk_eq_ok.1 is_path).1
    obtain ⟨planner₂, leaf, again, -, inv₁⟩ := planChunk_spec unused size owner inv valid
      (new chunk List.mem_cons_self valid)
    cases first.symm.trans again
    rw [List.map_cons, List.nodup_cons] at distinct
    have rest := ih inv₁ distinct.2 (by
      intro c mem valid'
      rw [Function.update_of_ne, new c (List.mem_cons_of_mem _ mem) valid']
      intro same
      exact distinct.1 (List.mem_map.2 ⟨c, mem, same⟩)) run
    intro c mem
    rcases List.mem_cons.1 mem with rfl | mem
    · exact valid
    · exact rest c mem

end SimpleTreeCommitPlanner

end NbdServer
