import NbdServer.Tree.Geometry

/-!
# Tree records

Model of the tree records of `tree.rs` of the control plane, of the SQLite tables that hold them,
and of the record factory of `tree/edit.rs`. A table is a partial function on its primary key, so
two rows never have the same key; a row is the columns other than the key.
-/

namespace NbdServer

/-- Rust `ExportId`, an opaque string that is compared and never inspected. -/
abbrev ExportId := Nat

/-- Rust `TreeNodeKind`. -/
inductive TreeNodeKind where
  | internal
  | leaf
  deriving DecidableEq, Repr

/-- Rust `Display` for `TreeNodeKind`. -/
def TreeNodeKind.text : TreeNodeKind → String
  | internal => "internal"
  | leaf => "leaf"

/-- Rust `TreeStorageKind`. -/
inductive TreeStorageKind where
  | mutableBlob
  | immutableBlob
  deriving DecidableEq, Repr

/-- Rust `Display` for `TreeStorageKind`. -/
def TreeStorageKind.text : TreeStorageKind → String
  | mutableBlob => "mutable_blob"
  | immutableBlob => "immutable_blob"

/-- A row of `tree_nodes`, without its key. -/
structure TreeNodeRow where
  layoutKind : ExportLayoutKind
  ownerExportId : Option ExportId
  kind : TreeNodeKind
  level : Nat
  spanStartBytes : Nat
  spanLenBytes : Nat
  deriving DecidableEq, Repr

/-- Rust `TreeNodeRecord`. -/
structure TreeNodeRecord extends TreeNodeRow where
  id : NodeId
  deriving DecidableEq, Repr

/-- Rust `TreeEdgeRecord`. -/
structure TreeEdgeRecord where
  parentNodeId : NodeId
  slot : Nat
  childNodeId : NodeId
  deriving DecidableEq, Repr

/-- A row of `tree_leaf_refs`, without its key. -/
structure TreeLeafRefRow where
  storageKind : TreeStorageKind
  storageKey : BlobKey
  lenBytes : Nat
  deriving DecidableEq, Repr

/-- Rust `TreeLeafRefRecord`. -/
structure TreeLeafRefRecord extends TreeLeafRefRow where
  nodeId : NodeId
  deriving DecidableEq, Repr

/-- Rust `TreeRecordBatch`. -/
structure TreeRecordBatch where
  nodes : List TreeNodeRecord
  edges : List TreeEdgeRecord
  leafRefs : List TreeLeafRefRecord
  deriving DecidableEq, Repr

/-- Rust `TreeRecordBatch::default`. -/
def TreeRecordBatch.default : TreeRecordBatch := ⟨[], [], []⟩

/-- The rows of the tables `tree_nodes`, `tree_edges` and `tree_leaf_refs`. -/
@[ext] structure TreeRows where
  nodes : NodeId → Option TreeNodeRow
  edges : NodeId → Nat → Option NodeId
  leafRefs : NodeId → Option TreeLeafRefRow

namespace TreeRows

def empty : TreeRows := ⟨fun _ => none, fun _ _ => none, fun _ => none⟩

variable (rows : TreeRows)

/-- Rust `SQLiteExportCatalog::load_node`. -/
def loadNode (id : NodeId) : Option TreeNodeRecord := (rows.nodes id).map fun row => ⟨row, id⟩

/-- Rust `SQLiteExportCatalog::load_child_edges`, for one lookup. -/
def loadChildEdges (parent : NodeId) (slots : List Nat) : List TreeEdgeRecord :=
  slots.filterMap fun slot => (rows.edges parent slot).map fun child => ⟨parent, slot, child⟩

/-- Rust `SQLiteExportCatalog::load_leaf_refs`. -/
def loadLeafRefs (ids : List NodeId) : List TreeLeafRefRecord :=
  ids.filterMap fun id => (rows.leafRefs id).map fun row => ⟨row, id⟩

/-- Rust `load_required_node`. -/
def loadRequiredNode (id : NodeId) : Res TreeNodeRecord :=
  okOr (rows.loadNode id) (invalidTree s!"tree node `{id}` is missing")

/-- The three functions `load_child_edge` of the source, which differ in the texts of their
errors. -/
def loadChildEdgeWith (duplicate mismatched : String) (parent : NodeId) (slot : Nat) :
    Res (Option TreeEdgeRecord) :=
  match rows.loadChildEdges parent [slot] with
  | [] => .ok none
  | [edge] =>
    if edge.parentNodeId ≠ parent ∨ edge.slot ≠ slot then fail (invalidTree mismatched)
    else .ok (some edge)
  | _ => fail (invalidTree duplicate)

lemma loadRequiredNode_eq_ok {rows : TreeRows} {id : NodeId} {node : TreeNodeRecord} :
    rows.loadRequiredNode id = .ok node ↔ rows.nodes id = some node.toTreeNodeRow ∧
    node.id = id := by
  obtain ⟨row', id'⟩ := node
  unfold loadRequiredNode loadNode
  cases rows.nodes id with
  | none => simp [fail]
  | some row =>
    simp only [Option.map_some, okOr_some, Except.ok.injEq, TreeNodeRecord.mk.injEq,
      Option.some.injEq, eq_comm]

@[simp] lemma loadChildEdgeWith_eq (duplicate mismatched : String) (parent : NodeId) (slot : Nat) :
    rows.loadChildEdgeWith duplicate mismatched parent slot =
      .ok ((rows.edges parent slot).map fun child => ⟨parent, slot, child⟩) := by
  unfold loadChildEdgeWith loadChildEdges
  cases found : rows.edges parent slot <;> simp [found]

end TreeRows

/-- Rust `TreeRecordFactory`. -/
structure TreeRecordFactory where
  geometry : TreeGeometry
  layoutKind : ExportLayoutKind
  ownerExportId : Option ExportId

namespace TreeRecordFactory

variable (f : TreeRecordFactory)

def node (kind : TreeNodeKind) (id : NodeId) (span : TreeNodeSpan) : TreeNodeRecord where
  id := id
  layoutKind := f.layoutKind
  ownerExportId := f.ownerExportId
  kind := kind
  level := span.level
  spanStartBytes := span.startBytes
  spanLenBytes := span.lenBytes

/-- Rust `TreeRecordFactory::internal_node`. -/
def internalNode : NodeId → TreeNodeSpan → TreeNodeRecord := f.node .internal

/-- Rust `TreeRecordFactory::root_node`. -/
def rootNode (id : NodeId) : TreeNodeRecord := f.internalNode id f.geometry.rootSpan

/-- Rust `TreeRecordFactory::leaf_node`. -/
def leafNode : NodeId → TreeNodeSpan → TreeNodeRecord := f.node .leaf

/-- Rust `TreeRecordFactory::child_edge`. -/
def childEdge (parent : NodeId) (slot : Nat) (child : NodeId) : TreeEdgeRecord :=
    ⟨parent, slot, child⟩

/-- Rust `TreeRecordFactory::leaf_ref`. -/
def leafRef (id : NodeId) (storageKind : TreeStorageKind) (storageKey : BlobKey) :
    TreeLeafRefRecord where
  nodeId := id
  storageKind := storageKind
  storageKey := storageKey
  lenBytes := f.geometry.chunkBytes

end TreeRecordFactory

end NbdServer
