import NbdServer.Core.Error

/-!
# Catalog types

Model of the types and errors of `nbd-control-plane-core` that the tree and the engines use. Node
ids, blob keys, export ids and names are opaque strings in Rust, compared and never inspected;
natural numbers stand for them.
-/

namespace NbdServer

/-- Rust `NodeId`. -/
abbrev NodeId := Nat

/-- Rust `BlobKey`. -/
abbrev BlobKey := Nat

/-- Rust `TREE_CHUNK_BYTES`. -/
def TREE_CHUNK_BYTES : Nat := 32 * 1024 * 1024

/-- Rust `TreeFormat`. -/
inductive TreeFormat where
  | bounded32V1
  deriving DecidableEq, Repr

/-- Rust `ExportLayoutKind`. -/
inductive ExportLayoutKind where
  | memoryEmpty
  | simpleMutableTree
  | cowImmutableTree
  deriving DecidableEq, Repr

namespace ExportLayoutKind

/-- Rust `Display` for `ExportLayoutKind`. -/
def text : ExportLayoutKind → String
  | memoryEmpty => "memory_empty"
  | simpleMutableTree => "simple_mutable_tree"
  | cowImmutableTree => "cow_immutable_tree"

end ExportLayoutKind

/-- Rust `ExportHead`. -/
inductive ExportHead where
  | memoryEmpty (sizeBytes : Nat)
  | simpleMutableTree (sizeBytes : Nat) (rootNodeId : Option NodeId) (treeFormat : TreeFormat)
  | cowImmutableTree (sizeBytes : Nat) (rootNodeId : Option NodeId) (baseWalSeq : Nat)
    (treeFormat : TreeFormat)
  deriving DecidableEq, Repr

namespace ExportHead

/-- Rust `ExportHead::layout_kind`. -/
def layoutKind : ExportHead → ExportLayoutKind
  | memoryEmpty .. => .memoryEmpty
  | simpleMutableTree .. => .simpleMutableTree
  | cowImmutableTree .. => .cowImmutableTree

/-- Rust `ExportHead::root_node_id`. -/
def rootNodeId : ExportHead → Option NodeId
  | memoryEmpty _ => none
  | simpleMutableTree _ root _ => root
  | cowImmutableTree _ root _ _ => root

/-- Rust `ExportHead::size_bytes`. -/
def sizeBytes : ExportHead → Nat
  | memoryEmpty size => size
  | simpleMutableTree size _ _ => size
  | cowImmutableTree size _ _ _ => size

/-- Rust `ExportHead::base_wal_seq`. -/
def baseWalSeq : ExportHead → Nat
  | memoryEmpty _ => 0
  | simpleMutableTree .. => 0
  | cowImmutableTree _ _ seq _ => seq

/-- Rust `ExportHead::tree_format`. -/
def treeFormat : ExportHead → Option TreeFormat
  | memoryEmpty _ => none
  | simpleMutableTree _ _ format => some format
  | cowImmutableTree _ _ _ format => some format

end ExportHead

/-- Rust `CatalogError`, the variants that the modelled functions build. -/
inductive CatalogError where
  | invalidField (field reason : String)
  | exportAlreadyExists (name : ExportName)
  | exportNotFound (name : ExportName)
  | exportDeleted (name : ExportName)
  | database (message : String)
  deriving DecidableEq, Repr

/-- Rust `Display` for `CatalogError`. -/
def CatalogError.text : CatalogError → String
  | invalidField field reason => s!"invalid {field}: {reason}"
  | exportAlreadyExists name => s!"export `{name}` already exists"
  | exportNotFound name => s!"export `{name}` not found"
  | exportDeleted name => s!"export `{name}` is deleted"
  | database message => message

abbrev CatalogRes (α : Type) := Except CatalogError α

/-- Rust `ServerError::catalog` under `map_err`. -/
def ofCatalog {α : Type} : CatalogRes α → Res α
  | .ok a => .ok a
  | .error e => fail (.catalog e.text)

@[simp] lemma ofCatalog_eq_ok {α : Type} {x : CatalogRes α} {a : α} :
    ofCatalog x = .ok a ↔ x = .ok a := by
  cases x <;> simp [ofCatalog, fail]

namespace ExportHead

/-- Rust `validate_non_zero`. -/
def validateNonZero (field : String) (value : Nat) : CatalogRes Unit :=
  if value = 0 then .error (.invalidField field "value must be greater than zero") else .ok ()

/-- Rust `ExportHead::memory_empty_with_base`. -/
def memoryEmptyWithBase (sizeBytes : Nat) (rootNodeId : Option NodeId) (baseWalSeq : Nat) :
    CatalogRes ExportHead := do
  validateNonZero "size_bytes" sizeBytes
  if rootNodeId.isSome then
    .error (.invalidField "root_node_id" "memory_empty export heads must not have a root node")
  else if baseWalSeq ≠ 0 then
    .error (.invalidField "base_wal_seq"
      "memory_empty export heads must not carry WAL sequence state")
  else .ok (.memoryEmpty sizeBytes)

/-- Rust `ExportHead::simple_mutable_tree_with_root_base_and_format`. -/
def simpleMutableTreeWithRootBaseAndFormat (sizeBytes : Nat) (rootNodeId : Option NodeId)
    (baseWalSeq : Nat) (treeFormat : TreeFormat) : CatalogRes ExportHead := do
  validateNonZero "size_bytes" sizeBytes
  if baseWalSeq ≠ 0 then
    .error (.invalidField "base_wal_seq"
      "simple_mutable_tree export heads must not carry WAL sequence state")
  else .ok (.simpleMutableTree sizeBytes rootNodeId treeFormat)

/-- Rust `ExportHead::cow_immutable_tree_with_root_and_format`. -/
def cowImmutableTreeWithRootAndFormat (sizeBytes : Nat) (rootNodeId : Option NodeId)
    (baseWalSeq : Nat) (treeFormat : TreeFormat) : CatalogRes ExportHead := do
  validateNonZero "size_bytes" sizeBytes
  .ok (.cowImmutableTree sizeBytes rootNodeId baseWalSeq treeFormat)

/-- Rust `ExportHead::new_with_tree_format`. -/
def newWithTreeFormat (layout : ExportLayoutKind) (rootNodeId : Option NodeId) (sizeBytes : Nat)
    (baseWalSeq : Nat) (treeFormat : Option TreeFormat) : CatalogRes ExportHead :=
  match layout with
  | .memoryEmpty =>
    if treeFormat.isSome then
      .error (.invalidField "tree_format" "memory_empty export heads must not carry a tree format")
    else memoryEmptyWithBase sizeBytes rootNodeId baseWalSeq
  | .simpleMutableTree => simpleMutableTreeWithRootBaseAndFormat sizeBytes rootNodeId baseWalSeq
      (treeFormat.getD .bounded32V1)
  | .cowImmutableTree => cowImmutableTreeWithRootAndFormat sizeBytes rootNodeId baseWalSeq
      (treeFormat.getD .bounded32V1)

lemma newWithTreeFormat_simple {rootNodeId : Option NodeId} {sizeBytes : Nat}
    {treeFormat : TreeFormat} (pos : 0 < sizeBytes) :
    newWithTreeFormat .simpleMutableTree rootNodeId sizeBytes 0 (some treeFormat) =
      .ok (.simpleMutableTree sizeBytes rootNodeId treeFormat) := by
  show simpleMutableTreeWithRootBaseAndFormat sizeBytes rootNodeId 0 treeFormat = _
  rw [simpleMutableTreeWithRootBaseAndFormat, validateNonZero, if_neg pos.ne']
  rfl

lemma newWithTreeFormat_cow {rootNodeId : Option NodeId} {sizeBytes baseWalSeq : Nat}
    {treeFormat : TreeFormat} (pos : 0 < sizeBytes) :
    newWithTreeFormat .cowImmutableTree rootNodeId sizeBytes baseWalSeq (some treeFormat) =
      .ok (.cowImmutableTree sizeBytes rootNodeId baseWalSeq treeFormat) := by
  show cowImmutableTreeWithRootAndFormat sizeBytes rootNodeId baseWalSeq treeFormat = _
  rw [cowImmutableTreeWithRootAndFormat, validateNonZero, if_neg pos.ne']
  rfl

end ExportHead

end NbdServer
