import NbdServer.Engines.Readers

/-!
# The content of a stored root

The rows and the blobs below a root are its content (`Stores.committed`), which is what
`read_committed` returns. Stores grow: compactions add rows and blobs and change none that are
there, so a root that was stored keeps its content (`StoredRoot.grows`).
-/

namespace NbdServer

open Lib TreeGeometry

/-- Rows and blobs that were there are there unchanged. -/
structure Stores.Grows (s s' : Stores) : Prop where
  rows : s.rows.Later s'.rows
  blobs : ∀ key bytes, s.blobs key = some bytes → s'.blobs key = some bytes

lemma Stores.Grows.refl (s : Stores) : s.Grows s := ⟨.refl _, fun _ _ h => h⟩

lemma Stores.Grows.trans {s₁ s₂ s₃ : Stores} (h : s₁.Grows s₂) (h' : s₂.Grows s₃) : s₁.Grows s₃ :=
  ⟨h.rows.trans h'.rows, fun key bytes stored => h'.blobs key bytes (h.blobs key bytes stored)⟩

def Stores.content (stores : Stores) (g : TreeGeometry) (rootNodeId : Option NodeId) (x : Nat) :
    UInt8 :=
  (committedByte stores.blobs (cowKeys g rootNodeId stores.rows (x / TREE_CHUNK_BYTES)) x).getD 0

def Stores.committed (stores : Stores) (root : RootSnapshot) (x : Nat) : UInt8 :=
  match root.treeFormat with
  | none => 0
  | some format =>
    match TreeGeometry.new format root.sizeBytes with
    | .ok g => stores.content g root.rootNodeId x
    | .error _ => 0

/-- The stores hold the tree of a root with all its blobs. -/
structure StoredRoot (stores : Stores) (root : RootSnapshot) (g : TreeGeometry) : Prop where
  built : ∃ format, root.treeFormat = some format ∧ TreeGeometry.new format root.sizeBytes = .ok g
  tree : CowTree g root.rootNodeId stores

variable {g : TreeGeometry} {stores stores' : Stores} {root : RootSnapshot}

lemma cowKeys_eq {rootNodeId : Option NodeId} {rows : TreeRows} {idx : Nat}
    {leaf : Option LoadedTreeLeaf}
    (load : LazyTreeMetadataReader.loadLeaf ⟨g, .cowImmutableTree, rootNodeId⟩ rows idx =
    .ok leaf) :
    cowKeys g rootNodeId rows idx = leaf.map (·.leafRef.storageKey) := by
  rw [cowKeys, load]
  rfl

lemma CowTree.loadLeaf_grows {rootNodeId : Option NodeId} (tree : CowTree g rootNodeId stores)
    (grows : stores.rows.Later stores'.rows) {idx : Nat} (valid : g.Valid idx) :
    LazyTreeMetadataReader.loadLeaf ⟨g, .cowImmutableTree, rootNodeId⟩ stores'.rows idx =
      LazyTreeMetadataReader.loadLeaf ⟨g, .cowImmutableTree, rootNodeId⟩ stores.rows idx := by
  obtain ⟨leaves, holds⟩ := holdsRoot_of_loadLeaf fun idx valid =>
    let ⟨leaf, load, _⟩ := tree idx valid
    ⟨leaf, load⟩
  rw [holds.loadLeaf_eq valid, (holds.kept (trie_kept grows)).loadLeaf_eq valid]

lemma CowTree.grows {rootNodeId : Option NodeId} (tree : CowTree g rootNodeId stores)
    (grows : stores.Grows stores') : CowTree g rootNodeId stores' := by
  intro idx valid
  obtain ⟨leaf, load, all⟩ := tree idx valid
  refine ⟨leaf, (tree.loadLeaf_grows grows.rows valid).trans load, ?_⟩
  intro l mem
  obtain ⟨kind, bytes, stored, len⟩ := all l mem
  exact ⟨kind, bytes, grows.blobs _ _ stored, len⟩

lemma cowKeys_invalid {rootNodeId : Option NodeId} {rows : TreeRows} {idx : Nat}
    (not : ¬ g.Valid idx) :
    cowKeys g rootNodeId rows idx = none := by
  unfold cowKeys
  cases load : LazyTreeMetadataReader.loadLeaf ⟨g, .cowImmutableTree, rootNodeId⟩ rows idx with
  | error fault => rfl
  | ok leaf =>
    cases leaf with
    | none => rfl
    | some leaf => exact absurd (SimpleMutableTree.valid_of_loadLeaf load) not

lemma CowTree.cowKeys_grows {rootNodeId : Option NodeId} (tree : CowTree g rootNodeId stores)
    (grows : stores.rows.Later stores'.rows) (idx : Nat) :
    cowKeys g rootNodeId stores'.rows idx = cowKeys g rootNodeId stores.rows idx := by
  by_cases valid : g.Valid idx
  · rw [cowKeys, cowKeys, tree.loadLeaf_grows grows valid]
  · rw [cowKeys_invalid valid, cowKeys_invalid valid]

lemma CowTree.committedByte_eq {rootNodeId : Option NodeId} (tree : CowTree g rootNodeId stores)
    (x : Nat) :
    committedByte stores.blobs (cowKeys g rootNodeId stores.rows (x / TREE_CHUNK_BYTES)) x =
      some (stores.content g rootNodeId x) := by
  unfold Stores.content
  cases found : cowKeys g rootNodeId stores.rows (x / TREE_CHUNK_BYTES) with
  | none => rfl
  | some key =>
    obtain ⟨bytes, stored, len⟩ := tree.stored found
    have inside : x % TREE_CHUNK_BYTES < bytes.length := by
      rw [len]
      exact Nat.mod_lt _ (by decide)
    rw [committedByte, stored, Option.bind_some, List.getElem?_eq_getElem inside]
    rfl

lemma CowTree.content_grows {rootNodeId : Option NodeId} (tree : CowTree g rootNodeId stores)
    (grows : stores.Grows stores') (x : Nat) :
    stores'.content g rootNodeId x = stores.content g rootNodeId x := by
  unfold Stores.content
  rw [tree.cowKeys_grows grows.rows]
  cases found : cowKeys g rootNodeId stores.rows (x / TREE_CHUNK_BYTES) with
  | none => rfl
  | some key =>
    obtain ⟨bytes, stored, -⟩ := tree.stored found
    rw [committedByte, committedByte, stored, grows.blobs _ _ stored]

namespace StoredRoot

lemma grows (h : StoredRoot stores root g) (grows : stores.Grows stores') :
    StoredRoot stores' root g :=
  ⟨h.built, h.tree.grows grows⟩

lemma committed_eq (h : StoredRoot stores root g) (x : Nat) :
    stores.committed root x = stores.content g root.rootNodeId x := by
  obtain ⟨format, is_format, built⟩ := h.built
  rw [Stores.committed, is_format]
  dsimp only
  rw [built]

lemma committed_grows (h : StoredRoot stores root g) (grows : stores.Grows stores') (x : Nat) :
    stores'.committed root x = stores.committed root x := by
  rw [h.committed_eq, (h.grows grows).committed_eq, h.tree.content_grows grows]

lemma size_eq (h : StoredRoot stores root g) : g.sizeBytes = root.sizeBytes := by
  obtain ⟨format, -, built⟩ := h.built
  exact (of_new built).1

lemma readCommitted (h : StoredRoot stores root g) {range : ByteRange}
    (inside : range.start + range.len ≤ root.sizeBytes) :
    ∃ block, CowTreeReader.readCommitted root range stores = .ok block stores ∧ block.range =
    range ∧
      block.Holds (stores.committed root) := by
  obtain ⟨format, is_format, built⟩ := h.built
  obtain ⟨block, run, committed⟩ := h.tree.readCommitted is_format built inside
  refine ⟨block, run, committed.range_eq, ?_⟩
  intro i lt
  rw [committed.range_eq] at lt ⊢
  rw [committed.bytes i lt, h.tree.committedByte_eq, h.committed_eq]

end StoredRoot

end NbdServer
