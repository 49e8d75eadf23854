import NbdServer.Engines.SimpleCommit
import NbdServer.Tree.Committed
import NbdServer.View.State

/-!
# The readers of the committed trees

Model of `CowTreeReader` of `wal_durable/read_view.rs` and of `SimpleTreeReader` of
`simple_durable/reader.rs`. They share the loop of `Tree.Committed` and differ in how they look up a
chunk: the first one walks the tree of a root for each chunk, the second one asks the mutable tree,
which remembers what it found.
-/

namespace NbdServer

open Lib TreeGeometry

structure Stores where
  rows : TreeRows
  blobs : Blobs

namespace CowTreeReader

/-- Rust `CowTreeReader::load_leaf`. -/
def loadLeaf (root : RootSnapshot) (chunkIndex : Nat) :
    EStateM Fault Stores (Option LoadedTreeLeaf) := do
  match root.treeFormat with
  | none => pure none
  | some treeFormat =>
    let geometry ← TreeGeometry.new treeFormat root.sizeBytes
    let stores ← get
    LazyTreeMetadataReader.loadLeaf ⟨geometry, .cowImmutableTree, root.rootNodeId⟩ stores.rows
      chunkIndex

def lookup (root : RootSnapshot) (chunkIndex : Nat) : EStateM Fault Stores (Option BlobKey) := do
  match ← loadLeaf root chunkIndex with
  | none => pure none
  | some leaf =>
    if leaf.leafRef.storageKind ≠ .immutableBlob then
      throw (.err (.catalog s!"COW tree chunk {chunkIndex} has storage kind {
        leaf.leafRef.storageKind.text}"))
    else pure (some leaf.leafRef.storageKey)

/-- The call of `get_blob`. -/
def getBlob (key : BlobKey) (offset len : Nat) : EStateM Fault Stores Buf := do
  let stores ← get
  stores.blobs.getBlob key offset len

/-- Rust `CowTreeReader::read_committed`. -/
def readCommitted (root : RootSnapshot) (range : ByteRange) : EStateM Fault Stores Block := do
  validateRange "read" range root.sizeBytes
  if root.isZeroBacked then throw (.err (.catalog "COW backing reader requires a COW root"))
  else do
    let parts ← readLoop (lookup root) getBlob TREE_CHUNK_BYTES range (range.len + 1) 0
    Block.new range parts

end CowTreeReader

/-- The mutable tree and the blobs of a simple-durable export. -/
structure SimpleStore where
  tree : SimpleMutableTree
  blobs : Blobs

namespace SimpleTreeReader

/-- The call of `lookup_chunk`. -/
def lookup (chunkIndex : Nat) : EStateM Fault SimpleStore (Option BlobKey) := fun s =>
  match s.tree.lookupChunk chunkIndex with
  | (tree, .ok key) => .ok key { s with tree := tree }
  | (tree, .error fault) => .error fault { s with tree := tree }

/-- The call of `get_blob`. -/
def getBlob (key : BlobKey) (offset len : Nat) : EStateM Fault SimpleStore Buf := do
  let s ← get
  s.blobs.getBlob key offset len

/-- Rust `SimpleTreeReader::read_committed`. -/
def readCommitted (range : ByteRange) : EStateM Fault SimpleStore Block := do
  let s ← get
  validateRange "read" range s.tree.state.sizeBytes
  let parts ← readLoop lookup getBlob SIMPLE_CHUNK_BYTES range (range.len + 1) 0
  Block.new range parts

end SimpleTreeReader

def keyOf : Res (Option BlobKey) → Option BlobKey
  | .ok key => key
  | .error _ => none

/-! ## COW trees -/

def cowKeys (g : TreeGeometry) (rootNodeId : Option NodeId) (rows : TreeRows) (idx : Nat) :
    Option BlobKey :=
  keyOf ((LazyTreeMetadataReader.loadLeaf ⟨g, .cowImmutableTree, rootNodeId⟩ rows idx).map
    (Option.map (·.leafRef.storageKey)))

/-- A stored COW tree: `load_leaf` returns for every chunk of the export, and the blobs of the
leaves are there. -/
def CowTree (g : TreeGeometry) (rootNodeId : Option NodeId) (stores : Stores) : Prop :=
  ∀ idx, g.Valid idx → ∃ leaf,
    LazyTreeMetadataReader.loadLeaf ⟨g, .cowImmutableTree, rootNodeId⟩ stores.rows idx = .ok leaf ∧
    ∀ l ∈ leaf, l.leafRef.storageKind = .immutableBlob ∧ ∃ bytes,
      stores.blobs l.leafRef.storageKey = some bytes ∧ bytes.length = TREE_CHUNK_BYTES

variable {g : TreeGeometry} {stores : Stores} {root : RootSnapshot} {range : ByteRange}

lemma CowTree.stored {rootNodeId : Option NodeId} (tree : CowTree g rootNodeId stores) {idx : Nat}
    {key : BlobKey} (found : cowKeys g rootNodeId stores.rows idx = some key) :
    ∃ bytes, stores.blobs key = some bytes ∧ bytes.length = TREE_CHUNK_BYTES := by
  unfold cowKeys at found
  cases load : LazyTreeMetadataReader.loadLeaf ⟨g, .cowImmutableTree, rootNodeId⟩ stores.rows
    idx with
  | error fault =>
    rw [load] at found
    cases found
  | ok leaf =>
    rw [load] at found
    obtain ⟨l, rfl, rfl⟩ := Option.map_eq_some_iff.1 (show leaf.map (·.leafRef.storageKey) =
      some key from found)
    obtain ⟨leaf', again, all⟩ := tree idx (SimpleMutableTree.valid_of_loadLeaf load)
    cases load.symm.trans again
    exact (all l rfl).2

lemma CowTree.lookup (tree : CowTree g root.rootNodeId stores) {format : TreeFormat}
    (is_format : root.treeFormat = some format)
    (built : TreeGeometry.new format root.sizeBytes = .ok g) {idx : Nat} (valid : g.Valid idx) :
    CowTreeReader.lookup root idx stores = .ok (cowKeys g root.rootNodeId stores.rows idx)
    stores := by
  obtain ⟨leaf, load, all⟩ := tree idx valid
  have loaded : CowTreeReader.loadLeaf root idx stores = .ok leaf stores := by
    unfold CowTreeReader.loadLeaf
    rw [is_format]
    dsimp only
    rw [built, lift_ok_bind, get_bind, load]
    rfl
  have key : cowKeys g root.rootNodeId stores.rows idx = leaf.map (·.leafRef.storageKey) := by
    rw [cowKeys, load]
    rfl
  rw [CowTreeReader.lookup, bind_ok loaded, key]
  cases leaf with
  | none => rfl
  | some l =>
    dsimp only
    rw [if_neg (not_not.2 (all l rfl).1)]
    rfl

lemma CowTree.readCommitted (tree : CowTree g root.rootNodeId stores) {format : TreeFormat}
    (is_format : root.treeFormat = some format)
    (built : TreeGeometry.new format root.sizeBytes = .ok g)
    (inside : range.start + range.len ≤ root.sizeBytes) :
    ∃ block, CowTreeReader.readCommitted root range stores = .ok block stores ∧
      CommittedBlock g stores.blobs (cowKeys g root.rootNodeId stores.rows) range block := by
  obtain ⟨size, -⟩ := of_new built
  have fits := g.size_fits
  have cow : root.isZeroBacked = false := by
    cases root with
    | zero => cases is_format
    | cowHead => rfl
  obtain ⟨block, s', run, same, committed⟩ := @readBlock_spec Stores (CowTreeReader.lookup root)
    CowTreeReader.getBlob range g (cowKeys g root.rootNodeId stores.rows) stores.blobs (· = stores)
    (fun s idx same valid => ⟨stores, same ▸ tree.lookup is_format built valid, rfl⟩)
    (fun s same key offset len => by subst same; rfl) (fun idx key found => tree.stored found)
    (by rw [size]; exact inside) stores rfl
  refine ⟨block, ?_, committed⟩
  unfold CowTreeReader.readCommitted
  rw [(validateRange_eq_ok (by omega)).2 inside, lift_ok_bind, if_neg (by simp [cow])]
  rw [same] at run
  exact run

/-! ## Simple trees -/

section Simple

variable {t : SimpleMutableTree} {blobs : Blobs}

def simpleKeys (t : SimpleMutableTree) (idx : Nat) : Option BlobKey := keyOf (t.lookupChunk idx).2

def SimpleBlobs (t : SimpleMutableTree) (blobs : Blobs) : Prop :=
  ∀ idx key, (t.lookupChunk idx).2 = .ok (some key) → ∃ bytes,
    blobs key = some bytes ∧ bytes.length = SIMPLE_CHUNK_BYTES

lemma SimpleBlobs.stored (h : SimpleBlobs t blobs) {idx : Nat} {key : BlobKey}
    (found : simpleKeys t idx = some key) :
    ∃ bytes, blobs key = some bytes ∧ bytes.length = TREE_CHUNK_BYTES := by
  refine h idx key ?_
  unfold simpleKeys at found
  cases looked : (t.lookupChunk idx).2 with
  | error fault =>
    rw [looked] at found
    cases found
  | ok result =>
    rw [looked] at found
    rw [show result = some key from found]

lemma simpleLookup {leaves : Nat → Found} (h : t.HasLeaves g leaves) {s : SimpleStore}
    (same : s.tree.SameAs t) {idx : Nat} (valid : g.Valid idx) :
    ∃ tree, SimpleTreeReader.lookup idx s = .ok (simpleKeys t idx) { s with tree := tree } ∧
      tree.SameAs t := by
  have result := h.lookupChunk valid
  have now := same.lookup idx
  have next := (SimpleMutableTree.lookupChunk_sameAs s.tree idx).trans same
  unfold SimpleTreeReader.lookup simpleKeys
  rw [result] at now ⊢
  generalize s.tree.lookupChunk idx = looked at now next ⊢
  obtain ⟨tree, result'⟩ := looked
  dsimp only at now next ⊢
  subst now
  exact ⟨tree, rfl, next⟩

lemma simpleReadCommitted (wf : t.WellFormed g) (there : SimpleBlobs t blobs)
    (inside : range.start + range.len ≤ g.sizeBytes) :
    ∃ block s, SimpleTreeReader.readCommitted range ⟨t, blobs⟩ = .ok block s ∧ s.blobs = blobs ∧
      s.tree.SameAs t ∧ CommittedBlock g blobs (simpleKeys t) range block := by
  obtain ⟨leaves, h⟩ := wf.hasLeaves
  have fits := g.size_fits
  obtain ⟨size, -⟩ := of_new wf.geometry
  obtain ⟨block, s', run, ⟨same, kept⟩, committed⟩ :=
    @readBlock_spec SimpleStore SimpleTreeReader.lookup
    SimpleTreeReader.getBlob range g (simpleKeys t) blobs (fun s => s.tree.SameAs t ∧
      s.blobs = blobs)
    (by
      rintro s idx ⟨same, kept⟩ valid
      obtain ⟨tree, looked, next⟩ := simpleLookup h same valid
      exact ⟨_, looked, next, kept⟩)
    (by
      rintro s ⟨-, rfl⟩ key offset len
      rfl)
    (fun idx key found => there.stored found) inside ⟨t, blobs⟩ ⟨.refl t, rfl⟩
  refine ⟨block, s', ?_, kept, same, committed⟩
  unfold SimpleTreeReader.readCommitted
  rw [get_bind]
  show ((liftM (validateRange "read" range t.state.sizeBytes) : EStateM Fault SimpleStore Unit) >>=
    _) _ = _
  rw [(validateRange_eq_ok (by omega)).2 (by rw [← size]; exact inside), lift_ok_bind]
  exact run

end Simple

/-- Reads of the committed trees of all sizes. A read inside the export of a well-formed tree, COW
or simple, returns a block, the parts of which are the ranges of `chunks_for_range`; its bytes are
those of the blobs of the chunks, and zero where a chunk has none. -/
theorem committed_reads_tile {format : TreeFormat} {size : Nat} (pos : 0 < size) (lt : size < I64) :
    ∃ g, TreeGeometry.new format size = .ok g ∧
    (∀ rootNodeId baseWalSeq stores range, CowTree g rootNodeId stores → range.start + range.len ≤
    size →
      ∃ block, CowTreeReader.readCommitted (.cowHead rootNodeId baseWalSeq size format) range
        stores =
          .ok block stores ∧
        CommittedBlock g stores.blobs (cowKeys g rootNodeId stores.rows) range block) ∧
    ∀ t blobs range, t.WellFormed g → SimpleBlobs t blobs → range.start + range.len ≤ size →
      ∃ block s, SimpleTreeReader.readCommitted range ⟨t, blobs⟩ = .ok block s ∧ s.blobs = blobs ∧
        s.tree.SameAs t ∧ CommittedBlock g blobs (simpleKeys t) range block := by
  have fits : size + (TREE_CHUNK_BYTES - 1) < U64 := by
    have : I64 + (TREE_CHUNK_BYTES - 1) < U64 := by decide
    omega
  obtain ⟨g, built⟩ := @new_eq_ok format size pos fits
  obtain ⟨is_size, -⟩ := of_new built
  refine ⟨g, built, ?_, ?_⟩
  · intro rootNodeId baseWalSeq stores range tree inside
    exact @CowTree.readCommitted g stores (.cowHead rootNodeId baseWalSeq size format) range tree
      format rfl
      built inside
  · intro t blobs range wf there inside
    exact simpleReadCommitted wf there (by rw [is_size]; exact inside)

def twoChunkGeometry : TreeGeometry where
  format := .bounded32V1
  fanout := 32
  chunkBytes := TREE_CHUNK_BYTES
  sizeBytes := 2 * TREE_CHUNK_BYTES
  rootLevel := 1
  fanout_eq := rfl
  chunk_eq := rfl
  size_pos := by decide
  size_fits := by decide
  level := ⟨le_rfl, by decide, .inl rfl⟩

/-- A COW tree whose second chunk was written, with fives. -/
def secondChunk : Stores where
  rows :=
    { nodes := fun n => match n with
        | 0 => some ⟨.cowImmutableTree, some 1, .internal, 1, 0, 2 * TREE_CHUNK_BYTES⟩
        | 1 => some ⟨.cowImmutableTree, some 1, .leaf, 0, TREE_CHUNK_BYTES, TREE_CHUNK_BYTES⟩
        | _ => none
      edges := fun n slot => if n = 0 ∧ slot = 1 then some 1 else none
      leafRefs := fun n => if n = 1 then some ⟨.immutableBlob, 7, TREE_CHUNK_BYTES⟩ else none }
  blobs := fun key => if key = 7 then some (List.replicate TREE_CHUNK_BYTES 5) else none

/-- A read across the boundary of two chunks of a COW tree, and one of a simple tree that was never
written. -/
theorem committed_reads_tile_boundary :
    (∃ block, CowTreeReader.readCommitted (.cowHead (some 0) 0 (2 * TREE_CHUNK_BYTES) .bounded32V1)
        (.new (TREE_CHUNK_BYTES - 1) 3) secondChunk = .ok block secondChunk ∧
      block.parts.length = 2 ∧ block.materialize = [0, 5, 5]) ∧
    ∃ block s, SimpleTreeReader.readCommitted (.new (TREE_CHUNK_BYTES - 1) 3)
        ⟨SimpleMutableTree.untouched, fun _ => none⟩ = .ok block s ∧ block.materialize =
        [0, 0, 0] := by
  constructor
  · obtain ⟨g, built, cow, -⟩ := @committed_reads_tile .bounded32V1 (2 * TREE_CHUNK_BYTES)
      (by decide)
      (by decide)
    cases built.symm.trans (rfl : TreeGeometry.new .bounded32V1 (2 * TREE_CHUNK_BYTES) =
      .ok twoChunkGeometry)
    have tree : CowTree twoChunkGeometry (some 0) secondChunk := by
      intro idx valid
      have : idx < 2 := Nat.lt_of_mul_lt_mul_right valid
      interval_cases idx
      · exact ⟨none, rfl, by simp⟩
      · refine ⟨some ⟨1, _, _⟩, rfl, fun l found => ?_⟩
        cases found
        exact ⟨rfl, _, rfl, List.length_replicate⟩
    obtain ⟨block, run, committed⟩ := cow (some 0) 0 secondChunk (.new (TREE_CHUNK_BYTES - 1) 3)
      tree
      (by decide)
    obtain ⟨chunks, cut, same, -⟩ := committed.cuts
    cases cut.symm.trans (rfl : twoChunkGeometry.chunksForRange (.new (TREE_CHUNK_BYTES - 1) 3) =
      .ok [⟨0, TREE_CHUNK_BYTES - 1, .new (TREE_CHUNK_BYTES - 1) 1⟩,
        ⟨1, 0, .new TREE_CHUNK_BYTES 2⟩])
    refine ⟨block, run, by simpa using congrArg List.length same, ?_⟩
    refine List.ext_getElem? fun i => ?_
    by_cases lt : i < 3
    · rw [committed.bytes i lt]
      interval_cases i
      · rfl
      · show (some (List.replicate TREE_CHUNK_BYTES (5 : UInt8))).bind (·[0]?) = some 5
        rw [Option.bind_some, List.getElem?_replicate, if_pos (by decide)]
      · show (some (List.replicate TREE_CHUNK_BYTES (5 : UInt8))).bind (·[1]?) = some 5
        rw [Option.bind_some, List.getElem?_replicate, if_pos (by decide)]
    · have len : block.materialize.length = 3 := committed.length
      rw [List.getElem?_eq_none (by omega), List.getElem?_eq_none (by simp; omega)]
  · obtain ⟨g, built, -, simple⟩ := @committed_reads_tile .bounded32V1 (40 * TREE_CHUNK_BYTES)
      (by decide)
      (by decide)
    have none_found : ∀ idx, (SimpleMutableTree.untouched.lookupChunk idx).2 = .ok none := by
      intro idx
      rw [SimpleMutableTree.lookupChunk_snd, SimpleMutableTree.findChunk,
        show TreeGeometry.new SimpleMutableTree.untouched.state.treeFormat
          SimpleMutableTree.untouched.state.sizeBytes = .ok g from built]
      rfl
    obtain ⟨block, s, run, -, -, committed⟩ := simple SimpleMutableTree.untouched (fun _ => none)
      (.new (TREE_CHUNK_BYTES - 1) 3)
      ⟨built, ⟨_, rfl, by decide, rfl⟩, fun _ _ => ⟨none, rfl, by simp⟩, fun _ _ known => by
        cases known⟩
      (fun idx key found => by rw [none_found idx] at found; cases found) (by decide)
    refine ⟨block, s, run, ?_⟩
    have len : block.materialize.length = 3 := committed.length
    refine List.ext_getElem? fun i => ?_
    by_cases lt : i < 3
    · rw [committed.bytes i lt, simpleKeys, none_found]
      interval_cases i <;> rfl
    · rw [List.getElem?_eq_none (by omega), List.getElem?_eq_none (by simp; omega)]

end NbdServer
