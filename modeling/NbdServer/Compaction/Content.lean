import NbdServer.Compaction.Cas

/-!
# Compaction preserves the content

In every run of `storeSystem` that starts with stored trees, the root that a compaction publishes
holds the content of its snapshot: the bytes of the old root under those of the overlay. The images
of the chunks hold this content (`ImagesOf`), the blobs that were put hold the images (`Written`),
and the new tree has the keys of these blobs and otherwise the keys of the old one.
-/

namespace NbdServer

open Lib TreeGeometry

/-- The images of a compaction are written, except those that are left. -/
structure Written (blobs : Blobs) (images : OrdMap Nat Buf) (left : List (Nat × Buf))
    (refs : OrdMap Nat CowChunkRef) : Prop where
  stored : ∀ idx ref, refs.find idx = some ref → ref.chunkIndex = idx ∧
    ∃ data, images.find idx = some data ∧ blobs ref.blobKey = some data
  rest : ∀ idx data, images.find idx = some data → (idx, data) ∈ left ∨ (refs.find idx).isSome
  left : ∀ entry ∈ left, images.find entry.1 = some entry.2

section NewTree

variable {g : TreeGeometry} {old new : Stores} {oldRoot newRoot : Option NodeId}
variable {leaves₀ leaves : Nat → Found} {images : OrdMap Nat Buf} {refs : OrdMap Nat CowChunkRef}
variable {content : Nat → UInt8}

lemma newLeaf_cases (holds : g.HoldsRoot .cowImmutableTree old.rows oldRoot leaves₀)
    (tree : g.HoldsRoot .cowImmutableTree new.rows newRoot leaves)
    (chunks : NewLeaves (refs.entries.map (·.2)) leaves₀ leaves)
    (written : Written new.blobs images [] refs) {idx : Nat} (valid : g.Valid idx) :
    (∃ (leaf : LoadedTreeLeaf) (ref : CowChunkRef) (data : Buf),
      LazyTreeMetadataReader.loadLeaf ⟨g, .cowImmutableTree, newRoot⟩ new.rows idx =
        .ok (some leaf) ∧ leaf.leafRef.storageKind = .immutableBlob ∧
        leaf.leafRef.storageKey = ref.blobKey ∧ images.find idx = some data ∧
        new.blobs ref.blobKey = some data) ∨
    images.find idx = none ∧ LazyTreeMetadataReader.loadLeaf ⟨g, .cowImmutableTree, newRoot⟩
      new.rows idx =
      LazyTreeMetadataReader.loadLeaf ⟨g, .cowImmutableTree, oldRoot⟩ old.rows idx := by
  rw [tree.loadLeaf_eq valid, holds.loadLeaf_eq valid]
  cases found : refs.find idx with
  | some ref =>
    obtain ⟨index, data, image, stored⟩ := written.stored idx ref found
    obtain ⟨leaf, is, is_leaf⟩ :=
      chunks.made ref (List.mem_map.2 ⟨_, OrdMap.find_eq_some.1 found, rfl⟩)
    rw [index] at is
    refine .inl ⟨⟨idx, leaf.1, leaf.2⟩, ref, data, ?_, is_leaf.kind, is_leaf.key, image, stored⟩
    rw [is]
    rfl
  | none =>
    have off : idx ∉ (refs.entries.map (·.2)).map (·.chunkIndex) := by
      intro mem
      obtain ⟨ref, mem_ref, index⟩ := List.mem_map.1 mem
      obtain ⟨entry, mem_entry, rfl⟩ := List.mem_map.1 mem_ref
      have is := OrdMap.find_eq_some.2 mem_entry
      rw [← index, (written.stored entry.1 entry.2 is).1, is] at found
      cases found
    refine .inr ⟨?_, by rw [chunks.kept idx off]⟩
    cases image : images.find idx with
    | none => rfl
    | some data =>
      rcases written.rest idx data image with mem | is
      · cases mem
      · rw [found] at is
        cases is

lemma newTree_content (before : CowTree g oldRoot old)
    (grows : ∀ key bytes, old.blobs key = some bytes → new.blobs key = some bytes)
    (holds : g.HoldsRoot .cowImmutableTree old.rows oldRoot leaves₀)
    (tree : g.HoldsRoot .cowImmutableTree new.rows newRoot leaves)
    (chunks : NewLeaves (refs.entries.map (·.2)) leaves₀ leaves)
    (written : Written new.blobs images [] refs)
    (imaged : ImagesOf g (old.content g oldRoot) content images) :
    CowTree g newRoot new ∧
      ∀ x, g.Valid (x / TREE_CHUNK_BYTES) → new.content g newRoot x = content x := by
  constructor
  · intro idx valid
    rcases newLeaf_cases holds tree chunks written valid with
      ⟨leaf, ref, data, load, kind, key, image, stored⟩ | ⟨-, load⟩
    · refine ⟨some leaf, load, ?_⟩
      intro l is
      cases is
      exact ⟨kind, data, key ▸ stored, (imaged.image idx data image).2.1⟩
    · obtain ⟨leaf, load', all⟩ := before idx valid
      refine ⟨leaf, load.trans load', ?_⟩
      intro l is
      obtain ⟨kind, bytes, stored, len⟩ := all l is
      exact ⟨kind, bytes, grows _ _ stored, len⟩
  · intro x valid
    have in_chunk := Nat.mod_lt x (show 0 < TREE_CHUNK_BYTES by decide)
    rcases newLeaf_cases holds tree chunks written valid with
      ⟨leaf, ref, data, load, kind, key, image, stored⟩ | ⟨no_image, load⟩
    · have bytes := (imaged.image _ data image).2.2 _ in_chunk
      rw [Nat.div_add_mod'] at bytes
      rw [Stores.content, cowKeys_eq load, Option.map_some, key, committedByte, stored,
        Option.bind_some, bytes]
      rfl
    · rw [imaged.rest x no_image, Stores.content, Stores.content, cowKeys, load]
      show (committedByte new.blobs (cowKeys g oldRoot old.rows (x / TREE_CHUNK_BYTES)) x).getD 0 =
        _
      cases found : cowKeys g oldRoot old.rows (x / TREE_CHUNK_BYTES) with
      | none => rfl
      | some key =>
        obtain ⟨bytes, stored, -⟩ := before.stored found
        rw [committedByte, committedByte, stored, grows _ _ stored]

end NewTree

/-! ## The invariant of a run -/

def Compaction.stores (c : Compaction) : Stores := ⟨c.tables.toTreeRows, c.blobs⟩

def Compaction.content (c : Compaction) : Nat → UInt8 :=
  c.snapshot.contentOver (c.stores.committed c.snapshot.root)

/-- The phase of a compaction, where `g` is the geometry of its export: what it has read, and that
its images hold the content that it publishes. -/
def Compaction.Holds (now : Stores) (g : TreeGeometry) (c : Compaction) : Prop :=
  match c.phase with
  | .imaging seen => ∀ s ∈ seen, c.stores.Grows s
  | .writing chunks left refs _ =>
    ImagesOf g (c.stores.committed c.snapshot.root) c.content chunks.images ∧
      Written now.blobs chunks.images left refs
  | .done result => ∀ fault, result = .error fault → ∃ e, fault = .err e

/-- What is known of a compaction: the tree of its root was stored when it started. -/
structure CompactionHolds (now : Stores) (c : Compaction) : Prop where
  grows : c.stores.Grows now
  holds : ∃ g, StoredRoot c.stores c.snapshot.root g ∧ c.Holds now g

/-- What is known of a committed publish: both trees are stored, and the new one holds the content
of the snapshot. -/
structure PublicationHolds (now : Stores) (p : Publication) : Prop where
  old : ∃ g, StoredRoot now p.snapshot.root g
  new : ∃ g, StoredRoot now p.root g
  publishes : ViewWorld.Publishes now.committed p.snapshot p.root

/-- The invariant of a run: all trees are stored, and what was published holds what it should. -/
structure ContentInv (w : StoreWorld) : Prop where
  roots : ∀ p ∈ w.roots, ∃ g, StoredRoot w.stores p.2 g
  compactions : ∀ c ∈ w.compactions, CompactionHolds w.stores c
  publications : ∀ p ∈ w.publications, PublicationHolds w.stores p
  returned : ∀ c ∈ w.compactions, ∀ result, c.phase = .done (.ok result) → result.outcome =
    .published →
    ∃ root, result.publishedRoot = some root ∧ ⟨c.exportId, c.snapshot, root⟩ ∈ w.publications

section Grows

variable {now now' : Stores}

lemma Written.grows {blobs blobs' : Blobs} {images : OrdMap Nat Buf} {left : List (Nat × Buf)}
    {refs : OrdMap Nat CowChunkRef} (h : Written blobs images left refs)
    (kept : ∀ key bytes, blobs key = some bytes → blobs' key = some bytes) :
    Written blobs' images left refs := by
  refine ⟨?_, h.rest, h.left⟩
  intro idx ref found
  obtain ⟨index, data, image, stored⟩ := h.stored idx ref found
  exact ⟨index, data, image, kept _ _ stored⟩

lemma CompactionHolds.mono {c : Compaction} (h : CompactionHolds now c) (grows : now.Grows now') :
    CompactionHolds now' c := by
  obtain ⟨g, stored, holds⟩ := h.holds
  refine ⟨h.grows.trans grows, g, stored, ?_⟩
  unfold Compaction.Holds at holds ⊢
  split
  · rename_i phase
    rwa [phase] at holds
  · rename_i phase
    rw [phase] at holds
    exact ⟨holds.1, holds.2.grows grows.blobs⟩
  · rename_i phase
    rwa [phase] at holds

lemma PublicationHolds.mono {p : Publication} (h : PublicationHolds now p)
    (grows : now.Grows now') :
    PublicationHolds now' p := by
  obtain ⟨⟨g, old⟩, ⟨g', new⟩, size_eq, base_eq, content⟩ := h
  refine ⟨⟨g, old.grows grows⟩, ⟨g', new.grows grows⟩, size_eq, base_eq, ?_⟩
  intro x lt
  rw [new.committed_grows grows, content x lt, old.committed_grows grows]

end Grows

lemma Written.put {blobs blobs' : Blobs} {images : OrdMap Nat Buf} {idx : Nat} {data : Buf}
    {left : List (Nat × Buf)} {refs : OrdMap Nat CowChunkRef} {draw : Nat → BlobKey} {key : BlobKey}
    (h : Written blobs images ((idx, data) :: left) refs)
    (run : blobs.putRandomBlob draw data = .ok (blobs', key)) :
    Written blobs' images left (refs.insert idx ⟨idx, key, TREE_CHUNK_BYTES, rfl⟩) := by
  have kept := h.grows fun k bytes stored => Blobs.putRandomBlob_kept run stored
  constructor
  · intro k ref found
    rw [OrdMap.find_insert] at found
    split_ifs at found with same
    · cases found
      refine ⟨same.symm, data, by rw [same]; exact h.left _ List.mem_cons_self, ?_⟩
      obtain ⟨-, rfl⟩ := Blobs.putFirst_eq_ok run
      exact Function.update_self ..
    · exact kept.stored k ref found
  · intro k bytes image
    rw [OrdMap.find_insert]
    split_ifs with same
    · exact .inr rfl
    · rcases h.rest k bytes image with mem | is
      · rcases List.mem_cons.1 mem with this | mem
        · cases this
          exact absurd rfl same
        · exact .inl mem
      · exact .inr is
  · exact fun entry mem => h.left entry (List.mem_cons_of_mem _ mem)

lemma CompactionHolds.moves {now : Stores} {c : Compaction} {phase : CompactionPhase}
    {blobs : Blobs} (h : CompactionHolds now c) (moves : c.Moves now phase blobs) :
    now.Grows ⟨now.rows, blobs⟩ ∧ CompactionHolds ⟨now.rows, blobs⟩ { c with phase := phase } := by
  obtain ⟨grows, g, stored, holds⟩ := h
  unfold Compaction.Holds at holds
  cases moves with
  | seeStores is =>
    rw [is] at holds
    refine ⟨.refl _, grows, g, stored, fun s mem => ?_⟩
    rcases List.mem_append.1 mem with mem | mem
    · exact holds s mem
    · rw [List.mem_singleton.1 mem]
      exact grows
  | seeRows is =>
    rw [is] at holds
    exact ⟨.refl _, grows, g, stored, holds⟩
  | images is run =>
    rw [is] at holds
    refine ⟨.refl _, grows, g, stored, ?_⟩
    rcases applySlices_spec (StoreWorld.atRead_all grows holds) stored c.snapshot.targetWalSeq
      (slicePart_allSlices c.snapshot.overlay) with ⟨e, failed⟩ | ⟨chunks, run', images⟩
    · rw [failed] at run
      cases run
    · rw [run'] at run
      cases run
      rw [c.snapshot.foldl_allSlices] at images
      refine ⟨images, fun idx ref found => (by cases found), fun idx data image => ?_,
        fun entry mem => ?_⟩
      · exact .inl (OrdMap.find_eq_some.1 image)
      · exact OrdMap.find_eq_some.2 mem
  | imageFault is run =>
    rw [is] at holds
    refine ⟨.refl _, grows, g, stored, ?_⟩
    rcases applySlices_spec (StoreWorld.atRead_all grows holds) stored c.snapshot.targetWalSeq
      (slicePart_allSlices c.snapshot.overlay) with ⟨e, failed⟩ | ⟨chunks, run', -⟩
    · rw [failed] at run
      cases run
      intro fault same
      cases same
      exact ⟨e, rfl⟩
    · rw [run'] at run
      cases run
  | put is run =>
    rw [is] at holds
    have kept : now.Grows ⟨now.rows, blobs⟩ :=
      ⟨.refl _, fun key bytes stored => Blobs.putRandomBlob_kept run stored⟩
    exact ⟨kept, grows.trans kept, g, stored, holds.1, holds.2.put run⟩
  | unpublished other errors => exact ⟨.refl _, grows, g, stored, errors⟩

lemma CompactionHolds.publication {w : StoreWorld} {c : Compaction} {chunks : ChunkImages}
    {refs : OrdMap Nat CowChunkRef} {seen : List TreeRows} {db : Catalog} {root : RootSnapshot}
    (h : CompactionHolds w.stores c) (phase : c.phase = .writing chunks [] refs seen)
    (replaces : Replaces w.db db c (refs.entries.map (·.2)) root) :
    PublicationHolds ⟨db.tables.toTreeRows, w.blobs⟩ ⟨c.exportId, c.snapshot, root⟩ := by
  obtain ⟨grows, g, stored, holds⟩ := h
  rw [Compaction.Holds, phase] at holds
  obtain ⟨images, written⟩ := holds
  obtain ⟨-, later, base, format, g', leaves₀, leaves, old, new, chunks_new⟩ := replaces
  have now : w.stores.Grows ⟨db.tables.toTreeRows, w.blobs⟩ := ⟨later, fun _ _ h => h⟩
  have same : g' = g := by
    obtain ⟨format', is_format, built⟩ := stored.built
    rw [old.is_format] at is_format
    cases is_format
    rw [old.built] at built
    cases built
    rfl
  subst same
  have committed : c.stores.committed c.snapshot.root =
      c.stores.content g' c.snapshot.root.rootNodeId :=
    funext stored.committed_eq
  rw [committed] at images
  obtain ⟨tree, content⟩ := @newTree_content g' c.stores ⟨db.tables.toTreeRows, w.blobs⟩ _ _ _ _ _ _
    _
    stored.tree grows.blobs old.holds new.holds chunks_new written images
  have is_new : StoredRoot ⟨db.tables.toTreeRows, w.blobs⟩ root g' :=
    ⟨⟨format, new.is_format, new.built⟩, tree⟩
  have size := is_new.size_eq.symm.trans stored.size_eq
  refine ⟨⟨g', (stored.grows grows).grows now⟩, ⟨g', is_new⟩, size, base, fun x lt => ?_⟩
  have valid : g'.Valid (x / TREE_CHUNK_BYTES) := by
    show _ * TREE_CHUNK_BYTES < g'.sizeBytes
    have lt : x < c.snapshot.root.sizeBytes := lt
    have := Nat.div_mul_le_self x TREE_CHUNK_BYTES
    rw [stored.size_eq]
    omega
  rw [is_new.committed_eq, content x valid]
  show c.snapshot.contentOver _ x = c.snapshot.contentOver _ x
  rw [CompactionSnapshot.contentOver, CompactionSnapshot.contentOver,
    stored.committed_grows (grows.trans now)]

namespace ContentInv

variable {w w' : StoreWorld}

lemma grow (inv : ContentInv w) {db : Catalog} {blobs : Blobs}
    (grows : w.stores.Grows ⟨db.tables.toTreeRows, blobs⟩) :
    ContentInv { w with db := db, blobs := blobs } where
  roots p mem := by
    obtain ⟨g, stored⟩ := inv.roots p mem
    exact ⟨g, stored.grows grows⟩
  compactions c mem := (inv.compactions c mem).mono grows
  publications p mem := (inv.publications p mem).mono grows
  returned := inv.returned

lemma insert (inv : ContentInv w) (store : StoreInv w) {db : Catalog} {record : ExportRecord}
    (inserted : w.db.insertExport record = .ok db) (origin : NewHead w.db.exports record.head) :
    ContentInv (w.withExport db record) := by
  obtain ⟨exports, tables, fresh, is_stored⟩ := Catalog.insertExport_eq_ok inserted
  have same : (w.withExport db record).stores = w.stores := by
    show Stores.mk db.tables.toTreeRows w.blobs = ⟨w.db.tables.toTreeRows, w.blobs⟩
    rw [tables]
  refine ⟨?_, ?_, ?_, inv.returned⟩
  · rintro ⟨id, root⟩ mem
    rw [same]
    rcases List.mem_append.1 mem with mem | mem
    · exact inv.roots _ mem
    · obtain ⟨e, is, is_root, -⟩ := StoreWorld.mem_rootsOf.1 mem
      rw [List.mem_singleton.1 is] at is_root
      obtain ⟨size, rootNodeId, base, format, is_head, rfl⟩ :=
        ExportRecord.cowRoot_eq_some.1 is_root
      rcases origin with none | ⟨source, is_mem, size', root', base', format', is_source, is_head'⟩
      · rw [is_head] at none is_stored
        obtain ⟨g, built⟩ := @new_eq_ok format size is_stored.pos (by
          have : I64 + (TREE_CHUNK_BYTES - 1) < U64 := by decide
          have : size < I64 := is_stored.size
          omega)
        cases none
        refine ⟨g, ⟨format, rfl, built⟩, fun idx valid => ⟨Option.none, rfl, ?_⟩⟩
        exact fun leaf is => by cases is
      · rw [is_head] at is_head'
        cases is_head'
        obtain ⟨g, built, tree⟩ := inv.roots _ (store.current source is_mem _
          (ExportRecord.cowRoot_eq_some.2 ⟨_, _, _, _, is_source, rfl⟩))
        exact ⟨g, built, tree⟩
  · rw [same]
    exact inv.compactions
  · rw [same]
    exact inv.publications

lemma start (inv : ContentInv w) {exportId : ExportId} {snapshot : CompactionSnapshot}
    (legal : (exportId, snapshot.root) ∈ w.roots) : ContentInv { w with
      compactions := w.compactions ++ [.start exportId snapshot w.db.tables w.blobs] } := by
  refine ⟨inv.roots, ?_, inv.publications, ?_⟩
  · intro c mem
    rcases List.mem_append.1 mem with mem | mem
    · exact inv.compactions c mem
    · rw [List.mem_singleton.1 mem]
      obtain ⟨g, stored⟩ := inv.roots _ legal
      unfold Compaction.start
      dsimp only
      split_ifs
      · exact ⟨.refl _, g, stored, fun fault same => (by cases same)⟩
      · exact ⟨.refl _, g, stored, fun s mem => (by cases mem)⟩
  · intro c mem result done published
    rcases List.mem_append.1 mem with mem | mem
    · exact inv.returned c mem result done published
    · rw [List.mem_singleton.1 mem] at done
      unfold Compaction.start at done
      dsimp only at done
      split_ifs at done
      cases done
      cases published

lemma move (inv : ContentInv w) {i : Nat} {c : Compaction} {phase : CompactionPhase} {blobs : Blobs}
    (found : w.compactions[i]? = some c) (moves : c.Moves w.stores phase blobs) :
    ContentInv { w.setPhase i c phase with blobs := blobs } := by
  obtain ⟨grows, ok⟩ := (inv.compactions c (List.mem_of_getElem? found)).moves moves
  have grown := inv.grow grows
  refine ⟨grown.roots, ?_, grown.publications, ?_⟩
  · intro c' mem
    rcases List.mem_or_eq_of_mem_set mem with mem | rfl
    · exact grown.compactions c' mem
    · exact ok
  · intro c' mem result done published
    rcases List.mem_or_eq_of_mem_set mem with mem | rfl
    · exact inv.returned c' mem result done published
    · cases done
      cases moves with
      | unpublished other _ => exact absurd published (other _ rfl)

lemma publish (inv : ContentInv w) {i : Nat} {c : Compaction} {chunks : ChunkImages}
    {refs : OrdMap Nat CowChunkRef} {seen : List TreeRows} {db : Catalog} {root : RootSnapshot}
    {reported : Res CompactionResult} (found : w.compactions[i]? = some c)
    (phase : c.phase = .writing chunks [] refs seen)
    (replaces : Replaces w.db db c (refs.entries.map (·.2)) root)
    (reported_eq : reported = .ok (c.result chunks.visibleRecords.entries.length refs.entries.length
      .published (some root)) ∨ ∃ e, reported = fail e) :
    ContentInv { w.setPhase i c (.done reported) with
      db := db
      roots := w.roots ++ [(c.exportId, root)]
      publications := w.publications ++ [⟨c.exportId, c.snapshot, root⟩] } := by
  have ok := inv.compactions c (List.mem_of_getElem? found)
  have installed := ok.publication phase replaces
  have grows : w.stores.Grows ⟨db.tables.toTreeRows, w.blobs⟩ := ⟨replaces.later, fun _ _ h => h⟩
  have grown := inv.grow grows
  refine ⟨?_, ?_, ?_, ?_⟩
  · intro p mem
    rcases List.mem_append.1 mem with mem | mem
    · exact grown.roots p mem
    · rw [List.mem_singleton.1 mem]
      exact installed.new
  · intro c' mem
    rcases List.mem_or_eq_of_mem_set mem with mem | rfl
    · exact grown.compactions c' mem
    · obtain ⟨before, g, stored, -⟩ := ok
      refine ⟨before.trans grows, g, stored, ?_⟩
      intro fault failed
      rcases reported_eq with rfl | ⟨e, rfl⟩
      · cases failed
      · cases failed
        exact ⟨e, rfl⟩
  · intro p mem
    rcases List.mem_append.1 mem with mem | mem
    · exact grown.publications p mem
    · rw [List.mem_singleton.1 mem]
      exact installed
  · intro c' mem result done published
    rcases List.mem_or_eq_of_mem_set mem with mem | rfl
    · obtain ⟨root', is_root, mem⟩ := inv.returned c' mem result done published
      exact ⟨root', is_root, List.mem_append_left _ mem⟩
    · cases done
      rcases reported_eq with same | ⟨e, same⟩
      · cases same
        exact ⟨root, rfl, List.mem_append_right _ List.mem_cons_self⟩
      · cases same

lemma step (inv : ContentInv w) (store : StoreInv w) (st : StoreStep w w') : ContentInv w' := by
  cases st with
  | same => exact inv
  | insert inserted origin => exact inv.insert store inserted origin
  | delete tables exports same =>
    refine inv.grow ?_
    rw [tables]
    exact .refl _
  | start legal => exact inv.start legal
  | move found moves => exact inv.move found moves
  | publish found phase lt replaces reported_eq =>
    exact inv.publish found phase replaces reported_eq

end ContentInv

/-- The trees of a catalog with their blobs: `load_leaf` returns from all heads, and the leaves of
COW trees have blobs of one chunk. -/
structure WellStored (db : Catalog) (blobs : Blobs) : Prop where
  loads : ∀ e ∈ db.exports, HeadLoads db.tables.toTreeRows e.head
  stored : ∀ e ∈ db.exports, ∀ root, e.cowRoot = some root →
    ∃ g, StoredRoot ⟨db.tables.toTreeRows, blobs⟩ root g

lemma ContentInv.of_reachable {db : Catalog} {blobs : Blobs} {w : StoreWorld}
    (well : WellStored db blobs) (reach : (storeSystem db blobs).Reachable w) :
    StoreInv w ∧ ContentInv w := by
  refine @System.invariant _ _ _ (fun w => StoreInv w ∧ ContentInv w) ?_ ?_ _ reach
  · rintro _ rfl
    refine ⟨.new well.loads, ?_, by simp [StoreWorld.new], by simp [StoreWorld.new], by
      simp [StoreWorld.new]⟩
    rintro ⟨id, root⟩ mem
    obtain ⟨e, is, is_root, -⟩ := StoreWorld.mem_rootsOf.1 mem
    exact well.stored e is root is_root
  · rintro s e s' ⟨store, content⟩ ⟨legal, st⟩
    have step := StoreStep.of_next store.compactions legal st
    exact ⟨store.step step, content.step store step⟩

/-- Compaction preserves the content of an export. In every run that starts with stored trees: what
a compaction published reads, at any later moment, as its old root under the bytes of its snapshot's
overlay, and its WAL sequence is the target of the snapshot; a result `Published` reports such a
root; no compaction ends in a panic; and the snapshot of a read view stands for the records that
were applied before it was captured, so that those applied later do not count. -/
theorem compaction_preserves_content {db : Catalog} {blobs : Blobs} {w : StoreWorld}
    (well : WellStored db blobs) (reach : (storeSystem db blobs).Reachable w) :
    (∀ p ∈ w.publications, p.root.baseWalSeq = p.snapshot.targetWalSeq ∧
      ∀ range : ByteRange, range.start + range.len ≤ p.snapshot.root.sizeBytes → ∃ old new,
        CowTreeReader.readCommitted p.snapshot.root range w.stores = .ok old w.stores ∧
        CowTreeReader.readCommitted p.root range w.stores = .ok new w.stores ∧
        new.range = range ∧ ∀ i < range.len, new.materialize[i]? =
          match p.snapshot.overlay.writer (range.start + i) with
          | some record => record.byteAt (range.start + i)
          | none => old.materialize[i]?) ∧
    (∀ c ∈ w.compactions, ∀ result, c.phase = .done (.ok result) → result.outcome = .published →
      ∃ root, result.publishedRoot = some root ∧ ⟨c.exportId, c.snapshot, root⟩ ∈ w.publications) ∧
    (∀ c ∈ w.compactions, ∀ message, c.phase ≠ .done (.error (.abort message))) ∧
    ∀ p ∈ w.publications, ∀ id first budget vw, (id, first) ∈ w.roots →
      (viewSystem w.stores.committed first budget).Reachable vw → p.snapshot ∈ vw.snapshots →
      ∃ before, before <+: vw.applied ∧ first.baseWalSeq + before.length = p.snapshot.targetWalSeq ∧
        ∀ x < first.sizeBytes, w.stores.committed p.root x =
          contentAfter (w.stores.committed first) before x := by
  obtain ⟨store, inv⟩ := ContentInv.of_reachable well reach
  refine ⟨?_, inv.returned, ?_, ?_⟩
  · intro p mem
    obtain ⟨⟨g, old⟩, ⟨g', new⟩, size_eq, base_eq, content⟩ := inv.publications p mem
    refine ⟨base_eq, fun range inside => ?_⟩
    obtain ⟨block, run, is_range, holds⟩ := old.readCommitted inside
    obtain ⟨block', run', is_range', holds'⟩ := new.readCommitted (size_eq ▸ inside)
    refine ⟨block, block', run, run', is_range', fun i lt => ?_⟩
    have now := holds' i (is_range'.symm ▸ lt)
    have before := holds i (is_range.symm ▸ lt)
    rw [is_range'] at now
    rw [is_range] at before
    rw [now, before, content _ (by omega)]
    cases found : p.snapshot.overlay.writer (range.start + i) with
    | none => rfl
    | some record => exact (WalRecord.byteAt_eq (OverlayExtentMap.writer_has found)).symm
  · intro c mem message done
    obtain ⟨-, g, -, holds⟩ := inv.compactions c mem
    rw [Compaction.Holds, done] at holds
    obtain ⟨e, same⟩ := holds _ rfl
    cases same
  · intro p mem id first budget vw is_root run captured
    obtain ⟨format, g, leaves, tree⟩ := store.roots _ is_root
    have view := ViewInv.of_reachable (sizeBytes_fits (Nat.le_pred_of_lt tree.size)) run
    obtain ⟨done, pending, snapshot⟩ := view.snapshots _ captured
    refine ⟨done ++ pending, snapshot.initial, ?_,
      snapshot.publishes (inv.publications p mem).publishes⟩
    rw [snapshot.target_eq, List.length_append, Nat.add_assoc]

lemma wellStored_empty : WellStored .empty fun _ => none :=
  ⟨fun e mem => (by cases mem), fun e mem => (by cases mem)⟩

lemma published_once : ∃ sn w root, sn.root.sizeBytes = 8 ∧
    sn.overlay.allSlices = [⟨1, 3, twoBytes, 0⟩] ∧
    (storeSystem .empty fun _ => none).Reachable w ∧ w.publications = [⟨1, sn, root⟩] := by
  obtain ⟨sn, chunks, chunks', blobs, blobs', ⟨is_root, target, slices⟩, reach⟩ :=
    twoCompactions_reachable
  obtain ⟨current, found, is⟩ := Option.map_eq_some_iff.1
    (show (oneStore.db.find 1).map (fun e => (e.state, e.cowRoot)) =
      some (.active, some (.cowHead none 0 8 .bounded32V1)) from rfl)
  obtain ⟨active, same⟩ := Prod.mk.inj is
  obtain ⟨later, loads, -, -, refs_ok, seen⟩ :=
    (StoreInv.of_reachable wellStored_empty.loads reach).compactions _ List.mem_cons_self
  have fresh : FreshIds id oneStore.stores.rows := ⟨Function.injective_id, fun k => rfl⟩
  obtain ⟨db, format, publish⟩ := @Compaction.publish_current _ oneStore.db chunks _
    (fun _ => oneStore.stores.rows) id id _ loads refs_ok (fun _ => TreeRows.Later.refl _) later
      fresh
    (fun l => List.Perm.refl l) (List.cons_ne_nil _ _) found (by rw [active]; decide)
    (by rw [same, is_root]) (by rw [target]; decide)
  have published := StoreWorld.next_publish (show (twoCompactions sn chunks chunks' blobs
    blobs').compactions[0]? = _ from rfl) rfl publish
  exact ⟨sn, _, _, by rw [is_root]; rfl, slices, .step
    (l := StoreEvent.publish 0 id id false) reach ⟨⟨fresh, fun l => .refl l⟩, published⟩, rfl⟩

/-- `compaction_preserves_content` at this publish: its root reads the two bytes. -/
theorem compaction_preserves_content_two_bytes : ∃ w root new,
    (storeSystem .empty fun _ => none).Reachable w ∧ w.publications.map (·.root) = [root] ∧
      CowTreeReader.readCommitted root (.new 1 2) w.stores = .ok new w.stores ∧
      new.materialize = [7, 9] := by
  obtain ⟨sn, w, root, size, slices, reach, published⟩ := published_once
  obtain ⟨content, -⟩ := compaction_preserves_content wellStored_empty reach
  obtain ⟨-, reads⟩ := content ⟨1, sn, root⟩ (published ▸ List.mem_cons_self)
  obtain ⟨old, new, -, run, is_range, bytes⟩ := reads (.new 1 2) (by rw [size]; decide)
  refine ⟨w, root, new, reach, by rw [published]; rfl, run, List.ext_getElem? fun i => ?_⟩
  have len : new.materialize.length = 2 := by rw [new.length_materialize, is_range]; rfl
  have writer : ∀ x, 1 ≤ x → x < 3 → sn.overlay.writer x = some twoBytes := fun x low high =>
    OverlayExtentMap.writer_of_slice (slices ▸ List.mem_cons_self) low high
  match i with
  | 0 =>
    rw [bytes 0 (by decide), writer _ (by decide) (by decide)]
    rfl
  | 1 =>
    rw [bytes 1 (by decide), writer _ (by decide) (by decide)]
    rfl
  | i + 2 => rw [List.getElem?_eq_none (by omega), List.getElem?_eq_none (by simp)]

end NbdServer
