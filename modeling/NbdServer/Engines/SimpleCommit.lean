import NbdServer.Engines.SimpleTree

/-!
# Commits of the simple mutable tree

What `commit_new_chunks` does to a well-formed tree: it succeeds exactly for distinct chunks of the
export that have no blob yet, and then the lookups of these chunks return their blobs and all others
return what they did, in the tree itself and in one that is loaded from the catalog. A commit that
fails leaves the catalog and all lookups as they were.
-/

namespace NbdServer

open Lib TreeGeometry

namespace SimpleMutableTree

/-- The catalog has the head of the tree, `load_leaf` returns for every chunk of the export, and
what the tree remembers is what `load_leaf` returns. -/
structure WellFormed (t : SimpleMutableTree) (g : TreeGeometry) : Prop where
  geometry : TreeGeometry.new t.state.treeFormat t.state.sizeBytes = .ok g
  stored : ∃ e, t.catalog.find t.state.exportId = some e ∧ e.state ≠ .deleted ∧
    e.head = .simpleMutableTree t.state.sizeBytes t.state.rootNodeId t.state.treeFormat
  loads : ∀ idx, g.Valid idx → ∃ leaf,
    LazyTreeMetadataReader.loadLeaf ⟨g, .simpleMutableTree, t.state.rootNodeId⟩
      t.catalog.tables.toTreeRows idx = .ok leaf ∧
    ∀ l ∈ leaf, l.leafRef.storageKind = .mutableBlob ∧ l.leafRef.lenBytes = SIMPLE_CHUNK_BYTES
  memo : ∀ idx chunk, t.state.chunks idx = some chunk → ∃ leaf,
    LazyTreeMetadataReader.loadLeaf ⟨g, .simpleMutableTree, t.state.rootNodeId⟩
      t.catalog.tables.toTreeRows idx = .ok (some leaf) ∧ leaf.leafRef.storageKey = chunk.blobKey

def reload (t : SimpleMutableTree) : Res SimpleMutableTree :=
  match t.catalog.find t.state.exportId with
  | none => fail (.catalog s!"export head `{t.state.exportId}` not found")
  | some record => load t.catalog t.state.exportId record.head

structure HasLeaves (t : SimpleMutableTree) (g : TreeGeometry) (leaves : Nat → Found) : Prop where
  geometry : TreeGeometry.new t.state.treeFormat t.state.sizeBytes = .ok g
  stored : ∃ e, t.catalog.find t.state.exportId = some e ∧ e.state ≠ .deleted ∧
    e.head = .simpleMutableTree t.state.sizeBytes t.state.rootNodeId t.state.treeFormat
  holds : g.HoldsRoot .simpleMutableTree t.catalog.tables.toTreeRows t.state.rootNodeId leaves
  kinds : ∀ idx leaf, g.Valid idx → leaves idx = some leaf →
    leaf.2.storageKind = .mutableBlob ∧ leaf.2.lenBytes = SIMPLE_CHUNK_BYTES
  memo : ∀ idx chunk, t.state.chunks idx = some chunk → g.Valid idx ∧ ∃ leaf,
    leaves idx = some leaf ∧ leaf.2.storageKey = chunk.blobKey

variable {t t' : SimpleMutableTree} {g : TreeGeometry} {leaves : Nat → Found}

lemma valid_of_loadLeaf {rows : TreeRows} {layout : ExportLayoutKind} {root : Option NodeId}
    {idx : Nat} {leaf : LoadedTreeLeaf}
    (run : LazyTreeMetadataReader.loadLeaf ⟨g, layout, root⟩ rows idx = .ok (some leaf)) :
    g.Valid idx := by
  cases root with
  | none => cases run
  | some root => exact ((LazyTreeMetadataReader.loadLeaf_eq_ok rfl).1 run).1

lemma WellFormed.hasLeaves (wf : t.WellFormed g) : ∃ leaves, t.HasLeaves g leaves := by
  obtain ⟨leaves, holds⟩ := holdsRoot_of_loadLeaf fun idx valid =>
    (wf.loads idx valid).imp fun _ h => h.1
  refine ⟨leaves, wf.geometry, wf.stored, holds, ?_, ?_⟩
  · intro idx leaf valid found
    obtain ⟨loaded, run, kinds⟩ := wf.loads idx valid
    rw [holds.loadLeaf_eq valid, found] at run
    cases run
    exact kinds _ rfl
  · intro idx chunk known
    obtain ⟨loaded, run, key⟩ := wf.memo idx chunk known
    have valid := valid_of_loadLeaf run
    refine ⟨valid, ?_⟩
    rw [holds.loadLeaf_eq valid, Except.ok.injEq] at run
    obtain ⟨leaf, found, rfl⟩ := Option.map_eq_some_iff.1 run
    exact ⟨leaf, found, key⟩

lemma HasLeaves.wellFormed (h : t.HasLeaves g leaves) : t.WellFormed g := by
  refine ⟨h.geometry, h.stored, ?_, ?_⟩
  · intro idx valid
    refine ⟨_, h.holds.loadLeaf_eq valid, ?_⟩
    intro l mem
    obtain ⟨leaf, found, rfl⟩ := Option.map_eq_some_iff.1 mem
    exact h.kinds idx leaf valid found
  · intro idx chunk known
    obtain ⟨valid, leaf, found, key⟩ := h.memo idx chunk known
    refine ⟨⟨idx, leaf.1, leaf.2⟩, ?_, key⟩
    rw [h.holds.loadLeaf_eq valid, found]
    rfl

/-! ## Lookups -/

lemma lookupChunk_snd (t : SimpleMutableTree) (idx : Nat) :
    (t.lookupChunk idx).2 = (t.findChunk idx).map (Option.map (·.blobKey)) := by
  unfold lookupChunk
  cases t.findChunk idx with
  | error fault => rfl
  | ok found => cases found <;> rfl

lemma HasLeaves.findChunk (h : t.HasLeaves g leaves) {idx : Nat} (valid : g.Valid idx) :
    ∃ found, t.findChunk idx = .ok found ∧
      found.map (·.blobKey) = (leaves idx).map (·.2.storageKey) := by
  unfold SimpleMutableTree.findChunk
  cases known : t.state.chunks idx with
  | some chunk =>
    obtain ⟨-, leaf, found, key⟩ := h.memo idx chunk known
    refine ⟨some chunk, rfl, ?_⟩
    rw [found, Option.map_some, Option.map_some, key]
  | none =>
    dsimp only
    rw [h.geometry, Res.ok_bind, h.holds.loadLeaf_eq valid, Res.ok_bind]
    cases found : leaves idx with
    | none => exact ⟨none, rfl, rfl⟩
    | some leaf =>
      obtain ⟨kind, len⟩ := h.kinds idx leaf valid found
      refine ⟨some ⟨idx, leaf.2.storageKey, leaf.2.lenBytes, len⟩, ?_, rfl⟩
      simp only [LazyTreeMetadataReader.loaded, Option.map_some, kind, ne_eq, not_true_eq_false,
        if_false, SimpleChunkRef.new, len, dite_false]
      rfl

lemma HasLeaves.lookupChunk (h : t.HasLeaves g leaves) {idx : Nat} (valid : g.Valid idx) :
    (t.lookupChunk idx).2 = .ok ((leaves idx).map (·.2.storageKey)) := by
  obtain ⟨found, run, key⟩ := h.findChunk valid
  rw [lookupChunk_snd, run, ← key]
  rfl

lemma HasLeaves.of_findChunk (h : t.HasLeaves g leaves) {idx : Nat} {chunk : SimpleChunkRef}
    (run : t.findChunk idx = .ok (some chunk)) :
    g.Valid idx ∧ ∃ leaf, leaves idx = some leaf ∧ leaf.2.storageKey = chunk.blobKey := by
  have valid : g.Valid idx := by
    unfold SimpleMutableTree.findChunk at run
    cases known : t.state.chunks idx with
    | some chunk => exact (h.memo idx chunk known).1
    | none =>
      rw [known] at run
      dsimp only at run
      rw [h.geometry, Res.ok_bind] at run
      obtain ⟨leaf, load, run⟩ := Res.bind_eq_ok.1 run
      cases leaf with
      | none => cases run
      | some leaf => exact valid_of_loadLeaf load
  obtain ⟨found, again, key⟩ := h.findChunk valid
  cases run.symm.trans again
  obtain ⟨leaf, is_leaf, same⟩ := Option.map_eq_some_iff.1 key.symm
  exact ⟨valid, leaf, is_leaf, same⟩

/-- The tree with other remembered chunks, which change no lookup. -/
structure SameAs (t' t : SimpleMutableTree) : Prop where
  catalog : t'.catalog = t.catalog
  exportId : t'.state.exportId = t.state.exportId
  size : t'.state.sizeBytes = t.state.sizeBytes
  root : t'.state.rootNodeId = t.state.rootNodeId
  format : t'.state.treeFormat = t.state.treeFormat
  find : ∀ idx, t'.findChunk idx = t.findChunk idx

lemma SameAs.refl (t : SimpleMutableTree) : t.SameAs t := ⟨rfl, rfl, rfl, rfl, rfl, fun _ => rfl⟩

lemma SameAs.trans {t'' : SimpleMutableTree} (h : t''.SameAs t') (h' : t'.SameAs t) :
    t''.SameAs t :=
  ⟨h.catalog.trans h'.catalog, h.exportId.trans h'.exportId, h.size.trans h'.size,
    h.root.trans h'.root, h.format.trans h'.format, fun idx => (h.find idx).trans (h'.find idx)⟩

lemma SameAs.lookup (h : t'.SameAs t) (idx : Nat) :
    (t'.lookupChunk idx).2 = (t.lookupChunk idx).2 := by
  rw [lookupChunk_snd, lookupChunk_snd, h.find]

lemma remember_sameAs {idx : Nat} {chunk : SimpleChunkRef}
    (run : t.findChunk idx = .ok (some chunk)) :
    (t.remember idx chunk).SameAs t := by
  refine ⟨rfl, rfl, rfl, rfl, rfl, ?_⟩
  intro j
  by_cases same : j = idx
  · subst same
    cases known : t.state.chunks j with
    | some chunk' =>
      have again : (t.remember j chunk).state.chunks j = some chunk' := by
        simp [remember, known]
      unfold findChunk
      rw [again, known]
    | none =>
      have now : (t.remember j chunk).state.chunks j = some chunk := by
        simp [remember, known]
      rw [run, findChunk, now]
  · have other : (t.remember idx chunk).state.chunks j = t.state.chunks j :=
      Function.update_of_ne same _ _
    unfold findChunk
    rw [other]
    rfl

lemma lookupChunk_sameAs (t : SimpleMutableTree) (idx : Nat) : (t.lookupChunk idx).1.SameAs t := by
  unfold lookupChunk
  cases run : t.findChunk idx with
  | error fault => exact .refl t
  | ok found =>
    cases found with
    | none => exact .refl t
    | some chunk => exact remember_sameAs run

lemma HasLeaves.sameAs (h : t.HasLeaves g leaves) (same : t'.SameAs t) : t'.HasLeaves g leaves := by
  refine ⟨?_, ?_, ?_, h.kinds, ?_⟩
  · rw [same.format, same.size]
    exact h.geometry
  · rw [same.catalog, same.exportId, same.size, same.root, same.format]
    exact h.stored
  · rw [same.catalog, same.root]
    exact h.holds
  · intro idx chunk known
    refine h.of_findChunk ?_
    rw [← same.find, SimpleMutableTree.findChunk, known]

lemma checkNew_spec (t : SimpleMutableTree) (seen : List Nat) (chunks : List SimpleChunkRef) :
    (t.checkNew seen chunks).1.SameAs t ∧ ((t.checkNew seen chunks).2 = .ok () ↔
      (chunks.map (·.chunkIndex)).Nodup ∧
        ∀ chunk ∈ chunks, chunk.chunkIndex ∉ seen ∧ t.findChunk chunk.chunkIndex = .ok none) := by
  induction chunks generalizing t seen with
  | nil => exact ⟨.refl t, by simp [checkNew]⟩
  | cons chunk chunks ih =>
    have first := lookupChunk_sameAs t chunk.chunkIndex
    have result := lookupChunk_snd t chunk.chunkIndex
    unfold checkNew
    by_cases dup : chunk.chunkIndex ∈ seen
    · rw [if_pos dup]
      refine ⟨.refl t, ?_⟩
      simp [fail, dup]
    rw [if_neg dup]
    revert first result
    generalize t.lookupChunk chunk.chunkIndex = looked
    obtain ⟨t₁, result₁⟩ := looked
    intro first result
    dsimp only at first result
    rw [result]
    cases found : t.findChunk chunk.chunkIndex with
    | error fault =>
      refine ⟨first, ?_⟩
      simp [Except.map, found]
    | ok found' =>
      cases found' with
      | some chunk' =>
        refine ⟨first, ?_⟩
        simp [Except.map, fail, found]
      | none =>
        obtain ⟨same, iff⟩ := ih t₁ (chunk.chunkIndex :: seen)
        refine ⟨same.trans first, ?_⟩
        show (checkNew t₁ (chunk.chunkIndex :: seen) chunks).2 = .ok () ↔ _
        rw [iff, List.map_cons, List.nodup_cons, List.forall_mem_cons]
        simp only [first.find, List.mem_cons, not_or, found, dup, not_false_eq_true, and_self,
          true_and, List.mem_map, not_exists, not_and]
        constructor
        · rintro ⟨distinct, all⟩
          exact ⟨⟨fun c mem same => (all c mem).1.1 same, distinct⟩,
            fun c mem => ⟨(all c mem).1.2, (all c mem).2⟩⟩
        · rintro ⟨⟨other, distinct⟩, all⟩
          exact ⟨distinct, fun c mem => ⟨⟨fun same => other c mem same, (all c mem).1⟩,
            (all c mem).2⟩⟩

/-! ## Commits -/

variable {ids : Nat → NodeId} {chunks : List SimpleChunkRef}

lemma insertChunks_eq_some {known : Nat → Option SimpleChunkRef} {idx : Nat}
    {chunk : SimpleChunkRef} (found : insertChunks known chunks idx = some chunk) :
    (chunk ∈ chunks ∧ chunk.chunkIndex = idx) ∨ known idx = some chunk := by
  induction chunks generalizing known with
  | nil => exact .inr found
  | cons c chunks ih =>
    rcases ih found with ⟨mem, same⟩ | found
    · exact .inl ⟨List.mem_cons_of_mem _ mem, same⟩
    · dsimp only at found
      by_cases same : idx = c.chunkIndex
      · subst same
        rw [Function.update_self] at found
        cases found
        exact .inl ⟨List.mem_cons_self, rfl⟩
      · rw [Function.update_of_ne same] at found
        exact .inr found

namespace HasLeaves

lemma size (h : t.HasLeaves g leaves) : 0 < g.sizeBytes ∧ g.sizeBytes < I64 ∧
    g.sizeBytes = t.state.sizeBytes := by
  obtain ⟨e, found, -, head⟩ := h.stored
  have stored := t.catalog.heads e (Catalog.find_eq_some.1 found).1
  rw [head] at stored
  obtain ⟨same, -⟩ := of_new h.geometry
  rw [same]
  exact ⟨stored.pos, stored.size, rfl⟩

lemma hasExport (h : t.HasLeaves g leaves) : t.catalog.hasExport t.state.exportId = true := by
  obtain ⟨e, found, -⟩ := h.stored
  rw [Catalog.hasExport, found]
  rfl

lemma plan (h : t.HasLeaves g leaves) : SimpleTreeCommitPlanner.PlanInv t.catalog.tables
    t.catalog.hasExport g t.state.exportId ids (SimpleTreeCommitPlanner.new g t.state) leaves :=
  .new h.holds rfl

lemma reload (h : t.HasLeaves g leaves) : ∃ loaded, t.reload = .ok loaded ∧
    loaded.HasLeaves g leaves := by
  obtain ⟨e, found, active, head⟩ := h.stored
  refine ⟨⟨t.catalog, t.state.exportId, t.state.sizeBytes, t.state.rootNodeId, t.state.treeFormat,
    fun _ => none⟩, ?_, h.geometry, ⟨e, found, active, head⟩, h.holds, h.kinds, ?_⟩
  · unfold SimpleMutableTree.reload
    simp only [found, head]
    unfold load
    rw [if_neg (by simp [ExportHead.layoutKind])]
    show (do
      let treeFormat ← okOr (some t.state.treeFormat)
        (.catalog "simple durable head is missing tree format")
      let _ ← TreeGeometry.new treeFormat t.state.sizeBytes
      (.ok _ : Res SimpleMutableTree)) = _
    rw [okOr_some, Res.ok_bind, h.geometry, Res.ok_bind]
    rfl
  · intro idx chunk known
    cases known

lemma publishes (h : t.HasLeaves g leaves) (unused : FreshIds ids t.catalog.tables.toTreeRows)
    (distinct : (chunks.map (·.chunkIndex)).Nodup)
    (new : ∀ chunk ∈ chunks, g.Valid chunk.chunkIndex ∧ leaves chunk.chunkIndex = none) :
    ∃ request catalog record leaves', t.planCommit ids chunks = .ok request ∧
      t.catalog.publishTreeUpdate request = (catalog, .ok (.published record)) ∧
      (t.committed catalog request.nextHead.rootNodeId chunks).HasLeaves g leaves' ∧
      (∀ chunk ∈ chunks, ∃ leaf, leaves' chunk.chunkIndex = some leaf ∧ IsLeafOf chunk leaf) ∧
      ∀ idx, idx ∉ chunks.map (·.chunkIndex) → leaves' idx = leaves idx := by
  obtain ⟨pos, lt, size⟩ := h.size
  obtain ⟨e, found, active, head⟩ := h.stored
  obtain ⟨planner, leaves', run, inv, made, kept⟩ :=
    SimpleTreeCommitPlanner.planChunks_spec unused lt
    h.hasExport h.plan distinct new
  have expected : t.state.exportHead =
      .ok (.simpleMutableTree t.state.sizeBytes t.state.rootNodeId t.state.treeFormat) :=
    ExportHead.newWithTreeFormat_simple (size ▸ pos)
  have next : ExportHead.newWithTreeFormat .simpleMutableTree planner.rootNodeId t.state.sizeBytes 0
      (some t.state.treeFormat) =
      .ok (.simpleMutableTree t.state.sizeBytes planner.rootNodeId t.state.treeFormat) :=
    ExportHead.newWithTreeFormat_simple (size ▸ pos)
  have planned : t.planCommit ids chunks = .ok ⟨t.state.exportId,
      .simpleMutableTree t.state.sizeBytes t.state.rootNodeId t.state.treeFormat,
      .simpleMutableTree t.state.sizeBytes planner.rootNodeId t.state.treeFormat,
          planner.records⟩ := by
    unfold planCommit
    rw [h.geometry, Res.ok_bind, run, Res.ok_bind, expected, next]
    rfl
  have root_fk : ∀ root ∈ planner.rootNodeId,
      ((t.catalog.tables.toTreeRows.add planner.records).nodes root).isSome := by
    intro root mem
    have is_root : planner.rootNodeId = some root := mem
    have holds := inv.holds
    rw [is_root] at holds
    exact Holds.root_isSome holds
  have stored : StoredHead (t.catalog.tables.toTreeRows.add planner.records)
      (.simpleMutableTree t.state.sizeBytes planner.rootNodeId t.state.treeFormat) :=
    ⟨size ▸ pos, size ▸ lt, by show 0 < I64; decide, root_fk⟩
  obtain ⟨catalog, record, publish, done⟩ := Catalog.publishTreeUpdate_of_accepts
    ⟨t.state.exportId, _, _, planner.records⟩ found active head inv.accepts stored
  refine ⟨_, catalog, record, leaves', planned, publish, ⟨h.geometry, ?_, ?_, ?_, ?_⟩, made, kept⟩
  · obtain ⟨current, found', active', -, is_record⟩ := done.was
    cases found.symm.trans found'
    refine ⟨record, done.find_self, ?_, ?_⟩
    · rw [is_record]
      exact active
    · rw [is_record]
      rfl
  · show g.HoldsRoot .simpleMutableTree catalog.tables.toTreeRows planner.rootNodeId leaves'
    rw [done.rows]
    exact inv.holds
  · intro idx leaf valid found
    by_cases mem : idx ∈ chunks.map (·.chunkIndex)
    · obtain ⟨chunk, is_chunk, rfl⟩ := List.mem_map.1 mem
      obtain ⟨leaf', found', is_leaf⟩ := made chunk is_chunk
      cases found.symm.trans found'
      exact ⟨is_leaf.kind, is_leaf.len⟩
    · rw [kept idx mem] at found
      exact h.kinds idx leaf valid found
  · intro idx chunk known
    rcases insertChunks_eq_some known with ⟨mem, rfl⟩ | known
    · obtain ⟨leaf, found, is_leaf⟩ := made chunk mem
      exact ⟨(new chunk mem).1, leaf, found, is_leaf.key⟩
    · obtain ⟨valid, leaf, found, key⟩ := h.memo idx chunk known
      refine ⟨valid, leaf, ?_, key⟩
      rw [kept, found]
      intro mem
      obtain ⟨chunk', is_chunk, rfl⟩ := List.mem_map.1 mem
      rw [(new chunk' is_chunk).2] at found
      cases found

end HasLeaves

/-- When a commit is one for distinct chunks of the export that have no blob yet. -/
def Committable (t : SimpleMutableTree) (g : TreeGeometry) (chunks : List SimpleChunkRef) : Prop :=
  (chunks.map (·.chunkIndex)).Nodup ∧ ∀ chunk ∈ chunks,
    g.Valid chunk.chunkIndex ∧ (t.lookupChunk chunk.chunkIndex).2 = .ok none

lemma HasLeaves.committable_iff (h : t.HasLeaves g leaves) (chunks : List SimpleChunkRef) :
    t.Committable g chunks ↔ (chunks.map (·.chunkIndex)).Nodup ∧
      ∀ chunk ∈ chunks, g.Valid chunk.chunkIndex ∧ leaves chunk.chunkIndex = none := by
  refine and_congr_right fun _ => forall₂_congr fun chunk _ => and_congr_right fun valid => ?_
  rw [h.lookupChunk valid, Except.ok.injEq, Option.map_eq_none_iff]

lemma HasLeaves.commitNewChunks (h : t.HasLeaves g leaves)
    (unused : FreshIds ids t.catalog.tables.toTreeRows) (chunks : List SimpleChunkRef) :
    (t.Committable g chunks ∧ ∃ t' leaves', t.commitNewChunks ids chunks = (t', .ok ()) ∧
      t'.HasLeaves g leaves' ∧
      (∀ chunk ∈ chunks, ∃ leaf, leaves' chunk.chunkIndex = some leaf ∧ IsLeafOf chunk leaf) ∧
      ∀ idx, idx ∉ chunks.map (·.chunkIndex) → leaves' idx = leaves idx) ∨
    (¬ t.Committable g chunks ∧ ∃ t' fault, t.commitNewChunks ids chunks = (t', .error fault) ∧
      t'.SameAs t) := by
  obtain ⟨same, checked⟩ := t.checkNew_spec [] chunks
  unfold SimpleMutableTree.commitNewChunks
  by_cases empty : chunks = []
  · subst empty
    exact .inl ⟨⟨.nil, by simp⟩, t, leaves, rfl, h, by simp, fun _ _ => rfl⟩
  rw [if_neg (by simpa using empty)]
  revert same checked
  generalize t.checkNew [] chunks = looked
  obtain ⟨t₁, result⟩ := looked
  intro same checked
  dsimp only at same checked
  have h₁ := h.sameAs same
  have iff := h.committable_iff chunks
  rw [← same.catalog] at unused
  cases result with
  | error fault =>
    refine .inr ⟨?_, t₁, fault, rfl, same⟩
    intro good
    have : (Except.error fault : Res Unit) = .ok () := by
      refine checked.2 ⟨good.1, fun chunk mem => ⟨by simp, ?_⟩⟩
      obtain ⟨found, run, key⟩ := h.findChunk (good.2 chunk mem).1
      rw [((iff.1 good).2 chunk mem).2, Option.map_none, Option.map_eq_none_iff] at key
      rw [run, key]
    cases this
  | ok _ =>
    obtain ⟨distinct, absent⟩ := checked.1 rfl
    have missing : ∀ chunk ∈ chunks, g.Valid chunk.chunkIndex → leaves chunk.chunkIndex = none := by
      intro chunk mem valid
      obtain ⟨found, run, key⟩ := h.findChunk valid
      cases run.symm.trans (absent chunk mem).2
      exact Option.map_eq_none_iff.1 key.symm
    dsimp only
    by_cases good : t.Committable g chunks
    · refine .inl ⟨good, ?_⟩
      obtain ⟨request, catalog, record, leaves', planned, publish, next, made, kept⟩ :=
        h₁.publishes unused distinct (iff.1 good).2
      rw [planned]
      dsimp only
      rw [publish]
      exact ⟨_, leaves', rfl, next, made, kept⟩
    · -- Only an index outside of the export is left, and the planner refuses it.
      refine .inr ⟨good, ?_⟩
      cases planned : t₁.planCommit ids chunks with
      | error fault => exact ⟨t₁, fault, rfl, same⟩
      | ok request =>
        exfalso
        unfold planCommit at planned
        rw [h₁.geometry, Res.ok_bind] at planned
        obtain ⟨planner, run, -⟩ := Res.bind_eq_ok.1 planned
        have valid := SimpleTreeCommitPlanner.planChunks_valid unused h₁.size.2.1 h₁.hasExport
          h₁.plan
          distinct missing run
        exact good (iff.2
          ⟨distinct, fun chunk mem => ⟨valid chunk mem, missing chunk mem (valid chunk mem)⟩⟩)

/-- The frame of a commit. It succeeds exactly for distinct chunks of the export that have no blob
yet. Then the lookups of these chunks return their blobs, and those of all other chunks return what
they did, also after the tree was loaded again. After an error the catalog, the head and all lookups
are as before. -/
theorem commit_new_chunks_frame (wf : t.WellFormed g)
    (unused : FreshIds ids t.catalog.tables.toTreeRows) (chunks : List SimpleChunkRef) :
    ((t.commitNewChunks ids chunks).2 = .ok () ↔ (chunks.map (·.chunkIndex)).Nodup ∧
      ∀ chunk ∈ chunks, g.Valid chunk.chunkIndex ∧ (t.lookupChunk chunk.chunkIndex).2 = .ok none) ∧
    ((t.commitNewChunks ids chunks).2 = .ok () → ∃ loaded,
      (t.commitNewChunks ids chunks).1.reload = .ok loaded ∧
      ∀ u, u = (t.commitNewChunks ids chunks).1 ∨ u = loaded →
        (∀ chunk ∈ chunks, (u.lookupChunk chunk.chunkIndex).2 = .ok (some chunk.blobKey)) ∧
        ∀ idx, g.Valid idx → idx ∉ chunks.map (·.chunkIndex) →
          (u.lookupChunk idx).2 = (t.lookupChunk idx).2) ∧
    ((t.commitNewChunks ids chunks).2 ≠ .ok () →
      (t.commitNewChunks ids chunks).1.catalog = t.catalog ∧
      (t.commitNewChunks ids chunks).1.state.exportHead = t.state.exportHead ∧
      ∀ idx, ((t.commitNewChunks ids chunks).1.lookupChunk idx).2 = (t.lookupChunk idx).2) := by
  obtain ⟨leaves, h⟩ := wf.hasLeaves
  rcases h.commitNewChunks unused chunks with
    ⟨good, t', leaves', run, next, made, kept⟩ | ⟨bad, t', fault, run, same⟩
  · rw [run]
    refine ⟨⟨fun _ => good, fun _ => rfl⟩, ?_, fun failed => absurd rfl failed⟩
    intro _
    obtain ⟨loaded, reload, again⟩ := next.reload
    refine ⟨loaded, reload, ?_⟩
    have all : ∀ {u : SimpleMutableTree}, u.HasLeaves g leaves' →
        (∀ chunk ∈ chunks, (u.lookupChunk chunk.chunkIndex).2 = .ok (some chunk.blobKey)) ∧
        ∀ idx, g.Valid idx → idx ∉ chunks.map (·.chunkIndex) →
          (u.lookupChunk idx).2 = (t.lookupChunk idx).2 := by
      intro u hu
      constructor
      · intro chunk mem
        obtain ⟨leaf, found, is_leaf⟩ := made chunk mem
        rw [hu.lookupChunk (good.2 chunk mem).1, found, Option.map_some, is_leaf.key]
      · intro idx valid other
        rw [hu.lookupChunk valid, h.lookupChunk valid, kept idx other]
    rintro u (rfl | rfl)
    · exact all next
    · exact all again
  · rw [run]
    have failed : (Except.error fault : Res Unit) ≠ .ok () := nofun
    refine ⟨⟨fun ok => absurd ok failed, fun good => absurd good bad⟩, fun ok => absurd ok failed,
      ?_⟩
    intro _
    refine ⟨same.catalog, ?_, same.lookup⟩
    show t'.state.exportHead = t.state.exportHead
    rw [SimpleTreeState.exportHead, same.root, same.size, same.format]
    rfl

/-- A catalog with one export of 40 chunks that was never written. -/
def oneExport : Catalog where
  exports := [⟨1, 1, 512, .simpleDurable, .active,
    .simpleMutableTree (40 * SIMPLE_CHUNK_BYTES) none .bounded32V1⟩]
  tables := .empty
  ids_nodup := by simp
  names_nodup := by simp
  heads := by
    intro e mem
    rw [List.mem_singleton.1 mem]
    exact ⟨by decide, by decide, by decide, by simp [ExportHead.rootNodeId]⟩

def untouched : SimpleMutableTree :=
  ⟨oneExport, 1, 40 * SIMPLE_CHUNK_BYTES, none, .bounded32V1, fun _ => none⟩

def twoChunks : List SimpleChunkRef :=
    [⟨33, 7, SIMPLE_CHUNK_BYTES, rfl⟩, ⟨2, 8, SIMPLE_CHUNK_BYTES, rfl⟩]

lemma untouched_wellFormed {g : TreeGeometry}
    (built : TreeGeometry.new .bounded32V1 (40 * SIMPLE_CHUNK_BYTES) = .ok g) :
    untouched.WellFormed g :=
  ⟨built, ⟨_, rfl, by decide, rfl⟩, fun _ _ => ⟨none, rfl, by simp⟩, fun _ _ known => nomatch known⟩

def committedOnce : SimpleMutableTree := (untouched.commitNewChunks id twoChunks).1

lemma committedOnce_run : (untouched.commitNewChunks id twoChunks).2 = .ok () := rfl

/-- `commit_new_chunks_frame` at the first and the second commit of an export: a new chunk next to
the others is committedOnce, and a chunk that has a blob is refused. -/
theorem commit_new_chunks_frame_second : ∃ g, committedOnce.WellFormed g ∧
    (committedOnce.commitNewChunks (· + 8) [⟨34, 9, SIMPLE_CHUNK_BYTES, rfl⟩]).2 = .ok () ∧
    (∀ p ∈ [(34, some 9), (33, some 7), (2, some 8), (35, none)],
      ((committedOnce.commitNewChunks (· + 8) [⟨34, 9, SIMPLE_CHUNK_BYTES, rfl⟩]).1.lookupChunk
        p.1).2 =
        .ok p.2) ∧
    (committedOnce.commitNewChunks (· + 8) [⟨33, 9, SIMPLE_CHUNK_BYTES, rfl⟩]).2 ≠ .ok () := by
  obtain ⟨g, built⟩ := @new_eq_ok .bounded32V1 (40 * SIMPLE_CHUNK_BYTES) (by decide) (by decide)
  obtain ⟨size, -⟩ := of_new built
  have inside : ∀ {idx : Nat}, idx < 40 → g.Valid idx := by
    intro idx lt
    show idx * TREE_CHUNK_BYTES < g.sizeBytes
    rw [size]
    exact Nat.mul_lt_mul_of_pos_right lt (by decide)
  have unused : FreshIds id untouched.catalog.tables.toTreeRows :=
    ⟨Function.injective_id, fun _ => rfl⟩
  have wf : committedOnce.WellFormed g := by
    obtain ⟨leaves, h⟩ := (untouched_wellFormed built).hasLeaves
    rcases h.commitNewChunks unused twoChunks with
      ⟨-, t', leaves', run, next, -⟩ | ⟨-, t', fault, run, -⟩
    · rw [committedOnce, run]
      exact next.wellFormed
    · have ok := committedOnce_run
      rw [run] at ok
      cases ok
  have unused₁ : FreshIds (· + 8) committedOnce.catalog.tables.toTreeRows :=
    ⟨add_left_injective 8, fun _ => rfl⟩
  obtain ⟨iff, done, -⟩ := commit_new_chunks_frame wf unused₁ [⟨34, 9, SIMPLE_CHUNK_BYTES, rfl⟩]
  have ok := iff.2 ⟨by simp, fun chunk mem => by
    rw [List.mem_singleton.1 mem]
    exact ⟨inside (by decide), rfl⟩⟩
  obtain ⟨loaded, -, both⟩ := done ok
  obtain ⟨made, kept⟩ := both _ (.inl rfl)
  refine ⟨g, wf, ok, fun p mem => ?_, fun ok => ?_⟩
  · simp only [List.mem_cons, List.not_mem_nil, or_false] at mem
    rcases mem with rfl | rfl | rfl | rfl
    · exact made _ List.mem_cons_self
    · exact (kept 33 (inside (by decide)) (by decide)).trans rfl
    · exact (kept 2 (inside (by decide)) (by decide)).trans rfl
    · exact (kept 35 (inside (by decide)) (by decide)).trans rfl
  · obtain ⟨iff, -, -⟩ := commit_new_chunks_frame wf unused₁ [⟨33, 9, SIMPLE_CHUNK_BYTES, rfl⟩]
    obtain ⟨-, free⟩ := iff.1 ok
    have used : (committedOnce.lookupChunk 33).2 = .ok (some 7) := rfl
    rw [(free _ List.mem_cons_self).2] at used
    cases used

end SimpleMutableTree

end NbdServer
