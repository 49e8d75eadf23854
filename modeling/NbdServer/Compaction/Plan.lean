import NbdServer.Compaction.Invariant

/-!
# Copy-on-write plans

The planner starts with a copy of the old root (`cowInv_started`) and plans one chunk after the
other. The batch that it returns adds to the catalog the tree of the new root, and nothing that was
reachable before changes (`load_leaf_of_batch`).
-/

namespace NbdServer

open Lib TreeGeometry

namespace CowTreePublishPlanner

variable {t : TreeTables} {has : ExportId → Bool} {g : TreeGeometry} {exportId : ExportId}
variable {ids : Nat → NodeId} {oldRoot : Option NodeId} {planner : CowTreePublishPlanner}
variable {leaves leaves₀ : Nat → Found} {rows : Nat → TreeRows}

lemma lead_none {q : List Nat} {m n : NodeId}
    (lead : q.foldlM (fun _ _ => none : NodeId → Nat → Option NodeId) m = some n) :
    q = [] ∧ n = m := by
  cases q with
  | nil =>
    cases lead
    exact ⟨rfl, rfl⟩
  | cons s q => cases lead

/-- The planner after the edges of the old root were copied. -/
def started (ids : Nat → NodeId) (g : TreeGeometry) (exportId : ExportId) (oldRoot : Option NodeId)
    (pending : EdgeMap) : CowTreePublishPlanner :=
  { new ids g exportId oldRoot with
    copiedParents := (oldRoot.map fun _ => ids 0).toList
    pendingEdges := pending }

/-- The pending edges after those of the old root were copied. -/
def RootEdges (t : TreeTables) (ids : Nat → NodeId) (oldRoot : Option NodeId) (pending : EdgeMap) :
    Prop :=
  ∀ m x, pending.find (toLex (m, x)) =
    if m = ids 0 ∧ x < 32 then oldRoot.bind (t.edges · x) else none

lemma copyRoot_spec (later : ∀ k, t.toTreeRows.Later (rows k)) (ids : Nat → NodeId)
    (exportId : ExportId) (holds : g.HoldsRoot .cowImmutableTree t.toTreeRows oldRoot leaves₀) :
    ∃ pending k, RootEdges t ids oldRoot pending ∧
    (new ids g exportId oldRoot).copyExistingEdgesOnce
      rows oldRoot (ids 0) g.rootSpan =
      .ok ((started ids g exportId oldRoot pending).withReads k) := by
  cases oldRoot with
  | none => exact ⟨.empty, 0, fun m x => by simp, rfl⟩
  | some o =>
    have fanout : (new ids g exportId (some o)).geometry.fanout = 32 := g.fanout_eq
    obtain ⟨pending, k, run, find⟩ := copyExistingEdgesOnce_spec (c := ids 0) later fanout
      holds.fits
      rfl (Nat.ne_of_gt g.level.pos) (by simp [new])
    refine ⟨pending, k, fun m x => ?_, run⟩
    rw [find]
    simp [new]

lemma fits_started (pending : EdgeMap) : (g.trie .cowImmutableTree
    ((started ids g exportId oldRoot pending).view t.toTreeRows)).fits (ids 0) [] := by
  refine factory_fits ((new ids g exportId oldRoot).factory.rootNode (ids 0)) ?_ rfl rfl
    (if_neg (Nat.ne_of_gt g.level.pos)).symm rfl
  exact Function.update_self _ _ _

lemma holds_started {pending : EdgeMap} (exportId : ExportId) (unused : FreshIds ids t.toTreeRows)
    (holds : g.HoldsRoot .cowImmutableTree t.toTreeRows oldRoot leaves₀)
    (find : RootEdges t ids oldRoot pending) :
    g.Holds .cowImmutableTree ((started ids g exportId oldRoot pending).view t.toTreeRows) (ids 0)
      leaves₀ := by
  have fits := @fits_started t g exportId ids oldRoot pending
  have edges : ∀ m x, ((started ids g exportId oldRoot pending).view t.toTreeRows).edges m x =
      if m = ids 0 ∧ x < 32 then oldRoot.bind (t.edges · x) else t.edges m x := by
    intro m x
    show (pending.find (toLex (m, x))).or (t.edges m x) = _
    rw [find]
    split_ifs with here
    · rw [here.1, TreeTables.no_edge (unused.new 0), Option.or_none]
    · rfl
  have other : ∀ {m}, (t.nodes m).isSome → m ≠ ids 0 := by
    rintro m is rfl
    rw [unused.new] at is
    cases is
  intro idx valid
  have small := digits_lt idx g.rootLevel
  cases path : digits idx g.rootLevel with
  | nil =>
    have len := digits_length idx g.rootLevel
    rw [path] at len
    exact absurd len.symm (Nat.ne_of_gt g.level.pos)
  | cons s rest =>
    rw [path] at small
    cases oldRoot with
    | none =>
      rw [holds idx valid]
      refine .stop fits ((edges (ids 0) s).trans ?_)
      rw [if_pos ⟨rfl, small s List.mem_cons_self⟩]
      rfl
    | some o =>
      have kept : Trie.Grows (g.trie .cowImmutableTree t.toTreeRows) (g.trie .cowImmutableTree
          ((started ids g exportId (some o) pending).view t.toTreeRows)) fun _ => False := by
        refine trie_kept fun m is => ⟨?_, ?_, rfl⟩
        · exact Function.update_of_ne (other is) _ _
        · funext x
          rw [edges, if_neg (fun h => other is h.1)]
      have walk := (holds idx valid).kept kept
      rw [path] at walk
      have stored := Holds.root_isSome holds
      refine walk.copy fits ((edges (ids 0) s).trans (Eq.trans ?_ (edges o s).symm))
      rw [if_pos ⟨rfl, small s List.mem_cons_self⟩, if_neg (fun h => other stored h.1)]
      rfl

lemma cowInv_started {pending : EdgeMap} (unused : FreshIds ids t.toTreeRows)
    (size : g.sizeBytes < I64) (owner : has exportId = true)
    (holds : g.HoldsRoot .cowImmutableTree t.toTreeRows oldRoot leaves₀)
    (find : RootEdges t ids oldRoot pending) :
    CowInv t has g exportId ids oldRoot (started ids g exportId oldRoot pending) leaves₀ := by
  have root_new : ∃ node ∈ (new ids g exportId oldRoot).records.nodes, node.id = ids 0 :=
    ⟨_, List.mem_singleton_self _, rfl⟩
  exact
  { geometry := rfl
    factory := rfl
    old := rfl
    no_edges := rfl
    accepts := by
      have base : TreeTables.Accepts has t.toTreeRows .default := by
        constructor <;> simp [TreeRecordBatch.default]
      obtain ⟨inside, pos, le⟩ := spanAt_inside (g := g) (q := []) rfl
      exact base.addNode (factory_nodeOk size (by simp) rfl owner inside pos le) (unused.new 0)
    drawn := by
      intro node mem
      cases List.mem_singleton.1 mem
      exact ⟨0, Nat.one_pos, rfl⟩
    owned := by
      intro node mem
      cases List.mem_singleton.1 mem
      rfl
    copied_new := by
      intro m mem
      obtain ⟨o, -, rfl⟩ := Option.map_eq_some_iff.1 (Option.mem_toList.1 mem)
      exact root_new
    leaf_new := by simp [started, new]
    internal := by simp [started, new]
    pending := by
      intro m x c edge
      change pending.find (toLex (m, x)) = some c at edge
      rw [find] at edge
      split_ifs at edge with here
      obtain ⟨rfl, -⟩ := here
      obtain ⟨o, -, edge⟩ := Option.bind_eq_some_iff.1 edge
      exact ⟨root_new, TreeTables.add_nodes_isSome.2 (.inr (t.edges_fk o x c edge).2)⟩
    placed := by
      intro q n lead
      obtain ⟨rfl, rfl⟩ := lead_none lead
      exact ⟨root_new, g.level.pos, fits_started pending⟩
    copied := by
      intro q n lead is_old
      obtain ⟨rfl, rfl⟩ := lead_none lead
      cases oldRoot with
      | none => cases is_old
      | some o => exact List.mem_singleton_self _
    shadow := by
      intro q n s lead _ lt _
      obtain ⟨rfl, rfl⟩ := lead_none lead
      show pending.find (toLex (ids 0, s)) = _
      rw [find, if_pos ⟨rfl, lt⟩]
      cases oldRoot <;> rfl
    holds := holds_started exportId unused holds find }

section Chunk

variable {n : NodeId} {s : Nat} {q path : List Nat} {childSpan : TreeNodeSpan}

lemma internalChild_new (later : ∀ k, t.toTreeRows.Later (rows k))
    (inv : CowInv t has g exportId ids oldRoot planner leaves) (unused : FreshIds ids t.toTreeRows)
    (lead : q.foldlM planner.newInternalEdges planner.newRootNodeId = some n)
    (missing : planner.newInternalEdges n s = none)
    (fits : ∀ o, oldAt t.toTreeRows oldRoot (q ++ [s]) = some o →
      (g.trie .cowImmutableTree t.toTreeRows).fits o (q ++ [s]))
    (at_child : g.spanAt (q ++ [s]) = .ok childSpan) (inner : childSpan.level ≠ 0) :
    ∃ planner₁ pending k, Extended t ids planner n s (oldAt t.toTreeRows oldRoot (q ++ [s]))
    pending ∧
      planner.internalChild rows ids (oldAt t.toTreeRows oldRoot (q ++ [s])) n s childSpan =
        .ok (planner₁, ids planner.drawn) ∧
      planner₁.copyExistingEdgesOnce rows (oldAt t.toTreeRows oldRoot (q ++ [s]))
      (ids planner.drawn)
        childSpan = .ok ((withInternal ids planner n s childSpan
          (oldAt t.toTreeRows oldRoot (q ++ [s])) pending).withReads k) := by
  have other := inv.drawn_ne unused lead
  unfold internalChild
  rw [missing]
  cases is_old : oldAt t.toTreeRows oldRoot (q ++ [s]) with
  | none =>
    refine ⟨_, planner.pendingEdges.insert (toLex (n, s)) (ids planner.drawn), planner.reads, ?_,
      rfl, rfl⟩
    intro m x
    rw [OrdMap.find_insert]
    simp only [EmbeddingLike.apply_eq_iff_eq, Prod.mk.injEq]
    split_ifs with here new
    · rfl
    · rw [new.1]
      exact (inv.fresh_edge unused x).1
    · rfl
  | some o =>
    have unseen : ids planner.drawn ∉ planner.copiedParents := by
      intro mem
      exact inv.fresh_not_mem unused (inv.copied_new _ mem)
    have fanout : planner.geometry.fanout = 32 := by
      rw [inv.geometry]
      exact g.fanout_eq
    obtain ⟨pending, k, run, find⟩ := @copyExistingEdgesOnce_spec t g
      ((planner.withReads (planner.reads + 1)).newInternal ids n s childSpan) rows later o
      (ids planner.drawn) _ _ fanout (fits o is_old) at_child inner unseen
    refine ⟨_, pending, k, ?_, ?_, run⟩
    · intro m x
      rw [find]
      show (if _ then (t.edges o x).or
          ((planner.pendingEdges.insert (toLex (n, s)) (ids planner.drawn)).find (toLex (m, x)))
        else (planner.pendingEdges.insert (toLex (n, s)) (ids planner.drawn)).find (toLex (m, x))) =
          _
      rw [OrdMap.find_insert]
      simp only [EmbeddingLike.apply_eq_iff_eq, Prod.mk.injEq]
      by_cases here : m = n ∧ x = s
      · rw [if_neg (fun h => other (here.1.symm.trans h.1)), if_pos here, if_pos here]
      · rw [if_neg here, if_neg here]
        split_ifs with new
        · rw [new.1, (inv.fresh_edge unused x).1, Option.or_none]
          rfl
        · rfl
    · dsimp only
      rw [checkOld_eq later (fits o is_old) at_child inner, Res.ok_bind]
      rfl

lemma internalChild_again (inv : CowInv t has g exportId ids oldRoot planner leaves) {c : NodeId}
    (lead : q.foldlM planner.newInternalEdges planner.newRootNodeId = some n)
    (edge : planner.newInternalEdges n s = some c) :
    planner.internalChild rows ids (oldAt t.toTreeRows oldRoot (q ++ [s])) n s childSpan =
        .ok (planner, c) ∧
      planner.copyExistingEdgesOnce rows (oldAt t.toTreeRows oldRoot (q ++ [s])) c childSpan =
        .ok planner := by
  constructor
  · unfold internalChild
    rw [edge]
  · cases is_old : oldAt t.toTreeRows oldRoot (q ++ [s]) with
    | none => rfl
    | some o =>
      have copied := inv.copied (q ++ [s]) c (Trie.lead_concat.2 ⟨n, lead, edge⟩)
        (by rw [is_old]; rfl)
      unfold copyExistingEdgesOnce
      dsimp only
      rw [if_pos copied]

lemma planSlots_spec {chunk : CowChunkRef} (later : ∀ k, t.toTreeRows.Later (rows k))
    (unused : FreshIds ids t.toTreeRows) (size : g.sizeBytes < I64) (owner : has exportId = true)
    (holds : g.HoldsRoot .cowImmutableTree t.toTreeRows oldRoot leaves₀) {parentSpan : TreeNodeSpan}
    (inv : CowInv t has g exportId ids oldRoot planner leaves) (valid : g.Valid chunk.chunkIndex)
    (split : digits chunk.chunkIndex g.rootLevel = q ++ path) (some_slot : path ≠ [])
    (lead : q.foldlM planner.newInternalEdges planner.newRootNodeId = some n)
    (at_parent : g.spanAt q = .ok parentSpan) :
    ∃ planner' leaf, planSlots rows ids chunk planner (oldAt t.toTreeRows oldRoot q) n parentSpan
      path =
        .ok planner' ∧ planner'.newRootNodeId = planner.newRootNodeId ∧ IsLeafOf chunk leaf ∧
      CowInv t has g exportId ids oldRoot planner'
        (Function.update leaves chunk.chunkIndex (some leaf)) := by
  induction path generalizing planner q n parentSpan with
  | nil => exact absurd rfl some_slot
  | cons s path ih =>
    have split' : digits chunk.chunkIndex g.rootLevel = q ++ [s] ++ path := by
      rw [split, List.append_assoc, List.singleton_append]
    have at_child := valid.spanAt_eq split'
    have level : (g.nodeAt chunk.chunkIndex path.length).level = path.length := rfl
    have down : planner.geometry.childSpan parentSpan s =
        .ok (g.nodeAt chunk.chunkIndex path.length) := by
      rw [spanAt_append, at_parent, Res.ok_bind] at at_child
      rw [inv.geometry, at_child]
    have stored : ∀ o ∈ oldAt t.toTreeRows oldRoot q, (t.nodes o).isSome := by
      intro o is_old
      obtain ⟨row, -, is_row, -⟩ := CowInv.old_fits holds valid ⟨_, split.symm⟩ is_old
      rw [is_row]
      rfl
    obtain ⟨k, child⟩ := @oldChild_eq t planner rows later (oldAt t.toTreeRows oldRoot q) stored s
    rw [← oldAt_concat] at child
    have inv := inv.withReads k
    rw [planSlots, down, Res.ok_bind, child, Res.ok_bind]
    dsimp only
    by_cases last : path = []
    · subst last
      rw [if_pos (show (g.nodeAt chunk.chunkIndex [].length).level = 0 from level)]
      obtain ⟨leaf, is_leaf, next⟩ :=
        inv.newLeaf unused size owner lead at_child level valid split
      exact ⟨_, leaf, rfl, rfl, is_leaf, next⟩
    have inner : (g.nodeAt chunk.chunkIndex path.length).level ≠ 0 := by
      rw [level]
      exact mt List.eq_nil_of_length_eq_zero last
    rw [if_neg inner]
    cases edge : planner.newInternalEdges n s with
    | some c =>
      obtain ⟨made, copied⟩ := @internalChild_again t has g exportId ids oldRoot _ leaves rows n s q
        (g.nodeAt chunk.chunkIndex path.length) inv c lead edge
      rw [made, Res.ok_bind, copied, Res.ok_bind]
      exact ih inv split' last (Trie.lead_concat.2 ⟨n, lead, edge⟩) at_child
    | none =>
      have fits : ∀ o, oldAt t.toTreeRows oldRoot (q ++ [s]) = some o →
          (g.trie .cowImmutableTree t.toTreeRows).fits o (q ++ [s]) :=
        fun o is_old => CowInv.old_fits holds valid ⟨path, split'.symm⟩ is_old
      obtain ⟨planner₁, pending, k', extended, made, copied⟩ :=
        internalChild_new later inv unused lead edge fits at_child inner
      rw [made, Res.ok_bind, copied, Res.ok_bind]
      have next := inv.withInternal unused size owner holds lead edge at_child inner extended
      exact ih (next.withReads k') split' last (CowInv.lead_child lead edge) at_child

end Chunk

/-- A planner whose root has the edges of the old root, or gets them with its next chunk. -/
structure Ready (rows : Nat → TreeRows) (t : TreeTables) (has : ExportId → Bool) (g : TreeGeometry)
    (exportId : ExportId) (ids : Nat → NodeId) (oldRoot : Option NodeId)
    (planner : CowTreePublishPlanner) (leaves : Nat → Found) : Prop where
  geometry : planner.geometry = g
  old : planner.oldRootNodeId = oldRoot
  root : planner.newRootNodeId = ids 0
  copies : ∃ planner', planner.copyExistingEdgesOnce rows oldRoot (ids 0) g.rootSpan =
    .ok planner' ∧
    planner'.newRootNodeId = ids 0 ∧ CowInv t has g exportId ids oldRoot planner' leaves

lemma ready_new (later : ∀ k, t.toTreeRows.Later (rows k)) (unused : FreshIds ids t.toTreeRows)
    (size : g.sizeBytes < I64) (owner : has exportId = true)
    (holds : g.HoldsRoot .cowImmutableTree t.toTreeRows oldRoot leaves₀) :
    Ready rows t has g exportId ids oldRoot (new ids g exportId oldRoot) leaves₀ := by
  obtain ⟨pending, k, find, run⟩ := copyRoot_spec later ids exportId holds
  exact ⟨rfl, rfl, rfl, _, run, rfl, (cowInv_started unused size owner holds find).withReads k⟩

lemma CowInv.ready (inv : CowInv t has g exportId ids oldRoot planner leaves)
    (root : planner.newRootNodeId = ids 0) : Ready rows t has g exportId ids oldRoot planner
      leaves := by
  refine ⟨inv.geometry, inv.old, root, planner, ?_, root, inv⟩
  cases is_old : oldRoot with
  | none => rfl
  | some o =>
    have copied := inv.copied [] planner.newRootNodeId rfl (by rw [is_old]; rfl)
    rw [root] at copied
    unfold copyExistingEdgesOnce
    dsimp only
    rw [if_pos copied]

lemma planChunk_spec {chunk : CowChunkRef} (later : ∀ k, t.toTreeRows.Later (rows k))
    (unused : FreshIds ids t.toTreeRows) (size : g.sizeBytes < I64) (owner : has exportId = true)
    (holds : g.HoldsRoot .cowImmutableTree t.toTreeRows oldRoot leaves₀)
    (ready : Ready rows t has g exportId ids oldRoot planner leaves)
    (valid : g.Valid chunk.chunkIndex) :
    ∃ planner' leaf, planner.planChunk rows ids chunk = .ok planner' ∧ planner'.newRootNodeId =
    ids 0 ∧
      IsLeafOf chunk leaf ∧ CowInv t has g exportId ids oldRoot planner'
        (Function.update leaves chunk.chunkIndex (some leaf)) := by
  obtain ⟨planner₁, copied, root, inv⟩ := ready.copies
  have path : planner.geometry.pathForChunk chunk.chunkIndex =
      .ok ⟨chunk.chunkIndex, digits chunk.chunkIndex g.rootLevel⟩ := by
    rw [ready.geometry]
    exact pathForChunk_eq_ok.2 ⟨valid, rfl⟩
  have some_slot : digits chunk.chunkIndex g.rootLevel ≠ [] := by
    rw [ne_eq, ← List.length_eq_zero_iff, digits_length]
    exact Nat.ne_of_gt g.level.pos
  have top : oldAt t.toTreeRows oldRoot [] = oldRoot := by
    cases oldRoot <;> rfl
  obtain ⟨planner', leaf, run, root', is_leaf, next⟩ :=
    planSlots_spec later unused size owner holds inv
    valid (q := []) rfl some_slot rfl (rfl : g.spanAt [] = .ok g.rootSpan)
  rw [top] at run
  refine ⟨planner', leaf, ?_, root'.trans root, is_leaf, next⟩
  rw [planChunk, path, Res.ok_bind, ready.old, ready.root, ready.geometry, copied, Res.ok_bind,
    inv.old, inv.geometry]
  exact run

lemma planChunks_spec {chunks : List CowChunkRef} (later : ∀ k, t.toTreeRows.Later (rows k))
    (unused : FreshIds ids t.toTreeRows) (size : g.sizeBytes < I64) (owner : has exportId = true)
    (holds : g.HoldsRoot .cowImmutableTree t.toTreeRows oldRoot leaves₀)
    (ready : Ready rows t has g exportId ids oldRoot planner leaves) (some_chunk : chunks ≠ [])
    (distinct : (chunks.map (·.chunkIndex)).Nodup)
    (valid : ∀ chunk ∈ chunks, g.Valid chunk.chunkIndex) :
    ∃ planner' leaves', planner.planChunks rows ids chunks = .ok planner' ∧
      planner'.newRootNodeId = ids 0 ∧ CowInv t has g exportId ids oldRoot planner' leaves' ∧
      (∀ chunk ∈ chunks, ∃ leaf, leaves' chunk.chunkIndex = some leaf ∧ IsLeafOf chunk leaf) ∧
      ∀ j, j ∉ chunks.map (·.chunkIndex) → leaves' j = leaves j := by
  induction chunks generalizing planner leaves with
  | nil => exact absurd rfl some_chunk
  | cons chunk chunks ih =>
    obtain ⟨planner₁, leaf, run, root, is_leaf, inv⟩ :=
      planChunk_spec later unused size owner holds ready (valid chunk List.mem_cons_self)
    rw [List.map_cons, List.nodup_cons] at distinct
    obtain ⟨other, distinct⟩ := distinct
    have rest : ∃ planner' leaves', planner₁.planChunks rows ids chunks = .ok planner' ∧
        planner'.newRootNodeId = ids 0 ∧ CowInv t has g exportId ids oldRoot planner' leaves' ∧
        (∀ c ∈ chunks, ∃ leaf, leaves' c.chunkIndex = some leaf ∧ IsLeafOf c leaf) ∧
        ∀ j, j ∉ chunks.map (·.chunkIndex) →
          leaves' j = Function.update leaves chunk.chunkIndex (some leaf) j := by
      by_cases last : chunks = []
      · subst last
        exact ⟨planner₁, _, rfl, root, inv, by simp, fun _ _ => rfl⟩
      · exact ih (inv.ready root) last distinct fun c mem => valid c (List.mem_cons_of_mem _ mem)
    obtain ⟨planner', leaves', runs, root', inv', made, kept⟩ := rest
    refine ⟨planner', leaves', ?_, root', inv', ?_, ?_⟩
    · rw [planChunks, List.foldlM_cons, run, Res.ok_bind]
      exact runs
    · intro c mem
      rcases List.mem_cons.1 mem with rfl | mem
      · exact ⟨leaf, by rw [kept _ other, Function.update_self], is_leaf⟩
      · exact made c mem
    · intro j off
      rw [List.map_cons, List.mem_cons, not_or] at off
      rw [kept j off.2, Function.update_of_ne off.1]

/-! ## The batch -/

variable {shuffle : List TreeEdgeRecord → List TreeEdgeRecord}

lemma mem_edges {edge : TreeEdgeRecord} : edge ∈ planner.edges ↔
    planner.pendingEdges.find (toLex (edge.parentNodeId, edge.slot)) = some edge.childNodeId := by
  rw [OrdMap.find_eq_some, edges, List.mem_map]
  constructor
  · rintro ⟨entry, mem, rfl⟩
    exact mem
  · intro mem
    exact ⟨_, mem, rfl⟩

lemma edges_nodup : (planner.edges.map fun e => (e.parentNodeId, e.slot)).Nodup := by
  rw [edges, List.map_map]
  refine List.pairwise_map.2 (planner.pendingEdges.ordered.imp ?_)
  intro a b lt same
  exact lt.ne (ofLex_inj.1 same)

namespace CowInv

lemma batch_edges (inv : CowInv t has g exportId ids oldRoot planner leaves)
    (perm : ∀ l, (shuffle l).Perm l) :
    (∀ edge, edge ∈ (planner.batch shuffle).edges ↔ edge ∈ planner.edges) ∧
      ((planner.batch shuffle).edges.map fun e => (e.parentNodeId, e.slot)).Nodup := by
  have only : (planner.batch shuffle).edges = shuffle planner.edges := by
    show planner.records.edges ++ shuffle planner.edges = _
    rw [inv.no_edges, List.nil_append]
  rw [only]
  exact ⟨fun edge => (perm _).mem_iff, ((perm _).map _).nodup_iff.2 edges_nodup⟩

lemma add_batch (inv : CowInv t has g exportId ids oldRoot planner leaves)
    (perm : ∀ l, (shuffle l).Perm l) :
    t.toTreeRows.add (planner.batch shuffle) = planner.view t.toTreeRows := by
  obtain ⟨mem, nodup⟩ := inv.batch_edges perm
  apply TreeRows.ext
  · rfl
  · funext n s
    show (planner.batch shuffle).edges.foldl TreeRows.setEdge t.edges n s =
      (planner.pendingEdges.find (toLex (n, s))).or (t.edges n s)
    cases found : planner.pendingEdges.find (toLex (n, s)) with
    | none =>
      refine TreeRows.foldl_setEdge_of_not_mem ?_
      rintro edge is ⟨rfl, rfl⟩
      rw [mem, mem_edges, found] at is
      cases is
    | some c =>
      have is : (⟨n, s, c⟩ : TreeEdgeRecord) ∈ (planner.batch shuffle).edges := by
        rw [mem, mem_edges]
        exact found
      exact TreeRows.foldl_setEdge_of_mem nodup is
  · rfl

lemma accepts_batch {t' : TreeTables} (inv : CowInv t has g exportId ids oldRoot planner leaves)
    (perm : ∀ l, (shuffle l).Perm l) (later : t.toTreeRows.Later t'.toTreeRows)
    (unused : FreshIds ids t'.toTreeRows) (has' : ExportId → Bool) (owner : has' exportId = true) :
    TreeTables.Accepts has' t'.toTreeRows (planner.batch shuffle) := by
  obtain ⟨mem, nodup⟩ := inv.batch_edges perm
  have new : ∀ {m}, (∃ node ∈ planner.records.nodes, node.id = m) → t'.nodes m = none := by
    rintro m ⟨node, is, rfl⟩
    obtain ⟨k, -, id⟩ := inv.drawn node is
    rw [id]
    exact unused.new k
  have more : ∀ {m}, ((t.toTreeRows.add planner.records).nodes m).isSome →
      ((t'.toTreeRows.add (planner.batch shuffle)).nodes m).isSome := by
    intro m is
    rw [TreeTables.add_nodes_isSome] at is ⊢
    exact is.imp_right later.isSome
  have owned : ∀ node ∈ planner.records.nodes, ∀ e ∈ node.ownerExportId, has' e = true := by
    intro node is e mem
    rw [inv.owned node is] at mem
    cases mem
    exact owner
  exact
  { nodes_ok := fun node is =>
      let ok := inv.accepts.nodes_ok node is
      ⟨ok.start, ok.len, ok.pos, ok.layout, owned node is⟩
    nodes_new := fun node is => new ⟨node, is, rfl⟩
    nodes_nodup := inv.accepts.nodes_nodup
    edges_new := by
      intro edge is
      rw [mem, mem_edges] at is
      exact TreeTables.no_edge (new (inv.pending _ _ _ is).1)
    edges_nodup := nodup
    edges_fk := by
      intro edge is
      rw [mem, mem_edges] at is
      obtain ⟨parent, child⟩ := inv.pending _ _ _ is
      exact ⟨TreeTables.add_nodes_isSome.2 (.inl parent), more child⟩
    leafRefs_ok := inv.accepts.leafRefs_ok
    leafRefs_new := fun l is => TreeTables.no_leafRef (new (inv.leaf_new l is))
    leafRefs_nodup := inv.accepts.leafRefs_nodup
    leafRefs_fk := fun l is => more (inv.accepts.leafRefs_fk l is) }

lemma later_add {t' : TreeTables} (inv : CowInv t has g exportId ids oldRoot planner leaves)
    (perm : ∀ l, (shuffle l).Perm l) (later : t.toTreeRows.Later t'.toTreeRows)
    (unused : FreshIds ids t'.toTreeRows) :
    t'.toTreeRows.Later (t'.toTreeRows.add (planner.batch shuffle)) :=
  (inv.accepts_batch perm later unused (fun _ => true) rfl).later
    (fun edge is => (inv.pending _ _ _ (mem_edges.1 (((inv.batch_edges perm).1 edge).1 is))).1)
    inv.leaf_new

lemma later_batch {t' : TreeTables} (inv : CowInv t has g exportId ids oldRoot planner leaves)
    (perm : ∀ l, (shuffle l).Perm l) (later : t.toTreeRows.Later t'.toTreeRows)
    (unused : FreshIds ids t'.toTreeRows) :
    (planner.view t.toTreeRows).Later (t'.toTreeRows.add (planner.batch shuffle)) := by
  rw [← inv.add_batch perm]
  intro m is
  by_cases stored : (t.nodes m).isSome
  · obtain ⟨nodes, edges, leafRefs⟩ := later m stored
    exact TreeRows.add_congr _ nodes edges leafRefs
  · have absent : t.nodes m = none := Option.not_isSome_iff_eq_none.1 stored
    have absent' : t'.nodes m = none := by
      rcases TreeTables.add_nodes_isSome.1 is with ⟨node, mem, rfl⟩ | is
      · obtain ⟨k, -, id⟩ := inv.drawn node mem
        rw [id]
        exact unused.new k
      · exact absurd is stored
    refine TreeRows.add_congr _ (absent'.trans absent.symm) ?_ ?_
    · funext s
      rw [TreeTables.no_edge absent, TreeTables.no_edge absent']
    · rw [TreeTables.no_leafRef absent, TreeTables.no_leafRef absent']

end CowInv

/-- The publish of distinct chunks of an export whose tree is well formed. The planner succeeds, and
its batch has no node id and no parent and slot twice. If the batch is inserted, `load_leaf` from
the new root returns for each planned chunk a leaf with its blob and for every other chunk what it
returned from the old root, and what it returns from roots that were there does not change. The
tables may have grown while the planner read them and until the batch is inserted. -/
theorem cow_publish_correct {t t' : TreeTables} {chunks : List CowChunkRef} (exportId : ExportId)
    (size : g.sizeBytes < I64)
    (well_formed : ∀ idx, g.Valid idx → ∃ leaf, LazyTreeMetadataReader.loadLeaf
      ⟨g, .cowImmutableTree, oldRoot⟩ t.toTreeRows idx = .ok leaf)
    (some_chunk : chunks ≠ []) (distinct : (chunks.map (·.chunkIndex)).Nodup)
    (valid : ∀ chunk ∈ chunks, g.Valid chunk.chunkIndex)
    (reads : ∀ k, t.toTreeRows.Later (rows k)) (later : t.toTreeRows.Later t'.toTreeRows)
    (unused : FreshIds ids t'.toTreeRows) (perm : ∀ l, (shuffle l).Perm l) :
    ∃ planner, (new ids g exportId oldRoot).planChunks rows ids chunks = .ok planner ∧
      ((planner.batch shuffle).nodes.map (·.id)).Nodup ∧
      ((planner.batch shuffle).edges.map fun e => (e.parentNodeId, e.slot)).Nodup ∧
      (∀ has : ExportId → Bool, has exportId = true → ∃ t'',
        TreeTables.insertTreeRecords has t' (planner.batch shuffle) = .ok t'') ∧
      ∀ has t'', TreeTables.insertTreeRecords has t' (planner.batch shuffle) = .ok t'' →
        (∀ chunk ∈ chunks, ∃ leaf, LazyTreeMetadataReader.loadLeaf
            ⟨g, .cowImmutableTree, some planner.newRootNodeId⟩ t''.toTreeRows chunk.chunkIndex =
              .ok (some leaf) ∧ leaf.leafRef.storageKind = .immutableBlob ∧
            leaf.leafRef.storageKey = chunk.blobKey ∧ leaf.leafRef.lenBytes = TREE_CHUNK_BYTES) ∧
        (∀ idx, g.Valid idx → idx ∉ chunks.map (·.chunkIndex) → LazyTreeMetadataReader.loadLeaf
            ⟨g, .cowImmutableTree, some planner.newRootNodeId⟩ t''.toTreeRows idx =
          LazyTreeMetadataReader.loadLeaf ⟨g, .cowImmutableTree, oldRoot⟩ t.toTreeRows idx) ∧
        (∀ idx, g.Valid idx → ∃ leaf, LazyTreeMetadataReader.loadLeaf
          ⟨g, .cowImmutableTree, some planner.newRootNodeId⟩ t''.toTreeRows idx = .ok leaf) ∧
        ∀ reader : LazyTreeMetadataReader, (∀ r ∈ reader.rootNodeId, (t'.nodes r).isSome) →
          ∀ idx, reader.loadLeaf t''.toTreeRows idx = reader.loadLeaf t'.toTreeRows idx := by
  obtain ⟨leaves₀, holds⟩ := holdsRoot_of_loadLeaf well_formed
  have unused₀ := unused.earlier later
  have ready : Ready rows t (fun _ => true) g exportId ids oldRoot (new ids g exportId oldRoot)
      leaves₀ :=
    ready_new reads unused₀ size rfl holds
  obtain ⟨planner, leaves, run, root, inv, made, kept⟩ :=
    planChunks_spec reads unused₀ size rfl holds ready some_chunk distinct valid
  refine ⟨planner, run, inv.accepts.nodes_nodup, (inv.batch_edges perm).2, ?_, ?_⟩
  · intro has owner
    obtain ⟨t'', inserted, -⟩ := TreeTables.insertTreeRecords_of_accepts
      (inv.accepts_batch perm later unused has owner)
    exact ⟨t'', inserted⟩
  · intro has t'' inserted
    have rows := TreeTables.insertTreeRecords_eq_ok inserted
    have planned : g.HoldsRoot .cowImmutableTree (planner.view t.toTreeRows)
      (some planner.newRootNodeId) leaves := inv.holds
    have tree : g.HoldsRoot .cowImmutableTree t''.toTreeRows (some planner.newRootNodeId)
        leaves := by
      rw [rows]
      exact planned.kept (trie_kept (inv.later_batch perm later unused))
    have same : t'.toTreeRows.Later t''.toTreeRows := by
      rw [rows]
      exact inv.later_add perm later unused
    refine ⟨?_, ?_, ?_, ?_⟩
    · intro chunk mem
      obtain ⟨leaf, found, is_leaf⟩ := made chunk mem
      exact ⟨⟨chunk.chunkIndex, leaf.1, leaf.2⟩,
        by rw [tree.loadLeaf_eq (valid chunk mem), found]; rfl,
        is_leaf.kind, is_leaf.key, is_leaf.len⟩
    · intro idx inside other
      rw [tree.loadLeaf_eq inside, holds.loadLeaf_eq inside, kept idx other]
    · intro idx inside
      exact ⟨_, tree.loadLeaf_eq inside⟩
    · intro reader stored idx
      exact reader.loadLeaf_later same stored idx

def threeChunks : List CowChunkRef :=
  [⟨33, 7, TREE_CHUNK_BYTES, rfl⟩, ⟨2, 8, TREE_CHUNK_BYTES, rfl⟩, ⟨34, 9, TREE_CHUNK_BYTES, rfl⟩]

lemma first_publish : ∃ g planner t, TreeGeometry.new .bounded32V1 (40 * TREE_CHUNK_BYTES) = .ok g ∧
    (new id g 1 none).planChunks (fun _ => .empty) id threeChunks = .ok planner ∧
    TreeTables.insertTreeRecords (· == 1) .empty (planner.batch List.reverse) = .ok t ∧
    FreshIds (· + 8) t.toTreeRows ∧ (t.nodes planner.newRootNodeId).isSome :=
  ⟨_, _, _, rfl, rfl, rfl, ⟨add_left_injective 8, fun _ => rfl⟩, rfl⟩

/-- A chunk of the first publish again, and a new one next to the other two. -/
def twoMore : List CowChunkRef :=
  [⟨2, 10, TREE_CHUNK_BYTES, rfl⟩, ⟨35, 11, TREE_CHUNK_BYTES, rfl⟩]

/-- `cow_publish_correct` at the first and the second publish of an export: the new root has the new
blobs and shares the others with the old root, which keeps its own. -/
theorem cow_publish_correct_second : ∃ g old t planner t', g.sizeBytes = 40 * TREE_CHUNK_BYTES ∧
    (new (· + 8) g 1 (some old)).planChunks (fun _ => t.toTreeRows) (· + 8) twoMore = .ok planner ∧
    TreeTables.insertTreeRecords (· == 1) t (planner.batch List.reverse) = .ok t' ∧
    (∀ p ∈ [(2, 10), (35, 11), (33, 7), (34, 9)], ∃ leaf, LazyTreeMetadataReader.loadLeaf
      ⟨g, .cowImmutableTree, some planner.newRootNodeId⟩ t'.toTreeRows p.1 = .ok (some leaf) ∧
      leaf.leafRef.storageKey = p.2) ∧
    ∃ leaf, LazyTreeMetadataReader.loadLeaf ⟨g, .cowImmutableTree, some old⟩ t'.toTreeRows 2 =
      .ok (some leaf) ∧ leaf.leafRef.storageKey = 8 := by
  obtain ⟨g, first, t, built, run₁, inserted₁, unused, stored⟩ := first_publish
  obtain ⟨size, -⟩ := of_new built
  have inside : ∀ {idx : Nat}, idx < 40 → g.Valid idx := by
    intro idx lt
    show idx * TREE_CHUNK_BYTES < g.sizeBytes
    rw [size]
    exact Nat.mul_lt_mul_of_pos_right lt (by decide)
  have valid : ∀ chunk ∈ threeChunks ++ twoMore, g.Valid chunk.chunkIndex := by
    intro chunk mem
    have all : ∀ chunk ∈ threeChunks ++ twoMore, chunk.chunkIndex < 40 := by decide
    exact inside (all chunk mem)
  obtain ⟨planner₁, same₁, -, -, -, loads₁⟩ := @cow_publish_correct g id none (fun _ => .empty)
    List.reverse .empty .empty threeChunks 1 (by rw [size]; decide) (fun _ _ => ⟨none, rfl⟩)
    (by decide) (by decide) (fun chunk mem => valid chunk (List.mem_append_left _ mem))
    (fun _ => TreeRows.Later.refl _) (TreeRows.Later.refl _) ⟨Function.injective_id, fun _ => rfl⟩
    List.reverse_perm
  rw [run₁] at same₁
  cases same₁
  obtain ⟨made₁, -, all₁, -⟩ := loads₁ _ t inserted₁
  -- the second publish plans on the tree of the first one
  obtain ⟨planner, run, -, -, inserts, loads⟩ := @cow_publish_correct g (· + 8)
    (some first.newRootNodeId) (fun _ => t.toTreeRows) List.reverse t t twoMore 1
    (by rw [size]; decide) all₁ (by decide) (by decide)
    (fun chunk mem => valid chunk (List.mem_append_right _ mem)) (fun _ => TreeRows.Later.refl _)
    (TreeRows.Later.refl _) unused List.reverse_perm
  obtain ⟨t', inserted⟩ := inserts (· == 1) rfl
  obtain ⟨made, kept, -, others⟩ := loads _ t' inserted
  have old : ∀ chunk ∈ threeChunks, ∃ leaf, LazyTreeMetadataReader.loadLeaf
      ⟨g, .cowImmutableTree, some first.newRootNodeId⟩ t.toTreeRows chunk.chunkIndex =
        .ok (some leaf) ∧ leaf.leafRef.storageKey = chunk.blobKey := by
    intro chunk mem
    obtain ⟨leaf, loaded, -, key, -⟩ := made₁ chunk mem
    exact ⟨leaf, loaded, key⟩
  have new : ∀ chunk ∈ twoMore, ∃ leaf, LazyTreeMetadataReader.loadLeaf
      ⟨g, .cowImmutableTree, some planner.newRootNodeId⟩ t'.toTreeRows chunk.chunkIndex =
        .ok (some leaf) ∧ leaf.leafRef.storageKey = chunk.blobKey := by
    intro chunk mem
    obtain ⟨leaf, loaded, -, key, -⟩ := made chunk mem
    exact ⟨leaf, loaded, key⟩
  refine ⟨g, first.newRootNodeId, t, planner, t', size, run, inserted, ?_, ?_⟩
  · intro p mem
    simp only [List.mem_cons, List.not_mem_nil, or_false] at mem
    rcases mem with rfl | rfl | rfl | rfl
    · exact new ⟨2, 10, TREE_CHUNK_BYTES, rfl⟩ (by simp [twoMore])
    · exact new ⟨35, 11, TREE_CHUNK_BYTES, rfl⟩ (by simp [twoMore])
    · rw [kept 33 (inside (by decide)) (by decide)]
      exact old ⟨33, 7, TREE_CHUNK_BYTES, rfl⟩ (by simp [threeChunks])
    · rw [kept 34 (inside (by decide)) (by decide)]
      exact old ⟨34, 9, TREE_CHUNK_BYTES, rfl⟩ (by simp [threeChunks])
  · rw [others ⟨g, .cowImmutableTree, some first.newRootNodeId⟩
      (fun r is => by cases is; exact stored)]
    exact old ⟨2, 8, TREE_CHUNK_BYTES, rfl⟩ (by simp [threeChunks])

end CowTreePublishPlanner

end NbdServer
