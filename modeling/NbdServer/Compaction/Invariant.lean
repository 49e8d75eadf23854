import NbdServer.Compaction.Planner

/-!
# The invariant of the copy-on-write planner

While the planner works, the rows of the catalog with the new nodes and the pending edges are a tree
below the new root (`CowInv.holds`). A new internal node has the edges of the old node at its
position (`CowInv.shadow`), except where a new internal node was made below it, so to put a new node
in the place of an old child changes no leaf; only the new leaf of a planned chunk does.
-/

namespace NbdServer

open Lib TreeGeometry

namespace CowTreePublishPlanner

/-- The leaf is the one that the planner makes for the chunk. -/
structure IsLeafOf (chunk : CowChunkRef) (leaf : TreeNodeRecord × TreeLeafRefRecord) : Prop where
  kind : leaf.2.storageKind = .immutableBlob
  key : leaf.2.storageKey = chunk.blobKey
  len : leaf.2.lenBytes = TREE_CHUNK_BYTES

/-- The rows of the catalog with those that are planned. -/
def view (rows : TreeRows) (planner : CowTreePublishPlanner) : TreeRows where
  nodes := (rows.add planner.records).nodes
  edges := fun n s => (planner.pendingEdges.find (toLex (n, s))).or (rows.edges n s)
  leafRefs := (rows.add planner.records).leafRefs

def oldAt (rows : TreeRows) (oldRoot : Option NodeId) (q : List Nat) : Option NodeId :=
  oldRoot.bind fun root => q.foldlM rows.edges root

structure CowInv (t : TreeTables) (has : ExportId → Bool) (g : TreeGeometry) (exportId : ExportId)
    (ids : Nat → NodeId) (oldRoot : Option NodeId) (planner : CowTreePublishPlanner)
    (leaves : Nat → Found) : Prop where
  geometry : planner.geometry = g
  factory : planner.factory = ⟨g, .cowImmutableTree, some exportId⟩
  old : planner.oldRootNodeId = oldRoot
  accepts : TreeTables.Accepts has t.toTreeRows planner.records
  no_edges : planner.records.edges = []
  drawn : ∀ node ∈ planner.records.nodes, ∃ k < planner.drawn, node.id = ids k
  owned : ∀ node ∈ planner.records.nodes, node.ownerExportId = some exportId
  copied_new : ∀ n ∈ planner.copiedParents, ∃ node ∈ planner.records.nodes, node.id = n
  leaf_new : ∀ l ∈ planner.records.leafRefs, ∃ node ∈ planner.records.nodes, node.id = l.nodeId
  internal : ∀ n s c, planner.newInternalEdges n s = some c →
    planner.pendingEdges.find (toLex (n, s)) = some c
  pending : ∀ n s c, planner.pendingEdges.find (toLex (n, s)) = some c →
    (∃ node ∈ planner.records.nodes, node.id = n) ∧
      ((t.toTreeRows.add planner.records).nodes c).isSome
  placed : ∀ q n, q.foldlM planner.newInternalEdges planner.newRootNodeId = some n →
    (∃ node ∈ planner.records.nodes, node.id = n) ∧ q.length < g.rootLevel ∧
      (g.trie .cowImmutableTree (planner.view t.toTreeRows)).fits n q
  copied : ∀ q n, q.foldlM planner.newInternalEdges planner.newRootNodeId = some n →
    (oldAt t.toTreeRows oldRoot q).isSome → n ∈ planner.copiedParents
  shadow : ∀ q n s, q.foldlM planner.newInternalEdges planner.newRootNodeId = some n →
    q.length + 1 < g.rootLevel → s < 32 → planner.newInternalEdges n s = none →
    planner.pendingEdges.find (toLex (n, s)) = (oldAt t.toTreeRows oldRoot q).bind (t.edges · s)
  holds : g.Holds .cowImmutableTree (planner.view t.toTreeRows) planner.newRootNodeId leaves

variable {t : TreeTables} {has : ExportId → Bool} {g : TreeGeometry} {exportId : ExportId}
variable {ids : Nat → NodeId} {oldRoot : Option NodeId} {planner : CowTreePublishPlanner}
variable {leaves : Nat → Found} {rows : Nat → TreeRows}

@[simp] lemma loadChildEdge_eq (rows : TreeRows) (parent : NodeId) (slot : Nat) :
    loadChildEdge rows parent slot =
      .ok ((rows.edges parent slot).map fun child => ⟨parent, slot, child⟩) :=
  rows.loadChildEdgeWith_eq _ _ parent slot

lemma oldAt_concat (rows : TreeRows) (oldRoot : Option NodeId) (q : List Nat) (s : Nat) :
    oldAt rows oldRoot (q ++ [s]) = (oldAt rows oldRoot q).bind (rows.edges · s) := by
  unfold oldAt
  cases oldRoot with
  | none => rfl
  | some root =>
    simp only [Option.bind_some, List.foldlM_append, List.foldlM_cons, List.foldlM_nil]
    cases q.foldlM rows.edges root with
    | none => rfl
    | some n =>
      simp only [Option.bind_eq_bind, Option.bind_some]
      cases rows.edges n s <;> rfl

lemma copyEdges_spec (rows : TreeRows) (o c : NodeId) {fanout : Nat} {slots : List Nat}
    (small : ∀ s ∈ slots, s < fanout) (pending : EdgeMap) : ∃ pending',
      copyEdges fanout o c pending (rows.loadChildEdges o slots) = .ok pending' ∧
      ∀ n s, pending'.find (toLex (n, s)) = if n = c ∧ s ∈ slots then
        (rows.edges o s).or (pending.find (toLex (n, s))) else pending.find (toLex (n, s)) := by
  induction slots generalizing pending with
  | nil => exact ⟨pending, rfl, by simp⟩
  | cons slot slots ih =>
    have rest : ∀ s ∈ slots, s < fanout := fun s mem => small s (List.mem_cons_of_mem _ mem)
    have here : ¬ slot ≥ fanout := Nat.not_le.2 (small slot List.mem_cons_self)
    cases edge : rows.edges o slot with
    | none =>
      obtain ⟨pending', run, find⟩ := ih rest pending
      refine ⟨pending', ?_, ?_⟩
      · rw [TreeRows.loadChildEdges, List.filterMap_cons, edge]
        exact run
      · intro n s
        rw [find]
        by_cases same : s = slot
        · subst same
          rw [edge]
          simp
        · simp [same]
    | some child =>
      obtain ⟨pending', run, find⟩ := ih rest (pending.insert (toLex (c, slot)) child)
      refine ⟨pending', ?_, ?_⟩
      · rw [TreeRows.loadChildEdges, List.filterMap_cons, edge]
        show copyEdges fanout o c pending (⟨o, slot, child⟩ :: _) = _
        rw [copyEdges, if_neg (by simp), if_neg here]
        exact run
      · intro n s
        rw [find, OrdMap.find_insert]
        simp only [EmbeddingLike.apply_eq_iff_eq, Prod.mk.injEq, List.mem_cons]
        by_cases parent : n = c
        · by_cases same : s = slot
          · subst same
            simp [parent, edge]
          · simp [parent, same]
        · simp [parent]

/-! ## Reads

What the planner reads are rows of old nodes, which are the same at every later moment. -/

def withReads (planner : CowTreePublishPlanner) (k : Nat) : CowTreePublishPlanner :=
  { planner with reads := k }

lemma CowInv.withReads (inv : CowInv t has g exportId ids oldRoot planner leaves) (k : Nat) :
    CowInv t has g exportId ids oldRoot (planner.withReads k) leaves :=
  ⟨inv.geometry, inv.factory, inv.old, inv.accepts, inv.no_edges, inv.drawn, inv.owned,
    inv.copied_new, inv.leaf_new, inv.internal, inv.pending, inv.placed, inv.copied, inv.shadow,
      inv.holds⟩

lemma oldChild_eq (later : ∀ k, t.toTreeRows.Later (rows k)) {oldParent : Option NodeId}
    (stored : ∀ o ∈ oldParent, (t.nodes o).isSome) (slot : Nat) :
    ∃ k, planner.oldChild rows oldParent slot =
      .ok (planner.withReads k, oldParent.bind (t.edges · slot)) := by
  cases oldParent with
  | none => exact ⟨planner.reads, rfl⟩
  | some parent =>
    refine ⟨planner.reads + 1, ?_⟩
    have same := congrFun (later planner.reads parent (stored parent rfl)).2.1 slot
    rw [oldChild, loadChildEdge_eq, Res.ok_bind, Option.map_map, Option.bind_some, same]
    cases t.edges parent slot <;> rfl

lemma checkOld_eq (later : ∀ k, t.toTreeRows.Later (rows k)) {o : NodeId} {q : List Nat}
    {span : TreeNodeSpan} (fits : (g.trie .cowImmutableTree t.toTreeRows).fits o q)
    (at_span : g.spanAt q = .ok span) (inner : span.level ≠ 0) :
    planner.checkOld rows o span = .ok (planner.withReads (planner.reads + 1)) := by
  obtain ⟨row, span', is_row, at_span', is_node⟩ := fits
  cases at_span.symm.trans at_span'
  have kind : expectedKind span.level = .internal := if_neg inner
  rw [kind] at is_node
  have same := (later planner.reads o (by rw [is_row]; rfl)).1
  have loaded : (rows planner.reads).loadRequiredNode o = .ok ⟨row, o⟩ :=
    TreeRows.loadRequiredNode_eq_ok.2 ⟨same.trans is_row, rfl⟩
  have checked : validateExistingNode ⟨row, o⟩ span = .ok () :=
    validateExistingNode_of_matches is_node
  rw [checkOld, loaded, Res.ok_bind, checked, Res.ok_bind]
  rfl

lemma copyExistingEdgesOnce_spec (later : ∀ k, t.toTreeRows.Later (rows k)) {o c : NodeId}
    {q : List Nat} {span : TreeNodeSpan} (fanout : planner.geometry.fanout = 32)
    (fits : (g.trie .cowImmutableTree t.toTreeRows).fits o q) (at_span : g.spanAt q = .ok span)
    (inner : span.level ≠ 0) (new : c ∉ planner.copiedParents) :
    ∃ pending k, planner.copyExistingEdgesOnce rows (some o) c span = .ok (withReads { planner with
        copiedParents := c :: planner.copiedParents
        pendingEdges := pending } k) ∧
      ∀ n s, pending.find (toLex (n, s)) = if n = c ∧ s < 32 then
        (t.edges o s).or (planner.pendingEdges.find (toLex (n, s)))
        else planner.pendingEdges.find (toLex (n, s)) := by
  have stored : (t.nodes o).isSome := by
    obtain ⟨row, -, is_row, -⟩ := fits
    rw [is_row]
    rfl
  have small : ∀ s ∈ List.range 32, s < 32 := fun s mem => List.mem_range.1 mem
  obtain ⟨pending, run, find⟩ :=
    copyEdges_spec (rows (planner.reads + 1)) o c small planner.pendingEdges
  refine ⟨pending, planner.reads + 2, ?_, ?_⟩
  · unfold copyExistingEdgesOnce
    dsimp only
    rw [if_neg new, checkOld_eq later fits at_span inner, Res.ok_bind]
    show (copyEdges planner.geometry.fanout o c planner.pendingEdges
      ((rows (planner.reads + 1)).loadChildEdges o (List.range planner.geometry.fanout)) >>= _) = _
    rw [fanout, run, Res.ok_bind]
    rfl
  · intro n s
    rw [find, (later _ o stored).2.1]
    simp only [List.mem_range]

namespace CowInv

lemma not_stored (inv : CowInv t has g exportId ids oldRoot planner leaves) {n : NodeId}
    (mem : ∃ node ∈ planner.records.nodes, node.id = n) : t.nodes n = none := by
  obtain ⟨node, mem, rfl⟩ := mem
  exact inv.accepts.nodes_new node mem

lemma same (inv : CowInv t has g exportId ids oldRoot planner leaves) :
    t.toTreeRows.Later (planner.view t.toTreeRows) := by
  intro m is
  have old : ¬ ∃ node ∈ planner.records.nodes, node.id = m := by
    intro mem
    rw [inv.not_stored mem] at is
    cases is
  refine ⟨TreeRows.foldl_setNode_of_not_mem ?_, ?_, TreeRows.foldl_setLeafRef_of_not_mem ?_⟩
  · intro node mem same
    exact old ⟨node, mem, same⟩
  · funext s
    show (planner.pendingEdges.find (toLex (m, s))).or (t.edges m s) = t.edges m s
    cases found : planner.pendingEdges.find (toLex (m, s)) with
    | none => rfl
    | some c => exact absurd (inv.pending m s c found).1 old
  · rintro l mem rfl
    exact old (inv.leaf_new l mem)

lemma kept (inv : CowInv t has g exportId ids oldRoot planner leaves) :
    Trie.Grows (g.trie .cowImmutableTree t.toTreeRows)
      (g.trie .cowImmutableTree (planner.view t.toTreeRows)) fun _ => False := trie_kept inv.same

lemma fresh (inv : CowInv t has g exportId ids oldRoot planner leaves)
    (unused : FreshIds ids t.toTreeRows) :
    (t.toTreeRows.add planner.records).nodes (ids planner.drawn) = none := by
  rw [← Option.not_isSome_iff_eq_none, TreeTables.add_nodes_isSome, unused.new]
  rintro (⟨node, mem, same⟩ | is)
  · obtain ⟨k, lt, id⟩ := inv.drawn node mem
    have := unused.inj (id.symm.trans same)
    omega
  · cases is

lemma fresh_not_mem (inv : CowInv t has g exportId ids oldRoot planner leaves)
    (unused : FreshIds ids t.toTreeRows) :
    ¬ ∃ node ∈ planner.records.nodes, node.id = ids planner.drawn := by
  have fresh := inv.fresh unused
  rw [← Option.not_isSome_iff_eq_none, TreeTables.add_nodes_isSome, not_or] at fresh
  exact fresh.1

lemma fresh_edge (inv : CowInv t has g exportId ids oldRoot planner leaves)
    (unused : FreshIds ids t.toTreeRows) (s : Nat) :
    planner.pendingEdges.find (toLex (ids planner.drawn, s)) = none ∧
      t.edges (ids planner.drawn) s = none := by
  refine ⟨?_, TreeTables.no_edge (unused.new _)⟩
  cases found : planner.pendingEdges.find (toLex (ids planner.drawn, s)) with
  | none => rfl
  | some c => exact absurd (inv.pending _ s c found).1 (inv.fresh_not_mem unused)

lemma lead_view (inv : CowInv t has g exportId ids oldRoot planner leaves) {q : List Nat}
    {n : NodeId} (lead : q.foldlM planner.newInternalEdges planner.newRootNodeId = some n) :
    q.foldlM (planner.view t.toTreeRows).edges planner.newRootNodeId = some n := by
  refine Trie.lead_mono (fun m s c edge => ?_) lead
  show (planner.pendingEdges.find (toLex (m, s))).or (t.edges m s) = some c
  rw [inv.internal m s c edge]
  rfl

end CowInv

/-! ## A new internal node -/

section Internal

variable {n : NodeId} {s idx : Nat} {q path : List Nat} {childSpan : TreeNodeSpan}
    {old : Option NodeId}
variable {pending : EdgeMap} {leaves₀ : Nat → Found}

/-- The planner after a new internal node was made and got the edges of the old one. -/
def withInternal (ids : Nat → NodeId) (planner : CowTreePublishPlanner) (n : NodeId) (s : Nat)
    (childSpan : TreeNodeSpan) (old : Option NodeId) (pending : EdgeMap) : CowTreePublishPlanner :=
  { planner.newInternal ids n s childSpan with
    copiedParents := (old.map fun _ => ids planner.drawn).toList ++ planner.copiedParents
    pendingEdges := pending }

/-- The pending edges after a new internal node was made and got the edges of the old one. -/
def Extended (t : TreeTables) (ids : Nat → NodeId) (planner : CowTreePublishPlanner) (n : NodeId)
    (s : Nat) (old : Option NodeId) (pending : EdgeMap) : Prop :=
  ∀ m x, pending.find (toLex (m, x)) =
    if m = n ∧ x = s then some (ids planner.drawn)
    else if m = ids planner.drawn ∧ x < 32 then old.bind (t.edges · x)
    else planner.pendingEdges.find (toLex (m, x))

namespace CowInv

lemma drawn_ne (inv : CowInv t has g exportId ids oldRoot planner leaves)
    (unused : FreshIds ids t.toTreeRows)
    (lead : q.foldlM planner.newInternalEdges planner.newRootNodeId = some n) :
    n ≠ ids planner.drawn := by
  rintro rfl
  exact inv.fresh_not_mem unused (inv.placed q _ lead).1

lemma lead_withInternal (inv : CowInv t has g exportId ids oldRoot planner leaves)
    (unused : FreshIds ids t.toTreeRows)
    (lead : q.foldlM planner.newInternalEdges planner.newRootNodeId = some n) {q' : List Nat}
    {m : NodeId}
    (lead' : q'.foldlM (TreeRows.setEdge planner.newInternalEdges ⟨n, s, ids planner.drawn⟩)
      planner.newRootNodeId = some m) :
    (m = ids planner.drawn ∧ q' = q ++ [s]) ∨
      q'.foldlM planner.newInternalEdges planner.newRootNodeId = some m := by
  induction q' using List.reverseRecOn generalizing m with
  | nil => exact .inr lead'
  | append_singleton q' x ih =>
    obtain ⟨k, lead', edge⟩ := Trie.lead_concat.1 lead'
    rw [TreeRows.setEdge_apply] at edge
    rcases ih lead' with ⟨rfl, -⟩ | old
    · -- The new node has no new internal children.
      exfalso
      rw [if_neg (fun h => inv.drawn_ne unused lead h.1.symm)] at edge
      have := inv.internal _ _ _ edge
      rw [(inv.fresh_edge unused x).1] at this
      cases this
    · split_ifs at edge with key
      · cases edge
        obtain ⟨rfl, rfl⟩ := key
        have same := trie_fits_unique (inv.placed q' _ old).2.2 (inv.placed q _ lead).2.2
        rw [same]
        exact .inl ⟨rfl, rfl⟩
      · exact .inr (Trie.lead_concat.2 ⟨k, old, edge⟩)

lemma lead_child (lead : q.foldlM planner.newInternalEdges planner.newRootNodeId = some n)
    (missing : planner.newInternalEdges n s = none) :
    (q ++ [s]).foldlM (TreeRows.setEdge planner.newInternalEdges ⟨n, s, ids planner.drawn⟩)
      planner.newRootNodeId = some (ids planner.drawn) := by
  refine Trie.lead_concat.2 ⟨n, Trie.lead_mono ?_ lead, ?_⟩
  · intro m x c edge
    refine (TreeRows.setEdge_apply ..).trans ((if_neg ?_).trans edge)
    rintro ⟨rfl, rfl⟩
    rw [missing] at edge
    cases edge
  · exact (TreeRows.setEdge_apply ..).trans (if_pos ⟨rfl, rfl⟩)

lemma view_nodes (rows : TreeRows) :
    ((withInternal ids planner n s childSpan old pending).view rows).nodes =
    TreeRows.setNode (planner.view rows).nodes
      (planner.factory.internalNode (ids planner.drawn) childSpan) := by
  show (planner.records.nodes ++ [_]).foldl TreeRows.setNode rows.nodes = _
  rw [List.foldl_append]
  rfl

lemma view_edges (inv : CowInv t has g exportId ids oldRoot planner leaves)
    (unused : FreshIds ids t.toTreeRows) (extended : Extended t ids planner n s old pending)
    (m : NodeId) (x : Nat) :
    ((withInternal ids planner n s childSpan old pending).view t.toTreeRows).edges m x =
      if m = n ∧ x = s then some (ids planner.drawn)
      else if m = ids planner.drawn ∧ x < 32 then old.bind (t.edges · x)
      else (planner.view t.toTreeRows).edges m x := by
  show (pending.find (toLex (m, x))).or (t.edges m x) = _
  rw [extended]
  split_ifs with here new
  · rfl
  · obtain ⟨rfl, -⟩ := new
    rw [(inv.fresh_edge unused x).2, Option.or_none]
  · rfl

lemma grows_withInternal (inv : CowInv t has g exportId ids oldRoot planner leaves)
    (unused : FreshIds ids t.toTreeRows)
    (lead : q.foldlM planner.newInternalEdges planner.newRootNodeId = some n)
    (extended : Extended t ids planner n s old pending) (childSpan : TreeNodeSpan) :
    Trie.Grows (g.trie .cowImmutableTree (planner.view t.toTreeRows))
      (g.trie .cowImmutableTree
        ((withInternal ids planner n s childSpan old pending).view t.toTreeRows))
      fun p => p = q ++ [s] := by
  refine trie_grows (c := ids planner.drawn) (inv.fresh unused) (inv.placed q n lead).2.2 ?_ ?_ ?_
  · intro m other
    rw [view_nodes]
    exact Function.update_of_ne other _ _
  · intro m x other off
    rw [inv.view_edges unused extended, if_neg off, if_neg (fun h => other h.1)]
  · intro m _
    rfl

lemma fits_withInternal (inv : CowInv t has g exportId ids oldRoot planner leaves)
    (at_child : g.spanAt (q ++ [s]) = .ok childSpan) (inner : childSpan.level ≠ 0) :
    (g.trie .cowImmutableTree
      ((withInternal ids planner n s childSpan old pending).view t.toTreeRows)).fits
        (ids planner.drawn) (q ++ [s]) := by
  refine factory_fits (planner.factory.internalNode (ids planner.drawn) childSpan) ?_ rfl ?_
    (if_neg inner).symm at_child
  · rw [view_nodes]
    exact Function.update_self _ _ _
  · rw [inv.factory]

lemma old_fits (holds : g.HoldsRoot .cowImmutableTree t.toTreeRows oldRoot leaves₀)
    (valid : g.Valid idx) (start : q <+: digits idx g.rootLevel) {o : NodeId}
    (is_old : oldAt t.toTreeRows oldRoot q = some o) :
    (g.trie .cowImmutableTree t.toTreeRows).fits o q := by
  obtain ⟨root, rfl, lead⟩ := Option.bind_eq_some_iff.1 is_old
  exact Holds.lead_fits holds valid start lead

/-- The chunks below the new node have the leaves they had: the new node has the edges of the old
one, or none if there is no old one. -/
lemma below_withInternal (inv : CowInv t has g exportId ids oldRoot planner leaves)
    (unused : FreshIds ids t.toTreeRows)
    (holds : g.HoldsRoot .cowImmutableTree t.toTreeRows oldRoot leaves₀)
    (lead : q.foldlM planner.newInternalEdges planner.newRootNodeId = some n)
    (missing : planner.newInternalEdges n s = none)
    (at_child : g.spanAt (q ++ [s]) = .ok childSpan) (inner : childSpan.level ≠ 0)
    (extended : Extended t ids planner n s (oldAt t.toTreeRows oldRoot (q ++ [s])) pending)
    (valid : g.Valid idx) (split : digits idx g.rootLevel = q ++ s :: path) :
    Trie.Finds (g.trie .cowImmutableTree ((withInternal ids planner n s childSpan
      (oldAt t.toTreeRows oldRoot (q ++ [s])) pending).view t.toTreeRows)) n q (s :: path)
      (leaves idx) := by
  have grows := inv.grows_withInternal unused lead extended childSpan
  have fits := @fits_withInternal t has g exportId ids oldRoot planner leaves n s q childSpan
    (oldAt t.toTreeRows oldRoot (q ++ [s])) pending inv at_child inner
  have edges := @view_edges t has g exportId ids oldRoot planner leaves n s childSpan
    (oldAt t.toTreeRows oldRoot (q ++ [s])) pending inv unused extended
  have level : childSpan.level + (q.length + 1) = g.rootLevel := by
    obtain ⟨-, level, -⟩ := spanAt_eq_ok at_child
    rwa [List.length_append] at level
  have len := digits_split split
  have small := digits_lt idx g.rootLevel
  rw [split] at small
  simp only [List.length_cons] at len
  have other := inv.drawn_ne unused lead
  have walk := inv.holds idx valid
  rw [split] at walk
  have here := walk.arrive (inv.lead_view lead)
  have shadow := inv.shadow q n s lead (by omega) (small s (by simp)) missing
  rw [← oldAt_concat] at shadow
  have edge : (planner.view t.toTreeRows).edges n s = oldAt t.toTreeRows oldRoot (q ++ [s]) := by
    show (planner.pendingEdges.find (toLex (n, s))).or (t.edges n s) = _
    rw [shadow, TreeTables.no_edge (inv.not_stored (inv.placed q n lead).1), Option.or_none]
  refine .step (grows.fits here.fits) ((edges n s).trans (if_pos ⟨rfl, rfl⟩)) ?_
  cases path with
  | nil => simp only [List.length_nil] at len; omega
  | cons x path =>
    cases is_old : oldAt t.toTreeRows oldRoot (q ++ [s]) with
    | none =>
      have absent : leaves idx = none := here.unique (.stop here.fits (edge.trans is_old))
      rw [absent]
      rw [is_old] at fits edges
      refine .bare fits (fun y => (edges _ y).trans ?_) (by simp)
      rw [if_neg (fun h => other h.1.symm)]
      split_ifs
      · rfl
      · show (planner.pendingEdges.find (toLex (ids planner.drawn, y))).or _ = none
        rw [(inv.fresh_edge unused y).1, (inv.fresh_edge unused y).2]
        rfl
    | some o =>
      have rest := here.along (edge.trans is_old)
      have stays := rest.grows grows (by
        intro r some_slot _ same
        exact some_slot (by simpa using same))
      have stored : (t.nodes o).isSome := by
        obtain ⟨row, -, is_row, -⟩ := old_fits holds valid ⟨x :: path, by simp [split]⟩ is_old
        rw [is_row]
        rfl
      have not_n : o ≠ n := by
        rintro rfl
        rw [inv.not_stored (inv.placed q o lead).1] at stored
        cases stored
      have not_new : o ≠ ids planner.drawn := by
        rintro rfl
        rw [unused.new] at stored
        cases stored
      rw [is_old] at fits edges stays
      refine stays.copy fits ((edges _ x).trans (Eq.trans ?_ (edges o x).symm))
      rw [if_neg (fun h => other h.1.symm), if_pos ⟨rfl, small x (by simp)⟩,
        if_neg (fun h => not_n h.1), if_neg (fun h => not_new h.1)]
      exact (congrFun (inv.same o stored).2.1 x).symm

lemma withInternal (inv : CowInv t has g exportId ids oldRoot planner leaves)
    (unused : FreshIds ids t.toTreeRows) (size : g.sizeBytes < I64) (owner : has exportId = true)
    (holds : g.HoldsRoot .cowImmutableTree t.toTreeRows oldRoot leaves₀)
    (lead : q.foldlM planner.newInternalEdges planner.newRootNodeId = some n)
    (missing : planner.newInternalEdges n s = none)
    (at_child : g.spanAt (q ++ [s]) = .ok childSpan) (inner : childSpan.level ≠ 0)
    (extended : Extended t ids planner n s (oldAt t.toTreeRows oldRoot (q ++ [s])) pending) :
    CowInv t has g exportId ids oldRoot (withInternal ids planner n s childSpan
      (oldAt t.toTreeRows oldRoot (q ++ [s])) pending) leaves := by
  have grows := inv.grows_withInternal unused lead extended childSpan
  have other := inv.drawn_ne unused lead
  have level : childSpan.level + (q.length + 1) = g.rootLevel := by
    obtain ⟨-, level, -⟩ := spanAt_eq_ok at_child
    rwa [List.length_append] at level
  have more : ∀ {m}, (∃ node ∈ planner.records.nodes, node.id = m) →
    ∃ node ∈ planner.records.nodes ++
      [planner.factory.internalNode (ids planner.drawn) childSpan], node.id = m := by
    rintro m ⟨node, mem, same⟩
    exact ⟨node, List.mem_append_left _ mem, same⟩
  have made : ∃ node ∈ planner.records.nodes ++
      [planner.factory.internalNode (ids planner.drawn) childSpan], node.id = ids planner.drawn :=
    ⟨_, List.mem_append_right _ (List.mem_singleton_self _), rfl⟩
  have stored : ∀ {m}, ((t.toTreeRows.add planner.records).nodes m).isSome →
      ((t.toTreeRows.add { planner.records with nodes := planner.records.nodes ++
        [planner.factory.internalNode (ids planner.drawn) childSpan] }).nodes m).isSome := by
    intro m is
    rw [TreeTables.add_nodes_isSome] at is ⊢
    exact is.imp_left more
  -- a path of the new tree leads to the new node or led somewhere before
  have ways := fun {q' m} => @lead_withInternal t has g exportId ids oldRoot planner leaves n s q
    inv
    unused lead q' m
  exact
  { geometry := inv.geometry
    factory := inv.factory
    old := inv.old
    no_edges := inv.no_edges
    accepts := by
      obtain ⟨inside, pos, le⟩ := spanAt_inside at_child
      refine inv.accepts.addNode ?_ (inv.fresh unused)
      rw [inv.factory]
      exact factory_nodeOk size (by simp) rfl owner inside pos le
    drawn := by
      intro node mem
      rcases List.mem_append.1 mem with mem | mem
      · obtain ⟨k, lt, id⟩ := inv.drawn node mem
        exact ⟨k, Nat.lt_succ_of_lt lt, id⟩
      · cases List.mem_singleton.1 mem
        exact ⟨planner.drawn, Nat.lt_succ_self _, rfl⟩
    owned := by
      intro node mem
      rcases List.mem_append.1 mem with mem | mem
      · exact inv.owned node mem
      · cases List.mem_singleton.1 mem
        show planner.factory.ownerExportId = _
        rw [inv.factory]
    copied_new := by
      intro m mem
      rcases List.mem_append.1 mem with new | mem
      · obtain ⟨o, -, rfl⟩ := Option.map_eq_some_iff.1 (Option.mem_toList.1 new)
        exact made
      · exact more (inv.copied_new m mem)
    leaf_new := by
      intro l mem
      exact more (inv.leaf_new l mem)
    internal := by
      intro m x c edge
      change TreeRows.setEdge planner.newInternalEdges ⟨n, s, ids planner.drawn⟩ m x =
        some c at edge
      rw [TreeRows.setEdge_apply] at edge
      show pending.find _ = _
      rw [extended]
      split_ifs at edge ⊢ with here new
      · exact edge
      · obtain ⟨rfl, -⟩ := new
        have := inv.internal _ _ _ edge
        rw [(inv.fresh_edge unused x).1] at this
        cases this
      · exact inv.internal m x c edge
    pending := by
      intro m x c edge
      change pending.find (toLex (m, x)) = some c at edge
      rw [extended] at edge
      split_ifs at edge with here new
      · obtain ⟨rfl, rfl⟩ := here
        cases edge
        exact ⟨more (inv.placed q _ lead).1, TreeTables.add_nodes_isSome.2 (.inl made)⟩
      · obtain ⟨rfl, -⟩ := new
        obtain ⟨o, -, edge⟩ := Option.bind_eq_some_iff.1 edge
        exact ⟨made, TreeTables.add_nodes_isSome.2 (.inr (t.edges_fk o x c edge).2)⟩
      · obtain ⟨parent, child⟩ := inv.pending m x c edge
        exact ⟨more parent, stored child⟩
    placed := by
      intro q' m lead'
      rcases ways lead' with ⟨rfl, rfl⟩ | before
      · refine ⟨made, ?_, inv.fits_withInternal at_child inner⟩
        rw [List.length_append, List.length_singleton]
        omega
      · obtain ⟨new, short, fits⟩ := inv.placed q' m before
        exact ⟨more new, short, grows.fits fits⟩
    copied := by
      intro q' m lead' is_old
      rcases ways lead' with ⟨rfl, rfl⟩ | before
      · obtain ⟨o, is_old⟩ := Option.isSome_iff_exists.1 is_old
        refine List.mem_append_left _ (Option.mem_toList.2 ?_)
        rw [is_old]
        rfl
      · exact List.mem_append_right _ (inv.copied q' m before is_old)
    shadow := by
      intro q' m x lead' short lt absent
      change TreeRows.setEdge planner.newInternalEdges ⟨n, s, ids planner.drawn⟩ m x =
        none at absent
      rw [TreeRows.setEdge_apply] at absent
      show pending.find _ = _
      rw [extended]
      split_ifs at absent ⊢ with here new
      · rcases ways lead' with ⟨rfl, rfl⟩ | before
        · rfl
        · exact absurd new.1 (inv.drawn_ne unused before)
      · rcases ways lead' with ⟨rfl, rfl⟩ | before
        · exact absurd ⟨rfl, lt⟩ new
        · exact inv.shadow q' m x before short lt absent
    holds := by
      refine inv.holds.graft grows (inv.lead_view lead) ?_ (fun _ _ _ => rfl)
      intro j path' valid split
      exact inv.below_withInternal unused holds lead missing at_child inner extended valid split }

end CowInv

end Internal

/-! ## A new leaf -/

section Leaf

variable {n : NodeId} {s idx : Nat} {q : List Nat} {childSpan : TreeNodeSpan} {key : BlobKey}

namespace CowInv

lemma newLeaf_pending (planner : CowTreePublishPlanner) (m : NodeId) (x : Nat) :
    (planner.newLeaf ids key n s childSpan).pendingEdges.find (toLex (m, x)) =
      if m = n ∧ x = s then some (ids planner.drawn) else
        planner.pendingEdges.find (toLex (m, x)) := by
  refine (OrdMap.find_insert ..).trans ?_
  simp only [EmbeddingLike.apply_eq_iff_eq, Prod.mk.injEq]

lemma newLeaf_nodes (rows : TreeRows) :
    ((planner.newLeaf ids key n s childSpan).view rows).nodes =
      TreeRows.setNode (planner.view rows).nodes
        (planner.factory.leafNode (ids planner.drawn) childSpan) := by
  show (planner.records.nodes ++ [_]).foldl TreeRows.setNode rows.nodes = _
  rw [List.foldl_append]
  rfl

lemma newLeaf_edges (rows : TreeRows) (m : NodeId) (x : Nat) :
    ((planner.newLeaf ids key n s childSpan).view rows).edges m x =
      if m = n ∧ x = s then some (ids planner.drawn) else (planner.view rows).edges m x := by
  show (OrdMap.find _ _).or _ = _
  rw [newLeaf_pending]
  split_ifs <;> rfl

lemma newLeaf_leafRefs (rows : TreeRows) :
    ((planner.newLeaf ids key n s childSpan).view rows).leafRefs =
      TreeRows.setLeafRef (planner.view rows).leafRefs
        (planner.factory.leafRef (ids planner.drawn) .immutableBlob key) := by
  show (planner.records.leafRefs ++ [_]).foldl TreeRows.setLeafRef rows.leafRefs = _
  rw [List.foldl_append]
  rfl

lemma holds_newLeaf (inv : CowInv t has g exportId ids oldRoot planner leaves) (key : BlobKey)
    (unused : FreshIds ids t.toTreeRows)
    (lead : q.foldlM planner.newInternalEdges planner.newRootNodeId = some n)
    (at_child : g.spanAt (q ++ [s]) = .ok childSpan) (last : childSpan.level = 0)
    (valid : g.Valid idx) (split : digits idx g.rootLevel = q ++ [s]) :
    Trie.Grows (g.trie .cowImmutableTree (planner.view t.toTreeRows)) (g.trie .cowImmutableTree
        ((planner.newLeaf ids key n s childSpan).view t.toTreeRows)) (fun p => p = q ++ [s]) ∧
      g.Holds .cowImmutableTree ((planner.newLeaf ids key n s childSpan).view t.toTreeRows)
        planner.newRootNodeId (Function.update leaves idx (some
          (planner.factory.leafNode (ids planner.drawn) childSpan,
            planner.factory.leafRef (ids planner.drawn) .immutableBlob key))) := by
  have at_parent := (inv.placed q n lead).2.2
  have grows : Trie.Grows (g.trie .cowImmutableTree (planner.view t.toTreeRows))
      (g.trie .cowImmutableTree ((planner.newLeaf ids key n s childSpan).view t.toTreeRows))
          fun p => p = q ++ [s] := by
    refine trie_grows (c := ids planner.drawn) (inv.fresh unused) at_parent ?_ ?_ ?_
    · intro m other
      rw [newLeaf_nodes]
      exact Function.update_of_ne other _ _
    · intro m x _ off
      rw [newLeaf_edges, if_neg off]
    · intro m other
      rw [newLeaf_leafRefs]
      exact Function.update_of_ne other _ _
  have fits : (g.trie .cowImmutableTree
    ((planner.newLeaf ids key n s childSpan).view t.toTreeRows)).fits
      (ids planner.drawn) (q ++ [s]) := by
    refine factory_fits (planner.factory.leafNode (ids planner.drawn) childSpan) ?_ rfl ?_
      (if_pos last).symm at_child
    · rw [newLeaf_nodes]
      exact Function.update_self _ _ _
    · rw [inv.factory]
  refine ⟨grows, inv.holds.graft grows (inv.lead_view lead) ?_ ?_⟩
  · intro j path valid' split'
    have len := digits_split split
    have len' := digits_split split'
    simp only [List.length_cons, List.length_nil] at len len'
    have empty : path = [] := List.eq_nil_of_length_eq_zero (by omega)
    subst empty
    have same : j = idx := valid'.digits_inj valid (split'.trans split.symm)
    rw [same, Function.update_self]
    refine .step (grows.fits at_parent) ((newLeaf_edges ..).trans (if_pos ⟨rfl, rfl⟩))
      (.leaf fits ?_)
    show (do
      let row ← ((planner.newLeaf ids key n s childSpan).view t.toTreeRows).nodes
        (ids planner.drawn)
      let leafRef ← ((planner.newLeaf ids key n s childSpan).view t.toTreeRows).leafRefs
        (ids planner.drawn)
      some ((⟨row, ids planner.drawn⟩ : TreeNodeRecord),
        (⟨leafRef, ids planner.drawn⟩ : TreeLeafRefRecord))) = _
    rw [newLeaf_nodes, newLeaf_leafRefs]
    simp [TreeRows.setNode, TreeRows.setLeafRef, TreeRecordFactory.leafNode, TreeRecordFactory.node,
      TreeRecordFactory.leafRef]
  · intro j _ off
    refine Function.update_of_ne ?_ _ _
    rintro rfl
    exact off ⟨[], by rw [split]; simp⟩

lemma newLeaf {chunk : CowChunkRef} (inv : CowInv t has g exportId ids oldRoot planner leaves)
    (unused : FreshIds ids t.toTreeRows) (size : g.sizeBytes < I64) (owner : has exportId = true)
    (lead : q.foldlM planner.newInternalEdges planner.newRootNodeId = some n)
    (at_child : g.spanAt (q ++ [s]) = .ok childSpan) (last : childSpan.level = 0)
    (valid : g.Valid idx) (split : digits idx g.rootLevel = q ++ [s]) :
    ∃ leaf, IsLeafOf chunk leaf ∧ CowInv t has g exportId ids oldRoot
      (planner.newLeaf ids chunk.blobKey n s childSpan)
      (Function.update leaves idx (some leaf)) := by
  obtain ⟨grows, holds⟩ := inv.holds_newLeaf chunk.blobKey unused lead at_child last valid split
  have is_len : planner.factory.geometry.chunkBytes = TREE_CHUNK_BYTES := by
    rw [inv.factory]
    exact g.chunk_eq
  have more : ∀ {m}, (∃ node ∈ planner.records.nodes, node.id = m) →
    ∃ node ∈ planner.records.nodes ++
      [planner.factory.leafNode (ids planner.drawn) childSpan], node.id = m := by
    rintro m ⟨node, mem, same⟩
    exact ⟨node, List.mem_append_left _ mem, same⟩
  have made : ∃ node ∈ planner.records.nodes ++
      [planner.factory.leafNode (ids planner.drawn) childSpan], node.id = ids planner.drawn :=
    ⟨_, List.mem_append_right _ (List.mem_singleton_self _), rfl⟩
  -- The parent is one level above the leaves, so it has no new internal children.
  have above : q.length + 1 = g.rootLevel := by
    have len := digits_split split
    simp only [List.length_cons, List.length_nil] at len
    omega
  have only : ∀ {q' : List Nat},
      q'.foldlM planner.newInternalEdges planner.newRootNodeId = some n → q' = q := by
    intro q' lead'
    exact trie_fits_unique (inv.placed q' n lead').2.2 (inv.placed q n lead).2.2
  refine ⟨(planner.factory.leafNode (ids planner.drawn) childSpan,
    planner.factory.leafRef (ids planner.drawn) .immutableBlob chunk.blobKey), ⟨rfl, rfl, is_len⟩,
      ?_⟩
  exact
  { geometry := inv.geometry
    factory := inv.factory
    old := inv.old
    no_edges := inv.no_edges
    accepts := by
      obtain ⟨inside, pos, le⟩ := spanAt_inside at_child
      have fresh := inv.fresh unused
      have node : TreeTables.NodeOk has
          (planner.factory.leafNode (ids planner.drawn) childSpan) := by
        rw [inv.factory]
        exact factory_nodeOk size (by simp) rfl owner inside pos le
      refine (inv.accepts.addNode node fresh).addLeafRef ?_ ?_ ?_ ?_
      · show 0 < planner.factory.geometry.chunkBytes ∧ planner.factory.geometry.chunkBytes < I64
        rw [is_len]
        decide
      · intro l mem same
        have there := inv.accepts.leafRefs_fk l mem
        have id : l.nodeId = ids planner.drawn := same
        rw [id, fresh] at there
        cases there
      · exact TreeTables.no_leafRef (unused.new _)
      · exact TreeTables.add_nodes_isSome.2 (.inl made)
    drawn := by
      intro node mem
      rcases List.mem_append.1 mem with mem | mem
      · obtain ⟨k, lt, id⟩ := inv.drawn node mem
        exact ⟨k, Nat.lt_succ_of_lt lt, id⟩
      · cases List.mem_singleton.1 mem
        exact ⟨planner.drawn, Nat.lt_succ_self _, rfl⟩
    owned := by
      intro node mem
      rcases List.mem_append.1 mem with mem | mem
      · exact inv.owned node mem
      · cases List.mem_singleton.1 mem
        show planner.factory.ownerExportId = _
        rw [inv.factory]
    copied_new m mem := more (inv.copied_new m mem)
    leaf_new := by
      intro l mem
      rcases List.mem_append.1 mem with mem | mem
      · exact more (inv.leaf_new l mem)
      · cases List.mem_singleton.1 mem
        exact made
    internal := by
      intro m x c edge
      rw [newLeaf_pending, if_neg]
      · exact inv.internal m x c edge
      · rintro ⟨rfl, rfl⟩
        have := (inv.placed (q ++ [x]) c (Trie.lead_concat.2 ⟨m, lead, edge⟩)).2.1
        rw [List.length_append, List.length_singleton] at this
        omega
    pending := by
      intro m x c edge
      rw [newLeaf_pending] at edge
      split_ifs at edge with here
      · obtain ⟨rfl, rfl⟩ := here
        cases edge
        exact ⟨more (inv.placed q _ lead).1, TreeTables.add_nodes_isSome.2 (.inl made)⟩
      · obtain ⟨parent, child⟩ := inv.pending m x c edge
        rw [TreeTables.add_nodes_isSome] at child
        exact ⟨more parent, TreeTables.add_nodes_isSome.2 (child.imp_left more)⟩
    placed := by
      intro q' m lead'
      obtain ⟨new, short, fits⟩ := inv.placed q' m lead'
      exact ⟨more new, short, grows.fits fits⟩
    copied := inv.copied
    shadow := by
      intro q' m x lead' short lt absent
      rw [newLeaf_pending, if_neg]
      · exact inv.shadow q' m x lead' short lt absent
      · rintro ⟨rfl, -⟩
        rw [only lead'] at short
        omega
    holds := holds }

end CowInv

end Leaf

end CowTreePublishPlanner

end NbdServer
