import NbdServer.Catalog.Tables
import NbdServer.Tree.LoadLeaf

/-!
# Edits of a tree

`TreeGeometry.Holds` says what `load_leaf` finds from a root for every chunk of the export. The
planners of the engines change a tree one node at a time: a new node is linked below a node that
stands at the position above, and only the chunks below the new node can be affected
(`Holds.graft`).
-/

namespace NbdServer

open Lib

structure FreshIds (ids : Nat → NodeId) (rows : TreeRows) : Prop where
  inj : Function.Injective ids
  new : ∀ k, rows.nodes (ids k) = none

/-- The rows of a later moment: the nodes that were there have the same row, edges and leaf ref. -/
def TreeRows.Later (rows rows' : TreeRows) : Prop :=
  ∀ m, (rows.nodes m).isSome → rows'.nodes m = rows.nodes m ∧ rows'.edges m = rows.edges m ∧
    rows'.leafRefs m = rows.leafRefs m

lemma TreeRows.Later.refl (rows : TreeRows) : rows.Later rows := fun _ _ => ⟨rfl, rfl, rfl⟩

lemma TreeRows.Later.isSome {rows rows' : TreeRows} (later : rows.Later rows') {m : NodeId}
    (is : (rows.nodes m).isSome) : (rows'.nodes m).isSome := by
  rw [(later m is).1]
  exact is

lemma TreeRows.Later.trans {rows rows' rows'' : TreeRows} (later : rows.Later rows')
    (later' : rows'.Later rows'') : rows.Later rows'' := by
  intro m is
  obtain ⟨nodes, edges, leafRefs⟩ := later m is
  obtain ⟨nodes', edges', leafRefs'⟩ := later' m (later.isSome is)
  exact ⟨nodes'.trans nodes, edges'.trans edges, leafRefs'.trans leafRefs⟩

lemma TreeTables.Accepts.later {has : ExportId → Bool} {rows : TreeRows} {b : TreeRecordBatch}
    (ok : TreeTables.Accepts has rows b)
    (parents : ∀ e ∈ b.edges, ∃ node ∈ b.nodes, node.id = e.parentNodeId)
    (leaves : ∀ l ∈ b.leafRefs, ∃ node ∈ b.nodes, node.id = l.nodeId) :
    rows.Later (rows.add b) := by
  intro m is
  have other : ¬ ∃ node ∈ b.nodes, node.id = m := by
    rintro ⟨node, mem, rfl⟩
    rw [ok.nodes_new node mem] at is
    cases is
  refine ⟨TreeRows.foldl_setNode_of_not_mem ?_, ?_, TreeRows.foldl_setLeafRef_of_not_mem ?_⟩
  · intro node mem same
    exact other ⟨node, mem, same⟩
  · funext s
    refine TreeRows.foldl_setEdge_of_not_mem ?_
    rintro e mem ⟨rfl, -⟩
    exact other (parents e mem)
  · rintro l mem rfl
    exact other (leaves l mem)

lemma FreshIds.earlier {ids : Nat → NodeId} {rows rows' : TreeRows} (unused : FreshIds ids rows')
    (later : rows.Later rows') : FreshIds ids rows := by
  refine ⟨unused.inj, fun k => ?_⟩
  rw [← Option.not_isSome_iff_eq_none]
  intro is
  have := later.isSome is
  rw [unused.new] at this
  cases this

namespace TreeGeometry

/-- What a walk finds: a node of level 0 with its leaf ref, or nothing. -/
abbrev Found := Option (TreeNodeRecord × TreeLeafRefRecord)

/-- The walks from the root find the given leaves, for all chunks of the export. -/
def Holds (g : TreeGeometry) (layout : ExportLayoutKind) (rows : TreeRows) (root : NodeId)
    (leaves : Nat → Found) : Prop :=
  ∀ idx, g.Valid idx → Trie.Finds (g.trie layout rows) root [] (digits idx g.rootLevel) (leaves idx)

/-- The tree with the given root, which may not exist, has the given leaves. -/
def HoldsRoot (g : TreeGeometry) (layout : ExportLayoutKind) (rows : TreeRows)
    (root : Option NodeId) (leaves : Nat → Found) : Prop :=
  match root with
  | none => ∀ idx, g.Valid idx → leaves idx = none
  | some root => g.Holds layout rows root leaves

variable {g : TreeGeometry} {layout : ExportLayoutKind} {rows rows' : TreeRows} {root n c : NodeId}
variable {leaves leaves' : Nat → Found} {q : List Nat} {s : Nat}

lemma valid_zero (g : TreeGeometry) : g.Valid 0 := by
  show 0 * TREE_CHUNK_BYTES < g.sizeBytes
  rw [Nat.zero_mul]
  exact g.size_pos

lemma Holds.fits (h : g.Holds layout rows root leaves) : (g.trie layout rows).fits root [] :=
  (h 0 g.valid_zero).fits

lemma Holds.root_isSome (h : g.Holds layout rows root leaves) : (rows.nodes root).isSome := by
  obtain ⟨row, -, found, -⟩ := h.fits
  rw [found]
  rfl

lemma HoldsRoot.loadLeaf_eq {root : Option NodeId} (h : g.HoldsRoot layout rows root leaves)
    {idx : Nat} (valid : g.Valid idx) : LazyTreeMetadataReader.loadLeaf ⟨g, layout, root⟩ rows idx =
      .ok (LazyTreeMetadataReader.loaded idx (leaves idx)) := by
  cases root with
  | none =>
    rw [h idx valid]
    rfl
  | some root => exact (LazyTreeMetadataReader.loadLeaf_eq_ok rfl).2 ⟨valid, _, h idx valid, rfl⟩

lemma holdsRoot_of_loadLeaf {root : Option NodeId} (loads : ∀ idx, g.Valid idx → ∃ leaf,
      LazyTreeMetadataReader.loadLeaf ⟨g, layout, root⟩ rows idx = .ok leaf) :
    ∃ leaves, g.HoldsRoot layout rows root leaves := by
  cases root with
  | none => exact ⟨fun _ => none, fun _ _ => rfl⟩
  | some root =>
    have finds : ∀ idx, ∃ found, g.Valid idx →
        Trie.Finds (g.trie layout rows) root [] (digits idx g.rootLevel) found := by
      intro idx
      by_cases valid : g.Valid idx
      · obtain ⟨leaf, run⟩ := loads idx valid
        obtain ⟨-, found, walk, -⟩ := (LazyTreeMetadataReader.loadLeaf_eq_ok rfl).1 run
        exact ⟨found, fun _ => walk⟩
      · exact ⟨none, fun is => absurd is valid⟩
    choose leaves all using finds
    exact ⟨leaves, fun idx valid => all idx valid⟩

lemma HoldsRoot.kept {root : Option NodeId} (h : g.HoldsRoot layout rows root leaves)
    (grows : Trie.Grows (g.trie layout rows) (g.trie layout rows') fun _ => False) :
    g.HoldsRoot layout rows' root leaves := by
  cases root with
  | none => exact h
  | some root => exact fun idx valid => (h idx valid).kept grows

lemma trie_kept (same : rows.Later rows') :
    Trie.Grows (g.trie layout rows) (g.trie layout rows') fun _ => False := by
  have old : ∀ {m p}, (g.trie layout rows).fits m p → (rows.nodes m).isSome := by
    rintro m p ⟨row, -, found, -⟩
    rw [found]
    rfl
  refine ⟨?_, ?_, ?_⟩
  · intro m p fits
    obtain ⟨nodes, -, -⟩ := same m (old fits)
    obtain ⟨row, span, found, rest⟩ := fits
    exact ⟨row, span, nodes.trans found, rest⟩
  · intro m p x fits _
    exact congrFun (same m (old fits)).2.1 x
  · intro m p a fits leaf
    obtain ⟨nodes, -, leafRefs⟩ := same m (old fits)
    show (do
      let row ← rows'.nodes m
      let leafRef ← rows'.leafRefs m
      some ((⟨row, m⟩ : TreeNodeRecord), (⟨leafRef, m⟩ : TreeLeafRefRecord))) = some a
    rw [nodes, leafRefs]
    exact leaf

/-- Rows that change at a new node and at the edge to it: the edges of nodes that stood somewhere
are the same, except at the position of the new node. -/
lemma trie_grows (fresh : rows.nodes c = none) (at_parent : (g.trie layout rows).fits n q)
    (nodes : ∀ m, m ≠ c → rows'.nodes m = rows.nodes m)
    (edges : ∀ m x, m ≠ c → ¬ (m = n ∧ x = s) → rows'.edges m x = rows.edges m x)
    (leafRefs : ∀ m, m ≠ c → rows'.leafRefs m = rows.leafRefs m) :
    Trie.Grows (g.trie layout rows) (g.trie layout rows') fun p => p = q ++ [s] := by
  have old : ∀ {m p}, (g.trie layout rows).fits m p → m ≠ c := by
    rintro m p ⟨row, -, found, -⟩ rfl
    rw [fresh] at found
    cases found
  refine ⟨?_, ?_, ?_⟩
  · intro m p fits
    obtain ⟨row, span, found, rest⟩ := fits
    exact ⟨row, span, (nodes m (old ⟨row, span, found, rest⟩)).trans found, rest⟩
  · intro m p x fits off
    refine edges m x (old fits) ?_
    rintro ⟨rfl, rfl⟩
    exact off (by rw [trie_fits_unique fits at_parent])
  · intro m p a fits leaf
    have other := old fits
    show (do
      let row ← rows'.nodes m
      let leafRef ← rows'.leafRefs m
      some ((⟨row, m⟩ : TreeNodeRecord), (⟨leafRef, m⟩ : TreeLeafRefRecord))) = some a
    rw [nodes m other, leafRefs m other]
    exact leaf

lemma Holds.graft (h : g.Holds layout rows root leaves)
    (grows : Trie.Grows (g.trie layout rows) (g.trie layout rows') fun p => p = q ++ [s])
    (lead : q.foldlM rows.edges root = some n)
    (below : ∀ idx path, g.Valid idx → digits idx g.rootLevel = q ++ s :: path →
      Trie.Finds (g.trie layout rows') n q (s :: path) (leaves' idx))
    (other : ∀ idx, g.Valid idx → ¬ q ++ [s] <+: digits idx g.rootLevel → leaves' idx =
    leaves idx) :
    g.Holds layout rows' root leaves' := by
  intro idx valid
  by_cases through : q ++ [s] <+: digits idx g.rootLevel
  · obtain ⟨path, split⟩ := through
    rw [List.append_assoc, List.singleton_append] at split
    have walk := h idx valid
    rw [← split] at walk ⊢
    exact walk.graft (p := []) grows lead (below idx path valid split.symm)
  · rw [other idx valid through]
    refine (h idx valid).grows grows ?_
    rintro p - start rfl
    exact through start

lemma Holds.lead_fits (h : g.Holds layout rows root leaves) {idx : Nat} (valid : g.Valid idx)
    (start : q <+: digits idx g.rootLevel) (lead : q.foldlM rows.edges root = some n) :
    (g.trie layout rows).fits n q := by
  obtain ⟨path, split⟩ := start
  have walk := h idx valid
  rw [← split] at walk
  exact (walk.arrive lead).fits

lemma factory_fits (node : TreeNodeRecord) {span : TreeNodeSpan} {factory : TreeRecordFactory}
    {kind : TreeNodeKind} (stored : rows.nodes node.id = some node.toTreeNodeRow)
    (made : node = factory.node kind node.id span) (is_layout : factory.layoutKind = layout)
    (is_kind : kind = expectedKind span.level) (at_span : g.spanAt q = .ok span) :
    (g.trie layout rows).fits node.id q := by
  refine ⟨_, span, stored, at_span, ?_⟩
  rw [made]
  exact ⟨is_layout, is_kind, rfl, rfl, rfl⟩

lemma factory_nodeOk {has : ExportId → Bool} {factory : TreeRecordFactory} {exportId : ExportId}
    {kind : TreeNodeKind} {id : NodeId} {span : TreeNodeSpan} (size : g.sizeBytes < I64)
    (is_layout : factory.layoutKind ≠ .memoryEmpty) (owner : factory.ownerExportId = some exportId)
    (exists_owner : has exportId = true) (inside : span.startBytes < g.sizeBytes)
    (pos : 0 < span.lenBytes) (le : span.lenBytes ≤ g.sizeBytes) :
    TreeTables.NodeOk has (factory.node kind id span) := by
  refine ⟨inside.trans size, le.trans_lt size, pos, is_layout, ?_⟩
  intro e mem
  have : factory.ownerExportId = some e := mem
  rw [owner] at this
  cases this
  exact exists_owner

lemma spanAt_inside {span : TreeNodeSpan} (run : g.spanAt q = .ok span) :
    span.startBytes < g.sizeBytes ∧ 0 < span.lenBytes ∧ span.lenBytes ≤ g.sizeBytes := by
  cases q using List.reverseRecOn with
  | nil =>
    cases run
    exact ⟨g.size_pos, g.size_pos, le_rfl⟩
  | append_singleton q s =>
    rw [spanAt_append] at run
    obtain ⟨above, first, run⟩ := Res.bind_eq_ok.1 run
    obtain ⟨-, level, -⟩ := spanAt_eq_ok first
    obtain ⟨-, -, -, lt, len⟩ := childSpan_eq_ok (by omega) run
    have pos : 0 < TREE_CHUNK_BYTES * 32 ^ span.level :=
      Nat.mul_pos (by decide) (Nat.pow_pos (by decide))
    omega

end TreeGeometry

namespace LazyTreeMetadataReader

variable {t : TreeTables} {rows : TreeRows} (reader : LazyTreeMetadataReader)

/-- At a later moment the loop of `load_leaf` makes the same steps: the children of a node that was
there were there. -/
lemma loadLeafFrom_later (later : t.toTreeRows.Later rows) {idx : Nat} {node : TreeNodeRecord}
    {span : TreeNodeSpan} {path : List Nat} (stored : (t.nodes node.id).isSome) :
    reader.loadLeafFrom rows idx node span path =
      reader.loadLeafFrom t.toTreeRows idx node span path := by
  induction path generalizing node span with
  | nil =>
    unfold loadLeafFrom loadRequiredLeafRef TreeRows.loadLeafRefs
    simp only [List.filterMap_cons, List.filterMap_nil, (later node.id stored).2.2]
  | cons slot path ih =>
    rw [loadLeafFrom, loadLeafFrom, loadChildEdge_eq, loadChildEdge_eq, (later node.id stored).2.1]
    cases edge : t.edges node.id slot with
    | none => rfl
    | some child =>
      have is_child := (t.edges_fk node.id slot child edge).2
      have same : rows.loadRequiredNode child = t.toTreeRows.loadRequiredNode child := by
        unfold TreeRows.loadRequiredNode TreeRows.loadNode
        rw [(later child is_child).1]
      simp only [Option.map_some, Res.ok_bind]
      congr 1
      funext below
      rw [same]
      cases loaded : t.toTreeRows.loadRequiredNode child with
      | error fault => rfl
      | ok next =>
        obtain ⟨-, rfl⟩ := TreeRows.loadRequiredNode_eq_ok.1 loaded
        simp only [Res.ok_bind, ih is_child]

lemma loadLeaf_later (later : t.toTreeRows.Later rows)
    (stored : ∀ root ∈ reader.rootNodeId, (t.nodes root).isSome) (idx : Nat) :
    reader.loadLeaf rows idx = reader.loadLeaf t.toTreeRows idx := by
  unfold loadLeaf
  cases is_root : reader.rootNodeId with
  | none => rfl
  | some root =>
    have stored := stored root is_root
    have same : rows.loadRequiredNode root = t.toTreeRows.loadRequiredNode root := by
      unfold TreeRows.loadRequiredNode TreeRows.loadNode
      rw [(later root stored).1]
    dsimp only
    rw [same]
    cases loaded : t.toTreeRows.loadRequiredNode root with
    | error fault => rfl
    | ok node =>
      obtain ⟨-, rfl⟩ := TreeRows.loadRequiredNode_eq_ok.1 loaded
      simp only [Res.ok_bind, loadLeafFrom_later reader later stored]

end LazyTreeMetadataReader

end NbdServer
