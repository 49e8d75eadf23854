import NbdServer.Lib.Trie
import NbdServer.Tree.Records

/-!
# The walk to a leaf

Model of `LazyTreeMetadataReader` of `tree/read.rs`. `load_leaf` walks from the root along the path
of a chunk and checks every node on the way against the span that the geometry gives its position.
The rows are a trie store (`trie`), in which a node stands at a position when it passes this check
there, and `load_leaf` returns what the walk finds (`loadLeaf_eq_ok`).
-/

namespace NbdServer

open Lib

/-- Rust `LoadedTreeLeaf`. -/
structure LoadedTreeLeaf where
  chunkIndex : Nat
  node : TreeNodeRecord
  leafRef : TreeLeafRefRecord
  deriving DecidableEq, Repr

/-- Rust `LazyTreeMetadataReader`, without the store. -/
structure LazyTreeMetadataReader where
  geometry : TreeGeometry
  layoutKind : ExportLayoutKind
  rootNodeId : Option NodeId

/-- The kind of node that `load_leaf` expects at a level. -/
def expectedKind (level : Nat) : TreeNodeKind := if level = 0 then .leaf else .internal

/-- The row is one of the layout and the kind, with the given span. -/
structure TreeNodeRow.Matches (row : TreeNodeRow) (layout : ExportLayoutKind) (kind : TreeNodeKind)
    (span : TreeNodeSpan) : Prop where
  layout_eq : row.layoutKind = layout
  kind_eq : row.kind = kind
  level_eq : row.level = span.level
  start_eq : row.spanStartBytes = span.startBytes
  len_eq : row.spanLenBytes = span.lenBytes

/-- Rust `validate_existing_node` of the planners, which differ in the name of the geometry. -/
def validateExistingNode (geometry : String) (node : TreeNodeRecord) (layout : ExportLayoutKind)
    (span : TreeNodeSpan) (kind : TreeNodeKind) : Res Unit :=
  if node.layoutKind ≠ layout ∨ node.kind ≠ kind ∨ node.level ≠ span.level ∨
      node.spanStartBytes ≠ span.startBytes ∨ node.spanLenBytes ≠ span.lenBytes then
    fail (invalidTree s!"tree node `{node.id}` does not match {geometry} geometry")
  else .ok ()

lemma validateExistingNode_of_matches {geometry : String} {node : TreeNodeRecord}
    {layout : ExportLayoutKind} {span : TreeNodeSpan} {kind : TreeNodeKind}
    (h : node.Matches layout kind span) :
    validateExistingNode geometry node layout span kind = .ok () := by
  obtain ⟨h₁, h₂, h₃, h₄, h₅⟩ := h
  unfold validateExistingNode
  rw [if_neg]
  simp [h₁, h₂, h₃, h₄, h₅]

namespace LazyTreeMetadataReader

variable (reader : LazyTreeMetadataReader) (rows : TreeRows)

/-- Rust `LazyTreeMetadataReader::validate_node`. -/
def validateNode (node : TreeNodeRecord) (span : TreeNodeSpan) (kind : TreeNodeKind) : Res Unit :=
  if node.layoutKind ≠ reader.layoutKind then
    fail (invalidTree s!"tree node `{node.id}` has layout {node.layoutKind.text}, expected {
      reader.layoutKind.text}")
  else if node.kind ≠ kind then
    fail (invalidTree s!"tree node `{node.id}` has kind {node.kind.text}, expected {kind.text}")
  else if node.level ≠ span.level ∨ node.spanStartBytes ≠ span.startBytes ∨
      node.spanLenBytes ≠ span.lenBytes then
    fail (invalidTree s!"tree node `{node.id}` span does not match bounded geometry")
  else .ok ()

/-- Rust `LazyTreeMetadataReader::load_child_edge`. -/
def loadChildEdge (parent : NodeId) (slot : Nat) : Res (Option TreeEdgeRecord) :=
  rows.loadChildEdgeWith s!"tree node `{parent}` returned duplicate edge for slot {slot}"
    s!"tree edge for `{parent}` slot {slot} returned mismatched row" parent slot

/-- Rust `LazyTreeMetadataReader::load_required_leaf_ref`. -/
def loadRequiredLeafRef (id : NodeId) : Res TreeLeafRefRecord :=
  match rows.loadLeafRefs [id] with
  | [leafRef] =>
    if leafRef.nodeId ≠ id then fail (invalidTree s!"leaf ref for `{id}` returned mismatched row")
    else .ok leafRef
  | leafRefs => fail (invalidTree s!"leaf node `{id}` has {leafRefs.length} leaf refs")

/-- The loop of `load_leaf` and what follows it. -/
def loadLeafFrom (chunkIndex : Nat) : TreeNodeRecord → TreeNodeSpan → List Nat →
    Res (Option LoadedTreeLeaf)
  | current, _, [] => do
    let leafRef ← loadRequiredLeafRef rows current.id
    .ok (some ⟨chunkIndex, current, leafRef⟩)
  | current, span, slot :: slots => do
    match ← loadChildEdge rows current.id slot with
    | none => .ok none
    | some edge =>
      let span ← reader.geometry.childSpan span slot
      let current ← rows.loadRequiredNode edge.childNodeId
      reader.validateNode current span (expectedKind span.level)
      loadLeafFrom chunkIndex current span slots

/-- Rust `LazyTreeMetadataReader::load_leaf`. -/
def loadLeaf (chunkIndex : Nat) : Res (Option LoadedTreeLeaf) :=
  match reader.rootNodeId with
  | none => .ok none
  | some rootNodeId => do
    let path ← reader.geometry.pathForChunk chunkIndex
    let current ← rows.loadRequiredNode rootNodeId
    reader.validateNode current reader.geometry.rootSpan .internal
    reader.loadLeafFrom rows chunkIndex current reader.geometry.rootSpan path.slots

end LazyTreeMetadataReader

/-! ## The rows as a trie -/

namespace TreeGeometry

/-- The span at a position, the slots on the way from the root. -/
def spanAt (g : TreeGeometry) (p : List Nat) : Res TreeNodeSpan := p.foldlM g.childSpan g.rootSpan

/-- The rows as a trie: a node stands where the check of `load_leaf` accepts it. -/
def trie (g : TreeGeometry) (layout : ExportLayoutKind) (rows : TreeRows) :
    Trie.Store NodeId Nat (TreeNodeRecord × TreeLeafRefRecord) where
  fits n p := ∃ row span, rows.nodes n = some row ∧ g.spanAt p = .ok span ∧
    row.Matches layout (expectedKind span.level) span
  edge := rows.edges
  leaf n := do
    let row ← rows.nodes n
    let leafRef ← rows.leafRefs n
    some (⟨row, n⟩, ⟨leafRef, n⟩)

variable {g : TreeGeometry}

lemma spanAt_append (p : List Nat) (s : Nat) :
    g.spanAt (p ++ [s]) = g.spanAt p >>= fun span => g.childSpan span s := by
  simp only [spanAt, List.foldlM_append, List.foldlM_cons, List.foldlM_nil]
  cases p.foldlM g.childSpan g.rootSpan with
  | error fault => rfl
  | ok span =>
    simp only [Res.ok_bind]
    cases g.childSpan span s <;> rfl

/-- The number that the slots of a position are the digits of. -/
def value (p : List Nat) : Nat := p.foldl (fun above slot => 32 * above + slot) 0

lemma value_append (p : List Nat) (s : Nat) : value (p ++ [s]) = 32 * value p + s := by
  simp [value]

lemma childSpan_eq_ok {parent child : TreeNodeSpan} {slot : Nat} (le : parent.level ≤ g.rootLevel)
    (run : g.childSpan parent slot = .ok child) : slot < 32 ∧ child.level + 1 = parent.level ∧
      child.startBytes = parent.startBytes + slot * (TREE_CHUNK_BYTES * 32 ^ child.level) ∧
      child.startBytes < g.sizeBytes ∧
      child.lenBytes = min (TREE_CHUNK_BYTES * 32 ^ child.level)
      (g.sizeBytes - child.startBytes) := by
  have top := g.rootLevel_le
  unfold childSpan at run
  by_cases leaf : parent.level = 0
  · rw [if_pos leaf] at run
    cases run
  rw [if_neg leaf, g.fanout_eq] at run
  by_cases beyond : slot ≥ 32
  · rw [if_pos beyond] at run
    cases run
  rw [if_neg beyond, fullSpanLen_eq (by omega), Res.ok_bind] at run
  obtain ⟨offset, mul, run⟩ := Res.bind_eq_ok.1 run
  obtain ⟨start, add, run⟩ := Res.bind_eq_ok.1 run
  have offset_eq : offset = slot * (TREE_CHUNK_BYTES * 32 ^ (parent.level - 1)) := by
    unfold checkedMul at mul
    split_ifs at mul
    · cases mul
      rfl
    · cases mul
  have start_eq : start = parent.startBytes + offset := by
    unfold checkedAdd at add
    split_ifs at add
    · cases add
      rfl
    · cases add
  rw [nodeSpan, if_neg (by omega)] at run
  by_cases past : start ≥ g.sizeBytes
  · rw [if_pos past] at run
    cases run
  rw [if_neg past, fullSpanLen_eq (by omega), Res.ok_bind] at run
  cases run
  refine ⟨by omega, ?_, ?_, not_le.1 past, rfl⟩
  · show parent.level - 1 + 1 = parent.level
    omega
  · rw [start_eq, offset_eq]

/-- The span at a position: its level is what is left of the way, and its start is the number that
the slots are the digits of. -/
lemma spanAt_eq_ok {p : List Nat} {span : TreeNodeSpan} (run : g.spanAt p = .ok span) :
    (∀ s ∈ p, s < 32) ∧ span.level + p.length = g.rootLevel ∧
      span.startBytes = value p * (TREE_CHUNK_BYTES * 32 ^ span.level) := by
  induction p using List.reverseRecOn generalizing span with
  | nil =>
    cases run
    exact ⟨by simp, rfl, (Nat.zero_mul _).symm⟩
  | append_singleton p s ih =>
    rw [spanAt_append] at run
    obtain ⟨above, first, run⟩ := Res.bind_eq_ok.1 run
    obtain ⟨small, level, start⟩ := ih first
    obtain ⟨slot, level', start', -, -⟩ := childSpan_eq_ok (by omega) run
    refine ⟨?_, ?_, ?_⟩
    · intro x mem
      rcases List.mem_append.1 mem with mem | mem
      · exact small x mem
      · rwa [List.mem_singleton.1 mem]
    · rw [List.length_append, List.length_singleton]
      omega
    · rw [start', start, ← level', value_append, Nat.pow_succ]
      ring

lemma value_inj {p p' : List Nat} (small : ∀ s ∈ p, s < 32) (small' : ∀ s ∈ p', s < 32)
    (len : p.length = p'.length) (same : value p = value p') : p = p' := by
  induction p using List.reverseRecOn generalizing p' with
  | nil => exact (List.eq_nil_of_length_eq_zero len.symm).symm
  | append_singleton p s ih =>
    cases p' using List.reverseRecOn with
    | nil => simp at len
    | append_singleton p' s' =>
      rw [value_append, value_append] at same
      have lt : s < 32 := small s (by simp)
      have lt' : s' < 32 := small' s' (by simp)
      have rest : p = p' := by
        refine ih (fun x mem => small x (by simp [mem])) (fun x mem => small' x (by simp [mem])) ?_
          (by omega)
        simpa using len
      subst rest
      have : s = s' := by omega
      rw [this]

lemma spanAt_inj {p p' : List Nat} {span span' : TreeNodeSpan} (run : g.spanAt p = .ok span)
    (run' : g.spanAt p' = .ok span') (level : span.level = span'.level)
    (start : span.startBytes = span'.startBytes) : p = p' := by
  obtain ⟨small, len, eq⟩ := spanAt_eq_ok run
  obtain ⟨small', len', eq'⟩ := spanAt_eq_ok run'
  refine value_inj small small' (by omega) ?_
  rw [eq, eq', level] at start
  exact Nat.eq_of_mul_eq_mul_right (Nat.mul_pos (by decide) (Nat.pow_pos (by decide))) start

lemma trie_fits_unique {layout : ExportLayoutKind} {rows : TreeRows} {n : NodeId} {p p' : List Nat}
    (h : (g.trie layout rows).fits n p) (h' : (g.trie layout rows).fits n p') : p = p' := by
  obtain ⟨row, span, found, run, is⟩ := h
  obtain ⟨row', span', found', run', is'⟩ := h'
  cases found.symm.trans found'
  exact spanAt_inj run run' (is.level_eq.symm.trans is'.level_eq)
    (is.start_eq.symm.trans is'.start_eq)

lemma digits_length (idx level : Nat) : (digits idx level).length = level := by
  induction level with
  | zero => rfl
  | succ level ih => rw [digits, List.length_cons, ih]

lemma digits_lt (idx level : Nat) : ∀ s ∈ digits idx level, s < 32 := by
  induction level with
  | zero => simp [digits]
  | succ level ih =>
    rw [digits, List.forall_mem_cons]
    exact ⟨Nat.mod_lt _ (by decide), ih⟩

lemma digits_split {idx level : Nat} {p q : List Nat} (split : digits idx level = p ++ q) :
    p.length + q.length = level := by
  rw [← digits_length idx level, split, List.length_append]

lemma Valid.foldlM_eq {idx level : Nat} {p q : List Nat} (valid : g.Valid idx)
    (le : level ≤ g.rootLevel) (split : digits idx level = p ++ q) :
    p.foldlM g.childSpan (g.nodeAt idx level) = .ok (g.nodeAt idx q.length) := by
  induction p generalizing level with
  | nil =>
    have len := digits_split split
    rw [List.length_nil, Nat.zero_add] at len
    rw [len]
    rfl
  | cons s p ih =>
    cases level with
    | zero => cases split
    | succ level =>
      rw [digits, List.cons_append, List.cons.injEq] at split
      obtain ⟨rfl, split⟩ := split
      rw [List.foldlM_cons, valid.childSpan_eq le, Res.ok_bind]
      exact ih (by omega) split

lemma Valid.spanAt_eq {idx : Nat} {p q : List Nat} (valid : g.Valid idx)
    (split : digits idx g.rootLevel = p ++ q) : g.spanAt p = .ok (g.nodeAt idx q.length) := by
  rw [spanAt, valid.rootSpan_eq]
  exact valid.foldlM_eq le_rfl split

lemma Valid.digits_inj {idx idx' : Nat} (valid : g.Valid idx) (valid' : g.Valid idx')
    (same : digits idx g.rootLevel = digits idx' g.rootLevel) : idx = idx' := by
  refine TreeGeometry.digits_inj ?_ same
  rw [Nat.div_eq_of_lt (valid.lt_chunkCount.trans_le g.level.covers),
    Nat.div_eq_of_lt (valid'.lt_chunkCount.trans_le g.level.covers)]

end TreeGeometry

namespace LazyTreeMetadataReader

variable {reader : LazyTreeMetadataReader} {rows : TreeRows}

lemma validateNode_eq_ok {node : TreeNodeRecord} {span : TreeNodeSpan} {kind : TreeNodeKind} :
    reader.validateNode node span kind = .ok () ↔ node.Matches reader.layoutKind kind span := by
  unfold validateNode
  split_ifs with layout is_kind spans
  · simp only [fail, reduceCtorEq, false_iff]
    exact fun h => layout h.layout_eq
  · simp only [fail, reduceCtorEq, false_iff]
    exact fun h => is_kind h.kind_eq
  · simp only [fail, reduceCtorEq, false_iff]
    rintro ⟨-, -, h₁, h₂, h₃⟩
    simp [h₁, h₂, h₃] at spans
  · simp only [true_iff]
    simp only [ne_eq, not_not, not_or] at layout is_kind spans
    exact ⟨layout, is_kind, spans.1, spans.2.1, spans.2.2⟩

@[simp] lemma loadChildEdge_eq (parent : NodeId) (slot : Nat) : loadChildEdge rows parent slot =
    .ok ((rows.edges parent slot).map fun child => ⟨parent, slot, child⟩) :=
  rows.loadChildEdgeWith_eq _ _ parent slot

lemma loadRequiredLeafRef_eq_ok {id : NodeId} {leafRef : TreeLeafRefRecord} :
    loadRequiredLeafRef rows id = .ok leafRef ↔
      rows.leafRefs id = some leafRef.toTreeLeafRefRow ∧ leafRef.nodeId = id := by
  obtain ⟨row', id'⟩ := leafRef
  unfold loadRequiredLeafRef TreeRows.loadLeafRefs
  cases found : rows.leafRefs id with
  | none => simp [found, fail]
  | some row => simp [found, eq_comm]

/-- What `load_leaf` returns for what the walk finds. -/
def loaded (idx : Nat) (found : Option (TreeNodeRecord × TreeLeafRefRecord)) :
    Option LoadedTreeLeaf := found.map fun a => ⟨idx, a.1, a.2⟩

abbrev trie (reader : LazyTreeMetadataReader) (rows : TreeRows) :
    Trie.Store NodeId Nat (TreeNodeRecord × TreeLeafRefRecord) :=
  reader.geometry.trie reader.layoutKind rows

lemma loadLeafFrom_eq_ok {idx : Nat} {node : TreeNodeRecord} {span : TreeNodeSpan}
    {p path : List Nat} {leaf : Option LoadedTreeLeaf}
    (stored : rows.nodes node.id = some node.toTreeNodeRow)
    (at_span : reader.geometry.spanAt p = .ok span)
    (checked : node.Matches reader.layoutKind (expectedKind span.level) span) :
    reader.loadLeafFrom rows idx node span path = .ok leaf ↔
      ∃ found, Trie.Finds (reader.trie rows) node.id p path found ∧ leaf = loaded idx found := by
  have fits : (reader.trie rows).fits node.id p := ⟨_, span, stored, at_span, checked⟩
  induction path generalizing node span p with
  | nil =>
    rw [loadLeafFrom, Res.bind_eq_ok]
    constructor
    · rintro ⟨leafRef, run, rest⟩
      cases rest
      obtain ⟨row, id⟩ := loadRequiredLeafRef_eq_ok.1 run
      refine ⟨some (node, leafRef), .leaf fits ?_, rfl⟩
      obtain ⟨leafRow, leafId⟩ := leafRef
      cases id
      simp [trie, TreeGeometry.trie, stored, row]
    · rintro ⟨found, walk, rfl⟩
      cases walk with
      | @leaf _ _ a _ leaf =>
        simp only [TreeGeometry.trie, stored, Option.bind_eq_bind, Option.bind_some,
          Option.bind_eq_some_iff, Option.some.injEq] at leaf
        obtain ⟨row, is_row, rfl⟩ := leaf
        exact ⟨⟨row, node.id⟩, loadRequiredLeafRef_eq_ok.2 ⟨is_row, rfl⟩, rfl⟩
  | cons slot path ih =>
    rw [loadLeafFrom, loadChildEdge_eq, Res.ok_bind]
    cases edge : rows.edges node.id slot with
    | none =>
      simp only [Option.map_none]
      constructor
      · intro run
        cases run
        exact ⟨none, .stop fits edge, rfl⟩
      · rintro ⟨found, walk, rfl⟩
        rw [walk.unique (.stop fits edge)]
        rfl
    | some child =>
      simp only [Option.map_some, Res.bind_eq_ok]
      constructor
      · rintro ⟨below, down, next, load, ⟨⟩, check, run⟩
        obtain ⟨row, id⟩ := TreeRows.loadRequiredNode_eq_ok.1 load
        have at_child : reader.geometry.spanAt (p ++ [slot]) = .ok below := by
          rw [TreeGeometry.spanAt_append, at_span, Res.ok_bind, down]
        have is_child := validateNode_eq_ok.1 check
        subst id
        obtain ⟨found, walk, rfl⟩ := (ih row at_child is_child ⟨_, _, row, at_child, is_child⟩).1
          run
        exact ⟨found, .step fits edge walk, rfl⟩
      · rintro ⟨found, walk, rfl⟩
        have rest := walk.along edge
        obtain ⟨row, below, is_row, at_child, is_child⟩ := rest.fits
        have down : reader.geometry.childSpan span slot = .ok below := by
          rw [TreeGeometry.spanAt_append, at_span, Res.ok_bind] at at_child
          exact at_child
        refine ⟨below, down, ⟨row, child⟩, TreeRows.loadRequiredNode_eq_ok.2 ⟨is_row, rfl⟩, (),
          validateNode_eq_ok.2 is_child, ?_⟩
        exact (ih is_row at_child is_child rest.fits).2 ⟨found, rest, rfl⟩

lemma loadLeaf_eq_ok {root : NodeId} {idx : Nat} {leaf : Option LoadedTreeLeaf}
    (is_root : reader.rootNodeId = some root) : reader.loadLeaf rows idx = .ok leaf ↔
      reader.geometry.Valid idx ∧ ∃ found, Trie.Finds (reader.trie rows) root []
        (TreeGeometry.digits idx reader.geometry.rootLevel) found ∧ leaf = loaded idx found := by
  have at_root : reader.geometry.spanAt [] = .ok reader.geometry.rootSpan := rfl
  have internal : expectedKind reader.geometry.rootSpan.level = .internal :=
    if_neg (Nat.ne_of_gt reader.geometry.level.pos)
  unfold loadLeaf
  rw [is_root]
  simp only [Res.bind_eq_ok, TreeGeometry.pathForChunk_eq_ok]
  constructor
  · rintro ⟨path, ⟨valid, rfl⟩, node, load, ⟨⟩, check, run⟩
    obtain ⟨row, rfl⟩ := TreeRows.loadRequiredNode_eq_ok.1 load
    have is_node := validateNode_eq_ok.1 check
    rw [← internal] at is_node
    exact ⟨valid, (loadLeafFrom_eq_ok row at_root is_node).1 run⟩
  · rintro ⟨valid, found, walk, rfl⟩
    obtain ⟨row, span, is_row, at_span, is_node⟩ := walk.fits
    cases at_root.symm.trans at_span
    refine ⟨_, ⟨valid, rfl⟩, ⟨row, root⟩, TreeRows.loadRequiredNode_eq_ok.2 ⟨is_row, rfl⟩, (), ?_,
      ?_⟩
    · rw [← internal]
      exact validateNode_eq_ok.2 is_node
    · exact (loadLeafFrom_eq_ok is_row at_root is_node).2 ⟨found, walk, rfl⟩

end LazyTreeMetadataReader

end NbdServer
