import NbdServer.Tree.Records

/-!
# The tree tables of the catalog

Model of `transaction.rs` of the SQLite adapter: the insertion of a batch of tree records, one row
after the other, with the constraints of the schema. The foreign keys are fields of `TreeTables`, so
tables with a dangling edge or leaf ref cannot be built.

An insertion that fails leaves no rows behind, because it runs in a transaction; the functions here
return the new tables only when all rows were inserted.
-/

namespace NbdServer

lemma CatalogRes.bind_eq_ok {α β : Type} {x : CatalogRes α} {f : α → CatalogRes β} {b : β} :
    x >>= f = .ok b ↔ ∃ a, x = .ok a ∧ f a = .ok b := by
  cases x with
  | error e => simp [bind, Except.bind]
  | ok a => simp [bind, Except.bind]

@[simp] lemma CatalogRes.ok_bind {α β : Type} (a : α) (f : α → CatalogRes β) :
    (Except.ok a : CatalogRes α) >>= f = f a := rfl

lemma CatalogRes.foldlM_view {α β γ : Type} {f : β → α → CatalogRes β} (view : β → γ)
    (g : γ → α → γ) (step : ∀ {b a b'}, f b a = .ok b' → view b' = g (view b) a) {l : List α}
    {b b' : β} (run : l.foldlM f b = .ok b') : view b' = l.foldl g (view b) := by
  induction l generalizing b with
  | nil =>
    cases run
    rfl
  | cons a l ih =>
    rw [List.foldlM_cons] at run
    obtain ⟨b₁, first, run⟩ := CatalogRes.bind_eq_ok.1 run
    rw [ih run, step first, List.foldl_cons]

lemma CatalogRes.foldlM_ok {α β : Type} {f : β → α → CatalogRes β} {I : List α → β → Prop}
    (step : ∀ {a l b}, I (a :: l) b → ∃ b', f b a = .ok b' ∧ I l b') {l : List α} {b : β}
    (first : I l b) : ∃ b', l.foldlM f b = .ok b' := by
  induction l generalizing b with
  | nil => exact ⟨b, rfl⟩
  | cons a l ih =>
    obtain ⟨b₁, run, next⟩ := step first
    rw [List.foldlM_cons, run, CatalogRes.ok_bind]
    exact ih next

/-- The first value that does not fit in an SQLite `INTEGER`. -/
def I64 : Nat := 2 ^ 63

/-- Rust `u64_to_i64`. -/
def u64ToI64 (field : String) (value : Nat) : CatalogRes Nat :=
  if value < I64 then .ok value
  else .error (.invalidField field s!"value {value} does not fit in SQLite INTEGER")

lemma u64ToI64_of_lt {field : String} {value : Nat} (lt : value < I64) :
    u64ToI64 field value = .ok value := if_pos lt

def violated {α : Type} (constraint : String) : CatalogRes α :=
  .error (.database s!"database error: {constraint}")

@[simp] lemma violated_ne_ok {α : Type} {constraint : String} {a : α} :
    (violated constraint : CatalogRes α) = .ok a ↔ False := by
  simp [violated]

/-! ## Rows -/

namespace TreeRows

/-- One more row of `tree_nodes`. -/
def setNode (nodes : NodeId → Option TreeNodeRow) (node : TreeNodeRecord) :
    NodeId → Option TreeNodeRow :=
  Function.update nodes node.id (some node.toTreeNodeRow)

/-- One more row of `tree_edges`. -/
def setEdge (edges : NodeId → Nat → Option NodeId) (edge : TreeEdgeRecord) :
    NodeId → Nat → Option NodeId :=
  Function.update edges edge.parentNodeId
    (Function.update (edges edge.parentNodeId) edge.slot (some edge.childNodeId))

/-- One more row of `tree_leaf_refs`. -/
def setLeafRef (leafRefs : NodeId → Option TreeLeafRefRow) (leafRef : TreeLeafRefRecord) :
    NodeId → Option TreeLeafRefRow :=
  Function.update leafRefs leafRef.nodeId (some leafRef.toTreeLeafRefRow)

def add (rows : TreeRows) (batch : TreeRecordBatch) : TreeRows where
  nodes := batch.nodes.foldl setNode rows.nodes
  edges := batch.edges.foldl setEdge rows.edges
  leafRefs := batch.leafRefs.foldl setLeafRef rows.leafRefs

lemma setNode_isSome {nodes : NodeId → Option TreeNodeRow} {node : TreeNodeRecord} {id : NodeId} :
    (setNode nodes node id).isSome ↔ id = node.id ∨ (nodes id).isSome := by
  unfold setNode
  by_cases same : id = node.id
  · subst same
    simp
  · simp [same]

lemma setEdge_apply (edges : NodeId → Nat → Option NodeId) (edge : TreeEdgeRecord) (p : NodeId)
    (s : Nat) : setEdge edges edge p s =
      if p = edge.parentNodeId ∧ s = edge.slot then some edge.childNodeId else edges p s := by
  unfold setEdge
  by_cases parent : p = edge.parentNodeId
  · subst parent
    rw [Function.update_self, Function.update_apply]
    simp only [true_and]
  · rw [Function.update_of_ne parent, if_neg (fun h => parent h.1)]

lemma foldl_setNode_isSome {nodes : NodeId → Option TreeNodeRow} {l : List TreeNodeRecord}
    {id : NodeId} :
    (l.foldl setNode nodes id).isSome ↔ (∃ node ∈ l, node.id = id) ∨ (nodes id).isSome := by
  induction l generalizing nodes with
  | nil => simp
  | cons node l ih =>
    have here : id = node.id ↔ node.id = id := eq_comm
    rw [List.foldl_cons, ih, setNode_isSome, here, List.exists_mem_cons_iff, or_left_comm, or_assoc]

lemma foldl_setEdge_isSome {edges : NodeId → Nat → Option NodeId} {l : List TreeEdgeRecord}
    {p : NodeId} {s : Nat} : (l.foldl setEdge edges p s).isSome ↔
      (∃ edge ∈ l, edge.parentNodeId = p ∧ edge.slot = s) ∨ (edges p s).isSome := by
  induction l generalizing edges with
  | nil => simp
  | cons edge l ih =>
    have here : (setEdge edges edge p s).isSome ↔
        (edge.parentNodeId = p ∧ edge.slot = s) ∨ (edges p s).isSome := by
      rw [setEdge_apply]
      split_ifs with key
      · simp [key]
      · have : ¬ (edge.parentNodeId = p ∧ edge.slot = s) := fun h => key ⟨h.1.symm, h.2.symm⟩
        simp [this]
    rw [List.foldl_cons, ih, here, List.exists_mem_cons_iff, or_left_comm, or_assoc]

lemma foldl_setNode_of_not_mem {nodes : NodeId → Option TreeNodeRow} {l : List TreeNodeRecord}
    {id : NodeId} (other : ∀ node ∈ l, node.id ≠ id) : l.foldl setNode nodes id = nodes id := by
  induction l generalizing nodes with
  | nil => rfl
  | cons node l ih =>
    rw [List.foldl_cons, ih fun n mem => other n (List.mem_cons_of_mem _ mem)]
    exact Function.update_of_ne (other node List.mem_cons_self).symm _ _

lemma foldl_setEdge_of_not_mem {edges : NodeId → Nat → Option NodeId} {l : List TreeEdgeRecord}
    {p : NodeId} {s : Nat} (other : ∀ edge ∈ l, ¬ (edge.parentNodeId = p ∧ edge.slot = s)) :
    l.foldl setEdge edges p s = edges p s := by
  induction l generalizing edges with
  | nil => rfl
  | cons edge l ih =>
    rw [List.foldl_cons, ih fun e mem => other e (List.mem_cons_of_mem _ mem), setEdge_apply,
      if_neg]
    rintro ⟨rfl, rfl⟩
    exact other edge List.mem_cons_self ⟨rfl, rfl⟩

lemma foldl_setLeafRef_of_not_mem {leafRefs : NodeId → Option TreeLeafRefRow}
    {l : List TreeLeafRefRecord} {id : NodeId} (other : ∀ leafRef ∈ l, leafRef.nodeId ≠ id) :
    l.foldl setLeafRef leafRefs id = leafRefs id := by
  induction l generalizing leafRefs with
  | nil => rfl
  | cons leafRef l ih =>
    rw [List.foldl_cons, ih fun n mem => other n (List.mem_cons_of_mem _ mem)]
    exact Function.update_of_ne (other leafRef List.mem_cons_self).symm _ _

lemma foldl_setEdge_of_mem {edges : NodeId → Nat → Option NodeId} {l : List TreeEdgeRecord}
    (nodup : (l.map fun e => (e.parentNodeId, e.slot)).Nodup) {edge : TreeEdgeRecord}
    (mem : edge ∈ l) :
    l.foldl setEdge edges edge.parentNodeId edge.slot = some edge.childNodeId := by
  induction l generalizing edges with
  | nil => cases mem
  | cons e l ih =>
    rw [List.map_cons, List.nodup_cons] at nodup
    obtain ⟨other, nodup⟩ := nodup
    rw [List.foldl_cons]
    rcases List.mem_cons.1 mem with rfl | mem
    · rw [foldl_setEdge_of_not_mem, setEdge_apply, if_pos ⟨rfl, rfl⟩]
      rintro e mem ⟨same, same'⟩
      exact other (List.mem_map.2 ⟨e, mem, by rw [same, same']⟩)
    · exact ih nodup mem

lemma add_congr {rows rows' : TreeRows} {m : NodeId} (b : TreeRecordBatch)
    (nodes : rows'.nodes m = rows.nodes m) (edges : rows'.edges m = rows.edges m)
    (leafRefs : rows'.leafRefs m = rows.leafRefs m) :
    (rows'.add b).nodes m = (rows.add b).nodes m ∧ (rows'.add b).edges m = (rows.add b).edges m ∧
      (rows'.add b).leafRefs m = (rows.add b).leafRefs m := by
  refine ⟨?_, ?_, ?_⟩
  · refine List.foldl_rel (r := fun a b : NodeId → Option TreeNodeRow => a m = b m) nodes ?_
    intro node _ a b same
    simp only [setNode, Function.update_apply, same]
  · refine List.foldl_rel (r := fun a b : NodeId → Nat → Option NodeId => a m = b m) edges ?_
    intro edge _ a b same
    funext s
    rw [setEdge_apply, setEdge_apply, same]
  · refine List.foldl_rel (r := fun a b : NodeId → Option TreeLeafRefRow => a m = b m) leafRefs ?_
    intro leafRef _ a b same
    simp only [setLeafRef, Function.update_apply, same]

end TreeRows

/-! ## Tables -/

/-- The tree tables: rows whose edges and leaf refs name nodes that exist. -/
structure TreeTables extends TreeRows where
  edges_fk : ∀ p s c, edges p s = some c → (nodes p).isSome ∧ (nodes c).isSome
  leafRefs_fk : ∀ n row, leafRefs n = some row → (nodes n).isSome

namespace TreeTables

open TreeRows

def empty : TreeTables where
  toTreeRows := .empty
  edges_fk := by
    intro p s c h
    cases h
  leafRefs_fk := by
    intro n row h
    cases h

/-- The statement that inserts a row of `tree_nodes`. -/
def insertNode (hasExport : ExportId → Bool) (t : TreeTables) (node : TreeNodeRecord) :
    CatalogRes TreeTables := do
  let spanStart ← u64ToI64 "span_start_bytes" node.spanStartBytes
  let spanLen ← u64ToI64 "span_len_bytes" node.spanLenBytes
  if node.layoutKind = .memoryEmpty then violated "CHECK constraint failed: layout_kind"
  else if spanLen = 0 then violated "CHECK constraint failed: span_len_bytes > 0"
  else if (t.nodes node.id).isSome then violated "UNIQUE constraint failed: tree_nodes.id"
  else if ∃ owner ∈ node.ownerExportId, hasExport owner = false then
    violated "FOREIGN KEY constraint failed"
  else .ok {
    nodes := setNode t.nodes { node with spanStartBytes := spanStart, spanLenBytes := spanLen }
    edges := t.edges
    leafRefs := t.leafRefs
    edges_fk := fun p s c h =>
      ⟨setNode_isSome.2 (.inr (t.edges_fk p s c h).1),
        setNode_isSome.2 (.inr (t.edges_fk p s c h).2)⟩
    leafRefs_fk := fun n row h => setNode_isSome.2 (.inr (t.leafRefs_fk n row h)) }

/-- The statement that inserts a row of `tree_edges`. -/
def insertEdge (t : TreeTables) (edge : TreeEdgeRecord) : CatalogRes TreeTables :=
  if (t.edges edge.parentNodeId edge.slot).isSome then
    violated "UNIQUE constraint failed: tree_edges.parent_node_id, tree_edges.slot"
  else if fk : (t.nodes edge.parentNodeId).isSome ∧ (t.nodes edge.childNodeId).isSome then
    .ok {
      nodes := t.nodes
      edges := setEdge t.edges edge
      leafRefs := t.leafRefs
      edges_fk := by
        intro p s c h
        rw [setEdge_apply] at h
        split_ifs at h with key
        · cases h
          rw [key.1]
          exact fk
        · exact t.edges_fk p s c h
      leafRefs_fk := t.leafRefs_fk }
  else violated "FOREIGN KEY constraint failed"

/-- The statement that inserts a row of `tree_leaf_refs`. -/
def insertLeafRef (t : TreeTables) (leafRef : TreeLeafRefRecord) : CatalogRes TreeTables := do
  let len ← u64ToI64 "len_bytes" leafRef.lenBytes
  if len = 0 then violated "CHECK constraint failed: len_bytes > 0"
  else if (t.leafRefs leafRef.nodeId).isSome then
    violated "UNIQUE constraint failed: tree_leaf_refs.node_id"
  else if fk : (t.nodes leafRef.nodeId).isSome then
    .ok {
      nodes := t.nodes
      edges := t.edges
      leafRefs := setLeafRef t.leafRefs { leafRef with lenBytes := len }
      edges_fk := t.edges_fk
      leafRefs_fk := by
        intro n row h
        by_cases same : n = leafRef.nodeId
        · rw [same]
          exact fk
        · exact t.leafRefs_fk n row ((Function.update_of_ne same _ _).symm.trans h) }
  else violated "FOREIGN KEY constraint failed"

/-- Rust `insert_tree_records`. -/
def insertTreeRecords (hasExport : ExportId → Bool) (t : TreeTables) (records : TreeRecordBatch) :
    CatalogRes TreeTables := do
  let t ← records.nodes.foldlM (insertNode hasExport) t
  let t ← records.edges.foldlM insertEdge t
  records.leafRefs.foldlM insertLeafRef t

variable {hasExport : ExportId → Bool} {t t' : TreeTables}

/-- A row that the constraints accept, seen by itself. -/
structure NodeOk (hasExport : ExportId → Bool) (node : TreeNodeRecord) : Prop where
  start : node.spanStartBytes < I64
  len : node.spanLenBytes < I64
  pos : 0 < node.spanLenBytes
  layout : node.layoutKind ≠ .memoryEmpty
  owner : ∀ owner ∈ node.ownerExportId, hasExport owner = true

lemma insertNode_eq_ok {node : TreeNodeRecord} (run : insertNode hasExport t node = .ok t') :
    t'.nodes = setNode t.nodes node ∧ t'.edges = t.edges ∧ t'.leafRefs = t.leafRefs := by
  unfold insertNode at run
  obtain ⟨spanStart, start, run⟩ := CatalogRes.bind_eq_ok.1 run
  obtain ⟨spanLen, len, run⟩ := CatalogRes.bind_eq_ok.1 run
  unfold u64ToI64 at start len
  split_ifs at start
  split_ifs at len
  cases start
  cases len
  split_ifs at run <;> cases run
  exact ⟨rfl, rfl, rfl⟩

lemma insertEdge_eq_ok {edge : TreeEdgeRecord} (run : insertEdge t edge = .ok t') :
    t'.nodes = t.nodes ∧ t'.edges = setEdge t.edges edge ∧ t'.leafRefs = t.leafRefs := by
  unfold insertEdge at run
  split_ifs at run <;> cases run
  exact ⟨rfl, rfl, rfl⟩

lemma insertLeafRef_eq_ok {leafRef : TreeLeafRefRecord} (run : insertLeafRef t leafRef = .ok t') :
    t'.nodes = t.nodes ∧ t'.edges = t.edges ∧ t'.leafRefs = setLeafRef t.leafRefs leafRef := by
  unfold insertLeafRef at run
  obtain ⟨len, conv, run⟩ := CatalogRes.bind_eq_ok.1 run
  unfold u64ToI64 at conv
  split_ifs at conv
  cases conv
  split_ifs at run <;> cases run
  exact ⟨rfl, rfl, rfl⟩

lemma insertNodes_eq_ok {l : List TreeNodeRecord}
    (run : l.foldlM (insertNode hasExport) t = .ok t') :
    t'.nodes = l.foldl setNode t.nodes ∧ t'.edges = t.edges ∧ t'.leafRefs = t.leafRefs := by
  refine ⟨CatalogRes.foldlM_view (·.nodes) setNode (fun h => (insertNode_eq_ok h).1) run, ?_, ?_⟩
  · have := CatalogRes.foldlM_view (·.edges) (fun e _ => e) (fun h => (insertNode_eq_ok h).2.1) run
    rwa [List.foldl_fixed] at this
  · have := CatalogRes.foldlM_view (·.leafRefs) (fun e _ => e) (fun h => (insertNode_eq_ok h).2.2)
      run
    rwa [List.foldl_fixed] at this

lemma insertEdges_eq_ok {l : List TreeEdgeRecord} (run : l.foldlM insertEdge t = .ok t') :
    t'.nodes = t.nodes ∧ t'.edges = l.foldl setEdge t.edges ∧ t'.leafRefs = t.leafRefs := by
  refine ⟨?_, CatalogRes.foldlM_view (·.edges) setEdge (fun h => (insertEdge_eq_ok h).2.1) run, ?_⟩
  · have := CatalogRes.foldlM_view (·.nodes) (fun e _ => e) (fun h => (insertEdge_eq_ok h).1) run
    rwa [List.foldl_fixed] at this
  · have := CatalogRes.foldlM_view (·.leafRefs) (fun e _ => e) (fun h => (insertEdge_eq_ok h).2.2)
      run
    rwa [List.foldl_fixed] at this

lemma insertLeafRefs_eq_ok {l : List TreeLeafRefRecord} (run : l.foldlM insertLeafRef t = .ok t') :
    t'.nodes = t.nodes ∧ t'.edges = t.edges ∧ t'.leafRefs = l.foldl setLeafRef t.leafRefs := by
  refine ⟨?_, ?_, CatalogRes.foldlM_view (·.leafRefs) setLeafRef
    (fun h => (insertLeafRef_eq_ok h).2.2) run⟩
  · have := CatalogRes.foldlM_view (·.nodes) (fun e _ => e) (fun h => (insertLeafRef_eq_ok h).1) run
    rwa [List.foldl_fixed] at this
  · have := CatalogRes.foldlM_view (·.edges) (fun e _ => e) (fun h => (insertLeafRef_eq_ok h).2.1)
      run
    rwa [List.foldl_fixed] at this

lemma insertTreeRecords_eq_ok {records : TreeRecordBatch}
    (run : insertTreeRecords hasExport t records = .ok t') :
    t'.toTreeRows = t.toTreeRows.add records := by
  unfold insertTreeRecords at run
  obtain ⟨t₁, run₁, run⟩ := CatalogRes.bind_eq_ok.1 run
  obtain ⟨t₂, run₂, run₃⟩ := CatalogRes.bind_eq_ok.1 run
  obtain ⟨n₁, n₂, n₃⟩ := insertNodes_eq_ok run₁
  obtain ⟨e₁, e₂, e₃⟩ := insertEdges_eq_ok run₂
  obtain ⟨l₁, l₂, l₃⟩ := insertLeafRefs_eq_ok run₃
  apply TreeRows.ext
  · exact (l₁.trans e₁).trans n₁
  · rw [l₂, e₂, n₂]
    rfl
  · rw [l₃, e₃, n₃]
    rfl

/-- A batch that the constraints accept on top of the given rows. -/
structure Accepts (hasExport : ExportId → Bool) (rows : TreeRows) (b : TreeRecordBatch) : Prop where
  nodes_ok : ∀ node ∈ b.nodes, NodeOk hasExport node
  nodes_new : ∀ node ∈ b.nodes, rows.nodes node.id = none
  nodes_nodup : (b.nodes.map (·.id)).Nodup
  edges_new : ∀ e ∈ b.edges, rows.edges e.parentNodeId e.slot = none
  edges_nodup : (b.edges.map fun e => (e.parentNodeId, e.slot)).Nodup
  edges_fk : ∀ e ∈ b.edges,
    ((rows.add b).nodes e.parentNodeId).isSome ∧ ((rows.add b).nodes e.childNodeId).isSome
  leafRefs_ok : ∀ l ∈ b.leafRefs, 0 < l.lenBytes ∧ l.lenBytes < I64
  leafRefs_new : ∀ l ∈ b.leafRefs, rows.leafRefs l.nodeId = none
  leafRefs_nodup : (b.leafRefs.map (·.nodeId)).Nodup
  leafRefs_fk : ∀ l ∈ b.leafRefs, ((rows.add b).nodes l.nodeId).isSome

lemma insertNode_of_ok {node : TreeNodeRecord} (ok : NodeOk hasExport node)
    (fresh : t.nodes node.id = none) : ∃ t', insertNode hasExport t node = .ok t' := by
  have owners : ¬ ∃ owner ∈ node.ownerExportId, hasExport owner = false := by
    rintro ⟨owner, mem, not⟩
    rw [ok.owner owner mem] at not
    cases not
  unfold insertNode
  rw [u64ToI64_of_lt ok.start, CatalogRes.ok_bind, u64ToI64_of_lt ok.len, CatalogRes.ok_bind,
    if_neg ok.layout, if_neg ok.pos.ne', if_neg (by simp [fresh]), if_neg owners]
  exact ⟨_, rfl⟩

lemma insertEdge_of_ok {edge : TreeEdgeRecord} (fresh : t.edges edge.parentNodeId edge.slot = none)
    (fk : (t.nodes edge.parentNodeId).isSome ∧ (t.nodes edge.childNodeId).isSome) :
    ∃ t', insertEdge t edge = .ok t' := by
  unfold insertEdge
  rw [if_neg (by simp [fresh]), dif_pos fk]
  exact ⟨_, rfl⟩

lemma insertLeafRef_of_ok {leafRef : TreeLeafRefRecord}
    (ok : 0 < leafRef.lenBytes ∧ leafRef.lenBytes < I64) (fresh : t.leafRefs leafRef.nodeId = none)
    (fk : (t.nodes leafRef.nodeId).isSome) : ∃ t', insertLeafRef t leafRef = .ok t' := by
  unfold insertLeafRef
  rw [u64ToI64_of_lt ok.2, CatalogRes.ok_bind, if_neg ok.1.ne', if_neg (by simp [fresh]),
    dif_pos fk]
  exact ⟨_, rfl⟩

lemma insertTreeRecords_of_accepts {records : TreeRecordBatch}
    (ok : Accepts hasExport t.toTreeRows records) :
    ∃ t', insertTreeRecords hasExport t records = .ok t' ∧
      t'.toTreeRows = t.toTreeRows.add records := by
  obtain ⟨t₁, run₁⟩ : ∃ t₁, records.nodes.foldlM (insertNode hasExport) t = .ok t₁ := by
    refine CatalogRes.foldlM_ok (I := fun l (u : TreeTables) => (l.map (·.id)).Nodup ∧
      ∀ node ∈ l, NodeOk hasExport node ∧ u.nodes node.id = none) ?_
      ⟨ok.nodes_nodup, fun node mem => ⟨ok.nodes_ok node mem, ok.nodes_new node mem⟩⟩
    rintro node l u ⟨nodup, all⟩
    obtain ⟨isOk, fresh⟩ := all node List.mem_cons_self
    obtain ⟨u', run⟩ := insertNode_of_ok isOk fresh
    obtain ⟨other, nodup⟩ := List.nodup_cons.1 nodup
    refine ⟨u', run, nodup, ?_⟩
    intro node' mem
    obtain ⟨isOk', fresh'⟩ := all node' (List.mem_cons_of_mem _ mem)
    refine ⟨isOk', ?_⟩
    rw [(insertNode_eq_ok run).1, setNode, Function.update_of_ne, fresh']
    intro same
    exact other (List.mem_map.2 ⟨node', mem, same⟩)
  obtain ⟨n₁, n₂, n₃⟩ := insertNodes_eq_ok run₁
  have nodes₁ : t₁.nodes = (t.toTreeRows.add records).nodes := n₁
  obtain ⟨t₂, run₂⟩ : ∃ t₂, records.edges.foldlM insertEdge t₁ = .ok t₂ := by
    refine CatalogRes.foldlM_ok (I := fun l (u : TreeTables) =>
      (l.map fun e => (e.parentNodeId, e.slot)).Nodup ∧ u.nodes = t₁.nodes ∧
      ∀ e ∈ l, e ∈ records.edges ∧ u.edges e.parentNodeId e.slot = none) ?_
      ⟨ok.edges_nodup, rfl, fun e mem => ⟨mem, by rw [n₂]; exact ok.edges_new e mem⟩⟩
    rintro edge l u ⟨nodup, nodes, all⟩
    obtain ⟨mem, fresh⟩ := all edge List.mem_cons_self
    obtain ⟨u', run⟩ := insertEdge_of_ok fresh (by rw [nodes, nodes₁]; exact ok.edges_fk edge mem)
    obtain ⟨e₁, e₂, -⟩ := insertEdge_eq_ok run
    obtain ⟨other, nodup⟩ := List.nodup_cons.1 nodup
    refine ⟨u', run, nodup, e₁.trans nodes, ?_⟩
    intro edge' mem'
    obtain ⟨mem'', fresh'⟩ := all edge' (List.mem_cons_of_mem _ mem')
    refine ⟨mem'', ?_⟩
    rw [e₂, setEdge_apply, if_neg, fresh']
    rintro ⟨same, same'⟩
    exact other (List.mem_map.2 ⟨edge', mem', by rw [same, same']⟩)
  obtain ⟨e₁, e₂, e₃⟩ := insertEdges_eq_ok run₂
  obtain ⟨t₃, run₃⟩ : ∃ t₃, records.leafRefs.foldlM insertLeafRef t₂ = .ok t₃ := by
    refine CatalogRes.foldlM_ok (I := fun l (u : TreeTables) => (l.map (·.nodeId)).Nodup ∧
      u.nodes = t₁.nodes ∧ ∀ r ∈ l, r ∈ records.leafRefs ∧ u.leafRefs r.nodeId = none) ?_
      ⟨ok.leafRefs_nodup, e₁, fun r mem => ⟨mem, by rw [e₃, n₃]; exact ok.leafRefs_new r mem⟩⟩
    rintro leafRef l u ⟨nodup, nodes, all⟩
    obtain ⟨mem, fresh⟩ := all leafRef List.mem_cons_self
    obtain ⟨u', run⟩ := insertLeafRef_of_ok (ok.leafRefs_ok leafRef mem) fresh
      (by rw [nodes, nodes₁]; exact ok.leafRefs_fk leafRef mem)
    obtain ⟨l₁, -, l₃⟩ := insertLeafRef_eq_ok run
    obtain ⟨other, nodup⟩ := List.nodup_cons.1 nodup
    refine ⟨u', run, nodup, l₁.trans nodes, ?_⟩
    intro r mem'
    obtain ⟨mem'', fresh'⟩ := all r (List.mem_cons_of_mem _ mem')
    refine ⟨mem'', ?_⟩
    rw [l₃, setLeafRef, Function.update_of_ne, fresh']
    intro same
    exact other (List.mem_map.2 ⟨r, mem', same⟩)
  have run : insertTreeRecords hasExport t records = .ok t₃ := by
    rw [insertTreeRecords, run₁, CatalogRes.ok_bind, run₂, CatalogRes.ok_bind, run₃]
  exact ⟨t₃, run, insertTreeRecords_eq_ok run⟩

/-! ## Batches that grow -/

section Grow

variable {has : ExportId → Bool} {b : TreeRecordBatch} {node : TreeNodeRecord}

lemma add_nodes_isSome {rows : TreeRows} {b : TreeRecordBatch} {id : NodeId} :
    ((rows.add b).nodes id).isSome ↔ (∃ node ∈ b.nodes, node.id = id) ∨ (rows.nodes id).isSome :=
  TreeRows.foldl_setNode_isSome

lemma Accepts.addNode (h : Accepts has t.toTreeRows b) (ok : NodeOk has node)
    (fresh : (t.toTreeRows.add b).nodes node.id = none) :
    Accepts has t.toTreeRows { b with nodes := b.nodes ++ [node] } := by
  have new : ¬ ((∃ n ∈ b.nodes, n.id = node.id) ∨ (t.nodes node.id).isSome) := by
    rw [← add_nodes_isSome, fresh]
    simp
  rw [not_or] at new
  have more : ∀ id, ((t.toTreeRows.add b).nodes id).isSome →
      ((t.toTreeRows.add { b with nodes := b.nodes ++ [node] }).nodes id).isSome := by
    intro id is
    rw [add_nodes_isSome] at is ⊢
    refine is.imp_left ?_
    rintro ⟨n, mem, same⟩
    exact ⟨n, List.mem_append_left _ mem, same⟩
  refine ⟨?_, ?_, ?_, h.edges_new, h.edges_nodup, ?_, h.leafRefs_ok, h.leafRefs_new,
    h.leafRefs_nodup, fun l mem => more _ (h.leafRefs_fk l mem)⟩
  · intro n mem
    rcases List.mem_append.1 mem with mem | mem
    · exact h.nodes_ok n mem
    · rw [List.mem_singleton.1 mem]
      exact ok
  · intro n mem
    rcases List.mem_append.1 mem with mem | mem
    · exact h.nodes_new n mem
    · rw [List.mem_singleton.1 mem]
      simpa using new.2
  · show ((b.nodes ++ [node]).map (·.id)).Nodup
    rw [List.map_append, List.map_singleton, ← List.concat_eq_append, List.nodup_concat]
    refine ⟨?_, h.nodes_nodup⟩
    intro mem
    obtain ⟨n, mem, same⟩ := List.mem_map.1 mem
    exact new.1 ⟨n, mem, same⟩
  · intro e mem
    exact ⟨more _ (h.edges_fk e mem).1, more _ (h.edges_fk e mem).2⟩

lemma Accepts.addEdge (h : Accepts has t.toTreeRows b) {edge : TreeEdgeRecord}
    (fresh : (t.toTreeRows.add b).edges edge.parentNodeId edge.slot = none)
    (parent : ((t.toTreeRows.add b).nodes edge.parentNodeId).isSome)
    (child : ((t.toTreeRows.add b).nodes edge.childNodeId).isSome) :
    Accepts has t.toTreeRows { b with edges := b.edges ++ [edge] } := by
  have new : ¬ ((∃ e ∈ b.edges, e.parentNodeId = edge.parentNodeId ∧ e.slot = edge.slot) ∨
      (t.edges edge.parentNodeId edge.slot).isSome) := by
    rw [← TreeRows.foldl_setEdge_isSome]
    show ¬ ((t.toTreeRows.add b).edges edge.parentNodeId edge.slot).isSome
    rw [fresh]
    simp
  rw [not_or] at new
  refine ⟨h.nodes_ok, h.nodes_new, h.nodes_nodup, ?_, ?_, ?_, h.leafRefs_ok, h.leafRefs_new,
    h.leafRefs_nodup, h.leafRefs_fk⟩
  · intro e mem
    rcases List.mem_append.1 mem with mem | mem
    · exact h.edges_new e mem
    · rw [List.mem_singleton.1 mem]
      simpa using new.2
  · show ((b.edges ++ [edge]).map fun e => (e.parentNodeId, e.slot)).Nodup
    rw [List.map_append, List.map_singleton, ← List.concat_eq_append, List.nodup_concat]
    refine ⟨?_, h.edges_nodup⟩
    intro mem
    obtain ⟨e, mem, same⟩ := List.mem_map.1 mem
    rw [Prod.mk.injEq] at same
    exact new.1 ⟨e, mem, same⟩
  · intro e mem
    rcases List.mem_append.1 mem with mem | mem
    · exact h.edges_fk e mem
    · rw [List.mem_singleton.1 mem]
      exact ⟨parent, child⟩

lemma Accepts.addLeafRef (h : Accepts has t.toTreeRows b) {leafRef : TreeLeafRefRecord}
    (ok : 0 < leafRef.lenBytes ∧ leafRef.lenBytes < I64)
    (new : ∀ l ∈ b.leafRefs, l.nodeId ≠ leafRef.nodeId)
    (fresh : t.leafRefs leafRef.nodeId = none)
    (there : ((t.toTreeRows.add b).nodes leafRef.nodeId).isSome) :
    Accepts has t.toTreeRows { b with leafRefs := b.leafRefs ++ [leafRef] } := by
  refine ⟨h.nodes_ok, h.nodes_new, h.nodes_nodup, h.edges_new, h.edges_nodup, h.edges_fk, ?_, ?_,
    ?_, ?_⟩
  · intro l mem
    rcases List.mem_append.1 mem with mem | mem
    · exact h.leafRefs_ok l mem
    · rw [List.mem_singleton.1 mem]
      exact ok
  · intro l mem
    rcases List.mem_append.1 mem with mem | mem
    · exact h.leafRefs_new l mem
    · rw [List.mem_singleton.1 mem]
      exact fresh
  · show ((b.leafRefs ++ [leafRef]).map (·.nodeId)).Nodup
    rw [List.map_append, List.map_singleton, ← List.concat_eq_append, List.nodup_concat]
    refine ⟨?_, h.leafRefs_nodup⟩
    intro mem
    obtain ⟨l, mem, same⟩ := List.mem_map.1 mem
    exact new l mem same
  · intro l mem
    rcases List.mem_append.1 mem with mem | mem
    · exact h.leafRefs_fk l mem
    · rw [List.mem_singleton.1 mem]
      exact there

lemma Accepts.tables (h : Accepts has t.toTreeRows b) :
    ∃ t' : TreeTables, t'.toTreeRows = t.toTreeRows.add b := by
  obtain ⟨t', -, rows⟩ := insertTreeRecords_of_accepts h
  exact ⟨t', rows⟩

lemma no_edge {n : NodeId} {s : Nat} (absent : t.nodes n = none) : t.edges n s = none := by
  cases found : t.edges n s with
  | none => rfl
  | some c =>
    have := (t.edges_fk n s c found).1
    rw [absent] at this
    cases this

lemma no_leafRef {n : NodeId} (absent : t.nodes n = none) : t.leafRefs n = none := by
  cases found : t.leafRefs n with
  | none => rfl
  | some row =>
    have := t.leafRefs_fk n row found
    rw [absent] at this
    cases this

end Grow

end TreeTables

end NbdServer
