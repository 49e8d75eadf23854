import NbdServer.Catalog.Tables

/-!
# The export catalog

Model of `adapter.rs` of the SQLite adapter: the exports with their heads, and the functions that
change the catalog. Every function runs in one transaction, which is atomic, so it is a function on
the whole catalog, and one that fails returns the catalog it was called with. The unique indexes and
the constraints on heads are fields of `Catalog`. Ids that Rust draws at random are parameters.
-/

namespace NbdServer

/-- Rust `ExportState`. -/
inductive ExportState where
  | active
  | deleted
  deriving DecidableEq, Repr

/-- Rust `ExportEngineKind`. -/
inductive ExportEngineKind where
  | memory
  | simpleDurable
  | walDurable
  deriving DecidableEq, Repr

/-- Rust `ExportRecord`, without the timestamps. -/
structure ExportRecord where
  id : ExportId
  name : ExportName
  blockSize : Nat
  engineKind : ExportEngineKind
  state : ExportState
  head : ExportHead
  deriving DecidableEq, Repr

/-- A head that fits the columns and the constraints of `export_heads`. -/
structure StoredHead (rows : TreeRows) (head : ExportHead) : Prop where
  pos : 0 < head.sizeBytes
  size : head.sizeBytes < I64
  base : head.baseWalSeq < I64
  root_fk : ∀ root ∈ head.rootNodeId, (rows.nodes root).isSome

instance (rows : TreeRows) (head : ExportHead) : Decidable (StoredHead rows head) :=
  decidable_of_iff (0 < head.sizeBytes ∧ head.sizeBytes < I64 ∧ head.baseWalSeq < I64 ∧
    ∀ root ∈ head.rootNodeId, (rows.nodes root).isSome)
    ⟨fun h => ⟨h.1, h.2.1, h.2.2.1, h.2.2.2⟩, fun h => ⟨h.pos, h.size, h.base, h.root_fk⟩⟩

lemma StoredHead.mono {rows rows' : TreeRows} {head : ExportHead} (h : StoredHead rows head)
    (grow : ∀ n, (rows.nodes n).isSome → (rows'.nodes n).isSome) : StoredHead rows' head :=
  ⟨h.pos, h.size, h.base, fun root mem => grow root (h.root_fk root mem)⟩

structure Catalog where
  exports : List ExportRecord
  tables : TreeTables
  ids_nodup : (exports.map (·.id)).Nodup
  names_nodup : (exports.map (·.name)).Nodup
  heads : ∀ e ∈ exports, StoredHead tables.toTreeRows e.head

/-- Rust `CreateExport`. -/
structure CreateExport where
  name : ExportName
  sizeBytes : Nat
  blockSize : Nat
  engineKind : ExportEngineKind
  deriving DecidableEq, Repr

/-- Rust `CloneExport`. -/
structure CloneExport where
  source : ExportName
  destination : ExportName
  deriving DecidableEq, Repr

/-- Rust `PublishTreeUpdate`. -/
structure PublishTreeUpdate where
  exportId : ExportId
  expectedHead : ExportHead
  nextHead : ExportHead
  records : TreeRecordBatch
  deriving DecidableEq, Repr

/-- Rust `PublishTreeUpdateOutcome`. -/
inductive PublishTreeUpdateOutcome where
  | published (record : ExportRecord)
  | staleHead (record : ExportRecord)
  deriving DecidableEq, Repr

namespace Catalog

def empty : Catalog where
  exports := []
  tables := .empty
  ids_nodup := .nil
  names_nodup := .nil
  heads := by simp

variable (db : Catalog)

/-- Rust `fetch_export_record_by_id_in_tx`. -/
def find (id : ExportId) : Option ExportRecord := db.exports.find? (·.id = id)

/-- Rust `fetch_export_record_by_name_in_tx` and `fetch_by_name`. -/
def findName (name : ExportName) : Option ExportRecord := db.exports.find? (·.name = name)

def hasExport (id : ExportId) : Bool := (db.find id).isSome

/-- The statements that insert a row of `exports` and its row of `export_heads`. -/
def insertExport (record : ExportRecord) : CatalogRes Catalog :=
  if record.blockSize = 0 then violated "CHECK constraint failed: block_size > 0"
  else if fresh : ∀ e ∈ db.exports, e.id ≠ record.id ∧ e.name ≠ record.name then
    if stored : StoredHead db.tables.toTreeRows record.head then
      .ok {
        exports := db.exports ++ [record]
        tables := db.tables
        ids_nodup := by
          rw [List.map_append, List.map_singleton, ← List.concat_eq_append, List.nodup_concat]
          refine ⟨?_, db.ids_nodup⟩
          rintro mem
          obtain ⟨e, he, same⟩ := List.mem_map.1 mem
          exact (fresh e he).1 same
        names_nodup := by
          rw [List.map_append, List.map_singleton, ← List.concat_eq_append, List.nodup_concat]
          refine ⟨?_, db.names_nodup⟩
          rintro mem
          obtain ⟨e, he, same⟩ := List.mem_map.1 mem
          exact (fresh e he).2 same
        heads := by
          intro e mem
          rcases List.mem_append.1 mem with mem | mem
          · exact db.heads e mem
          · rw [List.mem_singleton.1 mem]
            exact stored }
    else violated "constraint of export_heads failed"
  else .error (.exportAlreadyExists record.name)

/-- Rust `SQLiteExportCatalog::create_export`. -/
def createExport (id : ExportId) (request : CreateExport) :
    CatalogRes (Catalog × ExportRecord) := do
  let sizeBytes ← u64ToI64 "size_bytes" request.sizeBytes
  let blockSize ← u64ToI64 "block_size" request.blockSize
  let head ← match request.engineKind with
    | .memory => ExportHead.memoryEmptyWithBase sizeBytes none 0
    | .simpleDurable =>
      ExportHead.simpleMutableTreeWithRootBaseAndFormat sizeBytes none 0 .bounded32V1
    | .walDurable => ExportHead.cowImmutableTreeWithRootAndFormat sizeBytes none 0 .bounded32V1
  let record := ⟨id, request.name, blockSize, request.engineKind, .active, head⟩
  let db ← db.insertExport record
  .ok (db, record)

/-- Rust `SQLiteExportCatalog::clone_export`. -/
def cloneExport (id : ExportId) (request : CloneExport) :
    CatalogRes (Catalog × ExportRecord × ExportRecord) :=
  match db.findName request.source with
  | none => .error (.exportNotFound request.source)
  | some source =>
    if source.state = .deleted then .error (.exportDeleted request.source)
    else if source.engineKind ≠ .walDurable then
      .error (.invalidField "source" "clone requires a wal_durable source")
    else match source.head with
    | .cowImmutableTree sizeBytes rootNodeId _ treeFormat =>
      match rootNodeId with
      | none => .error (.invalidField "source" "source committed snapshot is empty")
      | some root => do
        let blockSize ← u64ToI64 "block_size" source.blockSize
        let sizeBytes ← u64ToI64 "size_bytes" sizeBytes
        let destination := ⟨id, request.destination, blockSize, .walDurable, .active,
          .cowImmutableTree sizeBytes (some root) 0 treeFormat⟩
        let db ← db.insertExport destination
        .ok (db, source, destination)
    | _ => .error (.invalidField "source" "clone requires a cow_immutable_tree source head")

/-- The catalog with some exports changed in their state or their head. -/
def mapExports (tables : TreeTables) (f : ExportRecord → ExportRecord)
    (id_eq : ∀ e, (f e).id = e.id) (name_eq : ∀ e, (f e).name = e.name)
    (stored : ∀ e ∈ db.exports, StoredHead tables.toTreeRows (f e).head) : Catalog where
  exports := db.exports.map f
  tables := tables
  ids_nodup := by
    rw [List.map_map]
    simpa only [Function.comp_def, id_eq] using db.ids_nodup
  names_nodup := by
    rw [List.map_map]
    simpa only [Function.comp_def, name_eq] using db.names_nodup
  heads := by
    intro e mem
    obtain ⟨e', mem', rfl⟩ := List.mem_map.1 mem
    exact stored e' mem'

/-- Rust `SQLiteExportCatalog::delete_export`. -/
def deleteExport (name : ExportName) : CatalogRes Catalog :=
  match db.findName name with
  | none => .error (.exportNotFound name)
  | some record =>
    if record.state = .deleted then .error (.exportDeleted name)
    else .ok (db.mapExports db.tables
      (fun e => if e.id = record.id ∧ e.state = .active then { e with state := .deleted } else e)
      (fun e => by split_ifs <;> rfl) (fun e => by split_ifs <;> rfl)
      (fun e mem => by split_ifs <;> exact db.heads e mem))

/-- The guard of the `UPDATE` of a head. -/
def Guard (request : PublishTreeUpdate) (e : ExportRecord) : Prop :=
  e.id = request.exportId ∧ e.head.layoutKind = request.expectedHead.layoutKind ∧
    e.head.rootNodeId = request.expectedHead.rootNodeId ∧
    e.head.treeFormat = request.expectedHead.treeFormat ∧
    e.head.sizeBytes = request.expectedHead.sizeBytes ∧
    e.head.baseWalSeq = request.expectedHead.baseWalSeq

instance (request : PublishTreeUpdate) (e : ExportRecord) : Decidable (Guard request e) :=
  inferInstanceAs (Decidable (_ ∧ _))

/-- The conversions of the values that the `UPDATE` of a head binds. -/
def bindHeads (request : PublishTreeUpdate) : CatalogRes Unit := do
  let _ ← u64ToI64 "size_bytes" request.nextHead.sizeBytes
  let _ ← u64ToI64 "base_wal_seq" request.nextHead.baseWalSeq
  let _ ← u64ToI64 "size_bytes" request.expectedHead.sizeBytes
  let _ ← u64ToI64 "base_wal_seq" request.expectedHead.baseWalSeq
  .ok ()

/-- The part of `publish_tree_update` after the rows were inserted. -/
def updateHead (request : PublishTreeUpdate) (current : ExportRecord) (tables : TreeTables)
    (grow : ∀ n, (db.tables.nodes n).isSome → (tables.nodes n).isSome) :
    Catalog × CatalogRes PublishTreeUpdateOutcome :=
  match bindHeads request with
  | .error e => (db, .error e)
  | .ok () =>
    if ∀ e ∈ db.exports, ¬ Guard request e then (db, .ok (.staleHead current))
    else if stored : StoredHead tables.toTreeRows request.nextHead then
      (db.mapExports tables (fun e => if Guard request e then
        { e with head := request.nextHead } else e) (fun e => by split_ifs <;> rfl) (fun e =>
          by split_ifs <;> rfl)
        (fun e mem => by
          split_ifs
          · exact stored
          · exact (db.heads e mem).mono grow),
        .ok (.published { current with head := request.nextHead }))
    else (db, violated "constraint of export_heads failed")

/-- The part of `publish_tree_update` after the head was compared. -/
def publishRecords (request : PublishTreeUpdate) (current : ExportRecord) :
    (inserted : CatalogRes TreeTables) → (∀ t, inserted = .ok t → ∀ n,
      (db.tables.nodes n).isSome → (t.nodes n).isSome) →
      Catalog × CatalogRes PublishTreeUpdateOutcome
  | .error e, _ => (db, .error e)
  | .ok tables, grow => db.updateHead request current tables (grow tables rfl)

/-- Rust `SQLiteExportCatalog::publish_tree_update`. -/
def publishTreeUpdate (request : PublishTreeUpdate) :
    Catalog × CatalogRes PublishTreeUpdateOutcome :=
  match db.find request.exportId with
  | none => (db, .error (.database s!"export `{request.exportId}` not found"))
  | some current =>
    if current.state = .deleted then (db, .error (.exportDeleted current.name))
    else if current.head ≠ request.expectedHead then (db, .ok (.staleHead current))
    else db.publishRecords request current
      (db.tables.insertTreeRecords db.hasExport request.records) (by
        intro t run n
        have rows := TreeTables.insertTreeRecords_eq_ok run
        intro is
        rw [rows]
        exact TreeRows.foldl_setNode_isSome.2 (.inr is))

/-! ## What a call can do -/

variable {db : Catalog}

lemma find?_key_eq_some {α κ : Type} [DecidableEq κ] {key : α → κ} {l : List α}
    (nodup : (l.map key).Nodup) {k : κ} {a : α} :
    l.find? (fun x => key x = k) = some a ↔ a ∈ l ∧ key a = k := by
  constructor
  · intro found
    exact ⟨List.mem_of_find?_eq_some found, by simpa using List.find?_some found⟩
  · rintro ⟨mem, rfl⟩
    obtain ⟨a', found⟩ : ∃ a', l.find? (fun x => key x = key a) = some a' := by
      rw [← Option.isSome_iff_exists, List.find?_isSome]
      exact ⟨a, mem, by simp⟩
    have same : a' = a := List.inj_on_of_nodup_map nodup (List.mem_of_find?_eq_some found) mem
      (by simpa using List.find?_some found)
    rw [found, same]

lemma find_eq_some {id : ExportId} {e : ExportRecord} :
    db.find id = some e ↔ e ∈ db.exports ∧ e.id = id := find?_key_eq_some db.ids_nodup

lemma findName_eq_some {name : ExportName} {e : ExportRecord} :
    db.findName name = some e ↔ e ∈ db.exports ∧ e.name = name := find?_key_eq_some db.names_nodup

lemma guard_iff {request : PublishTreeUpdate} {current e : ExportRecord}
    (mem : current ∈ db.exports) (id : current.id = request.exportId)
    (head : current.head = request.expectedHead) (mem' : e ∈ db.exports) :
    Guard request e ↔ e.id = request.exportId := by
  refine ⟨fun h => h.1, fun same => ?_⟩
  have : e = current := List.inj_on_of_nodup_map db.ids_nodup mem' mem (same.trans id.symm)
  subst this
  exact ⟨id, by rw [head], by rw [head], by rw [head], by rw [head], by rw [head]⟩

/-- What is known after an outcome `Published`: the head was the expected one, all rows are there,
and the head of this export and no other is the next one. -/
structure Published (db db' : Catalog) (request : PublishTreeUpdate) (record : ExportRecord) :
    Prop where
  was : ∃ current, db.find request.exportId = some current ∧ current.state ≠ .deleted ∧
    current.head = request.expectedHead ∧ record = { current with head := request.nextHead }
  inserted : db.tables.insertTreeRecords db.hasExport request.records = .ok db'.tables
  exports : db'.exports = db.exports.map fun e =>
    if e.id = request.exportId then { e with head := request.nextHead } else e

lemma Published.rows {db' : Catalog} {request : PublishTreeUpdate} {record : ExportRecord}
    (h : db.Published db' request record) :
    db'.tables.toTreeRows = db.tables.toTreeRows.add request.records :=
  TreeTables.insertTreeRecords_eq_ok h.inserted

lemma Published.find_self {db' : Catalog} {request : PublishTreeUpdate} {record : ExportRecord}
    (h : db.Published db' request record) : db'.find request.exportId = some record := by
  obtain ⟨current, found, -, -, rfl⟩ := h.was
  obtain ⟨mem, id⟩ := find_eq_some.1 found
  refine find_eq_some.2 ⟨?_, id⟩
  rw [h.exports]
  exact List.mem_map.2 ⟨current, mem, by rw [if_pos id]⟩

lemma Published.find_other {db' : Catalog} {request : PublishTreeUpdate} {record : ExportRecord}
    (h : db.Published db' request record) {id : ExportId} (other : id ≠ request.exportId) :
    db'.find id = db.find id := by
  apply Option.ext
  intro e
  rw [find_eq_some, find_eq_some, h.exports, List.mem_map]
  constructor
  · rintro ⟨⟨e', mem, rfl⟩, rfl⟩
    split_ifs at other ⊢ with same
    · exact absurd same other
    · exact ⟨mem, rfl⟩
  · rintro ⟨mem, rfl⟩
    exact ⟨⟨e, mem, if_neg other⟩, rfl⟩

lemma updateHead_cases {request : PublishTreeUpdate} {current : ExportRecord} {tables : TreeTables}
    (found : db.find request.exportId = some current) (active : current.state ≠ .deleted)
    (head : current.head = request.expectedHead)
    (run : db.tables.insertTreeRecords db.hasExport request.records = .ok tables)
    (grow : ∀ n, (db.tables.nodes n).isSome → (tables.nodes n).isSome) :
    (∃ db' record, db.updateHead request current tables grow = (db', .ok (.published record)) ∧
      db.Published db' request record) ∨
    (∃ e, db.updateHead request current tables grow = (db, .error e)) ∧
      ¬ StoredHead tables.toTreeRows request.nextHead := by
  obtain ⟨mem, id⟩ := find_eq_some.1 found
  have guarded : ¬ ∀ e ∈ db.exports, ¬ Guard request e := by
    intro none
    exact none current mem ((guard_iff mem id head mem).2 id)
  have was := db.heads current mem
  rw [head] at was
  unfold updateHead
  by_cases stored : StoredHead tables.toTreeRows request.nextHead
  · have bound : bindHeads request = .ok () := by
      rw [bindHeads, u64ToI64_of_lt stored.size, u64ToI64_of_lt stored.base,
        u64ToI64_of_lt was.size, u64ToI64_of_lt was.base]
      rfl
    simp only [bound, if_neg guarded, dif_pos stored]
    refine .inl ⟨_, _, rfl, ⟨current, found, active, head, rfl⟩, run, ?_⟩
    refine List.map_congr_left fun e mem' => ?_
    simp only [guard_iff mem id head mem']
  · refine .inr ⟨?_, stored⟩
    cases bindHeads request with
    | error e => exact ⟨e, rfl⟩
    | ok _ =>
      simp only [if_neg guarded, dif_neg stored]
      exact ⟨_, rfl⟩

lemma publishRecords_cases {request : PublishTreeUpdate} {current : ExportRecord}
    {inserted : CatalogRes TreeTables} (found : db.find request.exportId = some current)
    (active : current.state ≠ .deleted) (head : current.head = request.expectedHead)
    (run : db.tables.insertTreeRecords db.hasExport request.records = inserted)
    (grow : ∀ t, inserted = .ok t → ∀ n, (db.tables.nodes n).isSome → (t.nodes n).isSome) :
    (∃ db' record, db.publishRecords request current inserted grow =
    (db', .ok (.published record)) ∧
      db.Published db' request record) ∨
    (∃ e, db.publishRecords request current inserted grow = (db, .error e)) ∧
      ∀ tables, inserted = .ok tables → ¬ StoredHead tables.toTreeRows request.nextHead := by
  cases inserted with
  | error e => exact .inr ⟨⟨e, rfl⟩, fun tables same => nomatch same⟩
  | ok tables =>
    rcases updateHead_cases found active head run (grow tables rfl) with h | ⟨h, not⟩
    · exact .inl h
    · refine .inr ⟨h, ?_⟩
      intro t same
      cases same
      exact not

lemma publishTreeUpdate_cases (db : Catalog) (request : PublishTreeUpdate) :
    (∃ db' record, db.publishTreeUpdate request = (db', .ok (.published record)) ∧
      db.Published db' request record) ∨
    (∃ e, db.publishTreeUpdate request = (db, .error e)) ∨
    ∃ current, db.publishTreeUpdate request = (db, .ok (.staleHead current)) ∧
      db.find request.exportId = some current ∧ current.head ≠ request.expectedHead := by
  unfold publishTreeUpdate
  cases found : db.find request.exportId with
  | none => exact .inr (.inl ⟨_, rfl⟩)
  | some current =>
    dsimp only
    by_cases deleted : current.state = .deleted
    · rw [if_pos deleted]
      exact .inr (.inl ⟨_, rfl⟩)
    rw [if_neg deleted]
    by_cases stale : current.head ≠ request.expectedHead
    · rw [if_pos stale]
      exact .inr (.inr ⟨current, rfl, rfl, stale⟩)
    rw [if_neg stale]
    rcases publishRecords_cases found deleted (not_not.1 stale) rfl _ with h | ⟨h, -⟩
    · exact .inl h
    · exact .inr (.inl h)

lemma publishTreeUpdate_of_accepts (request : PublishTreeUpdate) {current : ExportRecord}
    (found : db.find request.exportId = some current) (active : current.state ≠ .deleted)
    (head : current.head = request.expectedHead)
    (ok : TreeTables.Accepts db.hasExport db.tables.toTreeRows request.records)
    (stored : StoredHead (db.tables.toTreeRows.add request.records) request.nextHead) :
    ∃ db' record, db.publishTreeUpdate request = (db', .ok (.published record)) ∧
      db.Published db' request record := by
  obtain ⟨tables, run, rows⟩ := TreeTables.insertTreeRecords_of_accepts ok
  rw [← rows] at stored
  unfold publishTreeUpdate
  simp only [found, active, head, ne_eq, not_true_eq_false, if_false]
  rcases publishRecords_cases found active head rfl _ with h | ⟨-, not⟩
  · exact h
  · exact absurd stored (not tables run)

end Catalog

end NbdServer
