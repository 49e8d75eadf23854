import NbdServer.Engines.Refinement

/-!
# Clones

A clone and its source share the nodes and the blobs of the root at which it was cloned, and nothing
else. In every run the clone shows what that root has, overwritten by its own records
(`clone_is_isolated`). Two runs with the same steps of one of the two exports show the same there,
whatever the rest of the stores does (`clone_noninterference`). The reason is the same for every
export: the log, and how far it is applied, follow from its own steps (`track`).
-/

namespace NbdServer

open Lib Wal

variable {crc : Checksum} {target : Nat} {id : ExportId} {o : Origin} {w₀ w w' : ExportWorld}

/-! ## Two runs -/

/-- The steps of the export itself. Those of the stores are the others. -/
def ExportEvent.isOwn : ExportEvent → Bool
  | .store _ => false
  | _ => true

def ExportEvent.isCrash : ExportEvent → Bool
  | .crash .. => true
  | _ => false

/-- What is written, and how many records are not applied, after a step. -/
def track (size : Nat) (t : List (ByteRange × Buf) × Nat) :
    ExportEvent → List (ByteRange × Buf) × Nat
  | .engine (.append offset data) =>
    match WalDurableEngine.writeRequest size offset data with
    | .ok (some request) => (t.1 ++ [(request.range, request.data)], 1)
    | _ => t
  | .engine .apply | .open .. => (t.1, 0)
  | _ => t

/-- The log and the engine of an export are as tracked. -/
structure ExportWorld.Tracked (w : ExportWorld) (t : List (ByteRange × Buf) × Nat) : Prop where
  log : w.wal.history.map (fun r => (r.range, r.data)) = t.1
  pending : ∀ g, w.engine = some g → g.write.pending.length = t.2

section

variable {size offset : Nat} {data : Buf} {t : List (ByteRange × Buf) × Nat}

lemma track_append {request : WalRequest}
    (is_request : WalDurableEngine.writeRequest size offset data = .ok (some request)) :
    track size t (.engine (.append offset data)) = (t.1 ++ [(request.range, request.data)], 1) := by
  rw [track, is_request]

lemma track_refused
    (none : ∀ request, WalDurableEngine.writeRequest size offset data ≠ .ok (some request)) :
    track size t (.engine (.append offset data)) = t := by
  rw [track]
  split
  · rename_i request is_request
    exact absurd is_request (none request)
  · rfl

end

lemma track_own (size : Nat) (t : List (ByteRange × Buf) × Nat) (es : List ExportEvent) :
    (es.filter (·.isOwn)).foldl (track size) t = es.foldl (track size) t := by
  rw [List.foldl_filter]
  congr
  funext t e
  cases e <;> rfl

lemma track_no_append (size : Nat) (t : List (ByteRange × Buf) × Nat) {es : List ExportEvent}
    (none : ∀ e ∈ es, ∀ offset data, e ≠ .engine (.append offset data)) :
    (es.foldl (track size) t).1 = t.1 := by
  induction es generalizing t with
  | nil => rfl
  | cons e es ih =>
    rw [List.foldl_cons, ih _ fun e' mem => none e' (List.mem_cons_of_mem e mem)]
    cases e with
    | engine e =>
      cases e with
      | append offset data => exact absurd rfl (none _ List.mem_cons_self offset data)
      | _ => rfl
    | _ => rfl

lemma Consecutive.eq_of_written {first : Nat} {h h' : List WalRecord} (cons : Consecutive first h)
    (cons' : Consecutive first h')
    (same : h.map (fun r => (r.range, r.data)) = h'.map fun r => (r.range, r.data)) :
    h = h' := by
  have len : h.length = h'.length := by simpa using congrArg List.length same
  refine List.ext_getElem len fun i lt lt' => WalRecord.eq_iff.1 ⟨?_, ?_⟩
  · rw [cons i _ (List.getElem?_eq_getElem lt), cons' i _ (List.getElem?_eq_getElem lt')]
  · have at_i := congrArg (fun l => l[i]?) same
    simpa [lt, lt'] using at_i

namespace ExportWorld

lemma Tracked.exists (w : ExportWorld) : ∃ t, w.Tracked t :=
  ⟨(_, (w.engine.map (·.write.pending.length)).getD 0), rfl, fun g is_open => by rw [is_open]; rfl⟩

lemma Tracked.step {t : List (ByteRange × Buf) × Nat} (h : w.Tracked t)
    (ok : WorldOk crc target id o w) {e : ExportEvent} (step : (exportSystem crc id w₀).step w e w')
    (alive : e.isCrash = false) :
    w'.Tracked (track o.size t e) := by
  have st := step.2.1
  cases e with
  | crash call kept => cases alive
  | store e =>
    obtain ⟨store', -, rfl⟩ := Option.map_eq_some_iff.1 st
    exact ⟨h.log, h.pending⟩
  | «open» policy cacheBytes =>
    cases st
    obtain ⟨root, exported, -⟩ := ok
    obtain ⟨wal, f, run, again, -⟩ := WorldOk.reopened exported
    refine ⟨by dsimp only; rw [again]; exact h.log, fun g is_open => ?_⟩
    obtain ⟨record, found, active, kind⟩ := WorldOk.openEngine_some is_open
    obtain ⟨g', opened, -, free⟩ := WorldOk.openEngine_ok exported found active kind policy
      cacheBytes
    dsimp only at is_open
    rw [opened] at is_open
    cases is_open
    rw [free]
    rfl
  | engine e =>
    obtain ⟨g, is_open, st⟩ := Option.bind_eq_some_iff.1 st
    obtain ⟨s', run, made⟩ := Option.bind_eq_some_iff.1 st
    cases made
    obtain ⟨root, ok⟩ := ok.state is_open
    have pending := h.pending g is_open
    -- all events but an append and an apply leave the log and the write as they are
    by_cases is_append : ∃ offset data, e = .append offset data
    · obtain ⟨offset, data, rfl⟩ := is_append
      by_cases has : ∃ request, WalDurableEngine.writeRequest o.size offset data =
        .ok (some request)
      · obtain ⟨request, is_request⟩ := has
        obtain ⟨r, range, data_eq, history, engine⟩ := ok.append_some run is_request
        rw [track_append is_request]
        refine ⟨?_, fun g' is_open' => ?_⟩
        · rw [history, List.map_append, h.log, List.map_singleton, range, data_eq]
        · cases is_open'
          rw [engine]
          rfl
      · have same := ok.append_none run (not_exists.1 has)
        subst same
        rw [track_refused (not_exists.1 has)]
        exact ⟨h.log, fun g' is_open' => by cases is_open'; exact pending⟩
    · by_cases is_apply : e = .apply
      · subst is_apply
        obtain ⟨history, idle⟩ := EngineState.apply_idle run
        refine ⟨(congrArg _ history).trans h.log, fun g' is_open' => ?_⟩
        cases is_open'
        cases write : s'.engine.write with
        | appended r => exact absurd write (idle r)
        | _ => rfl
      · have unseen := ok.unseen run (fun offset data is => is_append ⟨offset, data, is⟩) is_apply
        have same : track o.size t (.engine e) = t := by
          cases e with
          | append offset data => exact absurd ⟨offset, data, rfl⟩ is_append
          | apply => exact absurd rfl is_apply
          | _ => rfl
        rw [same]
        refine ⟨(congrArg _ unseen.history).trans h.log, fun g' is_open' => ?_⟩
        cases is_open'
        rw [unseen.pending]
        exact pending

lemma Tracked.runs {t : List (ByteRange × Buf) × Nat} (h : w.Tracked t)
    (ok : WorldOk crc target id o w) {es : List ExportEvent}
    (run : (exportSystem crc id w₀).Runs w es w') (alive : ∀ e ∈ es, e.isCrash = false) :
    WorldOk crc target id o w' ∧ w'.Tracked (es.foldl (track o.size) t) := by
  induction run with
  | nil => exact ⟨ok, h⟩
  | concat _ st ih =>
    obtain ⟨ok, h⟩ := ih fun e mem => alive e (List.mem_append_left _ mem)
    rw [List.foldl_append]
    exact ⟨ok.step st.1 st.2.1 st.2.2,
      h.step ok st (alive _ (List.mem_append_right _ List.mem_cons_self))⟩

lemma Tracked.last_applied {t : List (ByteRange × Buf) × Nat} (h : w.Tracked t)
    {root : RootSnapshot} {g : WalDurableEngine}
    (ok : StateOk crc target id o root ⟨g, w.wal, w.store⟩) (is_open : w.engine = some g) :
    g.view.view.lastAppliedSeq = w.wal.history.length - t.2 := by
  have last : g.view.view.lastAppliedSeq + g.write.pending.length = w.wal.history.length :=
    ok.last_applied
  have pending := h.pending g is_open
  omega

/-- From now on, what an export shows follows from its own steps, if it does not crash: two runs
with the same ones end with the same content, whatever the stores do in between. -/
def Isolated (crc : Checksum) (id : ExportId) (w : ExportWorld) : Prop :=
  ∀ ⦃es es' w₁ w₂ g₁ g₂⦄, (exportSystem crc id w).Runs w es w₁ →
    (exportSystem crc id w).Runs w es' w₂ →
    es.filter (·.isOwn) = es'.filter (·.isOwn) → (∀ e ∈ es, e.isCrash = false) →
    w₁.engine = some g₁ → w₂.engine = some g₂ → ∀ offset len, w₁.read offset len =
      w₂.read offset len

lemma isolated (ok : WorldOk crc target id o w) : w.Isolated crc id := by
  intro es es' w₁ w₂ g₁ g₂ run run' same alive is_open is_open' offset len
  have alive' : ∀ e ∈ es', e.isCrash = false := by
    intro e mem
    cases crash : e.isCrash with
    | false => rfl
    | true =>
      have own : e.isOwn = true := by
        cases e with
        | store _ => cases crash
        | _ => rfl
      have mem : e ∈ es.filter (·.isOwn) := same ▸ List.mem_filter.2 ⟨mem, own⟩
      exact crash.symm.trans (alive e (List.mem_filter.1 mem).1)
  obtain ⟨t, tracked⟩ := Tracked.exists w
  obtain ⟨ok₁, tracked₁⟩ := tracked.runs ok run alive
  obtain ⟨ok₂, tracked₂⟩ := tracked.runs ok run' alive'
  rw [← track_own, same, track_own] at tracked₁
  obtain ⟨root₁, ok₁⟩ := ok₁.state is_open
  obtain ⟨root₂, ok₂⟩ := ok₂.state is_open'
  have log : w₁.wal.history = w₂.wal.history := ok₁.exported.log.consecutive.eq_of_written
    ok₂.exported.log.consecutive (tracked₁.log.trans tracked₂.log.symm)
  have last : g₁.view.view.lastAppliedSeq = g₂.view.view.lastAppliedSeq := by
    rw [tracked₁.last_applied ok₁ is_open, tracked₂.last_applied ok₂ is_open', log]
  rw [read_eq is_open, read_eq is_open', ok₁.read_eq, ok₂.read_eq, log, last]

end ExportWorld

/-! ## Clones -/

/-- The export with this id was just cloned from `source` over the stores `s`. The id was never
used, and the log is empty. -/
structure ExportWorld.Cloned (crc : Checksum) (target : Nat) (id : ExportId) (s : StoreWorld)
    (source : ExportRecord) (w : ExportWorld) : Prop where
  header : SEGMENT_HEADER_LEN < target
  log : WalInv crc target w.wal
  empty : w.wal.history = []
  unpruned : w.wal.pruneRequest = 0
  engine : w.engine = none
  stores : ∃ db blobs, WellStored db blobs ∧ (storeSystem db blobs).Reachable s
  made : ∃ request db record, s.db.cloneExport id request = .ok (db, source, record) ∧
    w.store = s.withExport db record
  unused : (∀ c ∈ s.compactions, c.exportId ≠ id) ∧ ∀ p ∈ s.roots, p.1 ≠ id

variable {s : StoreWorld} {source : ExportRecord}

lemma ExportWorld.Cloned.start (h : w.Cloned crc target id s source) :
    ∃ root, source.cowRoot = some root ∧
    w.Start crc target id ⟨0, root.sizeBytes, s.stores.committed root⟩ := by
  obtain ⟨db₀, blobs, well, stores⟩ := h.stores
  obtain ⟨request, db, record, cloned, is_store⟩ := h.made
  obtain ⟨inserted, is_id, -, size, rootNode, base, format, is_source, is_record⟩ :=
    Catalog.cloneExport_eq_ok cloned
  obtain ⟨exports, tables, fresh, -⟩ := Catalog.insertExport_eq_ok inserted
  have is_old : source.cowRoot = some (.cowHead (some rootNode) base size format) :=
    ExportRecord.cowRoot_eq_some.2 ⟨_, _, _, _, is_source, rfl⟩
  have is_new : record.cowRoot = some (.cowHead (some rootNode) 0 size format) :=
    ExportRecord.cowRoot_eq_some.2 ⟨_, _, _, _, is_record, rfl⟩
  have step : (storeSystem db₀ blobs).step s (.clone id request) (s.withExport db record) :=
    ⟨trivial, by rw [StoreWorld.next, cloned]⟩
  have found : (s.withExport db record).db.find id = some record := by
    refine Catalog.find_eq_some.2 ⟨?_, is_id⟩
    show record ∈ db.exports
    rw [exports]
    exact List.mem_append_right _ List.mem_cons_self
  have same_stores : (s.withExport db record).stores = s.stores := by
    show Stores.mk db.tables.toTreeRows s.blobs = ⟨s.db.tables.toTreeRows, s.blobs⟩
    rw [tables]
  refine ⟨_, is_old, h.header, h.log, ?_, h.engine,
    ⟨_, _, well, by rw [is_store]; exact stores.step step⟩,
      ⟨record, _, by rw [is_store]; exact found, is_new, by
        rw [is_store, same_stores]; rfl, h.unpruned.le, Nat.zero_le _, ?_, fun r mem => ?_⟩,
          by rw [is_store]; exact h.unused.1, fun p mem is => ?_⟩
  · show logBytes w.wal.history + 2 ^ 35 ≤ U64
    rw [h.empty]
    decide
  · rw [h.empty]
    exact fun r mem => (by cases mem)
  · rw [is_store] at mem
    rcases List.mem_append.1 mem with mem | mem
    · exact absurd rfl (h.unused.2 _ mem)
    · obtain ⟨e, is, is_root, -⟩ := StoreWorld.mem_rootsOf.1 mem
      rw [List.mem_singleton.1 is, is_new] at is_root
      exact (Option.some.inj is_root).symm
  · rw [is_store] at mem
    obtain ⟨-, e, -, found_e, -⟩ := (StoreInv.of_reachable well.loads stores).publications p mem
    obtain ⟨mem_e, is_e⟩ := Catalog.find_eq_some.1 found_e
    exact fresh e mem_e ((is_e.trans is).trans is_id.symm)

/-- A clone shows what its source had committed when it was cloned, overwritten by its own records,
in every later state of a run: nothing that is written to the source, compacted or deleted in
between changes it. -/
theorem clone_is_isolated (cloned : w₀.Cloned crc target id s source)
    (reach : (exportSystem crc id w₀).Reachable w) {g : WalDurableEngine}
    (is_open : w.engine = some g) :
    ∃ root, source.cowRoot = some root ∧ ∀ offset len, w.read offset len =
    some (flatRead root.sizeBytes
      (contentAfter (s.stores.committed root)
      (recordsIn w.wal.history 0 g.view.view.lastAppliedSeq)) (.new offset len)) := by
  obtain ⟨root, is_root, start⟩ := cloned.start
  obtain ⟨_, ok⟩ := (WorldOk.of_reachable start reach).state is_open
  refine ⟨root, is_root, fun offset len => ?_⟩
  rw [ExportWorld.read_eq is_open, ok.read_eq]
  rfl

/-- The catalog of an export of one chunk that was compacted once. -/
def compactedCatalog : Catalog :=
  match Catalog.empty.createExport 1 ⟨10, 8, 512, .walDurable⟩ with
  | .error _ => .empty
  | .ok (db, _) =>
    (publishLazyCompaction (fun _ => db.tables.toTreeRows) (fun k => k) (fun l => l) 1
      (.cowHead none 0 8 .bounded32V1) 1 [⟨0, 0, TREE_CHUNK_BYTES, rfl⟩] db).1

def compactedStores : StoreWorld :=
  .new compactedCatalog fun key => if key = 0 then some (List.replicate TREE_CHUNK_BYTES 7) else
    none

lemma compactedCatalog_loads {idx : Nat} {g : TreeGeometry}
    (built : TreeGeometry.new .bounded32V1 8 = .ok g) (valid : g.Valid idx) : ∃ leaf,
      LazyTreeMetadataReader.loadLeaf ⟨g, .cowImmutableTree, some 0⟩
        compactedCatalog.tables.toTreeRows idx =
        .ok (some leaf) ∧
      leaf.leafRef.storageKind = .immutableBlob ∧ leaf.leafRef.storageKey = 0 := by
  cases built
  have first : idx = 0 := by
    have : idx * TREE_CHUNK_BYTES < 8 := valid
    unfold TREE_CHUNK_BYTES at this
    omega
  subst first
  exact ⟨_, rfl, rfl, rfl⟩

lemma compactedStores_stored : WellStored compactedCatalog compactedStores.blobs := by
  have heads : compactedCatalog.exports.map (·.head) =
    [.cowImmutableTree 8 (some 0) 1 .bounded32V1] := rfl
  have only : ∀ e ∈ compactedCatalog.exports, e.head = .cowImmutableTree 8
      (some 0) 1 .bounded32V1 := by
    intro e mem
    have mem : e.head ∈ compactedCatalog.exports.map (·.head) := List.mem_map_of_mem mem
    rwa [heads, List.mem_singleton] at mem
  obtain ⟨g, built⟩ : ∃ g, TreeGeometry.new .bounded32V1 8 = .ok g := ⟨_, rfl⟩
  refine ⟨fun e mem => ?_, fun e mem root is_root => ⟨g, ?_⟩⟩
  · rw [only e mem]
    rintro format ⟨⟩
    refine ⟨g, built, fun idx valid => ?_⟩
    obtain ⟨leaf, load, -⟩ := compactedCatalog_loads built valid
    exact ⟨some leaf, load⟩
  · rw [ExportRecord.cowRoot, only e mem] at is_root
    cases is_root
    refine ⟨⟨.bounded32V1, rfl, built⟩, fun idx valid => ?_⟩
    obtain ⟨leaf, load, kind, key⟩ := compactedCatalog_loads built valid
    refine ⟨some leaf, load, fun l mem => ?_⟩
    cases mem
    exact ⟨kind, List.replicate TREE_CHUNK_BYTES 7, by rw [key]; rfl, List.length_replicate⟩

def clonedExport : ExportWorld :=
  match compactedStores.db.cloneExport 2 ⟨10, 11⟩ with
  | .ok (db, _, record) => ⟨compactedStores.withExport db record, freshWorld, none⟩
  | .error _ => newExport

lemma clonedExport_cloned : ∃ source, clonedExport.Cloned crc32c 25 2 compactedStores source ∧
    source.cowRoot = some (.cowHead (some 0) 1 8 .bounded32V1) := by
  have source_root : (compactedStores.db.cloneExport 2 ⟨10, 11⟩).toOption.map (·.2.1.cowRoot) =
      some (some (.cowHead (some 0) 1 8 .bounded32V1)) := rfl
  have roots : ∀ p ∈ compactedStores.roots, p.1 ≠ 2 := by decide +kernel
  rw [clonedExport]
  cases cloned : compactedStores.db.cloneExport 2 ⟨10, 11⟩ with
  | error fault =>
    rw [cloned] at source_root
    cases source_root
  | ok out =>
    rw [cloned] at source_root
    refine ⟨out.2.1, ⟨by decide, .init ⟨"wal", _, rfl, rfl, rfl⟩, rfl, rfl, rfl, ?_, ?_, ?_⟩,
      Option.some.inj source_root⟩
    · exact ⟨_, _, compactedStores_stored, .init rfl⟩
    · exact ⟨_, _, _, cloned, rfl⟩
    · exact ⟨fun c mem => (by cases mem), roots⟩

def writtenClone : ExportWorld :=
  ([.open ⟨100, 200⟩ 64, .engine (.append 0 [9]), .engine .apply].foldlM (ExportWorld.nextLocal 2)
    clonedExport).getD newExport

/-- `clone_is_isolated` after this write: the other bytes are those of the source. -/
theorem clone_is_isolated_written : writtenClone.read 0 4 = some (.ok [9, 7, 7, 7]) := by
  have reach : (exportSystem crc32c 2 clonedExport).Reachable writtenClone :=
    .foldlM ExportWorld.nextLocal_legal (.init rfl)
      (show List.foldlM (ExportWorld.nextLocal 2) clonedExport [.open ⟨100, 200⟩ 64,
        .engine (.append 0 [9]), .engine .apply] = some writtenClone from rfl)
  have facts : writtenClone.engine.map (·.view.view.lastAppliedSeq) = some 1 := rfl
  obtain ⟨g, is_open, last⟩ := Option.map_eq_some_iff.1 facts
  obtain ⟨source, cloned, is_root⟩ := clonedExport_cloned
  obtain ⟨root, is_old, reads⟩ := clone_is_isolated cloned reach is_open
  rw [is_root] at is_old
  cases is_old
  rw [reads, last]
  exact congrArg some (by decide +kernel)

/-- After a clone, what the clone shows follows from its own steps, and what its source shows from
those of the source: two runs that differ in anything else, such as writes to the other export, its
compactions or its deletion, end with the same content. Before it is written to, the clone shows the
committed tree of the source at the moment of the call, and none of the records of its log. -/
theorem clone_noninterference (cloned : w₀.Cloned crc target id s source) : w₀.Isolated crc id ∧
    (∀ ⦃v₀ v : ExportWorld⦄ ⦃target' : Nat⦄ ⦃o : Origin⦄, v₀.Start crc target' source.id o →
      (exportSystem crc source.id v₀).Reachable v → v.store = s →
      ExportWorld.Isolated crc source.id { v with store := w₀.store }) ∧
    ∃ root, source.cowRoot = some root ∧ ∀ ⦃es : List ExportEvent⦄ ⦃w g⦄,
      (exportSystem crc id w₀).Runs w₀ es w →
      (∀ e ∈ es, e.isCrash = false ∧ ∀ offset data, e ≠ .engine (.append offset data)) →
        w.engine = some g →
      ∀ offset len, w.read offset len =
        some (flatRead root.sizeBytes (s.stores.committed root) (.new offset len)) := by
  obtain ⟨root, is_root, start⟩ := cloned.start
  refine ⟨ExportWorld.isolated start.ok, ?_, root, is_root, ?_⟩
  · rintro v₀ v target' o from_start reach rfl
    obtain ⟨_, exported, -⟩ := WorldOk.of_reachable from_start reach
    obtain ⟨request, db, record, made, is_store⟩ := cloned.made
    have step : (exportSystem crc source.id v₀).step v (.store (.clone id request)) { v with
        store := w₀.store } := by
      refine ⟨⟨trivial, fun _ is => (by cases is)⟩, ?_, exported.room⟩
      rw [ExportWorld.next, StoreWorld.next, made, is_store]
      rfl
    exact ExportWorld.isolated (WorldOk.of_reachable from_start (reach.step step))
  · intro es w g run quiet is_open offset len
    have tracked : w₀.Tracked ([], 0) :=
      ⟨by rw [cloned.empty]; rfl, fun g is_open => (by
        rw [cloned.engine] at is_open; cases is_open)⟩
    obtain ⟨ok, tracked⟩ := tracked.runs start.ok run fun e mem => (quiet e mem).1
    obtain ⟨_, ok⟩ := ok.state is_open
    have history : w.wal.history = [] := by
      have log := tracked.log
      rw [track_no_append _ _ fun e mem => (quiet e mem).2] at log
      exact List.map_eq_nil_iff.1 log
    have last := tracked.last_applied ok is_open
    rw [history, List.length_nil, Nat.zero_sub] at last
    rw [ExportWorld.read_eq is_open, ok.read_eq, last, history]
    rfl

lemma clonedExport_runs (es : List ExportEvent) (states : List ExportState)
    (runs : (es.foldlM (ExportWorld.nextLocal 2) clonedExport).map (fun w =>
      (w.engine.isSome, w.store.db.exports.map (·.state))) = some (true, states)) :
    ∃ w g, (exportSystem crc32c 2 clonedExport).Runs clonedExport es w ∧ w.engine = some g ∧
      w.store.db.exports.map (·.state) = states := by
  obtain ⟨w, run, is⟩ := Option.map_eq_some_iff.1 runs
  obtain ⟨is_some, is_states⟩ := Prod.mk.inj is
  obtain ⟨g, is_open⟩ := Option.isSome_iff_exists.1 is_some
  exact ⟨w, g, .foldlM ExportWorld.nextLocal_legal run, is_open, is_states⟩

/-- `clone_noninterference` for the clone above: a write shows the same if the source was deleted
before it. Without the write, the clone shows the bytes of the source. -/
theorem clone_noninterference_deleted : ∃ w₁ w₂ w₃,
    (exportSystem crc32c 2 clonedExport).Runs clonedExport
      [.open ⟨100, 200⟩ 64, .engine (.append 0 [9]), .engine .apply] w₁ ∧
    (exportSystem crc32c 2 clonedExport).Runs clonedExport
      [.open ⟨100, 200⟩ 64, .store (.delete 10), .engine (.append 0 [9]), .engine .apply] w₂ ∧
    (exportSystem crc32c 2 clonedExport).Runs clonedExport [.open ⟨100, 200⟩ 64] w₃ ∧
    w₁.store.db.exports.map (·.state) = [.active, .active] ∧
    w₂.store.db.exports.map (·.state) = [.deleted, .active] ∧
    w₁.read 0 4 = w₂.read 0 4 ∧ w₃.read 0 4 = some (.ok [7, 7, 7, 7]) := by
  obtain ⟨w₁, g₁, run₁, is_open₁, states₁⟩ := clonedExport_runs
    [.open ⟨100, 200⟩ 64, .engine (.append 0 [9]), .engine .apply] [.active, .active] rfl
  obtain ⟨w₂, g₂, run₂, is_open₂, states₂⟩ := clonedExport_runs
    [.open ⟨100, 200⟩ 64, .store (.delete 10), .engine (.append 0 [9]), .engine .apply]
      [.deleted, .active] rfl
  obtain ⟨w₃, g₃, run₃, is_open₃, -⟩ := clonedExport_runs [.open ⟨100, 200⟩ 64] [.active, .active]
    rfl
  obtain ⟨source, cloned, is_root⟩ := clonedExport_cloned
  obtain ⟨isolated, -, root, is_old, reads⟩ := clone_noninterference cloned
  rw [is_root] at is_old
  cases is_old
  refine ⟨w₁, w₂, w₃, run₁, run₂, run₃, states₁, states₂, ?_, ?_⟩
  · exact isolated run₁ run₂ rfl (by simp [ExportEvent.isCrash]) is_open₁ is_open₂ 0 4
  · rw [reads run₃ (by simp [ExportEvent.isCrash]) is_open₃]
    exact congrArg some (by decide +kernel)

end NbdServer
