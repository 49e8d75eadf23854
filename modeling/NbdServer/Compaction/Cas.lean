import NbdServer.Compaction.Steps
import NbdServer.View.Updates

/-!
# Publication is a compare-and-swap

What holds in every run of `storeSystem`: the trees of all heads load, the WAL sequence of an export
grows with each publish, and of all compactions that were planned against one root at most one is
published.
-/

namespace NbdServer

open Lib TreeGeometry

/-! ## The invariant of a run -/

structure StoreInv (w : StoreWorld) : Prop where
  loads : ∀ e ∈ w.db.exports, HeadLoads w.stores.rows e.head
  current : ∀ e ∈ w.db.exports, ∀ root, e.cowRoot = some root → (e.id, root) ∈ w.roots
  roots : ∀ p ∈ w.roots, RootLoads w.stores.rows p.2
  compactions : ∀ c ∈ w.compactions, CompactionOk w.stores.rows c
  publications : ∀ p ∈ w.publications, p.snapshot.root.baseWalSeq < p.root.baseWalSeq ∧
    ∃ e root, w.db.find p.exportId = some e ∧ e.cowRoot = some root ∧ p.root.baseWalSeq ≤
      root.baseWalSeq
  ordered : w.publications.Pairwise fun p q => p.exportId = q.exportId →
    p.root.baseWalSeq ≤ q.snapshot.root.baseWalSeq

namespace StoreInv

variable {w w' : StoreWorld}

lemma new {db : Catalog} {blobs : Blobs}
    (loads : ∀ e ∈ db.exports, HeadLoads db.tables.toTreeRows e.head) :
    StoreInv (.new db blobs) where
  loads := loads
  current e mem root is := StoreWorld.mem_rootsOf.2 ⟨e, mem, is, rfl⟩
  roots := by
    rintro ⟨id, root⟩ mem
    obtain ⟨e, is, is_root, -⟩ := StoreWorld.mem_rootsOf.1 mem
    exact (loads e is).rootLoads (db.heads e is).size is_root
  compactions := by simp [StoreWorld.new]
  publications := by simp [StoreWorld.new]
  ordered := .nil

lemma withExport (inv : StoreInv w) {db : Catalog} {record : ExportRecord}
    (inserted : w.db.insertExport record = .ok db) (loads : HeadLoads w.stores.rows record.head) :
    StoreInv (w.withExport db record) := by
  obtain ⟨exports, tables, fresh, stored⟩ := Catalog.insertExport_eq_ok inserted
  have same : (w.withExport db record).stores.rows = w.stores.rows := by
    show db.tables.toTreeRows = w.db.tables.toTreeRows
    rw [tables]
  refine ⟨?_, ?_, ?_, ?_, ?_, inv.ordered⟩
  · intro e mem
    rw [same]
    have mem : e ∈ db.exports := mem
    rw [exports] at mem
    rcases List.mem_append.1 mem with mem | mem
    · exact inv.loads e mem
    · rw [List.mem_singleton.1 mem]
      exact loads
  · intro e mem root is_root
    have mem : e ∈ db.exports := mem
    rw [exports] at mem
    rcases List.mem_append.1 mem with mem | mem
    · exact List.mem_append_left _ (inv.current e mem root is_root)
    · exact List.mem_append_right _ (StoreWorld.mem_rootsOf.2 ⟨e, mem, is_root, rfl⟩)
  · rintro ⟨id, root⟩ mem
    rw [same]
    rcases List.mem_append.1 mem with mem | mem
    · exact inv.roots _ mem
    · obtain ⟨e, is, is_root, -⟩ := StoreWorld.mem_rootsOf.1 mem
      rw [List.mem_singleton.1 is] at is_root
      exact loads.rootLoads stored.size is_root
  · rw [same]
    exact inv.compactions
  · intro p mem
    obtain ⟨lt, e, root, found, rest⟩ := inv.publications p mem
    refine ⟨lt, e, root, ?_, rest⟩
    obtain ⟨is, id⟩ := Catalog.find_eq_some.1 found
    refine Catalog.find_eq_some.2 ⟨?_, id⟩
    show e ∈ db.exports
    rw [exports]
    exact List.mem_append_left _ is

lemma headLoads (inv : StoreInv w) {db : Catalog} {record : ExportRecord}
    (inserted : w.db.insertExport record = .ok db) (origin : NewHead w.db.exports record.head) :
    HeadLoads w.stores.rows record.head := by
  obtain ⟨-, -, -, stored⟩ := Catalog.insertExport_eq_ok inserted
  rcases origin with none | ⟨source, mem, size, root, base, format, is_source, is_head⟩
  · exact .of_none stored.pos stored.size none
  · have loads := inv.loads source mem
    rw [is_source] at loads
    rw [is_head]
    exact loads

lemma delete (inv : StoreInv w) {db : Catalog} {f : ExportRecord → ExportRecord}
    (tables : db.tables = w.db.tables) (exports : db.exports = w.db.exports.map f)
    (same : ∀ e, (f e).id = e.id ∧ (f e).head = e.head) : StoreInv { w with db := db } := by
  have rows : StoreWorld.stores { w with db := db } = w.stores := by
    rw [StoreWorld.stores, StoreWorld.stores, tables]
  have roots : ∀ e, (f e).cowRoot = e.cowRoot := by
    intro e
    rw [ExportRecord.cowRoot, (same e).2]
    rfl
  refine ⟨?_, ?_, ?_, ?_, ?_, inv.ordered⟩
  · intro e mem
    have mem : e ∈ db.exports := mem
    rw [exports] at mem
    obtain ⟨e', mem', rfl⟩ := List.mem_map.1 mem
    rw [rows, (same e').2]
    exact inv.loads e' mem'
  · intro e mem root is_root
    have mem : e ∈ db.exports := mem
    rw [exports] at mem
    obtain ⟨e', mem', rfl⟩ := List.mem_map.1 mem
    rw [(same e').1]
    exact inv.current e' mem' root ((roots e').symm.trans is_root)
  · rw [rows]
    exact inv.roots
  · rw [rows]
    exact inv.compactions
  · intro p mem
    obtain ⟨lt, e, root, found, is_root, le⟩ := inv.publications p mem
    obtain ⟨is, id⟩ := Catalog.find_eq_some.1 found
    refine ⟨lt, f e, root, Catalog.find_eq_some.2 ⟨?_, (same e).1.trans id⟩,
      (roots e).trans is_root, le⟩
    show f e ∈ db.exports
    rw [exports]
    exact List.mem_map_of_mem is

lemma start (inv : StoreInv w) {exportId : ExportId} {snapshot : CompactionSnapshot}
    (legal : (exportId, snapshot.root) ∈ w.roots) : StoreInv { w with
      compactions := w.compactions ++ [.start exportId snapshot w.db.tables w.blobs] } := by
  refine ⟨inv.loads, inv.current, inv.roots, ?_, inv.publications, inv.ordered⟩
  intro c mem
  rcases List.mem_append.1 mem with mem | mem
  · exact inv.compactions c mem
  · rw [List.mem_singleton.1 mem]
    unfold Compaction.start
    dsimp only
    split_ifs with nothing
    · exact ⟨.refl _, inv.roots _ legal, trivial⟩
    · refine ⟨.refl _, inv.roots _ legal, ?_, by simp⟩
      exact Nat.lt_of_not_le fun le => nothing (.inl le)

lemma move (inv : StoreInv w) {i : Nat} {c : Compaction} {phase : CompactionPhase} {blobs : Blobs}
    (found : w.compactions[i]? = some c) (moves : c.Moves w.stores phase blobs) :
    StoreInv { w.setPhase i c phase with blobs := blobs } := by
  refine ⟨inv.loads, inv.current, inv.roots, ?_, inv.publications, inv.ordered⟩
  intro c' mem
  rcases List.mem_or_eq_of_mem_set mem with mem | rfl
  · exact inv.compactions c' mem
  · have ok := inv.compactions c (List.mem_of_getElem? found)
    exact ⟨ok.later, ok.loads, ok.moves moves⟩

lemma headLoads_of_root {head : ExportHead} {root : RootSnapshot} {rows : TreeRows}
    (is_root : RootSnapshot.fromHead head = .ok root) (loads : RootLoads rows root) :
    HeadLoads rows head := by
  obtain ⟨size, rootNodeId, base, format, rfl, rfl⟩ := RootSnapshot.fromHead_eq_ok.1 is_root
  obtain ⟨format', g, leaves, is_format, built, -, holds⟩ := loads
  cases is_format
  intro format' same
  cases same
  exact ⟨g, built, fun idx valid => ⟨_, holds.loadLeaf_eq valid⟩⟩

lemma replace (inv : StoreInv w) {i : Nat} {c : Compaction} {db : Catalog}
    {chunks : List CowChunkRef} {root : RootSnapshot} (found : w.compactions[i]? = some c)
    (lt : c.snapshot.root.baseWalSeq < c.snapshot.targetWalSeq) (h : Replaces w.db db c chunks root)
    (result : Res CompactionResult) :
    StoreInv { w.setPhase i c (.done result) with
      db := db
      roots := w.roots ++ [(c.exportId, root)]
      publications := w.publications ++ [⟨c.exportId, c.snapshot, root⟩] } := by
  obtain ⟨⟨request, record, published, id, expected, is_next⟩, later, base, tree⟩ := h
  obtain ⟨format, g, -, leaves, -, holds, -⟩ := tree
  have loads : RootLoads db.tables.toTreeRows root := ⟨format, g, leaves, holds⟩
  obtain ⟨current, is_current, -, is_head, is_record⟩ := published.was
  obtain ⟨mem_current, id_current⟩ := Catalog.find_eq_some.1 is_current
  -- the export stood on the root of the snapshot
  have was : current.cowRoot = some c.snapshot.root := by
    rw [ExportRecord.cowRoot, is_head, expected]
    rfl
  have now : record.cowRoot = some root := by
    rw [is_record, ExportRecord.cowRoot, is_next]
    rfl
  have below : ∀ p ∈ w.publications, p.exportId = c.exportId →
      p.root.baseWalSeq ≤ c.snapshot.root.baseWalSeq := by
    intro p mem same
    obtain ⟨-, e, r, is, is_root, le⟩ := inv.publications p mem
    rw [same, ← id, is_current] at is
    cases is
    rw [was] at is_root
    cases is_root
    exact le
  have split : ∀ e ∈ db.exports, e = record ∨ e ∈ w.db.exports ∧ e.id ≠ c.exportId := by
    intro e mem
    rw [published.exports] at mem
    obtain ⟨e', mem', rfl⟩ := List.mem_map.1 mem
    by_cases same : e'.id = request.exportId
    · left
      rw [if_pos same, is_record, List.inj_on_of_nodup_map w.db.ids_nodup mem' mem_current
        (same.trans id_current.symm)]
    · rw [if_neg same]
      exact .inr ⟨mem', id ▸ same⟩
  refine ⟨?_, ?_, ?_, ?_, ?_, ?_⟩
  · intro e mem
    rcases split e mem with rfl | ⟨mem, -⟩
    · rw [is_record]
      exact headLoads_of_root is_next loads
    · exact (inv.loads e mem).later later
  · intro e mem r is_root
    rcases split e mem with rfl | ⟨mem, -⟩
    · rw [now] at is_root
      cases is_root
      refine List.mem_append_right _ (List.mem_singleton.2 ?_)
      rw [is_record, ← id, ← id_current]
    · exact List.mem_append_left _ (inv.current e mem r is_root)
  · intro p mem
    rcases List.mem_append.1 mem with mem | mem
    · exact (inv.roots p mem).later later
    · rw [List.mem_singleton.1 mem]
      exact loads
  · intro c' mem
    rcases List.mem_or_eq_of_mem_set mem with mem | rfl
    · exact (inv.compactions c' mem).mono later
    · obtain ⟨later', loads', -⟩ := inv.compactions c (List.mem_of_getElem? found)
      exact ⟨later'.trans later, loads', trivial⟩
  · intro p mem
    rcases List.mem_append.1 mem with mem | mem
    · by_cases same : p.exportId = c.exportId
      · refine ⟨(inv.publications p mem).1, record, root, ?_, now, ?_⟩
        · rw [same, ← id]
          exact published.find_self
        · rw [base]
          exact (below p mem same).trans lt.le
      · obtain ⟨up, e, r, is, rest⟩ := inv.publications p mem
        exact ⟨up, e, r, (published.find_other (by rw [id]; exact same)).trans is, rest⟩
    · rw [List.mem_singleton.1 mem]
      exact ⟨by rw [base]; exact lt, record, root, id ▸ published.find_self, now, le_rfl⟩
  · refine List.pairwise_append.2 ⟨inv.ordered, List.pairwise_singleton _ _, ?_⟩
    intro p mem q is same
    rw [List.mem_singleton.1 is] at same ⊢
    exact below p mem same

lemma step (inv : StoreInv w) (st : StoreStep w w') : StoreInv w' := by
  cases st with
  | same => exact inv
  | insert inserted origin => exact inv.withExport inserted (inv.headLoads inserted origin)
  | delete tables exports same => exact inv.delete tables exports same
  | start legal => exact inv.start legal
  | move found moves => exact inv.move found moves
  | publish found phase lt replaces _ => exact inv.replace found lt replaces _

lemma of_reachable {db : Catalog} {blobs : Blobs}
    (loads : ∀ e ∈ db.exports, HeadLoads db.tables.toTreeRows e.head)
    (reach : (storeSystem db blobs).Reachable w) : StoreInv w := by
  refine System.invariant _ ?_ ?_ reach
  · rintro _ rfl
    exact .new loads
  · rintro s e s' inv ⟨legal, st⟩
    exact inv.step (.of_next inv.compactions legal st)

end StoreInv

/-! ## What a step does to the heads -/

/-- The exports of a catalog are there in another one, and their heads are the same or have
grown. -/
def Catalog.HeadsGrow (db db' : Catalog) : Prop :=
  ∀ id old, db.find id = some old → ∃ new, db'.find id = some new ∧
    (new.head = old.head ∨ old.head.baseWalSeq < new.head.baseWalSeq)

lemma Catalog.HeadsGrow.refl (db : Catalog) : db.HeadsGrow db := fun _ old found =>
    ⟨old, found, .inl rfl⟩

lemma Catalog.HeadsGrow.insert {db db' : Catalog} {record : ExportRecord}
    (run : db.insertExport record = .ok db') : db.HeadsGrow db' := by
  intro id old found
  obtain ⟨mem, is⟩ := Catalog.find_eq_some.1 found
  refine ⟨old, Catalog.find_eq_some.2 ⟨?_, is⟩, .inl rfl⟩
  rw [(Catalog.insertExport_eq_ok run).1]
  exact List.mem_append_left _ mem

lemma Replaces.headsGrow {db db' : Catalog} {c : Compaction} {chunks : List CowChunkRef}
    {root : RootSnapshot} (h : Replaces db db' c chunks root)
    (lt : c.snapshot.root.baseWalSeq < c.snapshot.targetWalSeq) : db.HeadsGrow db' := by
  obtain ⟨⟨request, record, published, -, expected, is_next⟩, -, base, -⟩ := h
  intro id old found
  by_cases same : id = request.exportId
  · obtain ⟨current, is_current, -, is_head, is_record⟩ := published.was
    rw [same, is_current] at found
    cases found
    refine ⟨record, same ▸ published.find_self, .inr ?_⟩
    obtain ⟨_, _, base₁, _, is₁, root₁⟩ := RootSnapshot.fromHead_eq_ok.1 expected
    obtain ⟨_, _, base₂, _, is₂, root₂⟩ := RootSnapshot.fromHead_eq_ok.1 is_next
    rw [root₁, ← base, root₂] at lt
    rw [is_head, is₁, is_record]
    show _ < request.nextHead.baseWalSeq
    rw [is₂]
    exact lt
  · exact ⟨old, (published.find_other same).trans found, .inl rfl⟩

lemma StoreStep.headsGrow {w w' : StoreWorld} (st : StoreStep w w') : w.db.HeadsGrow w'.db := by
  cases st with
  | same => exact .refl _
  | insert inserted _ => exact .insert inserted
  | @delete db f tables exports same =>
    intro id old found
    obtain ⟨mem, is⟩ := Catalog.find_eq_some.1 found
    refine ⟨f old, Catalog.find_eq_some.2 ⟨?_, (same old).1.trans is⟩, .inl (same old).2⟩
    show f old ∈ db.exports
    rw [exports]
    exact List.mem_map_of_mem mem
  | start legal => exact .refl _
  | move found moves => exact .refl _
  | publish found phase lt replaces _ => exact replaces.headsGrow lt

lemma StoreWorld.next_publish {w : StoreWorld} {i : Nat} {c : Compaction} {chunks : ChunkImages}
    {refs : OrdMap Nat CowChunkRef} {seen : List TreeRows} {ids : Nat → NodeId}
    {shuffle : List TreeEdgeRecord → List TreeEdgeRecord} {db : Catalog}
    {result : Res CompactionResult} (found : w.compactions[i]? = some c)
    (phase : c.phase = .writing chunks [] refs seen)
    (run : c.publish chunks refs (atRead seen w.stores.rows) ids shuffle w.db = (db, result)) :
    w.next (.publish i ids shuffle false) =
      some ({ w.setPhase i c (.done result) with db := db }.record c result) := by
  rw [next, found, Option.bind_eq_bind, Option.bind_some, phase]
  dsimp only
  rw [run]
  rfl

lemma Compaction.publish_fst (c : Compaction) (chunks : ChunkImages) (refs : OrdMap Nat CowChunkRef)
    (rows : Nat → TreeRows) (ids : Nat → NodeId)
    (shuffle : List TreeEdgeRecord → List TreeEdgeRecord) (db : Catalog) :
    (c.publish chunks refs rows ids shuffle db).1 =
    (publishLazyCompaction rows ids shuffle c.exportId
      c.snapshot.root c.snapshot.targetWalSeq (refs.entries.map (·.2)) db).1 := rfl

lemma StoreWorld.record_same (w : StoreWorld) (c : Compaction) (result : Res CompactionResult) :
    (w.record c result).db = w.db ∧ (w.record c result).compactions = w.compactions := by
  unfold record
  split <;> exact ⟨rfl, rfl⟩

/-- The publish of a compaction that has written its blobs, in a run: it is published when the
export still has the root of its snapshot, and otherwise it is stale. -/
lemma StoreInv.publish_outcome {w w' : StoreWorld} (inv : StoreInv w) {i : Nat} {c : Compaction}
    {chunks : ChunkImages} {refs : OrdMap Nat CowChunkRef} {seen : List TreeRows}
    {ids : Nat → NodeId} {shuffle : List TreeEdgeRecord → List TreeEdgeRecord}
    {current : ExportRecord} (is : w.compactions[i]? = some c)
    (phase : c.phase = .writing chunks [] refs seen) (some_chunk : refs.entries ≠ [])
    (fits : c.snapshot.targetWalSeq < I64) (found : w.db.find c.exportId = some current)
    (active : current.state ≠ .deleted) (legal : w.Legal (.publish i ids shuffle false))
    (step : w.next (.publish i ids shuffle false) = some w') :
    w'.compactions[i]?.bind (·.outcome) =
      some (if current.cowRoot = some c.snapshot.root then .published else .stalePlan) := by
  have ok := inv.compactions c (List.mem_of_getElem? is)
  have written := ok.phase
  rw [Compaction.PhaseOk, phase] at written
  obtain ⟨-, -, refs_ok, rows⟩ := written
  have reads := StoreWorld.atRead_all ok.later rows
  obtain ⟨unused, perm⟩ := legal
  have there : i < w.compactions.length := (List.getElem?_eq_some_iff.1 is).1
  split_ifs with same
  · obtain ⟨db, format, run⟩ := @Compaction.publish_current c w.db chunks refs _ ids shuffle current
      ok.loads refs_ok reads ok.later unused perm some_chunk found active same fits
    rw [StoreWorld.next_publish is phase run] at step
    cases step
    rw [(StoreWorld.record_same ..).2]
    simp [StoreWorld.setPhase, there, Compaction.outcome, Compaction.result]
  · have run := @Compaction.publish_stale c w.db chunks refs _ ids shuffle current
      ok.loads refs_ok reads ok.later unused perm some_chunk found active same
    rw [StoreWorld.next_publish is phase run] at step
    cases step
    rw [(StoreWorld.record_same ..).2]
    simp [StoreWorld.setPhase, there, Compaction.outcome, Compaction.result]

/-- Catalog publication is an atomic compare-and-swap. In every run that starts with a catalog whose
trees load: a publish installs its rows and its head, or it changes nothing; a compaction is
published when its export still has the root that it was planned against, and it is stale otherwise;
of the compactions that were planned against one root at most one is published; each step leaves the
head of an export as it is or raises its WAL sequence; and the trees of all heads load. -/
theorem publication_compare_and_swap {db : Catalog} {blobs : Blobs} {w : StoreWorld}
    (loads : ∀ e ∈ db.exports, HeadLoads db.tables.toTreeRows e.head)
    (reach : (storeSystem db blobs).Reachable w) :
    (∀ request,
      (∃ db' record, w.db.publishTreeUpdate request = (db', .ok (.published record)) ∧
        db'.tables.toTreeRows = w.db.tables.toTreeRows.add request.records ∧
        db'.find request.exportId = some record ∧ record.head = request.nextHead ∧
        ∀ id, id ≠ request.exportId → db'.find id = w.db.find id) ∨
      ∃ outcome, w.db.publishTreeUpdate request = (w.db, outcome) ∧
        ∀ record, outcome ≠ .ok (.published record)) ∧
    (∀ i c chunks refs seen ids shuffle w' current, w.compactions[i]? = some c →
      c.phase = .writing chunks [] refs seen → refs.entries ≠ [] → c.snapshot.targetWalSeq < I64 →
      w.db.find c.exportId = some current → current.state ≠ .deleted →
      w.Legal (.publish i ids shuffle false) → w.next (.publish i ids shuffle false) = some w' →
      w'.compactions[i]?.bind (·.outcome) =
        some (if current.cowRoot = some c.snapshot.root then .published else .stalePlan)) ∧
    (w.publications.map fun p => (p.exportId, p.snapshot.root)).Nodup ∧
    (w.publications.Pairwise fun p q => p.exportId = q.exportId →
      p.root.baseWalSeq < q.root.baseWalSeq) ∧
    (∀ e w', w.Legal e → w.next e = some w' → w.db.HeadsGrow w'.db) ∧
    ∀ e ∈ w.db.exports, HeadLoads w.db.tables.toTreeRows e.head := by
  have inv := StoreInv.of_reachable loads reach
  refine ⟨?_, fun _ _ _ _ _ _ _ _ _ => inv.publish_outcome, ?_, ?_, fun e w' legal st =>
    (StoreStep.of_next inv.compactions legal st).headsGrow, inv.loads⟩
  · intro request
    rcases w.db.publishTreeUpdate_cases request with
      ⟨db', record, call, published⟩ | ⟨e, call⟩ | ⟨current, call, -⟩
    · obtain ⟨current, -, -, -, is_record⟩ := published.was
      exact .inl ⟨db', record, call, published.rows, published.find_self, by rw [is_record],
        fun id other => published.find_other other⟩
    · exact .inr ⟨_, call, fun record same => (by cases same)⟩
    · exact .inr ⟨_, call, fun record same => (by cases same)⟩
  · -- a second publish against the same root would come after a higher base
    refine List.pairwise_map.2 (inv.ordered.imp_of_mem ?_)
    intro p q mem _ up same
    obtain ⟨id, expected⟩ := Prod.mk.injEq .. ▸ same
    have le := up id
    have lt := (inv.publications p mem).1
    rw [← expected] at le
    omega
  · refine inv.ordered.imp_of_mem ?_
    intro p q _ mem up same
    exact (up same).trans_lt (inv.publications q mem).1

/-- `next` for the events that assume nothing of the environment. -/
def StoreWorld.nextLocal (w : StoreWorld) : StoreEvent → Option StoreWorld
  | .start .. => none
  | .publish .. => none
  | e => w.next e

lemma StoreWorld.nextLocal_legal {w w' : StoreWorld} {e : StoreEvent}
    (h : w.nextLocal e = some w') :
    w.Legal e ∧ w.next e = some w' := by
  cases e with
  | start exportId snapshot => cases h
  | publish i ids shuffle lost => cases h
  | _ => exact ⟨trivial, h⟩

def oneStore : StoreWorld :=
  ([.create 1 ⟨10, 8, 512, .walDurable⟩].foldlM StoreWorld.nextLocal
    (.new .empty fun _ => none)).getD (.new .empty fun _ => none)

lemma oneStore_reachable : (storeSystem .empty fun _ => none).Reachable oneStore :=
  .foldlM StoreWorld.nextLocal_legal (.init rfl)
    (show List.foldlM StoreWorld.nextLocal (.new .empty fun _ => none)
      [.create 1 ⟨10, 8, 512, .walDurable⟩] = some oneStore from rfl)

lemma ImagesOf.one_chunk {g : TreeGeometry} {old content : Nat → UInt8} {images : OrdMap Nat Buf}
    (h : ImagesOf g old content images) (small : g.sizeBytes ≤ TREE_CHUNK_BYTES) {x : Nat}
    (changed : content x ≠ old x) : ∃ data, images.entries = [(0, data)] := by
  have first : ∀ entry ∈ images.entries, entry.1 = 0 := by
    intro entry mem
    have valid : entry.1 * TREE_CHUNK_BYTES < g.sizeBytes :=
      (h.image entry.1 entry.2 (OrdMap.find_eq_some.2 mem)).1
    by_contra ne
    have := Nat.le_mul_of_pos_left TREE_CHUNK_BYTES (Nat.pos_of_ne_zero ne)
    omega
  cases is : images.entries with
  | nil =>
    have none : images.find (x / TREE_CHUNK_BYTES) = none := by
      rw [OrdMap.find, is]
      rfl
    exact absurd (h.rest x none) changed
  | cons entry rest =>
    have ordered := images.ordered
    rw [is] at ordered first
    cases rest with
    | nil => exact ⟨entry.2, by rw [← first entry List.mem_cons_self]⟩
    | cons other rest =>
      have lt := List.rel_of_pairwise_cons ordered List.mem_cons_self
      rw [first entry List.mem_cons_self, first other (by simp)] at lt
      exact absurd lt (Nat.lt_irrefl 0)

lemma StoreWorld.next_put {w : StoreWorld} {i idx : Nat} {c : Compaction} {chunks : ChunkImages}
    {data : Buf} {left : List (Nat × Buf)} {refs : OrdMap Nat CowChunkRef} {seen : List TreeRows}
    {draw : Nat → BlobKey} {blobs : Blobs} {key : BlobKey} (found : w.compactions[i]? = some c)
    (phase : c.phase = .writing chunks ((idx, data) :: left) refs seen)
    (run : w.blobs.putRandomBlob draw data = .ok (blobs, key)) :
    w.next (.put i draw) = some { w.setPhase i c (.writing chunks left
      (refs.insert idx ⟨idx, key, TREE_CHUNK_BYTES, rfl⟩) seen) with blobs := blobs } := by
  rw [next, found, Option.bind_eq_bind, Option.bind_some, phase]
  dsimp only
  rw [run]

/-- The stores with one more compaction of the first export. -/
def StoreWorld.withPhase (w : StoreWorld) (snapshot : CompactionSnapshot)
    (phase : CompactionPhase) : StoreWorld :=
  { w with compactions := w.compactions ++ [⟨1, snapshot, phase, w.db.tables, w.blobs⟩] }

lemma StoreWorld.withPhase_last (w : StoreWorld) (sn : CompactionSnapshot)
    (phase : CompactionPhase) : (w.withPhase sn phase).compactions[w.compactions.length]? =
      some ⟨1, sn, phase, w.db.tables, w.blobs⟩ :=
  List.getElem?_concat_length

lemma StoreWorld.setPhase_withPhase (w : StoreWorld) (sn : CompactionSnapshot)
    (phase phase' : CompactionPhase) : (w.withPhase sn phase).setPhase w.compactions.length
      ⟨1, sn, phase, w.db.tables, w.blobs⟩ phase' = w.withPhase sn phase' := by
  simp [setPhase, withPhase]

/-- The phase of a compaction of one chunk that has put its blob. -/
def CompactionPhase.oneBlob (chunks : ChunkImages) (key : BlobKey) : CompactionPhase :=
  .writing chunks [] (OrdMap.empty.insert 0 ⟨0, key, TREE_CHUNK_BYTES, rfl⟩) []

/-- A snapshot of a record of two bytes over a root without a tree. -/
structure CompactionSnapshot.OfTwoBytes (sn : CompactionSnapshot) : Prop where
  root : sn.root = .cowHead none 0 8 .bounded32V1
  target : sn.targetWalSeq = 1
  slices : sn.overlay.allSlices = [⟨1, 3, twoBytes, 0⟩]

section TwoBytes

variable {sn : CompactionSnapshot} (of : sn.OfTwoBytes) (w : StoreWorld)
include of

lemma CompactionSnapshot.OfTwoBytes.start :
    Compaction.start 1 sn w.db.tables w.blobs = ⟨1, sn, .imaging [], w.db.tables, w.blobs⟩ := by
  rw [Compaction.start, if_neg]
  rw [of.slices, of.target, of.root]
  rintro (le | empty)
  · cases le
  · cases empty

lemma CompactionSnapshot.OfTwoBytes.next (key : BlobKey) (free : w.blobs key = none) :
    ∃ chunks data,
      (w.withPhase sn (.imaging [])).next (.image w.compactions.length) =
        some (w.withPhase sn (.writing chunks [(0, data)] .empty [])) ∧
      (w.withPhase sn (.writing chunks [(0, data)] .empty [])).next
          (.put w.compactions.length fun _ => key) =
        some { w.withPhase sn (.oneBlob chunks key) with
          blobs := Function.update w.blobs key (some data) } := by
  obtain ⟨g, built⟩ : ∃ g, TreeGeometry.new .bounded32V1 8 = .ok g := ⟨_, rfl⟩
  have stored : StoredRoot w.stores sn.root g := by
    rw [of.root]
    exact ⟨⟨_, rfl, built⟩, fun idx _ => ⟨none, rfl, fun l mem => by cases mem⟩⟩
  have slice_ok : SliceOk sn.root.sizeBytes sn.root.baseWalSeq sn.targetWalSeq
      ⟨1, 3, twoBytes, 0⟩ := by
    rw [of.root, of.target]
    exact ⟨by decide, by decide, by decide, by decide, rfl, by decide⟩
  obtain ⟨chunks, run, images⟩ := applySlice_spec (fun k => Stores.Grows.refl w.stores) stored
    slice_ok (show ImagesOf g (w.stores.committed sn.root) (w.stores.committed sn.root)
      ChunkImages.new.images from ⟨fun idx data is => (by cases is), fun x _ => rfl⟩)
  obtain ⟨data, entries⟩ := images.one_chunk (x := 1)
    (by rw [stored.size_eq, of.root]; decide) (by
      rw [of.root]
      exact (by decide : (7 : UInt8) ≠ 0))
  have images : Compaction.images ⟨1, sn, .imaging [], w.db.tables, w.blobs⟩ (fun _ => w.stores) =
      .writing chunks [(0, data)] .empty [] := by
    rw [← entries, Compaction.images, of.slices, ChunkImages.applySlices, List.foldlM_cons, run]
    rfl
  have put : w.blobs.putRandomBlob (fun _ => key) data =
      .ok (Function.update w.blobs key (some data), key) := by
    show w.blobs.putFirst data (key :: _) = _
    rw [Blobs.putFirst, Blobs.putBlob, if_neg (by rw [free]; exact Bool.false_ne_true)]
  refine ⟨chunks, data, ?_, ?_⟩
  · rw [StoreWorld.next, w.withPhase_last, Option.bind_eq_bind, Option.bind_some]
    dsimp only
    rw [w.setPhase_withPhase]
    exact congrArg (fun phase => some (w.withPhase sn phase)) images
  · rw [StoreWorld.next_put (w.withPhase_last ..) rfl put, w.setPhase_withPhase]
    rfl

lemma CompactionSnapshot.OfTwoBytes.reaches
    (reach : (storeSystem .empty fun _ => none).Reachable w) (mem_roots : (1, sn.root) ∈ w.roots)
    (key : BlobKey) (free : w.blobs key = none) :
    ∃ chunks data, (storeSystem .empty fun _ => none).Reachable
      { w.withPhase sn (.oneBlob chunks key) with
        blobs := Function.update w.blobs key (some data) } := by
  obtain ⟨chunks, data, image, put⟩ := of.next w key free
  have started : (storeSystem .empty fun _ => none).Reachable
      (w.withPhase sn (.imaging [])) := by
    refine .step (l := StoreEvent.start 1 sn) reach ⟨mem_roots, ?_⟩
    rw [StoreWorld.next, of.start]
    rfl
  have imaged := started.step (l := StoreEvent.image w.compactions.length) ⟨trivial, image⟩
  exact ⟨chunks, data, imaged.step (l := StoreEvent.put w.compactions.length _) ⟨trivial, put⟩⟩

end TwoBytes

/-- Two compactions of the first export, both at their publish. -/
def twoCompactions (sn : CompactionSnapshot) (chunks chunks' : ChunkImages) (blobs blobs' : Blobs) :
    StoreWorld :=
  { oneStore with
    blobs := blobs'
    compactions := [⟨1, sn, .oneBlob chunks 0, oneStore.db.tables, oneStore.blobs⟩,
      ⟨1, sn, .oneBlob chunks' 1, oneStore.db.tables, blobs⟩] }

lemma twoCompactions_reachable : ∃ sn chunks chunks' blobs blobs',
    CompactionSnapshot.OfTwoBytes sn ∧ (storeSystem .empty fun _ => none).Reachable
      (twoCompactions sn chunks chunks' blobs blobs') := by
  have view : (snapshotBetween []).map (fun vw => vw.snapshots.map fun sn =>
      (sn.root, sn.targetWalSeq, sn.overlay.allSlices)) =
      some [(.cowHead none 0 8 .bounded32V1, 1, [⟨1, 3, twoBytes, 0⟩])] := rfl
  obtain ⟨vw, -, view⟩ := Option.map_eq_some_iff.1 view
  obtain ⟨sn, -, view⟩ := List.map_eq_singleton_iff.1 view
  simp only [Prod.mk.injEq] at view
  obtain ⟨is_root, target, slices⟩ := view
  have of : CompactionSnapshot.OfTwoBytes sn := ⟨is_root, target, slices⟩
  have mem_roots : (1, sn.root) ∈ oneStore.roots := by
    rw [is_root]
    exact List.mem_cons_self
  obtain ⟨chunks, data, first⟩ := of.reaches _ oneStore_reachable mem_roots 0 rfl
  obtain ⟨chunks', data', second⟩ := of.reaches _ first mem_roots 1 rfl
  exact ⟨sn, chunks, chunks', _, _, of, second⟩

/-- `publication_compare_and_swap` at two compactions of one root: the first one is published, and
then the second one is stale. -/
theorem publication_compare_and_swap_two_compactions : ∃ w w' w'' root,
    (storeSystem .empty fun _ => none).Reachable w ∧
    w.compactions.map (fun c => (c.exportId, c.snapshot.root)) = [(1, root), (1, root)] ∧
    w.next (.publish 0 id id false) = some w' ∧ w'.next (.publish 1 (· + 8) id false) = some w'' ∧
    w'.compactions[0]?.bind (·.outcome) = some .published ∧
    w''.compactions[1]?.bind (·.outcome) = some .stalePlan := by
  obtain ⟨sn, chunks, chunks', blobs, blobs', ⟨is_root, is_target, -⟩, reach⟩ :=
    twoCompactions_reachable
  obtain ⟨root, target, debt, overlay⟩ := sn
  dsimp only at is_root is_target
  subst is_root is_target
  have loads : ∀ e ∈ Catalog.empty.exports, HeadLoads Catalog.empty.tables.toTreeRows e.head := by
    simp [Catalog.empty]
  have perm : ∀ l : List TreeEdgeRecord, (id l).Perm l := .refl
  -- the first publish finds the root of both snapshots
  obtain ⟨current, found, is⟩ := Option.map_eq_some_iff.1
    (show (oneStore.db.find 1).map (fun e => (e.state, e.cowRoot)) =
      some (.active, some (.cowHead none 0 8 .bounded32V1)) from rfl)
  obtain ⟨active, same⟩ := Prod.mk.inj is
  obtain ⟨w', step, head, unused, second⟩ : ∃ w', StoreWorld.next (twoCompactions
      ⟨.cowHead none 0 8 .bounded32V1, 1, debt, overlay⟩ chunks chunks' blobs blobs')
        (.publish 0 id id false) = some w' ∧
      (w'.db.find 1).map (fun e => (e.state, e.cowRoot)) =
        some (.active, some (.cowHead (some 0) 1 8 .bounded32V1)) ∧
      FreshIds (· + 8) w'.stores.rows ∧
      w'.compactions[1]? = some ⟨1, ⟨.cowHead none 0 8 .bounded32V1, 1, debt, overlay⟩,
        .oneBlob chunks' 1, oneStore.db.tables, blobs⟩ := by
    refine ⟨_, StoreWorld.next_publish rfl rfl Prod.mk.eta.symm, ?_,
      ⟨add_left_injective 8, fun k => ?_⟩, ?_⟩
    · rw [(StoreWorld.record_same ..).1, Compaction.publish_fst]
      dsimp only [twoCompactions]
      rfl
    · rw [StoreWorld.stores, (StoreWorld.record_same ..).1, Compaction.publish_fst]
      dsimp only [twoCompactions]
      rfl
    · rw [(StoreWorld.record_same ..).2]
      rfl
  have legal : FreshIds id oneStore.stores.rows := ⟨Function.injective_id, fun k => rfl⟩
  obtain ⟨-, first, -⟩ := publication_compare_and_swap loads reach
  have published := first 0 _ chunks _ [] id id w' current rfl rfl (List.cons_ne_nil _ _)
    (by decide : 1 < I64) found (by rw [active]; decide) ⟨legal, perm⟩ step
  -- the second one finds the root of the first one
  obtain ⟨next, found', is'⟩ := Option.map_eq_some_iff.1 head
  obtain ⟨active', other⟩ := Prod.mk.inj is'
  have reach' : (storeSystem .empty fun _ => none).Reachable w' :=
    .step (l := StoreEvent.publish 0 id id false) reach ⟨⟨legal, perm⟩, step⟩
  obtain ⟨w'', step'⟩ : ∃ w'', w'.next (.publish 1 (· + 8) id false) = some w'' :=
    ⟨_, StoreWorld.next_publish second rfl Prod.mk.eta.symm⟩
  obtain ⟨-, later, -⟩ := publication_compare_and_swap loads reach'
  have stale := later 1 _ chunks' _ [] (· + 8) id w'' next second rfl (List.cons_ne_nil _ _)
    (by decide : 1 < I64) found' (by rw [active']; decide) ⟨unused, perm⟩ step'
  rw [if_pos same] at published
  rw [other, if_neg (fun same => by cases same)] at stale
  exact ⟨_, w', w'', _, reach, rfl, step, step', published, stale⟩

end NbdServer
