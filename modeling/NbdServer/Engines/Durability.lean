import NbdServer.Engines.World

/-!
# What a WAL-durable export guarantees

Results about every run of an export over stores that it shares with all others, in which no file
operation of its log fails (`exportSystem`): the order of the sequences of its engine, its log and
the catalog (`sequence_order`), what reads return (`engine_reads_log_content`), and that an opening
shows the same content (`reopen_is_invisible`), also after a crash
(`crash_keeps_acknowledged_writes`).
-/

namespace NbdServer

open Lib Wal

variable {crc : Checksum} {target : Nat} {id : ExportId} {o : Origin} {w₀ w : ExportWorld}

/-! ## Sequences -/

namespace StateOk

variable {root : RootSnapshot} {s : EngineState} (ok : StateOk crc target id o root s)

include ok

lemma last_applied :
    s.engine.view.view.lastAppliedSeq + s.engine.write.pending.length = s.wal.history.length := by
  have log := congrArg List.length ok.engine.log
  have base := ok.first_at.base_le
  rw [recordsIn_length ok.exported.log.consecutive le_rfl, List.length_append] at log
  rw [ok.engine.view.last_eq]
  omega

lemma last_eq (idle : ∀ r, s.engine.write ≠ .appended r) :
    s.engine.view.view.lastAppliedSeq = s.wal.history.length := by
  have none : s.engine.write.pending = [] := by
    cases write : s.engine.write with
    | appended r => exact absurd write (idle r)
    | _ => rfl
  have last := ok.last_applied
  rwa [none] at last

lemma applied_eq : s.engine.view.applied =
    recordsIn s.wal.history s.engine.first.baseWalSeq s.engine.view.view.lastAppliedSeq := by
  rw [ok.engine.view.last_eq]
  exact (recordsIn_initial ok.exported.log.consecutive ok.first_at.base_le le_rfl
    ok.applied_initial).2

end StateOk

/-- In every state of a run, the sequences of an open export are in order: the log is pruned up to
the root of the view at most, the view does not stand above the root of the catalog, that root has
applied records only, and these are durable. They are all durable records, unless a write has just
appended one, and then this record is applied without an error. A view that is told of a published
root takes it. -/
theorem sequence_order (start : w₀.Start crc target id o)
    (reach : (exportSystem crc id w₀).Reachable w) {g : WalDurableEngine}
    (is_open : w.engine = some g) :
    ∃ record root, w.store.db.find id = some record ∧ record.cowRoot = some root ∧
      w.wal.bounds.prunedThrough ≤ g.view.view.root.baseWalSeq ∧
      g.view.view.root.baseWalSeq ≤ root.baseWalSeq ∧ root.baseWalSeq ≤ g.view.view.lastAppliedSeq ∧
      g.view.view.lastAppliedSeq ≤ w.wal.bounds.lastDurable ∧
      ((∀ r, g.write ≠ .appended r) → g.view.view.lastAppliedSeq = w.wal.bounds.lastDurable) ∧
      (∀ r, g.write = .appended r → r.seq = w.wal.bounds.lastDurable ∧
        r.seq = g.view.view.lastAppliedSeq + 1 ∧ (g.view.view.applyWalRecord r).2 = .ok ()) ∧
      ∀ j trigger new sn, g.calls[j]? = some ⟨trigger, .advancing new sn⟩ → g.compactionLock =
      some j ∧
        (g.view.view.advanceAfterCompaction new sn).2 = .ok () ∧
        (g.view.view.advanceAfterCompaction new sn).1.root = new := by
  obtain ⟨root, ok⟩ := (WorldOk.of_reachable start reach).state is_open
  obtain ⟨record, found, is_root⟩ := ok.exported.head
  obtain ⟨-, -, -, pruned, durable⟩ := ok.exported.log.bounds
  have engine := ok.engine
  have last : g.view.view.lastAppliedSeq + g.write.pending.length = w.wal.history.length :=
    ok.last_applied
  have durable : w.wal.bounds.lastDurable = w.wal.history.length := durable
  refine ⟨record, root, found, is_root, le_trans pruned engine.pruned,
    ok.exported.base_le (engine.uses _ .view), engine.head,
      by omega, fun idle => durable.symm ▸ ok.last_eq idle, fun r is_write => ?_,
    fun j trigger new sn is_call => ?_⟩
  · obtain ⟨-, seq, -, applied, -⟩ := ok.pending is_write
    have seq : r.seq = g.view.view.lastAppliedSeq + 1 := seq
    rw [is_write] at last
    have last : g.view.view.lastAppliedSeq + 1 = w.wal.history.length := last
    exact ⟨by omega, seq, applied⟩
  · have known := engine.calls j _ is_call
    obtain ⟨advanced, installed, -⟩ := ok.advance_known known
    exact ⟨known.1, advanced, installed⟩

/-- `next` for the events that assume nothing of the environment, as long as the log is small. -/
def ExportWorld.nextLocal (id : ExportId) (w : ExportWorld) (e : ExportEvent) :
    Option ExportWorld :=
  match e with
  | .store (.delete _) | .engine _ | .open .. =>
    (w.next crc32c id e).filter fun w' => Nat.ble (logBytes w'.wal.history) 1000
  | _ => none

lemma ExportWorld.nextLocal_legal {w w' : ExportWorld} {e : ExportEvent}
    (h : w.nextLocal id e = some w') :
    w.Legal crc32c id e ∧ w.next crc32c id e = some w' ∧ Room w'.wal := by
  have of_next (legal : w.Legal crc32c id e)
      (h : ((w.next crc32c id e).filter fun w' => Nat.ble (logBytes w'.wal.history) 1000) =
        some w') :
      w.Legal crc32c id e ∧ w.next crc32c id e = some w' ∧ Room w'.wal := by
    rw [Option.filter_eq_some_iff] at h
    have small := Nat.le_of_ble_eq_true h.2
    refine ⟨legal, h.1, ?_⟩
    unfold Room U64
    omega
  cases e with
  | engine _ | «open» _ _ => exact of_next trivial h
  | crash _ _ => cases h
  | store e =>
    cases e with
    | delete _ => exact of_next ⟨trivial, fun _ is => (by cases is)⟩ h
    | _ => cases h

def newExport : ExportWorld := ⟨oneStore, freshWorld, none⟩

def newOrigin : Origin := newExport.store.stores.originOf (.cowHead none 0 8 .bounded32V1)

lemma newExport_record : ∃ record, newExport.store.db.find 1 = some record ∧
    record.cowRoot = some (.cowHead none 0 8 .bounded32V1) ∧ record.state = .active ∧
    record.engineKind = .walDurable := by
  have facts : (newExport.store.db.find 1).map (fun e => (e.cowRoot, e.state, e.engineKind)) =
      some (some (.cowHead none 0 8 .bounded32V1), .active, .walDurable) := rfl
  obtain ⟨record, found, is⟩ := Option.map_eq_some_iff.1 facts
  simp only [Prod.mk.injEq] at is
  exact ⟨record, found, is⟩

lemma newExport_start : newExport.Start crc32c 25 1 newOrigin where
  header := by decide
  log := .init ⟨"wal", _, rfl, rfl, rfl⟩
  room := by
    show logBytes [] + 2 ^ 35 ≤ U64
    decide
  engine := rfl
  stores := ⟨_, _, wellStored_empty, oneStore_reachable⟩
  exported := by
    obtain ⟨record, found, is_root, -⟩ := newExport_record
    have roots : newExport.store.roots = [(1, .cowHead none 0 8 .bounded32V1)] := rfl
    refine ⟨record, _, found, is_root, rfl, Nat.le_refl _, Nat.zero_le _,
      fun r mem => (by cases mem), fun r mem => ?_⟩
    rw [roots, List.mem_singleton] at mem
    exact (Prod.mk.inj mem).2
  idle := ⟨fun c mem => (by cases mem), fun p mem => (by cases mem)⟩

def writtenExport : ExportWorld :=
  ([.open ⟨100, 200⟩ 64, .engine (.append 1 [7, 9]), .engine .apply, .engine .finishWrite].foldlM
    (ExportWorld.nextLocal 1) newExport).getD newExport

lemma writtenExport_reachable : (exportSystem crc32c 1 newExport).Reachable writtenExport :=
  .foldlM ExportWorld.nextLocal_legal (.init rfl)
    (show List.foldlM (ExportWorld.nextLocal 1) newExport [.open ⟨100, 200⟩ 64,
      .engine (.append 1 [7, 9]), .engine .apply, .engine .finishWrite] =
        some writtenExport from rfl)

lemma writtenExport_open : ∃ g, writtenExport.engine = some g ∧ g.sizeBytes = 8 ∧ g.write = .free ∧
    g.view.view.lastAppliedSeq = 1 := by
  have facts :
    writtenExport.engine.map (fun g => (g.sizeBytes, g.write, g.view.view.lastAppliedSeq)) =
      some (8, .free, 1) := rfl
  obtain ⟨g, is_open, is⟩ := Option.map_eq_some_iff.1 facts
  simp only [Prod.mk.injEq] at is
  exact ⟨g, is_open, is⟩

lemma compactingExport : ∃ w g sn, (exportSystem crc32c 1 newExport).Reachable w ∧
    w.wal.history = writtenExport.wal.history ∧ w.engine = some g ∧
    w.store = oneStore.withPhase sn (.imaging []) ∧ sn.OfTwoBytes ∧
    g.calls = [⟨.close, .compacting 0 sn⟩] ∧ g.write = .free ∧ g.view.view.lastAppliedSeq = 1 ∧
    g.view.view.root.baseWalSeq = 0 :=
  ⟨_, _, _, .foldlM ExportWorld.nextLocal_legal writtenExport_reachable
    (show List.foldlM (ExportWorld.nextLocal 1) writtenExport [.engine .close, .engine (.lock 0)] =
      some _ from rfl), rfl, rfl, rfl, ⟨rfl, rfl, rfl⟩, rfl, rfl, rfl, rfl⟩

lemma ExportWorld.reach_store (reach : (exportSystem crc id w₀).Reachable w) {e : StoreEvent}
    {store : StoreWorld} (legal : w.store.Legal e) (other : ∀ sn, e ≠ .start id sn)
    (st : w.store.next e = some store) (room : Room w.wal) :
    (exportSystem crc id w₀).Reachable { w with store := store } :=
  .step (l := ExportEvent.store e) reach ⟨⟨legal, other⟩, by rw [next, st]; rfl, room⟩

lemma ExportWorld.next_compacted {store : StoreWorld} {wal : WalWorld}
    {engine : Option WalDurableEngine} {g : WalDurableEngine} (is_open : engine = some g)
    {trigger : CompactionTrigger} {sn : CompactionSnapshot}
    (calls : g.calls = [⟨trigger, .compacting 0 sn⟩]) {c : Compaction} {n m : Nat}
    (is : store.compactions[0]? = some c) {root : RootSnapshot}
    (done : c.phase = .done (.ok (c.result n m .published (some root)))) :
    next crc id ⟨store, wal, engine⟩ (.engine (.compacted 0)) = some ⟨store, wal,
      some (g.setCall 0 ⟨trigger, .compacting 0 sn⟩ (.advancing root sn))⟩ := by
  simp only [next, is_open, Option.bind_eq_bind, Option.bind_some, EngineState.next,
    EngineState.compacted, calls, List.getElem?_cons_zero, is, done]
  rfl

lemma publishedExport : ∃ w g sn root, (exportSystem crc32c 1 newExport).Reachable w ∧
    w.wal.history = writtenExport.wal.history ∧ w.engine = some g ∧
    g.calls = [⟨.close, .advancing root sn⟩] ∧ g.write = .free ∧ g.view.view.lastAppliedSeq = 1 ∧
    g.view.view.root.baseWalSeq = 0 ∧ root.baseWalSeq = 1 ∧
    (w.store.db.find 1).map (fun e => (e.state, e.engineKind, e.cowRoot)) =
      some (.active, .walDurable, some (.cowHead (some 0) 1 8 .bounded32V1)) := by
  obtain ⟨w, g, sn, reach, log, is_open, store, of, calls, free, last, base⟩ := compactingExport
  obtain ⟨chunks, data, image, put⟩ := of.next oneStore 0 rfl
  obtain ⟨_, ⟨-, -, room, -⟩, -⟩ := WorldOk.of_reachable newExport_start reach
  have imaged := ExportWorld.reach_store reach (e := .image 0) trivial (fun _ => nofun)
    (by rw [store]; exact image) room
  have written := ExportWorld.reach_store imaged (e := .put 0 fun _ => 0) trivial (fun _ => nofun)
    put room
  -- the export still has the root of the snapshot
  obtain ⟨_, exported, -⟩ := WorldOk.of_reachable newExport_start written
  obtain ⟨later, loads, -, -, refs_ok, -⟩ := exported.store.compactions _ List.mem_cons_self
  obtain ⟨record, found, is_root, active, -⟩ := newExport_record
  have fresh : FreshIds id oneStore.stores.rows := ⟨Function.injective_id, fun k => rfl⟩
  obtain ⟨db, format, run⟩ := @Compaction.publish_current _ oneStore.db chunks _
    (fun _ => oneStore.stores.rows) id id _ loads refs_ok (fun _ => TreeRows.Later.refl _) later
      fresh
    (fun l => List.Perm.refl l) (List.cons_ne_nil _ _) found (by rw [active]; decide)
    (by rw [is_root, of.root]) (by rw [of.target]; decide)
  have published := ExportWorld.reach_store written (e := .publish 0 id id false)
    ⟨fresh, fun l => List.Perm.refl l⟩ (fun _ => nofun) (StoreWorld.next_publish rfl rfl run) room
  have db_eq := congrArg Prod.fst run
  rw [Compaction.publish_fst] at db_eq
  have told := published.step (l := ExportEvent.engine (.compacted 0))
    ⟨trivial, ExportWorld.next_compacted is_open calls rfl rfl, room⟩
  refine ⟨_, _, sn, .cowHead (some 0) sn.targetWalSeq sn.root.sizeBytes format, told, log, rfl, ?_,
    free, last, base, of.target, ?_⟩
  · rw [WalDurableEngine.setCall, calls]
    rfl
  · show (db.find 1).map _ = _
    obtain ⟨root, target, debt, overlay⟩ := sn
    obtain ⟨is_root, is_target, -⟩ := of
    dsimp only at is_root is_target db_eq
    subst is_root is_target
    rw [← db_eq]
    rfl

/-- `sequence_order` after the compaction was published: the view stands below the root of the
catalog, and will take it. -/
theorem sequence_order_published : ∃ w g sn root, (exportSystem crc32c 1 newExport).Reachable w ∧
    w.engine = some g ∧ g.calls = [⟨.close, .advancing root sn⟩] ∧
    g.view.view.root.baseWalSeq = 0 ∧ root.baseWalSeq = 1 ∧ g.view.view.lastAppliedSeq = 1 ∧
    w.wal.bounds.lastDurable = 1 ∧ g.compactionLock = some 0 ∧
    (g.view.view.advanceAfterCompaction root sn).2 = .ok () ∧
    (g.view.view.advanceAfterCompaction root sn).1.root = root := by
  obtain ⟨w, g, sn, root, reach, -, is_open, calls, free, last, base, new, -⟩ := publishedExport
  obtain ⟨_, _, -, -, -, -, -, -, all, -, advance⟩ := sequence_order newExport_start reach is_open
  obtain ⟨lock, ok, installed⟩ := advance 0 .close root sn (by rw [calls]; rfl)
  refine ⟨w, g, sn, root, reach, is_open, calls, base, new, last, ?_, lock, ok, installed⟩
  rw [← all fun r is => (by rw [free] at is; cases is), last]

/-! ## Reads -/

lemma readBlocks_ok {stores : Stores} {root : RootSnapshot} {g : TreeGeometry}
    (stored : StoredRoot stores root g) {misses : List ByteRange}
    (inside : ∀ m ∈ misses, m.start + m.len ≤ root.sizeBytes) :
    ∃ blocks, EngineState.readBlocks stores root misses = .ok blocks ∧
      List.Forall₂ (fun miss block => block.range = miss ∧ block.Holds (stores.committed root))
      misses blocks := by
  induction misses with
  | nil => exact ⟨[], rfl, .nil⟩
  | cons miss misses ih =>
    obtain ⟨block, run, range_eq, holds⟩ := stored.readCommitted (inside miss List.mem_cons_self)
    obtain ⟨blocks, rest, answers⟩ := ih fun m mem => inside m (List.mem_cons_of_mem _ mem)
    have check : ReadViewState.checkBlock miss block = .ok () := if_neg (not_not.2 range_eq)
    refine ⟨block :: blocks, ?_, .cons ⟨range_eq, holds⟩ answers⟩
    unfold EngineState.readBlocks
    rw [run]
    dsimp only
    rw [check, Res.ok_bind, rest, Res.ok_bind]

lemma StateOk.read_eq {root : RootSnapshot} {s : EngineState} (ok : StateOk crc target id o root s)
    (offset len : Nat) :
    s.read offset len =
      flatRead o.size (o.contentAt s.wal.history s.engine.view.view.lastAppliedSeq)
      (.new offset len) := by
  have fits := ok.exported.size_fits
  have first := ok.first_at
  have hs : o.size < U64 := by omega
  unfold EngineState.read
  rw [ok.engine.size_eq, first.size_eq]
  by_cases inside : (ByteRange.new offset len).start + (ByteRange.new offset len).len ≤ o.size
  · obtain ⟨done, pending, split, rep⟩ := ok.engine.view.view
    rw [first.size_eq] at rep
    obtain ⟨c, run, is_range, is_root, captured⟩ := rep.capture hs inside
    obtain ⟨tree, stored⟩ := ok.exported.content.roots _ (ok.engine.uses _ .view)
    have in_root : ∀ m ∈ c.treeMisses, m.start + m.len ≤ s.engine.view.view.root.sizeBytes := by
      intro m mem
      have upper := (captured.misses m mem).2.1
      have lower := captured.inside
      rw [rep.size_eq]
      omega
    obtain ⟨blocks, read, answers⟩ := readBlocks_ok stored in_root
    have answers : Answers s.store.stores.committed c blocks := by
      unfold Answers
      rw [is_root]
      exact answers
    obtain ⟨data, assembled, length, bytes⟩ := captured.assemble hs answers
    obtain ⟨state, finished, -⟩ := rep.finishRead fits captured answers
    rw [(validateRange_eq_ok hs).2 inside, Res.ok_bind, run, Res.ok_bind, is_root, read,
      Res.ok_bind, assembled, Res.ok_bind, finished, Res.ok_bind]
    refine (flatRead_eq_ok inside (is_range ▸ length) fun i lt => ?_).symm
    rw [is_range] at bytes
    rw [bytes i lt, ← split, ok.applied_eq, first.contentAfter ok.exported.log.consecutive ?_
      (by omega)]
    rw [ok.engine.view.last_eq]
    exact Nat.le_add_right _ _
  · rw [validateRange, validateRequestRange_eq hs, flatRead, if_neg inside, if_neg inside]
    rfl

lemma ExportWorld.read_eq {g : WalDurableEngine} (is_open : w.engine = some g) (offset len : Nat) :
    w.read offset len = some (EngineState.read ⟨g, w.wal, w.store⟩ offset len) := by
  rw [read, is_open]
  rfl

/-- In every state of a run, a read of an open export that nothing interrupts returns the bytes that
the export had at its origin, overwritten by the records of the log that the view has applied. A
read that was interrupted in any way returned the bytes of the moment of its capture, which were
those at a sequence of the log. -/
theorem engine_reads_log_content (start : w₀.Start crc target id o)
    (reach : (exportSystem crc id w₀).Reachable w) {g : WalDurableEngine}
    (is_open : w.engine = some g) :
    (∀ offset len, w.read offset len =
      some (flatRead o.size (o.contentAt w.wal.history g.view.view.lastAppliedSeq)
      (.new offset len))) ∧
    ∀ res ∈ g.view.results, res.range.start + res.range.len ≤ o.size →
      ∃ seq, g.first.baseWalSeq ≤ seq ∧ seq ≤ g.view.view.lastAppliedSeq ∧
        res.applied = recordsIn w.wal.history g.first.baseWalSeq seq ∧
        res.outcome = flatRead o.size (o.contentAt w.wal.history seq) res.range := by
  obtain ⟨root, ok⟩ := (WorldOk.of_reachable start reach).state is_open
  refine ⟨fun offset len => by
    rw [ExportWorld.read_eq is_open, ok.read_eq], fun res mem inside => ?_⟩
  have first : RootAt o w.wal.history w.store.stores.committed g.first := ok.first_at
  have cons : Consecutive 0 w.wal.history := ok.exported.log.consecutive
  have view : ViewInv w.store.stores.committed g.first g.view := ok.engine.view
  have initial : res.applied <+: g.view.applied := ok.engine.prefixes.results res mem
  have shorter := initial.length_le
  have last := view.last_eq
  obtain ⟨-, eq⟩ := recordsIn_initial cons first.base_le le_rfl (initial.trans ok.applied_initial)
  obtain ⟨-, data, outcome, length, bytes⟩ :=
    view.results res mem (by rw [first.size_eq]; exact inside)
  refine ⟨g.first.baseWalSeq + res.applied.length, Nat.le_add_right _ _, by omega, eq, ?_⟩
  rw [outcome]
  refine (flatRead_eq_ok inside length fun i lt => ?_).symm
  rw [bytes i lt, ← first.contentAfter cons (Nat.le_add_right _ _) (by omega)]
  exact congrArg
    (fun l => some (contentAfter (w.store.stores.committed g.first) l (res.range.start + i))) eq

/-- `engine_reads_log_content` at a read around the written byte. -/
theorem engine_reads_log_content_one_write : writtenExport.read 1 3 = some (.ok [7, 9, 0]) := by
  obtain ⟨g, is_open, -, -, last⟩ := writtenExport_open
  obtain ⟨reads, -⟩ := engine_reads_log_content newExport_start writtenExport_reachable is_open
  rw [reads, last]
  rfl

/-! ## Openings and crashes -/

lemma ExportOk.open_reads {root : RootSnapshot}
    (exported : ExportOk crc target id o w.wal w.store root) {record : ExportRecord}
    (found : w.store.db.find id = some record) (active : record.state ≠ .deleted)
    (kind : record.engineKind = .walDurable) (policy : CompactionPolicy) (cacheBytes : Nat) :
    ∃ w', w.next crc id (.open policy cacheBytes) = some w' ∧
      (w.openEngine crc id policy cacheBytes).map (·.2) =
        some (recordsIn w.wal.history root.baseWalSeq w.wal.history.length) ∧
      ∀ offset len, w'.read offset len =
        some (flatRead o.size (o.contentAt w.wal.history w.wal.history.length)
        (.new offset len)) := by
  obtain ⟨g, opened, engine, free⟩ := WorldOk.openEngine_ok exported found active kind policy
    cacheBytes
  obtain ⟨wal, f, run, again, exported'⟩ := WorldOk.reopened exported
  refine ⟨_, rfl, by rw [opened]; rfl, fun offset len => ?_⟩
  rw [again] at engine ⊢
  have ok : StateOk crc target id o root ⟨g, { w.wal with wal := wal }, w.store⟩ :=
    ⟨exported', engine⟩
  have last := ok.last_eq fun r is => (by rw [free] at is; cases is)
  have is_open : ((w.openEngine crc id policy cacheBytes).map (·.1)) = some g := by
    rw [opened]
    rfl
  rw [ExportWorld.read_eq is_open, ok.read_eq, last]

/-- In every state of a run, an export that is not deleted can be opened. Exactly the records above
the root of the catalog are replayed, and reads return all that the log has acknowledged. An export
that was open without a write in between shows the same before and after. -/
theorem reopen_is_invisible (start : w₀.Start crc target id o)
    (reach : (exportSystem crc id w₀).Reachable w) {record : ExportRecord} {root : RootSnapshot}
    (found : w.store.db.find id = some record) (is_root : record.cowRoot = some root)
    (active : record.state ≠ .deleted) (kind : record.engineKind = .walDurable)
    (policy : CompactionPolicy) (cacheBytes : Nat) :
    ∃ w', w.next crc id (.open policy cacheBytes) = some w' ∧
      (w.openEngine crc id policy cacheBytes).map (·.2) =
        some (recordsIn w.wal.history root.baseWalSeq w.wal.history.length) ∧
      (∀ offset len, w'.read offset len =
        some (flatRead o.size (o.contentAt w.wal.history w.wal.history.length) (.new offset len))) ∧
      ∀ g, w.engine = some g → (∀ r, g.write ≠ .appended r) →
        ∀ offset len, w'.read offset len = w.read offset len := by
  obtain ⟨root', exported, engine⟩ := WorldOk.of_reachable start reach
  obtain rfl := exported.root_eq found is_root
  obtain ⟨w', next, replayed, reads⟩ := exported.open_reads found active kind policy cacheBytes
  refine ⟨w', next, replayed, reads, fun g is_open idle offset len => ?_⟩
  have ok : StateOk crc target id o root ⟨g, w.wal, w.store⟩ := ⟨exported, engine g is_open⟩
  rw [reads, ExportWorld.read_eq is_open, ok.read_eq, ok.last_eq idle]

/-- `reopen_is_invisible` after the write, where its record is replayed, and after the compaction of
it was published, where nothing is. -/
theorem reopen_is_invisible_published :
    (writtenExport.openEngine crc32c 1 ⟨100, 200⟩ 64).map (fun e => e.2.map (·.data)) =
      some [[7, 9]] ∧
    ∃ w w', (exportSystem crc32c 1 newExport).Reachable w ∧
      w.next crc32c 1 (.open ⟨100, 200⟩ 64) = some w' ∧
      (w.openEngine crc32c 1 ⟨100, 200⟩ 64).map (·.2) = some [] ∧
      w'.read 1 3 = some (.ok [7, 9, 0]) ∧ w'.read 1 3 = w.read 1 3 := by
  constructor
  · obtain ⟨record, found, is_root, active, kind⟩ := newExport_record
    obtain ⟨-, -, replayed, -⟩ := reopen_is_invisible newExport_start writtenExport_reachable
      found is_root (by rw [active]; decide) kind ⟨100, 200⟩ 64
    have records := congrArg (Option.map (List.map WalRecord.data)) replayed
    rw [Option.map_map] at records
    exact records
  · obtain ⟨w, g, -, -, reach, log, is_open, -, free, -, -, -, exported⟩ := publishedExport
    obtain ⟨record, found, is⟩ := Option.map_eq_some_iff.1 exported
    simp only [Prod.mk.injEq] at is
    obtain ⟨active, kind, is_root⟩ := is
    obtain ⟨w', next, replayed, reads, same⟩ := reopen_is_invisible newExport_start reach found
      is_root (by rw [active]; decide) kind ⟨100, 200⟩ 64
    refine ⟨w, w', reach, next, ?_, ?_, same g is_open (fun r is => by rw [free] at is; cases is) 1
      3⟩
    · rw [replayed, log]
      rfl
    · rw [reads, log]
      rfl

/-- After a crash at any moment, an export that is not deleted can be opened if its log can (the
crash is then a step), and reads return all that the log had acknowledged before the crash. Only the
write whose append was in flight may show, too, and then the whole of it. -/
theorem crash_keeps_acknowledged_writes (start : w₀.Start crc target id o)
    (reach : (exportSystem crc id w₀).Reachable w) {call : Call} {kept : List Effect}
    {w' : ExportWorld} (crash : (exportSystem crc id w₀).step w (.crash call kept) w')
    {record : ExportRecord} (found : w.store.db.find id = some record)
    (active : record.state ≠ .deleted) (kind : record.engineKind = .walDurable)
    (policy : CompactionPolicy) (cacheBytes : Nat) :
    ∃ extra w'', (extra = [] ∨ ∃ r, call.Writes w.wal.history.length r ∧ extra = [r]) ∧
      w'.wal.history = w.wal.history ++ extra ∧ w'.next crc id (.open policy cacheBytes) =
      some w'' ∧
      ∀ offset len, w''.read offset len = some (flatRead o.size
        (contentAfter (o.contentAt w.wal.history w.wal.history.length) extra)
        (.new offset len)) := by
  obtain ⟨root, exported, engine⟩ := WorldOk.of_reachable start reach
  obtain ⟨legal, st, room⟩ := crash
  obtain ⟨extra, one, history, -, store, exported'⟩ := WorldOk.crashed exported engine legal st room
  obtain ⟨w'', next, -, reads⟩ := exported'.open_reads (store ▸ found) active kind policy cacheBytes
  refine ⟨extra, w'', one, history, next, fun offset len => ?_⟩
  have cons := exported'.log.consecutive
  have base := exported.root_at.origin_le.trans exported.root_at.base_le
  rw [reads]
  refine congrArg some (flatRead_congr fun x _ => ?_)
  rw [Origin.contentAt_later cons base
    (by rw [history, List.length_append]; exact Nat.le_add_right _ _)]
  rw [history] at cons ⊢
  rw [Origin.contentAt_append cons le_rfl, recordsIn_eq cons, List.take_length, List.drop_left]

/-- All effects of a second append reach the disk before a crash. -/
def keptEffects : List Effect :=
    (Call.run crc32c (.append (byteRequest 9)) writtenExport.wal.wal).files.log

def crashedExport : ExportWorld :=
  (writtenExport.next crc32c 1 (.crash (.append (byteRequest 9)) keptEffects)).getD newExport

lemma crashedExport_step :
    (exportSystem crc32c 1 newExport).step writtenExport
      (.crash (.append (byteRequest 9)) keptEffects) crashedExport := by
  have runs : (writtenExport.next crc32c 1
    (.crash (.append (byteRequest 9)) keptEffects)).isSome := by decide +kernel
  obtain ⟨w', run⟩ := Option.isSome_iff_exists.1 runs
  obtain ⟨g, is_open, size_eq, free, -⟩ := writtenExport_open
  refine ⟨⟨⟨g, 0, [9], is_open, free, by rw [size_eq]; rfl⟩, keptEffects, ?_, List.prefix_refl _,
    ?_⟩, ?_, ?_⟩
  · decide +kernel
  · have all : Survives (keptEffects ++ []) (keptEffects ++ []) :=
      Survives.append (.lost (by simp)) _
    rwa [List.append_nil] at all
  · rw [crashedExport, run, Option.getD_some]
  · show logBytes crashedExport.wal.history + 2 ^ 35 ≤ U64
    decide +kernel

/-- `crash_keeps_acknowledged_writes` after a crash that kept the whole record of the write in
flight. -/
theorem crash_keeps_acknowledged_writes_in_flight : ∃ w'',
    crashedExport.next crc32c 1 (.open ⟨100, 200⟩ 64) = some w'' ∧ w''.read 0 4 =
    some (.ok [9, 7, 9, 0]) := by
  obtain ⟨record, found, -, active, kind⟩ := newExport_record
  obtain ⟨extra, w'', -, history, next, reads⟩ := crash_keeps_acknowledged_writes newExport_start
    writtenExport_reachable crashedExport_step found (by rw [active]; decide) kind ⟨100, 200⟩ 64
  refine ⟨w'', next, ?_⟩
  have is_extra : extra = crashedExport.wal.history.drop 1 := by
    rw [history]
    rfl
  rw [reads, is_extra]
  exact congrArg some (by decide +kernel)

end NbdServer
