import NbdServer.Engines.Opening

/-!
# The runs of an export

Runs of an export over stores that it shares with all others (`exportSystem`): the steps of its
engine and of its compactions, those of the others on the stores, and at any time an opening or a
crash. The invariant (`WorldOk`) is that of the export and of its engine, if it is open. The others
can reach the export only through the stores, and there they change neither its root nor the trees
of the roots it has had.
-/

namespace NbdServer

open Lib Wal

/-- The start of a run: the stores are in use, but not by this export, which is not open. Its log
has the records above its root. -/
structure ExportWorld.Start (crc : Checksum) (target : Nat) (id : ExportId) (o : Origin)
    (w : ExportWorld) : Prop where
  header : SEGMENT_HEADER_LEN < target
  log : WalInv crc target w.wal
  room : Room w.wal
  engine : w.engine = none
  stores : ∃ db blobs, WellStored db blobs ∧ (storeSystem db blobs).Reachable w.store
  exported : ∃ e root, w.store.db.find id = some e ∧ e.cowRoot = some root ∧
    o = w.store.stores.originOf root ∧
    w.wal.pruneRequest ≤ root.baseWalSeq ∧ root.baseWalSeq ≤ w.wal.history.length ∧
    (∀ r ∈ w.wal.history, root.baseWalSeq < r.seq → r.range.start + r.range.len ≤ root.sizeBytes) ∧
    ∀ r, (id, r) ∈ w.store.roots → r = root
  idle : (∀ c ∈ w.store.compactions, c.exportId ≠ id) ∧ ∀ p ∈ w.store.publications, p.exportId ≠ id

/-- The runs of an export from a state. They are restricted in four ways. No file operation of the
log fails. A crash is a step only if the log can be opened after it. The other exports take steps on
the stores that create, clone or delete exports and compact WAL-durable ones, and none that write a
blob again. All frames of the log over its whole life take fewer than `2^64 - 2^35` bytes
(`Room`). -/
def exportSystem (crc : Checksum) (id : ExportId) (w₀ : ExportWorld) :
    System ExportWorld ExportEvent where
  init w := w = w₀
  step w e w' := w.Legal crc id e ∧ w.next crc id e = some w' ∧ Room w'.wal

lemma StoreWorld.next_kept {w w' : StoreWorld} {e : StoreEvent} {id : ExportId}
    (st : w.next e = some w') (other : ∀ sn, e ≠ .start id sn) : w.Kept id w' := by
  have same : w.Kept id w := fun c mem is => ⟨c, mem, is, rfl⟩
  have moved {i : Nat} {c : Compaction} (phase : CompactionPhase) (found : w.compactions[i]? =
    some c) :
      w.Kept id (w.setPhase i c phase) := by
    intro c' mem is
    rcases List.mem_or_eq_of_mem_set mem with mem | rfl
    · exact same c' mem is
    · exact ⟨c, List.mem_of_getElem? found, is, rfl⟩
  cases e with
  | start id' sn =>
    cases st
    intro c mem is
    rcases List.mem_append.1 mem with mem | mem
    · exact same c mem is
    · rw [List.mem_singleton.1 mem, (Compaction.start_of ..).1] at is
      exact absurd (by rw [is]) (other sn)
  | create _ _ | clone _ _ | delete _ =>
    rw [next] at st
    split at st <;> cases st <;> exact same
  | observe _ | image _ | stop _ _ =>
    obtain ⟨c, found, st⟩ := Option.bind_eq_some_iff.1 st
    split at st <;> cases st <;> exact moved _ found
  | put _ _ =>
    obtain ⟨c, found, st⟩ := Option.bind_eq_some_iff.1 st
    split at st
    · split at st <;> cases st <;> exact moved _ found
    · cases st
  | publish _ ids shuffle _ =>
    obtain ⟨c, found, st⟩ := Option.bind_eq_some_iff.1 st
    split at st
    · rename_i chunks refs seen phase
      cases run : c.publish chunks refs (atRead seen w.stores.rows) ids shuffle w.db with
      | mk db result =>
        rw [run] at st
        cases st
        unfold record
        split <;> exact moved _ found
    · cases st

def WorldOk (crc : Checksum) (target : Nat) (id : ExportId) (o : Origin) (w : ExportWorld) : Prop :=
  ∃ root, ExportOk crc target id o w.wal w.store root ∧ ∀ g, w.engine = some g →
    EngineOk id w.wal w.store root g

section

variable {crc : Checksum} {target : Nat} {id : ExportId} {o : Origin} {w w' : ExportWorld}

lemma ExportWorld.Start.ok (h : w.Start crc target id o) : WorldOk crc target id o w := by
  obtain ⟨db, blobs, well, reach⟩ := h.stores
  obtain ⟨e, root, found, is_root, rfl, pruned, base, inside, only⟩ := h.exported
  obtain ⟨store, content⟩ := ContentInv.of_reachable well reach
  refine ⟨root, ⟨h.header, h.log, h.room, store, content, ⟨e, found, is_root⟩, pruned, inside,
    fun r mem => ?_, fun c mem is => absurd is (h.idle.1 c mem), fun p mem is =>
      absurd is (h.idle.2 p mem)⟩, fun g is_open => ?_⟩
  · obtain rfl := only r mem
    exact ⟨⟨rfl, le_rfl, base,
      fun x _ => (congrFun (Origin.contentAt_base (w.store.stores.originOf r) _) x).symm⟩, .inr rfl⟩
  · rw [h.engine] at is_open
    cases is_open

namespace WorldOk

lemma openEngine_some {policy : CompactionPolicy} {cacheBytes : Nat} {g : WalDurableEngine}
    (opened : (w.openEngine crc id policy cacheBytes).map (·.1) = some g) :
    ∃ record, w.store.db.find id = some record ∧ record.state ≠ .deleted ∧ record.engineKind =
    .walDurable := by
  obtain ⟨⟨g', records⟩, opened, -⟩ := Option.map_eq_some_iff.1 opened
  unfold ExportWorld.openEngine at opened
  split at opened
  · rename_i record _ found
    split_ifs at opened with deleted
    refine ⟨record, found, deleted, by_contra fun kind => ?_⟩
    rw [WalDurableEngine.openWithCowTree, if_pos kind] at opened
    cases opened
  · cases opened

section

variable {root : RootSnapshot} (exported : ExportOk crc target id o w.wal w.store root)
include exported

lemma reopened :
    ∃ wal f, w.wal.wal.reopen crc = .ok wal f ∧ w.wal.logCall crc .reopen = { w.wal with
      wal := wal } ∧
      ExportOk crc target id o { w.wal with wal := wal } w.store root := by
  obtain ⟨wal, run, -, log⟩ := exported.log.reopen
  refine ⟨wal, _, run, by rw [WalWorld.logCall, run], ?_⟩
  exact exported.withWal (List.append_nil _).symm log exported.room exported.pruned fun r mem =>
    (by cases mem)

/-- An export that is not deleted is opened, and exactly the records above the root of the catalog
are replayed. -/
lemma openEngine_ok {record : ExportRecord} (found : w.store.db.find id = some record)
    (active : record.state ≠ .deleted) (kind : record.engineKind = .walDurable)
    (policy : CompactionPolicy) (cacheBytes : Nat) :
    ∃ g, w.openEngine crc id policy cacheBytes =
        some (g, recordsIn w.wal.history root.baseWalSeq w.wal.history.length) ∧
      EngineOk id (w.wal.logCall crc .reopen) w.store root g ∧ g.write = .free := by
  obtain ⟨wal, f, run, again, exported'⟩ := reopened exported
  obtain ⟨e, found', is_root⟩ := exported.head
  rw [found] at found'
  cases found'
  obtain ⟨g, opened, rest⟩ := openWithCowTree_ok exported' kind is_root policy cacheBytes
  refine ⟨g, ?_, by rw [again]; exact rest⟩
  unfold ExportWorld.openEngine
  rw [run, found]
  dsimp only
  rw [if_neg active, opened]
  rfl

lemma crashed (engine : ∀ g, w.engine = some g → EngineOk id w.wal w.store root g) {call : Call}
    {kept : List Effect} (legal : w.Legal crc id (.crash call kept))
    (st : w.next crc id (.crash call kept) = some w') (room : Room w'.wal) :
    ∃ extra, (extra = [] ∨ ∃ r, call.Writes w.wal.history.length r ∧ extra = [r]) ∧
      w'.wal.history = w.wal.history ++ extra ∧ w'.engine = none ∧ w'.store = w.store ∧
      ExportOk crc target id o w'.wal w'.store root := by
  rw [ExportWorld.next] at st
  split at st
  · cases st
  rename_i opened
  split at st
  · cases st
  rename_i loaded
  obtain ⟨in_flight, crash⟩ := legal
  obtain ⟨extra, is_extra, one, log⟩ := exported.log.crashed exported.header exported.room crash
    opened loaded
  rw [is_extra] at st
  cases st
  refine ⟨extra, one, rfl, rfl, rfl, exported.withWal rfl log room (max_le exported.pruned ?_)
    fun r mem => ?_⟩
  · cases call with
    | append request => exact Nat.zero_le _
    | prune seq =>
      rcases in_flight with zero | ⟨g, j, trigger, is_open, found⟩
      · rw [zero]
        exact Nat.zero_le _
      · have engine := engine g is_open
        exact le_trans (engine.calls j _ found) (exported.base_le (engine.uses _ .view))
  · rcases one with rfl | ⟨r', ⟨request, rfl, -, range, -⟩, rfl⟩
    · cases mem
    · rw [List.mem_singleton.1 mem, range]
      obtain ⟨g, offset, data, is_open, -, is_request⟩ := in_flight
      have engine := engine g is_open
      rw [engine.size_eq, (exported.roots _ engine.first).1.size_eq] at is_request
      have fits := exported.size_fits
      exact WalDurableEngine.writeRequest_inside (by omega) is_request

end

lemma step (ok : WorldOk crc target id o w) {e : ExportEvent} (legal : w.Legal crc id e)
    (st : w.next crc id e = some w') (room : Room w'.wal) : WorldOk crc target id o w' := by
  obtain ⟨root, exported, engine⟩ := ok
  cases e with
  | store e =>
    obtain ⟨store', run, rfl⟩ := Option.map_eq_some_iff.1 st
    have st := StoreStep.of_next exported.store.compactions legal.1 run
    have kept := StoreWorld.next_kept run legal.2
    obtain ⟨root', exported', is_head⟩ := exported.step st kept
    exact ⟨root', exported', fun g is_open => (engine g is_open).step exported st is_head kept⟩
  | engine e =>
    obtain ⟨g, is_open, st⟩ := Option.bind_eq_some_iff.1 st
    obtain ⟨s', run, st⟩ := Option.bind_eq_some_iff.1 st
    cases st
    have next := @StateOk.next crc target id o root ⟨g, w.wal, w.store⟩ s'
      ⟨exported, engine g is_open⟩ room e run
    refine ⟨root, next.exported, fun g' is => ?_⟩
    cases is
    exact next.engine
  | «open» policy cacheBytes =>
    cases st
    obtain ⟨wal, f, run, again, exported'⟩ := reopened exported
    refine ⟨root, by dsimp only; rw [again]; exact exported', fun g opened => ?_⟩
    obtain ⟨record, found, active, kind⟩ := openEngine_some opened
    obtain ⟨g', ran, ok, -⟩ := openEngine_ok exported found active kind policy cacheBytes
    dsimp only at opened
    rw [ran] at opened
    cases opened
    exact ok
  | crash call kept =>
    obtain ⟨extra, -, -, closed, -, exported'⟩ := crashed exported engine legal st room
    refine ⟨root, exported', fun g is_open => ?_⟩
    rw [closed] at is_open
    cases is_open

lemma of_reachable {w₀ : ExportWorld} (start : w₀.Start crc target id o)
    (reach : (exportSystem crc id w₀).Reachable w) : WorldOk crc target id o w := by
  induction reach with
  | init h =>
    cases h
    exact start.ok
  | step _ st ih => exact ih.step st.1 st.2.1 st.2.2

lemma state (ok : WorldOk crc target id o w) {g : WalDurableEngine} (is_open : w.engine = some g) :
    ∃ root, StateOk crc target id o root ⟨g, w.wal, w.store⟩ :=
  let ⟨root, exported, engine⟩ := ok
  ⟨root, exported, engine g is_open⟩

end WorldOk

end

end NbdServer
