import NbdServer.Engines.Invariant

/-!
# Opening an engine

An engine is opened on the root of the catalog and the log of the export, and replays the records
above the root. All of them are applied (`replayRecords_ok`), so the opening succeeds and the new
engine has the invariant of one that has run since (`EngineOk.opened`). The log may have been left
by a crash: it has the acknowledged records then, and at most the record of the append that was in
flight (`WalInv.crashed`).
-/

namespace NbdServer

open Lib Wal

lemma Wal.WalInv.crashed {crc : Checksum} {target : Nat} {w : WalWorld} (inv : WalInv crc target w)
    (ht : SEGMENT_HEADER_LEN < target) (room : Room w) {c : Call} {kept : List Effect}
    (crash : Crash crc w c kept) {wal : LocalExportWal} {f f' : Files} {records : List WalRecord}
    (opened : LocalExportWal.open crc w.wal.segmentTargetBytes (filesAfter w kept) = .ok wal f)
    (loaded : loadRecords crc wal.files = .ok records f') :
    ∃ extra, records.filter (w.history.length < ·.seq) = extra ∧
      (extra = [] ∨ ∃ r, c.Writes w.history.length r ∧ extra = [r]) ∧
      WalInv crc target ⟨wal, w.history ++ extra, max w.pruneRequest c.pruneRequest⟩ := by
  rw [inv.target] at opened
  rcases inv.crash ht room crash with
    ⟨-, broken⟩ | ⟨-, p, segs, tail, extra, holds, bounded, le, eq, one⟩
  · have broken : Broken crc (filesAfter w kept).disk := broken
    obtain ⟨e, f'', failed⟩ := broken.open_error rfl target
    rw [failed] at opened
    cases opened
  · obtain ⟨wal', run, is_target, log, ready, load⟩ := holds.reopen target w.wal.files.dir
    rw [filesAfter, run] at opened
    cases opened
    rw [load] at loaded
    cases loaded
    obtain ⟨rest, cons⟩ := @filter_recovered _ extra p c inv.consecutive one
    refine ⟨extra, by
      rw [eq, rest], one, is_target, log ▸ synced_repairLast _ _, cons, p, segs, ready, ⟨?_, ?_⟩,
        bounded⟩
    · rw [eq, List.drop_append_of_le_length le]
    · rw [List.length_append]
      omega

section Replay

variable {committed : RootSnapshot → Nat → UInt8} {root : RootSnapshot}

lemma replayRecords_ok (hs : root.sizeBytes < U64) {v : ViewWorld} (inv : ViewInv committed root v)
    (debts : DebtInv v) {records : List WalRecord}
    (cons : Consecutive root.baseWalSeq (v.applied ++ records))
    (inside : ∀ r ∈ records, r.range.start + r.range.len ≤ root.sizeBytes)
    (total : payloadBytes (v.applied ++ records) < U64) :
    ∃ state, WalDurableEngine.replayRecords v.view records = .ok state ∧ state.root = v.view.root ∧
      ViewInv committed root { v with view := state, applied := v.applied ++ records } ∧
      DebtInv { v with view := state, applied := v.applied ++ records } := by
  induction records generalizing v with
  | nil =>
    refine ⟨v.view, rfl, rfl, ?_, ?_⟩
    · simpa only [List.append_nil] using inv
    · simpa only [List.append_nil] using debts
  | cons r records ih =>
    have split : v.applied ++ r :: records = v.applied ++ [r] ++ records := by
      rw [List.append_assoc]; rfl
    rw [split] at cons total ⊢
    have seq := cons.left _ r List.getElem?_concat_length
    have small : payloadBytes (v.applied ++ [r]) < U64 := by
      rw [payloadBytes_append] at total
      omega
    obtain ⟨applied, next⟩ := inv.apply_ok debts hs (inside r List.mem_cons_self) seq small
    obtain ⟨state, run, is_root, inv', debts'⟩ := @ih (v.withRecord r) (inv.apply hs next)
      (debts.apply inv hs next small) cons (fun r' mem => inside r' (List.mem_cons_of_mem _ mem))
        total
    refine ⟨state, ?_, is_root.trans (ReadViewState.applyWalRecord_root _ _), inv', debts'⟩
    unfold WalDurableEngine.replayRecords
    cases result : v.view.applyWalRecord r with
    | mk s outcome =>
      rw [result] at applied
      have applied : outcome = .ok () := applied
      subst applied
      have same : (v.withRecord r).view = s := by
        unfold ViewWorld.withRecord
        rw [result]
      rw [← same]
      exact run

end Replay

section Open

variable {crc : Checksum} {target : Nat} {id : ExportId} {o : Origin} {wal : WalWorld}
    {w : StoreWorld}
  {root : RootSnapshot}

lemma EngineOk.opened (exported : ExportOk crc target id o wal w root) (policy : CompactionPolicy)
    {state : ReadViewState} (is_root : state.root = root)
    (view : ViewInv w.stores.committed root
      ⟨state, recordsIn wal.history root.baseWalSeq wal.history.length, [], [],
      [], []⟩)
    (debts : DebtInv ⟨state, recordsIn wal.history root.baseWalSeq wal.history.length, [], [], [],
      []⟩) :
    EngineOk id wal w root
      ⟨root.sizeBytes, policy, ⟨state, recordsIn wal.history root.baseWalSeq wal.history.length,
      [], [], [], []⟩, .free, [], none, root⟩ := by
  have mem := exported.root_mem
  have base := exported.root_at.base_le
  have last : state.lastAppliedSeq = wal.history.length := by
    have last := view.last_eq
    dsimp only at last
    rw [last, recordsIn_length exported.log.consecutive le_rfl]
    omega
  refine ⟨⟨fun sn mem' => (by cases mem'), ?_, fun c mem' is => ?_, ?_⟩, rfl, mem, view, debts,
    ⟨fun r mem' => (by cases mem'), fun res mem' => (by cases mem')⟩, fun r used =>
      ?_, (List.append_nil _).symm,
    fun j call found => (by cases found)⟩
  · dsimp only
    rw [is_root]
    exact exported.pruned
  · dsimp only
    rw [last]
    exact (exported.compactions c mem' is).2.target_le
  · dsimp only
    rw [last]
    exact base
  · cases used with
    | view =>
      dsimp only
      rw [is_root]
      exact mem
    | read mem' | snapshot mem' | published mem' | publishedOf mem' => cases mem'

lemma openWithCowTree_ok (exported : ExportOk crc target id o wal w root) {record : ExportRecord}
    (kind : record.engineKind = .walDurable) (is_root : record.cowRoot = some root)
    (policy : CompactionPolicy) (cacheBytes : Nat) :
    ∃ g, WalDurableEngine.openWithCowTree crc record wal.wal policy cacheBytes =
        .ok (g, recordsIn wal.history root.baseWalSeq wal.history.length) ∧
      EngineOk id wal w root g ∧ g.write = .free := by
  obtain ⟨segs, ready, logs, bounded, durable⟩ := exported.log.bounds
  have root_at := exported.root_at
  have base := root_at.base_le
  have hs := exported.size_fits
  have cons := exported.log.consecutive
  have valid : validateReplayRange wal.wal.state.bounds root.baseWalSeq
      wal.wal.state.bounds.lastDurable = .ok () :=
    validateReplayRange_ok.2 ⟨bounded.trans exported.pruned, base.trans durable.ge, le_rfl⟩
  have replayed : outcome (replayAfter crc root.baseWalSeq wal.wal) =
      .ok (recordsIn wal.history root.baseWalSeq wal.history.length) := by
    have last : wal.wal.state.bounds.lastDurable = wal.history.length := durable
    show outcome (replayRange crc root.baseWalSeq wal.wal.state.bounds.lastDurable wal.wal) = _
    rw [ready.replayRange logs cons valid, last]
    rfl
  obtain ⟨state, run, same, view, debts⟩ := @replayRecords_ok w.stores.committed root
    (by rw [root_at.size_eq]; omega) (.new root cacheBytes)
    .new .new (recordsIn wal.history root.baseWalSeq wal.history.length)
      (recordsIn_consecutive cons base le_rfl)
    (fun r mem => by
      obtain ⟨in_log, above, -⟩ := mem_recordsIn.1 mem
      exact root_at.size_eq ▸ exported.inside r in_log (root_at.origin_le.trans_lt above))
    (exported.room.payloads List.filter_sublist)
  have run : WalDurableEngine.replayRecords (.new root cacheBytes)
    (recordsIn wal.history root.baseWalSeq wal.history.length) = .ok state := run
  obtain ⟨size, rootNodeId, base', format, is_head, is⟩ := ExportRecord.cowRoot_eq_some.1 is_root
  have head : WalDurableEngine.validateHeadCanOpen record.name record.head = .ok () := by
    rw [is_head]
    rfl
  have from_head : RootSnapshot.fromHead record.head = .ok root := by
    rw [is_head, is]
    rfl
  refine ⟨_, ?_, .opened exported policy same view debts, rfl⟩
  unfold WalDurableEngine.openWithCowTree
  rw [if_neg (not_not.2 kind), head, Res.ok_bind, from_head, Res.ok_bind, replayed, Res.ok_bind,
    run, Res.ok_bind]

end Open

end NbdServer
