import NbdServer.Engines.Durability

/-!
# A WAL-durable export as a flat array

Each step of a run of an export is a step of a flat array of bytes: either all reads stay as they
are, or the write in progress takes effect, as a whole (`steps_are_flat_writes`).
-/

namespace NbdServer

open Lib Wal

variable {crc : Checksum} {target : Nat} {id : ExportId} {o : Origin} {w₀ w w' : ExportWorld}

lemma contentAfter_singleton (base : Nat → UInt8) (r : WalRecord) (x : Nat) :
    contentAfter base [r] x = flatWrite base r.range.start r.data x := by
  by_cases has : r.range.Has x
  · have byte := WalRecord.byteAt_eq has
    rw [contentAfter, flat_of_some (r := r) (by simp [lastWriter, WalRecord.covers_iff.2 has]),
      flatWrite, if_pos has.1]
    rw [WalRecord.byteAt] at byte
    rw [byte, Option.getD_some]
  · rw [contentAfter, flat_of_none (by simp [lastWriter, WalRecord.covers, has]), flatWrite_outside]
    rw [r.data_len]
    unfold ByteRange.Has at has
    omega

/-- What reads can see is unchanged, and no write goes on. -/
structure EngineState.Unseen (s s' : EngineState) : Prop where
  first : s'.engine.first = s.engine.first
  applied : s'.engine.view.applied = s.engine.view.applied
  history : s'.wal.history = s.wal.history
  pending : s'.engine.write.pending = s.engine.write.pending

lemma EngineState.apply_idle {s s' : EngineState} (st : s.apply = some s') :
    s'.wal.history = s.wal.history ∧ ∀ r, s'.engine.write ≠ .appended r := by
  unfold apply at st
  split at st
  · obtain ⟨v, -, st⟩ := Option.bind_eq_some_iff.1 st
    cases st
    refine ⟨rfl, fun r => ?_⟩
    dsimp only [withEngine]
    split <;> simp
  · cases st

namespace StateOk

variable {root root' : RootSnapshot} {s s' : EngineState} (ok : StateOk crc target id o root s)

include ok

lemma unseen {e : EngineEvent} (st : s.next crc id e = some s')
    (no_append : ∀ offset data, e ≠ .append offset data) (no_apply : e ≠ .apply) : s.Unseen s' := by
  have view : ∀ {ve v}, s.engine.view.next ve = some v →
      (¬ ((∃ record, ve = .apply record) ∨ ve = .captureSnapshot ∨
          (∃ i newRoot, ve = .publish i newRoot) ∨ ∃ i, ve = .advance i)) →
              s.Unseen (s.withView v) := by
    intro ve v run reads
    exact ⟨rfl, ((ok.engine.view.quiet_or ok.first_fits run).resolve_right reads).applied, rfl, rfl⟩
  have same : s.Unseen s := ⟨rfl, rfl, rfl, rfl⟩
  cases e with
  | append offset data => exact absurd rfl (no_append offset data)
  | apply => exact absurd rfl no_apply
  | beginRead offset len =>
    rw [EngineState.next] at st
    split at st
    · cases st
      exact same
    · obtain ⟨v, run, rfl⟩ := Option.map_eq_some_iff.1 st
      exact view run (by simp)
  | treeRead i =>
    obtain ⟨r, -, st⟩ := Option.bind_eq_some_iff.1 st
    obtain ⟨miss, -, st⟩ := Option.bind_eq_some_iff.1 st
    split at st <;> obtain ⟨v, run, rfl⟩ := Option.map_eq_some_iff.1 st <;> exact view run (by simp)
  | finishRead i =>
    obtain ⟨v, run, rfl⟩ := Option.map_eq_some_iff.1 st
    exact view run (by simp)
  | tick =>
    cases st
    unfold EngineState.tick
    split_ifs <;> exact ⟨rfl, rfl, rfl, rfl⟩
  | close =>
    cases st
    unfold EngineState.close
    split <;> exact ⟨rfl, rfl, rfl, rfl⟩
  | finishWrite =>
    rw [EngineState.next, EngineState.finishWrite] at st
    split at st
    · rename_i is_write
      split_ifs at st <;> cases st <;> exact ⟨rfl, rfl, rfl, by rw [is_write]; rfl⟩
    · rename_i is_write
      split at st <;> cases st
      exact ⟨rfl, rfl, rfl, by rw [is_write]; rfl⟩
    · cases st
  | compacted j =>
    obtain ⟨call, -, st⟩ := Option.bind_eq_some_iff.1 st
    split at st
    · obtain ⟨c, -, st⟩ := Option.bind_eq_some_iff.1 st
      split at st <;> cases st
      unfold WalDurableEngine.afterCompaction
      split <;> exact ⟨rfl, rfl, rfl, rfl⟩
    · cases st
  | prune j =>
    obtain ⟨call, -, st⟩ := Option.bind_eq_some_iff.1 st
    split at st <;> cases st
    exact ⟨rfl, rfl, List.append_nil _, rfl⟩
  | lock j | check j | capture j | advance j | readHead j =>
    obtain ⟨call, -, st⟩ := Option.bind_eq_some_iff.1 st
    repeat' split at st
    all_goals cases st <;> exact ⟨rfl, rfl, rfl, rfl⟩

lemma append_some {offset : Nat} {data : Buf} {request : WalRequest}
    (st : s.append crc offset data = some s')
    (is_request : WalDurableEngine.writeRequest o.size offset data = .ok (some request)) :
    ∃ r, r.range = request.range ∧ r.data = request.data ∧
      s'.wal.history = s.wal.history ++ [r] ∧ s'.engine = { s.engine with
        write := .appended r } := by
  obtain ⟨r, run, range, data_eq, history⟩ :=
    ok.exported.log.append_ok ok.exported.header ok.exported.room request
  unfold EngineState.append at st
  rw [ok.size_eq, is_request] at st
  cases write : s.engine.write with
  | free =>
    rw [write] at st
    cases st
    exact ⟨r, range, data_eq, history, by dsimp only; rw [run]⟩
  | _ =>
    rw [write] at st
    cases st

/-- An append of an invalid or empty write changes nothing. -/
lemma append_none {offset : Nat} {data : Buf} (st : s.append crc offset data = some s')
    (none : ∀ request, WalDurableEngine.writeRequest o.size offset data ≠ .ok (some request)) :
    s' = s := by
  unfold EngineState.append at st
  rw [ok.size_eq] at st
  split at st <;> cases st
  · rename_i request is_request _
    exact absurd is_request (none request)
  · rfl

lemma kept_history {e : EngineEvent} (st : s.next crc id e = some s') (no_apply : e ≠ .apply) :
    s'.engine.first = s.engine.first ∧ s'.engine.view.applied = s.engine.view.applied ∧
      s.wal.history <+: s'.wal.history := by
  by_cases is_append : ∃ offset data, e = .append offset data
  · obtain ⟨offset, data, rfl⟩ := is_append
    by_cases has : ∃ request, WalDurableEngine.writeRequest o.size offset data = .ok (some request)
    · obtain ⟨request, is_request⟩ := has
      obtain ⟨r, -, -, history, engine⟩ := ok.append_some st is_request
      rw [engine, history]
      exact ⟨rfl, rfl, List.prefix_append _ _⟩
    · rw [ok.append_none st (not_exists.1 has)]
      exact ⟨rfl, rfl, List.prefix_refl _⟩
  · obtain ⟨first, applied, history, -⟩ :=
      ok.unseen st (fun offset data is => is_append ⟨offset, data, is⟩) no_apply
    exact ⟨first, applied, history ▸ List.prefix_refl _⟩

lemma read_unseen (ok' : StateOk crc target id o root' s')
    (first : s'.engine.first = s.engine.first)
    (applied : s'.engine.view.applied = s.engine.view.applied)
    (history : s.wal.history <+: s'.wal.history) (offset len : Nat) :
    s'.read offset len = s.read offset len := by
  have last : s'.engine.view.view.lastAppliedSeq = s.engine.view.view.lastAppliedSeq := by
    rw [ok'.engine.view.last_eq, ok.engine.view.last_eq, first, applied]
  obtain ⟨more, longer⟩ := history
  have cons := ok'.exported.log.consecutive
  rw [← longer] at cons
  have le := ok.last_applied
  rw [ok.read_eq, ok'.read_eq, last, ← longer, Origin.contentAt_append cons (by omega)]

lemma content_written {r : WalRecord} (is_write : s.engine.write = .appended r)
    (range : ByteRange) :
    flatRead o.size (o.contentAt s.wal.history s.wal.history.length) range =
    flatRead o.size (flatWrite
      (o.contentAt s.wal.history s.engine.view.view.lastAppliedSeq) r.range.start r.data)
      range := by
  have cons := ok.exported.log.consecutive
  have le := ok.last_applied
  have base := ok.engine.view.last_eq
  have origin := ok.first_at.origin_le
  have only : recordsIn s.wal.history s.engine.view.view.lastAppliedSeq s.wal.history.length =
      [r] := by
    obtain ⟨log, -⟩ := ok.pending is_write
    rw [ok.applied_eq, recordsIn_split cons (b := s.engine.view.view.lastAppliedSeq) (by omega)
      (by omega)] at log
    exact List.append_cancel_left log
  refine flatRead_congr fun x _ => ?_
  rw [Origin.contentAt_later cons (a := s.engine.view.view.lastAppliedSeq) (by omega) (by omega),
    only, contentAfter_singleton]

end StateOk

/-- The steps that apply or replay the record of a write in progress. -/
def ExportEvent.Applies (e : ExportEvent) : Prop := e = .engine .apply ∨ ∃ policy cacheBytes,
    e = .open policy cacheBytes

/-- In every run, each step of an open export is one of a flat array. A write in progress takes
effect as a whole, when its record is applied or replayed, and changes exactly its bytes. All other
steps, of reads, writes, compactions, prunings and other exports, and all other openings leave every
byte as it is. -/
theorem steps_are_flat_writes (start : w₀.Start crc target id o)
    (reach : (exportSystem crc id w₀).Reachable w) {e : ExportEvent}
    (step : (exportSystem crc id w₀).step w e w') {g g' : WalDurableEngine}
    (is_open : w.engine = some g) (is_open' : w'.engine = some g') (offset len : Nat) :
    (∀ r, g.write = .appended r → e.Applies → w'.read offset len = some (flatRead o.size
      (flatWrite (o.contentAt w.wal.history g.view.view.lastAppliedSeq) r.range.start r.data)
      (.new offset len))) ∧
    ((∀ r, g.write ≠ .appended r) ∨ ¬ e.Applies → w'.read offset len = w.read offset len) := by
  obtain ⟨root, exported, engine⟩ := WorldOk.of_reachable start reach
  have ok : StateOk crc target id o root ⟨g, w.wal, w.store⟩ := ⟨exported, engine g is_open⟩
  obtain ⟨root', ok'⟩ := (WorldOk.of_reachable start (reach.step step)).state is_open'
  have reads := ExportWorld.read_eq is_open offset len
  have reads' := ExportWorld.read_eq is_open' offset len
  suffices seen : (e.Applies ∧ w'.read offset len =
      some (flatRead o.size (o.contentAt w.wal.history w.wal.history.length) (.new offset len))) ∨
      (¬ e.Applies ∧ w'.read offset len = w.read offset len) by
    rcases seen with ⟨applies, all⟩ | ⟨not, same⟩
    · refine ⟨fun r is_write _ => by rw [all, ok.content_written is_write], fun free => ?_⟩
      rw [all, reads, ok.read_eq, ok.last_eq (free.resolve_right (not_not.2 applies))]
    · exact ⟨fun _ _ applies => absurd applies not, fun _ => same⟩
  have st := step.2.1
  cases e with
  | store e =>
    obtain ⟨store', -, rfl⟩ := Option.map_eq_some_iff.1 st
    cases is_open.symm.trans is_open'
    rw [reads, reads', ok.read_unseen ok' rfl rfl (List.prefix_refl _)]
    exact .inr ⟨by simp [ExportEvent.Applies], rfl⟩
  | engine e =>
    obtain ⟨g₁, is, st⟩ := Option.bind_eq_some_iff.1 st
    obtain ⟨s', run, made⟩ := Option.bind_eq_some_iff.1 st
    cases is.symm.trans is_open
    cases made
    cases is_open'
    by_cases apply : e = .apply
    · subst apply
      obtain ⟨history, idle⟩ := EngineState.apply_idle run
      refine .inl ⟨.inl rfl, ?_⟩
      rw [reads', ok'.read_eq, ok'.last_eq idle]
      exact history ▸ rfl
    · obtain ⟨first, applied, history⟩ := ok.kept_history run apply
      rw [reads, reads', ok.read_unseen ok' first applied history]
      exact .inr ⟨by simp [ExportEvent.Applies, apply], rfl⟩
  | «open» policy cacheBytes =>
    cases st
    obtain ⟨record, found, active, kind⟩ := WorldOk.openEngine_some is_open'
    obtain ⟨w', opened, -, all⟩ := exported.open_reads found active kind policy cacheBytes
    cases opened
    exact .inl ⟨.inr ⟨_, _, rfl⟩, all offset len⟩
  | crash call kept =>
    obtain ⟨extra, -, -, closed, -⟩ := WorldOk.crashed exported engine step.1 st step.2.2
    rw [closed] at is_open'
    cases is_open'

def appendedExport : ExportWorld :=
  ([.open ⟨100, 200⟩ 64, .engine (.append 2 [7])].foldlM (ExportWorld.nextLocal 1) newExport).getD
    newExport

lemma appendedExport_open : ∃ g r, appendedExport.engine = some g ∧ g.write = .appended r ∧
    (r.range.start, r.data, g.view.view.lastAppliedSeq) = (2, [7], 0) := by
  have facts : appendedExport.engine.map (fun g => g.write.pending.map fun r =>
    (r.range.start, r.data, g.view.view.lastAppliedSeq)) = some [(2, [7], 0)] := rfl
  obtain ⟨g, is_open, is⟩ := Option.map_eq_some_iff.1 facts
  cases write : g.write with
  | appended r =>
    rw [write] at is
    exact ⟨g, r, is_open, write, List.head_eq_of_cons_eq is⟩
  | _ =>
    rw [write] at is
    cases is

/-- `steps_are_flat_writes` at the step that applies this write. -/
theorem steps_are_flat_writes_apply : ∃ w', appendedExport.next crc32c 1 (.engine .apply) =
    some w' ∧
    w'.read 1 3 = some (.ok [0, 7, 0]) := by
  have reach : (exportSystem crc32c 1 newExport).Reachable appendedExport :=
    .foldlM ExportWorld.nextLocal_legal (.init rfl)
      (show List.foldlM (ExportWorld.nextLocal 1) newExport [.open ⟨100, 200⟩ 64,
        .engine (.append 2 [7])] = some appendedExport from rfl)
  have runs : ((appendedExport.nextLocal 1 (.engine .apply)).bind (·.engine)).isSome := rfl
  obtain ⟨g', runs⟩ := Option.isSome_iff_exists.1 runs
  obtain ⟨w', run, is_open'⟩ := Option.bind_eq_some_iff.1 runs
  obtain ⟨g, r, is_open, is_write, is⟩ := appendedExport_open
  have step := ExportWorld.nextLocal_legal run
  refine ⟨w', step.2.1, ?_⟩
  simp only [Prod.mk.injEq] at is
  rw [(steps_are_flat_writes newExport_start reach step is_open is_open' 1 3).1 r is_write
    (.inl rfl), is.1, is.2.1, is.2.2]
  rfl

end NbdServer
