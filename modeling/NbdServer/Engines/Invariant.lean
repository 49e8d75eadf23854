import NbdServer.Engines.Exports
import NbdServer.Engines.Flat

/-!
# The invariant of an engine

An engine stands on the log of its export (`EngineOk`): what its view has applied, with the record
of the write in progress, are the records of the log above the root that it was opened on, and every
root in use is one of the export. The coordinator (`CoordinatorOk`) compacts under
`compaction_lock`, so that a compaction which was published has read the root that the view still
stands on, and the view advances to its root before anything is pruned. Every step of the engine
keeps this (`StateOk.next`).
-/

namespace NbdServer

open Lib Wal

/-- The record that the write in progress has appended and not applied. -/
def WritePhase.pending : WritePhase → List WalRecord
  | .appended record => [record]
  | _ => []

def CoordinatorOk (id : ExportId) (w : StoreWorld) (v : ViewWorld) (lock : Option Nat) (j : Nat) :
    CoordinatorPhase → Prop
  | .waiting => True
  | .waitingWith sn => sn ∈ v.snapshots
  | .locked => lock = some j
  | .checked => lock = some j
  | .compacting index sn => lock = some j ∧ sn ∈ v.snapshots ∧ ∃ c, w.compactions[index]? = some c ∧
      c.exportId = id ∧ c.snapshot = sn ∧ ∀ result, c.phase = .done (.ok result) →
        result.outcome = .published → v.view.root = sn.root
  | .advancing root sn => lock = some j ∧ sn ∈ v.snapshots ∧ v.view.root = sn.root ∧
      ⟨id, sn, root⟩ ∈ w.publications
  | .readingHead => True
  | .pruning through => through ≤ v.view.root.baseWalSeq
  | .ended => True

namespace CoordinatorOk

variable {id : ExportId} {w w' : StoreWorld} {v v' : ViewWorld} {lock lock' : Option Nat} {j : Nat}
  {phase : CoordinatorPhase}

lemma mono (h : CoordinatorOk id w v lock j phase) (snapshots : v.snapshots ⊆ v'.snapshots)
    (base : v.view.root.baseWalSeq ≤ v'.view.root.baseWalSeq)
    (held : lock = some j → lock' = some j ∧ v'.view.root = v.view.root) :
    CoordinatorOk id w v' lock' j phase := by
  cases phase with
  | waitingWith sn => exact snapshots h
  | locked | checked => exact (held h).1
  | compacting index sn =>
    obtain ⟨has, mem, c, found, is_id, is_sn, published⟩ := h
    obtain ⟨has', root⟩ := held has
    exact ⟨has', snapshots mem, c, found, is_id, is_sn, fun result done is => root.trans
      (published result done is)⟩
  | advancing new sn =>
    obtain ⟨has, mem, same, published⟩ := h
    obtain ⟨has', root⟩ := held has
    exact ⟨has', snapshots mem, root.trans same, published⟩
  | pruning through => exact le_trans h base
  | _ => trivial

/-- A step of the stores. A compaction is published only if the catalog still has the root of its
snapshot, and then the view has it, too. -/
lemma step (h : CoordinatorOk id w v lock j phase) (st : StoreStep w w')
    (latest : ∀ sn ∈ v.snapshots, ∀ e, w.db.find id = some e → e.cowRoot = some sn.root →
    v.view.root = sn.root) :
    CoordinatorOk id w' v lock j phase := by
  cases phase with
  | compacting index sn =>
    obtain ⟨held, mem, c, found, is_id, is_sn, published⟩ := h
    obtain ⟨c', found', is_id', is_sn', new⟩ := st.compaction_at found
    refine ⟨held, mem, c', found', is_id'.trans is_id, is_sn'.trans is_sn, fun result done is => ?_⟩
    rcases new result done is with same | ⟨e, is_head, is_root⟩
    · exact published result (same.trans done) is
    · exact latest sn mem e (is_id ▸ is_head) (is_sn ▸ is_root)
  | advancing new sn => exact ⟨h.1, h.2.1, h.2.2.1, st.publications_subset h.2.2.2⟩
  | _ => exact h

end CoordinatorOk

/-- The bases and targets of what belongs to an export, with the root `root` in the catalog, and a
view of it. -/
structure Ordered (id : ExportId) (wal : WalWorld) (w : StoreWorld) (root : RootSnapshot)
    (v : ViewWorld) : Prop where
  snapshots : ∀ sn ∈ v.snapshots, sn.root.baseWalSeq ≤ v.view.root.baseWalSeq
  pruned : wal.pruneRequest ≤ v.view.root.baseWalSeq
  compactions : ∀ c ∈ w.compactions, c.exportId = id → c.snapshot.targetWalSeq ≤
    v.view.lastAppliedSeq
  head : root.baseWalSeq ≤ v.view.lastAppliedSeq

lemma Ordered.mono {id : ExportId} {wal : WalWorld} {w : StoreWorld} {root : RootSnapshot}
    {v v' : ViewWorld} (h : Ordered id wal w root v)
    (snapshots : ∀ sn ∈ v'.snapshots, sn ∈ v.snapshots ∨ sn.root.baseWalSeq ≤
    v'.view.root.baseWalSeq) (base : v.view.root.baseWalSeq ≤ v'.view.root.baseWalSeq)
    (last : v.view.lastAppliedSeq ≤ v'.view.lastAppliedSeq) : Ordered id wal w root v' where
  snapshots sn mem := (snapshots sn mem).elim (fun old => (h.snapshots sn old).trans base) fun le =>
    le
  pruned := h.pruned.trans base
  compactions c mem is := (h.compactions c mem is).trans last
  head := h.head.trans last

/-- What is known of an engine of the export with the root `root` in the catalog. -/
structure EngineOk (id : ExportId) (wal : WalWorld) (w : StoreWorld) (root : RootSnapshot)
    (g : WalDurableEngine) :
    Prop extends Ordered id wal w root g.view where
  size_eq : g.sizeBytes = g.first.sizeBytes
  first : (id, g.first) ∈ w.roots
  view : ViewInv w.stores.committed g.first g.view
  debts : DebtInv g.view
  prefixes : g.view.Prefixes
  uses : ∀ r, g.view.Uses r → (id, r) ∈ w.roots
  log : recordsIn wal.history g.first.baseWalSeq wal.history.length = g.view.applied ++
    g.write.pending
  calls : ∀ j call, g.calls[j]? = some call → CoordinatorOk id w g.view g.compactionLock j
    call.phase

namespace EngineOk

variable {crc : Checksum} {target : Nat} {id : ExportId} {o : Origin} {wal : WalWorld}
    {w w' : StoreWorld}
  {root : RootSnapshot} {g : WalDurableEngine} {j : Nat} {call : CoordinatorCall}
    {phase : CoordinatorPhase}

/-! ## Calls of the coordinator -/

lemma calls_set {v : ViewWorld} {lock : Option Nat} (new : CoordinatorOk id w v lock j phase)
    (others : ∀ k call', g.calls[k]? = some call' → k ≠ j →
    CoordinatorOk id w v lock k call'.phase) :
    ∀ k call', (g.calls.set j { call with phase := phase })[k]? = some call' →
      CoordinatorOk id w v lock k call'.phase := by
  intro k call' found
  by_cases same : j = k
  · subst same
    obtain ⟨lt, eq⟩ := List.getElem?_eq_some_iff.1 found
    rw [List.getElem_set_self] at eq
    rw [← eq]
    exact new
  · rw [List.getElem?_set_ne same] at found
    exact others k call' found (Ne.symm same)

variable (ok : EngineOk id wal w root g)
include ok

lemma withWrite {write : WritePhase} (same : write.pending = g.write.pending) :
    EngineOk id wal w root { g with write := write } :=
  { ok with log := by rw [same]; exact ok.log }

lemma withCalls {calls : List CoordinatorCall} {lock : Option Nat}
    (new : ∀ j call, calls[j]? = some call → CoordinatorOk id w g.view lock j call.phase) :
    EngineOk id wal w root { g with calls := calls, compactionLock := lock } :=
  { ok with calls := new }

lemma addCall
    (new : CoordinatorOk id w g.view g.compactionLock g.calls.length call.phase) :
    EngineOk id wal w root { g with calls := g.calls ++ [call] } := by
  refine ok.withCalls fun j call' found => ?_
  rcases Nat.lt_or_ge j g.calls.length with lt | ge
  · rw [List.getElem?_append_left lt] at found
    exact ok.calls j call' found
  · have last := (List.getElem?_eq_some_iff.1 found).1
    rw [List.length_append, List.length_singleton] at last
    obtain rfl : j = g.calls.length := by omega
    rw [List.getElem?_concat_length] at found
    cases found
    exact new

lemma setCall (new : CoordinatorOk id w g.view g.compactionLock j phase) :
    EngineOk id wal w root (g.setCall j call phase) :=
  ok.withCalls (calls_set new fun k call' found _ => ok.calls k call' found)

lemma endCall : EngineOk id wal w root (g.endCall j call) := by
  refine ok.withCalls (@calls_set id w g j call .ended _ _ trivial fun k call' found other => ?_)
  refine (ok.calls k call' found).mono (List.Subset.refl _) le_rfl fun held => ⟨?_, rfl⟩
  rw [if_neg fun mine => other (Option.some.inj (held.symm.trans mine))]
  exact held

lemma acquire (free : g.compactionLock = none) {k : Nat} {call' : CoordinatorCall}
    (found : g.calls[k]? = some call') : CoordinatorOk id w g.view (some j) k call'.phase := by
  refine (ok.calls k call' found).mono (List.Subset.refl _) le_rfl fun held => ?_
  rw [free] at held
  cases held

/-! ## The view -/

lemma readStep {v : ViewWorld} (inv : ViewInv w.stores.committed g.first v)
    (st : g.view.ReadStep v) : EngineOk id wal w root { g with view := v } where
  toOrdered := ok.toOrdered.mono (fun sn mem => .inl (st.snapshots ▸ mem)) (by rw [st.view])
    (by rw [st.view])
  size_eq := ok.size_eq
  first := ok.first
  view := inv
  debts := ok.debts.congr st.quiet
  prefixes := st.prefixes ok.prefixes
  uses r used := ok.uses r (st.uses used)
  log := by
    rw [st.applied]
    exact ok.log
  calls j call found :=
    (ok.calls j call found).mono (by rw [st.snapshots]; exact List.Subset.refl _)
    (by rw [st.view]) fun held => ⟨held, by rw [st.view]⟩

lemma captured {sn : CompactionSnapshot}
    (run : g.view.view.captureCompactionSnapshot = some sn) :
    EngineOk id wal w root { g with
      view := { g.view with snapshots := g.view.snapshots ++ [sn] } } := by
  have st : g.view.next .captureSnapshot = some { g.view with
      snapshots := g.view.snapshots ++ [sn] } := by
    rw [ViewWorld.next, run]
    rfl
  have is_root : sn.root = g.view.view.root := by
    unfold ReadViewState.captureCompactionSnapshot at run
    split_ifs at run
    cases run
    rfl
  refine ⟨ok.toOrdered.mono (fun sn' mem => ?_) le_rfl le_rfl, ok.size_eq, ok.first,
    ok.view.captureSnapshot st, ok.debts.captureSnapshot ok.view st,
      ⟨ok.prefixes.reads, ok.prefixes.results⟩,
    ViewWorld.Uses.imp ok.uses (ok.uses _ .view) rfl (fun sn' mem => ?_) (fun _ => .inl), ok.log,
      fun j call found => (ok.calls j call found).mono (List.subset_append_left _ _) le_rfl
        fun held => ⟨held, rfl⟩⟩
  · rcases List.mem_append.1 mem with mem | mem
    · exact .inl mem
    · rw [List.mem_singleton.1 mem, is_root]
      exact .inr le_rfl
  · rcases List.mem_append.1 mem with mem | mem
    · exact .inl mem
    · rw [List.mem_singleton.1 mem, is_root]
      exact .inr (ok.uses _ .view)

/-- The root in the catalog of the export has the highest base, so a snapshot of it is one of the
view's root. -/
lemma latest (exported : ExportOk crc target id o wal w root) :
    ∀ sn ∈ g.view.snapshots, ∀ e, w.db.find id = some e → e.cowRoot = some sn.root →
      g.view.view.root = sn.root := by
  intro sn mem e found is_root
  cases exported.root_eq found is_root
  rcases (exported.roots _ (ok.uses _ .view)).2 with lt | same
  · have := ok.snapshots sn mem
    omega
  · exact same

lemma step (exported : ExportOk crc target id o wal w root)
    (st : StoreStep w w') {root' : RootSnapshot}
    (is_head : root' = root ∨ ∃ c ∈ w.compactions, c.exportId = id ∧ root'.baseWalSeq =
    c.snapshot.targetWalSeq) (kept : w.Kept id w') : EngineOk id wal w' root' g where
  size_eq := ok.size_eq
  first := st.roots_subset ok.first
  view := ok.view.congr (st.committed exported.content ok.first) fun r used =>
    st.committed exported.content (ok.uses r used)
  debts := ok.debts
  prefixes := ok.prefixes
  uses r used := st.roots_subset (ok.uses r used)
  log := ok.log
  snapshots := ok.snapshots
  pruned := ok.pruned
  compactions c mem is := by
    obtain ⟨c₀, mem₀, is₀, same⟩ := kept c mem is
    exact same ▸ ok.compactions c₀ mem₀ is₀
  head := by
    rcases is_head with rfl | ⟨c, mem, is, eq⟩
    · exact ok.head
    · rw [eq]
      exact ok.compactions c mem is
  calls j call found := (ok.calls j call found).step st (ok.latest exported)

end EngineOk

lemma WalDurableEngine.writeRequest_inside {size offset : Nat} {data : Buf} {request : WalRequest}
    (fits : size < U64) (run : writeRequest size offset data = .ok (some request)) :
    request.range.start + request.range.len ≤ size := by
  unfold writeRequest at run
  obtain ⟨_, check, run⟩ := Res.bind_eq_ok.1 run
  have inside : offset + data.length ≤ size := by
    rw [validateRequestRange_eq fits] at check
    exact (ite_ne_right_iff.1 (check.trans_ne (by simp [fail]))).1
  split_ifs at run with empty small
  · cases run
  · obtain ⟨request', is_request, run⟩ := Res.bind_eq_ok.1 run
    cases run
    unfold WalRequest.new at is_request
    split_ifs at is_request with same
    · cases is_request
      have start := @ByteRange.new_start offset data.length (by omega)
      have len := @ByteRange.new_len offset data.length small
      show (ByteRange.new offset data.length).start + (ByteRange.new offset data.length).len ≤ size
      omega
    · cases is_request
  · cases run

lemma Wal.WalInv.append_ok {crc : Checksum} {target : Nat} {w : WalWorld}
    (inv : WalInv crc target w) (ht : SEGMENT_HEADER_LEN < target) (room : Room w)
    (request : WalRequest) :
    ∃ r, outcome (Wal.append crc request w.wal) = .ok r ∧ r.range = request.range ∧
    r.data = request.data ∧
      (w.call crc (.append request)).history = w.history ++ [r] := by
  obtain ⟨segs, ready, logs, bounded, durable⟩ := inv.bounds
  have fits := logs.fits room (nextRecord _ ready.holds.last_lt request)
  obtain ⟨init, s, next, -, run, -⟩ := ready.append (inv.target ▸ ht) request fits
  have ok := congrArg outcome run
  refine ⟨_, ok, rfl, rfl, ?_⟩
  show w.history ++ (outcome (Wal.append crc request w.wal)).toOption.toList = _
  rw [ok]
  rfl

lemma Wal.Room.payloads {w : WalWorld} (room : Room w) {l : List WalRecord}
    (part : l.Sublist w.history) :
    payloadBytes l < U64 := by
  have small : payloadBytes l ≤ payloadBytes w.history :=
    (part.map _).sum_le_sum fun _ _ => Nat.zero_le _
  have larger : payloadBytes w.history ≤ logBytes w.history :=
    List.sum_le_sum fun r _ => Nat.le_add_left _ _
  unfold Room at room
  omega

structure StateOk (crc : Checksum) (target : Nat) (id : ExportId) (o : Origin) (root : RootSnapshot)
    (s : EngineState) : Prop where
  exported : ExportOk crc target id o s.wal s.store root
  engine : EngineOk id s.wal s.store root s.engine

namespace StateOk

variable {crc : Checksum} {target : Nat} {id : ExportId} {o : Origin} {root : RootSnapshot}
    {s s' : EngineState}
  (ok : StateOk crc target id o root s)

include ok

lemma first_at : RootAt o s.wal.history s.store.stores.committed s.engine.first :=
  (ok.exported.roots _ ok.engine.first).1

lemma first_fits : s.engine.first.sizeBytes + CACHE_BLOCK_BYTES < U64 := by
  rw [ok.first_at.size_eq]
  exact ok.exported.size_fits

lemma withEngine {g : WalDurableEngine}
    (engine : EngineOk id s.wal s.store root g) : StateOk crc target id o root (s.withEngine g) :=
  ⟨ok.exported, engine⟩

lemma applied_initial : s.engine.view.applied <+:
    recordsIn s.wal.history s.engine.first.baseWalSeq s.wal.history.length := by
  rw [ok.engine.log]
  exact List.prefix_append _ _

lemma snapshotAt {sn : CompactionSnapshot}
    (mem : sn ∈ s.engine.view.snapshots) : SnapshotAt s.wal.history sn := by
  obtain ⟨done, pending, snap⟩ := ok.engine.view.snapshots sn mem
  exact snap.snapshotAt ok.exported.log.consecutive ok.first_at.base_le ok.applied_initial

/-! ## Reads -/

lemma read {e : ViewEvent} {v : ViewWorld}
    (st : s.engine.view.next e = some v) (reads : s.engine.view.ReadStep v)
    (legal : s.engine.view.Legal s.store.stores.committed e) :
    StateOk crc target id o root (s.withView v) :=
  ok.withEngine (ok.engine.readStep (ok.engine.view.step ok.first_fits legal st) reads)

lemma treeRead {i : Nat} (st : s.treeRead i = some s') : StateOk crc target id o root s' := by
  unfold EngineState.treeRead at st
  obtain ⟨r, found, st⟩ := Option.bind_eq_some_iff.1 st
  obtain ⟨miss, is_miss, st⟩ := Option.bind_eq_some_iff.1 st
  have mem := List.mem_of_getElem? found
  have used := ok.engine.uses _ (.read mem)
  obtain ⟨g, stored⟩ := ok.exported.content.roots _ used
  have captured := (ok.engine.view.reads r mem).captured
  have inside : miss.start + miss.len ≤ r.capture.root.sizeBytes := by
    have upper := (captured.misses miss (List.mem_of_getElem? is_miss)).2.1
    have range := captured.inside
    rw [ok.first_at.size_eq] at range
    rw [(ok.exported.roots _ used).1.size_eq]
    omega
  obtain ⟨block, returned, range_eq, holds⟩ := stored.readCommitted inside
  rw [returned] at st
  obtain ⟨v, run, rfl⟩ := Option.map_eq_some_iff.1 st
  refine ok.read run (.treeRead run) fun r' found' miss' is_miss' => ?_
  rw [found] at found'
  cases found'
  rw [is_miss] at is_miss'
  cases is_miss'
  exact ⟨range_eq, holds⟩

/-! ## Writes -/

lemma size_eq : s.engine.sizeBytes = o.size := ok.engine.size_eq.trans ok.first_at.size_eq

lemma append (room : Room s'.wal) {offset : Nat} {data : Buf}
    (st : s.append crc offset data = some s') : StateOk crc target id o root s' := by
  unfold EngineState.append at st
  split at st
  · rename_i request is_request free
    cases st
    have exported := ok.exported
    have engine := ok.engine
    have log' := exported.log.logCall exported.header exported.room (.call (.append request))
    obtain ⟨r, run, range, -, history⟩ := exported.log.append_ok exported.header exported.room
      request
    have fits := exported.size_fits
    rw [ok.size_eq] at is_request
    have inside : r.range.start + r.range.len ≤ o.size := by
      rw [range]
      exact WalDurableEngine.writeRequest_inside (by omega) is_request
    have pruned : (s.wal.call crc (.append request)).pruneRequest = s.wal.pruneRequest :=
      Nat.max_zero _
    refine ⟨exported.withWal history log' room (pruned.le.trans exported.pruned) fun r' mem => ?_,
      ?_⟩
    · rw [List.mem_singleton.1 mem]
      exact inside
    dsimp only
    rw [run]
    refine { engine with pruned := pruned.le.trans engine.pruned, log := ?_ }
    have log := engine.log
    have cons : Consecutive 0 (s.wal.call crc (.append request)).history := log'.consecutive
    rw [free] at log
    rw [history] at cons ⊢
    rw [List.length_append, List.length_singleton, recordsIn_concat cons ok.first_at.base_le, log,
      List.append_assoc]
    rfl
  · cases st
  · cases st
    exact ok

lemma pending {record : WalRecord}
    (is_write : s.engine.write = .appended record) :
    recordsIn s.wal.history s.engine.first.baseWalSeq s.wal.history.length =
    s.engine.view.applied ++ [record] ∧
      record.seq = s.engine.view.view.lastAppliedSeq + 1 ∧
      payloadBytes (s.engine.view.applied ++ [record]) < U64 ∧
      (s.engine.view.view.applyWalRecord record).2 = .ok () ∧
      s.engine.view.next (.apply record) = some (s.engine.view.withRecord record) := by
  have log := ok.engine.log
  rw [is_write] at log
  have log : recordsIn s.wal.history s.engine.first.baseWalSeq s.wal.history.length =
    s.engine.view.applied ++ [record] := log
  have first := ok.first_at
  have cons := recordsIn_consecutive ok.exported.log.consecutive first.base_le le_rfl
  rw [log] at cons
  have seq := cons _ record List.getElem?_concat_length
  have mem : record ∈ recordsIn s.wal.history s.engine.first.baseWalSeq s.wal.history.length := by
    rw [log]
    exact List.mem_append_right _ List.mem_cons_self
  obtain ⟨in_log, above, -⟩ := mem_recordsIn.1 mem
  have inside : record.range.start + record.range.len ≤ s.engine.first.sizeBytes := by
    rw [first.size_eq]
    exact ok.exported.inside record in_log (first.origin_le.trans_lt above)
  have total : payloadBytes (s.engine.view.applied ++ [record]) < U64 := by
    rw [← log]
    exact ok.exported.room.payloads List.filter_sublist
  have fits := ok.first_fits
  have last := ok.engine.view.last_eq
  obtain ⟨applied, next⟩ := ok.engine.view.apply_ok ok.engine.debts (by omega) inside seq total
  exact ⟨log, by omega, total, applied, next⟩

lemma apply (st : s.apply = some s') : StateOk crc target id o root s' := by
  unfold EngineState.apply at st
  split at st
  · rename_i record is_write
    obtain ⟨v, run, st⟩ := Option.bind_eq_some_iff.1 st
    obtain ⟨log, -, total, applied, next⟩ := ok.pending is_write
    have engine := ok.engine
    have fits := ok.first_fits
    rw [next] at run
    cases run
    rw [applied] at st
    cases st
    have inv := engine.view.apply (by omega) next
    have last := inv.last_eq
    have before := engine.view.last_eq
    have longer : (s.engine.view.withRecord record).applied.length = s.engine.view.applied.length +
        1 := by
      show (s.engine.view.applied ++ [record]).length = _
      rw [List.length_append, List.length_singleton]
    have later : s.engine.view.view.lastAppliedSeq ≤
        (s.engine.view.withRecord record).view.lastAppliedSeq := by
      omega
    have same : (s.engine.view.withRecord record).view.root = s.engine.view.view.root :=
      ReadViewState.applyWalRecord_root _ _
    have base : s.engine.view.view.root.baseWalSeq ≤
        (s.engine.view.withRecord record).view.root.baseWalSeq := by
      rw [same]
    refine ok.withEngine ⟨engine.toOrdered.mono (fun sn mem => .inl mem) base later, engine.size_eq,
      engine.first, inv, engine.debts.apply engine.view (by omega) next total,
      ⟨fun r mem => (engine.prefixes.reads r mem).trans (List.prefix_append _ _),
        fun res mem => (engine.prefixes.results res mem).trans (List.prefix_append _ _)⟩,
      ViewWorld.Uses.imp engine.uses (same.symm ▸ engine.uses _ .view) rfl (fun _ => .inl)
        (fun _ => .inl),
      log.trans (List.append_nil _).symm,
      fun j call found => (engine.calls j call found).mono (List.Subset.refl _) base fun held =>
        ⟨held, same⟩⟩
  · cases st

lemma finishWrite (st : s.finishWrite = some s') : StateOk crc target id o root s' := by
  unfold EngineState.finishWrite at st
  split at st
  · rename_i is_write
    split_ifs at st
    · cases st
      exact ok.withEngine (ok.engine.withWrite (by rw [is_write]; rfl))
    · cases st
      have written := @EngineOk.withWrite _ _ _ _ _ ok.engine (.compacting s.engine.calls.length)
        (by rw [is_write]; rfl)
      exact ok.withEngine (@EngineOk.addCall _ _ _ _ _ ⟨.writePressure, .waiting⟩ written trivial)
  · rename_i j is_write
    split at st
    · cases st
      exact ok.withEngine (ok.engine.withWrite (by rw [is_write]; rfl))
    · cases st
  · cases st

/-! ## Compactions -/

lemma close : StateOk crc target id o root s.close := by
  unfold EngineState.close
  split
  · rename_i sn run
    have captured := ok.engine.captured run
    exact ok.withEngine (@EngineOk.addCall _ _ _ _ _ ⟨.close, .waitingWith sn⟩ captured
      (List.mem_append_right _ List.mem_cons_self))
  · exact ok.withEngine (@EngineOk.addCall _ _ _ _ _ ⟨.close, .readingHead⟩ ok.engine trivial)

lemma startCompaction {j : Nat} {call : CoordinatorCall}
    {sn : CompactionSnapshot} (held : s.engine.compactionLock = some j)
    (mem : sn ∈ s.engine.view.snapshots) :
    StateOk crc target id o root (EngineState.startCompaction id s j call sn) := by
  have legal := ok.engine.uses _ (.snapshot mem)
  have st : StoreStep s.store (s.store.withCompaction id sn) := .start legal
  obtain ⟨is_id, is_sn⟩ := Compaction.start_of id sn s.store.db.tables s.store.blobs
  have exported := ok.exported
  have engine := ok.engine
  refine ⟨{ exported with
    store := exported.store.step st
    content := exported.content.step exported.store st
    compactions := fun c mem' is => ?_ }, ?_⟩
  · rcases List.mem_append.1 mem' with mem' | mem'
    · exact exported.compactions c mem' is
    · rw [List.mem_singleton.1 mem', is_sn]
      exact ⟨legal, ok.snapshotAt mem⟩
  · refine { engine with
      compactions := fun c mem' is => ?_, calls := EngineOk.calls_set ?_ fun k call' found _ => ?_ }
    · rcases List.mem_append.1 mem' with mem' | mem'
      · exact engine.compactions c mem' is
      · rw [List.mem_singleton.1 mem', is_sn]
        exact engine.view.target_le mem
    · refine ⟨held, mem, _, List.getElem?_concat_length, is_id, is_sn, fun result done published =>
        ?_⟩
      unfold Compaction.start at done
      dsimp only at done
      split_ifs at done
      cases done
      cases published
    · exact (engine.calls k call' found).step st (engine.latest exported)

lemma lock {j : Nat} (st : s.lock id j = some s') : StateOk crc target id o root s' := by
  unfold EngineState.lock at st
  obtain ⟨call, found, st⟩ := Option.bind_eq_some_iff.1 st
  split at st
  · rename_i free
    cases st
    refine ok.withEngine (ok.engine.withCalls (EngineOk.calls_set rfl fun k call' found _ => ?_))
    exact ok.engine.acquire free found
  · rename_i sn is_phase free
    cases st
    have mem := ok.engine.calls j call found
    rw [is_phase] at mem
    have locked : EngineOk id s.wal s.store root { s.engine with compactionLock := some j } :=
      ok.engine.withCalls fun k call' found' => ok.engine.acquire free found'
    exact (ok.withEngine locked).startCompaction rfl mem
  · split_ifs at st
    cases st
    exact ok.withEngine ok.engine.endCall
  · cases st

lemma check {j : Nat} (st : s.check j = some s') : StateOk crc target id o root s' := by
  unfold EngineState.check at st
  obtain ⟨call, found, st⟩ := Option.bind_eq_some_iff.1 st
  split at st
  · rename_i is_phase
    have held := ok.engine.calls j call found
    rw [is_phase] at held
    split_ifs at st
    · cases st
      exact ok.withEngine (ok.engine.setCall held)
    · cases st
      exact ok.withEngine ok.engine.endCall
  · cases st

lemma capture {j : Nat} (st : s.capture id j = some s') : StateOk crc target id o root s' := by
  unfold EngineState.capture at st
  obtain ⟨call, found, st⟩ := Option.bind_eq_some_iff.1 st
  split at st
  · rename_i is_phase
    have held := ok.engine.calls j call found
    rw [is_phase] at held
    split at st
    · rename_i sn run
      cases st
      exact (ok.withEngine (ok.engine.captured run)).startCompaction held
        (List.mem_append_right _ List.mem_cons_self)
    · cases st
      exact ok.withEngine ok.engine.endCall
  · cases st

lemma compacted {j : Nat} (st : s.compacted j = some s') : StateOk crc target id o root s' := by
  unfold EngineState.compacted at st
  obtain ⟨call, found, st⟩ := Option.bind_eq_some_iff.1 st
  split at st
  · rename_i index sn is_phase
    have known := ok.engine.calls j call found
    rw [is_phase] at known
    obtain ⟨held, mem, c, at_index, is_id, is_sn, published⟩ := known
    obtain ⟨c', found', st⟩ := Option.bind_eq_some_iff.1 st
    rw [at_index] at found'
    cases found'
    split at st
    · rename_i result done
      cases st
      unfold WalDurableEngine.afterCompaction
      split
      · rename_i new
        obtain ⟨new', is_new, published_in⟩ :=
          ok.exported.content.returned c (List.mem_of_getElem? at_index) _ done rfl
        cases is_new
        refine ok.withEngine (ok.engine.setCall ⟨held, mem, published _ done rfl, ?_⟩)
        rw [← is_id, ← is_sn]
        exact published_in
      · exact ok.withEngine ok.engine.endCall
    · cases st
  · cases st

lemma advance_known {j : Nat} {new : RootSnapshot} {sn : CompactionSnapshot}
    (known : CoordinatorOk id s.store s.engine.view s.engine.compactionLock j (.advancing new sn)) :
    (s.engine.view.view.advanceAfterCompaction new sn).2 = .ok () ∧
      (s.engine.view.view.advanceAfterCompaction new sn).1.root = new ∧
      s.engine.view.view.root.baseWalSeq < new.baseWalSeq := by
  obtain ⟨held, mem, same, published⟩ := known
  have publishes := (ok.exported.content.publications _ published).publishes
  have lt := (ok.exported.store.publications _ published).1
  have base : s.engine.view.view.root.baseWalSeq = sn.root.baseWalSeq := by rw [same]
  have target := publishes.base_eq
  have lt : sn.root.baseWalSeq < new.baseWalSeq := lt
  have target : new.baseWalSeq = sn.targetWalSeq := target
  obtain ⟨advanced, installed⟩ := ok.engine.view.advance_ok ok.engine.debts ok.first_fits mem
    publishes base
    (by omega)
  exact ⟨advanced, installed, by omega⟩

lemma advance {j : Nat} (st : s.advance j = some s') : StateOk crc target id o root s' := by
  unfold EngineState.advance at st
  obtain ⟨call, found, st⟩ := Option.bind_eq_some_iff.1 st
  split at st
  · rename_i new sn is_phase
    have known := ok.engine.calls j call found
    rw [is_phase] at known
    obtain ⟨advanced, installed, lt⟩ := ok.advance_known known
    obtain ⟨held, mem, same, published⟩ := known
    have publishes := (ok.exported.content.publications _ published).publishes
    obtain ⟨inv, debts⟩ := ok.engine.view.withPublished ok.engine.debts ok.first_fits mem publishes
    have last := ReadViewState.advanceAfterCompaction_last s.engine.view.view new sn
    have engine := ok.engine
    have in_use : (id, new) ∈ s.store.roots := ok.exported.publications _ published rfl
    have view : EngineOk id s.wal s.store root (WalDurableEngine.setCall
        { s.engine with view := s.engine.view.withPublished new sn } j call
            (.pruning new.baseWalSeq)) := by
      have base : s.engine.view.view.root.baseWalSeq ≤
          (s.engine.view.withPublished new sn).view.root.baseWalSeq := by
        show _ ≤ (s.engine.view.view.advanceAfterCompaction new sn).1.root.baseWalSeq
        rw [installed]
        exact lt.le
      refine ⟨engine.toOrdered.mono (fun sn' mem' => .inl mem') base last.ge, engine.size_eq,
        engine.first, inv, debts, ⟨engine.prefixes.reads, engine.prefixes.results⟩,
        ViewWorld.Uses.imp engine.uses (installed.symm ▸ in_use) rfl (fun _ => .inl)
          (fun p mem' => ?_), engine.log,
        EngineOk.calls_set ?_ fun k call' found' other => ?_⟩
      · rcases List.mem_append.1 mem' with mem' | mem'
        · exact .inl mem'
        · rw [List.mem_singleton.1 mem']
          exact .inr ⟨in_use, engine.uses _ (.snapshot mem)⟩
      · show new.baseWalSeq ≤ (s.engine.view.view.advanceAfterCompaction new sn).1.root.baseWalSeq
        rw [installed]
      · refine (engine.calls k call' found').mono (List.Subset.refl _) base fun mine => ?_
        exact absurd (Option.some.inj (mine.symm.trans held)) other
    dsimp only at st
    rw [advanced] at st
    cases st
    exact ok.withEngine view
  · cases st

lemma readHead {j : Nat} (st : s.readHead j = some s') : StateOk crc target id o root s' := by
  unfold EngineState.readHead at st
  obtain ⟨call, found, st⟩ := Option.bind_eq_some_iff.1 st
  split at st
  · split at st
    · rename_i head is_head
      cases st
      refine ok.withEngine (ok.engine.setCall ?_)
      rw [RootSnapshot.toExportHead, ofCatalog_eq_ok] at is_head
      obtain ⟨-, -, same⟩ := CatalogRes.bind_eq_ok.1 is_head
      cases same
      exact Nat.le_refl _
    · cases st
      exact ok.withEngine ok.engine.endCall
  · cases st

lemma prune {j : Nat} (st : s.prune crc j = some s') : StateOk crc target id o root s' := by
  unfold EngineState.prune at st
  obtain ⟨call, found, st⟩ := Option.bind_eq_some_iff.1 st
  split at st
  · rename_i through is_phase
    cases st
    have le := ok.engine.calls j call found
    rw [is_phase] at le
    have exported := ok.exported
    have history : (s.wal.call crc (.prune through)).history = s.wal.history := List.append_nil _
    have log' := exported.log.logCall exported.header exported.room (.call (.prune through))
    have pruned : (s.wal.call crc (.prune through)).pruneRequest ≤
        s.engine.view.view.root.baseWalSeq :=
      max_le ok.engine.pruned le
    have room : Room (s.wal.call crc (.prune through)) := by
      unfold Room
      rw [history]
      exact exported.room
    have ended := @EngineOk.endCall _ _ _ _ _ j call ok.engine
    refine ⟨exported.withWal (history.trans (List.append_nil _).symm) log' room
      (pruned.trans (exported.base_le (ok.engine.uses _ .view))) (fun r mem => (by cases mem)), ?_⟩
    refine { ended with pruned := pruned, log := ?_ }
    rw [history]
    exact ended.log
  · cases st

lemma next (room : Room s'.wal) {e : EngineEvent}
    (st : s.next crc id e = some s') : StateOk crc target id o root s' := by
  cases e with
  | beginRead offset len =>
    rw [EngineState.next] at st
    split at st
    · cases st
      exact ok
    · obtain ⟨v, run, rfl⟩ := Option.map_eq_some_iff.1 st
      exact ok.read run (.beginRead run) trivial
  | treeRead i => exact ok.treeRead st
  | finishRead i =>
    obtain ⟨v, run, rfl⟩ := Option.map_eq_some_iff.1 st
    exact ok.read run (.finishRead run) trivial
  | append offset data => exact ok.append room st
  | apply => exact ok.apply st
  | finishWrite => exact ok.finishWrite st
  | tick =>
    cases st
    unfold EngineState.tick
    split_ifs
    · exact ok.withEngine (@EngineOk.addCall _ _ _ _ _ ⟨.background, .waiting⟩ ok.engine trivial)
    · exact ok
  | close =>
    cases st
    exact ok.close
  | lock j => exact ok.lock st
  | check j => exact ok.check st
  | capture j => exact ok.capture st
  | compacted j => exact ok.compacted st
  | advance j => exact ok.advance st
  | readHead j => exact ok.readHead st
  | prune j => exact ok.prune st

end StateOk

end NbdServer
