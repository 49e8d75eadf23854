import NbdServer.Wal.Crash

/-!
# The local WAL as an ordered log

Runs of one WAL from an empty directory in which no file operation fails and nothing crashes:
appends, prunes, replays of both kinds and reopenings, in any order. In every state of such a run
the WAL is an ordered log of the records it acknowledged (`OrderedLog`): the sequences are those
from one on, a prune removes nothing above its argument, the bounds only grow, and a replay returns
the records of its range.
-/

namespace NbdServer

namespace Wal

open Lib

inductive LogCall where
  | call (c : Call)
  | replayRange (after through : Nat)
  | replayAfter (after : Nat)
  | reopen

/-- The world after a call of the log. A reopening that fails leaves the world as it is. -/
def WalWorld.logCall (crc : Checksum) (w : WalWorld) : LogCall → WalWorld
  | .call c => w.call crc c
  | .replayRange after through =>
    { w with wal := finalState (Wal.replayRange crc after through w.wal) }
  | .replayAfter after => { w with wal := finalState (Wal.replayAfter crc after w.wal) }
  | .reopen =>
    match w.wal.reopen crc with
    | .ok wal _ => { w with wal := wal }
    | .error _ _ => w

/-- Runs of a WAL from an empty directory without failures and crashes. -/
def logSystem (crc : Checksum) (target : Nat) : System WalWorld LogCall where
  init := (crashSystem crc target).init
  step w c w' := w' = w.logCall crc c

def WalWorld.bounds (w : WalWorld) : WalBounds := w.wal.state.bounds

/-- The records of a history in a range of sequences. -/
def recordsIn (history : List WalRecord) (after through : Nat) : List WalRecord :=
  history.filter fun r => after < r.seq ∧ r.seq ≤ through

/-- The WAL is an ordered log of the records it acknowledged. -/
structure OrderedLog (crc : Checksum) (w : WalWorld) : Prop where
  sequences : w.history.map (·.seq) = List.range' 1 w.history.length
  durable : w.bounds.lastDurable = w.history.length
  requested : w.bounds.prunedThrough ≤ w.pruneRequest
  append (request : WalRequest) : ∃ r wal, Wal.append crc request w.wal = .ok r wal ∧
    r.seq = w.history.length + 1 ∧ r.range = request.range ∧ r.data = request.data
  prune (seq : Nat) (le : seq ≤ w.bounds.lastDurable) : ∃ result wal,
    pruneThrough crc seq w.wal = .ok result wal
  kept (seq : Nat) : ∃ records, Wal.replayAfter crc (w.call crc (.prune seq)).bounds.prunedThrough
      (w.call crc (.prune seq)).wal = .ok records (w.call crc (.prune seq)).wal ∧
    ∀ r ∈ w.history, w.bounds.prunedThrough < r.seq → seq < r.seq → r ∈ records
  grows (c : LogCall) : w.bounds.prunedThrough ≤ (w.logCall crc c).bounds.prunedThrough ∧
    w.bounds.lastDurable ≤ (w.logCall crc c).bounds.lastDurable
  replayRange (after through : Nat) (pruned : w.bounds.prunedThrough ≤ after)
    (le : after ≤ through) (durable : through ≤ w.bounds.lastDurable) :
    Wal.replayRange crc after through w.wal = .ok (recordsIn w.history after through) w.wal
  replayAfter (after : Nat) (pruned : w.bounds.prunedThrough ≤ after)
    (durable : after ≤ w.bounds.lastDurable) : Wal.replayAfter crc after w.wal =
      .ok (recordsIn w.history after w.bounds.lastDurable) w.wal
  reopen : ∃ wal, w.wal.reopen crc = .ok wal wal.files ∧ wal.state.bounds = w.bounds

lemma recordsIn_seqs {history : List WalRecord} (cons : Consecutive 0 history) {after through : Nat}
    (le : after ≤ through) (durable : through ≤ history.length) :
    (recordsIn history after through).map (·.seq) = List.range' (after + 1) (through - after) := by
  have split : List.range' 1 history.length = List.range' 1 after ++
      (List.range' (after + 1) (through - after) ++
        List.range' (through + 1) (history.length - through)) := by
    rw [show through + 1 = after + 1 + (through - after) by omega, List.range'_append_1,
      show after + 1 = 1 + after by omega, List.range'_append_1]
    congr 1
    omega
  have mapped : (recordsIn history after through).map (·.seq) =
      (history.map (·.seq)).filter fun n => after < n ∧ n ≤ through := by
    rw [List.filter_map]
    rfl
  rw [mapped, cons.map_seq, split, List.filter_append, List.filter_append, List.filter_eq_nil_iff.2,
    List.filter_eq_self.2, List.filter_eq_nil_iff.2, List.nil_append, List.append_nil]
  all_goals
    intro n hn
    rw [List.mem_range'_1] at hn
    simp only [decide_eq_true_eq]
    omega

variable {crc : Checksum} {target : Nat} {w : WalWorld}

/-- A prune leaves the chain of the same history above a sequence that is not lower than before and
not higher than before or requested. -/
lemma Ready.prune_ends {wal : LocalExportWal} {p : Nat} {segs : List Segment}
    (ready : Ready crc wal p segs) (seq : Nat) :
    ∃ p' segs', Ready crc (finalState (Wal.pruneThrough crc seq wal)) p' segs' ∧ p ≤ p' ∧
    p' ≤ max p seq ∧
      (∀ history, Logs history p segs → Logs history p' segs') ∧
      (seq ≤ chainLast p segs → ∃ result wal', Wal.pruneThrough crc seq wal = .ok result wal') := by
  have durable : wal.state.bounds.lastDurable = chainLast p segs := by
    rw [ready.state]
    rfl
  by_cases beyond : chainLast p segs < seq
  · refine ⟨p, segs, ?_, le_rfl, le_max_left _ _, fun _ logs => logs,
      fun le => absurd le (by omega)⟩
    rw [Wal.pruneThrough, get_bind, durable, if_pos beyond]
    exact ready
  rcases List.eq_nil_or_concat' segs with rfl | ⟨init, s, rfl⟩
  · have run := ready.pruneThrough_empty (not_lt.1 beyond)
    rw [run]
    exact ⟨p, [], ready, le_rfl, le_max_left _ _, fun _ logs => logs, fun _ => ⟨_, _, rfl⟩⟩
  · obtain ⟨gone, stay, rfl, retired, later⟩ := ready.holds.chain.append_left.split seq
    have chain := ready.holds.chain
    obtain ⟨removed, run, after⟩ :=
      ready.pruneThrough retired later (chain.stay_eq_nil later) (not_lt.1 beyond)
    rw [run]
    exact ⟨_, _, after, chain.le_pruned, chain.pruned_le le_rfl retired,
      fun _ logs => logs.pruned chain, fun _ => ⟨_, _, rfl⟩⟩

lemma Ready.replayRange {wal : LocalExportWal} {p : Nat} {segs : List Segment}
    {history : List WalRecord} (ready : Ready crc wal p segs) (logs : Logs history p segs)
    (cons : Consecutive 0 history) {after through : Nat}
    (valid : validateReplayRange wal.state.bounds after through = .ok ()) :
    Wal.replayRange crc after through wal = .ok (recordsIn history after through) wal := by
  have pruned : p ≤ after := by
    have := (validateReplayRange_ok.1 valid).1
    rwa [ready.state] at this
  have same : (chainRecords segs).filter (fun r => after < r.seq ∧ r.seq ≤ through) =
      recordsIn history after through := by
    rw [logs.records, ← cons.filter_eq_drop, recordsIn, List.filter_filter]
    refine List.filter_congr fun r _ => ?_
    rw [← Bool.decide_and]
    exact decide_eq_decide.2 ⟨fun h => h.1, fun h => ⟨h, pruned.trans_lt h.1⟩⟩
  rw [ready.holds.replayRange ready.plan valid, same, repairLast_nil, after_nil]

lemma Ready.replayRange_ends {wal : LocalExportWal} {p : Nat} {segs : List Segment}
    (ready : Ready crc wal p segs) (after through : Nat) :
    finalState (Wal.replayRange crc after through wal) = wal := by
  cases valid : validateReplayRange wal.state.bounds after through with
  | ok u =>
    rw [ready.holds.replayRange ready.plan valid, repairLast_nil, after_nil]
    rfl
  | error e =>
    rw [Wal.replayRange, get_bind, valid]
    rfl

namespace WalInv

lemma bounds (inv : WalInv crc target w) : ∃ segs,
    Ready crc w.wal w.bounds.prunedThrough segs ∧ Logs w.history w.bounds.prunedThrough segs ∧
      w.bounds.prunedThrough ≤ w.pruneRequest ∧ w.bounds.lastDurable = w.history.length := by
  obtain ⟨p, segs, ready, logs, bounded⟩ := inv.ready
  have eq : w.bounds = ⟨p, chainLast p segs⟩ := by
    rw [WalWorld.bounds, ready.state]
    rfl
  rw [eq]
  exact ⟨segs, ready, logs, bounded, logs.last ready.holds.chain⟩

lemma reopen (inv : WalInv crc target w) : ∃ wal, w.wal.reopen crc = .ok wal wal.files ∧
    wal.state.bounds = w.bounds ∧ WalInv crc target { w with wal := wal } := by
  obtain ⟨segs, ready, logs, bounded, durable⟩ := inv.bounds
  obtain ⟨wal, run, same, log, opened, -⟩ :=
    ready.holds.reopen w.wal.segmentTargetBytes w.wal.files.dir
  have state : wal.state = w.wal.state := opened.state.trans ready.state.symm
  refine ⟨wal, run, congrArg (·.bounds) state, same.trans inv.target, log ▸ synced_repairLast _ _,
    inv.consecutive, _, segs, opened, logs, bounded⟩

lemma logCall_replay (inv : WalInv crc target w) (after through : Nat) :
    w.logCall crc (.replayRange after through) = w := by
  obtain ⟨segs, ready, -⟩ := inv.bounds
  rw [WalWorld.logCall, ready.replayRange_ends]

lemma logCall (inv : WalInv crc target w) (ht : SEGMENT_HEADER_LEN < target) (room : Room w)
    (c : LogCall) : WalInv crc target (w.logCall crc c) := by
  cases c with
  | call c =>
    obtain ⟨-, -, next, -⟩ := inv.call ht room c
    exact next
  | replayRange after through => rwa [inv.logCall_replay]
  | replayAfter after => exact (inv.logCall_replay after _).symm ▸ inv
  | reopen =>
    obtain ⟨wal, run, -, next⟩ := inv.reopen
    rw [WalWorld.logCall, run]
    exact next

lemma pruned_mono (inv : WalInv crc target w) (ht : SEGMENT_HEADER_LEN < target) (room : Room w)
    (c : LogCall) : w.bounds.prunedThrough ≤ (w.logCall crc c).bounds.prunedThrough := by
  obtain ⟨segs, ready, logs, -, -⟩ := inv.bounds
  cases c with
  | call c =>
    cases c with
    | append request =>
      have fits := logs.fits room (nextRecord _ ready.holds.last_lt request)
      obtain ⟨init, s, next, -, run, after⟩ := ready.append (inv.target ▸ ht) request fits
      have ends : (w.logCall crc (.call (.append request))).wal = _ := congrArg finalState run
      rw [WalWorld.bounds, WalWorld.bounds, ends]
      exact le_rfl
    | prune seq =>
      obtain ⟨p, segs', after, le, -⟩ := ready.prune_ends seq
      have ends : (w.logCall crc (.call (.prune seq))).bounds = ⟨p, chainLast p segs'⟩ :=
        congrArg (·.bounds) after.state
      rwa [ends]
  | replayRange after through => rw [inv.logCall_replay]
  | replayAfter after => exact (congrArg (·.bounds.prunedThrough) (inv.logCall_replay after _)).ge
  | reopen =>
    obtain ⟨wal, run, same, -⟩ := inv.reopen
    rw [WalWorld.logCall, run]
    exact (congrArg (·.prunedThrough) same).ge

lemma history_mono (crc : Checksum) (w : WalWorld) (c : LogCall) :
    w.history <+: (w.logCall crc c).history := by
  cases c with
  | call c => exact List.prefix_append _ _
  | replayRange after through => exact List.prefix_rfl
  | replayAfter after => exact List.prefix_rfl
  | reopen =>
    unfold WalWorld.logCall
    dsimp only
    split <;> exact List.prefix_rfl

lemma prune_kept (inv : WalInv crc target w) (ht : SEGMENT_HEADER_LEN < target) (room : Room w)
    (seq : Nat) :
    let next := w.call crc (.prune seq)
    ∃ records, Wal.replayAfter crc next.bounds.prunedThrough next.wal = .ok records next.wal ∧
      ∀ r ∈ w.history, w.bounds.prunedThrough < r.seq → seq < r.seq → r ∈ records := by
  intro next
  have inv' : WalInv crc target next := inv.logCall ht room (.call (.prune seq))
  have same : next.history = w.history := List.append_nil _
  obtain ⟨segs, ready, -, -, -⟩ := inv.bounds
  obtain ⟨p, _, after, -, below, -⟩ := ready.prune_ends seq
  have pruned : next.bounds.prunedThrough ≤ max w.bounds.prunedThrough seq :=
    (congrArg (·.bounds.prunedThrough) after.state).le.trans below
  obtain ⟨segs', ready', logs', -, durable⟩ := inv'.bounds
  have valid : validateReplayRange next.bounds next.bounds.prunedThrough next.bounds.lastDurable =
      .ok () := validateReplayRange_ok.2 ⟨le_rfl, durable ▸ logs'.le, le_rfl⟩
  refine ⟨_, ready'.replayRange logs' inv'.consecutive valid, fun r hr old above => ?_⟩
  have last := inv.consecutive.bounds hr
  have upper : next.wal.state.bounds.lastDurable = w.history.length :=
    durable.trans (congrArg _ same)
  rw [same, recordsIn, List.mem_filter, upper]
  refine ⟨hr, decide_eq_true ⟨?_, by omega⟩⟩
  exact pruned.trans_lt (max_lt old above)

end WalInv

lemma Room.of_logCall {c : LogCall} (room : Room (w.logCall crc c)) : Room w := by
  obtain ⟨more, eq⟩ := WalInv.history_mono crc w c
  unfold Room at room ⊢
  rw [← eq, logBytes_append] at room
  omega

lemma logInv_of_reachable (ht : SEGMENT_HEADER_LEN < target)
    (h : (logSystem crc target).Reachable w) : Room w → WalInv crc target w := by
  refine System.invariant _ (P := fun w => Room w → WalInv crc target w) ?_ ?_ h
  · exact fun h _ => .init h
  · rintro w c _ inv rfl room
    have before := room.of_logCall
    exact (inv before).logCall ht before c

/-- In every state of a run without failures whose log has room, the WAL is an ordered log. -/
theorem wal_is_ordered_log (ht : SEGMENT_HEADER_LEN < target)
    (reachable : (logSystem crc target).Reachable w) (room : Room w) : OrderedLog crc w := by
  have inv := logInv_of_reachable ht reachable room
  obtain ⟨segs, ready, logs, bounded, durable⟩ := inv.bounds
  refine ⟨?_, durable, bounded, ?_, ?_, inv.prune_kept ht room, ?_, ?_, ?_, ?_⟩
  · rw [inv.consecutive.map_seq, Nat.zero_add]
  · intro request
    have fits := logs.fits room (nextRecord _ ready.holds.last_lt request)
    obtain ⟨init, s, next, -, run, -⟩ := ready.append (inv.target ▸ ht) request fits
    refine ⟨_, _, run, ?_, rfl, rfl⟩
    rw [← logs.last ready.holds.chain]
    rfl
  · intro seq le
    obtain ⟨-, -, -, -, -, -, run⟩ := ready.prune_ends seq
    exact run (by rw [logs.last ready.holds.chain, ← durable]; exact le)
  · intro c
    obtain ⟨-, -, -, -, durable'⟩ := (inv.logCall ht room c).bounds
    refine ⟨inv.pruned_mono ht room c, ?_⟩
    rw [durable, durable']
    exact (WalInv.history_mono crc w c).length_le
  · exact fun after through pruned le last =>
      ready.replayRange logs inv.consecutive (validateReplayRange_ok.2 ⟨pruned, le, last⟩)
  · exact fun after pruned last =>
      ready.replayRange logs inv.consecutive (validateReplayRange_ok.2 ⟨pruned, last, le_rfl⟩)
  · obtain ⟨wal, run, same, -⟩ := inv.reopen
    exact ⟨wal, run, same⟩

lemma logCalls_reachable (h : (logSystem crc target).Reachable w) (calls : List LogCall) :
    (logSystem crc target).Reachable (calls.foldl (WalWorld.logCall crc) w) := by
  induction calls generalizing w with
  | nil => exact h
  | cons c calls ih => exact ih (.step h rfl)

/-- A WAL with full segments after one record: three appends, a prune of the first two, a reopening
and another append. -/
def prunedWorld : WalWorld :=
  [LogCall.call (.append (byteRequest 1)), .call (.append (byteRequest 2)),
    .call (.append (byteRequest 3)), .call (.prune 2), .reopen,
      .call (.append (byteRequest 4))].foldl
    (WalWorld.logCall crc32c) freshWorld

/-- After the prune and the reopening the fourth append has sequence four, and a replay from the
pruned records on returns the last two records. -/
theorem wal_is_ordered_log_pruned : prunedWorld.history.map (·.data) = [[1], [2], [3], [4]] ∧
    prunedWorld.bounds = ⟨2, 4⟩ ∧
    Wal.replayAfter crc32c 2 prunedWorld.wal = .ok (recordsIn prunedWorld.history 2 4)
    prunedWorld.wal ∧
    (recordsIn prunedWorld.history 2 4).map (·.data) = [[3], [4]] := by
  have init : (logSystem crc32c 25).init freshWorld := ⟨"wal", _, rfl, rfl, rfl⟩
  have reachable : (logSystem crc32c 25).Reachable prunedWorld := logCalls_reachable (.init init) _
  have bounds : prunedWorld.bounds = ⟨2, 4⟩ := by decide +kernel
  have room : Room prunedWorld := by
    show logBytes prunedWorld.history + 2 ^ 35 ≤ U64
    decide +kernel
  have log := wal_is_ordered_log (by decide) reachable room
  have replayed := log.replayAfter 2 (by rw [bounds]) (by rw [bounds]; decide)
  rw [bounds] at replayed
  exact ⟨by decide +kernel, bounds, replayed, by decide +kernel⟩

end Wal

end NbdServer
