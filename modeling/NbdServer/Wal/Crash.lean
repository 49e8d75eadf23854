import NbdServer.Lib.System
import NbdServer.Wal.Log

/-!
# Crashes of the local WAL

A crash during a call keeps a prefix of the effects issued so far: everything up to the last
completed sync, and of the rest any prefix, whose last write may be cut at any byte (`Survives`).
This module runs any number of appends, prunes, crashes and reopenings of one WAL and decides which
crashes it recovers from: exactly those that do not end inside the creation of a segment, between
the creation of the file and the last byte of its header (`endsInHeader`).
-/

namespace NbdServer

namespace Wal

open Lib

inductive Survives : List Effect → List Effect → Prop where
  | lost {issued} : (∀ e ∈ issued, e.isSync = false) → Survives issued []
  | torn {seq bytes rest} (n : Nat) : (∀ e ∈ rest, e.isSync = false) →
      Survives (.write seq bytes :: rest) [.write seq (bytes.take n)]
  | kept {e issued kept} : Survives issued kept → Survives (e :: issued) (e :: kept)

/-- The effects end inside the creation of a segment: its file exists and its header is cut. -/
def endsInHeader (kept : List Effect) : Bool :=
  match kept.reverse with
  | .create _ :: _ => true
  | .write seq bytes :: .create seq' :: _ => seq = seq' && bytes.length < SEGMENT_HEADER_LEN
  | _ => false

inductive Call where
  | append (request : WalRequest)
  | prune (seq : Nat)

namespace Call

def run (crc : Checksum) : Call → LocalExportWal → LocalExportWal
  | .append request, w => finalState (Wal.append crc request w)
  | .prune seq, w => finalState (pruneThrough crc seq w)

def acked (crc : Checksum) : Call → LocalExportWal → List WalRecord
  | .append request, w => (outcome (Wal.append crc request w)).toOption.toList
  | .prune _, _ => []

def pruneRequest : Call → Nat
  | .append _ => 0
  | .prune seq => seq

/-- The record that the call writes after the sequence `last`. -/
def Writes (c : Call) (last : Nat) (r : WalRecord) : Prop :=
  ∃ request, c = .append request ∧ r.seq = last + 1 ∧ r.range = request.range ∧
    r.data = request.data

end Call

/-- A WAL in use, with the records acknowledged by its appends or recovered by an earlier reopening,
and the highest prune request. -/
structure WalWorld where
  wal : LocalExportWal
  history : List WalRecord
  pruneRequest : Nat

def WalWorld.call (crc : Checksum) (w : WalWorld) (c : Call) : WalWorld :=
  ⟨c.run crc w.wal, w.history ++ c.acked crc w.wal, max w.pruneRequest c.pruneRequest⟩

/-- A crash during the call `c` that keeps the effects `kept`: all effects before the call were
issued, and any part of those of the call. -/
def Crash (crc : Checksum) (w : WalWorld) (c : Call) (kept : List Effect) : Prop :=
  ∃ issued, w.wal.files.log <+: issued ∧ issued <+: (c.run crc w.wal).files.log ∧
    Survives issued kept

def filesAfter (w : WalWorld) (kept : List Effect) : Files :=
  ⟨w.wal.files.dir, replay w.wal.files.base kept, [], []⟩

inductive WalEvent where
  | call (c : Call)
  | crash (c : Call) (kept : List Effect)

/-- Runs of a WAL from an empty directory: calls, and crashes that are followed by a reopening. -/
def crashSystem (crc : Checksum) (target : Nat) : System WalWorld WalEvent where
  init w := ∃ dir f, LocalExportWal.open crc target ⟨dir, .empty, [], []⟩ = .ok w.wal f ∧
    w.history = [] ∧ w.pruneRequest = 0
  step w event w' :=
    match event with
    | .call c => w' = w.call crc c
    | .crash c kept => Crash crc w c kept ∧
      ∃ wal f records f', LocalExportWal.open crc target (filesAfter w kept) = .ok wal f ∧
        loadRecords crc wal.files = .ok records f' ∧
        w' = ⟨wal, w.history ++ records.filter (w.history.length < ·.seq),
          max w.pruneRequest c.pruneRequest⟩

/-- The WAL recovers from a crash during `c` that keeps `kept`: it opens again, and its log holds
the records above some sequence that was requested to be pruned, unchanged and in order, with at
most the record of `c` after them. -/
def Recovers (crc : Checksum) (target : Nat) (w : WalWorld) (c : Call) (kept : List Effect) :
    Prop :=
  ∃ wal f records f', LocalExportWal.open crc target (filesAfter w kept) = .ok wal f ∧
    loadRecords crc wal.files = .ok records f' ∧
    ∃ p ≤ max w.pruneRequest c.pruneRequest, ∃ extra : List WalRecord,
      records = w.history.filter (p < ·.seq) ++ extra ∧
      (extra = [] ∨ ∃ r, c.Writes w.wal.state.bounds.lastDurable r ∧ extra = [r])

/-- What a crash during some effects can keep of them. -/
inductive Cut : List Effect → List Effect → Prop where
  | stop {effects} : Cut effects []
  | torn {seq bytes rest} (n : Nat) : Cut (.write seq bytes :: rest) [.write seq (bytes.take n)]
  | kept {e effects k} : Cut effects k → Cut (e :: effects) (e :: k)

def Synced (log : List Effect) : Prop := log = [] ∨ ∃ l e, log = l ++ [e] ∧ e.isSync = true

lemma Synced.append {log effects : List Effect} (h : Synced log) (h' : Synced effects) :
    Synced (log ++ effects) := by
  rcases h' with rfl | ⟨l, e, rfl, sync⟩
  · rw [List.append_nil]
    exact h
  · exact .inr ⟨log ++ l, e, (List.append_assoc _ _ _).symm, sync⟩

lemma Survives.cut {issued kept effects : List Effect} (h : Survives issued kept)
    (pre : issued <+: effects) : Cut effects kept := by
  induction h generalizing effects with
  | lost _ => exact .stop
  | torn n _ =>
    obtain ⟨rest, rfl⟩ := pre
    exact .torn n
  | kept _ ih =>
    obtain ⟨rest, rfl⟩ := pre
    exact .kept (ih ⟨rest, rfl⟩)

lemma Survives.after_sync {l rest kept : List Effect} {e : Effect} (sync : e.isSync = true)
    (h : Survives (l ++ e :: rest) kept) : ∃ k, kept = l ++ e :: k ∧ Survives rest k := by
  induction l generalizing kept with
  | nil =>
    cases h with
    | lost no => exact absurd sync (by simp [no e List.mem_cons_self])
    | torn n no => cases sync
    | kept h => exact ⟨_, rfl, h⟩
  | cons a l ih =>
    cases h with
    | lost no => exact absurd sync (by simp [no e (by simp)])
    | torn n no => exact absurd sync (by simp [no e (by simp)])
    | kept h =>
      obtain ⟨k, rfl, rest⟩ := ih h
      exact ⟨k, rfl, rest⟩

lemma Crash.cut {crc : Checksum} {w : WalWorld} {c : Call} {kept effects : List Effect}
    (h : Crash crc w c kept) (synced : Synced w.wal.files.log)
    (run : (c.run crc w.wal).files.log = w.wal.files.log ++ effects) :
    ∃ k, Cut effects k ∧ kept = w.wal.files.log ++ k := by
  obtain ⟨issued, ⟨rest, rfl⟩, pre, survives⟩ := h
  rw [run, List.prefix_append_right_inj] at pre
  rcases synced with none | ⟨l, e, log, sync⟩
  · rw [none] at survives ⊢
    exact ⟨kept, survives.cut pre, rfl⟩
  · rw [log, List.append_assoc] at survives
    obtain ⟨k, rfl, later⟩ := survives.after_sync sync
    exact ⟨k, later.cut pre, by simp [log]⟩

lemma Cut.append {a b k : List Effect} (h : Cut (a ++ b) k) :
    Cut a k ∨ ∃ k', Cut b k' ∧ k = a ++ k' := by
  induction a generalizing k with
  | nil => exact .inr ⟨k, h, rfl⟩
  | cons e a ih =>
    cases h with
    | stop => exact .inl .stop
    | torn n => exact .inl (.torn n)
    | kept h =>
      rcases ih h with left | ⟨k', right, rfl⟩
      · exact .inl (.kept left)
      · exact .inr ⟨k', right, rfl⟩

lemma Synced.endsInHeader_eq {log : List Effect} (synced : Synced log) :
    endsInHeader log = false := by
  rcases synced with rfl | ⟨l, e, rfl, sync⟩
  · rfl
  · unfold endsInHeader
    rw [List.reverse_append, List.reverse_singleton]
    cases e <;> cases sync <;> rfl

lemma endsInHeader_append {log : List Effect} (h : endsInHeader log = false) (k : List Effect) :
    endsInHeader (log ++ k) = endsInHeader k := by
  unfold endsInHeader at h ⊢
  rw [List.reverse_append]
  rcases k.reverse with _ | ⟨a, _ | ⟨b, r⟩⟩
  · exact h
  · generalize log.reverse = l at h ⊢
    rcases l with _ | ⟨e, l⟩
    · rfl
    · cases e <;> cases a <;> first | rfl | cases h
  · cases a <;> cases b <;> rfl

variable {crc : Checksum} {target : Nat}

/-- The directory holds a chain of segments, followed by a file with a cut header. -/
def Broken (crc : Checksum) (d : Disk) : Prop :=
  ∃ d₀ p segs data, Holds crc d₀ p segs [] ∧ data.length < SEGMENT_HEADER_LEN ∧
    d.entries = image crc segs [] ++ [(chainLast p segs + 1, data)]

lemma Broken.scanWalDir_error {f : Files} (h : Broken crc f.disk) (plan : f.plan = []) :
    ∃ e, scanWalDir crc f = .error e f := by
  obtain ⟨d₀, p, segs, data, holds, short, files⟩ := h
  have keys : f.disk.entries.map (·.1) = segs.map Segment.firstSeq ++ [chainLast p segs + 1] := by
    rw [files, List.map_append, image_keys]
    rfl
  have pos : ∀ n ∈ segs.map Segment.firstSeq ++ [chainLast p segs + 1], n ≠ 0 := by
    intro n hn
    rcases List.mem_append.1 hn with hn | hn
    · obtain ⟨s, -, rfl⟩ := List.mem_map.1 hn
      exact Nat.succ_ne_zero _
    · rw [List.mem_singleton.1 hn]
      exact Nat.succ_ne_zero _
  have first : (segs.map Segment.firstSeq ++ [chainLast p segs + 1]).head?.getD 1 = p + 1 := by
    have := holds.first_eq
    cases segs with
    | nil => rfl
    | cons s segs => exact this
  have older : ∀ s ∈ segs, f.disk.find s.firstSeq = some (s.bytes crc) := by
    intro s hs
    rw [OrdMap.find_eq_some, files, image_nil]
    exact List.mem_append_left _ (List.mem_map.2 ⟨s, hs, rfl⟩)
  have newest : f.disk.find (chainLast p segs + 1) = some data := by
    rw [OrdMap.find_eq_some, files]
    exact List.mem_append_right _ List.mem_cons_self
  obtain ⟨e, scan⟩ : ∃ e, scanSegment crc (chainLast p segs + 1) (chainLast p segs + 1) true f =
      .error e f := by
    rw [scanSegment, bind_ok (readFile_ok plan newest _), get_bind,
      decodeSegmentHeader_short crc short]
    exact ⟨_, rfl⟩
  have scans : scanSegments crc f = .error e f := by
    rw [scanSegments, bind_ok (ask_ok plan _), get_bind, keys, bind_ok (listSegments_ok plan pos),
      first, scanEntries_older plan (by simp) holds.chain older (holds.chain.small holds.room),
        scanEntries,
      get_bind, if_neg (not_not.2 rfl), List.isEmpty_nil, bind_error scan]
  exact ⟨e, bind_error scans⟩

lemma Broken.open_error {f : Files} (h : Broken crc f.disk) (plan : f.plan = []) (target : Nat) :
    ∃ e f', LocalExportWal.open crc target f = .error e f' := by
  obtain ⟨e, failed⟩ := h.scanWalDir_error plan
  refine ⟨e, f, ?_⟩
  simp only [LocalExportWal.open]
  rw [bind_ok (ask_ok plan _), bind_ok (ask_ok plan _), failed]

/-- A crash while a segment is created leaves no new file, one with a cut header, or an empty
segment. -/
lemma cut_newSegment {d : Disk} {p : Nat} {segs : List Segment} {k : List Effect}
    (h : Holds crc d p segs []) (above : ∀ a ∈ d.entries, a.1 < chainLast p segs + 1)
    (cut : Cut (newSegment crc (chainLast p segs + 1) ++ [.syncDir]) k) :
    k = [] ∨ endsInHeader k = true ∧ Broken crc (replay d k) ∨
      endsInHeader k = false ∧
        Holds crc (replay d k) p (segs ++ [.empty (chainLast p segs)]) [] := by
  have created := h.newSegment above
  have file := entries_create above
  rw [h.files] at file
  cases cut with
  | stop => exact .inl rfl
  | kept cut =>
    refine .inr ?_
    cases cut with
    | stop => exact .inl ⟨rfl, d, p, segs, [], h, by decide, file⟩
    | torn n =>
      by_cases short : n < SEGMENT_HEADER_LEN
      · refine .inl ⟨?_, d, p, segs, _, h, ?_, entries_write file _⟩
        · simp [endsInHeader, short]
        · simp [short]
      · have all : (encodeSegmentHeader crc (chainLast p segs + 1)).take n =
            encodeSegmentHeader crc (chainLast p segs + 1) := by
          rw [List.take_of_length_le]
          rw [length_encodeSegmentHeader]
          omega
        rw [all]
        refine .inr ⟨?_, created⟩
        simp [endsInHeader]
    | kept cut =>
      refine .inr ?_
      cases cut with
      | stop => exact ⟨by simp [endsInHeader], created⟩
      | kept cut =>
        cases cut with
        | stop => exact ⟨by simp [endsInHeader], created⟩
        | kept cut =>
          cases cut with
          | stop => exact ⟨by simp [endsInHeader], created⟩

lemma cut_frame {d : Disk} {p : Nat} {init : List Segment} {s : Segment} {r : WalRecord}
    {k : List Effect} (h : Holds crc d p (init ++ [s]) []) (next : r.seq = s.last + 1)
    (room : p + logBytes (chainRecords (init ++ [s])) + logBytes [r] + 2 ^ 34 ≤ U64)
    (cut : Cut [.write s.firstSeq (encodeRecord crc r), .sync s.firstSeq] k) :
    endsInHeader k = false ∧ ((∃ tail, Holds crc (replay d k) p (init ++ [s]) tail) ∨
      Holds crc (replay d k) p (init ++ [s.push r next]) []) := by
  have pushed := h.push next room
  cases cut with
  | stop => exact ⟨rfl, .inl ⟨[], h⟩⟩
  | torn n =>
    refine ⟨rfl, ?_⟩
    by_cases all : (encodeRecord crc r).take n = encodeRecord crc r
    · rw [all]
      exact .inr pushed
    · refine .inl ⟨(encodeRecord crc r).take n, h.chain, h.start, ?_, .inr ⟨r, ?_, all⟩, h.room⟩
      · exact files_write _ h.files
      · exact List.take_prefix _ _
  | kept cut =>
    cases cut with
    | stop => exact ⟨rfl, .inr pushed⟩
    | kept cut =>
      cases cut with
      | stop => exact ⟨rfl, .inr pushed⟩

lemma cut_removes {gone : List Segment} {k : List Effect}
    (cut : Cut (gone.map fun t => .remove t.firstSeq) k) :
    ∃ j, k = (gone.take j).map fun t => .remove t.firstSeq := by
  induction gone generalizing k with
  | nil =>
    cases cut with
    | stop => exact ⟨0, rfl⟩
  | cons t gone ih =>
    cases cut with
    | stop => exact ⟨0, rfl⟩
    | kept cut =>
      obtain ⟨j, rfl⟩ := ih cut
      exact ⟨j + 1, rfl⟩

lemma endsInHeader_removes (gone : List Segment) :
    endsInHeader (gone.map fun t => .remove t.firstSeq) = false := by
  rcases List.eq_nil_or_concat' gone with rfl | ⟨l, t, rfl⟩
  · rfl
  · simp [endsInHeader]

/-- The directory holds the history above some pruned sequence, with at most one record of the call
after it. -/
def Recoverable (crc : Checksum) (d : Disk) (history : List WalRecord) (bound : Nat)
    (writes : WalRecord → Prop) : Prop :=
  ∃ p segs tail extra, Holds crc d p segs tail ∧ p ≤ bound ∧ p ≤ history.length ∧
    chainRecords segs = history.drop p ++ extra ∧ (extra = [] ∨ ∃ r, writes r ∧ extra = [r])

structure WalInv (crc : Checksum) (target : Nat) (w : WalWorld) : Prop where
  target : w.wal.segmentTargetBytes = target
  synced : Synced w.wal.files.log
  consecutive : Consecutive 0 w.history
  ready : ∃ p segs, Ready crc w.wal p segs ∧ Logs w.history p segs ∧ p ≤ w.pruneRequest

def Room (w : WalWorld) : Prop := logBytes w.history + 2 ^ 35 ≤ U64

/-- What a crash that keeps the effects `k` of a call leaves. -/
def CrashOutcome (crc : Checksum) (w : WalWorld) (c : Call) (k : List Effect) : Prop :=
  endsInHeader k = true ∧ Broken crc (replay w.wal.files.disk k) ∨
  endsInHeader k = false ∧ Recoverable crc (replay w.wal.files.disk k) w.history
    (max w.pruneRequest c.pruneRequest) (c.Writes w.wal.state.bounds.lastDurable)

/-- A call keeps the invariant, and a crash during it leaves a cut header or a recoverable
directory. -/
def CallOk (crc : Checksum) (target : Nat) (w : WalWorld) (c : Call) : Prop :=
  ∃ effects, (c.run crc w.wal).files.log = w.wal.files.log ++ effects ∧
    WalInv crc target (w.call crc c) ∧ ∀ k, Cut effects k → CrashOutcome crc w c k

namespace WalInv

variable {w : WalWorld}

lemma recoverable {d : Disk} {p bound : Nat} {segs : List Segment} {tail : Buf}
    {writes : WalRecord → Prop} (holds : Holds crc d p segs tail)
    (logs : Logs w.history p segs) (bounded : p ≤ bound) :
    Recoverable crc d w.history bound writes :=
  ⟨p, segs, tail, [], holds, bounded, logs.le, by rw [logs.records, List.append_nil], .inl rfl⟩

end WalInv

lemma Logs.fits {w : WalWorld} {p : Nat} {segs : List Segment} (logs : Logs w.history p segs)
    (room : Room w) (r : WalRecord) :
    p + logBytes (chainRecords segs) + logBytes [r] + 2 ^ 34 ≤ U64 := by
  have bytes := logs.bytes
  have := data_lt r
  unfold Room at room
  simp only [logBytes, List.map_cons, List.map_nil, List.sum_cons, List.sum_nil] at bytes room ⊢
  omega

lemma synced_ensureEffects (crc : Checksum) (t p : Nat) (segs : List Segment) :
    Synced (ensureEffects crc t p segs) := by
  unfold ensureEffects
  split
  · exact .inr ⟨_, _, rfl, rfl⟩
  · exact .inl rfl

lemma WalInv.cut_ensure {w : WalWorld} {p : Nat} {segs : List Segment}
    (ready : Ready crc w.wal p segs) (logs : Logs w.history p segs) (bounded : p ≤ w.pruneRequest)
    (ht : SEGMENT_HEADER_LEN < w.wal.segmentTargetBytes) {c : Call} {k : List Effect}
    (cut : Cut (ensureEffects crc w.wal.segmentTargetBytes p segs) k) : CrashOutcome crc w c k := by
  unfold ensureEffects at cut
  split at cut
  · rename_i rolls
    have above := ready.above fun t ht' => records_ne_nil ht (rolls t ht')
    rcases cut_newSegment ready.holds above cut with rfl | broken | ⟨ends, holds⟩
    · exact .inr ⟨rfl, recoverable ready.holds logs (le_max_of_le_left bounded)⟩
    · exact .inl broken
    · refine .inr ⟨ends, recoverable holds ⟨?_, logs.le⟩ (le_max_of_le_left bounded)⟩
      rw [chainRecords_append, ← logs.records]
      exact List.append_nil _
  · cases cut with
    | stop => exact .inr ⟨rfl, recoverable ready.holds logs (le_max_of_le_left bounded)⟩

lemma WalInv.append {w : WalWorld} (inv : WalInv crc target w) (ht : SEGMENT_HEADER_LEN < target)
    (room : Room w) (request : WalRequest) : CallOk crc target w (.append request) := by
  obtain ⟨p, segs, ready, logs, bounded⟩ := inv.ready
  have fits := logs.fits room (nextRecord _ ready.holds.last_lt request)
  rw [← inv.target] at ht
  obtain ⟨init, s, next, eq, run, after⟩ := ready.append ht request fits
  obtain ⟨-, ensuredReady⟩ := ready.ensureActiveSegment ht
  have ensuredHolds := ensuredReady.holds
  rw [after_disk, eq] at ensuredHolds
  have same : chainRecords (init ++ [s]) = chainRecords segs := by
    rw [← eq, chainRecords_ensured]
  have seq : (nextRecord _ ready.holds.last_lt request).seq = w.history.length + 1 := by
    rw [← logs.last ready.holds.chain]
    rfl
  have pushed : chainRecords (init ++ [s.push _ next]) =
      chainRecords segs ++ [nextRecord _ ready.holds.last_lt request] := by
    rw [← same]
    simp [chainRecords, Segment.push]
  have synced := synced_ensureEffects crc w.wal.segmentTargetBytes p segs
  have synced' : Synced [.write s.firstSeq (encodeRecord crc
      (nextRecord _ ready.holds.last_lt request)), .sync s.firstSeq] := .inr ⟨[_], _, rfl, rfl⟩
  have ran : (Call.append request).run crc w.wal = _ := congrArg finalState run
  have acks : (Call.append request).acked crc w.wal = _ :=
    congrArg (fun res => (outcome res).toOption.toList) run
  refine ⟨_, by rw [ran]; rfl, ?_, ?_⟩
  · rw [WalWorld.call, ran, acks]
    refine ⟨inv.target, inv.synced.append (synced.append synced'), ?_, p, _, after,
      logs.append pushed, le_max_of_le_left bounded⟩
    refine inv.consecutive.concat ?_
    rw [Nat.zero_add]
    exact seq
  · intro k cut
    rcases cut.append with cut | ⟨k', framed, rfl⟩
    · exact cut_ensure ready logs bounded ht cut
    · obtain ⟨ends, holds⟩ := cut_frame ensuredHolds next (by rw [same]; exact fits) framed
      refine .inr ⟨by rw [endsInHeader_append synced.endsInHeader_eq, ends], ?_⟩
      rw [replay_append]
      rcases holds with ⟨tail, holds⟩ | holds
      · exact recoverable holds ⟨same.trans logs.records, logs.le⟩ (le_max_of_le_left bounded)
      · refine ⟨p, _, [], [nextRecord _ ready.holds.last_lt request], holds,
          le_max_of_le_left bounded, logs.le, ?_, .inr ⟨_, ?_, rfl⟩⟩
        · rw [pushed, logs.records]
        · refine ⟨request, rfl, ?_, rfl, rfl⟩
          rw [ready.state]
          rfl

lemma WalInv.idle {w : WalWorld} (inv : WalInv crc target w) {c : Call}
    (run : c.run crc w.wal = w.wal) (acked : c.acked crc w.wal = []) : CallOk crc target w c := by
  obtain ⟨p, segs, ready, logs, bounded⟩ := inv.ready
  refine ⟨[], by rw [run, List.append_nil], ?_, ?_⟩
  · rw [WalWorld.call, run, acked, List.append_nil]
    exact ⟨inv.target, inv.synced, inv.consecutive, p, segs, ready, logs,
      le_max_of_le_left bounded⟩
  · intro k cut
    cases cut with
    | stop => exact .inr ⟨rfl, recoverable ready.holds logs (le_max_of_le_left bounded)⟩

lemma cut_roll {d : Disk} {p : Nat} {s : Segment} {k : List Effect} (h : Holds crc d p [s] [])
    (ne : s.records ≠ [])
    (cut : Cut (newSegment crc (s.last + 1) ++ [.syncDir, .remove s.firstSeq, .syncDir]) k) :
    endsInHeader k = true ∧ Broken crc (replay d k) ∨ endsInHeader k = false ∧
      ((∃ segs, Holds crc (replay d k) p segs [] ∧ chainRecords segs = s.records) ∨
        Holds crc (replay d k) s.last [.empty s.last] []) := by
  have above : ∀ a ∈ d.entries, a.1 < chainLast p [s] + 1 :=
    keys_lt (h.files.trans (congrArg (image crc · []) (List.nil_append [s]).symm)) ne
  have created : Holds crc (replay d (newSegment crc (s.last + 1))) p [s, .empty s.last] [] :=
    h.newSegment above
  have records : chainRecords [s, .empty s.last] = s.records := by
    simp [chainRecords, Segment.empty]
  have cut : Cut ((newSegment crc (s.last + 1) ++ [.syncDir]) ++ [.remove s.firstSeq, .syncDir])
      k := by
    rwa [List.append_assoc]
  rcases cut.append with cut | ⟨k', tail, rfl⟩
  · rcases cut_newSegment h above cut with rfl | broken | ⟨ends, holds⟩
    · exact .inr ⟨rfl, .inl ⟨[s], h, by simp [chainRecords]⟩⟩
    · exact .inl broken
    · exact .inr ⟨ends, .inl ⟨_, holds, records⟩⟩
  · have gone :
      Holds crc (Effect.apply (replay d (newSegment crc (s.last + 1))) (.remove s.firstSeq))
        s.last [.empty s.last] [] :=
      Holds.drop (show Holds crc _ p ([s] ++ [] ++ [.empty s.last]) [] from created)
    refine .inr ?_
    rw [replay_append, replay_append, replay_cons, replay_nil, Effect.apply_syncDir]
    cases tail with
    | stop => exact ⟨by simp [endsInHeader], .inl ⟨_, created, records⟩⟩
    | kept tail =>
      cases tail with
      | stop => exact ⟨by simp [endsInHeader], .inr gone⟩
      | kept tail =>
        cases tail with
        | stop => exact ⟨by simp [endsInHeader], .inr gone⟩

lemma synced_syncIfChanged (effects : List Effect) : Synced (effects ++ syncIfChanged effects) := by
  unfold syncIfChanged
  split
  · rename_i none
    rw [none]
    exact .inl rfl
  · exact .inr ⟨_, _, rfl, rfl⟩

/-- The directory holds what a prune up to `seq` may leave of a chain `segs` after `p`: the same
records above some sequence that was pruned before or is pruned now. -/
def HoldsPruned (crc : Checksum) (d : Disk) (p : Nat) (segs : List Segment) (seq : Nat) : Prop :=
  ∃ p' segs', Holds crc d p' segs' [] ∧ p' ≤ max p seq ∧
    ∀ history, Logs history p segs → Logs history p' segs'

lemma Holds.cut_removes {d : Disk} {p seq : Nat} {gone stay : List Segment} {s : Segment}
    (h : Holds crc d p (gone ++ stay ++ [s]) []) (retired : ∀ t ∈ gone, t.last ≤ seq)
    {k : List Effect} (cut : Cut (gone.map fun t => .remove t.firstSeq) k) :
    endsInHeader k = false ∧ HoldsPruned crc (replay d k) p (gone ++ stay ++ [s]) seq := by
  obtain ⟨j, rfl⟩ := Wal.cut_removes cut
  have split : gone ++ stay ++ [s] = gone.take j ++ (gone.drop j ++ stay) ++ [s] := by
    rw [← List.append_assoc (gone.take j), List.take_append_drop]
  rw [split] at h ⊢
  have chain := h.chain
  rw [List.append_assoc] at chain
  refine ⟨endsInHeader_removes _, _, _, h.drop, ?_, fun history logs => ?_⟩
  · exact chain.append_left.last_le (fun t ht => retired t (List.mem_of_mem_take ht)) le_rfl
  · rw [List.append_assoc] at logs
    exact logs.drop chain

/-- A crash during a prune that retires the segments `gone` leaves a cut header, or a chain of the
records above some pruned sequence. -/
lemma Holds.cut_prune {d : Disk} {p seq : Nat} {gone stay : List Segment} {s : Segment}
    (h : Holds crc d p (gone ++ stay ++ [s]) []) (retired : ∀ t ∈ gone, t.last ≤ seq)
    (empty : RollsOver s seq → stay = []) {k : List Effect}
    (cut : Cut (pruneEffects crc gone s seq ++ syncIfChanged (pruneEffects crc gone s seq)) k) :
    endsInHeader k = true ∧ Broken crc (replay d k) ∨
      endsInHeader k = false ∧ HoldsPruned crc (replay d k) p (gone ++ stay ++ [s]) seq := by
  have dropped := h.drop
  have chain := h.chain
  rw [List.append_assoc] at chain
  have rest : ∀ history, Logs history p (gone ++ stay ++ [s]) →
      Logs history (chainLast p gone) (stay ++ [s]) := fun history logs =>
    Logs.drop (by rw [← List.append_assoc]; exact logs) chain
  have requested := chain.append_left.last_le retired le_rfl
  unfold pruneEffects at cut
  rw [List.append_assoc] at cut
  rcases cut.append with cut | ⟨k', cut', rfl⟩
  · exact .inr (h.cut_removes retired cut)
  · rw [endsInHeader_append (endsInHeader_removes gone), replay_append]
    by_cases rolls : RollsOver s seq
    · obtain rfl := empty rolls
      have changed : gone.map (fun t => Effect.remove t.firstSeq) ++
          (Wal.newSegment crc (s.last + 1) ++ [.syncDir, .remove s.firstSeq]) ≠ [] := by simp
      rw [if_pos rolls, syncIfChanged, if_neg changed, List.append_assoc] at cut'
      rcases cut_roll dropped rolls.1 cut' with broken | ⟨ends, ⟨segs, held, eq⟩ | held⟩
      · exact .inl broken
      · refine .inr ⟨ends, _, segs, held, requested, fun history logs =>
          ⟨?_, (rest history logs).le⟩⟩
        rw [eq, ← (rest history logs).records]
        exact (List.append_nil _).symm
      · refine .inr ⟨ends, _, _, held, le_max_of_le_right rolls.2, fun history logs => .empty ?_⟩
        rw [← logs.last h.chain, chainLast_append]
        rfl
    · rw [if_neg rolls, List.nil_append, syncIfChanged] at cut'
      have held : k' = [] ∨ k' = [.syncDir] := by
        split at cut'
        · cases cut' with
          | stop => exact .inl rfl
        · cases cut' with
          | stop => exact .inl rfl
          | kept cut' =>
            cases cut' with
            | stop => exact .inr rfl
      rcases held with rfl | rfl
      · exact .inr ⟨rfl, _, _, dropped, requested, rest⟩
      · exact .inr ⟨rfl, _, _, dropped, requested, rest⟩

lemma WalInv.prune {w : WalWorld} (inv : WalInv crc target w) (seq : Nat) :
    CallOk crc target w (.prune seq) := by
  obtain ⟨p, segs, ready, logs, bounded⟩ := inv.ready
  have durable : w.wal.state.bounds.lastDurable = chainLast p segs := by
    rw [ready.state]
    rfl
  by_cases beyond : chainLast p segs < seq
  · refine inv.idle ?_ rfl
    rw [Call.run, pruneThrough, get_bind, durable, if_pos beyond]
    rfl
  rcases List.eq_nil_or_concat' segs with rfl | ⟨init, s, rfl⟩
  · refine inv.idle ?_ rfl
    rw [Call.run, ready.pruneThrough_empty (not_lt.1 beyond)]
    rfl
  · obtain ⟨gone, stay, rfl, retired, later⟩ := ready.holds.chain.append_left.split seq
    have chain := ready.holds.chain
    have empty : RollsOver s seq → stay = [] := chain.stay_eq_nil later
    obtain ⟨removed, run, after⟩ := ready.pruneThrough retired later empty (not_lt.1 beyond)
    have ran : (Call.prune seq).run crc w.wal = _ := congrArg finalState run
    refine ⟨_, by rw [ran]; rfl, ?_, fun k cut => ?_⟩
    · rw [WalWorld.call, ran, Call.acked, List.append_nil]
      exact ⟨inv.target, inv.synced.append (synced_syncIfChanged _), inv.consecutive, _, _, after,
        logs.pruned chain, chain.pruned_le bounded retired⟩
    · refine (ready.holds.cut_prune retired empty cut).imp_right ?_
      rintro ⟨ends, p', segs', holds, le, kept⟩
      exact ⟨ends, recoverable holds (kept _ logs) (le.trans (max_le_max bounded le_rfl))⟩

lemma WalInv.call {w : WalWorld} (inv : WalInv crc target w) (ht : SEGMENT_HEADER_LEN < target)
    (room : Room w) (c : Call) : CallOk crc target w c := by
  cases c with
  | append request => exact inv.append ht room request
  | prune seq => exact inv.prune seq

lemma synced_repairLast (segs : List Segment) (tail : Buf) : Synced (repairLast crc segs tail) := by
  rcases List.eq_nil_or_concat' segs with rfl | ⟨init, s, rfl⟩
  · exact .inl rfl
  · rw [repairLast_concat, repair]
    split
    · exact .inl rfl
    · exact .inr ⟨[_], _, rfl, rfl⟩

lemma WalInv.crash {w : WalWorld} (inv : WalInv crc target w) (ht : SEGMENT_HEADER_LEN < target)
    (room : Room w) {c : Call} {kept : List Effect} (crash : Crash crc w c kept) :
    endsInHeader kept = true ∧ Broken crc (replay w.wal.files.base kept) ∨
    endsInHeader kept = false ∧ Recoverable crc (replay w.wal.files.base kept) w.history
      (max w.pruneRequest c.pruneRequest) (c.Writes w.history.length) := by
  obtain ⟨effects, log, -, outcomes⟩ := inv.call ht room c
  obtain ⟨k, cut, rfl⟩ := crash.cut inv.synced log
  obtain ⟨p, segs, ready, logs, -⟩ := inv.ready
  have last : w.wal.state.bounds.lastDurable = w.history.length := by
    rw [ready.state, ← logs.last ready.holds.chain]
    rfl
  rw [endsInHeader_append inv.synced.endsInHeader_eq, replay_append, ← last]
  exact outcomes k cut

lemma filter_recovered {h extra : List WalRecord} {p : Nat} {c : Call} (cons : Consecutive 0 h)
    (one : extra = [] ∨ ∃ r, c.Writes h.length r ∧ extra = [r]) :
    (h.drop p ++ extra).filter (h.length < ·.seq) = extra ∧ Consecutive 0 (h ++ extra) := by
  have old : (h.drop p).filter (h.length < ·.seq) = [] := by
    refine List.filter_eq_nil_iff.2 fun r hr => ?_
    have := cons.bounds (List.mem_of_mem_drop hr)
    simp only [decide_eq_true_eq]
    omega
  rw [List.filter_append, old, List.nil_append]
  rcases one with rfl | ⟨r, ⟨-, -, seq, -⟩, rfl⟩
  · exact ⟨rfl, by rwa [List.append_nil]⟩
  · refine ⟨?_, cons.concat (by rw [seq, Nat.zero_add])⟩
    simp [seq]

lemma WalInv.init {w : WalWorld} (h : (crashSystem crc target).init w) : WalInv crc target w := by
  obtain ⟨dir, f, opened, none, zero⟩ := h
  have holds : Holds crc .empty 0 [] [] := ⟨trivial, fun _ => rfl, rfl, .inl rfl, by decide⟩
  obtain ⟨wal, run, target, log, ready, -⟩ := holds.reopen target dir
  rw [run] at opened
  cases opened
  refine ⟨target, log ▸ synced_repairLast _ _, ?_, 0, [], ready, ?_, Nat.zero_le _⟩
  · rw [none]
    exact Consecutive.nil
  · rw [none]
    exact Logs.nil

lemma Room.of_call {w : WalWorld} {c : Call} (room : Room (w.call crc c)) : Room w := by
  unfold Room WalWorld.call at room
  rw [logBytes_append] at room
  unfold Room
  omega

lemma WalInv.of_reachable {w : WalWorld} (ht : SEGMENT_HEADER_LEN < target)
    (h : (crashSystem crc target).Reachable w) : Room w → WalInv crc target w := by
  refine System.invariant _ (P := fun w => Room w → WalInv crc target w) ?_ ?_ h
  · exact fun h _ => .init h
  · intro w event w' inv step room
    cases event with
    | call c =>
      cases step
      have before := room.of_call
      obtain ⟨-, -, next, -⟩ := (inv before).call ht before c
      exact next
    | crash c kept =>
      obtain ⟨crash, wal, f, records, f', opened, loaded, rfl⟩ := step
      have before : Room w := by
        unfold Room at room ⊢
        rw [logBytes_append] at room
        omega
      rcases (inv before).crash ht before crash with
        ⟨-, broken⟩ | ⟨-, p, segs, tail, extra, holds, bounded, le, eq, one⟩
      · obtain ⟨e, f'', failed⟩ := broken.open_error (f := filesAfter w kept) rfl target
        rw [failed] at opened
        cases opened
      · obtain ⟨wal', run, target, log, ready, load⟩ := holds.reopen target w.wal.files.dir
        rw [filesAfter, run] at opened
        cases opened
        rw [load] at loaded
        cases loaded
        obtain ⟨rest, cons⟩ := filter_recovered (p := p) (inv before).consecutive one
        rw [eq, rest]
        refine ⟨target, log ▸ synced_repairLast _ _, cons, p, segs, ready, ⟨?_, ?_⟩, bounded⟩
        · rw [eq, List.drop_append_of_le_length le]
        · rw [List.length_append]
          omega

/-- The WAL recovers from a crash exactly when the crash does not end inside the creation of a
segment. -/
theorem crash_recovery_iff {w : WalWorld} (ht : SEGMENT_HEADER_LEN < target)
    (reachable : (crashSystem crc target).Reachable w) (room : Room w) {c : Call}
    {kept : List Effect} (crash : Crash crc w c kept) :
    Recovers crc target w c kept ↔ endsInHeader kept = false := by
  have inv := WalInv.of_reachable ht reachable room
  obtain ⟨p₀, segs₀, ready, logs, -⟩ := inv.ready
  have last : w.wal.state.bounds.lastDurable = w.history.length := by
    rw [ready.state, ← logs.last ready.holds.chain]
    rfl
  rcases inv.crash ht room crash with
    ⟨ends, broken⟩ | ⟨ends, p, segs, tail, extra, holds, bounded, le, eq, one⟩
  · rw [ends]
    refine ⟨?_, fun h => by cases h⟩
    rintro ⟨wal, f, records, f', opened, -⟩
    obtain ⟨e, f'', failed⟩ := broken.open_error (f := filesAfter w kept) rfl target
    rw [failed] at opened
    cases opened
  · refine ⟨fun _ => ends, fun _ => ?_⟩
    obtain ⟨wal, run, -, -, -, load⟩ := holds.reopen target w.wal.files.dir
    refine ⟨wal, wal.files, _, _, run, load, p, bounded, extra, ?_, ?_⟩
    · rw [eq, inv.consecutive.filter_eq_drop]
    · rw [last]
      exact one

lemma Survives.append {rest kept : List Effect} (h : Survives rest kept) (log : List Effect) :
    Survives (log ++ rest) (log ++ kept) := by
  induction log with
  | nil => exact h
  | cons e log ih => exact .kept ih

def byteRequest (b : UInt8) : WalRequest := ⟨.new 0 1, [b], byte_ne b, byte_len b⟩

/-- A new WAL whose segments are full after one record. -/
def freshWorld : WalWorld := ⟨⟨25, ⟨"wal", .empty, [], []⟩, ⟨⟨0, 0⟩, none⟩⟩, [], 0⟩

def oneRecordWorld : WalWorld := freshWorld.call crc32c (.append (byteRequest 1))

lemma oneRecordWorld_reachable : (crashSystem crc32c 25).Reachable oneRecordWorld := by
  have init : (crashSystem crc32c 25).init freshWorld := ⟨"wal", _, rfl, rfl, rfl⟩
  have step : (crashSystem crc32c 25).step freshWorld (.call (.append (byteRequest 1)))
      oneRecordWorld := rfl
  exact .step (.init init) step

/-- The second append creates a segment and writes a frame. After a crash that keeps 10 bytes of the
frame the WAL is recovered. -/
theorem crash_recovery_iff_torn_frame :
    Recovers crc32c 25 oneRecordWorld (.append (byteRequest 2)) (oneRecordWorld.wal.files.log ++
      ((newSegment crc32c 2 ++ [.syncDir]) ++
        [.write 2 ((encodeRecord crc32c (nextRecord 1 (by decide) (byteRequest 2))).take
          10)])) := by
  refine (crash_recovery_iff (by decide) oneRecordWorld_reachable ?_ ?_).2 ?_
  · show logBytes oneRecordWorld.history + 2 ^ 35 ≤ U64
    decide +kernel
  · refine ⟨oneRecordWorld.wal.files.log ++ ((newSegment crc32c 2 ++ [.syncDir]) ++
      [.write 2 (encodeRecord crc32c (nextRecord 1 (by decide) (byteRequest 2)))]),
      List.prefix_append _ _, ?_, ?_⟩
    · decide +kernel
    · exact ((Survives.torn 10 (by simp)).append _).append _
  · decide +kernel

/-- The second append creates a segment. A crash after the creation of its file leaves a directory
that cannot be opened again, and the acknowledged first record with it. -/
theorem crash_in_header_not_recovered :
    (crashSystem crc32c 25).Reachable oneRecordWorld ∧
    oneRecordWorld.history.map (·.seq) = [1] ∧
    Crash crc32c oneRecordWorld (.append (byteRequest 2))
      (oneRecordWorld.wal.files.log ++ [.create 2]) ∧
    ¬ Recovers crc32c 25 oneRecordWorld (.append (byteRequest 2))
      (oneRecordWorld.wal.files.log ++ [.create 2]) := by
  refine ⟨oneRecordWorld_reachable, by decide +kernel, ?_, ?_⟩
  · refine ⟨oneRecordWorld.wal.files.log ++ [.create 2], List.prefix_append _ _, ?_, ?_⟩
    · decide +kernel
    · exact Survives.append (.kept (.lost (by simp))) _
  · rintro ⟨wal, f, records, f', opened, -⟩
    have failed : (outcome (LocalExportWal.open crc32c 25 (filesAfter oneRecordWorld
        (oneRecordWorld.wal.files.log ++ [.create 2])))).isOk = false := by decide +kernel
    rw [opened] at failed
    cases failed

end Wal

end NbdServer
