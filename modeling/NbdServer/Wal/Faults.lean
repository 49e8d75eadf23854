import NbdServer.Lib.System
import NbdServer.Wal.Log

/-!
# Failed appends of the local WAL

Runs of one WAL in which any file operation of an append may fail, a failed write leaving any part
of its bytes, with scans by reopening, replay and pruning in between. An append that is told of a
failure keeps the state of the WAL and leaves what it wrote in the segment; the next append writes
after it and takes the same sequence again. An append that is not told of a failed write
(`writeAll`) acknowledges a record that is not in the file. The log stays usable in the runs that
never append to a segment with bytes of a failed append at its end (`Clean`) and whose appends are
told of every failed write (`Told`).
-/

namespace NbdServer

namespace Wal

open Lib

/-- A WAL in use, with the records acknowledged by its appends, the highest prune request, and the
bytes of all frames that were to be appended. -/
structure FaultWorld where
  wal : LocalExportWal
  acked : List WalRecord
  pruneRequest : Nat
  attempted : Nat

/-- A call, or a reopening of the directory. The file operations of an append are answered by
`plan`. -/
inductive FaultEvent where
  | append (request : WalRequest) (plan : List Outcome)
  | replay (after through : Nat)
  | prune (seq : Nat)
  | reopen

/-- The WAL with other answers to its next file operations. -/
def LocalExportWal.withPlan (w : LocalExportWal) (plan : List Outcome) : LocalExportWal :=
  { w with files := { w.files with plan := plan } }

def FaultWorld.next (crc : Checksum) (w : FaultWorld) : FaultEvent → FaultWorld
  | .append request plan =>
    let result := Wal.append crc request (w.wal.withPlan plan)
    { w with
      wal := (finalState result).withPlan []
      acked := w.acked ++ (outcome result).toOption.toList
      attempted := w.attempted + (40 + request.data.length) }
  | .replay after through => { w with wal := finalState (replayRange crc after through w.wal) }
  | .prune seq =>
    { w with
      wal := finalState (pruneThrough crc seq w.wal)
      pruneRequest := max w.pruneRequest seq }
  | .reopen => { w with wal := ((outcome (w.wal.reopen crc)).toOption).getD w.wal }

/-- The file of the active segment is as long as the WAL knows it: no bytes of a failed append are
at its end. -/
def Clean (w : LocalExportWal) : Prop :=
  ∀ active, w.state.active = some active →
    (w.files.disk.find active.path).map List.length = some active.lenBytes

instance (w : LocalExportWal) : Decidable (Clean w) :=
  decidable_of_iff (∀ active ∈ w.state.active,
    (w.files.disk.find active.path).map List.length = some active.lenBytes) Iff.rfl

/-- The operations `ops` are answered by `plan`. The first failure, if there is one, meets `good`:
it is that of `op` after `n` bytes, and `rest` are the answers that are left. -/
def Passes {Op : Type} (good : Op → Nat → List Outcome → Prop) : List Op → List Outcome → Prop
  | _ :: ops, .done :: plan => Passes good ops plan
  | op :: _, .fails n :: rest => good op n rest
  | _, _ => True

inductive AppendOp where
  | write (len : Nat)
  | other
  deriving DecidableEq

/-- The append is told of the failure of an operation: a failed write is not in its last piece. -/
def AppendOp.Told : AppendOp → Nat → List Outcome → Prop
  | .write len, n, _ => ¬ FailsLast len n
  | .other, _, _ => True

/-- The opening of the active segment, the write of the frame and its sync. -/
def frameOps (request : WalRequest) : List AppendOp :=
    [.other, .write (40 + request.data.length), .other]

/-- The file operations of an append in their order. A new segment is created, its header is written
and synced, and the directory is synced; it is not created when its file exists. -/
def appendOps (w : LocalExportWal) (request : WalRequest) : List AppendOp :=
  if w.state.active.all (w.segmentTargetBytes ≤ ·.lenBytes) then
    if w.files.disk.Has (w.state.bounds.lastDurable + 1) then []
    else [.other, .write SEGMENT_HEADER_LEN, .other, .other] ++ frameOps request
  else frameOps request

def FaultWorld.Safe (w : FaultWorld) : FaultEvent → Prop
  | .append request plan => Clean w.wal ∧ Passes AppendOp.Told (appendOps w.wal request) plan
  | _ => True

/-- The runs from an empty directory whose steps all meet `safe`. -/
def faultSystem (crc : Checksum) (target : Nat) (safe : FaultWorld → FaultEvent → Prop) :
    System FaultWorld FaultEvent where
  init w := ∃ dir f, LocalExportWal.open crc target ⟨dir, .empty, [], []⟩ = .ok w.wal f ∧
    w.acked = [] ∧ w.pruneRequest = 0 ∧ w.attempted = 0
  step w event w' := safe w event ∧ w' = w.next crc event

/-- A scan that reads `records` yields every acknowledged record that was not asked to be pruned,
exactly once and in order. -/
def Yields (w : FaultWorld) (records : List WalRecord) : Prop :=
  records.Pairwise (fun a b => a.seq < b.seq) ∧
    (w.acked.filter (w.pruneRequest < ·.seq)).Sublist records

/-- Every scan of the directory succeeds and yields the acknowledged records. -/
structure Usable (crc : Checksum) (w : FaultWorld) : Prop where
  scan : ∃ scans f, scanSegments crc w.wal.files = .ok scans f ∧
    Yields w (scans.flatMap (·.records))
  reopen : ∃ wal f records f', w.wal.reopen crc = .ok wal f ∧
    loadRecords crc wal.files = .ok records f' ∧ Yields w records
  replay : ∀ after through, validateReplayRange w.wal.state.bounds after through = .ok () →
    ∃ records wal, replayRange crc after through w.wal = .ok records wal ∧
      records.Pairwise (fun a b => a.seq < b.seq) ∧
      (w.acked.filter fun r => after < r.seq ∧ r.seq ≤ through).Sublist records
  prune : ∀ seq ≤ w.wal.state.bounds.lastDurable, ∃ result wal,
    pruneThrough crc seq w.wal = .ok result wal

/-- How the state of a WAL, which belongs to the first chain, may be behind its directory, which
holds the second chain with a tail: an append failed and left a part of its frame, its whole frame,
or a new segment. -/
inductive Behind (crc : Checksum) (target p : Nat) :
    List Segment → List Segment → Buf → Prop where
  | tail {segs tail} : Behind crc target p segs segs tail
  | frame {init s r} (next : r.seq = Segment.last s + 1) :
      Behind crc target p (init ++ [s]) (init ++ [s.push r next]) []
  | segment {segs} : Rolls crc target segs → (segs = [] → p = 0) →
      Behind crc target p segs (segs ++ [.empty (chainLast p segs)]) []

/-- An open WAL with the state of the chain `segs`, whose directory holds the chain `disk`. -/
structure Trails (crc : Checksum) (target : Nat) (w : LocalExportWal) (p : Nat)
    (segs disk : List Segment) (tail : Buf) : Prop where
  segmentTarget : w.segmentTargetBytes = target
  plan : w.files.plan = []
  state : w.state = stateOf crc p segs
  holds : Holds crc w.files.disk p disk tail
  behind : Behind crc target p segs disk tail

/-- What holds of a WAL in a run whose appends all meet the condition: its directory holds a history
with all acknowledged records. -/
def FaultInv (crc : Checksum) (target : Nat) (w : FaultWorld) : Prop :=
  ∃ p segs disk tail history, Trails crc target w.wal p segs disk tail ∧ Logs history p disk ∧
    Consecutive 0 history ∧ p ≤ w.pruneRequest ∧ w.acked.Sublist history ∧
    logBytes history ≤ w.attempted

variable {crc : Checksum} {target : Nat}

/-- The files in the middle of a call: the answers left and the effects issued. -/
def Files.mid (f : Files) (plan : List Outcome) (effects : List Effect) : Files :=
  { f.issue effects with plan := plan }

def LocalExportWal.mid (w : LocalExportWal) (plan : List Outcome) (effects : List Effect)
    (state : LocalWalState) : LocalExportWal :=
  { w with files := w.files.mid plan effects, state := state }

lemma mid_disk (f : Files) (plan : List Outcome) (effects : List Effect) :
    (f.mid plan effects).disk = replay f.disk effects := Files.disk_issue f effects

lemma mid_issue (f : Files) (plan plan' : List Outcome) (effects effects' : List Effect) :
    Files.issue { f.mid plan effects with plan := plan' } effects' =
      f.mid plan' (effects ++ effects') := by
  simp [Files.mid, Files.issue]

lemma withPlan_eq (w : LocalExportWal) (plan : List Outcome) :
    w.withPlan plan = w.mid plan [] w.state := by
  simp [LocalExportWal.mid, LocalExportWal.withPlan, Files.mid]

lemma mid_withPlan {w : LocalExportWal} (h : w.files.plan = []) (plan : List Outcome)
    (effects : List Effect) (state : LocalWalState) :
    (w.mid plan effects state).withPlan [] = w.after effects state := by
  obtain ⟨target, ⟨dir, base, log, plan⟩, st⟩ := w
  cases h
  rfl

section Rules

variable {Op : Type} {good : Op → Nat → List Outcome → Prop} {op : Op} {ops : List Op}
  {f : Files} {plan : List Outcome} {effects : List Effect} {err : Files → Prop}

lemma passes_nil : Passes good ops [] := by
  cases ops <;> trivial

lemma passes_true : Passes (fun (_ : Op) _ _ => True) ops plan := by
  fun_induction Passes <;> trivial

lemma ends_perform {context : String} {e : Effect} {ok : Unit → Files → Prop}
    (passes : Passes good (op :: ops) plan)
    (done : ∀ rest, Passes good ops rest → ok () (f.mid rest (effects ++ [e])))
    (failed : ∀ n rest, good op n rest → err (f.mid rest (effects ++ e.part n))) :
    Ends (perform context e) (f.mid plan effects) ok err := by
  rcases plan with _ | ⟨_ | n, rest⟩
  · exact .of_ok rfl (mid_issue f [] [] effects [e] ▸ done [] passes_nil)
  · exact .of_ok rfl (mid_issue f _ rest effects [e] ▸ done rest passes)
  · exact .of_error rfl (mid_issue f _ rest effects (e.part n) ▸ failed n rest passes)

lemma ends_writeAll {context : String} {seq : Nat} {bytes : Buf} {ok : Unit → Files → Prop}
    (passes : Passes good (op :: ops) plan)
    (told : ∀ n rest, good op n rest → ¬ FailsLast bytes.length n)
    (done : ∀ rest, Passes good ops rest → ok () (f.mid rest (effects ++ [.write seq bytes])))
    (failed : ∀ n rest, good op n rest →
    err (f.mid rest (effects ++ [.write seq (bytes.take n)]))) :
    Ends (writeAll context seq bytes) (f.mid plan effects) ok err := by
  rcases plan with _ | ⟨_ | n, rest⟩
  · exact .congr (y := perform context _) rfl (ends_perform passes done failed)
  · exact .congr (y := perform context _) rfl (ends_perform passes done failed)
  · have heard : writeAll context seq bytes (f.mid (.fails n :: rest) effects) =
        .error (ioError context "the operation failed")
            (f.mid rest (effects ++ [.write seq (bytes.take n)])) := by
      rw [← mid_issue f (.fails n :: rest) rest]
      exact if_neg (told n rest passes)
    exact .of_error heard (failed n rest passes)

lemma ends_openSegment {context : String} {path : Nat} {ok : Unit → Files → Prop}
    (has : (replay f.disk effects).Has path) (passes : Passes good (op :: ops) plan)
    (done : ∀ rest, Passes good ops rest → ok () (f.mid rest effects))
    (failed : ∀ n rest, good op n rest → err (f.mid rest effects)) :
    Ends (openSegment context path) (f.mid plan effects) ok err := by
  rw [← mid_disk f plan effects] at has
  refine .bind (.of_ok (checkExists_ok has context) ?_)
  rcases plan with _ | ⟨_ | n, rest⟩
  · exact .of_ok rfl (done [] passes_nil)
  · exact .of_ok rfl (done rest passes)
  · exact .of_error rfl (failed n rest passes)

/-- The creation of a segment fails without effect, leaves the file with its header, or succeeds.
The header is one piece, so that no failure of its write is reported. -/
lemma ends_writeNewSegment {k : Nat} {header sync : Op} {ok : Unit → Files → Prop}
    (new : ¬ (replay f.disk effects).Has k)
    (passes : Passes good (op :: header :: sync :: ops) plan)
    (whole : ∀ n rest, ¬ good header n rest)
    (done : ∀ rest, Passes good ops rest → ok () (f.mid rest (effects ++ newSegment crc k)))
    (same : ∀ n rest, good op n rest → err (f.mid rest effects))
    (left : ∀ n rest, good sync n rest →
      err (f.mid rest (effects ++ [.create k, .write k (encodeSegmentHeader crc k)]))) :
    Ends (writeNewSegment crc k) (f.mid plan effects) ok err := by
  rw [← mid_disk f plan effects] at new
  refine .bind ?_
  rw [Ends, createNew, if_neg new]
  refine ends_perform passes (fun rest passes => ?_) fun n rest bad => ?_
  · refine .bind (ends_writeAll passes (fun n rest bad => absurd bad (whole n rest))
      (fun rest passes => ?_) fun n rest bad => absurd bad (whole n rest))
    refine ends_perform passes (fun rest passes => ?_) fun n rest bad => ?_
    · simpa [newSegment] using done rest passes
    · simpa [Effect.part] using left n rest bad
  · simpa [Effect.part] using same n rest bad

lemma ends_onFiles {α : Type} {x : FileM α} {w : LocalExportWal} {state : LocalWalState}
    {ok : α → LocalExportWal → Prop} {err : LocalExportWal → Prop}
    (h : Ends x (w.files.mid plan effects) (fun a f => ok a { w with files := f, state := state })
      fun f => err { w with files := f, state := state }) :
    Ends (onFiles x) (w.mid plan effects state) ok err := by
  show Ends (onFiles x) { w with files := w.files.mid plan effects, state := state } ok err
  cases run : x (w.files.mid plan effects) with
  | ok a f =>
    rw [Ends, run] at h
    exact .of_ok (onPart_ok run) h
  | error e f =>
    rw [Ends, run] at h
    exact .of_error (onPart_error run) h

end Rules

/-- The WAL `w` after a failed append of `r` to the chain with `records`. -/
def Failed (crc : Checksum) (w : LocalExportWal) (p : Nat) (records : List WalRecord)
    (r : WalRecord) (w' : LocalExportWal) : Prop :=
  ∃ rest effects segs disk tail, w' = w.mid rest effects (stateOf crc p segs) ∧
    Holds crc (replay w.files.disk effects) p disk tail ∧
    Behind crc w.segmentTargetBytes p segs disk tail ∧
    (chainRecords disk = records ∨ chainRecords disk = records ++ [r])

/-- The WAL `w` after an acknowledged append of `r` to the chain with `records`. -/
def Succeeded (crc : Checksum) (w : LocalExportWal) (p : Nat) (records : List WalRecord)
    (r : WalRecord) (w' : LocalExportWal) : Prop :=
  ∃ rest effects segs, w' = w.mid rest effects (stateOf crc p segs) ∧
    Holds crc (replay w.files.disk effects) p segs [] ∧ chainRecords segs = records ++ [r]

lemma ends_appendRecord {w : LocalExportWal} {p : Nat} {init : List Segment} {s : Segment}
    {plan : List Outcome} {effects : List Effect}
    (h : Holds crc (replay w.files.disk effects) p (init ++ [s]) []) {request : WalRequest}
    (passes : Passes AppendOp.Told (frameOps request) plan) (lt : s.last + 1 < U64)
    (room : p + logBytes (chainRecords (init ++ [s])) +
      logBytes [nextRecord s.last lt request] + 2 ^ 34 ≤ U64) :
    let r := nextRecord s.last lt request
    Ends (appendRecord crc request) (w.mid plan effects (stateOf crc p (init ++ [s])))
      (fun r' w' => r' = r ∧ Succeeded crc w p (chainRecords (init ++ [s])) r w')
      (Failed crc w p (chainRecords (init ++ [s])) r) := by
  intro r
  have pushed := h.push (r := r) rfl room
  have records : chainRecords (init ++ [s.push r rfl]) = chainRecords (init ++ [s]) ++ [r] := by
    simp [chainRecords, Segment.push]
  have bounds : (stateOf crc p (init ++ [s])).bounds.lastDurable = s.last := chainLast_append _ _ _
  have active := stateOf_active crc p init s
  have has : (replay w.files.disk effects).Has s.firstSeq := by
    rw [OrdMap.has_iff, h.files, image_concat]
    exact ⟨_, List.mem_append_right _ List.mem_cons_self⟩
  -- a write that fails after `n` bytes leaves a part of the frame, or the whole of it
  have torn : ∀ n rest, Failed crc w p (chainRecords (init ++ [s])) r
      (w.mid rest (effects ++ [.write s.firstSeq ((encodeRecord crc r).take n)])
        (stateOf crc p (init ++ [s]))) := by
    intro n rest
    by_cases all : (encodeRecord crc r).take n = encodeRecord crc r
    · refine ⟨_, _, _, _, [], rfl, ?_, .frame (r := r) rfl, .inr records⟩
      simpa [all] using pushed
    · refine ⟨_, _, _, _, (encodeRecord crc r).take n, rfl, ?_, .tail, .inl rfl⟩
      refine ⟨h.chain, h.start, ?_, .inr ⟨r, List.take_prefix _ _, all⟩, h.room⟩
      simpa using files_write ((encodeRecord crc r).take n) h.files
  have start : appendRecord crc request (w.mid plan effects (stateOf crc p (init ++ [s]))) =
      (do
        onFiles (openSegment "open WAL segment for append" s.firstSeq)
        onFiles (writeAll "write WAL record" s.firstSeq (encodeRecord crc r))
        onFiles (perform "sync WAL segment" (.sync s.firstSeq))
        setState (stateOf crc p (init ++ [s.push r rfl]))
        pure r : WalM WalRecord) (w.mid plan effects (stateOf crc p (init ++ [s]))) := by
    have state : stateOf crc p (init ++ [s.push r rfl]) = _ := stateOf_push _
    rw [appendRecord, get_bind]
    simp only [LocalExportWal.mid, bounds, active, state]
    rw [nextSeqAfter_eq lt, lift_ok_bind, fromRequest_ok lt (Nat.succ_ne_zero _), lift_ok_bind,
      expect_some, lift_ok_bind]
    rfl
  have told : ∀ n rest, AppendOp.Told (.write (40 + request.data.length)) n rest →
      ¬ FailsLast (encodeRecord crc r).length n := by
    intro n rest told
    rw [length_encodeRecord]
    exact told
  refine .congr start
    (.bind (ends_onFiles (ends_openSegment has passes (fun rest passes => ?_) ?_)))
  · refine .bind (ends_onFiles (ends_writeAll passes told (fun rest passes => ?_) fun n rest _ =>
      torn n rest))
    refine .bind (ends_onFiles (ends_perform passes (fun rest _ => ?_) fun n rest _ => ?_))
    · refine ⟨rfl, _, _, _, rfl, ?_, records⟩
      simpa using pushed
    · refine ⟨_, _, _, _, [], rfl, ?_, .frame (r := r) rfl, .inr records⟩
      simpa [Effect.part] using pushed
  · exact fun _ rest _ => ⟨_, _, _, _, [], rfl, h, .tail, .inl rfl⟩

lemma Ready.ends_ensureActiveSegment {w : LocalExportWal} {p : Nat} {segs : List Segment}
    (h : Ready crc w p segs) (ht : SEGMENT_HEADER_LEN < w.segmentTargetBytes) {plan : List Outcome}
    {request : WalRequest} (passes : Passes AppendOp.Told (appendOps w request) plan)
    (r : WalRecord) :
    Ends (Wal.ensureActiveSegment crc) (w.mid plan [] w.state)
      (fun _ w' => ∃ rest effects,
        w' = w.mid rest effects (stateOf crc p (ensured crc w.segmentTargetBytes p segs)) ∧
        Holds crc (replay w.files.disk effects) p (ensured crc w.segmentTargetBytes p segs) [] ∧
        Passes AppendOp.Told (frameOps request) rest)
      (Failed crc w p (chainRecords segs) r) := by
  have bounds : w.state.bounds.lastDurable = chainLast p segs := by rw [h.state]; rfl
  have roll := rolls_stateOf crc w.segmentTargetBytes p segs
  rw [← h.state] at roll
  have same : ∀ rest, Failed crc w p (chainRecords segs) r (w.mid rest [] w.state) := by
    intro rest
    rw [h.state]
    exact ⟨rest, [], segs, segs, [], rfl, h.holds, .tail, .inl rfl⟩
  have start : Wal.ensureActiveSegment crc (w.mid plan [] w.state) =
      (if Rolls crc w.segmentTargetBytes segs then do
        onFiles (writeNewSegment crc (chainLast p segs + 1))
        onFiles syncDirectory
        setState { w.state with active := some ⟨chainLast p segs + 1, SEGMENT_HEADER_LEN⟩ }
      else pure () : WalM Unit) (w.mid plan [] w.state) := by
    rw [Wal.ensureActiveSegment, get_bind,
      show (w.mid plan [] w.state).state.bounds.lastDurable = chainLast p segs from bounds,
      nextSeqAfter_eq h.holds.last_lt, lift_ok_bind]
    by_cases rolls : Rolls crc w.segmentTargetBytes segs
    · rw [if_pos rolls]
      exact congrFun (if_pos (roll.2 rolls)) _
    · rw [if_neg rolls]
      exact congrFun (if_neg fun h => rolls (roll.1 h)) _
  refine .congr start ?_
  by_cases rolls : Rolls crc w.segmentTargetBytes segs
  · have above := h.above fun s hs => records_ne_nil ht (rolls s hs)
    have new := not_has_of_above above
    have created := h.holds.newSegment above
    -- once the header is written, the segment stays
    have left : ∀ rest effects, replay w.files.disk effects =
        replay w.files.disk (newSegment crc (chainLast p segs + 1)) →
        Failed crc w p (chainRecords segs) r (w.mid rest effects w.state) := by
      intro rest effects eq
      rw [h.state]
      refine ⟨rest, effects, segs, _, [], rfl, eq ▸ created, .segment rolls h.holds.start, .inl ?_⟩
      simp [chainRecords, Segment.empty]
    rw [appendOps, if_pos (roll.2 rolls), bounds, if_neg new] at passes
    rw [if_pos rolls]
    refine .bind (ends_onFiles (ends_writeNewSegment new passes ?_ (fun rest passes => ?_)
      (fun _ rest _ => same rest) fun _ rest _ => ?_))
    · -- a failed write of the header would not be reported
      exact fun n rest told => told (Nat.zero_le _)
    · refine .bind (ends_onFiles (ends_perform passes (fun rest passes => ?_) fun n rest' _ => ?_))
      · rw [ensured, if_pos rolls, stateOf_empty, ← h.state]
        refine ⟨_, _, rfl, ?_, passes⟩
        simpa using created
      · exact left _ _ (by simp [Effect.part])
    · exact left _ _ (by simp [newSegment])
  · rw [appendOps, if_neg fun full => rolls (roll.1 full)] at passes
    rw [if_neg rolls, ensured, if_neg rolls, ← h.state]
    exact ⟨plan, [], rfl, h.holds, passes⟩

/-- An append with any answers of the operating system, on a WAL whose directory is not ahead of its
state: it acknowledges its record, or it fails and leaves the state behind the directory. -/
lemma Ready.ends_append {w : LocalExportWal} {p : Nat} {segs : List Segment}
    (h : Ready crc w p segs) (ht : SEGMENT_HEADER_LEN < w.segmentTargetBytes) {request : WalRequest}
    {plan : List Outcome} (passes : Passes AppendOp.Told (appendOps w request) plan)
    (room : p + logBytes (chainRecords segs) + logBytes [nextRecord _ h.holds.last_lt request] +
      2 ^ 34 ≤ U64) :
    let r := nextRecord _ h.holds.last_lt request
    Ends (Wal.append crc request) (w.withPlan plan)
      (fun r' w' => r' = r ∧ Succeeded crc w p (chainRecords segs) r w')
      (Failed crc w p (chainRecords segs) r) := by
  intro r
  obtain ⟨init, s, eq, last⟩ := ensured_concat crc w.segmentTargetBytes p segs
  have records : chainRecords (init ++ [s]) = chainRecords segs := by
    rw [← eq, chainRecords_ensured]
  have lt : s.last + 1 < U64 := by
    rw [last]
    exact h.holds.last_lt
  have same : nextRecord s.last lt request = r := by
    simp only [last]
    rfl
  rw [withPlan_eq]
  refine .bind ((h.ends_ensureActiveSegment ht passes r).mono ?_ fun _ failed => failed)
  rintro - w' ⟨rest, effects, rfl, holds, passes⟩
  rw [eq] at holds ⊢
  have appended := ends_appendRecord holds passes lt (by rw [records, same]; exact room)
  simp only [same, records] at appended
  exact appended

lemma Holds.last_length {d : Disk} {p : Nat} {init : List Segment} {s : Segment} {tail : Buf}
    (h : Holds crc d p (init ++ [s]) tail) :
    (d.find s.firstSeq).map List.length = some ((s.bytes crc).length + tail.length) := by
  have mem : (s.firstSeq, s.bytes crc ++ tail) ∈ image crc (init ++ [s]) tail := by
    rw [image_concat]
    exact List.mem_append_right _ List.mem_cons_self
  rw [h.found _ mem, Option.map_some, List.length_append]

namespace Trails

variable {w : LocalExportWal} {p : Nat} {segs disk : List Segment} {tail : Buf}

lemma of_ready (ready : Ready crc w p segs) (segmentTarget : w.segmentTargetBytes = target) :
    Trails crc target w p segs segs [] :=
  ⟨segmentTarget, ready.plan, ready.state, ready.holds, .tail⟩

/-- A WAL in whose active segment nothing follows the acknowledged records is up to date with its
directory, or the directory has one more segment without records. -/
lemma of_clean (h : Trails crc target w p segs disk tail) (clean : Clean w) :
    (Ready crc w p segs ∧ segs = disk) ∨
      Rolls crc target segs ∧ disk = segs ++ [.empty (chainLast p segs)] := by
  cases h.behind with
  | tail =>
    refine .inl ⟨⟨h.plan, ?_, h.state⟩, rfl⟩
    rcases List.eq_nil_or_concat' segs with rfl | ⟨init, s, rfl⟩
    · exact ⟨h.holds.chain, h.holds.start, h.holds.files, .inl rfl, h.holds.room⟩
    · have length := clean _ (h.state ▸ stateOf_active crc p init s)
      rw [h.holds.last_length, Option.some.injEq] at length
      have none : tail = [] := List.eq_nil_of_length_eq_zero (by simpa using length)
      exact none ▸ h.holds
  | frame next =>
    rename_i init s r
    have length : (w.files.disk.find s.firstSeq).map List.length = some (s.bytes crc).length :=
      clean _ (h.state ▸ stateOf_active crc p init s)
    have longer := h.holds.last_length
    rw [bytes_push, List.length_append, length_encodeRecord] at longer
    change (w.files.disk.find s.firstSeq).map List.length = _ at longer
    rw [length, Option.some.injEq] at longer
    omega
  | segment rolls _ => exact .inr ⟨rolls, rfl⟩

lemma repaired (h : Trails crc target w p segs disk tail) :
    Trails crc target (w.after (repairLast crc disk tail) w.state) p segs disk [] where
  segmentTarget := h.segmentTarget
  plan := h.plan
  state := h.state
  holds := by
    rw [after_disk]
    exact h.holds.repaired
  behind := by
    cases h.behind with
    | tail => exact .tail
    | frame next => exact .frame next
    | segment rolls start => exact .segment rolls start

lemma append_blocked (h : Trails crc target w p segs (segs ++ [.empty (chainLast p segs)]) tail)
    (rolls : Rolls crc target segs) (request : WalRequest) (plan : List Outcome) :
    ∃ e, Wal.append crc request (w.withPlan plan) = .error e (w.withPlan plan) := by
  have lt : chainLast p segs + 1 < U64 := by
    have := h.holds.last_lt
    rwa [chainLast_append] at this
  have full : (w.state.active.all (w.segmentTargetBytes ≤ ·.lenBytes)) = true := by
    rw [h.state, h.segmentTarget]
    exact (rolls_stateOf crc target p segs).2 rolls
  have bounds : (w.withPlan plan).state.bounds.lastDurable = chainLast p segs := by
    show w.state.bounds.lastDurable = _
    rw [h.state]
    rfl
  have has : (w.withPlan plan).files.disk.Has (chainLast p segs + 1) := by
    show w.files.disk.Has _
    rw [OrdMap.has_iff, h.holds.files, image_concat]
    exact ⟨_, List.mem_append_right _ List.mem_cons_self⟩
  have created : writeNewSegment crc (chainLast p segs + 1) (w.withPlan plan).files = .error _ _ :=
    bind_error (by rw [createNew, if_pos has])
  refine ⟨ioError "create WAL segment" "File exists (os error 17)", bind_error ?_⟩
  rw [Wal.ensureActiveSegment, get_bind, bounds, nextSeqAfter_eq lt, lift_ok_bind]
  exact (congrFun (if_pos full) _).trans (bind_error (onPart_error created))

end Trails

lemma Logs.room {history : List WalRecord} {p n : Nat} {segs : List Segment}
    (logs : Logs history p segs) (bytes : logBytes history ≤ n) (r : WalRecord)
    (room : n + (40 + r.data.length) + 2 ^ 35 ≤ U64) :
    p + logBytes (chainRecords segs) + logBytes [r] + 2 ^ 34 ≤ U64 := by
  have := logs.bytes
  have one : logBytes [r] = 40 + r.data.length := by simp [logBytes]
  omega

lemma next_append_ok {w : FaultWorld} {request : WalRequest} {plan : List Outcome} {r : WalRecord}
    {w' : LocalExportWal} (run : Wal.append crc request (w.wal.withPlan plan) = .ok r w') :
    w.next crc (.append request plan) = ⟨w'.withPlan [], w.acked ++ [r], w.pruneRequest,
      w.attempted + (40 + request.data.length)⟩ := by
  simp only [FaultWorld.next, run]
  rfl

lemma next_append_error {w : FaultWorld} {request : WalRequest} {plan : List Outcome} {e : Fault}
    {w' : LocalExportWal} (run : Wal.append crc request (w.wal.withPlan plan) = .error e w') :
    w.next crc (.append request plan) = ⟨w'.withPlan [], w.acked, w.pruneRequest,
      w.attempted + (40 + request.data.length)⟩ := by
  simp [FaultWorld.next, run, finalState, outcome, Except.toOption]

lemma FaultInv.append {w : FaultWorld} (inv : FaultInv crc target w)
    (ht : SEGMENT_HEADER_LEN < target) {request : WalRequest} {plan : List Outcome}
    (safe : w.Safe (.append request plan))
    (room : w.attempted + (40 + request.data.length) + 2 ^ 35 ≤ U64) :
    FaultInv crc target (w.next crc (.append request plan)) := by
  obtain ⟨p, segs, disk, tail, history, trails, logs, cons, bounded, acked, bytes⟩ := inv
  obtain ⟨clean, passes⟩ := safe
  rcases trails.of_clean clean with ⟨ready, rfl⟩ | ⟨rolls, rfl⟩
  · have fits := logs.room bytes (nextRecord _ ready.holds.last_lt request) room
    have ends := ready.ends_append (by rw [trails.segmentTarget]; exact ht) passes fits
    have seq : (nextRecord _ ready.holds.last_lt request).seq = 0 + history.length + 1 := by
      rw [Nat.zero_add, ← logs.last ready.holds.chain]
      rfl
    have more : logBytes (history ++ [nextRecord _ ready.holds.last_lt request]) ≤
        w.attempted + (40 + request.data.length) := by
      rw [logBytes_append]
      exact Nat.add_le_add bytes (by simp [logBytes, nextRecord])
    cases run : Wal.append crc request (w.wal.withPlan plan) with
    | ok r w' =>
      rw [next_append_ok run]
      rw [Ends, run] at ends
      obtain ⟨rfl, rest, effects, segs', rfl, holds, records⟩ := ends
      refine ⟨p, segs', segs', [], _, ?_, logs.append records, cons.concat seq, bounded,
        acked.append (List.Sublist.refl _), more⟩
      simp only [mid_withPlan trails.plan]
      exact .of_ready (ready.after holds) trails.segmentTarget
    | error e w' =>
      rw [next_append_error run]
      rw [Ends, run] at ends
      obtain ⟨rest, effects, segs', disk', tail', rfl, holds, behind, records⟩ := ends
      have trails' : Trails crc target
          ((w.wal.mid rest effects (stateOf crc p segs')).withPlan []) p segs' disk' tail' := by
        rw [mid_withPlan trails.plan]
        refine ⟨trails.segmentTarget, trails.plan, rfl, ?_, trails.segmentTarget ▸ behind⟩
        rw [after_disk]
        exact holds
      rcases records with same | pushed
      · exact ⟨p, segs', disk', tail', history, trails', ⟨same.trans logs.records, logs.le⟩, cons,
          bounded, acked, bytes.trans (Nat.le_add_right _ _)⟩
      · exact ⟨p, segs', disk', tail', _, trails', logs.append pushed, cons.concat seq, bounded,
          acked.trans (List.sublist_append_left _ _), more⟩
  · obtain ⟨e, run⟩ := trails.append_blocked rolls request plan
    have same : (w.wal.withPlan plan).withPlan [] = w.wal := by
      obtain ⟨⟨target, ⟨dir, base, log, plan'⟩, st⟩, acked, n, m⟩ := w
      cases trails.plan
      rfl
    rw [next_append_error run, same]
    exact ⟨p, segs, _, tail, history, trails, logs, cons, bounded, acked,
      bytes.trans (Nat.le_add_right _ _)⟩

lemma pruneThrough_repaired {w : LocalExportWal} {p seq : Nat} {disk : List Segment} {tail : Buf}
    (h : Holds crc w.files.disk p disk tail) (plan : w.files.plan = [])
    (le : seq ≤ w.state.bounds.lastDurable) :
    pruneThrough crc seq w =
      pruneThrough crc seq (w.after (repairLast crc disk tail) w.state) := by
  have repaired := h.repaired
  rw [← after_disk _ _ w.state] at repaired
  have again := repaired.scanSegments plan
  rw [repairLast_nil] at again
  rw [pruneThrough, get_bind, if_neg (not_lt.2 le), bind_ok (onFiles_ok (h.scanSegments plan)),
    get_bind, after_state, if_neg (not_lt.2 le), bind_ok (onFiles_ok again), after_after,
    List.append_nil]
  rfl

/-- What a prune of the sequences up to `seq` leaves. -/
def PruneOk (crc : Checksum) (target : Nat) (w : LocalExportWal) (p seq : Nat)
    (disk : List Segment) : Prop :=
  ∃ result w' p' segs' disk', pruneThrough crc seq w = .ok result w' ∧
    Trails crc target w' p' segs' disk' [] ∧ p' ≤ max p seq ∧
    ∀ history, Logs history p disk → Logs history p' disk'

namespace Trails

variable {w : LocalExportWal} {p seq : Nat} {segs disk : List Segment} {tail : Buf}

lemma prune_ready (h : Trails crc target w p segs segs []) (le : seq ≤ chainLast p segs) :
    PruneOk crc target w p seq segs := by
  have ready : Ready crc w p segs := ⟨h.plan, h.holds, h.state⟩
  rcases List.eq_nil_or_concat' segs with rfl | ⟨init, s, rfl⟩
  · exact ⟨_, w, p, [], [], ready.pruneThrough_empty le, h, le_max_left _ _, fun _ logs => logs⟩
  · have chain := h.holds.chain
    obtain ⟨gone, stay, rfl, retired, later⟩ := chain.append_left.split seq
    obtain ⟨removed, run, after⟩ := ready.pruneThrough retired later (chain.stay_eq_nil later) le
    exact ⟨_, _, _, _, _, run, .of_ready after h.segmentTarget, chain.pruned_le le_rfl retired,
      fun _ logs => logs.pruned chain⟩

lemma lastDurable_concat {init : List Segment} {s : Segment}
    (h : Trails crc target w p (init ++ [s]) disk tail) : w.state.bounds.lastDurable = s.last := by
  rw [h.state]
  exact chainLast_append p init [s]

lemma active_concat {init : List Segment} {s : Segment}
    (h : Trails crc target w p (init ++ [s]) disk tail) :
    w.state.active.map (·.path) = some s.firstSeq := by
  rw [h.state, stateOf_active]
  rfl

lemma scanned (h : Trails crc target w p segs disk []) :
    scanSegments crc w.files = .ok (disk.map (Segment.scan crc)) w.files := by
  have scanned := h.holds.scanSegments h.plan
  rwa [repairLast_nil, Files.issue_nil] at scanned

lemma prune_frame {init : List Segment} {s : Segment} {r : WalRecord} (next : r.seq = s.last + 1)
    (h : Trails crc target w p (init ++ [s]) (init ++ [s.push r next]) [])
    (le : seq ≤ chainLast p (init ++ [s])) :
    PruneOk crc target w p seq (init ++ [s.push r next]) := by
  have chain := h.holds.chain
  have last : (s.push r next).last = s.last + 1 := by
    simp [Segment.last, Segment.push, Nat.add_assoc]
  rw [chainLast_append] at le
  change seq ≤ s.last at le
  -- the frame that was not acknowledged is above `seq`
  have stays : ¬ RollsOver (s.push r next) seq := by
    intro rolls
    have := rolls.2
    omega
  have active : w.state.active.map (·.path) = some (s.push r next).firstSeq := h.active_concat
  obtain ⟨gone, stay, rfl, retired, later⟩ := chain.append_left.split seq
  obtain ⟨removed, run⟩ := pruneThrough_run h.plan h.holds active retired later
    (fun rolls => absurd rolls stays) (h.lastDurable_concat ▸ le) fun rolls => absurd rolls stays
  have effects : pruneEffects crc gone (s.push r next) seq = gone.map fun t =>
      .remove t.firstSeq := by
    rw [pruneEffects, if_neg stays, List.append_nil]
  simp only [effects] at run
  cases gone with
  | nil =>
    have same : w.after [] w.state = w := after_nil w
    simp only [List.map_nil, if_true, syncIfChanged, List.append_nil, same] at run
    exact ⟨_, w, p, _, _, run, h, le_max_left _ _, fun _ logs => logs⟩
  | cons t gone =>
    have holds := h.holds.pruned fun rolls => absurd rolls stays
    refine ⟨_, _, _, _, _, run, .of_ready ⟨h.plan, ?_, rfl⟩ h.segmentTarget,
      chain.pruned_le le_rfl retired, fun _ logs => logs.pruned chain⟩
    rw [after_disk, replay_append, ← effects]
    exact holds

lemma find_active_before {d : Disk} {init : List Segment} {s e : Segment}
    (files : d.entries = image crc (init ++ [s] ++ [e]) []) :
    (∀ t ∈ init, t.firstSeq ≠ s.firstSeq) ∧ e.firstSeq ≠ s.firstSeq ∧
      ((init ++ [s] ++ [e]).map (Segment.scan crc)).find? (some ·.path = some s.firstSeq) =
        some (s.scan crc) := by
  have removed := files_remove_last files
  obtain ⟨ne, found⟩ := find_active removed
  refine ⟨ne, ?_, ?_⟩
  · have ord := d.ordered
    rw [files, image_concat] at ord
    have lt := (List.pairwise_append.1 ord).2.2 (s.firstSeq, s.bytes crc)
      (List.mem_map.2 ⟨s, by simp, rfl⟩) _ List.mem_cons_self
    exact lt.ne'
  · rw [List.map_append, List.find?_append, found]
    rfl

lemma prune_segment_kept {init : List Segment} {s : Segment}
    (h : Trails crc target w p (init ++ [s]) (init ++ [s] ++ [.empty s.last]) [])
    (lt : seq < s.last) : PruneOk crc target w p seq (init ++ [s] ++ [.empty s.last]) := by
  have chain := h.holds.chain
  have stays : ¬ RollsOver s seq := fun rolls => by
    have := rolls.2
    omega
  obtain ⟨ne, -, found⟩ := find_active_before h.holds.files
  obtain ⟨gone, stay, rfl, retired, later⟩ := chain.append_left.append_left.split seq
  have split : gone ++ stay ++ [s] ++ [Segment.empty s.last] =
      gone ++ (stay ++ [s]) ++ [.empty s.last] := by simp
  have files := h.holds.files
  have dropped := Holds.drop (split ▸ h.holds)
  rw [split, List.append_assoc] at files
  have removing : removeRetired crc (some s.firstSeq) seq
      ((gone ++ stay ++ [s] ++ [Segment.empty s.last]).map (Segment.scan crc)) 0 w =
      .ok gone.length (w.after (gone.map fun t => .remove t.firstSeq) w.state) := by
    rw [split, List.append_assoc]
    refine removeRetired_split h.plan files retired (fun t ht => ne t (List.mem_append_left _ ht))
      ?_
    intro t ht
    simp only [List.append_assoc, List.mem_append, List.mem_singleton] at ht
    rcases ht with ht | rfl | rfl
    · exact .inr (later t ht)
    · exact .inl rfl
    · exact .inr lt
  obtain ⟨state, same, rolling⟩ := pruneActive_ok (n := gone.length)
    (w := w.after (gone.map fun t => .remove t.firstSeq) w.state) h.plan found
    (fun rolls => absurd rolls stays) (fun rolls => absurd rolls stays)
    (by have := h.holds.last_lt; rwa [chainLast_append] at this)
  rw [if_neg stays, if_neg stays, Nat.add_zero, same stays, after_after, List.append_nil] at rolling
  rw [← h.active_concat] at removing rolling
  have run :=
    pruneThrough_of h.plan (h.lastDurable_concat ▸ lt.le) h.scanned removing rolling dropped
  cases gone with
  | nil =>
    rw [if_neg (by simp)] at run
    have still : w.after [] w.state = w := after_nil w
    simp only [List.map_nil, still] at run
    exact ⟨_, w, p, _, _, run, h, le_max_left _ _, fun _ logs => logs⟩
  | cons t gone =>
    rw [if_pos (by simp)] at run
    refine ⟨_, _, _, _, _, run, .of_ready ⟨h.plan, ?_, rfl⟩ h.segmentTarget, ?_, ?_⟩
    · rw [after_disk, replay_append]
      exact dropped
    · exact chain.append_left.append_left.append_left.last_le retired le_rfl
    · intro history logs
      rw [split, List.append_assoc] at logs chain
      exact logs.drop chain

lemma removeRetired_segment {init : List Segment} {s : Segment}
    (h : Trails crc target w p (init ++ [s]) (init ++ [s] ++ [.empty s.last]) [])
    (le : s.last ≤ seq) :
    removeRetired crc (some s.firstSeq) seq
      ((init ++ [s] ++ [Segment.empty s.last]).map (Segment.scan crc)) 0 w =
      .ok (init.length + 1)
      (w.after (init.map (fun t => .remove t.firstSeq) ++ [.remove (s.last + 1)])
        w.state) := by
  have chain := h.holds.chain.append_left
  obtain ⟨ne, other, -⟩ := find_active_before h.holds.files
  have retired : ∀ t ∈ init, t.last ≤ seq := by
    intro t ht
    have := (chain.bounds.2 t (List.mem_append_left _ ht)).2
    rw [chainLast_append] at this
    exact le_trans this le
  have dropped : Holds crc (replay w.files.disk _) _ ([s] ++ [Segment.empty s.last]) [] :=
    h.holds.drop
  have files := h.holds.files
  rw [List.append_assoc] at files ⊢
  have has : (w.after (init.map fun t => .remove t.firstSeq) w.state).files.disk.Has
      ((Segment.empty s.last).scan crc).path := by
    rw [after_disk, OrdMap.has_iff, dropped.files, image_concat]
    exact ⟨_, List.mem_append_right _ List.mem_cons_self⟩
  have plan' : (w.after (init.map fun t => .remove t.firstSeq) w.state).files.plan = [] := h.plan
  rw [List.map_append, removeRetired_gone h.plan files retired ne, Nat.zero_add]
  have here : some (s.scan crc).path = some s.firstSeq := rfl
  have there : ¬ some ((Segment.empty s.last).scan crc).path = some s.firstSeq := fun e =>
    other (Option.some.inj e)
  have below : (Segment.empty s.last).last ≤ seq := le
  simp only [List.map_cons, List.map_nil, List.singleton_append]
  rw [removeRetired, if_pos here, removeRetired, if_neg there, maxSeq_scan,
    lift_ok_bind, if_pos below, bind_ok (removeOrReload_ok plan' has _ _), removeRetired,
      after_after,
    after_state, pure_run]
  rfl

/-- A prune of all records, while the directory has one more segment: this segment is removed, and
the active segment is replaced by a new one of the same name. -/
lemma prune_segment_rolled {init : List Segment} {s : Segment} (ne : s.records ≠ [])
    (h : Trails crc target w p (init ++ [s]) (init ++ [s] ++ [.empty s.last]) [])
    (le : s.last ≤ seq) (bound : seq ≤ s.last) :
    PruneOk crc target w p seq (init ++ [s] ++ [.empty s.last]) := by
  have chain := h.holds.chain
  have rolls : RollsOver s seq := ⟨ne, le⟩
  obtain ⟨-, -, found⟩ := find_active_before h.holds.files
  have removing := h.removeRetired_segment le
  -- the directory is left with the active segment alone
  have alone : Holds crc (replay w.files.disk
      (init.map (fun t => .remove t.firstSeq) ++ [.remove (s.last + 1)])) (chainLast p init) [s]
          [] := by
    have dropped : Holds crc (replay w.files.disk _) _ ([s] ++ [Segment.empty s.last]) [] :=
      h.holds.drop
    rw [replay_append]
    refine ⟨dropped.chain.append_left, (fun e => by cases e), files_remove_last dropped.files,
      .inl rfl, ?_⟩
    have room := dropped.room
    rw [chainRecords_append, logBytes_append] at room
    omega
  obtain ⟨state, -, rolling⟩ := pruneActive_ok (n := init.length + 1) (w := w.after _ w.state)
    h.plan
    found (fun _ => by rw [after_disk]; exact alone.files) (fun _ => h.lastDurable_concat)
    (by have := h.holds.last_lt; rwa [chainLast_append] at this)
  rw [if_pos rolls, if_pos rolls, after_after] at rolling
  rw [← h.active_concat] at removing rolling
  have replaced : Holds crc (replay _ (pruneEffects crc [] s seq))
      (Wal.pruned (chainLast p init) [] [] s seq).1 (Wal.pruned (chainLast p init) [] [] s seq).2
          [] :=
    alone.pruned fun _ => rfl
  simp only [pruneEffects, Wal.pruned, if_pos rolls, List.map_nil, List.nil_append] at replaced
  rw [← replay_append] at replaced
  have run :=
    pruneThrough_of h.plan (h.lastDurable_concat ▸ bound) h.scanned removing rolling replaced
  rw [if_pos (Nat.succ_pos _)] at run
  refine ⟨_, _, _, _, _, run, .of_ready ⟨h.plan, ?_, rfl⟩ h.segmentTarget, le_max_of_le_right le,
    ?_⟩
  · rw [after_disk, replay_append]
    exact replaced
  · intro history logs
    refine .empty ?_
    rw [← logs.last chain, chainLast_append]
    rfl

lemma prune_segment_empty (h : Trails crc target w 0 [] [.empty 0] []) (le : seq ≤ 0) :
    PruneOk crc target w 0 seq [.empty 0] := by
  have active : w.state.active.map (·.path) = none := by
    rw [h.state]
    rfl
  have bounds : w.state.bounds.lastDurable = 0 := by
    rw [h.state]
    rfl
  have has : w.files.disk.Has ((Segment.empty 0).scan crc).path := by
    rw [OrdMap.has_iff, h.holds.files]
    exact ⟨_, List.mem_cons_self⟩
  have gone : Holds crc (replay w.files.disk [.remove 1]) 0 [] [] :=
    ⟨trivial, fun _ => rfl, files_remove h.holds.files, .inl rfl, by decide⟩
  have removing : removeRetired crc none seq ([Segment.empty 0].map (Segment.scan crc)) 0 w =
      .ok 1 (w.after [.remove 1] w.state) := by
    have below : (Segment.empty 0).last ≤ seq := Nat.zero_le seq
    rw [List.map_cons, removeRetired, if_neg (by simp), maxSeq_scan, lift_ok_bind, if_pos below,
      bind_ok (removeOrReload_ok h.plan has _ _)]
    rfl
  have rolling : pruneActive crc none seq ([Segment.empty 0].map (Segment.scan crc)) 1
      (w.after [.remove 1] w.state) = .ok 1 (w.after [.remove 1] w.state) := rfl
  rw [← active] at removing rolling
  have run := pruneThrough_of h.plan (by rw [bounds]; exact le) h.scanned removing rolling gone
  rw [if_pos Nat.one_pos] at run
  refine ⟨_, _, _, _, _, run, .of_ready ⟨h.plan, ?_, rfl⟩ h.segmentTarget, Nat.zero_le _, ?_⟩
  · rw [after_disk, replay_append]
    exact gone
  · exact fun history logs => ⟨logs.records, logs.le⟩

lemma prune (ht : SEGMENT_HEADER_LEN < target) (h : Trails crc target w p segs disk tail)
    (le : seq ≤ w.state.bounds.lastDurable) : PruneOk crc target w p seq disk := by
  have bounds : w.state.bounds.lastDurable = chainLast p segs := by
    rw [h.state]
    rfl
  suffices again : PruneOk crc target (w.after (repairLast crc disk tail) w.state) p seq disk by
    unfold PruneOk at again ⊢
    rwa [pruneThrough_repaired h.holds h.plan le]
  have trails := h.repaired
  rw [bounds] at le
  cases h.behind with
  | tail => exact trails.prune_ready le
  | frame next => exact trails.prune_frame next le
  | segment rolls start =>
    rcases List.eq_nil_or_concat' segs with rfl | ⟨init, s, rfl⟩
    · cases start rfl
      exact trails.prune_segment_empty le
    · rw [chainLast_append] at trails le ⊢
      by_cases lt : seq < s.last
      · exact trails.prune_segment_kept lt
      · exact trails.prune_segment_rolled (records_ne_nil ht (rolls s (by simp))) (not_lt.1 lt) le

end Trails

lemma FaultInv.replay {w : FaultWorld} (inv : FaultInv crc target w) (after through : Nat) :
    FaultInv crc target (w.next crc (.replay after through)) := by
  obtain ⟨p, segs, disk, tail, history, trails, rest⟩ := inv
  cases valid : validateReplayRange w.wal.state.bounds after through with
  | error e =>
    have run : replayRange crc after through w.wal = .error e w.wal := by
      rw [replayRange, get_bind, valid, lift_error_bind]
    refine ⟨p, segs, disk, tail, history, ?_, rest⟩
    simp only [FaultWorld.next, run]
    exact trails
  | ok _ =>
    refine ⟨p, segs, disk, [], history, ?_, rest⟩
    simp only [FaultWorld.next, trails.holds.replayRange trails.plan valid]
    exact trails.repaired

lemma FaultInv.prune {w : FaultWorld} (inv : FaultInv crc target w)
    (ht : SEGMENT_HEADER_LEN < target) (seq : Nat) :
    FaultInv crc target (w.next crc (.prune seq)) := by
  obtain ⟨p, segs, disk, tail, history, trails, logs, cons, bounded, acked, bytes⟩ := inv
  by_cases le : seq ≤ w.wal.state.bounds.lastDurable
  · obtain ⟨result, w', p', segs', disk', run, trails', le', kept⟩ := trails.prune ht le
    refine ⟨p', segs', disk', [], history, ?_, kept history logs, cons, ?_, acked, bytes⟩
    · simp only [FaultWorld.next, run]
      exact trails'
    · exact le'.trans (max_le_max bounded le_rfl)
  · obtain ⟨e, run⟩ : ∃ e, pruneThrough crc seq w.wal = .error e w.wal := by
      rw [pruneThrough, get_bind, if_pos (not_le.1 le)]
      exact ⟨_, throw_run⟩
    refine ⟨p, segs, disk, tail, history, ?_, logs, cons, le_max_of_le_left bounded, acked, bytes⟩
    simp only [FaultWorld.next, run]
    exact trails

lemma FaultInv.reopen {w : FaultWorld} (inv : FaultInv crc target w) :
    FaultInv crc target (w.next crc .reopen) := by
  obtain ⟨p, segs, disk, tail, history, trails, rest⟩ := inv
  obtain ⟨wal, run, segmentTarget, -, ready, -⟩ :=
    trails.holds.reopen w.wal.segmentTargetBytes w.wal.files.dir
  refine ⟨p, disk, disk, [], history, ?_, rest⟩
  simp only [FaultWorld.next, LocalExportWal.reopen, run]
  exact .of_ready ready (segmentTarget.trans trails.segmentTarget)

lemma attempted_le (w : FaultWorld) (event : FaultEvent) :
    w.attempted ≤ (w.next crc event).attempted := by
  cases event with
  | append request plan => exact Nat.le_add_right _ _
  | replay after through => exact le_rfl
  | prune seq => exact le_rfl
  | reopen => exact le_rfl

lemma FaultInv.of_reachable {w : FaultWorld} (ht : SEGMENT_HEADER_LEN < target)
    (h : (faultSystem crc target FaultWorld.Safe).Reachable w) :
    w.attempted + 2 ^ 35 ≤ U64 → FaultInv crc target w := by
  refine System.invariant _ (P := fun w => w.attempted + 2 ^ 35 ≤ U64 → FaultInv crc target w) ?_ ?_
    h
  · rintro w ⟨dir, f, opened, none, zero, -⟩ -
    have holds : Holds crc .empty 0 [] [] := ⟨trivial, fun _ => rfl, rfl, .inl rfl, by decide⟩
    obtain ⟨wal, run, segmentTarget, -, ready, -⟩ := holds.reopen target dir
    rw [run] at opened
    cases opened
    refine ⟨0, [], [], [], [], .of_ready ready segmentTarget, .nil, .nil, Nat.zero_le _, ?_,
      Nat.zero_le _⟩
    rw [none]
  · rintro w event w' inv ⟨safe, rfl⟩ room
    have before := inv ((Nat.add_le_add_right (attempted_le w event) _).trans room)
    cases event with
    | append request plan => exact before.append ht safe room
    | replay after through => exact before.replay after through
    | prune seq => exact before.prune ht seq
    | reopen => exact before.reopen

lemma Logs.yields {w : FaultWorld} {history : List WalRecord} {p : Nat} {disk : List Segment}
    (logs : Logs history p disk) (cons : Consecutive 0 history) (bounded : p ≤ w.pruneRequest)
    (acked : w.acked.Sublist history) : Yields w (chainRecords disk) := by
  rw [logs.records]
  refine ⟨cons.pairwise.sublist (List.drop_sublist _ _), ?_⟩
  have above := acked.filter (w.pruneRequest < ·.seq)
  rw [cons.filter_eq_drop] at above
  refine above.trans ?_
  obtain ⟨k, eq⟩ := Nat.exists_eq_add_of_le bounded
  rw [eq, ← List.drop_drop]
  exact List.drop_sublist _ _

/-- A failed append leaves the log usable in every run that does not append after the bytes of a
failed append and whose appends are told of every failed write: every scan succeeds and yields the
acknowledged records. -/
theorem failed_append_usable {w : FaultWorld} (ht : SEGMENT_HEADER_LEN < target)
    (reachable : (faultSystem crc target FaultWorld.Safe).Reachable w)
    (room : w.attempted + 2 ^ 35 ≤ U64) : Usable crc w := by
  obtain ⟨p, segs, disk, tail, history, trails, logs, cons, bounded, acked, -⟩ :=
    FaultInv.of_reachable ht reachable room
  have pruned : w.wal.state.bounds.prunedThrough = p := by
    rw [trails.state]
    rfl
  refine ⟨?_, ?_, ?_, ?_⟩
  · refine ⟨_, _, trails.holds.scanSegments trails.plan, ?_⟩
    have yields := logs.yields cons bounded acked
    simpa [List.flatMap_map, chainRecords, Segment.scan] using yields
  · obtain ⟨wal, run, -, -, -, loaded⟩ :=
      trails.holds.reopen w.wal.segmentTargetBytes w.wal.files.dir
    exact ⟨wal, _, _, _, run, loaded, logs.yields cons bounded acked⟩
  · intro after through valid
    have le : p ≤ after := pruned ▸ (validateReplayRange_ok.1 valid).1
    refine ⟨_, _, trails.holds.replayRange trails.plan valid, ?_, ?_⟩
    · exact trails.holds.chain.consecutive.pairwise.sublist List.filter_sublist
    · -- the range is above the pruned records, so the history may be cut before it is filtered
      have inside := (acked.filter (p < ·.seq)).filter fun r => after < r.seq ∧ r.seq ≤ through
      rw [cons.filter_eq_drop, ← logs.records, List.filter_filter] at inside
      have same : w.acked.filter (fun r => after < r.seq ∧ r.seq ≤ through) =
          w.acked.filter fun r => decide (after < r.seq ∧ r.seq ≤ through) &&
              decide (p < r.seq) := by
        refine List.filter_congr fun r _ => ?_
        rw [← Bool.decide_and, decide_eq_decide]
        omega
      rw [same]
      exact inside
  · intro seq le
    obtain ⟨result, w', -, -, -, run, -⟩ := trails.prune ht le
    exact ⟨result, w', run⟩

def shortRequest : WalRequest := ⟨.new 0 3, [1, 2, 3], List.cons_ne_nil _ _, rfl⟩

def freshLog : FaultWorld := ⟨⟨1000, ⟨"wal", .empty, [], []⟩, ⟨⟨0, 0⟩, none⟩⟩, [], 0, 0⟩

lemma freshLog_init (safe : FaultWorld → FaultEvent → Prop) :
    (faultSystem crc32c 1000 safe).init freshLog := ⟨"wal", _, rfl, rfl, rfl, rfl⟩

lemma reachable_next {safe : FaultWorld → FaultEvent → Prop} {w : FaultWorld}
    (h : (faultSystem crc target safe).Reachable w) (event : FaultEvent) (ok : safe w event) :
    (faultSystem crc target safe).Reachable (w.next crc event) := h.step ⟨ok, rfl⟩

lemma FaultWorld.Safe.of_clean {w : FaultWorld} (clean : Clean w.wal) (request : WalRequest) :
    w.Safe (.append request []) := ⟨clean, passes_nil⟩

/-- The WAL after one append, and one whose sync failed. -/
def failedLog : FaultWorld :=
  (freshLog.next crc32c (.append shortRequest [])).next crc32c
    (.append shortRequest [.done, .done, .fails 0])

lemma failedLog_reachable : (faultSystem crc32c 1000 FaultWorld.Safe).Reachable failedLog := by
  have first := reachable_next (.init (freshLog_init FaultWorld.Safe)) (.append shortRequest [])
    (.of_clean (by decide +kernel) _)
  refine reachable_next first (.append shortRequest [.done, .done, .fails 0])
    ⟨by decide +kernel, ?_⟩
  have ops : appendOps (freshLog.next crc32c (.append shortRequest [])).wal shortRequest =
      frameOps shortRequest := by decide +kernel
  rw [ops]
  trivial

/-- After a failed append the WAL is usable, and reopened it takes the next append. -/
theorem failed_append_usable_reopened :
    Usable crc32c failedLog ∧
      Usable crc32c ((failedLog.next crc32c .reopen).next crc32c (.append shortRequest [])) := by
  have again : (faultSystem crc32c 1000 FaultWorld.Safe).Reachable
      ((failedLog.next crc32c .reopen).next crc32c (.append shortRequest [])) :=
    reachable_next (reachable_next failedLog_reachable .reopen trivial) (.append shortRequest [])
      (.of_clean (by decide +kernel) _)
  exact ⟨failed_append_usable (by decide) failedLog_reachable (by decide +kernel),
    failed_append_usable (by decide) again (by decide +kernel)⟩

/-- An append whose write fails after 10 bytes: the segment is created, its header is written and
synced, the directory is synced, and the segment is opened. -/
def lostLog : FaultWorld :=
  freshLog.next crc32c (.append shortRequest [.done, .done, .done, .done, .done, .fails 10])

/-- An append that is not told of its failed write acknowledges record 1, and no scan finds it. An
append after the frame of one whose sync failed is acknowledged with the same sequence, and every
scan fails. -/
theorem failed_append_loses_records :
    ((faultSystem crc32c 1000 fun _ _ => True).Reachable lostLog ∧
      lostLog.acked.map (·.seq) = [1] ∧ ¬ Usable crc32c lostLog) ∧
    ∃ w, (faultSystem crc32c 1000 fun _ _ => True).Reachable w ∧ w.acked.map (·.seq) = [1, 2] ∧
      ¬ Usable crc32c w := by
  have init := System.Reachable.init (freshLog_init fun _ _ => True)
  refine ⟨⟨reachable_next init _ trivial, by decide +kernel, ?_⟩,
    failedLog.next crc32c (.append shortRequest []), ?_, by decide +kernel, ?_⟩
  · rintro ⟨⟨scans, f, run, -, sub⟩, -⟩
    have none : (outcome (scanSegments crc32c lostLog.wal.files)).toOption.map
        (fun scans => (scans.flatMap (·.records)).length) = some 0 := by decide +kernel
    have acked : (lostLog.acked.filter (lostLog.pruneRequest < ·.seq)).length = 1 := by
      decide +kernel
    have le := sub.length_le
    rw [run] at none
    have eq : (scans.flatMap (·.records)).length = 0 := Option.some.inj none
    omega
  · have first := reachable_next init (.append shortRequest []) trivial
    have failed := reachable_next first (.append shortRequest [.done, .done, .fails 0]) trivial
    exact reachable_next failed (.append shortRequest []) trivial
  · rintro ⟨⟨scans, f, run, -⟩, -⟩
    have fails : (outcome (scanSegments crc32c
        (failedLog.next crc32c (.append shortRequest [])).wal.files)).isOk = false := by
          decide +kernel
    rw [run] at fails
    cases fails

end Wal

end NbdServer
