import NbdServer.Wal.Directory

/-!
# The operations of a WAL without failures

What `append`, `replay_range` and `prune_through` do on a WAL whose directory holds a chain of
segments (`Ready`) when no file operation fails: the chain afterwards and the effects they issue, in
order.
-/

namespace NbdServer

namespace Wal

open Lib

/-- An open WAL whose directory holds the chain `segs` after `p` and whose state belongs to it. -/
structure Ready (crc : Checksum) (w : LocalExportWal) (p : Nat) (segs : List Segment) : Prop where
  plan : w.files.plan = []
  holds : Holds crc w.files.disk p segs []
  state : w.state = stateOf crc p segs

/-- The WAL with more effects issued and another state. -/
def LocalExportWal.after (w : LocalExportWal) (effects : List Effect) (state : LocalWalState) :
    LocalExportWal :=
  { w with files := w.files.issue effects, state := state }

variable {crc : Checksum}

lemma onFiles_ok {α : Type} {x : FileM α} {w : LocalExportWal} {a : α} {effects : List Effect}
    (h : x w.files = .ok a (w.files.issue effects)) :
    onFiles x w = .ok a (w.after effects w.state) := onPart_ok h

@[simp] lemma after_after (w : LocalExportWal) (e e' : List Effect) (s s' : LocalWalState) :
    (w.after e s).after e' s' = w.after (e ++ e') s' := by
  simp [LocalExportWal.after]

@[simp] lemma after_nil (w : LocalExportWal) : w.after [] w.state = w := by
  simp [LocalExportWal.after]

@[simp] lemma after_plan (w : LocalExportWal) (e : List Effect) (s : LocalWalState) :
    (w.after e s).files.plan = w.files.plan := rfl

@[simp] lemma after_state (w : LocalExportWal) (e : List Effect) (s : LocalWalState) :
    (w.after e s).state = s := rfl

@[simp] lemma after_disk (w : LocalExportWal) (e : List Effect) (s : LocalWalState) :
    (w.after e s).files.disk = replay w.files.disk e := Files.disk_issue _ _

lemma perform_bind {α : Type} {w : LocalExportWal} (plan : w.files.plan = []) (context : String)
    (e : Effect) (k : Unit → WalM α) :
    (onFiles (perform context e) >>= k) w = k () (w.after [e] w.state) :=
  bind_ok (onFiles_ok (perform_ok plan context e))

lemma setState_run (w : LocalExportWal) (s : LocalWalState) :
    setState s w = .ok () (w.after [] s) := by
  simp [setState, LocalExportWal.after]

lemma Ready.after {w : LocalExportWal} {p p' : Nat} {segs segs' : List Segment}
    (h : Ready crc w p segs) {effects : List Effect}
    (holds : Holds crc (replay w.files.disk effects) p' segs' []) :
    Ready crc (w.after effects (stateOf crc p' segs')) p' segs' := by
  refine ⟨h.plan, ?_, rfl⟩
  show Holds crc (w.files.issue effects).disk p' segs' []
  rw [Files.disk_issue]
  exact holds

lemma writeNewSegment_ok {f : Files} (plan : f.plan = []) {k : Nat} (new : ¬ f.disk.Has k) :
    writeNewSegment crc k f = .ok () (f.issue (newSegment crc k)) := by
  rw [writeNewSegment, bind_ok (createNew_ok plan new _),
    bind_ok (writeAll_ok (by simpa using plan) _ _ _), perform_ok (by simpa using plan)]
  simp [newSegment]

lemma not_has_of_above {d : Disk} {k : Nat} (above : ∀ a ∈ d.entries, a.1 < k) : ¬ d.Has k := by
  rw [OrdMap.has_iff]
  rintro ⟨v, mem⟩
  exact (above _ mem).false

/-- The append goes to a new segment: there is no active one, or it has reached the target. -/
def Rolls (crc : Checksum) (target : Nat) (segs : List Segment) : Prop :=
  ∀ s, segs.getLast? = some s → target ≤ (s.bytes crc).length

instance (target : Nat) (segs : List Segment) : Decidable (Rolls crc target segs) :=
  match h : segs.getLast? with
  | none => .isTrue (by simp [Rolls, h])
  | some s => decidable_of_iff (target ≤ (s.bytes crc).length) (by simp [Rolls, h])

def ensured (crc : Checksum) (target p : Nat) (segs : List Segment) : List Segment :=
  if Rolls crc target segs then segs ++ [.empty (chainLast p segs)] else segs

def ensureEffects (crc : Checksum) (target p : Nat) (segs : List Segment) : List Effect :=
  if Rolls crc target segs then newSegment crc (chainLast p segs + 1) ++ [.syncDir] else []

lemma records_ne_nil {s : Segment} {target : Nat} (ht : SEGMENT_HEADER_LEN < target)
    (le : target ≤ (s.bytes crc).length) : s.records ≠ [] := by
  intro e
  simp only [Segment.bytes, e, frames, List.flatMap_nil, List.append_nil,
    length_encodeSegmentHeader] at le
  omega

lemma Ready.above {w : LocalExportWal} {p : Nat} {segs : List Segment} (h : Ready crc w p segs)
    (full : ∀ s, segs.getLast? = some s → s.records ≠ []) :
    ∀ a ∈ w.files.disk.entries, a.1 < chainLast p segs + 1 := by
  have files := h.holds.files
  rcases List.eq_nil_or_concat' segs with rfl | ⟨init, s, rfl⟩
  · rw [files]
    simp [image]
  · rw [chainLast_append]
    exact keys_lt files (full s (by simp))

lemma Holds.newSegment {d : Disk} {p : Nat} {segs : List Segment} (h : Holds crc d p segs [])
    (above : ∀ a ∈ d.entries, a.1 < chainLast p segs + 1) :
    Holds crc (replay d (newSegment crc (chainLast p segs + 1))) p
      (segs ++ [.empty (chainLast p segs)]) [] where
  chain := chain_append.2 ⟨h.chain, rfl, trivial⟩
  start e := by simp at e
  files := files_newSegment h.files above
  torn := .inl rfl
  room := by
    rw [chainRecords_append]
    simpa [chainRecords, Segment.empty] using h.room

lemma stateOf_empty (p : Nat) (segs : List Segment) :
    stateOf crc p (segs ++ [.empty (chainLast p segs)]) =
      { stateOf crc p segs with active := some ⟨chainLast p segs + 1, SEGMENT_HEADER_LEN⟩ } := by
  have last : (segs ++ [Segment.empty (chainLast p segs)]).getLast? =
      some (.empty (chainLast p segs)) := List.getLast?_concat
  simp only [stateOf, last, chainLast_append, Option.map_some, bytes_empty,
    length_encodeSegmentHeader]
  rfl

lemma Holds.last_lt {d : Disk} {p : Nat} {segs : List Segment} {tail : Buf}
    (h : Holds crc d p segs tail) : chainLast p segs + 1 < U64 := by
  have := h.room
  have := length_le_logBytes (chainRecords segs)
  rw [chainLast_eq h.chain]
  omega

lemma createActive_run {w : LocalExportWal} (plan : w.files.plan = []) {k : Nat}
    (above : ∀ a ∈ w.files.disk.entries, a.1 < k) (state : LocalWalState) {α : Type}
    (next : Unit → WalM α) :
    (do
      onFiles (writeNewSegment crc k)
      onFiles syncDirectory
      setState state >>= next) w = next () (w.after (newSegment crc k ++ [.syncDir]) state) := by
  rw [bind_ok (onFiles_ok (writeNewSegment_ok plan (not_has_of_above above))), syncDirectory,
    perform_bind (by rw [after_plan]; exact plan), bind_ok (setState_run _ _)]
  simp

lemma rolls_stateOf (crc : Checksum) (target p : Nat) (segs : List Segment) :
    ((stateOf crc p segs).active.all (target ≤ ·.lenBytes)) = true ↔ Rolls crc target segs := by
  cases last : segs.getLast? with
  | none => simp [stateOf, Rolls, last]
  | some s => simp [stateOf, Rolls, last]

lemma Ready.ensureActiveSegment {w : LocalExportWal} {p : Nat} {segs : List Segment}
    (h : Ready crc w p segs) (ht : SEGMENT_HEADER_LEN < w.segmentTargetBytes) :
    let segs' := ensured crc w.segmentTargetBytes p segs
    let w' := w.after (ensureEffects crc w.segmentTargetBytes p segs) (stateOf crc p segs')
    Wal.ensureActiveSegment crc w = .ok () w' ∧ Ready crc w' p segs' := by
  have bounds : w.state.bounds.lastDurable = chainLast p segs := by rw [h.state]; rfl
  have roll := rolls_stateOf crc w.segmentTargetBytes p segs
  rw [← h.state] at roll
  simp only [Wal.ensureActiveSegment, ensured, ensureEffects]
  rw [get_bind, bounds, nextSeqAfter_eq h.holds.last_lt, lift_ok_bind]
  by_cases rolls : Rolls crc w.segmentTargetBytes segs
  · have above := h.above fun s hs => records_ne_nil ht (rolls s hs)
    rw [if_pos rolls, if_pos rolls, if_pos (roll.2 rolls), stateOf_empty, ← h.state]
    refine ⟨createActive_run h.plan above _ pure, ?_⟩
    rw [h.state, ← stateOf_empty]
    refine h.after ?_
    simpa using h.holds.newSegment above
  · rw [if_neg rolls, if_neg rolls, if_neg fun r => rolls (roll.1 r), pure_run, ← h.state,
      after_nil]
    exact ⟨rfl, h⟩

lemma Holds.push {d : Disk} {p : Nat} {init : List Segment} {s : Segment} {r : WalRecord}
    (h : Holds crc d p (init ++ [s]) []) (next : r.seq = s.last + 1)
    (room : p + logBytes (chainRecords (init ++ [s])) + logBytes [r] + 2 ^ 34 ≤ U64) :
    Holds crc (Effect.apply d (.write s.firstSeq (encodeRecord crc r))) p (init ++ [s.push r next])
      [] where
  chain := by
    obtain ⟨c, eq, -⟩ := chain_append.1 h.chain
    exact chain_append.2 ⟨c, eq, trivial⟩
  start e := by simp at e
  files := by
    rw [image_push]
    exact files_write _ h.files
  torn := .inl rfl
  room := by
    have split : chainRecords (init ++ [s.push r next]) = chainRecords (init ++ [s]) ++ [r] := by
      simp [chainRecords, Segment.push]
    rw [split, logBytes_append]
    omega

lemma stateOf_push {p : Nat} {init : List Segment} {s : Segment} {r : WalRecord}
    (next : r.seq = s.last + 1) :
    stateOf crc p (init ++ [s.push r next]) =
      ⟨{ (stateOf crc p (init ++ [s])).bounds with lastDurable := r.seq },
        some ⟨s.firstSeq, (s.bytes crc).length + (encodeRecord crc r).length⟩⟩ := by
  have last : (init ++ [s.push r next]).getLast? = some (s.push r next) := List.getLast?_concat
  simp only [stateOf, last, chainLast_append, Option.map_some, bytes_push, List.length_append]
  congr 2
  show s.before + (s.records ++ [r]).length = r.seq
  rw [List.length_append, List.length_singleton, next, Segment.last]
  omega

lemma fromRequest_ok {seq : Nat} (lt : seq < U64) (ne : seq ≠ 0) (request : WalRequest) :
    WalRecord.fromRequest seq lt request =
      .ok ⟨seq, request.range, request.data, ne, lt, request.data_ne, request.data_len⟩ :=
      dif_neg ne

/-- The record that an append of `request` after the sequence `last` makes. -/
def nextRecord (last : Nat) (lt : last + 1 < U64) (request : WalRequest) : WalRecord :=
  ⟨last + 1, request.range, request.data, Nat.succ_ne_zero _, lt, request.data_ne, request.data_len⟩

lemma Ready.appendRecord {w : LocalExportWal} {p : Nat} {init : List Segment} {s : Segment}
    (h : Ready crc w p (init ++ [s])) (request : WalRequest) (lt : s.last + 1 < U64)
    (room : p + logBytes (chainRecords (init ++ [s])) +
      logBytes [nextRecord s.last lt request] + 2 ^ 34 ≤ U64) :
    let r := nextRecord s.last lt request
    let w' := w.after [.write s.firstSeq (encodeRecord crc r), .sync s.firstSeq]
      (stateOf crc p (init ++ [s.push r rfl]))
    Wal.appendRecord crc request w = .ok r w' ∧ Ready crc w' p (init ++ [s.push r rfl]) := by
  have bounds : w.state.bounds.lastDurable = s.last := by
    rw [h.state]
    exact chainLast_append _ _ _
  have active : w.state.active = some ⟨s.firstSeq, (s.bytes crc).length⟩ := by
    rw [h.state, stateOf, List.getLast?_concat]
    rfl
  have has : w.files.disk.Has s.firstSeq := by
    rw [OrdMap.has_iff, h.holds.files, image_concat]
    exact ⟨_, List.mem_append_right _ List.mem_cons_self⟩
  have opened : openSegment "open WAL segment for append" s.firstSeq w.files =
      .ok () (w.files.issue []) := by
    rw [Files.issue_nil]
    exact openSegment_ok h.plan has _
  have state : stateOf crc p (init ++ [s.push (nextRecord s.last lt request) rfl]) = _ :=
    stateOf_push _
  refine ⟨?_, h.after ?_⟩
  · rw [Wal.appendRecord, get_bind, bounds, nextSeqAfter_eq lt, lift_ok_bind,
      fromRequest_ok lt (Nat.succ_ne_zero _), lift_ok_bind, active, expect_some, lift_ok_bind,
      bind_ok (onFiles_ok opened), after_nil, bind_ok (onFiles_ok (writeAll_ok h.plan _ _ _)),
      perform_bind (by rw [after_plan]; exact h.plan),
      bind_ok (setState_run _ _)]
    simp only [state, ← h.state, after_after]
    rfl
  · simpa using h.holds.push rfl room

lemma ensured_concat (crc : Checksum) (target p : Nat) (segs : List Segment) :
    ∃ init s, ensured crc target p segs = init ++ [s] ∧ s.last = chainLast p segs := by
  unfold ensured
  split
  · exact ⟨segs, _, rfl, rfl⟩
  · rename_i rolls
    rcases List.eq_nil_or_concat' segs with rfl | ⟨init, s, rfl⟩
    · exact absurd (by simp [Rolls]) rolls
    · exact ⟨init, s, rfl, (chainLast_append p init [s]).symm⟩

lemma chainRecords_ensured (target p : Nat) (segs : List Segment) :
    chainRecords (ensured crc target p segs) = chainRecords segs := by
  unfold ensured
  split
  · simp [chainRecords, Segment.empty]
  · rfl

lemma Ready.append {w : LocalExportWal} {p : Nat} {segs : List Segment} (h : Ready crc w p segs)
    (ht : SEGMENT_HEADER_LEN < w.segmentTargetBytes) (request : WalRequest)
    (room : p + logBytes (chainRecords segs) + logBytes [nextRecord _ h.holds.last_lt request] +
      2 ^ 34 ≤ U64) :
    let r := nextRecord _ h.holds.last_lt request
    ∃ init s, ∃ next : r.seq = s.last + 1,
      ensured crc w.segmentTargetBytes p segs = init ++ [s] ∧
      let w' := w.after (ensureEffects crc w.segmentTargetBytes p segs ++
        [.write s.firstSeq (encodeRecord crc r), .sync s.firstSeq])
          (stateOf crc p (init ++ [s.push r next]))
      Wal.append crc request w = .ok r w' ∧ Ready crc w' p (init ++ [s.push r next]) := by
  obtain ⟨init, s, eq, last⟩ := ensured_concat crc w.segmentTargetBytes p segs
  obtain ⟨run, ready⟩ := h.ensureActiveSegment ht
  simp only [eq] at run ready
  have next : (nextRecord _ h.holds.last_lt request).seq = s.last + 1 := by rw [last]; rfl
  have records : chainRecords (init ++ [s]) = chainRecords segs := by
    rw [← eq, chainRecords_ensured]
  refine ⟨init, s, next, eq, ?_⟩
  have lt : s.last + 1 < U64 := by
    rw [last]
    exact h.holds.last_lt
  have same : nextRecord s.last lt request = nextRecord _ h.holds.last_lt request := by
    simp only [last]
  obtain ⟨runs, ready'⟩ := ready.appendRecord request lt (by rw [records, same]; exact room)
  simp only [same] at runs ready'
  rw [Wal.append, bind_ok run, runs, after_after]
  rw [after_after] at ready'
  exact ⟨rfl, ready'⟩

lemma maxSeq_scan (s : Segment) : (s.scan crc).maxSeq = .ok s.last := by
  unfold SegmentScan.maxSeq Segment.scan
  rcases List.eq_nil_or_concat' s.records with h | ⟨rs, r, h⟩
  · simp only [h, List.getLast?_nil, Segment.last, List.length_nil, Nat.add_zero, Segment.firstSeq]
    rw [previousSeqBefore, checkedSub_of_le (Nat.le_add_left 1 _)]
    rfl
  · rw [h, List.getLast?_concat]
    simp only [s.last_eq h]

lemma removeOrReload_ok {w : LocalExportWal} (plan : w.files.plan = []) {path : Nat}
    (has : w.files.disk.Has path) (context : String) (changed : Bool) :
    removeOrReload crc context path changed w = .ok () (w.after [.remove path] w.state) := by
  rw [removeOrReload, onFiles_ok (removeFile_ok plan has context)]

lemma removeRetired_gone {w : LocalExportWal} (plan : w.files.plan = []) {a seq n : Nat}
    {gone rest : List Segment} {more : List SegmentScan}
    (files : w.files.disk.entries = image crc (gone ++ rest) [])
    (le : ∀ t ∈ gone, t.last ≤ seq) (ne : ∀ t ∈ gone, t.firstSeq ≠ a) :
    removeRetired crc (some a) seq (gone.map (Segment.scan crc) ++ more) n w =
      removeRetired crc (some a) seq more (n + gone.length)
        (w.after (gone.map fun t => .remove t.firstSeq) w.state) := by
  induction gone generalizing w n with
  | nil => simp
  | cons t gone ih =>
    have has : w.files.disk.Has t.firstSeq := by
      rw [OrdMap.has_iff, files, image_nil]
      exact ⟨_, List.mem_cons_self⟩
    have path : some (t.scan crc).path ≠ some a := fun e =>
      ne t List.mem_cons_self (Option.some.inj e)
    have removed : removeOrReload crc "remove WAL segment" (t.scan crc).path (0 < n) w = _ :=
      removeOrReload_ok plan has _ _
    rw [List.map_cons, List.cons_append, removeRetired, if_neg path, maxSeq_scan, lift_ok_bind,
      if_pos (le t List.mem_cons_self), bind_ok removed, ih]
    · simp only [after_after, after_state, List.length_cons, List.map_cons, List.singleton_append]
      congr 1
      omega
    · exact plan
    · rw [after_disk, replay_cons, replay_nil]
      exact files_remove files
    · exact fun u hu => le u (List.mem_cons_of_mem _ hu)
    · exact fun u hu => ne u (List.mem_cons_of_mem _ hu)

lemma removeRetired_kept {w : LocalExportWal} {a seq n : Nat} {kept : List Segment}
    (h : ∀ t ∈ kept, t.firstSeq = a ∨ seq < t.last) :
    removeRetired crc (some a) seq (kept.map (Segment.scan crc)) n w = .ok n w := by
  induction kept with
  | nil => rfl
  | cons t kept ih =>
    have later := ih fun u hu => h u (List.mem_cons_of_mem _ hu)
    rw [List.map_cons, removeRetired]
    by_cases path : some (t.scan crc).path = some a
    · rw [if_pos path]
      exact later
    · have lt := (h t List.mem_cons_self).resolve_left fun e => path (congrArg some e)
      rw [if_neg path, maxSeq_scan, lift_ok_bind, if_neg (by omega)]
      exact later

lemma removeRetired_split {w : LocalExportWal} (plan : w.files.plan = []) {a seq : Nat}
    {gone rest : List Segment} (files : w.files.disk.entries = image crc (gone ++ rest) [])
    (retired : ∀ t ∈ gone, t.last ≤ seq) (ne : ∀ t ∈ gone, t.firstSeq ≠ a)
    (kept : ∀ t ∈ rest, t.firstSeq = a ∨ seq < t.last) :
    removeRetired crc (some a) seq ((gone ++ rest).map (Segment.scan crc)) 0 w =
      .ok gone.length (w.after (gone.map fun t => .remove t.firstSeq) w.state) := by
  rw [List.map_append, removeRetired_gone plan files retired ne, Nat.zero_add,
    removeRetired_kept kept]

lemma Chain.bounds {p : Nat} {segs : List Segment} (c : Chain p segs) :
    p ≤ chainLast p segs ∧ ∀ t ∈ segs, p ≤ t.last ∧ t.last ≤ chainLast p segs := by
  induction segs generalizing p with
  | nil => exact ⟨le_rfl, by simp⟩
  | cons s segs ih =>
    obtain ⟨rfl, rest⟩ := c
    obtain ⟨le, all⟩ := ih rest
    have first : s.before ≤ s.last := Nat.le_add_right _ _
    refine ⟨first.trans le, ?_⟩
    intro t ht
    rcases List.mem_cons.1 ht with rfl | ht
    · exact ⟨first, le⟩
    · exact ⟨first.trans (all t ht).1, (all t ht).2⟩

lemma Chain.split {p : Nat} {segs : List Segment} (c : Chain p segs) (seq : Nat) :
    ∃ gone stay, segs = gone ++ stay ∧ (∀ t ∈ gone, t.last ≤ seq) ∧ ∀ t ∈ stay, seq < t.last := by
  induction segs generalizing p with
  | nil => exact ⟨[], [], rfl, by simp, by simp⟩
  | cons s segs ih =>
    obtain ⟨rfl, rest⟩ := c
    by_cases le : s.last ≤ seq
    · obtain ⟨gone, stay, rfl, retired, later⟩ := ih rest
      refine ⟨s :: gone, stay, rfl, ?_, later⟩
      intro t ht
      rcases List.mem_cons.1 ht with rfl | ht
      · exact le
      · exact retired t ht
    · refine ⟨[], s :: segs, rfl, by simp, ?_⟩
      intro t ht
      rcases List.mem_cons.1 ht with rfl | ht
      · omega
      · exact lt_of_lt_of_le (not_le.1 le) (rest.bounds.2 t ht).1

lemma Chain.append_left {p : Nat} {segs rest : List Segment} (c : Chain p (segs ++ rest)) :
    Chain p segs := (chain_append.1 c).1

lemma Chain.append_right {p : Nat} {segs rest : List Segment} (c : Chain p (segs ++ rest)) :
    Chain (chainLast p segs) rest := (chain_append.1 c).2

lemma Holds.drop {d : Disk} {p : Nat} {gone stay : List Segment} {x : Segment}
    (h : Holds crc d p (gone ++ stay ++ [x]) []) :
    Holds crc (replay d (gone.map fun t => .remove t.firstSeq)) (chainLast p gone) (stay ++ [x])
      [] where
  chain := by
    rw [List.append_assoc] at h
    exact h.chain.append_right
  start e := by simp at e
  files := by
    have files := h.files
    rw [List.append_assoc] at files
    clear h
    induction gone generalizing d with
    | nil => exact files
    | cons t gone ih =>
      exact ih (files_remove files)
  torn := .inl rfl
  room := by
    have room := h.room
    have last := chainLast_eq h.chain.append_left.append_left
    have := length_le_logBytes (chainRecords gone)
    simp only [chainRecords_append, logBytes_append] at room ⊢
    omega

lemma syncAndReloadWalState_ok {w : LocalExportWal} (plan : w.files.plan = []) {p : Nat}
    {segs : List Segment} (h : Holds crc w.files.disk p segs []) :
    syncAndReloadWalState crc w = .ok () (w.after [.syncDir] (stateOf crc p segs)) := by
  have holds : Holds crc (w.after [.syncDir] w.state).files.disk p segs [] := by simpa using h
  have scanned := holds.scanWalDir plan
  rw [repairLast_nil] at scanned
  rw [syncAndReloadWalState, syncDirectory, perform_bind plan, bind_ok (onFiles_ok scanned),
    setState_run]
  simp

lemma find_active {d : Disk} {init : List Segment} {s : Segment}
    (files : d.entries = image crc (init ++ [s]) []) :
    (∀ t ∈ init, t.firstSeq ≠ s.firstSeq) ∧
      ((init ++ [s]).map (Segment.scan crc)).find? (some ·.path = some s.firstSeq) =
        some (s.scan crc) := by
  have ord := d.ordered
  rw [files, image_concat] at ord
  have ne : ∀ t ∈ init, t.firstSeq ≠ s.firstSeq := by
    intro t ht
    have := (List.pairwise_append.1 ord).2.2 (t.firstSeq, t.bytes crc)
      (List.mem_map.2 ⟨t, ht, rfl⟩) _ List.mem_cons_self
    exact this.ne
  refine ⟨ne, ?_⟩
  rw [List.map_append, List.find?_append, List.find?_eq_none.2]
  · simp [Segment.scan]
  · intro scan hscan
    obtain ⟨t, ht, rfl⟩ := List.mem_map.1 hscan
    simpa [Segment.scan] using ne t ht

/-- A prune replaces the active segment: it has records and all of them are pruned. -/
def RollsOver (s : Segment) (seq : Nat) : Prop := s.records ≠ [] ∧ s.last ≤ seq

instance (s : Segment) (seq : Nat) : Decidable (RollsOver s seq) :=
  inferInstanceAs (Decidable (_ ∧ _))

/-- The effects of a prune before the final sync, when it retires the segments `gone` and `s` is the
active segment. -/
def pruneEffects (crc : Checksum) (gone : List Segment) (s : Segment) (seq : Nat) : List Effect :=
  gone.map (fun t => .remove t.firstSeq) ++
    if RollsOver s seq then newSegment crc (s.last + 1) ++ [.syncDir, .remove s.firstSeq] else []

lemma pruneEffects_eq_nil {gone : List Segment} {s : Segment} {seq : Nat} :
    pruneEffects crc gone s seq = [] ↔ gone.length + (if RollsOver s seq then 1 else 0) = 0 := by
  rw [pruneEffects, List.append_eq_nil_iff, List.map_eq_nil_iff, Nat.add_eq_zero_iff,
    List.length_eq_zero_iff]
  by_cases rolls : RollsOver s seq
  · simp [rolls]
  · simp [rolls]

/-- The segments that a prune leaves, and the sequence before them. -/
def pruned (p : Nat) (gone stay : List Segment) (s : Segment) (seq : Nat) : Nat × List Segment :=
  if RollsOver s seq then (s.last, [.empty s.last]) else (chainLast p gone, stay ++ [s])

lemma Holds.pruned {d : Disk} {p seq : Nat} {gone stay : List Segment} {s : Segment}
    (h : Holds crc d p (gone ++ stay ++ [s]) []) (empty : RollsOver s seq → stay = []) :
    Holds crc (replay d (pruneEffects crc gone s seq)) (Wal.pruned p gone stay s seq).1
      (Wal.pruned p gone stay s seq).2 [] := by
  have dropped := h.drop
  unfold pruneEffects Wal.pruned
  by_cases rolls : RollsOver s seq
  · rw [if_pos rolls, if_pos rolls]
    rw [empty rolls] at dropped
    have above := keys_lt dropped.files rolls.1
    have files := files_newSegment dropped.files above
    rw [List.nil_append] at files
    refine ⟨⟨rfl, trivial⟩, fun e => by simp at e, ?_, .inl rfl, ?_⟩
    · simpa using files_remove files
    · have room := h.room
      have last := chainLast_eq h.chain
      have := length_le_logBytes (chainRecords (gone ++ stay ++ [s]))
      rw [chainLast_append] at last
      change s.last = _ at last
      have none : logBytes (chainRecords [Segment.empty s.last]) = 0 := rfl
      rw [none]
      omega
  · rw [if_neg rolls, if_neg rolls, List.append_nil]
    exact dropped

lemma rollActive_ok {w : LocalExportWal} (plan : w.files.plan = []) {s : Segment}
    (files : w.files.disk.entries = image crc [s] []) (ne : s.records ≠ [])
    (bounds : w.state.bounds.lastDurable = s.last) (lt : s.last + 1 < U64) :
    rollActive crc s.firstSeq w =
      .ok () (w.after (newSegment crc (s.last + 1) ++ [.syncDir, .remove s.firstSeq])
        { w.state with active := some ⟨s.last + 1, SEGMENT_HEADER_LEN⟩ }) := by
  have above : ∀ a ∈ w.files.disk.entries, a.1 < s.last + 1 :=
    keys_lt (files.trans (congrArg (image crc · []) (List.nil_append [s]).symm)) ne
  have created := files_newSegment files above
  rw [rollActive, get_bind, bounds, nextSeqAfter_eq lt, lift_ok_bind, createActive_run plan above,
    removeOrReload_ok]
  · simp only [after_after, after_state, List.append_assoc]
    rfl
  · exact plan
  · rw [after_disk, replay_append, replay_cons, replay_nil, Effect.apply_syncDir, OrdMap.has_iff,
      created]
    exact ⟨_, List.mem_cons_self⟩

lemma pruneActive_ok {w : LocalExportWal} (plan : w.files.plan = []) {scans : List SegmentScan}
    {s : Segment} {seq n : Nat}
    (found : scans.find? (some ·.path = some s.firstSeq) = some (s.scan crc))
    (files : RollsOver s seq → w.files.disk.entries = image crc [s] [])
    (bounds : RollsOver s seq → w.state.bounds.lastDurable = s.last) (lt : s.last + 1 < U64) :
    ∃ state, (¬ RollsOver s seq → state = w.state) ∧
      pruneActive crc (some s.firstSeq) seq scans n w =
        .ok (n + if RollsOver s seq then 1 else 0)
          (w.after (if RollsOver s seq then
            newSegment crc (s.last + 1) ++ [.syncDir, .remove s.firstSeq] else []) state) := by
  rw [pruneActive, found]
  simp only [maxSeq_scan]
  by_cases none : s.records = []
  · have rolls : ¬ RollsOver s seq := fun r => r.1 none
    have isEmpty : (s.scan crc).records.isEmpty = true := by simp [Segment.scan, none]
    refine ⟨w.state, fun _ => rfl, ?_⟩
    rw [if_neg rolls, if_neg rolls, if_pos isEmpty, after_nil]
    rfl
  · have isEmpty : ¬ (s.scan crc).records.isEmpty = true := by simpa [Segment.scan] using none
    rw [if_neg isEmpty, lift_ok_bind]
    by_cases le : s.last ≤ seq
    · have rolls : RollsOver s seq := ⟨none, le⟩
      have rolled := rollActive_ok plan (files rolls) none (bounds rolls) lt
      refine ⟨{ w.state with active := some ⟨s.last + 1, SEGMENT_HEADER_LEN⟩ },
        fun h => absurd rolls h, ?_⟩
      rw [if_pos le, if_pos rolls, if_pos rolls]
      show (rollActive crc s.firstSeq >>= _) w = _
      rw [bind_ok rolled]
      rfl
    · have rolls : ¬ RollsOver s seq := fun r => le r.2
      refine ⟨w.state, fun _ => rfl, ?_⟩
      rw [if_neg le, if_neg rolls, if_neg rolls, after_nil]
      rfl

/-- The sync at the end of a prune, made when the directory has changed. -/
def syncIfChanged (effects : List Effect) : List Effect := if effects = [] then [] else [.syncDir]

/-- A prune from its three parts: the scan, the loop over the older segments, and the active
segment. The state is reloaded when a segment was removed. -/
lemma pruneThrough_of {w : LocalExportWal} (plan : w.files.plan = []) {seq n m p : Nat}
    {scans : List SegmentScan} {effects effects' : List Effect} {state : LocalWalState}
    {segs : List Segment} (le : seq ≤ w.state.bounds.lastDurable)
    (scanned : Wal.scanSegments crc w.files = .ok scans w.files)
    (removing : removeRetired crc (w.state.active.map (·.path)) seq scans 0 w =
      .ok n (w.after effects w.state))
    (rolling : pruneActive crc (w.state.active.map (·.path)) seq scans n (w.after effects w.state) =
      .ok m (w.after effects' state))
    (holds : Holds crc (replay w.files.disk effects') p segs []) :
    pruneThrough crc seq w =
      if 0 < m then .ok ⟨seq, p, m⟩ (w.after (effects' ++ [.syncDir]) (stateOf crc p segs))
      else .ok ⟨seq, state.bounds.prunedThrough, m⟩ (w.after effects' state) := by
  have scanned' : Wal.scanSegments crc w.files = .ok scans (w.files.issue []) := by
    rw [Files.issue_nil]
    exact scanned
  rw [pruneThrough, get_bind, if_neg (not_lt.2 le), bind_ok (onFiles_ok scanned'), after_nil,
    bind_ok removing, bind_ok rolling]
  by_cases changed : 0 < m
  · rw [← after_disk _ _ state] at holds
    have reloaded := syncAndReloadWalState_ok (show (w.after _ state).files.plan = [] from plan)
      holds
    rw [after_after] at reloaded
    rw [if_pos changed, if_pos changed, bind_ok reloaded]
    rfl
  · rw [if_neg changed, if_neg changed]
    rfl

/-- A prune removes the segments whose records are all pruned and reloads the state when there are
any. The state may be behind the directory, as long as its active segment is the last one. -/
lemma pruneThrough_run {w : LocalExportWal} (plan : w.files.plan = []) {p seq : Nat}
    {gone stay : List Segment} {s : Segment}
    (h : Holds crc w.files.disk p (gone ++ stay ++ [s]) [])
    (active : w.state.active.map (·.path) = some s.firstSeq)
    (retired : ∀ t ∈ gone, t.last ≤ seq) (later : ∀ t ∈ stay, seq < t.last)
    (empty : RollsOver s seq → stay = []) (le : seq ≤ w.state.bounds.lastDurable)
    (bounds : RollsOver s seq → w.state.bounds.lastDurable = s.last) :
    let result := pruned p gone stay s seq
    let effects := pruneEffects crc gone s seq
    let state := if effects = [] then w.state else stateOf crc result.1 result.2
    ∃ removed, pruneThrough crc seq w =
      .ok ⟨seq, state.bounds.prunedThrough, removed⟩
        (w.after (effects ++ syncIfChanged effects) state) := by
  have lt : s.last + 1 < U64 := by
    have := h.last_lt
    rwa [chainLast_append] at this
  have scanned := h.scanSegments plan
  rw [repairLast_nil, Files.issue_nil] at scanned
  obtain ⟨ne, found⟩ := find_active h.files
  have holds := h.pruned empty
  have removing : removeRetired crc (some s.firstSeq) seq
      ((gone ++ stay ++ [s]).map (Segment.scan crc)) 0 w =
      .ok gone.length (w.after (gone.map fun t => .remove t.firstSeq) w.state) := by
    have files := h.files
    rw [List.append_assoc] at files ⊢
    refine removeRetired_split plan files retired (fun t ht => ne t (List.mem_append_left _ ht)) ?_
    intro t ht
    rcases List.mem_append.1 ht with ht | ht
    · exact .inr (later t ht)
    · exact .inl (by rw [List.mem_singleton.1 ht])
  have dropped := h.drop
  rw [← after_disk _ _ w.state] at dropped
  have plan' : (w.after (gone.map fun t => .remove t.firstSeq) w.state).files.plan = [] := plan
  obtain ⟨state, same, rolling⟩ := pruneActive_ok (n := gone.length) plan' found
    (fun rolls => by rw [dropped.files, empty rolls]; rfl) bounds lt
  rw [after_after] at rolling
  change _ = EStateM.Result.ok _ (w.after (pruneEffects crc gone s seq) state) at rolling
  rw [← active] at removing rolling
  refine ⟨gone.length + if RollsOver s seq then 1 else 0, ?_⟩
  rw [pruneThrough_of plan le scanned removing rolling holds]
  by_cases none : pruneEffects crc gone s seq = []
  · have zero := pruneEffects_eq_nil.1 none
    have still : state = w.state := same fun rolls => by
      rw [if_pos rolls] at zero
      omega
    rw [if_neg (by omega)]
    simp only [none, still, syncIfChanged, if_pos, List.append_nil]
  · have changed : 0 < gone.length + if RollsOver s seq then 1 else 0 :=
      Nat.pos_of_ne_zero fun zero => none (pruneEffects_eq_nil.2 zero)
    simp only [if_pos changed, if_neg none, syncIfChanged]
    rfl

lemma pruned_eq_self {p seq : Nat} {gone stay : List Segment} {s : Segment}
    (none : pruneEffects crc gone s seq = []) :
    pruned p gone stay s seq = (p, gone ++ stay ++ [s]) := by
  have zero := pruneEffects_eq_nil.1 none
  have rolls : ¬ RollsOver s seq := by
    intro rolls
    rw [if_pos rolls] at zero
    omega
  rw [if_neg rolls, Nat.add_zero] at zero
  rw [pruned, if_neg rolls, List.length_eq_zero_iff.1 zero]
  rfl

lemma Ready.pruneThrough {w : LocalExportWal} {p seq : Nat} {gone stay : List Segment} {s : Segment}
    (h : Ready crc w p (gone ++ stay ++ [s])) (retired : ∀ t ∈ gone, t.last ≤ seq)
    (later : ∀ t ∈ stay, seq < t.last) (empty : RollsOver s seq → stay = [])
    (le : seq ≤ chainLast p (gone ++ stay ++ [s])) :
    let result := Wal.pruned p gone stay s seq
    let effects := pruneEffects crc gone s seq
    let w' := w.after (effects ++ syncIfChanged effects) (stateOf crc result.1 result.2)
    ∃ removed, Wal.pruneThrough crc seq w = .ok ⟨seq, result.1, removed⟩ w' ∧
      Ready crc w' result.1 result.2 := by
  have bounds : w.state.bounds.lastDurable = chainLast p (gone ++ stay ++ [s]) := by
    rw [h.state]
    rfl
  have active : w.state.active.map (·.path) = some s.firstSeq := by
    rw [h.state, stateOf, List.getLast?_concat]
    rfl
  obtain ⟨removed, run⟩ := pruneThrough_run h.plan h.holds active retired later empty
    (by rw [bounds]; exact le) fun _ => by rw [bounds, chainLast_append]; rfl
  have state : (if pruneEffects crc gone s seq = [] then w.state else
      stateOf crc (Wal.pruned p gone stay s seq).1 (Wal.pruned p gone stay s seq).2) =
      stateOf crc (Wal.pruned p gone stay s seq).1 (Wal.pruned p gone stay s seq).2 := by
    split
    · rename_i none
      rw [h.state, pruned_eq_self none]
    · rfl
  simp only [state] at run
  refine ⟨removed, run, h.after ?_⟩
  rw [replay_append]
  have holds := h.holds.pruned empty
  unfold syncIfChanged
  split
  · exact holds
  · exact holds

lemma Ready.pruneThrough_empty {w : LocalExportWal} {p seq : Nat} (h : Ready crc w p [])
    (le : seq ≤ p) : Wal.pruneThrough crc seq w = .ok ⟨seq, p, 0⟩ w := by
  have scanned := h.holds.scanSegments h.plan
  rw [repairLast_nil] at scanned
  have bounds : ¬ w.state.bounds.lastDurable < seq := by
    rw [h.state]
    exact not_lt.2 le
  rw [Wal.pruneThrough, get_bind, if_neg bounds, bind_ok (onFiles_ok scanned), after_nil]
  show EStateM.Result.ok (WalPruneResult.mk seq w.state.bounds.prunedThrough 0) w = _
  rw [h.state]
  rfl

end Wal

end NbdServer
