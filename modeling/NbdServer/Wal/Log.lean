import NbdServer.Wal.Ops

/-!
# The history of a WAL

A chain of segments holds the history of a WAL above the pruned records (`Logs`). An append extends
both, a prune removes segments below the requested sequence, and reopening the directory gives a WAL
with the same chain.
-/

namespace NbdServer

namespace Wal

open Lib

/-- The chain after `p` holds the records of the history from `p` on. -/
structure Logs (history : List WalRecord) (p : Nat) (segs : List Segment) : Prop where
  records : chainRecords segs = history.drop p
  le : p ≤ history.length

variable {crc : Checksum} {history : List WalRecord} {p : Nat} {segs : List Segment}

lemma Logs.nil : Logs [] 0 [] := ⟨rfl, le_rfl⟩

lemma Logs.last (h : Logs history p segs) (chain : Chain p segs) :
    chainLast p segs = history.length := by
  have := h.le
  rw [chainLast_eq chain, h.records, List.length_drop]
  omega

lemma Logs.bytes (h : Logs history p segs) : p + logBytes (chainRecords segs) ≤
    logBytes history := by
  have split : logBytes history = logBytes (history.take p) + logBytes (history.drop p) := by
    rw [← logBytes_append, List.take_append_drop]
  have le := h.le
  have := length_le_logBytes (history.take p)
  rw [List.length_take] at this
  rw [h.records]
  omega

lemma Logs.append {segs' : List Segment} {more : List WalRecord} (h : Logs history p segs)
    (records : chainRecords segs' = chainRecords segs ++ more) :
    Logs (history ++ more) p segs' where
  records := by
    rw [records, h.records, List.drop_append_of_le_length h.le]
  le := by
    rw [List.length_append]
    exact Nat.le_add_right_of_le h.le

lemma Logs.drop {gone rest : List Segment} (h : Logs history p (gone ++ rest))
    (chain : Chain p (gone ++ rest)) : Logs history (chainLast p gone) rest where
  records := by
    rw [chainLast_eq chain.append_left, ← List.drop_drop, ← h.records, chainRecords_append,
      List.drop_left]
  le := by
    rw [← h.last chain]
    rcases List.eq_nil_or_concat' rest with rfl | ⟨init, s, rfl⟩
    · rw [List.append_nil]
    · rw [← List.append_assoc, chainLast_append]
      exact (chain.append_right.bounds.2 s (by simp)).1

lemma Logs.empty {s : Segment} (last : s.last = history.length) :
    Logs history s.last [.empty s.last] where
  records := by
    rw [last, List.drop_length]
    rfl
  le := last.le

lemma Chain.last_le {seq bound : Nat} {gone : List Segment} (chain : Chain p gone)
    (retired : ∀ t ∈ gone, t.last ≤ seq) (bounded : p ≤ bound) :
    chainLast p gone ≤ max bound seq := by
  rcases List.eq_nil_or_concat' gone with rfl | ⟨l, t, rfl⟩
  · exact le_max_of_le_left bounded
  · rw [chainLast_append]
    exact le_max_of_le_right (retired t (by simp))

section Prune

variable {seq : Nat} {gone stay : List Segment} {s : Segment}

lemma Chain.stay_eq_nil (chain : Chain p (gone ++ stay ++ [s])) (later : ∀ t ∈ stay, seq < t.last)
    (rolls : RollsOver s seq) : stay = [] := by
  refine List.eq_nil_iff_forall_not_mem.2 fun t ht => ?_
  obtain ⟨-, before, -⟩ := chain_append.1 chain
  have h₁ := (chain.append_left.bounds.2 t (List.mem_append_right _ ht)).2
  have h₂ := later t ht
  have h₃ : s.before ≤ s.last := Nat.le_add_right _ _
  have h₄ := rolls.2
  omega

lemma Logs.pruned (h : Logs history p (gone ++ stay ++ [s]))
    (chain : Chain p (gone ++ stay ++ [s])) :
    Logs history (Wal.pruned p gone stay s seq).1 (Wal.pruned p gone stay s seq).2 := by
  have last : s.last = history.length := by
    rw [← h.last chain, chainLast_append]
    rfl
  unfold Wal.pruned
  split
  · exact .empty last
  · rw [List.append_assoc] at h chain
    exact h.drop chain

lemma Chain.pruned_le {bound : Nat} (chain : Chain p (gone ++ stay ++ [s])) (bounded : p ≤ bound)
    (retired : ∀ t ∈ gone, t.last ≤ seq) : (pruned p gone stay s seq).1 ≤ max bound seq := by
  unfold pruned
  split
  · rename_i rolls
    exact le_max_of_le_right rolls.2
  · exact chain.append_left.append_left.last_le retired bounded

lemma Chain.le_pruned (chain : Chain p (gone ++ stay ++ [s])) :
    p ≤ (pruned p gone stay s seq).1 := by
  unfold pruned
  split
  · exact (chain.bounds.2 s (by simp)).1
  · exact chain.append_left.append_left.bounds.1

end Prune

lemma Holds.reopen {tail : Buf} {d : Disk} (h : Holds crc d p segs tail) (target : Nat)
    (dir : String) :
    ∃ wal, LocalExportWal.open crc target ⟨dir, d, [], []⟩ = .ok wal wal.files ∧
      wal.segmentTargetBytes = target ∧ wal.files.log = repairLast crc segs tail ∧
      Ready crc wal p segs ∧ Wal.loadRecords crc wal.files = .ok (chainRecords segs) wal.files := by
  have holds : Holds crc (Files.disk ⟨dir, d, [], []⟩) p segs tail := h
  have repaired : Holds crc (Files.issue ⟨dir, d, [], []⟩ (repairLast crc segs tail)).disk p segs
      [] := by
    rw [Files.disk_issue]
    exact holds.repaired
  have loaded := repaired.loadRecords rfl
  rw [repairLast_nil, Files.issue_nil] at loaded
  exact ⟨_, holds.open_ok rfl target, rfl, rfl, ⟨rfl, repaired, rfl⟩, loaded⟩

lemma checkOrdered_ok {records : List WalRecord} {previous : Nat}
    (sorted : records.Pairwise fun a b => a.seq < b.seq) (above : ∀ r ∈ records, previous < r.seq) :
    checkOrdered records previous = .ok () := by
  induction records generalizing previous with
  | nil => rfl
  | cons r records ih =>
    obtain ⟨first, rest⟩ := List.pairwise_cons.1 sorted
    rw [checkOrdered, if_neg (not_le.2 (above r List.mem_cons_self))]
    exact ih rest first

lemma validateReplayRange_ok {bounds : WalBounds} {after through : Nat} :
    validateReplayRange bounds after through = .ok () ↔
      bounds.prunedThrough ≤ after ∧ after ≤ through ∧ through ≤ bounds.lastDurable := by
  unfold validateReplayRange
  split_ifs <;> simp [fail] <;> omega

lemma Holds.replayRange {w : LocalExportWal} {tail : Buf} (h : Holds crc w.files.disk p segs tail)
    (plan : w.files.plan = []) {after through : Nat}
    (valid : validateReplayRange w.state.bounds after through = .ok ()) :
    Wal.replayRange crc after through w =
      .ok ((chainRecords segs).filter fun r => after < r.seq ∧ r.seq ≤ through)
        (w.after (repairLast crc segs tail) w.state) := by
  have sorted := h.chain.consecutive.pairwise
  have ordered : checkOrdered ((chainRecords segs).filter fun r => after < r.seq ∧ r.seq ≤ through)
    0 =
      .ok () := by
    refine checkOrdered_ok (sorted.sublist List.filter_sublist) fun r hr => ?_
    have := h.chain.consecutive.bounds (List.mem_of_mem_filter hr)
    omega
  rw [Wal.replayRange, get_bind, valid, lift_ok_bind, bind_ok (onFiles_ok (h.loadRecords plan)),
    ordered, lift_ok_bind]
  rfl

end Wal

end NbdServer
