import NbdServer.View.Refine

/-!
# The accounts of the read view

What the overlay, the cache and the debt counter of a view stand for, in every state of a run. The
overlay holds the records above the checkpoint of the root, the cache only bytes of the root that no
such record covers, and `wal_debt_bytes` counts the payload bytes of these records. A snapshot
counts those between its root and its target, so what `advance_after_compaction` subtracts is a part
of what it subtracts from.
-/

namespace NbdServer

open Lib

def payloadBytes (h : List WalRecord) : Nat := (h.map (·.data.length)).sum

lemma payloadBytes_append (h h' : List WalRecord) :
    payloadBytes (h ++ h') = payloadBytes h + payloadBytes h' := by
  rw [payloadBytes, List.map_append, List.sum_append]
  rfl

def recordsAbove (h : List WalRecord) (seq : Nat) : List WalRecord := h.filter (seq < ·.seq)

lemma Consecutive.recordsAbove_append {first seq : Nat} {h h' : List WalRecord}
    (c : Consecutive first (h ++ h')) (eq : seq = first + h.length) :
    recordsAbove (h ++ h') seq = h' := by
  rw [recordsAbove, List.filter_append, List.filter_eq_nil_iff.2, List.filter_eq_self.2,
    List.nil_append]
  · intro r hr
    have := (c.right.bounds hr).1
    simp only [decide_eq_true_eq]
    omega
  · intro r hr
    have := (c.left.bounds hr).2
    simp only [decide_eq_true_eq]
    omega

/-- The records between a snapshot's root and its target, of the applied ones. -/
def CompactionSnapshot.records (sn : CompactionSnapshot) (applied : List WalRecord) :
    List WalRecord :=
  (recordsAbove applied sn.root.baseWalSeq).filter (·.seq ≤ sn.targetWalSeq)

namespace Represents

variable {committed : RootSnapshot → Nat → UInt8} {base : Nat → UInt8} {first size : Nat}
variable {done pending : List WalRecord} {s : ReadViewState}

lemma recordsAbove_eq (h : Represents committed base first size done pending s) :
    recordsAbove (done ++ pending) s.root.baseWalSeq = pending :=
  h.seqs.recordsAbove_append h.base_eq

lemma extent (h : Represents committed base first size done pending s) {e}
    (he : e ∈ s.overlay.extents.entries) :
    s.root.baseWalSeq < e.value.seq ∧ e.value.seq ≤ s.lastAppliedSeq ∧
      e.value.seq = e.value.record.seq ∧
      e.value.record.range.start + e.value.recordOffset = e.start ∧
      e.value.recordOffset + (e.stop - e.start) ≤ e.value.record.data.length := by
  obtain ⟨p₁, p₂, p₃⟩ := s.overlay.part e he
  have lt := e.lt
  have hw : s.overlay.writer e.start = some e.value.record :=
    OverlayExtentMap.writer_eq_some.2 ⟨e, he, ⟨le_rfl, lt⟩, rfl⟩
  rw [h.overlay] at hw
  have bounds := h.seqs.right.bounds (mem_of_lastWriter hw).1
  have base_eq := h.base_eq
  have last_eq := h.last_eq
  have len := e.value.record.data_len
  refine ⟨?_, ?_, p₁, p₂, ?_⟩ <;> omega

lemma overlay_isEmpty (h : Represents committed base first size done pending s) :
    s.overlay.isEmpty = true ↔ s.lastAppliedSeq = s.root.baseWalSeq := by
  rw [OverlayExtentMap.isEmpty, List.isEmpty_iff]
  constructor
  · intro empty
    -- the last pending record would be the writer of its first byte
    cases hp : pending using List.reverseRecOn with
    | nil =>
      rw [h.last_eq, h.base_eq, hp]
      rfl
    | append_singleton front r _ =>
      have hw : writerIn pending r.range.start = some r := by
        have covers : r.covers r.range.start = true :=
          WalRecord.covers_iff.2 ⟨le_rfl, by have := r.len_pos; omega⟩
        rw [writerIn, hp, lastWriter_concat, if_pos covers]
      rw [← h.overlay] at hw
      obtain ⟨e, he, -⟩ := OverlayExtentMap.writer_eq_some.1 hw
      rw [empty] at he
      cases he
  · intro eq
    have none : pending = [] := by
      have := h.last_eq
      have := h.base_eq
      exact List.length_eq_zero_iff.1 (by omega)
    refine List.eq_nil_iff_forall_not_mem.2 fun e he => ?_
    have hw : s.overlay.writer e.start = some e.value.record :=
      OverlayExtentMap.writer_eq_some.2 ⟨e, he, ⟨le_rfl, e.lt⟩, rfl⟩
    rw [h.overlay, none] at hw
    cases hw

lemma byteAt_of_writer (h : Represents committed base first size done pending s) {x : Nat}
    {r : WalRecord} (hw : s.overlay.writer x = some r) : s.cache.byteAt x = none := by
  cases hb : s.cache.byteAt x with
  | none => rfl
  | some b =>
    have free := (h.cached x b hb).2.1
    rw [← h.overlay, hw] at free
    cases free

lemma cached_root (h : Represents committed base first size done pending s) {x : Nat} {b : UInt8}
    (hb : s.cache.byteAt x = some b) : x < s.root.sizeBytes ∧ b = committed s.root x := by
  obtain ⟨lt, -, eq⟩ := h.cached x b hb
  rw [h.size_eq, h.root x lt, eq]
  exact ⟨lt, rfl⟩

end Represents

/-! ## The debt over a run -/

/-- The debts are those of the records they stand for. -/
structure DebtInv (w : ViewWorld) : Prop where
  view : w.view.walDebtBytes = payloadBytes (recordsAbove w.applied w.view.root.baseWalSeq)
  snapshots : ∀ sn ∈ w.snapshots, sn.walDebtBytes = payloadBytes (sn.records w.applied)
  published : ∀ p ∈ w.published, p.2 ∈ w.snapshots

variable {committed : RootSnapshot → Nat → UInt8} {root : RootSnapshot}

lemma SnapshotOf.records_eq {applied : List WalRecord} {sn : CompactionSnapshot}
    {done pending : List WalRecord} (h : SnapshotOf committed root applied sn done pending)
    (seqs : Consecutive root.baseWalSeq applied) : sn.records applied = pending := by
  obtain ⟨rest, rfl⟩ := h.initial
  have base_eq := h.base_eq
  have target_eq := h.target_eq
  have above : recordsAbove (done ++ pending ++ rest) sn.root.baseWalSeq = pending ++ rest := by
    rw [List.append_assoc] at seqs ⊢
    exact seqs.recordsAbove_append base_eq
  rw [CompactionSnapshot.records, above, List.filter_append, List.filter_eq_self.2,
    List.filter_eq_nil_iff.2, List.append_nil]
  · intro r hr
    have := (seqs.right.bounds hr).1
    rw [List.length_append] at this
    simp only [decide_eq_true_eq]
    omega
  · intro r hr
    have := (seqs.left.right.bounds hr).2
    simp only [decide_eq_true_eq]
    omega

/-- Only the overlay, the cache, the reads and their results may differ. -/
structure ViewWorld.Quiet (w w' : ViewWorld) : Prop where
  applied : w'.applied = w.applied
  snapshots : w'.snapshots = w.snapshots
  published : w'.published = w.published
  base : w'.view.root.baseWalSeq = w.view.root.baseWalSeq
  debt : w'.view.walDebtBytes = w.view.walDebtBytes

lemma ViewInv.quiet_or {w w' : ViewWorld} (inv : ViewInv committed root w)
    (hs : root.sizeBytes + CACHE_BLOCK_BYTES < U64) {e : ViewEvent} (st : w.next e = some w') :
    w.Quiet w' ∨ (∃ record, e = .apply record) ∨ e = .captureSnapshot ∨
      (∃ i newRoot, e = .publish i newRoot) ∨ ∃ i, e = .advance i := by
  cases e with
  | beginRead range =>
    left
    rw [ViewWorld.next] at st
    split at st
    · cases st
      exact ⟨rfl, rfl, rfl, rfl, rfl⟩
    · cases st
      exact ⟨rfl, rfl, rfl, rfl, rfl⟩
  | treeRead i block =>
    left
    rw [ViewWorld.next] at st
    obtain ⟨r, -, st⟩ := Option.bind_eq_some_iff.1 st
    obtain ⟨miss, -, st⟩ := Option.bind_eq_some_iff.1 st
    split at st
    · cases st
      exact ⟨rfl, rfl, rfl, rfl, rfl⟩
    · cases st
      exact ⟨rfl, rfl, rfl, rfl, rfl⟩
  | treeFail i =>
    left
    rw [ViewWorld.next] at st
    obtain ⟨r, -, st⟩ := Option.bind_eq_some_iff.1 st
    obtain ⟨miss, -, st⟩ := Option.bind_eq_some_iff.1 st
    cases st
    exact ⟨rfl, rfl, rfl, rfl, rfl⟩
  | finishRead i =>
    left
    rw [ViewWorld.next] at st
    obtain ⟨r, hr, st⟩ := Option.bind_eq_some_iff.1 st
    split at st
    · rename_i all
      have read := inv.reads r (List.mem_of_getElem? hr)
      obtain ⟨done, pending, -, rep⟩ := inv.view
      obtain ⟨s', run, -, root_eq, debt⟩ := rep.finishRead hs read.captured (read.complete all)
      split at st
      · cases st
        exact ⟨rfl, rfl, rfl, rfl, rfl⟩
      · cases st
        refine ⟨rfl, rfl, rfl, ?_, ?_⟩
        · simp only [run, root_eq]
        · simp only [run, debt]
    · cases st
  | evict id =>
    left
    rw [ViewWorld.next] at st
    split at st
    · cases st
      exact ⟨rfl, rfl, rfl, rfl, rfl⟩
    · cases st
  | apply record => exact .inr (.inl ⟨record, rfl⟩)
  | captureSnapshot => exact .inr (.inr (.inl rfl))
  | publish i newRoot => exact .inr (.inr (.inr (.inl ⟨i, newRoot, rfl⟩)))
  | advance i => exact .inr (.inr (.inr (.inr ⟨i, rfl⟩)))

lemma ViewInv.applied_initial {w w' : ViewWorld} (inv : ViewInv committed root w)
    (hs : root.sizeBytes + CACHE_BLOCK_BYTES < U64) {e : ViewEvent} (st : w.next e = some w') :
    w.applied <+: w'.applied := by
  rcases inv.quiet_or hs st with quiet | ⟨record, rfl⟩ | rfl | ⟨i, newRoot, rfl⟩ | ⟨i, rfl⟩
  · rw [quiet.applied]
  · rw [ViewWorld.next] at st
    cases st
    show w.applied <+: if _ then w.applied else w.applied ++ [record]
    split
    · exact List.prefix_refl _
    · exact List.prefix_append _ _
  · rw [ViewWorld.next] at st
    obtain ⟨sn, -, rfl⟩ := Option.map_eq_some_iff.1 st
    exact List.prefix_refl _
  · rw [ViewWorld.next] at st
    obtain ⟨sn, -, st⟩ := Option.bind_eq_some_iff.1 st
    cases st
    exact List.prefix_refl _
  · rw [ViewWorld.next] at st
    obtain ⟨p, -, st⟩ := Option.bind_eq_some_iff.1 st
    cases st
    exact List.prefix_refl _

namespace DebtInv

variable {w w' : ViewWorld}

lemma new {budget : Nat} : DebtInv (.new root budget) where
  view := rfl
  snapshots := by simp [ViewWorld.new]
  published := by simp [ViewWorld.new]

lemma congr (d : DebtInv w) (quiet : w.Quiet w') : DebtInv w' := by
  obtain ⟨applied, snapshots, published, base, debt⟩ := quiet
  refine ⟨?_, ?_, ?_⟩
  · rw [debt, applied, base]
    exact d.view
  · rw [snapshots, applied]
    exact d.snapshots
  · rw [published, snapshots]
    exact d.published

/-- A record that is applied adds its payload to the debt of the view and to none of the
snapshots. -/
lemma apply (d : DebtInv w) (inv : ViewInv committed root w) (hs : root.sizeBytes < U64)
    {record : WalRecord} (st : w.next (.apply record) = some w')
    (total : payloadBytes w'.applied < U64) : DebtInv w' := by
  obtain ⟨done, pending, split, rep⟩ := inv.view
  obtain ⟨rep', root_eq, kept, added⟩ := rep.applyWalRecord hs record
  rw [ViewWorld.next] at st
  cases st
  by_cases same : (w.view.applyWalRecord record).1.lastAppliedSeq = w.view.lastAppliedSeq
  · refine d.congr ⟨if_pos same, rfl, rfl, ?_, ?_⟩
    · rw [kept same]
    · rw [kept same]
  · simp only [if_neg same] at rep' total ⊢
    have view := d.view
    rw [split, rep.recordsAbove_eq] at view
    have all : payloadBytes (w.applied ++ [record]) =
        payloadBytes done + payloadBytes pending + record.data.length := by
      rw [split, payloadBytes_append, payloadBytes_append]
      rfl
    have pending' := rep'.recordsAbove_eq
    rw [← List.append_assoc, ← split] at pending'
    refine ⟨?_, ?_, d.published⟩
    · show (w.view.applyWalRecord record).1.walDebtBytes = payloadBytes (recordsAbove _ _)
      rw [added same (by omega), pending', payloadBytes_append, view]
      rfl
    · intro sn hsn
      obtain ⟨before, between, snap⟩ := inv.snapshots sn hsn
      have seqs : Consecutive root.baseWalSeq w.applied := by
        rw [split]
        exact rep.seqs
      have seqs' : Consecutive root.baseWalSeq (w.applied ++ [record]) := by
        rw [split, List.append_assoc]
        exact rep'.seqs
      show sn.walDebtBytes = payloadBytes (sn.records (w.applied ++ [record]))
      rw [d.snapshots sn hsn, snap.records_eq seqs,
        (snap.mono (List.prefix_append _ _)).records_eq seqs']

lemma captureSnapshot (d : DebtInv w) (inv : ViewInv committed root w)
    (st : w.next .captureSnapshot = some w') : DebtInv w' := by
  obtain ⟨done, pending, split, rep⟩ := inv.view
  have inv' := inv.captureSnapshot st
  rw [ViewWorld.next] at st
  obtain ⟨sn, hsn, rfl⟩ := Option.map_eq_some_iff.1 st
  refine ⟨d.view, ?_, fun p hp => List.mem_append_left _ (d.published p hp)⟩
  intro sn' hsn'
  rcases List.mem_append.1 hsn' with old | new
  · exact d.snapshots sn' old
  · cases List.mem_singleton.1 new
    unfold ReadViewState.captureCompactionSnapshot at hsn
    split at hsn
    · cases hsn
    · cases hsn
      show w.view.walDebtBytes = payloadBytes (List.filter _ (recordsAbove w.applied _))
      rw [d.view, List.filter_eq_self.2]
      intro r hr
      rw [split, rep.recordsAbove_eq] at hr
      have := (rep.seqs.right.bounds hr).2
      have := rep.last_eq
      simp only [decide_eq_true_eq]
      omega

lemma publish (d : DebtInv w) {i : Nat} {newRoot : RootSnapshot}
    (st : w.next (.publish i newRoot) = some w') : DebtInv w' := by
  rw [ViewWorld.next] at st
  obtain ⟨sn, hsn, st⟩ := Option.bind_eq_some_iff.1 st
  cases st
  refine ⟨d.view, d.snapshots, ?_⟩
  intro p hp
  rcases List.mem_append.1 hp with old | new
  · exact d.published p old
  · cases List.mem_singleton.1 new
    exact List.mem_of_getElem? hsn

lemma snapshot_le (d : DebtInv w) {sn : CompactionSnapshot} (mem : sn ∈ w.snapshots)
    (same : w.view.root.baseWalSeq = sn.root.baseWalSeq) :
    sn.walDebtBytes ≤ w.view.walDebtBytes := by
  rw [d.view, d.snapshots sn mem, same, CompactionSnapshot.records]
  exact (List.filter_sublist.map _).sum_le_sum fun _ _ => Nat.zero_le _

lemma advance (d : DebtInv w) (inv : ViewInv committed root w)
    (hs : root.sizeBytes + CACHE_BLOCK_BYTES < U64) {i : Nat}
    (st : w.next (.advance i) = some w') : DebtInv w' := by
  obtain ⟨done, pending, split, rep⟩ := inv.view
  rw [ViewWorld.next] at st
  obtain ⟨⟨newRoot, sn⟩, hp, st⟩ := Option.bind_eq_some_iff.1 st
  cases st
  have mem := List.mem_of_getElem? hp
  obtain ⟨pub, before, between, snap⟩ := inv.published _ mem
  obtain ⟨-, ⟨-, kept⟩ | ⟨check, -, root_eq, debt⟩⟩ := rep.advance hs split snap pub
  · refine d.congr ⟨rfl, rfl, rfl, ?_, ?_⟩
    · show (w.view.advanceAfterCompaction newRoot sn).1.root.baseWalSeq = _
      rw [kept]
    · show (w.view.advanceAfterCompaction newRoot sn).1.walDebtBytes = _
      rw [kept]
  · obtain ⟨-, -, base_eq, target_eq, le, -⟩ := Represents.checkAdvance_eq_true.1 check
    have seqs : Consecutive root.baseWalSeq w.applied := by
      rw [split]
      exact rep.seqs
    have snapDebt := d.snapshots sn (d.published _ mem)
    rw [snap.records_eq seqs] at snapDebt
    have viewDebt := d.view
    obtain ⟨rest, eq⟩ := snap.initial
    rw [← eq] at seqs viewDebt
    have above : recordsAbove w.applied newRoot.baseWalSeq = rest := by
      rw [← eq]
      refine seqs.recordsAbove_append ?_
      rw [target_eq, snap.target_eq, List.length_append]
      omega
    rw [List.append_assoc] at seqs viewDebt
    rw [base_eq, seqs.recordsAbove_append snap.base_eq, payloadBytes_append] at viewDebt
    refine ⟨?_, d.snapshots, d.published⟩
    show (w.view.advanceAfterCompaction newRoot sn).1.walDebtBytes = payloadBytes (recordsAbove _
      (w.view.advanceAfterCompaction newRoot sn).1.root.baseWalSeq)
    rw [debt, root_eq, above]
    split
    · rename_i whole
      -- the root holds everything that was applied
      have none : rest = [] := by
        have h₁ := snap.target_eq
        have h₂ := rep.last_eq
        have h₃ := congrArg List.length (eq.trans split)
        simp only [List.length_append] at h₃
        exact List.length_eq_zero_iff.1 (by omega)
      rw [none]
      rfl
    · rw [viewDebt, snapDebt, Nat.add_sub_cancel_left]

lemma step (d : DebtInv w) (inv : ViewInv committed root w)
    (hs : root.sizeBytes + CACHE_BLOCK_BYTES < U64) {e : ViewEvent} (st : w.next e = some w')
    (total : payloadBytes w'.applied < U64) : DebtInv w' := by
  rcases inv.quiet_or hs st with quiet | ⟨record, rfl⟩ | rfl | ⟨i, newRoot, rfl⟩ | ⟨i, rfl⟩
  · exact d.congr quiet
  · exact d.apply inv (by omega) st total
  · exact d.captureSnapshot inv st
  · exact d.publish st
  · exact d.advance inv hs st

lemma of_reachable {budget : Nat} (hs : root.sizeBytes + CACHE_BLOCK_BYTES < U64)
    (reach : (viewSystem committed root budget).Reachable w)
    (total : payloadBytes w.applied < U64) : DebtInv w := by
  induction reach with
  | init h =>
    cases h
    exact .new
  | @step w e w' reach st ih =>
    have inv := ViewInv.of_reachable hs reach
    obtain ⟨rest, eq⟩ := inv.applied_initial hs st.2
    refine (ih ?_).step inv hs st.2 total
    rw [← eq, payloadBytes_append] at total
    omega

end DebtInv

/-- In every state of a run the overlay holds parts of the records above the checkpoint and of no
other, it is empty exactly when the root holds all applied records, it shares no byte with the
cache, the cache holds bytes of the root, and the debt is the payload of the records above the
checkpoint. So no published snapshot is refused because of its debt, and its subtraction does not
underflow. -/
theorem read_view_invariant {committed : RootSnapshot → Nat → UInt8} {root : RootSnapshot}
    {budget : Nat} (size_le : root.sizeBytes ≤ 2 ^ 63 - 1) {w : ViewWorld}
    (reach : (viewSystem committed root budget).Reachable w)
    (total : (w.applied.map (·.data.length)).sum < 2 ^ 64) :
    (∀ e ∈ w.view.overlay.extents.entries,
      w.view.root.baseWalSeq < e.value.seq ∧ e.value.seq ≤ w.view.lastAppliedSeq ∧
      e.value.seq = e.value.record.seq ∧
      e.value.record.range.start + e.value.recordOffset = e.start ∧
      e.value.recordOffset + (e.stop - e.start) ≤ e.value.record.data.length) ∧
    (w.view.overlay.isEmpty = true ↔ w.view.lastAppliedSeq = w.view.root.baseWalSeq) ∧
    (∀ x r, w.view.overlay.writer x = some r → w.view.cache.byteAt x = none) ∧
    (∀ x b, w.view.cache.byteAt x = some b →
      x < w.view.root.sizeBytes ∧ b = committed w.view.root x) ∧
    w.view.walDebtBytes =
      ((w.applied.filter (w.view.root.baseWalSeq < ·.seq)).map (·.data.length)).sum ∧
    ∀ p ∈ w.published, w.view.root.baseWalSeq = p.2.root.baseWalSeq →
      p.2.walDebtBytes ≤ w.view.walDebtBytes ∧
      (w.view.advanceAfterCompaction p.1 p.2).2 = .ok () := by
  have hs := sizeBytes_fits size_le
  have inv := ViewInv.of_reachable hs reach
  have debts := DebtInv.of_reachable hs reach total
  obtain ⟨done, pending, split, rep⟩ := inv.view
  refine ⟨fun e he => rep.extent he, rep.overlay_isEmpty, fun x r => rep.byteAt_of_writer,
    fun x b => rep.cached_root, debts.view, ?_⟩
  intro p hp same
  have le := debts.snapshot_le (debts.published p hp) same
  refine ⟨le, ?_⟩
  obtain ⟨pub, before, between, snap⟩ := inv.published p hp
  obtain ⟨-, ⟨refused, -⟩ | ⟨-, ok, -⟩⟩ := rep.advance hs split snap pub
  · -- the only check that does not pass is that there is nothing left to advance to
    have old : w.view.root.baseWalSeq ≥ p.2.targetWalSeq := by
      by_contra new
      obtain ⟨rest, eq⟩ := snap.initial
      have h₁ := congrArg List.length (eq.trans split)
      simp only [List.length_append] at h₁
      have h₂ := rep.last_eq
      have h₃ := snap.target_eq
      have h₄ := pub.base_eq
      refine refused (Represents.checkAdvance_eq_true.2 ⟨?_, by omega, same, h₄, by omega, le⟩)
      rw [pub.size_eq, snap.size_eq, rep.size_eq]
    have size_eq : p.1.sizeBytes = w.view.root.sizeBytes := by
      rw [pub.size_eq, snap.size_eq, rep.size_eq]
    have stale : w.view.checkAdvance p.1 p.2 = .ok false := by
      unfold ReadViewState.checkAdvance
      rw [if_neg (not_not.2 size_eq), if_pos old]
    unfold ReadViewState.advanceAfterCompaction
    rw [stale]
  · exact ok

/-- `read_view_invariant` after two records of which the second overlaps the first: the debt counts
both whole. -/
theorem read_view_invariant_overtaken :
    ∃ w, overtakenRead = some w ∧ (w.applied.map (·.data.length)).sum < 2 ^ 64 ∧
      w.view.walDebtBytes = 3 ∧ w.view.overlay.isEmpty = false := by
  have run : overtakenRead.isSome := rfl
  have applied : overtakenRead.map (fun w => (w.applied.map (·.data.length),
      w.applied.map (·.seq), w.view.root.baseWalSeq, w.view.lastAppliedSeq)) =
      some ([2, 1], [1, 2], 0, 2) := rfl
  obtain ⟨w, hw⟩ := Option.isSome_iff_exists.1 run
  have reach : (viewSystem (fun _ _ => 0) (.cowHead none 0 8 .bounded32V1) 64).Reachable w :=
    .foldlM ViewWorld.nextLocal_legal (.init rfl) hw
  rw [hw] at applied
  obtain ⟨lens, seqs, base, last⟩ : w.applied.map (·.data.length) = [2, 1] ∧
      w.applied.map (·.seq) = [1, 2] ∧ w.view.root.baseWalSeq = 0 ∧ w.view.lastAppliedSeq = 2 := by
    simpa using applied
  have total : (w.applied.map (·.data.length)).sum < 2 ^ 64 := by
    rw [lens]
    decide
  obtain ⟨-, empty, -, -, debt, -⟩ := read_view_invariant (by decide) reach total
  refine ⟨w, hw, total, ?_, ?_⟩
  · have all : w.applied.filter (w.view.root.baseWalSeq < ·.seq) = w.applied := by
      rw [List.filter_eq_self, base]
      intro r hr
      have := List.mem_map_of_mem (f := (·.seq)) hr
      rw [seqs] at this
      simp only [decide_eq_true_eq]
      rcases List.mem_cons.1 this with h | h
      · omega
      · have := List.mem_singleton.1 h
        omega
    rw [debt, all, lens]
    rfl
  · rw [Bool.eq_false_iff]
    intro h
    have := empty.1 h
    omega

end NbdServer
