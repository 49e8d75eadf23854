import NbdServer.View.Debt

/-!
# Updates of the read view

`apply_wal_record`, `advance_root` and `advance_after_compaction` check their arguments and then
change the overlay, the cache, the root and the counters one after the other. On a state that
satisfies its representation invariants (`ViewRep`) none of the calls behind the checks fails, so an
error leaves the state as it was, with one exception: the debt counter of `apply_wal_record` is
checked after the record has been installed.

The two ways to advance the root retire the same extents and differ in the debt.
-/

namespace NbdServer

open Lib

/-! ## The representation invariants -/

/-- What the fields of a read view have in common: the cache is sound, the records of the overlay
lie in the export, whose size fits in an `i64`, and the counters are in order. -/
structure ViewRep (s : ReadViewState) : Prop where
  cache : s.cache.Inv
  overlay : ∀ x r, s.overlay.writer x = some r → x < s.root.sizeBytes
  size_le : s.root.sizeBytes ≤ 2 ^ 63 - 1
  base_le : s.root.baseWalSeq ≤ s.lastAppliedSeq
  debt_lt : s.walDebtBytes < U64

namespace ViewRep

variable {s : ReadViewState}

lemma retired_fits (rep : ViewRep s) {seq : Nat} {e : RetiredOverlayExtent}
    (mem : e ∈ s.overlay.visibleThrough seq) : e.stop + CACHE_BLOCK_BYTES < U64 := by
  obtain ⟨part, -⟩ := OverlayExtentMap.retiredPart mem
  have lt := part.lt
  have last := rep.overlay (e.stop - 1) _ (part.writer _ (by omega) (by omega))
  have fits := sizeBytes_fits rep.size_le
  omega

lemma installRoot (rep : ViewRep s) (newRoot : RootSnapshot) :
    ∃ cache overlay, s.installRoot newRoot =
      .ok { s with cache := cache, overlay := overlay, root := newRoot } := by
  obtain ⟨cache, overlay, run, -⟩ :=
    ReadViewState.installRoot_spec rep.cache fun e he => rep.retired_fits he
  exact ⟨cache, overlay, run⟩

lemma installRecord (rep : ViewRep s) {record : WalRecord} {seq : Nat}
    (checked : s.checkRecord record = .ok seq) :
    ∃ cache overlay, s.installRecord record =
      .ok { s with cache := cache, overlay := overlay, lastAppliedSeq := seq } := by
  have fits := sizeBytes_fits rep.size_le
  obtain ⟨inside, -, -⟩ := (ReadViewState.checkRecord_eq_ok rep.base_le (by omega)).1 checked
  obtain ⟨overlay, run₁, -⟩ := s.overlay.insertRecord_spec record (by omega)
  obtain ⟨cache, run₂, -⟩ := rep.cache.trimRange record.range (by omega)
  refine ⟨cache, overlay, ?_⟩
  unfold ReadViewState.installRecord
  rw [checked, Res.ok_bind, run₁, Res.ok_bind, run₂, Res.ok_bind]

lemma advance (rep : ViewRep s) {newRoot : RootSnapshot} {sn : CompactionSnapshot}
    (checked : s.checkAdvance newRoot sn = .ok true) :
    ∃ cache overlay, s.installRoot newRoot =
        .ok { s with cache := cache, overlay := overlay, root := newRoot } ∧
      s.advance newRoot sn = .ok { s with
        cache := cache, overlay := overlay, root := newRoot
        walDebtBytes := if newRoot.baseWalSeq = s.lastAppliedSeq then 0
          else s.walDebtBytes - sn.walDebtBytes } := by
  obtain ⟨-, -, -, -, -, le⟩ := Represents.checkAdvance_eq_true.1 checked
  obtain ⟨cache, overlay, run⟩ := rep.installRoot newRoot
  refine ⟨cache, overlay, run, ?_⟩
  unfold ReadViewState.advance
  rw [run, Res.ok_bind, minus_of_le le, Res.ok_bind]

end ViewRep

/-! ## All or nothing -/

lemma ViewRep.applyWalRecord_atomic_iff {s : ReadViewState} (rep : ViewRep s) (record : WalRecord) :
    ((∃ fault, (s.applyWalRecord record).2 = .error fault) → (s.applyWalRecord record).1 = s) ↔
      ¬ (record.range.start + record.range.len ≤ s.root.sizeBytes ∧
        record.seq = s.lastAppliedSeq + 1 ∧ U64 ≤ s.walDebtBytes + record.data.length) := by
  have fits := sizeBytes_fits rep.size_le
  have accepts : ∀ seq, s.checkRecord record = .ok seq ↔ _ ∧ _ ∧ _ :=
    fun seq => ReadViewState.checkRecord_eq_ok rep.base_le (by omega)
  unfold ReadViewState.applyWalRecord
  cases checked : s.checkRecord record with
  | error fault =>
    have run : s.installRecord record = .error fault := by
      unfold ReadViewState.installRecord
      rw [checked]
      rfl
    simp only [run]
    refine ⟨fun _ accepted => ?_, fun _ _ => trivial⟩
    have ok := (accepts record.seq).2 ⟨accepted.1, accepted.2.1, rfl⟩
    rw [checked] at ok
    cases ok
  | ok seq =>
    obtain ⟨inside, next, rfl⟩ := (accepts seq).1 checked
    obtain ⟨cache, overlay, run⟩ := rep.installRecord checked
    simp only [run]
    by_cases small : s.walDebtBytes + record.data.length < U64
    · simp only [checkedAdd_of_lt small]
      refine ⟨fun _ accepted => ?_, fun _ failed => ?_⟩
      · omega
      · obtain ⟨fault, failed⟩ := failed
        cases failed
    · have none : checkedAdd s.walDebtBytes record.data.length = none := if_neg small
      simp only [none]
      refine ⟨fun atomic => ?_, fun refused => absurd ⟨inside, next, by omega⟩ refused⟩
      have same := congrArg ReadViewState.lastAppliedSeq (atomic ⟨_, rfl⟩)
      have same : record.seq = s.lastAppliedSeq := same
      omega

/-- Updates of a read view are all or nothing, up to the debt counter. On every state that satisfies
its representation invariants, `apply_wal_record` fails with the state unchanged unless it accepts a
record whose bytes overflow the counter; the two ways to advance the root always do. The calls
behind the checks do not fail, so there is no update that stops half way. -/
theorem updates_atomic_iff {s : ReadViewState} (rep : ViewRep s) :
    (∀ record, ((∃ fault, (s.applyWalRecord record).2 = .error fault) →
        (s.applyWalRecord record).1 = s) ↔
      ¬ (record.range.start + record.range.len ≤ s.root.sizeBytes ∧
        record.seq = s.lastAppliedSeq + 1 ∧ U64 ≤ s.walDebtBytes + record.data.length)) ∧
    (∀ newRoot fault, (s.advanceRoot newRoot).2 = .error fault → (s.advanceRoot newRoot).1 = s) ∧
    (∀ newRoot snapshot fault, (s.advanceAfterCompaction newRoot snapshot).2 = .error fault →
      (s.advanceAfterCompaction newRoot snapshot).1 = s) ∧
    (∀ record seq, s.checkRecord record = .ok seq → ∃ s', s.installRecord record = .ok s') ∧
    (∀ newRoot, s.checkAdvanceRoot newRoot = .ok true → ∃ s', s.installRoot newRoot = .ok s') ∧
    ∀ newRoot snapshot, s.checkAdvance newRoot snapshot = .ok true →
      ∃ s', s.advance newRoot snapshot = .ok s' := by
  refine ⟨rep.applyWalRecord_atomic_iff, ?_, ?_, ?_, ?_, ?_⟩
  · intro newRoot fault failed
    unfold ReadViewState.advanceRoot at failed ⊢
    split
    · rfl
    · rfl
    · rename_i checked
      obtain ⟨cache, overlay, run⟩ := rep.installRoot newRoot
      simp only [checked, run] at failed
      cases failed
  · intro newRoot snapshot fault failed
    unfold ReadViewState.advanceAfterCompaction at failed ⊢
    split
    · rfl
    · rfl
    · rename_i checked
      obtain ⟨cache, overlay, -, run⟩ := rep.advance checked
      simp only [checked, run] at failed
      cases failed
  · intro record seq checked
    obtain ⟨cache, overlay, run⟩ := rep.installRecord checked
    exact ⟨_, run⟩
  · intro newRoot _
    obtain ⟨cache, overlay, run⟩ := rep.installRoot newRoot
    exact ⟨_, run⟩
  · intro newRoot snapshot checked
    obtain ⟨cache, overlay, -, run⟩ := rep.advance checked
    exact ⟨_, run⟩

/-- An empty view whose debt counter is at its last value. -/
def fullDebt : ReadViewState :=
  { ReadViewState.new (.cowHead none 0 8 .bounded32V1) 64 with walDebtBytes := 2 ^ 64 - 1 }

lemma fullDebt_rep : ViewRep fullDebt where
  cache := ReadCache.new_inv 64
  overlay x r h := by cases h
  size_le := by decide
  base_le := by decide
  debt_lt := by decide

/-- One more byte: the call reports the overflow, and the record is installed. -/
theorem apply_fails_installed :
    (fullDebt.applyWalRecord (recordAt 1 2 [5] (by decide) (by decide) (by decide))).2 =
        .error (.err (.wal "apply WAL record" "WAL debt bytes overflowed")) ∧
      (fullDebt.applyWalRecord
        (recordAt 1 2 [5] (by decide) (by decide) (by decide))).1.lastAppliedSeq = 1 ∧
      fullDebt.lastAppliedSeq = 0 := by
  decide +kernel

/-- `updates_atomic_iff` at a record that is refused for its sequence. -/
theorem updates_atomic_iff_refused :
    (fullDebt.applyWalRecord (recordAt 2 2 [5] (by decide) (by decide) (by decide))).1 =
    fullDebt := by
  refine ((updates_atomic_iff fullDebt_rep).1 _).2 ?_ ?_
  · rintro ⟨-, next, -⟩
    exact absurd next (by decide)
  · exact ⟨_, rfl⟩

/-! ## The two ways to advance the root -/

/-- The events of a view whose root may also be advanced without a snapshot. -/
inductive RootEvent where
  | view (event : ViewEvent)
  | advanceRoot (publication : Nat)

/-- The effect of an event, `none` where it cannot happen. -/
def ViewWorld.nextRoot (w : ViewWorld) : RootEvent → Option ViewWorld
  | .view e => w.next e
  | .advanceRoot i => do
    let (newRoot, _) ← w.published[i]?
    some { w with view := (w.view.advanceRoot newRoot).1 }

/-- What is assumed of the environment, as in `ViewWorld.Legal`. -/
def ViewWorld.LegalRoot (committed : RootSnapshot → Nat → UInt8) (w : ViewWorld) : RootEvent → Prop
  | .view e => w.Legal committed e
  | .advanceRoot _ => True

/-- The runs of a read view that advances its root in both ways. -/
def rootSystem (committed : RootSnapshot → Nat → UInt8) (root : RootSnapshot) (budget : Nat) :
    System ViewWorld RootEvent where
  init w := w = .new root budget
  step w e w' := w.LegalRoot committed e ∧ w.nextRoot e = some w'

lemma ReadViewState.checkAdvanceRoot_eq_true {s : ReadViewState} {newRoot : RootSnapshot} :
    s.checkAdvanceRoot newRoot = .ok true ↔
      newRoot.sizeBytes = s.root.sizeBytes ∧ s.root.baseWalSeq < newRoot.baseWalSeq ∧
        newRoot.baseWalSeq ≤ s.lastAppliedSeq := by
  unfold ReadViewState.checkAdvanceRoot
  split_ifs with c₁ c₂ c₃ c₄ <;> simp only [fail, reduceCtorEq, false_iff, true_iff,
    Except.ok.injEq, Bool.false_eq_true] <;> omega

lemma ReadViewState.le_debt_applyWalRecord (s : ReadViewState) (record : WalRecord) :
    s.walDebtBytes ≤ (s.applyWalRecord record).1.walDebtBytes := by
  unfold ReadViewState.applyWalRecord
  cases run : s.installRecord record with
  | error fault => exact le_rfl
  | ok s' =>
    have same : s'.walDebtBytes = s.walDebtBytes := by
      unfold ReadViewState.installRecord at run
      obtain ⟨seq, -, run⟩ := Res.bind_eq_ok.1 run
      obtain ⟨overlay, -, run⟩ := Res.bind_eq_ok.1 run
      obtain ⟨cache, -, run⟩ := Res.bind_eq_ok.1 run
      cases run
      rfl
    rw [← same]
    cases sum : checkedAdd s'.walDebtBytes record.data.length with
    | none => simp only [sum, le_refl]
    | some debt =>
      obtain ⟨-, rfl⟩ := checkedAdd_eq_some.1 sum
      simp only [sum, Nat.le_add_right]

section Runs

variable {committed : RootSnapshot → Nat → UInt8} {root : RootSnapshot}

/-- `advance_root` to a published root keeps the represented history, whatever snapshot the root was
published for. -/
lemma Represents.advanceRoot {applied done pending : List WalRecord} {s : ReadViewState}
    {newRoot : RootSnapshot} {sn : CompactionSnapshot} {done' pending' : List WalRecord}
    (hs : root.sizeBytes + CACHE_BLOCK_BYTES < U64) (split : applied = done ++ pending)
    (h : Represents committed (committed root) root.baseWalSeq root.sizeBytes done pending s)
    (snap : SnapshotOf committed root applied sn done' pending')
    (pub : ViewWorld.Publishes committed sn newRoot) :
    (∃ done₁ pending₁, applied = done₁ ++ pending₁ ∧
      Represents committed (committed root) root.baseWalSeq root.sizeBytes done₁ pending₁
        (s.advanceRoot newRoot).1) ∧
      ((s.advanceRoot newRoot).1 = s ∨
        s.root.baseWalSeq < (s.advanceRoot newRoot).1.root.baseWalSeq) := by
  unfold ReadViewState.advanceRoot
  cases hc : s.checkAdvanceRoot newRoot with
  | error fault => exact ⟨⟨done, pending, split, h⟩, .inl rfl⟩
  | ok proceed =>
    cases proceed with
    | false => exact ⟨⟨done, pending, split, h⟩, .inl rfl⟩
    | true =>
      obtain ⟨c₁, c₂, c₃⟩ := ReadViewState.checkAdvanceRoot_eq_true.1 hc
      obtain ⟨rest, eq⟩ := snap.initial
      have base_eq := h.base_eq
      have target : newRoot.baseWalSeq = root.baseWalSeq + (done' ++ pending').length := by
        rw [pub.base_eq, snap.target_eq, List.length_append, Nat.add_assoc]
      -- the new root holds the records of the old one and some of the pending ones
      obtain ⟨more, grown⟩ : done <+: done' ++ pending' := by
        have before : done <+: applied := split ▸ List.prefix_append done pending
        exact List.prefix_of_prefix_length_le before snap.initial (by omega)
      have pending_eq : pending = more ++ rest := by
        rw [split, ← grown, List.append_assoc] at eq
        exact (List.append_cancel_left eq).symm
      rw [pending_eq] at h
      obtain ⟨s', run, h', e₁, e₂, e₃⟩ := h.installRoot hs (c₁.trans h.size_eq)
        (by rw [target, ← grown, List.length_append, Nat.add_assoc])
        (grown ▸ snap.publishes pub)
      simp only [run]
      refine ⟨⟨done ++ more, rest, ?_, ?_⟩, .inr ?_⟩
      · rw [split, pending_eq, List.append_assoc]
      · exact ⟨h'.size_eq, h'.base_eq, h'.last_eq, h'.seqs, h'.bounds, h'.root, h'.overlay,
          h'.cache, h'.cached⟩
      · rw [e₁]
        exact c₂

/-- What is known of the snapshots in a run: each was taken on the current root or on an earlier
one, and the debt has not shrunk since it was taken on the current one. -/
structure SnapshotsKept (w : ViewWorld) : Prop where
  target : ∀ sn ∈ w.snapshots, sn.root.baseWalSeq < sn.targetWalSeq
  base : ∀ sn ∈ w.snapshots, sn.root.baseWalSeq ≤ w.view.root.baseWalSeq
  debt : ∀ sn ∈ w.snapshots, sn.root.baseWalSeq = w.view.root.baseWalSeq →
    sn.walDebtBytes ≤ w.view.walDebtBytes

namespace SnapshotsKept

variable {w w' : ViewWorld}

lemma withView (k : SnapshotsKept w) {view : ReadViewState}
    (moved : view = w.view ∨ w.view.root.baseWalSeq < view.root.baseWalSeq) :
    SnapshotsKept { w with view := view } := by
  rcases moved with rfl | lt
  · exact k
  · refine ⟨k.target, fun sn hsn => (k.base sn hsn).trans lt.le, fun sn hsn same => ?_⟩
    have := k.base sn hsn
    have same : sn.root.baseWalSeq = view.root.baseWalSeq := same
    omega

lemma apply (k : SnapshotsKept w) (inv : ViewInv committed root w) (hs : root.sizeBytes < U64)
    {record : WalRecord} (st : w.next (.apply record) = some w') : SnapshotsKept w' := by
  obtain ⟨done, pending, -, rep⟩ := inv.view
  obtain ⟨-, root_eq, -⟩ := rep.applyWalRecord hs record
  rw [ViewWorld.next] at st
  cases st
  refine ⟨k.target, ?_, ?_⟩
  · simp only [root_eq]
    exact k.base
  · simp only [root_eq]
    exact fun sn hsn same => (k.debt sn hsn same).trans (w.view.le_debt_applyWalRecord record)

lemma captureSnapshot (k : SnapshotsKept w) (st : w.next .captureSnapshot = some w') :
    SnapshotsKept w' := by
  rw [ViewWorld.next] at st
  obtain ⟨sn, taken, rfl⟩ := Option.map_eq_some_iff.1 st
  unfold ReadViewState.captureCompactionSnapshot at taken
  split at taken
  · cases taken
  · rename_i fresh
    cases taken
    rw [not_or] at fresh
    refine ⟨?_, ?_, ?_⟩
    · intro sn' hsn'
      rcases List.mem_append.1 hsn' with hsn' | hsn'
      · exact k.target sn' hsn'
      · cases List.mem_singleton.1 hsn'
        exact not_le.1 fresh.1
    · intro sn' hsn'
      rcases List.mem_append.1 hsn' with hsn' | hsn'
      · exact k.base sn' hsn'
      · cases List.mem_singleton.1 hsn'
        exact le_rfl
    · intro sn' hsn' same
      rcases List.mem_append.1 hsn' with hsn' | hsn'
      · exact k.debt sn' hsn' same
      · cases List.mem_singleton.1 hsn'
        exact le_rfl

lemma step (k : SnapshotsKept w) (inv : ViewInv committed root w)
    (hs : root.sizeBytes + CACHE_BLOCK_BYTES < U64) {e : ViewEvent} (st : w.next e = some w') :
    SnapshotsKept w' := by
  rcases inv.quiet_or hs st with quiet | ⟨record, rfl⟩ | rfl | ⟨i, newRoot, rfl⟩ | ⟨i, rfl⟩
  · refine ⟨?_, ?_, ?_⟩
    · rw [quiet.snapshots]
      exact k.target
    · rw [quiet.snapshots, quiet.base]
      exact k.base
    · rw [quiet.snapshots, quiet.base, quiet.debt]
      exact k.debt
  · exact k.apply inv (by omega) st
  · exact k.captureSnapshot st
  · rw [ViewWorld.next] at st
    obtain ⟨sn, -, st⟩ := Option.bind_eq_some_iff.1 st
    cases st
    exact ⟨k.target, k.base, k.debt⟩
  · rw [ViewWorld.next] at st
    obtain ⟨⟨newRoot, sn⟩, hp, st⟩ := Option.bind_eq_some_iff.1 st
    cases st
    obtain ⟨done, pending, split, rep⟩ := inv.view
    obtain ⟨pub, d, p, snap⟩ := inv.published _ (List.mem_of_getElem? hp)
    obtain ⟨-, ⟨-, same⟩ | ⟨checked, -, root_eq, -⟩⟩ := rep.advance hs split snap pub
    · exact k.withView (.inl same)
    · obtain ⟨-, lt, -, target, -⟩ := Represents.checkAdvance_eq_true.1 checked
      refine k.withView (.inr ?_)
      rw [root_eq]
      exact target ▸ lt

end SnapshotsKept

lemma rootSystem_invariant {budget : Nat} (hs : root.sizeBytes + CACHE_BLOCK_BYTES < U64)
    {w : ViewWorld} (reach : (rootSystem committed root budget).Reachable w) :
    ViewInv committed root w ∧ SnapshotsKept w := by
  refine System.invariant (P := fun w => ViewInv committed root w ∧ SnapshotsKept w) _ ?_ ?_ reach
  · rintro _ rfl
    exact ⟨.new, by simp [ViewWorld.new], by simp [ViewWorld.new], by simp [ViewWorld.new]⟩
  · rintro w e w' ⟨inv, kept⟩ ⟨legal, st⟩
    cases e with
    | view e => exact ⟨inv.step hs legal st, kept.step inv hs st⟩
    | advanceRoot i =>
      rw [ViewWorld.nextRoot] at st
      obtain ⟨⟨newRoot, sn⟩, hp, st⟩ := Option.bind_eq_some_iff.1 st
      cases st
      obtain ⟨done, pending, split, rep⟩ := inv.view
      obtain ⟨pub, d, p, snap⟩ := inv.published _ (List.mem_of_getElem? hp)
      obtain ⟨rep', moved⟩ := rep.advanceRoot hs split snap pub
      exact ⟨inv.withView rep', kept.withView moved⟩

end Runs

/-- The two ways to advance the root agree except on the debt. In every state of a run, for a
snapshot taken on the current root and a root of the same size with the checkpoint of the snapshot,
both succeed with the same overlay, cache, root and last applied sequence. `advance_root` keeps the
debt of the retired records unless nothing is left, while `advance_after_compaction` subtracts the
debt of the snapshot: the debts agree exactly when no newer record has been applied or the snapshot
has no debt. -/
theorem advance_paths_agree_iff {committed : RootSnapshot → Nat → UInt8} {root : RootSnapshot}
    {budget : Nat} (size_le : root.sizeBytes ≤ 2 ^ 63 - 1) {w : ViewWorld}
    (reach : (rootSystem committed root budget).Reachable w) {sn : CompactionSnapshot}
    (taken : sn ∈ w.snapshots) (since : sn.root.baseWalSeq = w.view.root.baseWalSeq)
    {newRoot : RootSnapshot} (size_eq : newRoot.sizeBytes = w.view.root.sizeBytes)
    (target_eq : newRoot.baseWalSeq = sn.targetWalSeq) :
    ∃ a b, w.view.advanceRoot newRoot = (a, .ok ()) ∧
      w.view.advanceAfterCompaction newRoot sn = (b, .ok ()) ∧
      a.overlay = b.overlay ∧ a.cache = b.cache ∧ a.root = b.root ∧
      a.lastAppliedSeq = b.lastAppliedSeq ∧
      (a.walDebtBytes = b.walDebtBytes ↔
        sn.targetWalSeq = w.view.lastAppliedSeq ∨ sn.walDebtBytes = 0) := by
  have hs := sizeBytes_fits size_le
  obtain ⟨inv, kept⟩ := rootSystem_invariant hs reach
  obtain ⟨done, pending, split, rep⟩ := inv.view
  obtain ⟨d, p, snap⟩ := inv.snapshots sn taken
  have base_lt := kept.target sn taken
  have debt_le := kept.debt sn taken since
  have target_le : sn.targetWalSeq ≤ w.view.lastAppliedSeq := by
    obtain ⟨rest, eq⟩ := snap.initial
    have length := congrArg List.length (eq.trans split)
    simp only [List.length_append] at length
    have := rep.last_eq
    have := snap.target_eq
    omega
  obtain ⟨cache, overlay, run⟩ : ∃ cache overlay, w.view.installRoot newRoot =
      .ok { w.view with cache := cache, overlay := overlay, root := newRoot } := by
    obtain ⟨cache, overlay, run, -⟩ :=
      ReadViewState.installRoot_spec rep.cache fun e he => rep.retired_fits hs he
    exact ⟨cache, overlay, run⟩
  have checked₁ := ReadViewState.checkAdvanceRoot_eq_true.2
    ⟨size_eq, by omega, target_eq.trans_le target_le⟩
  have checked₂ := Represents.checkAdvance_eq_true.2
    ⟨size_eq, by omega, since.symm, target_eq, target_eq.trans_le target_le, debt_le⟩
  refine ⟨{ w.view with
      cache := cache, overlay := overlay, root := newRoot
      walDebtBytes := if newRoot.baseWalSeq = w.view.lastAppliedSeq then 0
        else w.view.walDebtBytes },
    { w.view with
      cache := cache, overlay := overlay, root := newRoot
      walDebtBytes := if newRoot.baseWalSeq = w.view.lastAppliedSeq then 0
        else w.view.walDebtBytes - sn.walDebtBytes }, ?_, ?_, rfl, rfl, rfl, rfl, ?_⟩
  · unfold ReadViewState.advanceRoot
    simp only [checked₁, run]
  · unfold ReadViewState.advanceAfterCompaction ReadViewState.advance
    simp only [checked₂, run, Res.ok_bind, minus_of_le debt_le]
  · show (if newRoot.baseWalSeq = w.view.lastAppliedSeq then 0 else w.view.walDebtBytes) =
      (if newRoot.baseWalSeq = w.view.lastAppliedSeq then 0
        else w.view.walDebtBytes - sn.walDebtBytes) ↔ _
    rw [target_eq]
    by_cases all : sn.targetWalSeq = w.view.lastAppliedSeq
    · rw [if_pos all, if_pos all]
      simp only [all, true_or]
    · rw [if_neg all, if_neg all]
      omega

lemma rootSystem_of_viewSystem {committed : RootSnapshot → Nat → UInt8} {root : RootSnapshot}
    {budget : Nat} {w : ViewWorld} (reach : (viewSystem committed root budget).Reachable w) :
    (rootSystem committed root budget).Reachable w := by
  induction reach with
  | init h => exact .init h
  | @step w e w' _ st ih => exact System.Reachable.step (l := RootEvent.view e) ih st

/-- A record of two bytes, a snapshot, and perhaps a second record. -/
def snapshotBetween (later : List ViewEvent) : Option ViewWorld :=
  (.apply twoBytes :: .captureSnapshot :: later).foldlM ViewWorld.nextLocal
    (.new (.cowHead none 0 8 .bounded32V1) 64)

/-- With a newer record of one byte, `advance_root` leaves a debt of three bytes and
`advance_after_compaction` one of one byte. -/
theorem advance_paths_differ :
    (snapshotBetween [.apply (recordAt 2 2 [5] (by decide) (by decide) (by decide))]).map (fun w =>
      (w.snapshots.map (·.targetWalSeq),
        (w.view.advanceRoot (.cowHead none 1 8 .bounded32V1)).1.walDebtBytes,
        w.snapshots.map fun sn =>
          (w.view.advanceAfterCompaction (.cowHead none 1 8 .bounded32V1) sn).1.walDebtBytes)) =
      some ([1], 3, [1]) := by
  decide +kernel

/-- `advance_paths_agree_iff` without a newer record: both debts are zero. -/
theorem advance_paths_agree_iff_drained :
    ∃ w sn a b, snapshotBetween [] = some w ∧ w.snapshots = [sn] ∧
      w.view.advanceRoot (.cowHead none 1 8 .bounded32V1) = (a, .ok ()) ∧
      w.view.advanceAfterCompaction (.cowHead none 1 8 .bounded32V1) sn = (b, .ok ()) ∧
      a.walDebtBytes = b.walDebtBytes := by
  have run : (snapshotBetween []).isSome := by decide +kernel
  have facts : (snapshotBetween []).map (fun w => (w.snapshots.map fun sn =>
      (sn.root.baseWalSeq, sn.targetWalSeq), w.view.root.baseWalSeq, w.view.root.sizeBytes,
      w.view.lastAppliedSeq)) = some ([(0, 1)], 0, 8, 1) := by decide +kernel
  obtain ⟨w, hw⟩ := Option.isSome_iff_exists.1 run
  have reach : (viewSystem (fun _ _ => 0) (.cowHead none 0 8 .bounded32V1) 64).Reachable w :=
    .foldlM ViewWorld.nextLocal_legal (.init rfl) hw
  rw [hw, Option.map_some, Option.some_inj] at facts
  simp only [Prod.mk.injEq] at facts
  obtain ⟨snapshots, base, size, last⟩ := facts
  obtain ⟨sn, one, bounds⟩ := List.map_eq_singleton_iff.1 snapshots
  obtain ⟨sn_base, target⟩ := Prod.mk.inj bounds
  obtain ⟨a, b, ok₁, ok₂, -, -, -, -, debts⟩ := advance_paths_agree_iff (by decide)
    (rootSystem_of_viewSystem reach) (one ▸ List.mem_cons_self) (sn_base.trans base.symm)
    (show (RootSnapshot.cowHead none 1 8 .bounded32V1).sizeBytes = _ from size.symm) target.symm
  exact ⟨w, sn, a, b, hw, one, ok₁, ok₂, debts.2 (.inl (target.trans last.symm))⟩

end NbdServer
