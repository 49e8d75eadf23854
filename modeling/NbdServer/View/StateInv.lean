import NbdServer.View.CacheInsert
import NbdServer.Core.History
import NbdServer.View.State

/-!
# What a read view represents

A read view represents a history of applied records, split in two: the records that its root holds
and the records of its overlay. Each operation of `read_view.rs` is shown to succeed where the
engine relies on it and to keep the view a representation: applying a record appends to the history,
advancing the root moves the split, and reads, fills and evictions change nothing.

`committed` is the content of the tree behind each root, which never changes.
-/

namespace NbdServer

open Lib

/-- The state `s` represents the records `done` (held by its root) and `pending` (held by its
overlay) applied over the content `base`; `first` is the sequence before the first of them. -/
structure Represents (committed : RootSnapshot → Nat → UInt8) (base : Nat → UInt8)
    (first size : Nat) (done pending : List WalRecord) (s : ReadViewState) : Prop where
  size_eq : s.root.sizeBytes = size
  base_eq : s.root.baseWalSeq = first + done.length
  last_eq : s.lastAppliedSeq = first + done.length + pending.length
  seqs : Consecutive first (done ++ pending)
  bounds : ∀ r ∈ done ++ pending, r.range.start + r.range.len ≤ size
  root : ∀ x < size, committed s.root x = contentAfter base done x
  overlay : ∀ x, s.overlay.writer x = writerIn pending x
  cache : s.cache.Inv
  cached : ∀ x b, s.cache.byteAt x = some b →
    x < size ∧ writerIn pending x = none ∧ contentAfter base done x = b

lemma OverlayExtentMap.RetiredPart.range {overlay : OverlayExtentMap} {e : RetiredOverlayExtent}
    (part : overlay.RetiredPart e) (fits : e.stop + CACHE_BLOCK_BYTES < U64) :
    ∃ range, byteRangeFromBounds e.start e.stop = .ok range ∧ range.start = e.start ∧
      range.len = e.stop - e.start ∧ e.recordOffset + range.len ≤ e.record.data.length := by
  obtain ⟨lt, -, offset, inside, -⟩ := part
  have len := e.record.range.len_lt
  obtain ⟨range, run, start_eq, len_eq⟩ := byteRangeFromBounds_eq e.start e.stop (by omega)
    (by omega) (by omega)
  refine ⟨range, run, start_eq, len_eq, ?_⟩
  rw [e.record.data_len]
  omega

lemma ReadViewState.checkRecord_eq_ok {s : ReadViewState}
    (le : s.root.baseWalSeq ≤ s.lastAppliedSeq) (hs : s.root.sizeBytes < U64) {record : WalRecord}
    {seq : Nat} :
    s.checkRecord record = .ok seq ↔
      record.range.start + record.range.len ≤ s.root.sizeBytes ∧ record.seq = s.lastAppliedSeq + 1 ∧
        seq = record.seq := by
  have lt := record.seq_lt
  unfold ReadViewState.checkRecord
  by_cases inside : record.range.start + record.range.len ≤ s.root.sizeBytes
  · rw [(validateRange_eq_ok hs).2 inside, Res.ok_bind]
    by_cases next : record.seq = s.lastAppliedSeq + 1
    · rw [if_neg (by omega), checkedAdd_of_lt (by omega), okOr_some, Res.ok_bind,
        if_neg (not_not.2 next)]
      constructor
      · intro e
        cases e
        exact ⟨inside, next, next.symm⟩
      · rintro ⟨-, -, rfl⟩
        rw [next]
    · constructor
      · intro e
        split at e
        · cases e
        · cases hc : checkedAdd s.lastAppliedSeq 1 with
          | none =>
            rw [hc] at e
            cases e
          | some v =>
            obtain ⟨-, rfl⟩ := checkedAdd_eq_some.1 hc
            rw [hc, okOr_some, Res.ok_bind, if_pos next] at e
            cases e
      · rintro ⟨-, eq, -⟩
        exact absurd eq next
  · constructor
    · intro e
      obtain ⟨_, e, -⟩ := Res.bind_eq_ok.1 e
      exact absurd ((validateRange_eq_ok hs).1 e) inside
    · rintro ⟨le, -⟩
      exact absurd le inside

/-- The loop over the retired extents succeeds. What is cached afterwards was cached before or is a
byte of a retired extent. -/
lemma ReadViewState.cacheRetired_spec (overlay : OverlayExtentMap) (seq : Nat)
    (retired : List RetiredOverlayExtent) {cache : ReadCache} (inv : cache.Inv)
    (sub : ∀ e ∈ retired, e ∈ overlay.visibleThrough seq)
    (fits : ∀ e ∈ retired, e.stop + CACHE_BLOCK_BYTES < U64) :
    ∃ cache', ReadViewState.cacheRetired cache retired = .ok cache' ∧ cache'.Inv ∧
      ∀ x b, cache'.byteAt x = some b → cache.byteAt x = some b ∨
        ∃ r, overlay.writer x = some r ∧ r.seq ≤ seq ∧ r.byteAt x = some b := by
  induction retired generalizing cache with
  | nil => exact ⟨cache, rfl, inv, fun x b hb => .inl hb⟩
  | cons e retired ih =>
    obtain ⟨part, le⟩ := OverlayExtentMap.retiredPart (sub e List.mem_cons_self)
    obtain ⟨range, run₁, hr₁, hr₂, inside⟩ := part.range (fits e List.mem_cons_self)
    have small := fits e List.mem_cons_self
    have lt := part.lt
    obtain ⟨cache₁, run₂, inv₁, -, bytes₁⟩ := inv.insertWalRecordSlice range e.record
      e.recordOffset .cold inside (by omega)
    obtain ⟨cache', run', inv', bytes'⟩ :=
      ih inv₁ (fun e' he' => sub e' (List.mem_cons_of_mem _ he'))
      fun e' he' => fits e' (List.mem_cons_of_mem _ he')
    refine ⟨cache', ?_, inv', ?_⟩
    · rw [ReadViewState.cacheRetired, run₁, Res.ok_bind, run₂, Res.ok_bind, run']
    · intro x b hb
      rcases bytes' x b hb with hb | later
      · have := bytes₁ x b hb
        split at this
        · rename_i has
          obtain ⟨h₁, h₂⟩ := has
          have offset := part.offset
          refine .inr ⟨e.record, part.writer x (by omega) (by omega), part.seq_eq ▸ le, ?_⟩
          have off : e.recordOffset + (x - range.start) = x - e.record.range.start := by omega
          rw [off] at this
          exact this
        · exact .inl this
      · exact .inr later

/-- Installing a root succeeds when the retired extents end early enough. It moves their bytes to
the cache and out of the overlay. -/
lemma ReadViewState.installRoot_spec {s : ReadViewState} {newRoot : RootSnapshot}
    (inv : s.cache.Inv)
    (fits : ∀ e ∈ s.overlay.visibleThrough newRoot.baseWalSeq, e.stop + CACHE_BLOCK_BYTES < U64) :
    ∃ cache overlay,
      s.installRoot newRoot = .ok { s with cache := cache, overlay := overlay, root := newRoot } ∧
      cache.Inv ∧
      (∀ x, overlay.writer x = (s.overlay.writer x).filter (newRoot.baseWalSeq < ·.seq)) ∧
      ∀ x b, cache.byteAt x = some b → s.cache.byteAt x = some b ∨
        ∃ r, s.overlay.writer x = some r ∧ r.seq ≤ newRoot.baseWalSeq ∧ r.byteAt x = some b := by
  obtain ⟨overlay, run₁, writer⟩ := s.overlay.removeRetired_visibleThrough newRoot.baseWalSeq
  obtain ⟨cache, run₂, inv', bytes⟩ := cacheRetired_spec s.overlay newRoot.baseWalSeq
    (s.overlay.visibleThrough newRoot.baseWalSeq) inv (fun e he => he) fits
  refine ⟨cache, overlay, ?_, inv', writer, bytes⟩
  unfold ReadViewState.installRoot
  simp only [run₂, Res.ok_bind, run₁]

namespace Represents

variable {committed : RootSnapshot → Nat → UInt8} {base : Nat → UInt8} {first size : Nat}
variable {done pending : List WalRecord} {s : ReadViewState}

lemma new {root : RootSnapshot} {budget : Nat} :
    Represents committed (committed root) root.baseWalSeq root.sizeBytes [] []
      (ReadViewState.new root budget) where
  size_eq := rfl
  base_eq := rfl
  last_eq := rfl
  seqs := .nil
  bounds := by simp
  root _ _ := rfl
  overlay _ := rfl
  cache := ReadCache.new_inv budget
  cached x b h := by
    rw [ReadViewState.new, ReadCache.new_byteAt] at h
    cases h

lemma withCache (h : Represents committed base first size done pending s) {cache : ReadCache}
    (inv : cache.Inv) (sub : ∀ x b, cache.byteAt x = some b → s.cache.byteAt x = some b) :
    Represents committed base first size done pending { s with cache := cache } :=
  ⟨h.size_eq, h.base_eq, h.last_eq, h.seqs, h.bounds, h.root, h.overlay, inv,
    fun x b hb => h.cached x b (sub x b hb)⟩

/-! ## Applying a record -/

lemma checkRecord_eq_ok (h : Represents committed base first size done pending s) (hs : size < U64)
    {record : WalRecord} {seq : Nat} :
    s.checkRecord record = .ok seq ↔
      record.range.start + record.range.len ≤ size ∧ record.seq = s.lastAppliedSeq + 1 ∧
        seq = record.seq := by
  have hb := h.base_eq
  have hl := h.last_eq
  have hz := h.size_eq
  rw [ReadViewState.checkRecord_eq_ok (by omega) (by omega), hz]

lemma installRecord (h : Represents committed base first size done pending s) (hs : size < U64)
    {record : WalRecord} (inside : record.range.start + record.range.len ≤ size)
    (next : record.seq = s.lastAppliedSeq + 1) :
    ∃ s', s.installRecord record = .ok s' ∧
      Represents committed base first size done (pending ++ [record]) s' ∧
      s'.root = s.root ∧ s'.walDebtBytes = s.walDebtBytes := by
  obtain ⟨overlay, run₁, writer⟩ := s.overlay.insertRecord_spec record (by omega)
  obtain ⟨cache, run₂, inv, -, -, bytes⟩ := h.cache.trimRange record.range (by omega)
  have hl := h.last_eq
  refine ⟨{ s with overlay := overlay, cache := cache, lastAppliedSeq := record.seq }, ?_, ?_, rfl,
    rfl⟩
  · unfold ReadViewState.installRecord
    rw [(h.checkRecord_eq_ok hs).2 ⟨inside, next, rfl⟩, Res.ok_bind, run₁, Res.ok_bind, run₂,
      Res.ok_bind]
  · refine ⟨h.size_eq, h.base_eq, ?_, ?_, ?_, h.root, ?_, inv, ?_⟩
    · show record.seq = _
      rw [List.length_append, List.length_singleton]
      omega
    · rw [← List.append_assoc]
      refine h.seqs.concat ?_
      rw [List.length_append]
      omega
    · intro r hr
      rw [← List.append_assoc] at hr
      rcases List.mem_append.1 hr with hr | hr
      · exact h.bounds r hr
      · cases List.mem_singleton.1 hr
        exact inside
    · intro x
      show overlay.writer x = _
      rw [writer, writerIn, lastWriter_concat, h.overlay]
      by_cases has : record.range.Has x
      · rw [if_pos has, if_pos (WalRecord.covers_iff.2 has)]
      · rw [if_neg has, if_neg (fun c => has (WalRecord.covers_iff.1 c))]
    · intro x b hb
      have hb : cache.byteAt x = some b := hb
      rw [bytes] at hb
      split at hb
      · cases hb
      · rename_i has
        obtain ⟨h₁, h₂, h₃⟩ := h.cached x b hb
        refine ⟨h₁, ?_, h₃⟩
        rw [writerIn, lastWriter_concat, if_neg (fun c => has (WalRecord.covers_iff.1 c))]
        exact h₂

lemma applyWalRecord (h : Represents committed base first size done pending s) (hs : size < U64)
    (record : WalRecord) :
    Represents committed base first size done
        (if (s.applyWalRecord record).1.lastAppliedSeq = s.lastAppliedSeq then pending
          else pending ++ [record]) (s.applyWalRecord record).1 ∧
      (s.applyWalRecord record).1.root = s.root ∧
      ((s.applyWalRecord record).1.lastAppliedSeq = s.lastAppliedSeq →
        (s.applyWalRecord record).1 = s) ∧
      ((s.applyWalRecord record).1.lastAppliedSeq ≠ s.lastAppliedSeq →
        s.walDebtBytes + record.data.length < U64 →
        (s.applyWalRecord record).1.walDebtBytes = s.walDebtBytes + record.data.length) := by
  unfold ReadViewState.applyWalRecord
  by_cases ok : record.range.start + record.range.len ≤ size ∧ record.seq = s.lastAppliedSeq + 1
  · obtain ⟨s', run, h', e₁, e₂⟩ := h.installRecord hs ok.1 ok.2
    have hl := h.last_eq
    have hl' := h'.last_eq
    rw [List.length_append, List.length_singleton] at hl'
    have moved : ¬ s'.lastAppliedSeq = s.lastAppliedSeq := by omega
    simp only [run]
    cases hc : checkedAdd s'.walDebtBytes record.data.length with
    | some debt =>
      simp only [if_neg moved]
      refine ⟨⟨h'.size_eq, h'.base_eq, h'.last_eq, h'.seqs, h'.bounds, h'.root, h'.overlay,
        h'.cache, h'.cached⟩, e₁, fun same => absurd same moved, ?_⟩
      intro _ _
      rw [(checkedAdd_eq_some.1 hc).2, e₂]
    | none =>
      simp only [if_neg moved]
      refine ⟨h', e₁, fun same => absurd same moved, ?_⟩
      intro _ small
      rw [e₂, checkedAdd_of_lt small] at hc
      cases hc
  · have fails : ∃ fault, s.installRecord record = .error fault := by
      cases hc : s.checkRecord record with
      | ok seq =>
        obtain ⟨h₁, h₂, -⟩ := (h.checkRecord_eq_ok hs).1 hc
        exact absurd ⟨h₁, h₂⟩ ok
      | error fault =>
        refine ⟨fault, ?_⟩
        unfold ReadViewState.installRecord
        rw [hc]
        rfl
    obtain ⟨fault, run⟩ := fails
    simp only [run, if_true]
    exact ⟨h, trivial, fun _ => trivial, fun moved => absurd rfl moved⟩

/-! ## Advancing the root -/

lemma checkAdvance_eq_true {newRoot : RootSnapshot} {sn : CompactionSnapshot} :
    s.checkAdvance newRoot sn = .ok true ↔
      newRoot.sizeBytes = s.root.sizeBytes ∧ s.root.baseWalSeq < sn.targetWalSeq ∧
      s.root.baseWalSeq = sn.root.baseWalSeq ∧ newRoot.baseWalSeq = sn.targetWalSeq ∧
      newRoot.baseWalSeq ≤ s.lastAppliedSeq ∧ sn.walDebtBytes ≤ s.walDebtBytes := by
  unfold ReadViewState.checkAdvance
  split_ifs with c₁ c₂ c₃ c₄ c₅ c₆ c₇ <;> simp only [fail, reduceCtorEq, false_iff, true_iff,
    Except.ok.injEq, Bool.false_eq_true] <;> omega

lemma retired_fits (h : Represents committed base first size done pending s)
    (hs : size + CACHE_BLOCK_BYTES < U64) {seq : Nat} {e : RetiredOverlayExtent}
    (mem : e ∈ s.overlay.visibleThrough seq) : e.stop + CACHE_BLOCK_BYTES < U64 := by
  obtain ⟨part, -⟩ := OverlayExtentMap.retiredPart mem
  have hw := part.writer e.start le_rfl part.lt
  rw [h.overlay] at hw
  have inside := h.bounds _ (List.mem_append_right _ (mem_of_lastWriter hw).1)
  have fits := part.fits
  omega

/-- Installing a root that holds the first part of the pending records moves these to the done
ones. -/
lemma installRoot {pending' : List WalRecord} {newRoot : RootSnapshot}
    (h : Represents committed base first size done (pending ++ pending') s)
    (hs : size + CACHE_BLOCK_BYTES < U64) (size_eq : newRoot.sizeBytes = size)
    (base_eq : newRoot.baseWalSeq = first + done.length + pending.length)
    (content : ∀ x < size, committed newRoot x = contentAfter base (done ++ pending) x) :
    ∃ s', s.installRoot newRoot = .ok s' ∧
      Represents committed base first size (done ++ pending) pending' s' ∧
      s'.root = newRoot ∧ s'.lastAppliedSeq = s.lastAppliedSeq ∧
      s'.walDebtBytes = s.walDebtBytes := by
  have seqs : Consecutive (first + done.length) (pending ++ pending') := h.seqs.right
  -- a pending record is held by the new root exactly if it is one of `pending`
  have early : ∀ r ∈ pending, r.seq ≤ newRoot.baseWalSeq := by
    intro r hr
    have := seqs.left.bounds hr
    omega
  have late : ∀ r ∈ pending', newRoot.baseWalSeq < r.seq := by
    intro r hr
    have := seqs.right.bounds hr
    omega
  have split : ∀ x, writerIn (pending ++ pending') x =
      (writerIn pending' x).or (writerIn pending x) := fun x => lastWriter_append
  obtain ⟨cache, overlay, run, inv, writer, bytes⟩ :=
    ReadViewState.installRoot_spec h.cache fun e he => h.retired_fits hs he
  have overlay_eq : ∀ x, overlay.writer x = writerIn pending' x := by
    intro x
    rw [writer, h.overlay, split]
    cases hw : writerIn pending' x with
    | some r =>
      rw [Option.some_or, Option.filter_some, if_pos]
      simpa using late r (mem_of_lastWriter hw).1
    | none =>
      rw [Option.none_or]
      cases hw' : writerIn pending x with
      | none => rfl
      | some r =>
        rw [Option.filter_some, if_neg]
        simpa using early r (mem_of_lastWriter hw').1
  refine ⟨{ s with cache := cache, overlay := overlay, root := newRoot }, run, ?_, rfl, rfl, rfl⟩
  · refine ⟨size_eq, ?_, ?_, ?_, ?_, content, overlay_eq, inv, ?_⟩
    · rw [List.length_append]
      show newRoot.baseWalSeq = _
      omega
    · have := h.last_eq
      rw [List.length_append] at this ⊢
      show s.lastAppliedSeq = _
      omega
    · rw [List.append_assoc]
      exact h.seqs
    · rw [List.append_assoc]
      exact h.bounds
    · intro x b hb
      rw [contentAfter, flat_append]
      rcases bytes x b hb with old | ⟨r, hw, le, hr⟩
      · -- cached before: no pending record covers the byte
        obtain ⟨h₁, h₂, h₃⟩ := h.cached x b old
        rw [split, Option.or_eq_none_iff] at h₂
        exact ⟨h₁, h₂.1, (flat_of_none h₂.2).trans h₃⟩
      · -- retired: the byte of its last writer, which is one of `pending`
        rw [h.overlay, split] at hw
        have none : writerIn pending' x = none := by
          cases hw' : writerIn pending' x with
          | none => rfl
          | some r' =>
            rw [hw', Option.some_or] at hw
            cases hw
            have := late r (mem_of_lastWriter hw').1
            omega
        rw [none, Option.none_or] at hw
        have mem := (mem_of_lastWriter hw).1
        have has := WalRecord.covers_iff.1 (mem_of_lastWriter hw).2
        have inside := h.bounds r (List.mem_append_right _ (List.mem_append_left _ mem))
        refine ⟨?_, none, ?_⟩
        · have := has.2
          omega
        · rw [flat_of_some hw]
          rw [WalRecord.byteAt_eq has] at hr
          exact Option.some.inj hr

end Represents

end NbdServer
