import NbdServer.Core.Record
import NbdServer.View.ExtentMap
import NbdServer.View.Gaps

/-!
# The WAL overlay

Model of `overlay.rs`: the extents of the applied records that the committed root does not hold yet.
An extent is a part of one record. That it is the right part (its offset into the record is its
distance from the start of the record, and it ends inside the record) is the invariant of
`OverlayExtentMap`, kept by every operation.

`OverlayExtentMap.writer` says what the overlay is for: the record that an offset reads from.
-/

namespace NbdServer

open Lib

/-- Rust `OverlayExtent`. -/
structure OverlayExtent where
  seq : Nat
  record : WalRecord
  recordOffset : Nat
  deriving DecidableEq

/-- Rust `OverlayExtent::split_at`. -/
def OverlayExtent.splitAt (e : OverlayExtent) (delta : Nat) : OverlayExtent :=
  { e with recordOffset := e.recordOffset + delta }

/-- The value on `[start, stop)` is the part of its record with these bounds. -/
def OverlayExtent.Part (start stop : Nat) (e : OverlayExtent) : Prop :=
  e.seq = e.record.seq ∧ e.record.range.start + e.recordOffset = start ∧
    stop ≤ e.record.range.start + e.record.range.len

/-- Rust `OverlayExtentMap`. -/
structure OverlayExtentMap where
  extents : ExtentMap OverlayExtent
  part : ∀ e ∈ extents.entries, e.value.Part e.start e.stop

/-- Rust `OverlayReadSlice`. -/
structure OverlayReadSlice where
  start : Nat
  stop : Nat
  record : WalRecord
  recordOffset : Nat
  deriving DecidableEq

/-- Rust `RetiredOverlayExtent`. -/
structure RetiredOverlayExtent where
  start : Nat
  stop : Nat
  seq : Nat
  record : WalRecord
  recordOffset : Nat
  deriving DecidableEq

namespace OverlayExtentMap

lemma splitAt_add (e : OverlayExtent) (a b : Nat) :
    (e.splitAt a).splitAt b = e.splitAt (a + b) := by
  unfold OverlayExtent.splitAt
  simp only [Nat.add_assoc]

lemma part_tail {start stop : Nat} (x y : ExtentEntry OverlayExtent)
    (h : x.value.Part x.start x.stop) (meets : x.Meets start stop)
    (tail : ExtentMap.Tail start stop OverlayExtent.splitAt x y) :
    y.value.Part y.start y.stop := by
  obtain ⟨h₁, h₂, h₃⟩ := h
  obtain ⟨m₁, m₂⟩ := meets
  rcases tail with ⟨lt, hs, ht, hv⟩ | ⟨lt, hs, ht, hv⟩
  · rw [hv, hs, ht]
    refine ⟨h₁, h₂, ?_⟩
    show start ≤ x.value.record.range.start + x.value.record.range.len
    omega
  · rw [hv, hs, ht]
    refine ⟨h₁, ?_, h₃⟩
    show x.value.record.range.start + (x.value.recordOffset + (stop - x.start)) = stop
    omega

/-- Rust `OverlayExtentMap::new`. -/
def new : OverlayExtentMap := ⟨IntervalMap.empty, by simp [IntervalMap.empty]⟩

lemma part_insert {m : OverlayExtentMap} {record : WalRecord} {r}
    (h : m.extents.insertOverwriteWithSplit record.range.start record.range.stop
      ⟨record.seq, record, 0⟩ OverlayExtent.splitAt = .ok r) :
    ∀ e ∈ r.1.entries, e.value.Part e.start e.stop := by
  have lt : record.range.start < record.range.stop := by
    by_contra ge
    unfold ExtentMap.insertOverwriteWithSplit validateExtent at h
    rw [if_pos (by omega)] at h
    cases h
  obtain ⟨m₁, m', run, cut, mem⟩ := m.extents.insertOverwriteWithSplit_spec
    ⟨record.seq, record, 0⟩ OverlayExtent.splitAt lt
  rw [run] at h
  cases h
  intro e he
  rcases (mem e).1 he with rfl | he
  · refine ⟨rfl, Nat.add_zero _, ?_⟩
    show record.range.stop ≤ record.range.start + record.range.len
    unfold ByteRange.stop
    omega
  · exact cut.forall m.part part_tail e he

/-- Rust `OverlayExtentMap::insert_record`. -/
def insertRecord (m : OverlayExtentMap) (record : WalRecord) : Res OverlayExtentMap :=
  match h : m.extents.insertOverwriteWithSplit record.range.start record.range.stop
      ⟨record.seq, record, 0⟩ OverlayExtent.splitAt with
  | .error fault => .error fault
  | .ok (extents, _) => .ok ⟨extents, part_insert h⟩

/-- Rust `OverlayExtentMap::is_empty`. -/
def isEmpty (m : OverlayExtentMap) : Bool := m.extents.entries.isEmpty

/-- The slice of an extent that `read_slices` returns for a read of `[readStart, readEnd)`. -/
def readSlice (readStart readEnd : Nat) (extent : ExtentEntry OverlayExtent) :
    Res OverlayReadSlice := do
  let recordOffset ← okOr
    (checkedAdd extent.value.recordOffset (max readStart extent.start - extent.start))
    (.wal "read overlay extent" "record offset overflowed")
  .ok ⟨max readStart extent.start, min readEnd extent.stop, extent.value.record, recordOffset⟩

/-- Rust `OverlayExtentMap::read_slices`. -/
def readSlices (m : OverlayExtentMap) (range : ByteRange) : Res (List OverlayReadSlice) := do
  let extents ← m.extents.overlapping range.start range.stop
  extents.mapM (readSlice range.start range.stop)

/-- Rust `OverlayExtentMap::all_slices`. -/
def allSlices (m : OverlayExtentMap) : List OverlayReadSlice :=
  m.extents.entries.map fun e => ⟨e.start, e.stop, e.value.record, e.value.recordOffset⟩

def retire (e : ExtentEntry OverlayExtent) : RetiredOverlayExtent :=
  ⟨e.start, e.stop, e.value.seq, e.value.record, e.value.recordOffset⟩

/-- The order of `visible_through`: by sequence, then by start. -/
def retiredLe (a b : RetiredOverlayExtent) : Prop :=
  a.seq < b.seq ∨ (a.seq = b.seq ∧ a.start ≤ b.start)

instance : DecidableRel retiredLe := fun _ _ => inferInstanceAs (Decidable (_ ∨ _))

/-- Rust `OverlayExtentMap::visible_through`. -/
def visibleThrough (m : OverlayExtentMap) (seq : Nat) : List RetiredOverlayExtent :=
  ((m.extents.entries.filter (·.value.seq ≤ seq)).map retire).insertionSort retiredLe

lemma part_remove {m : OverlayExtentMap} {start stop : Nat} {r}
    (h : m.extents.removeRangeWithSplit start stop OverlayExtent.splitAt = .ok r) :
    ∀ e ∈ r.1.entries, e.value.Part e.start e.stop := by
  rcases lt_trichotomy start stop with lt | rfl | gt
  · obtain ⟨m', run, cut⟩ := m.extents.removeRangeWithSplit_spec OverlayExtent.splitAt lt
    rw [run] at h
    cases h
    exact cut.forall m.part part_tail
  · unfold ExtentMap.removeRangeWithSplit at h
    rw [if_pos rfl] at h
    cases h
    exact m.part
  · unfold ExtentMap.removeRangeWithSplit validateExtent at h
    rw [if_neg gt.ne', if_pos gt.le] at h
    cases h

/-- Take a range out of the overlay (the loop body of `remove_retired`). -/
def removeRange (m : OverlayExtentMap) (start stop : Nat) : Res OverlayExtentMap :=
  match h : m.extents.removeRangeWithSplit start stop OverlayExtent.splitAt with
  | .error fault => .error fault
  | .ok (extents, _) => .ok ⟨extents, part_remove h⟩

/-- Rust `OverlayExtentMap::remove_retired`. -/
def removeRetired (m : OverlayExtentMap) : List RetiredOverlayExtent → Res OverlayExtentMap
  | [] => .ok m
  | extent :: retired => do
    let m ← m.removeRange extent.start extent.stop
    m.removeRetired retired

/-! ## The record an offset reads from -/

/-- The record whose byte the overlay holds at `x`. -/
def writer (m : OverlayExtentMap) (x : Nat) : Option WalRecord :=
  (m.extents.find x).map (·.value.record)

lemma writer_eq_valueAt (m : OverlayExtentMap) (x : Nat) :
    m.writer x = (m.extents.valueAt OverlayExtent.splitAt x).map (·.record) := by
  rw [writer, IntervalMap.valueAt, Option.map_map]
  rfl

lemma writer_eq_some {m : OverlayExtentMap} {x : Nat} {r} :
    m.writer x = some r ↔ ∃ e ∈ m.extents.entries, e.Has x ∧ e.value.record = r := by
  simp only [writer, Option.map_eq_some_iff, IntervalMap.find_eq_some, and_assoc]

lemma writer_has {m : OverlayExtentMap} {x : Nat} {r} (h : m.writer x = some r) :
    r.range.Has x := by
  obtain ⟨e, he, ⟨h₁, h₂⟩, rfl⟩ := writer_eq_some.1 h
  obtain ⟨-, h₃, h₄⟩ := m.part e he
  exact ⟨by omega, by omega⟩

lemma new_writer (x : Nat) : new.writer x = none := rfl

lemma insertRecord_spec (m : OverlayExtentMap) (record : WalRecord)
    (fits : record.range.start + record.range.len < U64) :
    ∃ m', m.insertRecord record = .ok m' ∧
      ∀ x, m'.writer x = if record.range.Has x then some record else m.writer x := by
  have hs := ByteRange.stop_of_lt fits
  have pos := record.len_pos
  have lt : record.range.start < record.range.stop := by omega
  obtain ⟨m₁, m', run, cut, mem⟩ := m.extents.insertOverwriteWithSplit_spec
    ⟨record.seq, record, 0⟩ OverlayExtent.splitAt lt
  refine ⟨⟨m', part_insert run⟩, ?_, ?_⟩
  · unfold insertRecord
    split
    · rename_i h
      rw [run] at h
      cases h
    · rename_i h
      rw [run] at h
      cases h
      rfl
  · intro x
    rw [writer_eq_valueAt, IntervalMap.valueAt_of_mem_iff mem, cut.valueAt splitAt_add,
      writer_eq_valueAt]
    by_cases has : record.range.Has x
    · obtain ⟨h₁, h₂⟩ := has
      have inside : Entry.Has (⟨_, _, ⟨record.seq, record, 0⟩, lt⟩ : ExtentEntry OverlayExtent) x :=
        ⟨h₁, by show x < record.range.stop; omega⟩
      rw [if_pos inside, if_pos (show record.range.Has x from ⟨h₁, h₂⟩)]
      rfl
    · have outside : ¬ (record.range.start ≤ x ∧ x < record.range.stop) := by
        rintro ⟨h₁, h₂⟩
        exact has ⟨h₁, by omega⟩
      rw [if_neg outside, if_neg has, if_neg]
      exact outside

lemma removeRange_spec (m : OverlayExtentMap) {start stop : Nat} (lt : start < stop) :
    ∃ m', m.removeRange start stop = .ok m' ∧
      ∀ x, m'.writer x = if start ≤ x ∧ x < stop then none else m.writer x := by
  obtain ⟨m', run, cut⟩ := m.extents.removeRangeWithSplit_spec OverlayExtent.splitAt lt
  refine ⟨⟨m', part_remove run⟩, ?_, ?_⟩
  · unfold removeRange
    split
    · rename_i h
      rw [run] at h
      cases h
    · rename_i h
      rw [run] at h
      cases h
      rfl
  · intro x
    rw [writer_eq_valueAt, cut.valueAt splitAt_add, writer_eq_valueAt]
    by_cases has : start ≤ x ∧ x < stop
    · rw [if_pos has, if_pos has]
      rfl
    · rw [if_neg has, if_neg has]

lemma removeRetired_spec (m : OverlayExtentMap) (retired : List RetiredOverlayExtent)
    (lt : ∀ e ∈ retired, e.start < e.stop) :
    ∃ m', m.removeRetired retired = .ok m' ∧
      (∀ x, (∃ e ∈ retired, e.start ≤ x ∧ x < e.stop) → m'.writer x = none) ∧
      ∀ x, (¬ ∃ e ∈ retired, e.start ≤ x ∧ x < e.stop) → m'.writer x = m.writer x := by
  induction retired generalizing m with
  | nil => exact ⟨m, rfl, by simp, by simp⟩
  | cons e retired ih =>
    obtain ⟨m₁, run₁, w₁⟩ := m.removeRange_spec (lt e List.mem_cons_self)
    obtain ⟨m', run, gone, kept⟩ := ih m₁ fun e' he' => lt e' (List.mem_cons_of_mem _ he')
    refine ⟨m', ?_, ?_, ?_⟩
    · rw [removeRetired, run₁, Res.ok_bind, run]
    · intro x hx
      by_cases later : ∃ e' ∈ retired, e'.start ≤ x ∧ x < e'.stop
      · exact gone x later
      · rw [kept x later, w₁, if_pos]
        rcases List.exists_mem_cons_iff .. |>.1 hx with h | h
        · exact h
        · exact absurd h later
    · intro x hx
      rw [List.exists_mem_cons_iff, not_or] at hx
      rw [kept x hx.2, w₁, if_neg hx.1]

lemma mem_visibleThrough {m : OverlayExtentMap} {seq : Nat} {r} :
    r ∈ m.visibleThrough seq ↔ ∃ e ∈ m.extents.entries, e.value.seq ≤ seq ∧ retire e = r := by
  rw [visibleThrough, (List.perm_insertionSort _ _).mem_iff, List.mem_map]
  simp only [List.mem_filter, decide_eq_true_eq, and_assoc]

instance : Std.Total retiredLe where
  total a b := by
    unfold retiredLe
    omega

instance : IsTrans RetiredOverlayExtent retiredLe where
  trans a b c := by
    unfold retiredLe
    omega

lemma visibleThrough_sorted (m : OverlayExtentMap) (seq : Nat) :
    (m.visibleThrough seq).Pairwise retiredLe := List.pairwise_insertionSort _ _

lemma visibleThrough_nodup (m : OverlayExtentMap) (seq : Nat) : (m.visibleThrough seq).Nodup := by
  rw [visibleThrough, (List.perm_insertionSort _ _).nodup_iff]
  refine List.pairwise_map.2 ((m.extents.ascending.filter _).imp ?_)
  intro a b lt eq
  have := congrArg RetiredOverlayExtent.start eq
  exact absurd this lt.ne

/-- What is known of a retired extent: it is a part of its record, which is the writer of its
bytes. -/
structure RetiredPart (m : OverlayExtentMap) (e : RetiredOverlayExtent) : Prop where
  lt : e.start < e.stop
  seq_eq : e.seq = e.record.seq
  offset : e.record.range.start + e.recordOffset = e.start
  fits : e.stop ≤ e.record.range.start + e.record.range.len
  writer : ∀ x, e.start ≤ x → x < e.stop → m.writer x = some e.record

lemma retiredPart {m : OverlayExtentMap} {seq : Nat} {e} (mem : e ∈ m.visibleThrough seq) :
    m.RetiredPart e ∧ e.seq ≤ seq := by
  obtain ⟨ext, he, le, rfl⟩ := mem_visibleThrough.1 mem
  obtain ⟨p₁, p₂, p₃⟩ := m.part ext he
  refine ⟨⟨ext.lt, p₁, p₂, p₃, ?_⟩, le⟩
  intro x h₁ h₂
  exact writer_eq_some.2 ⟨ext, he, ⟨h₁, h₂⟩, rfl⟩

lemma removeRetired_visibleThrough (m : OverlayExtentMap) (seq : Nat) :
    ∃ m', m.removeRetired (m.visibleThrough seq) = .ok m' ∧
      ∀ x, m'.writer x = (m.writer x).filter (seq < ·.seq) := by
  obtain ⟨m', run, gone, kept⟩ := m.removeRetired_spec (m.visibleThrough seq) (by
    intro r hr
    obtain ⟨e, -, -, rfl⟩ := mem_visibleThrough.1 hr
    exact e.lt)
  refine ⟨m', run, ?_⟩
  intro x
  cases hw : m.writer x with
  | none =>
    rw [Option.filter_none]
    by_cases h : ∃ e ∈ m.visibleThrough seq, e.start ≤ x ∧ x < e.stop
    · exact gone x h
    · rw [kept x h, hw]
  | some r =>
    obtain ⟨e, he, has, hr⟩ := writer_eq_some.1 hw
    have hseq : e.value.seq = r.seq := by rw [(m.part e he).1, hr]
    by_cases lt : seq < r.seq
    · rw [Option.filter_some, if_pos (by simpa using lt), kept x, hw]
      rintro ⟨r', hr', h₁, h₂⟩
      obtain ⟨e', he', hs', rfl⟩ := mem_visibleThrough.1 hr'
      have : e' = e := m.extents.eq_of_has he' he ⟨h₁, h₂⟩ has
      rw [this] at hs'
      omega
    · rw [Option.filter_some, if_neg (by simpa using lt)]
      refine gone x ⟨retire e, mem_visibleThrough.2 ⟨e, he, by omega, rfl⟩, has.1, has.2⟩

/-! ## Slices -/

/-- What `read_slices` says of a slice: it lies in the read and its bytes are those its record
writes there. -/
structure Slice (m : OverlayExtentMap) (range : ByteRange) (s : OverlayReadSlice) : Prop where
  lower : range.start ≤ s.start
  lt : s.start < s.stop
  upper : s.stop ≤ range.stop
  offset : s.record.range.start + s.recordOffset = s.start
  fits : s.stop ≤ s.record.range.start + s.record.range.len
  writer : ∀ x, s.start ≤ x → x < s.stop → m.writer x = some s.record

lemma readSlice_spec {m : OverlayExtentMap} {range : ByteRange} {e} (he : e ∈ m.extents.entries)
    (meets : e.Meets range.start range.stop) (nonempty : range.start < range.stop) :
    ∃ s, readSlice range.start range.stop e = .ok s ∧ m.Slice range s ∧
      s.start = max range.start e.start ∧ s.stop = min range.stop e.stop := by
  obtain ⟨-, h₂, h₃⟩ := m.part e he
  obtain ⟨m₁, m₂⟩ := meets
  have lt := e.lt
  have small := e.value.record.range.len_lt
  have := U32_lt_U64
  unfold readSlice
  rw [checkedAdd_of_lt (by omega), okOr_some, Res.ok_bind]
  refine ⟨_, rfl, ⟨by simp, ?_, by simp, ?_, ?_, ?_⟩, rfl, rfl⟩
  · show max range.start e.start < min range.stop e.stop
    omega
  · show e.value.record.range.start + (e.value.recordOffset + _) = max range.start e.start
    omega
  · show min range.stop e.stop ≤ e.value.record.range.start + e.value.record.range.len
    omega
  · intro x h₄ h₅
    refine writer_eq_some.2 ⟨e, he, ⟨?_, ?_⟩, rfl⟩
    · have : max range.start e.start ≤ x := h₄
      omega
    · have : x < min range.stop e.stop := h₅
      omega

/-- `read_slices` succeeds on every range. Its slices are those of the overlay and leave no byte of
the read out that the overlay holds. -/
lemma readSlices_spec (m : OverlayExtentMap) (range : ByteRange) :
    ∃ slices, m.readSlices range = .ok slices ∧ (∀ s ∈ slices, m.Slice range s) ∧
      ∀ x r, range.start ≤ x → x < range.stop → m.writer x = some r →
        ∃ s ∈ slices, s.start ≤ x ∧ x < s.stop := by
  unfold readSlices
  by_cases nonempty : range.start < range.stop
  · rw [ExtentMap.overlapping_eq nonempty, Res.ok_bind]
    obtain ⟨slices, run, all⟩ := Res.mapM_forall₂
      (l := m.extents.entries.filter (·.Meets range.start range.stop))
      (f := readSlice range.start range.stop) (p := fun e s => m.Slice range s ∧
        s.start = max range.start e.start ∧ s.stop = min range.stop e.stop) (by
        intro e he
        obtain ⟨he, meets⟩ := List.mem_filter.1 he
        exact readSlice_spec he (by simpa using meets) nonempty)
    refine ⟨slices, run, ?_, ?_⟩
    · intro s hs
      obtain ⟨e, -, h, -⟩ := forall₂_right all s hs
      exact h
    · intro x r h₁ h₂ hw
      obtain ⟨e, he, has, -⟩ := writer_eq_some.1 hw
      have mem : e ∈ m.extents.entries.filter (·.Meets range.start range.stop) :=
        List.mem_filter.2 ⟨he, by simpa using Entry.meets_of_has has h₁ h₂⟩
      obtain ⟨s, hs, -, e₁, e₂⟩ := forall₂_left all e mem
      obtain ⟨h₃, h₄⟩ := has
      exact ⟨s, hs, by omega, by omega⟩
  · have empty : range.start = range.stop := by
      have := range.start_lt
      unfold ByteRange.stop at nonempty ⊢
      omega
    unfold ExtentMap.overlapping
    rw [if_pos empty, Res.ok_bind]
    refine ⟨[], rfl, by simp, ?_⟩
    intro x r h₁ h₂
    omega

end OverlayExtentMap

end NbdServer
