import NbdServer.View.Overlay

/-!
# The last writer wins

Records are inserted in the overlay in the order of their sequences, each over what it overlaps. So
the overlay serves every byte from the record with the highest sequence that covers it (`Latest`),
also where a record has been cut into parts by later ones, and retiring a checkpoint takes out the
bytes whose latest writer the checkpoint covers.
-/

namespace NbdServer

/-- The record that wrote the byte `x` last. -/
structure Latest (records : List WalRecord) (x : Nat) (r : WalRecord) : Prop where
  mem : r ∈ records
  has : r.range.Has x
  last : ∀ r' ∈ records, r'.range.Has x → r'.seq ≤ r.seq

namespace OverlayExtentMap

/-- The overlay after the records are inserted one after the other. -/
def insertRecords (m : OverlayExtentMap) (records : List WalRecord) : Res OverlayExtentMap :=
  records.foldlM insertRecord m

/-- `read_slices` serves every byte that has a source from it: over each range the slices are
non-empty, ascending and disjoint, hold exactly the bytes of the range with a source, and give each
of them the byte of its source at the distance from the start of that record. -/
def Serves (m : OverlayExtentMap) (source : Nat → WalRecord → Prop) : Prop :=
  ∀ range, ∃ slices, m.readSlices range = .ok slices ∧
    (∀ s ∈ slices, s.start < s.stop) ∧ slices.Pairwise (fun a b => a.stop ≤ b.start) ∧
    (∀ x, (∃ s ∈ slices, s.start ≤ x ∧ x < s.stop) ↔ range.Has x ∧ ∃ r, source x r) ∧
    ∀ s ∈ slices, ∀ x, s.start ≤ x → x < s.stop →
      source x s.record ∧ s.recordOffset + (x - s.start) = x - s.record.range.start

lemma readSlices_ascending {m : OverlayExtentMap} {range : ByteRange} {slices}
    (run : m.readSlices range = .ok slices) : slices.Pairwise (fun a b => a.stop ≤ b.start) := by
  unfold readSlices at run
  by_cases nonempty : range.start < range.stop
  · rw [ExtentMap.overlapping_eq nonempty, Res.ok_bind] at run
    obtain ⟨slices', run', all⟩ := Res.mapM_forall₂
      (l := m.extents.entries.filter (·.Meets range.start range.stop))
      (f := readSlice range.start range.stop) (p := fun e s =>
        e.start ≤ s.start ∧ s.stop ≤ e.stop) (by
        intro e he
        obtain ⟨he, meets⟩ := List.mem_filter.1 he
        obtain ⟨s, run, -, h₁, h₂⟩ := readSlice_spec he (by simpa using meets) nonempty
        exact ⟨s, run, by omega, by omega⟩)
    cases run.symm.trans run'
    refine forall₂_pairwise all (m.extents.ordered.filter _) ?_
    intro e e' s s' apart h h'
    exact h.2.trans (apart.trans h'.1)
  · have empty : range.start = range.stop := by
      have := range.start_le_stop
      omega
    unfold ExtentMap.overlapping at run
    rw [if_pos empty, Res.ok_bind] at run
    cases run
    exact .nil

/-- An overlay serves every byte from its writer. Reads past the end of the address space find
nothing there. -/
lemma serves_writer {m : OverlayExtentMap} (low : ∀ x r, m.writer x = some r → x + 1 < U64) :
    m.Serves fun x r => m.writer x = some r := by
  intro range
  obtain ⟨slices, run, all, cover⟩ := m.readSlices_spec range
  refine ⟨slices, run, fun s hs => (all s hs).lt, readSlices_ascending run, ?_, ?_⟩
  · intro x
    constructor
    · rintro ⟨s, hs, h₁, h₂⟩
      obtain ⟨lower, -, upper, -, -, writer⟩ := all s hs
      have stop : range.stop ≤ range.start + range.len := Nat.min_le_left _ _
      exact ⟨⟨by omega, by omega⟩, s.record, writer x h₁ h₂⟩
    · rintro ⟨has, r, hr⟩
      have := low x r hr
      refine cover x r has.1 ?_ hr
      have := has.2
      unfold ByteRange.stop
      omega
  · intro s hs x h₁ h₂
    obtain ⟨-, -, -, offset, -, writer⟩ := all s hs
    exact ⟨writer x h₁ h₂, by omega⟩

lemma insertRecord_latest {m : OverlayExtentMap} {records : List WalRecord} {record : WalRecord}
    (fits : record.range.start + record.range.len < U64) (later : ∀ r ∈ records, r.seq < record.seq)
    (latest : ∀ x r, m.writer x = some r ↔ Latest records x r) :
    ∃ m', m.insertRecord record = .ok m' ∧
      ∀ x r, m'.writer x = some r ↔ Latest (records ++ [record]) x r := by
  obtain ⟨m', run, writer⟩ := m.insertRecord_spec record fits
  refine ⟨m', run, fun x r => ?_⟩
  rw [writer]
  by_cases has : record.range.Has x
  · rw [if_pos has, Option.some_inj]
    constructor
    · rintro rfl
      refine ⟨by simp, has, fun r' hr' _ => ?_⟩
      rcases List.mem_append.1 hr' with hr' | hr'
      · exact (later r' hr').le
      · rw [List.mem_singleton.1 hr']
    · rintro ⟨hr, -, last⟩
      rcases List.mem_append.1 hr with hr | hr
      · exact absurd (last record (by simp) has) (not_le.2 (later r hr))
      · exact (List.mem_singleton.1 hr).symm
  · rw [if_neg has, latest]
    constructor
    · rintro ⟨hr, hx, last⟩
      refine ⟨List.mem_append_left _ hr, hx, fun r' hr' hx' => ?_⟩
      rcases List.mem_append.1 hr' with hr' | hr'
      · exact last r' hr' hx'
      · cases List.mem_singleton.1 hr'
        exact absurd hx' has
    · rintro ⟨hr, hx, last⟩
      rcases List.mem_append.1 hr with hr | hr
      · exact ⟨hr, hx, fun r' hr' => last r' (List.mem_append_left _ hr')⟩
      · cases List.mem_singleton.1 hr
        exact absurd hx has

lemma insertRecords_latest {m : OverlayExtentMap} (before : List WalRecord)
    {records : List WalRecord} (increasing : (before ++ records).Pairwise fun a b => a.seq < b.seq)
    (fits : ∀ r ∈ records, r.range.start + r.range.len < U64)
    (latest : ∀ x r, m.writer x = some r ↔ Latest before x r) :
    ∃ m', m.insertRecords records = .ok m' ∧
      ∀ x r, m'.writer x = some r ↔ Latest (before ++ records) x r := by
  induction records generalizing m before with
  | nil => exact ⟨m, rfl, by simpa using latest⟩
  | cons record records ih =>
    rw [List.forall_mem_cons] at fits
    rw [List.append_cons] at increasing ⊢
    have later : ∀ r ∈ before, r.seq < record.seq := by
      intro r hr
      have head := (List.pairwise_append.1 increasing).1
      exact (List.pairwise_append.1 head).2.2 r hr record List.mem_cons_self
    obtain ⟨m₁, run₁, latest₁⟩ := insertRecord_latest fits.1 later latest
    obtain ⟨m', run, latest'⟩ := ih _ increasing fits.2 latest₁
    refine ⟨m', ?_, latest'⟩
    rw [insertRecords, List.foldlM_cons, run₁, Res.ok_bind]
    exact run

lemma visibleThrough_disjoint (m : OverlayExtentMap) (seq : Nat) :
    (m.visibleThrough seq).Pairwise fun a b => a.stop ≤ b.start ∨ b.stop ≤ a.start := by
  refine (m.visibleThrough_nodup seq).pairwise_of_forall_ne ?_
  intro a ha b hb ne
  obtain ⟨e, he, -, rfl⟩ := mem_visibleThrough.1 ha
  obtain ⟨e', he', -, rfl⟩ := mem_visibleThrough.1 hb
  by_contra meet
  rw [not_or, not_le, not_le] at meet
  have h₁ : e'.start < e.stop := meet.1
  have h₂ : e.start < e'.stop := meet.2
  have lt := e.lt
  have lt' := e'.lt
  have same : e = e' := m.extents.eq_of_has (x := max e.start e'.start) he he'
    ⟨by omega, by omega⟩ ⟨by omega, by omega⟩
  exact ne (congrArg retire same)

lemma visibleThrough_has {m : OverlayExtentMap} {seq x : Nat} :
    (∃ e ∈ m.visibleThrough seq, e.start ≤ x ∧ x < e.stop) ↔
      ∃ r, m.writer x = some r ∧ r.seq ≤ seq := by
  constructor
  · rintro ⟨e, he, h₁, h₂⟩
    obtain ⟨part, le⟩ := retiredPart he
    exact ⟨e.record, part.writer x h₁ h₂, part.seq_eq ▸ le⟩
  · rintro ⟨r, hr, le⟩
    obtain ⟨e, he, has, rfl⟩ := writer_eq_some.1 hr
    have old : e.value.seq ≤ seq := by rwa [(m.part e he).1]
    exact ⟨retire e, mem_visibleThrough.2 ⟨e, he, old, rfl⟩, has.1, has.2⟩

/-- The last writer wins, and retirement is exact. After records with increasing sequences are
inserted, the overlay serves each byte from the latest record that covers it; `visible_through`
lists disjoint parts of records, which hold the bytes whose latest record is at or below the
checkpoint, and without them the overlay serves the other bytes as before. -/
theorem overlay_last_writer (records : List WalRecord)
    (increasing : records.Pairwise fun a b => a.seq < b.seq)
    (fits : ∀ r ∈ records, r.range.start + r.range.len < U64) :
    ∃ m, new.insertRecords records = .ok m ∧ m.Serves (Latest records) ∧
      ∀ seq, ∃ m', m.removeRetired (m.visibleThrough seq) = .ok m' ∧
        m'.Serves (fun x r => Latest records x r ∧ seq < r.seq) ∧
        (m.visibleThrough seq).Pairwise (fun a b => a.stop ≤ b.start ∨ b.stop ≤ a.start) ∧
        (∀ x, (∃ e ∈ m.visibleThrough seq, e.start ≤ x ∧ x < e.stop) ↔
          ∃ r, Latest records x r ∧ r.seq ≤ seq) ∧
        ∀ e ∈ m.visibleThrough seq, e.seq = e.record.seq ∧ ∀ x, e.start ≤ x → x < e.stop →
          Latest records x e.record ∧ e.recordOffset + (x - e.start) =
          x - e.record.range.start := by
  have none : ∀ x r, new.writer x = some r ↔ Latest [] x r := by
    intro x r
    simp only [new_writer, reduceCtorEq, false_iff]
    exact fun h => List.not_mem_nil h.mem
  obtain ⟨m, run, latest⟩ := insertRecords_latest [] increasing fits none
  rw [List.nil_append] at latest
  have source : (fun x r => m.writer x = some r) = Latest records := by
    funext x r
    exact propext (latest x r)
  have low : ∀ x r, Latest records x r → x + 1 < U64 := by
    intro x r h
    have := fits r h.mem
    have := h.has.2
    omega
  refine ⟨m, run, source ▸ serves_writer fun x r h => low x r ((latest x r).1 h), fun seq => ?_⟩
  obtain ⟨m', run', writer'⟩ := m.removeRetired_visibleThrough seq
  have rest : ∀ x r, m'.writer x = some r ↔ Latest records x r ∧ seq < r.seq := by
    intro x r
    rw [writer', Option.filter_eq_some_iff, latest, decide_eq_true_iff]
  have source' : (fun x r => m'.writer x = some r) = fun x r => Latest records x r ∧
      seq < r.seq := by
    funext x r
    exact propext (rest x r)
  refine ⟨m', run', source' ▸ serves_writer fun x r h => low x r ((rest x r).1 h).1,
    m.visibleThrough_disjoint seq, fun x => ?_, fun e he => ?_⟩
  · rw [visibleThrough_has]
    simp only [latest]
  · obtain ⟨part, -⟩ := retiredPart he
    refine ⟨part.seq_eq, fun x h₁ h₂ => ⟨(latest x _).1 (part.writer x h₁ h₂), ?_⟩⟩
    have := part.offset
    omega

def fourBytes (seq start : Nat) (ne : seq ≠ 0) (lt : seq < U64) : WalRecord where
  seq := seq
  range := .new start 4
  data := [1, 2, 3, 4]
  seq_ne := ne
  seq_lt := lt
  data_ne := by decide
  data_len := rfl

/-- Two records that overlap: a checkpoint after the first one leaves the second one. -/
theorem overlay_last_writer_two :
    ∃ m m', new.insertRecords [fourBytes 1 0 (by decide) (by decide),
        fourBytes 2 2 (by decide) (by decide)] = .ok m ∧
      m.removeRetired (m.visibleThrough 1) = .ok m' ∧
      m'.Serves fun x r => Latest [fourBytes 1 0 (by decide) (by decide),
        fourBytes 2 2 (by decide) (by decide)] x r ∧ 1 < r.seq := by
  obtain ⟨m, run, -, retire⟩ := overlay_last_writer [fourBytes 1 0 (by decide) (by decide),
    fourBytes 2 2 (by decide) (by decide)] (by decide) (by decide)
  obtain ⟨m', run', serves, -⟩ := retire 1
  exact ⟨m, m', run, run', serves⟩

end OverlayExtentMap

end NbdServer
