import NbdServer.Core.Record
import NbdServer.View.Gaps

/-!
# Merging cache objects

Model of the helpers of `read_cache.rs` that build a merged cache object: `connected_sources` finds
the cached extents that overlap or touch the new bytes, directly or through others, and
`materialize_merged_bytes` copies them and the new bytes into one buffer after which
`validate_coverage` checks that no byte was left out. The check never fails on a connected component
(`materializeMerged_spec`).
-/

namespace NbdServer

open Lib

/-- Rust `CachePayload`. -/
inductive CachePayload where
  | bytes (bytes : Buf)
  | walRecord (record : WalRecord)
  deriving DecidableEq

namespace CachePayload

def data : CachePayload → Buf
  | bytes b => b
  | walRecord r => r.data

/-- Rust `CachePayload::charged_bytes`. -/
def chargedBytes (p : CachePayload) : Nat := p.data.length

/-- Rust `CachePayload::copy_to` into `data[dst..]`. -/
def copyTo (p : CachePayload) (offset len : Nat) (data : Buf) (dst : Nat) : Res Buf :=
  copySlice data dst p.data offset len

end CachePayload

/-- Rust `ExistingSource`. -/
structure ExistingSource where
  start : Nat
  stop : Nat
  objectId : Nat
  objectOffset : Nat
  payload : CachePayload
  deriving DecidableEq

/-! ## `connected_sources` -/

/-- The variables of `connected_sources` after some steps; a source carries its `selected` flag. -/
structure Connecting where
  start : Nat
  stop : Nat
  changed : Bool
  sources : List (ExistingSource × Bool)

/-- The `for` loop of `connected_sources` over the sources and their flags. -/
def connectPass : List (ExistingSource × Bool) → Nat → Nat → Bool → Connecting
  | [], start, stop, changed => ⟨start, stop, changed, []⟩
  | (source, true) :: rest, start, stop, changed =>
    let c := connectPass rest start stop changed
    { c with sources := (source, true) :: c.sources }
  | (source, false) :: rest, start, stop, changed =>
    if source.start ≤ stop ∧ source.stop ≥ start then
      let c := connectPass rest (min start source.start) (max stop source.stop) true
      { c with sources := (source, true) :: c.sources }
    else
      let c := connectPass rest start stop changed
      { c with sources := (source, false) :: c.sources }

/-- The outer loop of `connected_sources`. A pass that changes something selects a source, so
`sources.length + 1` rounds reach the `break`. -/
def connectLoop : Nat → List (ExistingSource × Bool) → Nat → Nat → List (ExistingSource × Bool)
  | 0, sources, _, _ => sources
  | fuel + 1, sources, start, stop =>
    let c := connectPass sources start stop false
    if c.changed then connectLoop fuel c.sources c.start c.stop else c.sources

/-- Rust `connected_sources`. -/
def connectedSources (start stop : Nat) (sources : List ExistingSource) : List ExistingSource :=
  ((connectLoop (sources.length + 1) (sources.map (·, false)) start stop).filter (·.2)).map (·.1)

/-- `[start, stop)` is the span of the new bytes `[newStart, newStop)` and of the sources in `sel`,
and these leave no gap in it. -/
structure Component (newStart newStop start stop : Nat) (sel : ExistingSource → Prop) : Prop where
  lower : start ≤ newStart
  upper : newStop ≤ stop
  inside : ∀ s, sel s → start ≤ s.start ∧ s.stop ≤ stop
  low : start = newStart ∨ ∃ s, sel s ∧ s.start = start
  high : stop = newStop ∨ ∃ s, sel s ∧ s.stop = stop
  cover : ∀ x, start ≤ x → x < stop →
    (newStart ≤ x ∧ x < newStop) ∨ ∃ s, sel s ∧ s.start ≤ x ∧ x < s.stop

namespace Component

variable {newStart newStop start stop : Nat} {sel sel' : ExistingSource → Prop}

lemma congr (h : ∀ s, sel s ↔ sel' s) (c : Component newStart newStop start stop sel) :
    Component newStart newStop start stop sel' := by
  obtain rfl : sel = sel' := funext fun s => propext (h s)
  exact c

lemma add {s : ExistingSource} (c : Component newStart newStop start stop sel)
    (h₁ : s.start ≤ stop) (h₂ : start ≤ s.stop) :
    Component newStart newStop (min start s.start) (max stop s.stop) fun t => t = s ∨ sel t where
  lower := (Nat.min_le_left ..).trans c.lower
  upper := c.upper.trans (Nat.le_max_left ..)
  inside := by
    rintro t (rfl | ht)
    · exact ⟨Nat.min_le_right .., Nat.le_max_right ..⟩
    · obtain ⟨a, b⟩ := c.inside t ht
      exact ⟨(Nat.min_le_left ..).trans a, b.trans (Nat.le_max_left ..)⟩
  low := by
    rcases le_total start s.start with le | le
    · rw [Nat.min_eq_left le]
      rcases c.low with h | ⟨t, ht, e⟩
      · exact .inl h
      · exact .inr ⟨t, .inr ht, e⟩
    · rw [Nat.min_eq_right le]
      exact .inr ⟨s, .inl rfl, rfl⟩
  high := by
    rcases le_total s.stop stop with le | le
    · rw [Nat.max_eq_left le]
      rcases c.high with h | ⟨t, ht, e⟩
      · exact .inl h
      · exact .inr ⟨t, .inr ht, e⟩
    · rw [Nat.max_eq_right le]
      exact .inr ⟨s, .inl rfl, rfl⟩
  cover := by
    intro x h₃ h₄
    by_cases inside : start ≤ x ∧ x < stop
    · rcases c.cover x inside.1 inside.2 with h | ⟨t, ht, h⟩
      · exact .inl h
      · exact .inr ⟨t, .inr ht, h⟩
    · exact .inr ⟨s, .inl rfl, by omega, by omega⟩

end Component

lemma connectPass_sources {sources : List (ExistingSource × Bool)} {start stop : Nat}
    {changed : Bool} :
    (connectPass sources start stop changed).sources.map (·.1) = sources.map (·.1) := by
  induction sources generalizing start stop changed with
  | nil => rfl
  | cons a rest ih =>
    obtain ⟨s, flag⟩ := a
    cases flag with
    | true => exact congrArg (s :: ·) ih
    | false =>
      rw [connectPass]
      split
      · exact congrArg (s :: ·) ih
      · exact congrArg (s :: ·) ih

/-- What holds of the span and the selected sources, and still holds after a source that overlaps or
touches the span is added, holds after a pass. `sel` are the selected sources before the current
position. -/
lemma connectPass_invariant {P : Nat → Nat → (ExistingSource → Prop) → Prop}
    {all : List ExistingSource}
    (add : ∀ start stop sel, ∀ s ∈ all, P start stop sel → s.start ≤ stop → start ≤ s.stop →
      P (min start s.start) (max stop s.stop) fun t => t = s ∨ sel t)
    {start stop : Nat} (changed : Bool) {sources : List (ExistingSource × Bool)}
    (sub : ∀ s ∈ sources.map (·.1), s ∈ all) (sel : ExistingSource → Prop)
    (h : P start stop fun s => sel s ∨ (s, true) ∈ sources) :
    P (connectPass sources start stop changed).start (connectPass sources start stop changed).stop
      fun s => sel s ∨ (s, true) ∈ (connectPass sources start stop changed).sources := by
  have congr : ∀ {start stop} {sel sel' : ExistingSource → Prop}, (∀ s, sel s ↔ sel' s) →
      P start stop sel → P start stop sel' := by
    intro start stop sel sel' same h
    obtain rfl : sel = sel' := funext fun s => propext (same s)
    exact h
  induction sources generalizing start stop changed sel with
  | nil => exact h
  | cons a rest ih =>
    obtain ⟨s, flag⟩ := a
    rw [List.map_cons, List.forall_mem_cons] at sub
    cases flag with
    | true =>
      have step := ih changed sub.2 (fun t => t = s ∨ sel t) (congr (by
        intro t
        simp only [List.mem_cons, Prod.mk.injEq, and_true]
        tauto) h)
      refine congr ?_ step
      intro t
      simp only [connectPass, List.mem_cons, Prod.mk.injEq, and_true]
      tauto
    | false =>
      have rest' : ∀ t, (sel t ∨ (t, true) ∈ (s, false) :: rest) ↔ sel t ∨ (t, true) ∈ rest := by
        intro t
        simp
      have h' := congr rest' h
      rw [connectPass]
      split
      · rename_i touch
        have step := ih true sub.2 (fun t => t = s ∨ sel t)
          (congr (fun t => or_assoc.symm) (add _ _ _ s sub.1 h' touch.1 touch.2))
        refine congr ?_ step
        intro t
        simp only [List.mem_cons, Prod.mk.injEq, and_true]
        tauto
      · refine congr ?_ (ih changed sub.2 sel h')
        intro t
        simp

lemma connectLoop_sources {fuel : Nat} {sources : List (ExistingSource × Bool)} {start stop : Nat} :
    (connectLoop fuel sources start stop).map (·.1) = sources.map (·.1) := by
  induction fuel generalizing sources start stop with
  | zero => rfl
  | succ fuel ih =>
    rw [connectLoop]
    split
    · rw [ih, connectPass_sources]
    · exact connectPass_sources

lemma connectLoop_invariant {P : Nat → Nat → (ExistingSource → Prop) → Prop}
    {all : List ExistingSource}
    (add : ∀ start stop sel, ∀ s ∈ all, P start stop sel → s.start ≤ stop → start ≤ s.stop →
      P (min start s.start) (max stop s.stop) fun t => t = s ∨ sel t)
    {start stop : Nat} (fuel : Nat) {sources : List (ExistingSource × Bool)}
    (sub : ∀ s ∈ sources.map (·.1), s ∈ all) (h : P start stop fun s => (s, true) ∈ sources) :
    ∃ start' stop', P start' stop' fun s => (s, true) ∈ connectLoop fuel sources start stop := by
  induction fuel generalizing sources start stop with
  | zero => exact ⟨start, stop, h⟩
  | succ fuel ih =>
    have step := connectPass_invariant add false sub (fun _ => False) (by simpa using h)
    simp only [false_or] at step
    rw [connectLoop]
    split
    · exact ih (by rwa [connectPass_sources]) step
    · exact ⟨_, _, step⟩

lemma connectPass_touching {newStart newStop start stop : Nat} (changed : Bool)
    {sources : List (ExistingSource × Bool)} {s : ExistingSource} {flag : Bool}
    (lower : start ≤ newStart) (upper : newStop ≤ stop) (mem : (s, flag) ∈ sources)
    (touches : flag = true ∨ s.start ≤ newStop ∧ newStart ≤ s.stop) :
    (s, true) ∈ (connectPass sources start stop changed).sources := by
  induction sources generalizing start stop changed with
  | nil => cases mem
  | cons a rest ih =>
    obtain ⟨t, flag'⟩ := a
    cases flag' with
    | true =>
      rw [connectPass]
      rcases List.mem_cons.1 mem with here | later
      · cases here
        exact List.mem_cons_self
      · exact List.mem_cons_of_mem _ (ih _ lower upper later)
    | false =>
      rw [connectPass]
      split
      · rcases List.mem_cons.1 mem with here | later
        · cases here
          exact List.mem_cons_self
        · refine List.mem_cons_of_mem _ (ih _ ?_ ?_ later)
          · exact (Nat.min_le_left ..).trans lower
          · exact upper.trans (Nat.le_max_left ..)
      · rename_i apart
        rcases List.mem_cons.1 mem with here | later
        · cases here
          rcases touches with flag | ⟨h₁, h₂⟩
          · cases flag
          · exact absurd ⟨h₁.trans upper, lower.trans h₂⟩ apart
        · exact List.mem_cons_of_mem _ (ih _ lower upper later)

lemma connectLoop_selected {fuel start stop : Nat} {sources : List (ExistingSource × Bool)}
    {s : ExistingSource} (mem : (s, true) ∈ sources) :
    (s, true) ∈ connectLoop fuel sources start stop := by
  induction fuel generalizing sources start stop with
  | zero => exact mem
  | succ fuel ih =>
    have kept := connectPass_touching false (le_refl start) (le_refl stop) mem (.inl rfl)
    rw [connectLoop]
    split
    · exact ih kept
    · exact kept

/-- The connected sources are some of the sources, among them all that touch the new bytes, and with
the new bytes they form one interval without a gap. -/
lemma connectedSources_spec (start stop : Nat) (sources : List ExistingSource) :
    (∀ s ∈ connectedSources start stop sources, s ∈ sources) ∧
      (∀ s ∈ sources, s.start ≤ stop → start ≤ s.stop → s ∈ connectedSources start stop sources) ∧
      ∃ start' stop',
        Component start stop start' stop' (· ∈ connectedSources start stop sources) := by
  have mem : ∀ s, s ∈ connectedSources start stop sources ↔
      (s, true) ∈ connectLoop (sources.length + 1) (sources.map (·, false)) start stop := by
    intro s
    simp [connectedSources]
  refine ⟨?_, ?_, ?_⟩
  · intro s hs
    have := List.mem_map_of_mem (f := Prod.fst) ((mem s).1 hs)
    rw [connectLoop_sources, List.map_map] at this
    simpa using this
  · intro s hs h₁ h₂
    have first := connectPass_touching false (le_refl start) (le_refl stop)
      (List.mem_map_of_mem (f := (·, false)) hs) (.inr ⟨h₁, h₂⟩)
    rw [mem, connectLoop]
    split
    · exact connectLoop_selected first
    · exact first
  · have none : Component start stop start stop fun s => (s, true) ∈ sources.map (·, false) := by
      refine ⟨le_rfl, le_rfl, ?_, .inl rfl, .inl rfl, fun x h₁ h₂ => .inl ⟨h₁, h₂⟩⟩
      intro s hs
      simp at hs
    obtain ⟨start', stop', c⟩ := connectLoop_invariant
      (fun _ _ _ s (_ : s ∈ sources) c touch₁ touch₂ => c.add touch₁ touch₂) (sources.length + 1)
        (by simp) none
    exact ⟨start', stop', c.congr fun s => (mem s).symm⟩

lemma component_bounds {start stop lo hi : Nat} {connected : List ExistingSource}
    (c : Component start stop lo hi (· ∈ connected)) :
    (connected.map (·.start) ++ [start]).min? = some lo ∧
      (connected.map (·.stop) ++ [stop]).max? = some hi := by
  constructor
  · rw [List.min?_eq_some_iff]
    constructor
    · rcases c.low with h | ⟨s, hs, h⟩
      · exact List.mem_append_right _ (by simp [h])
      · exact List.mem_append_left _ (List.mem_map.2 ⟨s, hs, h⟩)
    · intro b hb
      rcases List.mem_append.1 hb with hb | hb
      · obtain ⟨s, hs, rfl⟩ := List.mem_map.1 hb
        exact (c.inside s hs).1
      · cases List.mem_singleton.1 hb
        exact c.lower
  · rw [List.max?_eq_some_iff]
    constructor
    · rcases c.high with h | ⟨s, hs, h⟩
      · exact List.mem_append_right _ (by simp [h])
      · exact List.mem_append_left _ (List.mem_map.2 ⟨s, hs, h⟩)
    · intro b hb
      rcases List.mem_append.1 hb with hb | hb
      · obtain ⟨s, hs, rfl⟩ := List.mem_map.1 hb
        exact (c.inside s hs).2
      · cases List.mem_singleton.1 hb
        exact c.upper

/-! ## `validate_coverage` -/

/-- The loop of `validate_coverage` over the sorted spans. -/
def coverLoop (covered : Nat) : List Span → Res Nat
  | [] => .ok covered
  | span :: spans =>
    if span.2 ≤ covered then coverLoop covered spans
    else if span.1 > covered then
      fail (.wal "read cache" s!"merge sources leave uncovered gap [{covered}, {span.1})")
    else coverLoop (max covered span.2) spans

/-- Rust `validate_coverage`. -/
def validateCoverage (start stop : Nat) (spans : List Span) : Res Unit := do
  let covered ← coverLoop start (spans.insertionSort Span.le)
  if covered ≠ stop then
    fail (.wal "read cache" s!"merge sources end at {covered}, expected {stop}")
  else .ok ()

lemma coverLoop_eq {covered : Nat} (stop : Nat) {spans : List Span}
    (sorted : spans.Pairwise Span.le) (upper : ∀ s ∈ spans, s.2 ≤ stop) (le : covered ≤ stop)
    (cover : ∀ x, covered ≤ x → x < stop → ∃ s ∈ spans, s.Has x) :
    coverLoop covered spans = .ok stop := by
  induction spans generalizing covered with
  | nil =>
    have : ¬ covered < stop := by
      intro lt
      obtain ⟨s, hs, -⟩ := cover covered le_rfl lt
      simp at hs
    rw [coverLoop]
    congr 1
    omega
  | cons s spans ih =>
    obtain ⟨hd, tl⟩ := List.pairwise_cons.1 sorted
    have up := upper s List.mem_cons_self
    have rest : ∀ s' ∈ spans, s'.2 ≤ stop := fun s' hs' => upper s' (List.mem_cons_of_mem _ hs')
    rw [coverLoop]
    by_cases skip : s.2 ≤ covered
    · rw [if_pos skip]
      refine ih tl rest le ?_
      intro x h₁ h₂
      obtain ⟨s', hs', h₃, h₄⟩ := cover x h₁ h₂
      rcases List.mem_cons.1 hs' with rfl | hs'
      · omega
      · exact ⟨s', hs', h₃, h₄⟩
    · have start : ¬ s.1 > covered := by
        -- the first uncovered byte lies in some span, and `s` starts first
        intro gt
        obtain ⟨s', hs', h₃, h₄⟩ := cover covered le_rfl (by omega)
        rcases List.mem_cons.1 hs' with rfl | hs'
        · omega
        · have : s.1 ≤ s'.1 := hd s' hs'
          omega
      rw [if_neg skip, if_neg start]
      refine ih tl rest (by omega) ?_
      intro x h₁ h₂
      obtain ⟨s', hs', h₃, h₄⟩ := cover x (by omega) h₂
      rcases List.mem_cons.1 hs' with rfl | hs'
      · omega
      · exact ⟨s', hs', h₃, h₄⟩

lemma validateCoverage_eq (start stop : Nat) (spans : List Span) (upper : ∀ s ∈ spans, s.2 ≤ stop)
    (le : start ≤ stop) (cover : ∀ x, start ≤ x → x < stop → ∃ s ∈ spans, s.Has x) :
    validateCoverage start stop spans = .ok () := by
  have mem : ∀ s, s ∈ spans.insertionSort Span.le ↔ s ∈ spans :=
    fun s => (List.perm_insertionSort Span.le spans).mem_iff
  unfold validateCoverage
  rw [coverLoop_eq stop (List.pairwise_insertionSort Span.le spans)
    (fun s hs => upper s ((mem s).1 hs)) le, Res.ok_bind]
  · exact if_neg (not_not.2 rfl)
  · intro x h₁ h₂
    obtain ⟨s, hs, has⟩ := cover x h₁ h₂
    exact ⟨s, (mem s).2 hs, has⟩

lemma Component.covered {newStart newStop start stop : Nat} {existing : List ExistingSource}
    (c : Component newStart newStop start stop (· ∈ existing)) (le : newStart ≤ newStop) :
    validateCoverage start stop
      (existing.map (fun s => (s.start, s.stop)) ++ [(newStart, newStop)]) = .ok () := by
  refine validateCoverage_eq start stop _ ?_ (c.lower.trans (le.trans c.upper)) ?_
  · intro s hs
    rcases List.mem_append.1 hs with h | h
    · obtain ⟨t, ht, rfl⟩ := List.mem_map.1 h
      exact (c.inside t ht).2
    · cases List.mem_singleton.1 h
      exact c.upper
  · intro x h₁ h₂
    rcases c.cover x h₁ h₂ with h | ⟨t, ht, h⟩
    · exact ⟨(newStart, newStop), by simp, h⟩
    · exact ⟨(t.start, t.stop), List.mem_append_left _ (List.mem_map.2 ⟨t, ht, rfl⟩), h⟩

/-! ## `materialize_merged_bytes` -/

/-- Rust `copy_source`. -/
def copySource (componentStart : Nat) (source : ExistingSource) (merged : Buf) : Res Buf := do
  let dst ← minus source.start componentStart
  source.payload.copyTo source.objectOffset (source.stop - source.start) merged dst

/-- The loop over the existing sources in `materialize_merged_bytes`. -/
def copySources (componentStart : Nat) : List ExistingSource → Buf → Res Buf
  | [], merged => .ok merged
  | source :: existing, merged => do
    let merged ← copySource componentStart source merged
    copySources componentStart existing merged

/-- Rust `materialize_merged_bytes` and `materialize_merged_wal_bytes`: the new bytes are those of
`bytes` from `sourceOffset` on. -/
def materializeMerged (componentStart componentEnd newStart newEnd sourceOffset : Nat) (bytes : Buf)
    (existing : List ExistingSource) : Res Buf := do
  let merged ← copySources componentStart existing
    (List.replicate (componentEnd - componentStart) 0)
  let dst ← minus newStart componentStart
  let merged ← copySlice merged dst bytes sourceOffset (newEnd - newStart)
  validateCoverage componentStart componentEnd
    (existing.map (fun s => (s.start, s.stop)) ++ [(newStart, newEnd)])
  .ok merged

/-- Rust `materialize_merged_bytes`. -/
def materializeMergedBytes (componentStart componentEnd newStart newEnd : Nat) (newBytes : Buf)
    (existing : List ExistingSource) : Res Buf :=
  materializeMerged componentStart componentEnd newStart newEnd 0 newBytes existing

/-- Rust `materialize_merged_wal_bytes`. -/
def materializeMergedWalBytes (componentStart componentEnd newStart newEnd recordOffset : Nat)
    (record : WalRecord) (existing : List ExistingSource) : Res Buf :=
  materializeMerged componentStart componentEnd newStart newEnd recordOffset record.data existing

/-- The source lies in the component and holds the content `old` at its offsets. -/
structure ExistingSource.Holds (s : ExistingSource) (start stop : Nat) (old : Nat → UInt8) :
    Prop where
  lower : start ≤ s.start
  lt : s.start < s.stop
  upper : s.stop ≤ stop
  fits : s.objectOffset + (s.stop - s.start) ≤ s.payload.data.length
  content : ∀ x, s.start ≤ x → x < s.stop →
    s.payload.data[s.objectOffset + (x - s.start)]? = some (old x)

lemma copySources_spec {start stop : Nat} {old : Nat → UInt8} {existing : List ExistingSource}
    {merged : Buf} {done : Set Nat} (hs : ∀ s ∈ existing, s.Holds start stop old)
    (len : merged.length = stop - start) (agree : Agrees merged (fun i => old (start + i)) done) :
    ∃ merged', copySources start existing merged = .ok merged' ∧ merged'.length = stop - start ∧
      Agrees merged' (fun i => old (start + i))
        (done ∪ {i | ∃ s ∈ existing, s.start ≤ start + i ∧ start + i < s.stop}) := by
  induction existing generalizing merged done with
  | nil => exact ⟨merged, rfl, len, by simpa using agree⟩
  | cons s existing ih =>
    obtain ⟨h₁, h₂, h₃, h₄, h₅⟩ := hs s List.mem_cons_self
    obtain ⟨merged₁, run₁, len₁, agree₁⟩ := copySlice_agrees (s.start - start) agree h₄
      (by omega) (by
        intro i hi
        have := h₅ (s.start + i) (by omega) (by omega)
        rw [show s.start + i - s.start = i by omega] at this
        rw [this, show start + (s.start - start + i) = s.start + i by omega])
    obtain ⟨merged', run', len', agree'⟩ := ih (fun t ht => hs t (List.mem_cons_of_mem _ ht))
      (len₁.trans len) agree₁
    refine ⟨merged', ?_, len', ?_⟩
    · rw [copySources, copySource, minus_of_le h₁, Res.ok_bind, CachePayload.copyTo, run₁,
        Res.ok_bind, run']
    · intro i hi mem
      refine agree' i hi ?_
      rcases mem with mem | ⟨t, ht, h₆, h₇⟩
      · exact .inl (.inl mem)
      · rcases List.mem_cons.1 ht with rfl | ht
        · exact .inl (.inr ⟨by omega, by omega⟩)
        · exact .inr ⟨t, ht, h₆, h₇⟩

/-- Merging a connected component succeeds. The merged buffer holds the new bytes in their range and
the old content everywhere else. -/
lemma materializeMerged_spec {newStart newStop start stop sourceOffset : Nat} {bytes : Buf}
    {existing : List ExistingSource} {old : Nat → UInt8}
    (c : Component newStart newStop start stop (· ∈ existing)) (lt : newStart < newStop)
    (hs : ∀ s ∈ existing, s.Holds start stop old)
    (fits : sourceOffset + (newStop - newStart) ≤ bytes.length) :
    ∃ merged, materializeMerged start stop newStart newStop sourceOffset bytes existing =
    .ok merged ∧
      merged.length = stop - start ∧
      (∀ x, newStart ≤ x → x < newStop →
        merged[x - start]? = bytes[sourceOffset + (x - newStart)]?) ∧
      ∀ x, start ≤ x → x < stop → ¬ (newStart ≤ x ∧ x < newStop) →
        merged[x - start]? = some (old x) := by
  have lo := c.lower
  have up := c.upper
  have agree₀ : Agrees (List.replicate (stop - start) 0) (fun i => old (start + i)) ∅ :=
    fun i _ h => h.elim
  obtain ⟨merged₁, run₁, len₁, agree₁⟩ := copySources_spec hs
    (List.length_replicate (a := (0 : UInt8))) agree₀
  have copy : copySlice merged₁ (newStart - start) bytes sourceOffset (newStop - newStart) =
      .ok _ :=
    copySlice_eq fits (by omega)
  have covers := c.covered (by omega)
  have hl := length_slice fits
  refine ⟨splice merged₁ (newStart - start) (slice bytes sourceOffset (newStop - newStart)), ?_,
    (length_splice (by omega)).trans len₁, ?_, ?_⟩
  · unfold materializeMerged
    rw [run₁, Res.ok_bind, minus_of_le lo, Res.ok_bind, copy, Res.ok_bind, covers, Res.ok_bind]
  · intro x h₁ h₂
    rw [getElem?_splice (by omega), if_pos (by omega), getElem?_slice (by omega)]
    congr 1
    omega
  · intro x h₁ h₂ h₃
    rw [getElem?_splice (by omega), if_neg (by omega), agree₁ (x - start) (by omega) (.inr ?_)]
    · show some (old (start + (x - start))) = some (old x)
      rw [Nat.add_sub_of_le h₁]
    · rcases c.cover x h₁ h₂ with h | ⟨t, ht, h₄, h₅⟩
      · exact absurd h h₃
      · exact ⟨t, ht, by omega, by omega⟩

end NbdServer
