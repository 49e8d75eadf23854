import NbdServer.Core.Range

/-!
# Ranges and the gaps between spans

Model of the range helpers of `read_view.rs`: the bounds check of a request,
`byte_range_from_bounds` and `gaps_in_range`, which lists what a set of spans leaves uncovered of a
range (`gapsInRange_spec`).
-/

namespace NbdServer

/-- Rust `validate_request_range`. -/
def validateRequestRange (operation : String) (offset length sizeBytes : Nat) : Res Unit := do
  let stop ← okOr (checkedAdd offset length) (.outOfBounds operation offset length sizeBytes)
  if stop > sizeBytes then fail (.outOfBounds operation offset length sizeBytes) else .ok ()

/-- Rust `validate_range`. -/
def validateRange (operation : String) (range : ByteRange) (sizeBytes : Nat) : Res Unit :=
  validateRequestRange operation range.start range.len sizeBytes

lemma validateRange_eq_ok {operation : String} {range : ByteRange} {sizeBytes : Nat}
    (h : sizeBytes < U64) :
    validateRange operation range sizeBytes = .ok () ↔ range.start + range.len ≤ sizeBytes := by
  unfold validateRange validateRequestRange
  by_cases fits : range.start + range.len < U64
  · rw [checkedAdd_of_lt fits, okOr_some, Res.ok_bind]
    split
    · rename_i gt
      simp only [fail, reduceCtorEq, false_iff]
      omega
    · rename_i le
      simp only [true_iff]
      omega
  · have none : checkedAdd range.start range.len = none := if_neg fits
    rw [none]
    simp only [okOr_none, fail, bind, Except.bind, reduceCtorEq, false_iff]
    omega

/-- Rust `byte_range_from_bounds`. -/
def byteRangeFromBounds (start stop : Nat) : Res ByteRange := do
  let len ← okOr (checkedSub stop start) (.wal "build byte range" "range end before start")
  if len < U32 then .ok (ByteRange.new start len)
  else fail (.wal "build byte range" "range length does not fit u32")

lemma byteRangeFromBounds_eq (start stop : Nat) (le : start ≤ stop) (lt : stop < U64)
    (short : stop - start < U32) :
    ∃ r, byteRangeFromBounds start stop = .ok r ∧ r.start = start ∧ r.len = stop - start := by
  refine ⟨ByteRange.new start (stop - start), ?_, ByteRange.new_start (by omega),
    ByteRange.new_len short⟩
  unfold byteRangeFromBounds
  rw [checkedSub_of_le le, okOr_some, Res.ok_bind, if_pos short]

lemma byteRangeFromBounds_eq_ok {start stop : Nat} {r : ByteRange} (lt : start < U64)
    (run : byteRangeFromBounds start stop = .ok r) : r.start = start ∧ start + r.len = stop := by
  unfold byteRangeFromBounds at run
  by_cases le : start ≤ stop
  · rw [checkedSub_of_le le, okOr_some, Res.ok_bind] at run
    by_cases short : stop - start < U32
    · rw [if_pos short] at run
      cases run
      rw [ByteRange.new_start lt, ByteRange.new_len short]
      omega
    · rw [if_neg short] at run
      cases run
  · have none : checkedSub stop start = none := if_neg le
    rw [none] at run
    cases run

/-- A span `[a, b)`. -/
abbrev Span := Nat × Nat

/-- The span holds `x`. -/
def Span.Has (s : Span) (x : Nat) : Prop := s.1 ≤ x ∧ x < s.2

def Span.le (a b : Span) : Prop := a.1 ≤ b.1

instance : DecidableRel Span.le := fun a b => inferInstanceAs (Decidable (a.1 ≤ b.1))
instance : Std.Total Span.le := ⟨fun a b => le_total a.1 b.1⟩
instance : IsTrans Span Span.le := ⟨fun _ _ _ h₁ h₂ => le_trans (α := Nat) h₁ h₂⟩

/-- `gaps.push(byte_range_from_bounds(cursor, stop)?)` when this gap is not empty. -/
def pushGap (gaps : List ByteRange) (cursor stop : Nat) : Res (List ByteRange) :=
  if stop > cursor then do
    let gap ← byteRangeFromBounds cursor stop
    .ok (gaps ++ [gap])
  else .ok gaps

/-- The loop of `gaps_in_range` over the sorted spans. -/
def gapsLoop (start stop : Nat) : List Span → Nat → List ByteRange → Res (Nat × List ByteRange)
  | [], cursor, gaps => .ok (cursor, gaps)
  | span :: spans, cursor, gaps =>
    if min span.2 stop ≤ cursor then gapsLoop start stop spans cursor gaps
    else do
      let gaps ← pushGap gaps cursor (max span.1 start)
      if max cursor (min span.2 stop) = stop then .ok (max cursor (min span.2 stop), gaps)
      else gapsLoop start stop spans (max cursor (min span.2 stop)) gaps

/-- Rust `gaps_in_range`. -/
def gapsInRange (range : ByteRange) (spans : List Span) : Res (List ByteRange) := do
  let (cursor, gaps) ← gapsLoop range.start range.stop (spans.insertionSort Span.le) range.start []
  pushGap gaps cursor range.stop

/-- The gaps found so far: non-empty ranges inside `[start, stop)`. -/
def Inside (start stop : Nat) (gaps : List ByteRange) : Prop :=
  ∀ g ∈ gaps, 0 < g.len ∧ start ≤ g.start ∧ g.start + g.len ≤ stop

lemma pushGap_cases {gaps gaps' : List ByteRange} {cursor stop : Nat}
    (run : pushGap gaps cursor stop = .ok gaps') :
    (stop ≤ cursor ∧ gaps' = gaps) ∨
      ∃ gap, cursor < stop ∧ byteRangeFromBounds cursor stop = .ok gap ∧ gaps' = gaps ++ [gap] := by
  unfold pushGap at run
  by_cases gt : stop > cursor
  · rw [if_pos gt] at run
    cases made : byteRangeFromBounds cursor stop with
    | error fault =>
      rw [made] at run
      cases run
    | ok gap =>
      rw [made] at run
      cases run
      exact .inr ⟨gap, gt, rfl, rfl⟩
  · rw [if_neg gt] at run
    cases run
    exact .inl ⟨not_lt.1 gt, rfl⟩

/-- What the loop of `gaps_in_range` knows: up to the cursor, the gaps are what the spans seen so
far leave free, and these spans hold nothing of the range after the cursor. -/
structure Scanned (start stop cursor : Nat) (seen : List Span) (gaps : List ByteRange) : Prop where
  start_le : start ≤ cursor
  le_stop : cursor ≤ stop
  ascending : gaps.Pairwise fun a b => a.start + a.len ≤ b.start
  nonempty : ∀ g ∈ gaps, 0 < g.len
  within : ∀ g ∈ gaps, start ≤ g.start ∧ g.start + g.len ≤ cursor
  reached : ∀ s ∈ seen, min s.2 stop ≤ cursor
  mem : ∀ x, (∃ g ∈ gaps, g.Has x) ↔ start ≤ x ∧ x < cursor ∧ ∀ s ∈ seen, ¬ s.Has x

namespace Scanned

variable {start stop cursor : Nat} {seen : List Span} {gaps : List ByteRange}

lemma nil (le : start ≤ stop) : Scanned start stop start [] [] where
  start_le := le_rfl
  le_stop := le
  ascending := .nil
  nonempty := by simp
  within := by simp
  reached := by simp
  mem x := by
    simp only [List.not_mem_nil, false_and, exists_false, false_iff]
    omega

lemma push (scan : Scanned start stop cursor seen gaps) (lt : stop < U64)
    (short : stop - start < U32) (bound : Nat) (hb : bound ≤ stop) :
    ∃ gaps', pushGap gaps cursor bound = .ok gaps' ∧
      Scanned start stop (max cursor bound) seen gaps' ∧
      ∀ g ∈ gaps', g ∈ gaps ∨ g.start + g.len = bound := by
  have start_le := scan.start_le
  have le_stop := scan.le_stop
  by_cases gt : bound > cursor
  · obtain ⟨gap, run, gs, gl⟩ := byteRangeFromBounds_eq cursor bound (by omega) (by omega)
      (by omega)
    have top : max cursor bound = bound := by omega
    refine ⟨gaps ++ [gap], ?_, ?_, ?_⟩
    · unfold pushGap
      rw [if_pos gt, run, Res.ok_bind]
    · rw [top]
      refine ⟨by omega, hb, ?_, ?_, ?_, fun s hs => (scan.reached s hs).trans gt.le, ?_⟩
      · refine List.pairwise_append.2 ⟨scan.ascending, List.pairwise_singleton _ _, ?_⟩
        intro a ha b hb
        cases List.mem_singleton.1 hb
        rw [gs]
        exact (scan.within a ha).2
      · intro g hg
        rcases List.mem_append.1 hg with hg | hg
        · exact scan.nonempty g hg
        · cases List.mem_singleton.1 hg
          omega
      · intro g hg
        rcases List.mem_append.1 hg with hg | hg
        · have := scan.within g hg
          omega
        · cases List.mem_singleton.1 hg
          omega
      · intro x
        have new : gap.Has x ↔ cursor ≤ x ∧ x < bound := by
          unfold ByteRange.Has
          omega
        simp only [List.mem_append, List.mem_singleton, or_and_right, exists_or, exists_eq_left,
          scan.mem, new]
        constructor
        · rintro (⟨h₁, h₂, h₃⟩ | ⟨h₁, h₂⟩)
          · exact ⟨h₁, by omega, h₃⟩
          · refine ⟨by omega, h₂, fun s hs has => ?_⟩
            have := scan.reached s hs
            have := has.2
            omega
        · rintro ⟨h₁, h₂, h₃⟩
          by_cases hx : x < cursor
          · exact .inl ⟨h₁, hx, h₃⟩
          · exact .inr ⟨by omega, h₂⟩
    · intro g hg
      rcases List.mem_append.1 hg with hg | hg
      · exact .inl hg
      · cases List.mem_singleton.1 hg
        exact .inr (by omega)
  · have top : max cursor bound = cursor := by omega
    refine ⟨gaps, if_neg gt, ?_, fun g hg => .inl hg⟩
    rw [top]
    exact scan

lemma see (scan : Scanned start stop cursor seen gaps) {s : Span}
    (hs : s.1 ≤ cursor ∨ cursor = stop) (after : ∀ g ∈ gaps, g.start + g.len ≤ s.1) :
    Scanned start stop (max cursor (min s.2 stop)) (seen ++ [s]) gaps where
  start_le := scan.start_le.trans (le_max_left _ _)
  le_stop := max_le scan.le_stop (min_le_right _ _)
  ascending := scan.ascending
  nonempty := scan.nonempty
  within g hg := ⟨(scan.within g hg).1, (scan.within g hg).2.trans (le_max_left _ _)⟩
  reached s' hs' := by
    rcases List.mem_append.1 hs' with hs' | hs'
    · exact (scan.reached s' hs').trans (le_max_left _ _)
    · cases List.mem_singleton.1 hs'
      exact le_max_right _ _
  mem x := by
    simp only [List.mem_append, List.mem_singleton, or_imp, forall_and, forall_eq]
    constructor
    · rintro ⟨g, hg, has⟩
      obtain ⟨h₁, h₂, h₃⟩ := (scan.mem x).1 ⟨g, hg, has⟩
      refine ⟨h₁, by omega, h₃, fun hx => ?_⟩
      have := after g hg
      have := has.2
      have := hx.1
      omega
    · rintro ⟨h₁, h₂, h₃, h₄⟩
      refine (scan.mem x).2 ⟨h₁, ?_, h₃⟩
      by_contra ge
      exact h₄ ⟨by omega, by omega⟩

end Scanned

/-- No span starts after the end of the range, unless the cursor has reached the end by then. -/
def Clipped (stop cursor : Nat) (spans : List Span) : Prop :=
  cursor = stop ∨ (∀ s ∈ spans, s.1 ≤ stop) ∨ ∃ s ∈ spans, s.1 ≤ stop ∧ stop ≤ s.2

lemma Clipped.tail {stop cursor : Nat} {s : Span} {spans : List Span}
    (clipped : Clipped stop cursor (s :: spans)) (sorted : (s :: spans).Pairwise Span.le)
    (le : cursor ≤ stop) :
    (cursor = stop ∨ s.1 ≤ stop) ∧ Clipped stop (max cursor (min s.2 stop)) spans := by
  obtain ⟨first, -⟩ := List.pairwise_cons.1 sorted
  rcases clipped with full | all | ⟨s', hs', h₁, h₂⟩
  · exact ⟨.inl full, .inl (by omega)⟩
  · rw [List.forall_mem_cons] at all
    exact ⟨.inr all.1, .inr (.inl all.2)⟩
  · rcases List.mem_cons.1 hs' with rfl | hs'
    · exact ⟨.inr h₁, .inl (by omega)⟩
    · exact ⟨.inr ((first s' hs').trans h₁), .inr (.inr ⟨s', hs', h₁, h₂⟩)⟩

lemma Scanned.finish {start stop : Nat} {seen : List Span} {gaps : List ByteRange}
    (spans : List Span) (scan : Scanned start stop stop seen gaps)
    (after : ∀ g ∈ gaps, ∀ s ∈ spans, g.start + g.len ≤ s.1) :
    Scanned start stop stop (seen ++ spans) gaps := by
  induction spans generalizing seen with
  | nil => simpa using scan
  | cons s spans ih =>
    have top : max stop (min s.2 stop) = stop := by omega
    have next := scan.see (s := s) (.inr rfl) fun g hg => after g hg s List.mem_cons_self
    rw [top] at next
    have rest := ih next fun g hg s' hs' => after g hg s' (List.mem_cons_of_mem _ hs')
    rwa [List.append_assoc] at rest

/-- The loop over sorted spans. A gap lies before every span still to come, since these are
sorted. -/
lemma gapsLoop_spec {start stop cursor : Nat} {spans seen : List Span} {gaps : List ByteRange}
    (lt : stop < U64) (short : stop - start < U32) (sorted : spans.Pairwise Span.le)
    (proper : ∀ s ∈ spans, s.1 < s.2) (clipped : Clipped stop cursor spans)
    (scan : Scanned start stop cursor seen gaps)
    (after : ∀ g ∈ gaps, ∀ s ∈ spans, g.start + g.len ≤ s.1) :
    ∃ cursor' gaps', gapsLoop start stop spans cursor gaps = .ok (cursor', gaps') ∧
      Scanned start stop cursor' (seen ++ spans) gaps' := by
  induction spans generalizing cursor gaps seen with
  | nil => exact ⟨cursor, gaps, rfl, by simpa using scan⟩
  | cons s spans ih =>
    obtain ⟨first, tl⟩ := List.pairwise_cons.1 sorted
    obtain ⟨timely, rest⟩ := clipped.tail sorted scan.le_stop
    rw [List.forall_mem_cons] at proper
    have slt := proper.1
    have start_le := scan.start_le
    have le_stop := scan.le_stop
    have assoc : seen ++ s :: spans = (seen ++ [s]) ++ spans := by simp
    rw [gapsLoop, assoc]
    by_cases skip : min s.2 stop ≤ cursor
    · rw [if_pos skip]
      have next := scan.see (s := s) (by omega) fun g hg => after g hg s List.mem_cons_self
      rw [max_eq_left skip] at rest next
      exact ih tl proper.2 rest next fun g hg s' hs' => after g hg s' (List.mem_cons_of_mem _ hs')
    · rw [if_neg skip]
      obtain ⟨gaps₁, run₁, scan₁, new⟩ := scan.push lt short (max s.1 start) (by omega)
      have after₁ : ∀ g ∈ gaps₁, g.start + g.len ≤ s.1 := by
        intro g hg
        rcases new g hg with hg | eq
        · exact after g hg s List.mem_cons_self
        · have := scan₁.nonempty g hg
          have := scan₁.within g hg
          omega
      have later : ∀ g ∈ gaps₁, ∀ s' ∈ spans, g.start + g.len ≤ s'.1 :=
        fun g hg s' hs' => (after₁ g hg).trans (first s' hs')
      have next := scan₁.see (s := s) (.inl (by omega)) after₁
      have top : max (max cursor (max s.1 start)) (min s.2 stop) = max cursor (min s.2 stop) := by
        omega
      rw [top] at next
      rw [run₁, Res.ok_bind]
      by_cases last : max cursor (min s.2 stop) = stop
      · rw [if_pos last]
        rw [last] at next ⊢
        exact ⟨stop, gaps₁, rfl, next.finish spans later⟩
      · rw [if_neg last]
        exact ih tl proper.2 rest next later

lemma ByteRange.start_le_stop (range : ByteRange) : range.start ≤ range.stop := by
  have := range.start_lt
  unfold ByteRange.stop
  omega

lemma ByteRange.stop_sub_lt (range : ByteRange) : range.stop - range.start < U32 := by
  have := range.len_lt
  unfold ByteRange.stop
  omega

lemma gapsInRange_scanned (range : ByteRange) (spans : List Span) (proper : ∀ s ∈ spans, s.1 < s.2)
    (clipped : Clipped range.stop range.start spans) :
    ∃ gaps, gapsInRange range spans = .ok gaps ∧
      Scanned range.start range.stop range.stop (spans.insertionSort Span.le) gaps := by
  have lt := range.stop_lt
  have short := range.stop_sub_lt
  have mem : ∀ s, s ∈ spans.insertionSort Span.le ↔ s ∈ spans :=
    fun s => (List.perm_insertionSort Span.le spans).mem_iff
  have clipped' : Clipped range.stop range.start (spans.insertionSort Span.le) := by
    unfold Clipped at clipped ⊢
    simpa only [mem] using clipped
  obtain ⟨cursor, gaps, run, scan⟩ := gapsLoop_spec lt short
    (List.pairwise_insertionSort Span.le spans) (fun s hs => proper s ((mem s).1 hs)) clipped'
    (.nil range.start_le_stop) (by simp)
  obtain ⟨gaps', run', scan', -⟩ := scan.push lt short range.stop le_rfl
  refine ⟨gaps', ?_, ?_⟩
  · unfold gapsInRange
    rw [run, Res.ok_bind]
    exact run'
  · rwa [max_eq_right scan.le_stop] at scan'

/-- For spans inside the range, `gaps_in_range` succeeds and its gaps hold exactly the bytes of the
range that no span holds. -/
lemma gapsInRange_spec (range : ByteRange) (spans : List Span)
    (bounds : ∀ s ∈ spans, range.start ≤ s.1 ∧ s.1 < s.2 ∧ s.2 ≤ range.stop) :
    ∃ gaps, gapsInRange range spans = .ok gaps ∧ Inside range.start range.stop gaps ∧
      ∀ x, (∃ g ∈ gaps, g.Has x) ↔
        range.start ≤ x ∧ x < range.stop ∧ ∀ s ∈ spans, ¬ s.Has x := by
  obtain ⟨gaps, run, scan⟩ := gapsInRange_scanned range spans (fun s hs => (bounds s hs).2.1)
    (.inr (.inl fun s hs => (bounds s hs).2.1.le.trans (bounds s hs).2.2))
  refine ⟨gaps, run, fun g hg => ⟨scan.nonempty g hg, scan.within g hg⟩, ?_⟩
  simpa only [(List.perm_insertionSort Span.le spans).mem_iff] using scan.mem

/-- Spans that are not clipped make the loop push a gap over the end of the range, if it pushes them
at all: the start of a span is compared with the start of the range only. -/
lemma gapsLoop_over_end {start stop cursor : Nat} {spans : List Span} {gaps : List ByteRange}
    {out : Nat × List ByteRange} (sorted : spans.Pairwise Span.le) (proper : ∀ s ∈ spans, s.1 < s.2)
    (le : start ≤ stop) (lt : cursor < stop) (small : stop < U64)
    (wide : ¬ Clipped stop cursor spans) (run : gapsLoop start stop spans cursor gaps = .ok out) :
    ∃ g ∈ out.2, g.Has stop := by
  induction spans generalizing cursor gaps with
  | nil => exact absurd (.inr (.inl (by simp))) wide
  | cons s spans ih =>
    obtain ⟨first, tl⟩ := List.pairwise_cons.1 sorted
    rw [List.forall_mem_cons] at proper
    have slt := proper.1
    simp only [Clipped, not_or, not_exists, not_and, not_le] at wide
    obtain ⟨-, far, short⟩ := wide
    rw [gapsLoop] at run
    by_cases early : s.1 ≤ stop
    · have inner := short s List.mem_cons_self early
      have wide' : ∀ c, c < stop → ¬ Clipped stop c spans := by
        rintro c hc (full | all | ⟨s', hs', h₁, h₂⟩)
        · omega
        · exact far (List.forall_mem_cons.2 ⟨early, all⟩)
        · exact absurd h₂ (not_le.2 (short s' (List.mem_cons_of_mem _ hs') h₁))
      by_cases skip : min s.2 stop ≤ cursor
      · rw [if_pos skip] at run
        exact ih tl proper.2 lt (wide' _ lt) run
      · rw [if_neg skip] at run
        cases pushed : pushGap gaps cursor (max s.1 start) with
        | error fault =>
          rw [pushed] at run
          cases run
        | ok gaps₁ =>
          rw [pushed, Res.ok_bind, if_neg (by omega)] at run
          exact ih tl proper.2 (by omega) (wide' _ (by omega)) run
    · rw [if_neg (by omega)] at run
      cases pushed : pushGap gaps cursor (max s.1 start) with
      | error fault =>
        rw [pushed] at run
        cases run
      | ok gaps₁ =>
        rw [pushed, Res.ok_bind, if_pos (by omega)] at run
        cases run
        rcases pushGap_cases pushed with ⟨h, -⟩ | ⟨gap, h, made, rfl⟩
        · omega
        · refine ⟨gap, List.mem_append_right _ List.mem_cons_self, ?_⟩
          have bounds := byteRangeFromBounds_eq_ok (by omega) made
          unfold ByteRange.Has
          omega

/-- The gaps of `gaps_in_range` are the exact complement of the spans in the range unless a span
starts after the end of the range and no span reaches over the end: then the last gap sticks out of
the range, or is too long to be one. -/
theorem gaps_exact_iff (range : ByteRange) (spans : List Span)
    (fits : range.start + range.len < U64) (proper : ∀ s ∈ spans, s.1 < s.2) :
    (∃ gaps, gapsInRange range spans = .ok gaps ∧
      gaps.Pairwise (fun a b => a.start + a.len ≤ b.start) ∧ (∀ g ∈ gaps, 0 < g.len) ∧
      ∀ x, (∃ g ∈ gaps, g.Has x) ↔ range.Has x ∧ ∀ s ∈ spans, ¬ s.Has x) ↔
    (range.len = 0 ∨ (∀ s ∈ spans, s.1 ≤ range.start + range.len) ∨
      ∃ s ∈ spans, s.1 ≤ range.start + range.len ∧ range.start + range.len ≤ s.2) := by
  have stop : range.stop = range.start + range.len := by
    unfold ByteRange.stop
    omega
  have mem : ∀ s, s ∈ spans.insertionSort Span.le ↔ s ∈ spans :=
    fun s => (List.perm_insertionSort Span.le spans).mem_iff
  constructor
  · rintro ⟨gaps, run, -, -, exact⟩
    by_contra wide
    rw [not_or] at wide
    have wide' : ¬ Clipped range.stop range.start (spans.insertionSort Span.le) := by
      rintro (full | rest)
      · omega
      · rw [stop] at rest
        simp only [mem] at rest
        exact wide.2 rest
    unfold gapsInRange at run
    cases looped : gapsLoop range.start range.stop (spans.insertionSort Span.le) range.start [] with
    | error fault =>
      rw [looped] at run
      cases run
    | ok out =>
      rw [looped, Res.ok_bind] at run
      obtain ⟨g, hg, has⟩ := gapsLoop_over_end (List.pairwise_insertionSort Span.le spans)
        (fun s hs => proper s ((mem s).1 hs)) range.start_le_stop (by omega) range.stop_lt wide'
          looped
      have kept : g ∈ gaps := by
        rcases pushGap_cases run with ⟨-, rfl⟩ | ⟨gap, -, -, rfl⟩
        · exact hg
        · exact List.mem_append_left _ hg
      have inside := ((exact range.stop).1 ⟨g, kept, has⟩).1
      unfold ByteRange.Has at inside
      omega
  · intro clipped
    rw [← stop] at clipped
    obtain ⟨gaps, run, scan⟩ := gapsInRange_scanned range spans proper
      (clipped.imp_left fun empty => by omega)
    refine ⟨gaps, run, scan.ascending, scan.nonempty, fun x => ?_⟩
    have all := scan.mem x
    simp only [mem] at all
    rw [all, stop, ByteRange.Has, and_assoc]

/-- The only gap of `[0, 4)` beside the span `[10, 12)` is `[0, 10)`, which sticks out of the
range. -/
theorem gaps_over_end :
    gapsInRange (.new 0 4) [(10, 12)] = .ok [.new 0 10] ∧
      (ByteRange.new 0 10).Has 9 ∧ ¬ (ByteRange.new 0 4).Has 9 := by
  decide +kernel

/-- Spans that stick out of the range on both sides are clipped. -/
theorem gaps_exact_iff_clipped :
    ∃ gaps, gapsInRange (.new 4 4) [(7, 20), (0, 5)] = .ok gaps ∧
      gaps.Pairwise (fun a b => a.start + a.len ≤ b.start) ∧ (∀ g ∈ gaps, 0 < g.len) ∧
      ∀ x, (∃ g ∈ gaps, g.Has x) ↔
        (ByteRange.new 4 4).Has x ∧ ∀ s ∈ ([(7, 20), (0, 5)] : List Span), ¬ s.Has x :=
  (gaps_exact_iff (.new 4 4) [(7, 20), (0, 5)] (by decide) (by decide)).2
    (.inr (.inl (by decide)))

end NbdServer
