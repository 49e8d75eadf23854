import NbdServer.Core.Error
import NbdServer.Lib.IntervalMap

/-!
# Extent maps

Model of `engines/wal_durable/extent_map.rs`. The `BTreeMap` from extent starts is the ordered entry
list of `Lib.IntervalMap`; the range queries `range(..=start)` and `range(start..)` of the source
are `previous` and `rangeFrom`. Every operation keeps the source's steps: overlapping extents are
removed key by key, and the tails that stick out of the removed range are inserted again.

`overlapping_eq`, `insertExact_eq`, `removeRangeWithSplit_spec` and `insertOverwriteWithSplit_spec`
say what the operations do; callers use these and never unfold the operations.
-/

namespace NbdServer

open Lib

/-- Rust `ExtentEntry` and `ExtentRef`. -/
abbrev ExtentEntry (V : Type) := Entry V

/-- Rust `ExtentMap`. -/
abbrev ExtentMap (V : Type) := IntervalMap V

/-- Rust `invalid_extent`. -/
def invalidExtent (message : String) : ServerError := .wal "extent map" message

/-- Rust `validate_extent`. -/
def validateExtent (start stop : Nat) : Res Unit :=
  if start ≥ stop then
    fail (invalidExtent s!"extent start {start} must be before end {stop}")
  else .ok ()

lemma validateExtent_of_lt {start stop : Nat} (h : start < stop) :
    validateExtent start stop = .ok () :=
  if_neg (by omega)

namespace ExtentMap

variable {V : Type}

/-- The last extent that starts at or before `start` (Rust `range(..=start).next_back()`). -/
def previous (m : ExtentMap V) (start : Nat) : Option (ExtentEntry V) :=
  (m.entries.filter (·.start ≤ start)).getLast?

/-- The extents that start at or after `start` (Rust `range(start..)`). -/
def rangeFrom (m : ExtentMap V) (start : Nat) : List (ExtentEntry V) :=
  m.entries.filter (start ≤ ·.start)

/-- The body of the loop in `overlapping`: the extent found by `previous` is not listed twice. -/
def pushRef (refs : List (ExtentEntry V)) (extent : ExtentEntry V) : List (ExtentEntry V) :=
  if refs.getLast?.map (·.start) = some extent.start then refs else refs ++ [extent]

/-- The extent `overlapping` lists first: one that starts at or before `start` and reaches past
it. -/
def firstRef (m : ExtentMap V) (start : Nat) : List (ExtentEntry V) :=
  match m.previous start with
  | some extent => if extent.stop > start then [extent] else []
  | none => []

/-- Rust `ExtentMap::overlapping`. -/
def overlapping (m : ExtentMap V) (start stop : Nat) : Res (List (ExtentEntry V)) :=
  if start = stop then .ok []
  else do
    validateExtent start stop
    .ok (((m.rangeFrom start).takeWhile (·.start < stop)).foldl pushRef (m.firstRef start))

/-- The first check of `ensure_no_overlap`: the extent on the left ends before the new one. -/
def ensurePrevious (m : ExtentMap V) (start stop : Nat) : Res Unit :=
  match m.previous start with
  | some previous =>
    if previous.stop > start then
      fail (invalidExtent
        s!"new extent [{start}, {stop}) overlaps existing [{previous.start}, {previous.stop})")
    else .ok ()
  | none => .ok ()

/-- The second check of `ensure_no_overlap`: the extent on the right starts after the new one. -/
def ensureNext (m : ExtentMap V) (start stop : Nat) : Res Unit :=
  match (m.rangeFrom start).head? with
  | some next =>
    if next.start < stop then
      fail (invalidExtent
        s!"new extent [{start}, {stop}) overlaps existing [{next.start}, {next.stop})")
    else .ok ()
  | none => .ok ()

/-- Rust `ExtentMap::ensure_no_overlap`. -/
def ensureNoOverlap (m : ExtentMap V) (start stop : Nat) : Res Unit := do
  m.ensurePrevious start stop
  m.ensureNext start stop

lemma previous_eq_some {m : ExtentMap V} {start : Nat} {p} (h : m.previous start = some p) :
    p ∈ m.entries ∧ p.start ≤ start ∧
      ∀ a ∈ m.entries, a.start ≤ start → a = p ∨ a.stop ≤ p.start := by
  have mem := List.mem_of_getLast? h
  obtain ⟨hp, le⟩ := List.mem_filter.1 mem
  refine ⟨hp, by simpa using le, ?_⟩
  intro a ha ale
  rcases m.apart ha hp with e | e | e
  · exact .inl e
  · exact .inr e
  · -- an extent after the last one of the list cannot be in it
    exfalso
    have hmem : a ∈ m.entries.filter (·.start ≤ start) := List.mem_filter.2 ⟨ha, by simpa using ale⟩
    obtain ⟨l, hl⟩ := List.getLast?_eq_some_iff.1 h
    have ord := m.ordered.filter (·.start ≤ start)
    rw [hl] at ord hmem
    rcases List.mem_append.1 hmem with hm | hm
    · have h₁ := (List.pairwise_append.1 ord).2.2 a hm p (by simp)
      have h₂ := a.lt
      have h₃ := p.lt
      omega
    · rw [List.mem_singleton] at hm
      subst hm
      have h₂ := a.lt
      omega

lemma previous_eq_none {m : ExtentMap V} {start : Nat} (h : m.previous start = none) :
    ∀ a ∈ m.entries, start < a.start := by
  intro a ha
  have := List.getLast?_eq_none_iff.1 h
  have := List.filter_eq_nil_iff.1 this a ha
  simpa using this

lemma rangeFrom_head {m : ExtentMap V} {start : Nat} {p} (h : (m.rangeFrom start).head? = some p) :
    p ∈ m.entries ∧ start ≤ p.start ∧
      ∀ a ∈ m.entries, start ≤ a.start → a = p ∨ p.stop ≤ a.start := by
  obtain ⟨l, hl⟩ := List.head?_eq_some_iff.1 h
  have mem : p ∈ m.entries.filter (start ≤ ·.start) := by
    show p ∈ m.rangeFrom start
    rw [hl]
    exact List.mem_cons_self
  obtain ⟨hp, le⟩ := List.mem_filter.1 mem
  refine ⟨hp, by simpa using le, ?_⟩
  intro a ha ale
  have hmem : a ∈ m.rangeFrom start := List.mem_filter.2 ⟨ha, by simpa using ale⟩
  have ord : (m.rangeFrom start).Pairwise fun a b => a.stop ≤ b.start := m.ordered.filter _
  rw [hl] at ord hmem
  rcases List.mem_cons.1 hmem with e | hm
  · exact .inl e
  · exact .inr ((List.pairwise_cons.1 ord).1 a hm)

lemma rangeFrom_head_none {m : ExtentMap V} {start : Nat} (h : (m.rangeFrom start).head? = none) :
    ∀ a ∈ m.entries, a.start < start := by
  intro a ha
  have := List.filter_eq_nil_iff.1 (List.head?_eq_none_iff.1 h) a ha
  simpa using this

lemma ensurePrevious_eq_ok {m : ExtentMap V} {start stop : Nat} :
    m.ensurePrevious start stop = .ok () ↔ ∀ a ∈ m.entries, a.start ≤ start → a.stop ≤ start := by
  unfold ensurePrevious
  cases hp : m.previous start with
  | none =>
    have none := previous_eq_none hp
    refine ⟨?_, fun _ => rfl⟩
    intro _ a ha le
    have := none a ha
    omega
  | some p =>
    obtain ⟨mem, le, all⟩ := previous_eq_some hp
    have plt := p.lt
    constructor
    · intro h a ha ale
      have hps : p.stop ≤ start := by
        by_contra gt
        simp [show start < p.stop by omega, fail] at h
      rcases all a ha ale with e | e
      · subst e
        exact hps
      · omega
    · intro h
      have := h p mem le
      exact if_neg (by omega)

lemma ensureNext_eq_ok {m : ExtentMap V} {start stop : Nat} :
    m.ensureNext start stop = .ok () ↔ ∀ a ∈ m.entries, start ≤ a.start → stop ≤ a.start := by
  unfold ensureNext
  cases hn : (m.rangeFrom start).head? with
  | none =>
    have none := rangeFrom_head_none hn
    refine ⟨?_, fun _ => rfl⟩
    intro _ a ha le
    have := none a ha
    omega
  | some n =>
    obtain ⟨mem, le, all⟩ := rangeFrom_head hn
    have nlt := n.lt
    constructor
    · intro h a ha ale
      have hns : stop ≤ n.start := by
        by_contra gt
        simp [show n.start < stop by omega, fail] at h
      rcases all a ha ale with e | e
      · subst e
        exact hns
      · omega
    · intro h
      have := h n mem le
      exact if_neg (by omega)

lemma ensureNoOverlap_eq_ok {m : ExtentMap V} {start stop : Nat} (lt : start < stop) :
    m.ensureNoOverlap start stop = .ok () ↔
      ∀ a ∈ m.entries, a.stop ≤ start ∨ stop ≤ a.start := by
  unfold ensureNoOverlap
  rw [Res.bind_eq_ok]
  constructor
  · rintro ⟨_, h₁, h₂⟩ a ha
    rcases le_or_gt a.start start with le | gt
    · exact .inl (ensurePrevious_eq_ok.1 h₁ a ha le)
    · exact .inr (ensureNext_eq_ok.1 h₂ a ha gt.le)
  · intro h
    refine ⟨(), ensurePrevious_eq_ok.2 ?_, ensureNext_eq_ok.2 ?_⟩
    · intro a ha le
      rcases h a ha with e | e <;> omega
    · intro a ha le
      have := a.lt
      rcases h a ha with e | e <;> omega

/-- Rust `ExtentMap::insert_exact`. -/
def insertExact (m : ExtentMap V) (start stop : Nat) (value : V) : Res (ExtentMap V) :=
  if lt : start < stop then
    match ok : m.ensureNoOverlap start stop with
    | .error fault => .error fault
    | .ok () => .ok (m.insert ⟨start, stop, value, lt⟩ ((ensureNoOverlap_eq_ok lt).1 ok))
  else do
    validateExtent start stop
    .ok m

lemma insertExact_eq {m : ExtentMap V} {start stop : Nat} {value : V} (lt : start < stop)
    (h : ∀ a ∈ m.entries, a.stop ≤ start ∨ stop ≤ a.start) :
    m.insertExact start stop value = .ok (m.insert ⟨start, stop, value, lt⟩ h) := by
  unfold insertExact
  rw [dif_pos lt]
  split
  · rename_i e
    rw [(ensureNoOverlap_eq_ok lt).2 h] at e
    cases e
  · rfl

/-- Remove the extent with key `start` (Rust `BTreeMap::remove`). -/
def remove (m : ExtentMap V) (start : Nat) : Option (ExtentEntry V × ExtentMap V) :=
  (m.entries.find? (·.start = start)).map fun extent => (extent, m.filter (·.start ≠ start))

/-- The loop of `remove_overlapping` over the keys. -/
def removeKeys (m : ExtentMap V) : List Nat → Res (ExtentMap V × List (ExtentEntry V))
  | [] => .ok (m, [])
  | key :: keys => do
    let (extent, m) ← okOr (m.remove key)
      (invalidExtent s!"overlapping extent at {key} disappeared")
    let (m, removed) ← m.removeKeys keys
    .ok (m, extent :: removed)

/-- Rust `ExtentMap::remove_overlapping`. -/
def removeOverlapping (m : ExtentMap V) (start stop : Nat) :
    Res (ExtentMap V × List (ExtentEntry V)) := do
  let keys := (← m.overlapping start stop).map (·.start)
  m.removeKeys keys

/-- The left half of the loop body of `reinsert_tails`. -/
def reinsertLeft (m : ExtentMap V) (start : Nat) (extent : ExtentEntry V) (split : V → Nat → V) :
    Res (ExtentMap V) :=
  if extent.start < start then m.insertExact extent.start start (split extent.value 0) else .ok m

/-- The right half of the loop body of `reinsert_tails`. -/
def reinsertRight (m : ExtentMap V) (stop : Nat) (extent : ExtentEntry V) (split : V → Nat → V) :
    Res (ExtentMap V) :=
  if extent.stop > stop then do
    let delta ← okOr (checkedSub stop extent.start)
      (invalidExtent "right tail starts before removed extent start")
    m.insertExact stop extent.stop (split extent.value delta)
  else .ok m

/-- Rust `ExtentMap::reinsert_tails`. -/
def reinsertTails (m : ExtentMap V) (start stop : Nat) (split : V → Nat → V) :
    List (ExtentEntry V) → Res (ExtentMap V)
  | [] => .ok m
  | extent :: removed => do
    let m ← m.reinsertLeft start extent split
    let m ← m.reinsertRight stop extent split
    m.reinsertTails start stop split removed

/-- Rust `ExtentMap::insert_overwrite_with_split`. -/
def insertOverwriteWithSplit (m : ExtentMap V) (start stop : Nat) (value : V)
    (split : V → Nat → V) :
    Res (ExtentMap V × List (ExtentEntry V)) := do
  validateExtent start stop
  let (m, removed) ← m.removeOverlapping start stop
  let m ← m.reinsertTails start stop split removed
  let m ← m.insertExact start stop value
  .ok (m, removed)

/-- Rust `ExtentMap::remove_range_with_split`. -/
def removeRangeWithSplit (m : ExtentMap V) (start stop : Nat) (split : V → Nat → V) :
    Res (ExtentMap V × List (ExtentEntry V)) :=
  if start = stop then .ok (m, [])
  else do
    validateExtent start stop
    let (m, removed) ← m.removeOverlapping start stop
    let m ← m.reinsertTails start stop split removed
    .ok (m, removed)

/-! ## What the operations do -/

lemma foldl_pushRef {refs l : List (ExtentEntry V)}
    (h : (refs ++ l).Pairwise fun a b => a.start < b.start) : l.foldl pushRef refs = refs ++ l := by
  induction l generalizing refs with
  | nil => simp
  | cons e l ih =>
    have push : pushRef refs e = refs ++ [e] := by
      apply if_neg
      intro eq
      obtain ⟨p, hp, hpe⟩ := Option.map_eq_some_iff.1 eq
      have := (List.pairwise_append.1 h).2.2 p (List.mem_of_getLast? hp) e List.mem_cons_self
      omega
    rw [List.foldl_cons, push, ih (by simpa using h)]
    simp

lemma filter_meets_left {l : List (ExtentEntry V)} {start stop : Nat} (lt : start < stop)
    (ord : l.Pairwise fun a b => a.stop ≤ b.start) (h : ∀ a ∈ l, a.start < start) :
    l.filter (·.Meets start stop) =
      match l.getLast? with
      | some e => if e.stop > start then [e] else []
      | none => [] := by
  induction l using List.reverseRecOn with
  | nil => rfl
  | append_singleton l e _ =>
    have he := h e (by simp)
    have none : l.filter (·.Meets start stop) = [] := by
      rw [List.filter_eq_nil_iff]
      intro a ha
      have h₁ := (List.pairwise_append.1 ord).2.2 a ha e (by simp)
      simp only [decide_eq_true_eq]
      intro meets
      have := meets.2
      omega
    rw [List.filter_append, none, List.getLast?_concat]
    by_cases gt : e.stop > start
    · simp [Entry.Meets, gt, show e.start < stop by omega]
    · simp [Entry.Meets, gt]

lemma filter_meets_right {l : List (ExtentEntry V)} {start stop : Nat}
    (ord : l.Pairwise fun a b => a.stop ≤ b.start) (h : ∀ a ∈ l, start ≤ a.start) :
    l.filter (·.Meets start stop) = l.takeWhile (·.start < stop) := by
  induction l with
  | nil => rfl
  | cons e l ih =>
    obtain ⟨hd, tl⟩ := List.pairwise_cons.1 ord
    have he := h e List.mem_cons_self
    have elt := e.lt
    by_cases lt : e.start < stop
    · rw [List.filter_cons_of_pos (by simp [Entry.Meets, lt]; omega),
        List.takeWhile_cons_of_pos (by simpa using lt),
        ih tl fun a ha => h a (List.mem_cons_of_mem _ ha)]
    · rw [List.takeWhile_cons_of_neg (by simpa using lt), List.filter_eq_nil_iff]
      intro a ha
      simp only [decide_eq_true_eq]
      rcases List.mem_cons.1 ha with rfl | ha
      · exact fun meets => lt meets.1
      · have := hd a ha
        intro meets
        have := meets.1
        omega

lemma entries_split (m : ExtentMap V) (start : Nat) :
    m.entries = m.entries.filter (·.start < start) ++ m.rangeFrom start := by
  obtain ⟨l, ord⟩ := m
  unfold rangeFrom
  induction l with
  | nil => rfl
  | cons e l ih =>
    obtain ⟨hd, tl⟩ := List.pairwise_cons.1 ord
    have ih := ih tl
    simp only at ih ⊢
    by_cases lt : e.start < start
    · rw [List.filter_cons_of_pos (by simpa using lt), List.filter_cons_of_neg (by simpa using lt),
        List.cons_append, ← ih]
    · have none : l.filter (·.start < start) = [] := by
        rw [List.filter_eq_nil_iff]
        intro a ha
        have h₁ := hd a ha
        have h₂ := e.lt
        simp only [decide_eq_true_eq]
        omega
      rw [none, List.nil_append] at ih
      rw [List.filter_cons_of_neg (by simpa using lt), none,
        List.filter_cons_of_pos (by simpa using lt), ← ih, List.nil_append]

lemma ascending (m : ExtentMap V) : m.entries.Pairwise fun a b => a.start < b.start :=
  m.ordered.imp fun {a _} h => a.lt.trans_le h

lemma overlapping_eq {m : ExtentMap V} {start stop : Nat} (lt : start < stop) :
    m.overlapping start stop = .ok (m.entries.filter (·.Meets start stop)) := by
  have left : ∀ a ∈ m.entries.filter (·.start < start), a.start < start := by
    intro a ha
    simpa using (List.mem_filter.1 ha).2
  have right : ∀ a ∈ m.rangeFrom start, start ≤ a.start := by
    intro a ha
    simpa using (List.mem_filter.1 ha).2
  have meets : m.entries.filter (·.Meets start stop) =
      (m.entries.filter (·.start < start)).filter (·.Meets start stop) ++
        (m.rangeFrom start).takeWhile (·.start < stop) := by
    have ord : (m.rangeFrom start).Pairwise fun a b => a.stop ≤ b.start := m.ordered.filter _
    rw [← filter_meets_right ord right, ← List.filter_append, ← entries_split]
  unfold overlapping
  rw [if_neg (by omega), validateExtent_of_lt lt, Res.ok_bind, meets]
  congr 1
  have asc := m.ascending
  rw [entries_split m start] at asc
  by_cases at_start : ∃ b ∈ m.rangeFrom start, b.start = start
  · -- an extent that starts at `start` is found by both queries and pushed once
    obtain ⟨b, hb, hbs⟩ := at_start
    have hbm : b ∈ m.entries := (List.mem_filter.1 hb).1
    have prev : m.previous start = some b := by
      cases hp : m.previous start with
      | none =>
        have := previous_eq_none hp b hbm
        omega
      | some p =>
        obtain ⟨-, ple, all⟩ := previous_eq_some hp
        have := b.lt
        rcases all b hbm (by omega) with e | e
        · rw [e]
        · omega
    have head : ∃ l, m.rangeFrom start = b :: l := by
      cases hl : m.rangeFrom start with
      | nil => rw [hl] at hb; cases hb
      | cons c l =>
        rcases (List.mem_cons.1 (hl ▸ hb)) with e | e
        · exact ⟨l, by rw [e]⟩
        · rw [hl] at asc
          have h₁ := (List.pairwise_cons.1 (List.pairwise_append.1 asc).2.1).1 b e
          have h₂ := right c (hl ▸ List.mem_cons_self)
          omega
    obtain ⟨l, hl⟩ := head
    have none : (m.entries.filter (·.start < start)).filter (·.Meets start stop) = [] := by
      rw [List.filter_eq_nil_iff]
      intro a ha
      have h₁ : a.stop ≤ b.start := by
        have ord := m.ordered
        rw [entries_split m start] at ord
        exact (List.pairwise_append.1 ord).2.2 a ha b hb
      simp only [decide_eq_true_eq]
      intro h
      have := h.2
      omega
    have first : m.firstRef start = [b] := by
      have := b.lt
      unfold firstRef
      rw [prev]
      exact if_pos (by omega)
    have once : pushRef [b] b = [b] := if_pos rfl
    rw [first, none, hl, List.takeWhile_cons_of_pos (by simp [hbs, lt]), List.foldl_cons, once,
      foldl_pushRef]
    · rfl
    · rw [hl] at asc
      refine (List.pairwise_append.1 asc).2.1.sublist ?_
      exact (List.takeWhile_sublist _).cons_cons b
  · -- otherwise the extent before `start` is pushed only if it reaches into the range
    have above : ∀ a ∈ m.rangeFrom start, ¬ a.start ≤ start := by
      intro a ha le
      exact at_start ⟨a, ha, le_antisymm le (right a ha)⟩
    have prev : m.previous start = (m.entries.filter (·.start < start)).getLast? := by
      unfold previous
      congr 1
      conv_lhs => rw [entries_split m start]
      have none : (m.rangeFrom start).filter (·.start ≤ start) = [] := by
        rw [List.filter_eq_nil_iff]
        intro a ha
        simpa using above a ha
      rw [List.filter_append, none, List.append_nil, List.filter_eq_self.2]
      intro a ha
      simpa using (left a ha).le
    have first : m.firstRef start =
        (m.entries.filter (·.start < start)).filter (·.Meets start stop) := by
      unfold firstRef
      rw [prev, ← filter_meets_left lt (m.ordered.filter _) left]
    rw [first, foldl_pushRef]
    refine asc.sublist ?_
    exact (List.filter_sublist).append (List.takeWhile_sublist _)

lemma remove_eq {m : ExtentMap V} {e} (he : e ∈ m.entries) :
    m.remove e.start = some (e, m.filter (·.start ≠ e.start)) := by
  unfold remove
  cases h : m.entries.find? (·.start = e.start) with
  | none =>
    have := List.find?_eq_none.1 h e he
    simp at this
  | some a =>
    have ha := List.mem_of_find?_eq_some h
    have hs : a.start = e.start := by simpa using List.find?_some h
    have : a = e := by
      refine m.eq_of_has ha he (x := e.start) ?_ ?_
      · exact ⟨hs.le, hs ▸ a.lt⟩
      · exact ⟨le_rfl, e.lt⟩
    rw [this]
    rfl

lemma removeKeys_spec {m : ExtentMap V} {l : List (ExtentEntry V)} (nodup : l.Nodup)
    (sub : ∀ e ∈ l, e ∈ m.entries) :
    ∃ m', m.removeKeys (l.map (·.start)) = .ok (m', l) ∧
      ∀ a, a ∈ m'.entries ↔ a ∈ m.entries ∧ a ∉ l := by
  induction l generalizing m with
  | nil => exact ⟨m, rfl, by simp⟩
  | cons e l ih =>
    obtain ⟨hd, tl⟩ := List.nodup_cons.1 nodup
    have he := sub e List.mem_cons_self
    have key : ∀ a ∈ m.entries, a.start = e.start ↔ a = e := by
      intro a ha
      refine ⟨fun hs => ?_, fun h => h ▸ rfl⟩
      refine m.eq_of_has ha he (x := e.start) ?_ ?_
      · exact ⟨hs.le, hs ▸ a.lt⟩
      · exact ⟨le_rfl, e.lt⟩
    obtain ⟨m', run, mem⟩ := ih (m := m.filter (·.start ≠ e.start)) tl (by
      intro a ha
      have hm := sub a (List.mem_cons_of_mem _ ha)
      refine List.mem_filter.2 ⟨hm, ?_⟩
      simp only [ne_eq, key a hm, decide_not, Bool.not_eq_eq_eq_not, Bool.not_true,
        decide_eq_false_iff_not]
      rintro rfl
      exact hd ha)
    refine ⟨m', ?_, ?_⟩
    · rw [List.map_cons, removeKeys, remove_eq he, okOr_some, Res.ok_bind]
      simp only [run, Res.ok_bind]
    · intro a
      rw [mem, IntervalMap.filter, List.mem_filter, List.mem_cons]
      by_cases hm : a ∈ m.entries
      · simp [key a hm, hm]
      · simp [hm]

lemma removeOverlapping_eq {m : ExtentMap V} {start stop : Nat} (lt : start < stop) :
    m.removeOverlapping start stop =
      .ok (m.filter (¬ ·.Meets start stop), m.entries.filter (·.Meets start stop)) := by
  obtain ⟨m', run, mem⟩ := removeKeys_spec (m := m) (l := m.entries.filter (·.Meets start stop))
    (m.nodup.filter _) fun e he => (List.mem_filter.1 he).1
  unfold removeOverlapping
  rw [overlapping_eq lt, Res.ok_bind, run]
  congr 2
  apply IntervalMap.ext_mem
  intro a
  rw [mem, IntervalMap.filter, List.mem_filter, List.mem_filter]
  by_cases hm : a ∈ m.entries <;> simp [hm]

/-- `y` is one of the parts of `x` outside of `[start, stop)`. -/
def Tail (start stop : Nat) (split : V → Nat → V) (x y : ExtentEntry V) : Prop :=
  (x.start < start ∧ y.start = x.start ∧ y.stop = start ∧ y.value = split x.value 0) ∨
  (stop < x.stop ∧ y.start = stop ∧ y.stop = x.stop ∧ y.value = split x.value (stop - x.start))

lemma Tail.bounds {start stop : Nat} {split : V → Nat → V} {x y : ExtentEntry V}
    (meets : x.Meets start stop) (h : Tail start stop split x y) :
    x.start ≤ y.start ∧ y.stop ≤ x.stop ∧ (y.stop ≤ start ∨ stop ≤ y.start) := by
  obtain ⟨h₁, h₂⟩ := meets
  rcases h with ⟨h₃, h₄, h₅, -⟩ | ⟨h₃, h₄, h₅, -⟩ <;> omega

lemma reinsertTails_spec (m : ExtentMap V) {start stop : Nat} (split : V → Nat → V)
    {removed : List (ExtentEntry V)} (lt : start < stop)
    (meets : ∀ x ∈ removed, x.Meets start stop)
    (ordered : removed.Pairwise fun a b => a.stop ≤ b.start)
    (clear : ∀ a ∈ m.entries, a.stop ≤ start ∨ stop ≤ a.start)
    (apart : ∀ a ∈ m.entries, ∀ x ∈ removed, a.stop ≤ x.start ∨ x.stop ≤ a.start) :
    ∃ m', m.reinsertTails start stop split removed = .ok m' ∧
      ∀ y, y ∈ m'.entries ↔ y ∈ m.entries ∨ ∃ x ∈ removed, Tail start stop split x y := by
  induction removed generalizing m with
  | nil => exact ⟨m, rfl, by simp⟩
  | cons x removed ih =>
    obtain ⟨hd, tl⟩ := List.pairwise_cons.1 ordered
    obtain ⟨hx₁, hx₂⟩ := meets x List.mem_cons_self
    -- the left tail
    obtain ⟨m₁, run₁, mem₁⟩ : ∃ m₁, m.reinsertLeft start x split = .ok m₁ ∧
        ∀ y, y ∈ m₁.entries ↔ y ∈ m.entries ∨
          (x.start < start ∧ y.start = x.start ∧ y.stop = start ∧ y.value = split x.value 0) := by
      unfold reinsertLeft
      by_cases left : x.start < start
      · rw [if_pos left, insertExact_eq left]
        · refine ⟨_, rfl, ?_⟩
          intro y
          rw [IntervalMap.mem_insert, or_comm]
          refine or_congr_right ?_
          constructor
          · rintro rfl
            exact ⟨left, rfl, rfl, rfl⟩
          · rintro ⟨-, h₁, h₂, h₃⟩
            exact Entry.eq_of h₁ h₂ h₃
        · intro a ha
          have h₁ := clear a ha
          have h₂ := apart a ha x List.mem_cons_self
          have h₃ := a.lt
          omega
      · rw [if_neg left]
        exact ⟨m, rfl, by simp [left]⟩
    -- the right tail
    obtain ⟨m₂, run₂, mem₂⟩ : ∃ m₂, m₁.reinsertRight stop x split = .ok m₂ ∧
        ∀ y, y ∈ m₂.entries ↔ y ∈ m₁.entries ∨
          (stop < x.stop ∧ y.start = stop ∧ y.stop = x.stop ∧
            y.value = split x.value (stop - x.start)) := by
      unfold reinsertRight
      by_cases right : x.stop > stop
      · rw [if_pos right, checkedSub_of_le (by omega), okOr_some, Res.ok_bind, insertExact_eq right]
        · refine ⟨_, rfl, ?_⟩
          intro y
          rw [IntervalMap.mem_insert, or_comm]
          refine or_congr_right ?_
          constructor
          · rintro rfl
            exact ⟨right, rfl, rfl, rfl⟩
          · rintro ⟨-, h₁, h₂, h₃⟩
            exact Entry.eq_of h₁ h₂ h₃
        · intro a ha
          rcases (mem₁ a).1 ha with ha | ⟨_, h₁, h₂, _⟩
          · have h₁ := clear a ha
            have h₂ := apart a ha x List.mem_cons_self
            have h₃ := a.lt
            omega
          · omega
      · rw [if_neg right]
        exact ⟨m₁, rfl, by simp [show ¬ stop < x.stop from right]⟩
    -- what was added lies inside `x`, so it is apart from the other removed extents
    have added : ∀ a ∈ m₂.entries, a ∈ m.entries ∨ Tail start stop split x a := by
      intro a ha
      rcases (mem₂ a).1 ha with ha | h
      · rcases (mem₁ a).1 ha with ha | h
        · exact .inl ha
        · exact .inr (.inl h)
      · exact .inr (.inr h)
    obtain ⟨m', run, mem⟩ := ih m₂ (fun y hy => meets y (List.mem_cons_of_mem _ hy)) tl
      (by
        intro a ha
        rcases added a ha with ha | h
        · exact clear a ha
        · exact (h.bounds ⟨hx₁, hx₂⟩).2.2)
      (by
        intro a ha y hy
        rcases added a ha with ha | h
        · exact apart a ha y (List.mem_cons_of_mem _ hy)
        · have h₁ := hd y hy
          have h₂ := (h.bounds ⟨hx₁, hx₂⟩).2.1
          omega)
    refine ⟨m', ?_, ?_⟩
    · rw [reinsertTails, run₁, Res.ok_bind, run₂, Res.ok_bind, run]
    · intro y
      rw [mem, mem₂, mem₁]
      rw [List.exists_mem_cons_iff, ← or_assoc, or_assoc (a := y ∈ m.entries)]
      rfl

/-- What is left of a map when `[start, stop)` is taken out. -/
structure Cut (m m' : ExtentMap V) (start stop : Nat) (split : V → Nat → V) : Prop where
  mem : ∀ y, y ∈ m'.entries ↔ (y ∈ m.entries ∧ ¬ y.Meets start stop) ∨
    ∃ x ∈ m.entries, x.Meets start stop ∧ Tail start stop split x y

lemma Cut.forall {m m' : ExtentMap V} {start stop : Nat} {split : V → Nat → V}
    {p : ExtentEntry V → Prop} (cut : Cut m m' start stop split) (all : ∀ e ∈ m.entries, p e)
    (tails : ∀ x y, p x → x.Meets start stop → Tail start stop split x y → p y) :
    ∀ e ∈ m'.entries, p e := by
  intro e he
  rcases (cut.mem e).1 he with ⟨he, -⟩ | ⟨x, hx, meets, tail⟩
  · exact all e he
  · exact tails x e (all x hx) meets tail

lemma reinsert_removed (m : ExtentMap V) {start stop : Nat} (split : V → Nat → V)
    (lt : start < stop) :
    ∃ m', reinsertTails (m.filter (¬ ·.Meets start stop)) start stop split
        (m.entries.filter (·.Meets start stop)) = .ok m' ∧ Cut m m' start stop split := by
  have meets : ∀ x ∈ m.entries.filter (·.Meets start stop), x ∈ m.entries ∧ x.Meets start stop := by
    intro x hx
    simpa using List.mem_filter.1 hx
  have clear : ∀ a ∈ (m.filter (¬ ·.Meets start stop)).entries,
      a ∈ m.entries ∧ ¬ a.Meets start stop := by
    intro a ha
    simpa [IntervalMap.filter] using ha
  obtain ⟨m', run, mem⟩ := reinsertTails_spec (m.filter (¬ ·.Meets start stop)) split lt
    (fun x hx => (meets x hx).2) (m.ordered.filter _)
    (by
      intro a ha
      have := (clear a ha).2
      unfold Entry.Meets at this
      omega)
    (by
      intro a ha x hx
      rcases m.apart (clear a ha).1 (meets x hx).1 with e | e
      · subst e
        exact absurd (meets a hx).2 (clear a ha).2
      · exact e)
  refine ⟨m', run, ⟨?_⟩⟩
  intro y
  rw [mem]
  refine or_congr ?_ ?_
  · simp [IntervalMap.filter]
  · simp [List.mem_filter, and_assoc]

/-- `remove_range_with_split` succeeds on a non-empty range, takes it out of the map and returns the
extents that met it. -/
lemma removeRangeWithSplit_spec (m : ExtentMap V) {start stop : Nat} (split : V → Nat → V)
    (lt : start < stop) :
    ∃ m', m.removeRangeWithSplit start stop split =
    .ok (m', m.entries.filter (·.Meets start stop)) ∧
      Cut m m' start stop split := by
  obtain ⟨m', run, cut⟩ := reinsert_removed m split lt
  refine ⟨m', ?_, cut⟩
  unfold removeRangeWithSplit
  rw [if_neg (by omega), validateExtent_of_lt lt, Res.ok_bind, removeOverlapping_eq lt, Res.ok_bind]
  simp only [run, Res.ok_bind]

/-- Taking a range out keeps the value at every other offset. The splitting function has to be
additive, as those of both users of the map are. -/
lemma Cut.valueAt {m m' : ExtentMap V} {start stop : Nat} {split : V → Nat → V}
    (add : ∀ v a b, split (split v a) b = split v (a + b)) (cut : Cut m m' start stop split)
    (x : Nat) :
    m'.valueAt split x = if start ≤ x ∧ x < stop then none else m.valueAt split x := by
  by_cases inside : start ≤ x ∧ x < stop
  · rw [if_pos inside, IntervalMap.valueAt_eq_none]
    rintro y hy ⟨h₁, h₂⟩
    rcases (cut.mem y).1 hy with ⟨-, meets⟩ | ⟨e, -, meets, tail⟩
    · exact meets ⟨by omega, by omega⟩
    · have := (tail.bounds meets).2.2
      omega
  · rw [if_neg inside]
    apply Option.ext
    intro v
    rw [IntervalMap.valueAt_eq_some, IntervalMap.valueAt_eq_some]
    constructor
    · rintro ⟨y, hy, ⟨h₁, h₂⟩, rfl⟩
      rcases (cut.mem y).1 hy with ⟨hy, -⟩ | ⟨e, he, ⟨h₃, h₄⟩, tail⟩
      · exact ⟨y, hy, ⟨h₁, h₂⟩, rfl⟩
      · refine ⟨e, he, ?_⟩
        rcases tail with ⟨h₅, hs, ht, hv⟩ | ⟨h₅, hs, ht, hv⟩
        · refine ⟨⟨by omega, by omega⟩, ?_⟩
          rw [hv, add, hs, Nat.zero_add]
        · refine ⟨⟨by omega, by omega⟩, ?_⟩
          rw [hv, add, hs]
          congr 1
          omega
    · rintro ⟨e, he, ⟨h₁, h₂⟩, rfl⟩
      by_cases meets : e.Meets start stop
      · -- `x` lies in the left or in the right tail
        obtain ⟨h₃, h₄⟩ := meets
        by_cases left : x < start
        · refine ⟨⟨e.start, start, split e.value 0, by omega⟩, ?_, ⟨h₁, left⟩, ?_⟩
          · exact (cut.mem _).2 (.inr ⟨e, he, ⟨h₃, h₄⟩, .inl ⟨by omega, rfl, rfl, rfl⟩⟩)
          · rw [add, Nat.zero_add]
        · refine ⟨⟨stop, e.stop, split e.value (stop - e.start), by omega⟩, ?_, ?_, ?_⟩
          · exact (cut.mem _).2 (.inr ⟨e, he, ⟨h₃, h₄⟩, .inr ⟨by omega, rfl, rfl, rfl⟩⟩)
          · exact ⟨show stop ≤ x by omega, h₂⟩
          · rw [add]
            congr 1
            show x - e.start = stop - e.start + (x - stop)
            omega
      · exact ⟨e, (cut.mem e).2 (.inl ⟨he, meets⟩), ⟨h₁, h₂⟩, rfl⟩

lemma Cut.clear {m m' : ExtentMap V} {start stop : Nat} {split : V → Nat → V}
    (cut : Cut m m' start stop split) :
    ∀ a ∈ m'.entries, a.stop ≤ start ∨ stop ≤ a.start := by
  intro a ha
  rcases (cut.mem a).1 ha with ⟨-, h⟩ | ⟨x, -, meets, h⟩
  · unfold Entry.Meets at h
    omega
  · exact (h.bounds meets).2.2

/-- `insert_overwrite_with_split` succeeds on a non-empty range: it takes the range out of the map
and puts the new extent there. -/
lemma insertOverwriteWithSplit_spec (m : ExtentMap V) {start stop : Nat} (value : V)
    (split : V → Nat → V) (lt : start < stop) :
    ∃ m₁ m', m.insertOverwriteWithSplit start stop value split =
        .ok (m', m.entries.filter (·.Meets start stop)) ∧
      Cut m m₁ start stop split ∧
      ∀ y, y ∈ m'.entries ↔ y = ⟨start, stop, value, lt⟩ ∨ y ∈ m₁.entries := by
  obtain ⟨m₁, run, cut⟩ := reinsert_removed m split lt
  refine ⟨m₁, m₁.insert ⟨start, stop, value, lt⟩ (cut.clear), ?_, cut, ?_⟩
  · unfold insertOverwriteWithSplit
    rw [validateExtent_of_lt lt, Res.ok_bind, removeOverlapping_eq lt, Res.ok_bind]
    simp only [run, Res.ok_bind, insertExact_eq lt (cut.clear)]
  · exact fun y => IntervalMap.mem_insert

end ExtentMap

end NbdServer
