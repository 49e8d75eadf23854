import NbdServer.View.Merge

/-!
# Connected sources

`connected_sources` compares a source with the span of what it has selected so far, not with the
selected sources one by one. Since these leave no gap in the span (`Component`), a source that meets
the span meets one of them, so that what is selected is connected with the new bytes by a chain of
sources (`Reaches`); and since the last pass selects nothing, no source of such a chain is left out.
-/

namespace NbdServer

/-- The spans `[a, b)` and `[c, d)` overlap or touch. -/
def Touch (a b c d : Nat) : Prop := a ≤ d ∧ c ≤ b

/-- The source is connected with the new bytes `[start, stop)` by a chain of sources in which each
overlaps or touches the next. -/
inductive Reaches (start stop : Nat) (sources : List ExistingSource) : ExistingSource → Prop where
  | new {s : ExistingSource} (mem : s ∈ sources) (touch : Touch start stop s.start s.stop) :
    Reaches start stop sources s
  | chain {s t : ExistingSource} (reaches : Reaches start stop sources t) (mem : s ∈ sources)
    (touch : Touch t.start t.stop s.start s.stop) : Reaches start stop sources s

/-- The outer loop of `connected_sources`, which ends with a pass that changes nothing. -/
inductive ConnectRuns : List (ExistingSource × Bool) → Nat → Nat → List (ExistingSource × Bool) →
    Prop
  | done {sources start stop} (same : (connectPass sources start stop false).changed = false) :
    ConnectRuns sources start stop (connectPass sources start stop false).sources
  | again {sources start stop out} (more : (connectPass sources start stop false).changed = true)
    (rest : ConnectRuns (connectPass sources start stop false).sources
      (connectPass sources start stop false).start (connectPass sources start stop false).stop
        out) :
    ConnectRuns sources start stop out

def unselected (sources : List (ExistingSource × Bool)) : Nat := sources.countP (!·.2)

@[simp]
lemma unselected_cons_true {s : ExistingSource} {rest : List (ExistingSource × Bool)} :
    unselected ((s, true) :: rest) = unselected rest := rfl

@[simp]
lemma unselected_cons_false {s : ExistingSource} {rest : List (ExistingSource × Bool)} :
    unselected ((s, false) :: rest) = unselected rest + 1 :=
  List.countP_cons_of_pos rfl

lemma connectPass_unselected (sources : List (ExistingSource × Bool)) (start stop : Nat)
    (changed : Bool) :
    unselected (connectPass sources start stop changed).sources ≤ unselected sources ∧
      ((connectPass sources start stop changed).changed = true → changed = false →
        unselected (connectPass sources start stop changed).sources < unselected sources) := by
  induction sources generalizing start stop changed with
  | nil =>
    refine ⟨le_rfl, fun h₁ h₂ => ?_⟩
    cases h₂
    cases h₁
  | cons a rest ih =>
    obtain ⟨s, flag⟩ := a
    cases flag with
    | true => exact ih start stop changed
    | false =>
      rw [connectPass]
      split
      · have more := (ih (min start s.start) (max stop s.stop) true).1
        simp only [unselected_cons_true, unselected_cons_false]
        exact ⟨by omega, fun _ _ => by omega⟩
      · obtain ⟨le, lt⟩ := ih start stop changed
        simp only [unselected_cons_false]
        exact ⟨by omega, fun h₁ h₂ => Nat.add_lt_add_right (lt h₁ h₂) 1⟩

lemma connectRuns_connectLoop {fuel start stop : Nat} {sources : List (ExistingSource × Bool)}
    (enough : unselected sources < fuel) :
    ConnectRuns sources start stop (connectLoop fuel sources start stop) := by
  induction fuel generalizing sources start stop with
  | zero => omega
  | succ fuel ih =>
    rw [connectLoop]
    split
    · rename_i more
      have less := (connectPass_unselected sources start stop false).2 more rfl
      exact .again more (ih (by omega))
    · rename_i same
      exact .done (Bool.eq_false_iff.2 same)

lemma connectPass_changed {sources : List (ExistingSource × Bool)} {start stop : Nat} :
    (connectPass sources start stop true).changed = true := by
  induction sources generalizing start stop with
  | nil => rfl
  | cons a rest ih =>
    obtain ⟨s, flag⟩ := a
    cases flag with
    | true => exact ih
    | false =>
      rw [connectPass]
      split
      · exact ih
      · exact ih

lemma connectPass_unchanged {sources : List (ExistingSource × Bool)} {start stop : Nat}
    (same : (connectPass sources start stop false).changed = false) :
    connectPass sources start stop false = ⟨start, stop, false, sources⟩ ∧
      ∀ s, (s, false) ∈ sources → ¬ Touch start stop s.start s.stop := by
  induction sources with
  | nil => exact ⟨rfl, by simp⟩
  | cons a rest ih =>
    obtain ⟨s, flag⟩ := a
    cases flag with
    | true =>
      obtain ⟨eq, apart⟩ := ih same
      rw [connectPass, eq]
      refine ⟨rfl, fun t ht => apart t ?_⟩
      rcases List.mem_cons.1 ht with here | later
      · cases here
      · exact later
    | false =>
      rw [connectPass] at same ⊢
      split at same
      · exact absurd (connectPass_changed.symm.trans same) (by simp)
      · rename_i far
        obtain ⟨eq, apart⟩ := ih same
        rw [if_neg far, eq]
        refine ⟨rfl, fun t ht => ?_⟩
        rcases List.mem_cons.1 ht with here | later
        · cases here
          exact fun touch => far ⟨touch.2, touch.1⟩
        · exact apart t later

/-- What holds when the loop ends: an invariant of the passes, and that no source is left that meets
the span. -/
lemma ConnectRuns.invariant {P : Nat → Nat → (ExistingSource → Prop) → Prop}
    {all : List ExistingSource}
    (add : ∀ start stop sel, ∀ s ∈ all, P start stop sel → s.start ≤ stop → start ≤ s.stop →
      P (min start s.start) (max stop s.stop) fun t => t = s ∨ sel t)
    {start stop : Nat} {sources out : List (ExistingSource × Bool)}
    (runs : ConnectRuns sources start stop out) (sub : ∀ s ∈ sources.map (·.1), s ∈ all)
    (h : P start stop fun s => (s, true) ∈ sources) :
    ∃ start' stop', P start' stop' (fun s => (s, true) ∈ out) ∧
      ∀ s, (s, false) ∈ out → ¬ Touch start' stop' s.start s.stop := by
  induction runs with
  | @done sources start stop same =>
    obtain ⟨eq, apart⟩ := connectPass_unchanged same
    rw [eq]
    exact ⟨start, stop, h, apart⟩
  | @again sources start stop out more rest ih =>
    have step := connectPass_invariant add false sub (fun _ => False) (by simpa using h)
    simp only [false_or] at step
    exact ih (by rwa [connectPass_sources]) step

lemma Component.touch {newStart newStop start stop : Nat} {sel : ExistingSource → Prop}
    (c : Component newStart newStop start stop sel) (lt : newStart < newStop)
    (proper : ∀ s, sel s → s.start < s.stop) {s : ExistingSource} (slt : s.start < s.stop)
    (h₁ : s.start ≤ stop) (h₂ : start ≤ s.stop) :
    Touch newStart newStop s.start s.stop ∨ ∃ t, sel t ∧ Touch t.start t.stop s.start s.stop := by
  have lower := c.lower
  have upper := c.upper
  unfold Touch
  rcases h₁.lt_or_eq with inner | after
  · -- the first byte of the span that is not before the source
    rcases c.cover (max s.start start) (by omega) (by omega) with h | ⟨t, ht, h⟩
    · exact .inl (by omega)
    · exact .inr ⟨t, ht, by omega⟩
  · rcases c.high with h | ⟨t, ht, h⟩
    · exact .inl (by omega)
    · have := proper t ht
      exact .inr ⟨t, ht, by omega⟩

/-- The invariant of the loop: the selected sources form a component with the new bytes, and chains
of sources connect them. -/
structure Chained (newStart newStop : Nat) (sources : List ExistingSource) (start stop : Nat)
    (sel : ExistingSource → Prop) : Prop extends Component newStart newStop start stop sel where
  reaches : ∀ s, sel s → Reaches newStart newStop sources s

lemma Reaches.mem {start stop : Nat} {sources : List ExistingSource} {s : ExistingSource}
    (reaches : Reaches start stop sources s) : s ∈ sources := by
  cases reaches with
  | new mem => exact mem
  | chain _ mem => exact mem

lemma Reaches.mono {start stop : Nat} {sources sources' : List ExistingSource} {s : ExistingSource}
    (sub : ∀ t, t ∈ sources → t ∈ sources') (reaches : Reaches start stop sources s) :
    Reaches start stop sources' s := by
  induction reaches with
  | new mem touch => exact .new (sub _ mem) touch
  | chain _ mem touch ih => exact .chain ih (sub _ mem) touch

lemma Chained.add {newStart newStop start stop : Nat} {sources : List ExistingSource}
    {sel : ExistingSource → Prop} (c : Chained newStart newStop sources start stop sel)
    (lt : newStart < newStop) (proper : ∀ s ∈ sources, s.start < s.stop) {s : ExistingSource}
    (mem : s ∈ sources) (h₁ : s.start ≤ stop) (h₂ : start ≤ s.stop) :
    Chained newStart newStop sources (min start s.start) (max stop s.stop)
      fun t => t = s ∨ sel t where
  toComponent := c.toComponent.add h₁ h₂
  reaches := by
    rintro t (rfl | ht)
    · rcases c.touch lt (fun u hu => proper u (c.reaches u hu).mem) (proper t mem) h₁ h₂ with
        touch | ⟨u, hu, touch⟩
      · exact .new mem touch
      · exact .chain (c.reaches u hu) mem touch
    · exact c.reaches t ht

lemma Reaches.selected {newStart newStop start stop : Nat} {sources : List ExistingSource}
    {out : List (ExistingSource × Bool)} (same : out.map (·.1) = sources)
    (c : Component newStart newStop start stop fun s => (s, true) ∈ out)
    (apart : ∀ s, (s, false) ∈ out → ¬ Touch start stop s.start s.stop) {s : ExistingSource}
    (reaches : Reaches newStart newStop sources s) : (s, false) ∉ out := by
  have found : ∀ {t}, t ∈ sources → (t, false) ∉ out → (t, true) ∈ out := by
    intro t ht none
    rw [← same] at ht
    obtain ⟨⟨u, flag⟩, mem, rfl⟩ := List.mem_map.1 ht
    cases flag with
    | true => exact mem
    | false => exact absurd mem none
  induction reaches with
  | new mem touch =>
    exact fun left => apart _ left ⟨c.lower.trans touch.1, touch.2.trans c.upper⟩
  | @chain s t reaches mem touch ih =>
    intro left
    have inside := c.inside t (found reaches.mem ih)
    exact apart _ left ⟨inside.1.trans touch.1, touch.2.trans inside.2⟩

lemma unselected_start (sources : List ExistingSource) :
    unselected (sources.map (·, false)) < sources.length + 1 := by
  have le := List.countP_le_length (p := fun a : ExistingSource × Bool => !a.2)
    (l := sources.map (·, false))
  rw [List.length_map] at le
  exact Nat.lt_succ_of_le le

lemma connectLoop_start {sources : List ExistingSource} {fuel start stop : Nat} :
    (connectLoop fuel (sources.map (·, false)) start stop).map (·.1) = sources := by
  rw [connectLoop_sources, List.map_map]
  exact List.map_id sources

lemma connectLoop_reaches {start stop : Nat} {sources : List ExistingSource} (lt : start < stop)
    (proper : ∀ s ∈ sources, s.start < s.stop) :
    ∀ a ∈ connectLoop (sources.length + 1) (sources.map (·, false)) start stop,
      a.2 = true ↔ Reaches start stop sources a.1 := by
  have none : Chained start stop sources start stop fun s =>
      (s, true) ∈ sources.map (·, false) := by
    refine ⟨⟨le_rfl, le_rfl, ?_, .inl rfl, .inl rfl, fun x h₁ h₂ => .inl ⟨h₁, h₂⟩⟩, ?_⟩
    · intro s hs
      simp at hs
    · intro s hs
      simp at hs
  obtain ⟨start', stop', c, apart⟩ := (connectRuns_connectLoop (unselected_start sources)).invariant
    (fun _ _ _ s mem c h₁ h₂ => c.add lt proper mem h₁ h₂) (by simp) none
  rintro ⟨s, flag⟩ ha
  constructor
  · rintro rfl
    exact c.reaches s ha
  · intro reaches
    have left := reaches.selected connectLoop_start c.toComponent apart
    cases flag with
    | true => rfl
    | false => exact absurd ha left

open Classical in
lemma connectedSources_eq_filter {start stop : Nat} {sources : List ExistingSource}
    (lt : start < stop) (proper : ∀ s ∈ sources, s.start < s.stop) :
    connectedSources start stop sources = sources.filter (Reaches start stop sources ·) := by
  set out := connectLoop (sources.length + 1) (sources.map (·, false)) start stop with hout
  have flags := connectLoop_reaches lt proper
  rw [← hout] at flags
  have same : out.map (·.1) = sources := connectLoop_start
  calc connectedSources start stop sources
      = (out.filter (·.2)).map (·.1) := rfl
    _ = (out.filter fun a => Reaches start stop sources a.1).map (·.1) := by
        congr 1
        refine List.filter_congr fun a ha => ?_
        rw [Bool.eq_iff_iff, decide_eq_true_iff]
        exact flags a ha
    _ = (out.map (·.1)).filter (Reaches start stop sources ·) := by
        rw [List.filter_map]
        rfl
    _ = sources.filter (Reaches start stop sources ·) := by rw [same]

/-- `connected_sources` computes the connected component of the new bytes. Its loop ends; it selects
the sources that a chain of overlapping or touching sources connects with the new bytes; these and
the new bytes are the interval from the smallest start to the largest end, which `validate_coverage`
accepts; and another order of the sources selects the same ones. -/
theorem connected_sources_component (start stop : Nat) (sources : List ExistingSource)
    (lt : start < stop) (proper : ∀ s ∈ sources, s.start < s.stop) :
    (∃ out, ConnectRuns (sources.map (·, false)) start stop out ∧
      connectedSources start stop sources = (out.filter (·.2)).map (·.1)) ∧
    (∀ s, s ∈ connectedSources start stop sources ↔ Reaches start stop sources s) ∧
    (∀ s ∈ sources, Reaches start stop sources s →
      (connectedSources start stop sources).count s = sources.count s) ∧
    (∃ low high,
      ((connectedSources start stop sources).map (·.start) ++ [start]).min? = some low ∧
      ((connectedSources start stop sources).map (·.stop) ++ [stop]).max? = some high ∧
      (∀ x, low ≤ x ∧ x < high ↔ (start ≤ x ∧ x < stop) ∨
        ∃ s ∈ connectedSources start stop sources, s.start ≤ x ∧ x < s.stop) ∧
      validateCoverage low high ((connectedSources start stop sources).map
        (fun s => (s.start, s.stop)) ++ [(start, stop)]) = .ok ()) ∧
    ∀ sources', sources'.Perm sources →
      (connectedSources start stop sources').Perm (connectedSources start stop sources) := by
  classical
  have mem : ∀ s, s ∈ connectedSources start stop sources ↔ Reaches start stop sources s := by
    intro s
    rw [connectedSources_eq_filter lt proper, List.mem_filter, decide_eq_true_iff]
    exact ⟨fun h => h.2, fun h => ⟨h.mem, h⟩⟩
  refine ⟨⟨_, connectRuns_connectLoop (unselected_start sources), rfl⟩, mem, ?_, ?_, ?_⟩
  · intro s _ reaches
    rw [connectedSources_eq_filter lt proper, List.count_filter (by simpa using reaches)]
  · obtain ⟨-, -, low, high, c⟩ := connectedSources_spec start stop sources
    obtain ⟨least, greatest⟩ := component_bounds c
    refine ⟨low, high, least, greatest, fun x => ⟨fun h => c.cover x h.1 h.2, ?_⟩, c.covered lt.le⟩
    rintro (⟨h₁, h₂⟩ | ⟨s, hs, h₁, h₂⟩)
    · exact ⟨c.lower.trans h₁, h₂.trans_le c.upper⟩
    · exact ⟨(c.inside s hs).1.trans h₁, h₂.trans_le (c.inside s hs).2⟩
  · intro sources' perm
    have same : Reaches start stop sources' = Reaches start stop sources := by
      funext s
      exact propext ⟨.mono fun t => perm.mem_iff.1, .mono fun t => perm.mem_iff.2⟩
    rw [connectedSources_eq_filter lt proper,
      connectedSources_eq_filter lt fun s hs => proper s (perm.mem_iff.1 hs), same]
    exact perm.filter _

/-- A source that touches only another one, which overlaps the new bytes. -/
theorem connected_sources_component_chain :
    (⟨12, 16, 2, 0, .bytes []⟩ : ExistingSource) ∈ connectedSources 4 8
      [⟨12, 16, 2, 0, .bytes []⟩, ⟨6, 12, 1, 0, .bytes []⟩, ⟨20, 24, 3, 0, .bytes []⟩] :=
  ((connected_sources_component 4 8 _ (by decide) (by decide)).2.1 _).2
    (.chain (t := ⟨6, 12, 1, 0, .bytes []⟩) (.new (by simp) ⟨by decide, by decide⟩) (by simp)
      ⟨by decide, by decide⟩)

end NbdServer
