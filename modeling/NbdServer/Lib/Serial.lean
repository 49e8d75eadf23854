import Mathlib

/-!
# Interleavings in conflict order

Tasks that run step by step on a shared store of cells, each within a footprint of cells it reads
and cells it writes. If a task never runs while an earlier one with a conflicting footprint is
unfinished, then at every moment the store is what the tasks, run one after the other in their
order, each as far as it has come, leave behind (`Serial`). The induction is over the steps of the
interleaving; a step of one task moves past the later tasks that have started, which it does not
conflict with (`Serial.step`).
-/

namespace Lib

universe u
variable {σ ι V L : Type u}

/-- The cells that a task may read and those it may write. -/
structure Footprint (ι : Type u) where
  reads : Set ι
  writes : Set ι

namespace Footprint

/-- All cells of the footprint. -/
def cells (f : Footprint ι) : Set ι := f.reads ∪ f.writes

/-- Two footprints that share no cell that one of them writes. -/
structure Compatible (f g : Footprint ι) : Prop where
  left : Disjoint f.writes g.cells
  right : Disjoint g.writes f.cells

end Footprint

/-- The steps of the tasks, on stores that are determined by their cells. -/
structure Machine (σ ι V L : Type u) where
  cell : σ → ι → V
  ext : ∀ {s t}, (∀ c, cell s c = cell t c) → s = t
  step : L → σ → L × σ

/-- A task that keeps to its footprint, in the states `Own` it goes through. -/
structure Task (M : Machine σ ι V L) where
  start : L
  foot : Footprint ι
  Own : L → Prop
  own_start : Own start
  own_step : ∀ {l} s, Own l → Own (M.step l s).1
  frame : ∀ {l s c}, Own l → c ∉ foot.writes → M.cell (M.step l s).2 c = M.cell s c
  agree : ∀ {l s t}, Own l → (∀ c ∈ foot.cells, M.cell s c = M.cell t c) →
    (M.step l s).1 = (M.step l t).1 ∧
      ∀ c ∈ foot.writes, M.cell (M.step l s).2 c = M.cell (M.step l t).2 c

namespace Machine

variable {M : Machine σ ι V L}

/-- Some steps of one task. -/
inductive Steps (M : Machine σ ι V L) (l : L) (s : σ) : L → σ → Prop where
  | refl : Steps M l s l s
  | tail {l' s'} : Steps M l s l' s' → Steps M l s (M.step l' s').1 (M.step l' s').2

/-- A task state that does not move any more. -/
def Halted (M : Machine σ ι V L) (l : L) : Prop := ∀ s, M.step l s = (l, s)

/-- A task and how far it has come; `none` before its start. -/
structure Entry (M : Machine σ ι V L) where
  task : Task M
  state : Option L

/-- `t` is what the tasks, run in order and each as far as it has come, make of `s`. -/
inductive Serial (M : Machine σ ι V L) : List (Entry M) → σ → σ → Prop where
  | nil {s} : Serial M [] s s
  | waiting {task es s t} : Serial M es s t → Serial M (⟨task, none⟩ :: es) s t
  | started {task : Task M} {es l s m t} : M.Steps task.start s l m → Serial M es m t →
      Serial M (⟨task, some l⟩ :: es) s t

/-- The tasks that have started are compatible with a footprint. -/
def Apart (es : List (Entry M)) (f : Footprint ι) : Prop :=
  ∀ e ∈ es, e.state ≠ none → f.Compatible e.task.foot

namespace Steps

variable {task : Task M} {l l' : L} {s s' t : σ}

lemma own (h : M.Steps l s l' s') (own : task.Own l) : task.Own l' := by
  induction h with
  | refl => exact own
  | tail _ ih => exact task.own_step _ ih

/-- A task leaves the cells outside its footprint alone. -/
lemma frame (h : M.Steps l s l' s') (own : task.Own l) {c : ι} (out : c ∉ task.foot.writes) :
    M.cell s' c = M.cell s c := by
  induction h with
  | refl => rfl
  | tail steps ih => rw [task.frame (steps.own own) out, ih]

/-- A task that finds the same cells in its footprint does the same there. -/
lemma agree (h : M.Steps l s l' s') (own : task.Own l)
    (same : ∀ c ∈ task.foot.cells, M.cell s c = M.cell t c) :
    ∃ t', M.Steps l t l' t' ∧ ∀ c ∈ task.foot.cells, M.cell s' c = M.cell t' c := by
  induction h with
  | refl => exact ⟨t, .refl, same⟩
  | @tail l' s' steps ih =>
    obtain ⟨t', steps', same'⟩ := ih
    have own' := steps.own own
    obtain ⟨next, written⟩ := task.agree own' same'
    refine ⟨(M.step l' t').2, by rw [next]; exact steps'.tail, ?_⟩
    intro c hc
    by_cases w : c ∈ task.foot.writes
    · exact written c w
    · rw [task.frame own' w, task.frame own' w]
      exact same' c hc

lemma trans {l'' : L} {s'' : σ} (h : M.Steps l s l' s') (h' : M.Steps l' s' l'' s'') :
    M.Steps l s l'' s'' := by
  induction h' with
  | refl => exact h
  | tail _ ih => exact ih.tail

lemma iterate (h : M.Steps l s l' s') : ∃ n, (fun p : L × σ => M.step p.1 p.2)^[n]
    (l, s) = (l', s') := by
  induction h with
  | refl => exact ⟨0, rfl⟩
  | tail _ ih =>
    obtain ⟨n, run⟩ := ih
    exact ⟨n + 1, by rw [Function.iterate_succ_apply', run]⟩

/-- A task comes to an end in one way only. -/
lemma halted_unique {a b : L} {m m' : σ} (h : M.Steps l s a m) (h' : M.Steps l s b m')
    (ha : M.Halted a) (hb : M.Halted b) : a = b ∧ m = m' := by
  obtain ⟨n, run⟩ := h.iterate
  obtain ⟨k, run'⟩ := h'.iterate
  have same : (a, m) = (b, m') := by
    rcases Nat.le_total n k with le | le
    · rw [← Nat.sub_add_cancel le, Function.iterate_add_apply, run,
        Function.iterate_fixed (ha m)] at run'
      exact run'
    · rw [← Nat.sub_add_cancel le, Function.iterate_add_apply, run',
        Function.iterate_fixed (hb m')] at run
      exact run.symm
  exact Prod.mk.inj same

end Steps

namespace Serial

variable {es : List (Entry M)} {f : Footprint ι} {s t : σ}

/-- Tasks that are compatible with a footprint do not write its cells. -/
lemma frame (h : Serial M es s t) (apart : Apart es f) {c : ι} (hc : c ∈ f.cells) :
    M.cell t c = M.cell s c := by
  induction h with
  | nil => rfl
  | waiting _ ih => exact ih fun e he => apart e (List.mem_cons_of_mem _ he)
  | @started task es l s m t steps _ ih =>
    rw [ih fun e he => apart e (List.mem_cons_of_mem _ he)]
    have compatible := apart _ List.mem_cons_self (by simp)
    exact steps.frame task.own_start (compatible.right.notMem_of_mem_right hc)

/-- Tasks that are compatible with a footprint do the same when its written cells change. -/
lemma shift (h : Serial M es s t) (apart : Apart es f) {u : σ}
    (same : ∀ c ∉ f.writes, M.cell s c = M.cell u c) :
    ∃ t', Serial M es u t' ∧ (∀ c ∉ f.writes, M.cell t c = M.cell t' c) ∧
      ∀ c ∈ f.writes, M.cell t' c = M.cell u c := by
  induction h generalizing u with
  | nil => exact ⟨u, .nil, same, fun _ _ => rfl⟩
  | waiting _ ih =>
    obtain ⟨t', serial, rest⟩ := ih (fun e he => apart e (List.mem_cons_of_mem _ he)) same
    exact ⟨t', .waiting serial, rest⟩
  | @started task es l s m t steps _ ih =>
    have compatible := apart _ List.mem_cons_self (by simp)
    have outside : ∀ {c}, c ∈ task.foot.cells → c ∉ f.writes := fun hc =>
      compatible.left.notMem_of_mem_right hc
    obtain ⟨m', stepu, inside⟩ := steps.agree task.own_start fun c hc => same c (outside hc)
    obtain ⟨t', serial, off, on⟩ := ih (fun e he => apart e (List.mem_cons_of_mem _ he)) (u := m')
      (by
      intro c hc
      by_cases w : c ∈ task.foot.writes
      · exact inside c (.inr w)
      · rw [steps.frame task.own_start w, stepu.frame task.own_start w]
        exact same c hc)
    refine ⟨t', .started stepu serial, off, ?_⟩
    intro c hc
    have unwritten : c ∉ task.foot.writes := fun w => outside (.inr w) hc
    rw [on c hc, stepu.frame task.own_start unwritten]

/-- A list of tasks in two parts. -/
lemma append {es' : List (Entry M)} : Serial M (es ++ es') s t ↔
    ∃ m, Serial M es s m ∧ Serial M es' m t := by
  induction es generalizing s with
  | nil =>
    refine ⟨fun h => ⟨s, .nil, h⟩, ?_⟩
    rintro ⟨m, h, h'⟩
    cases h
    exact h'
  | cons e es ih =>
    refine ⟨?_, ?_⟩
    · intro h
      cases h with
      | waiting h =>
        obtain ⟨m, h, h'⟩ := ih.1 h
        exact ⟨m, .waiting h, h'⟩
      | started steps h =>
        obtain ⟨m, h, h'⟩ := ih.1 h
        exact ⟨m, .started steps h, h'⟩
    · rintro ⟨m, h, h'⟩
      cases h with
      | waiting h => exact .waiting (ih.2 ⟨m, h, h'⟩)
      | started steps h => exact .started steps (ih.2 ⟨m, h, h'⟩)

/-- A new task. -/
lemma register (h : Serial M es s t) (task : Task M) : Serial M (es ++ [⟨task, none⟩]) s t :=
  append.2 ⟨t, h, .waiting .nil⟩

/-- The start of a task. -/
lemma begin {es' : List (Entry M)} {task : Task M} (h : Serial M (es ++ ⟨task, none⟩ :: es') s t) :
    Serial M (es ++ ⟨task, some task.start⟩ :: es') s t := by
  obtain ⟨m, h, h'⟩ := append.1 h
  cases h' with
  | waiting h' => exact append.2 ⟨m, h, .started .refl h'⟩

/-- A task that has started goes through its own states. -/
lemma own {es' : List (Entry M)} {task : Task M} {l : L}
    (h : Serial M (es ++ ⟨task, some l⟩ :: es') s t) : task.Own l := by
  obtain ⟨m, -, h'⟩ := append.1 h
  cases h' with
  | started steps _ => exact steps.own task.own_start

/-- A step of a task that is compatible with the later tasks that have started. -/
lemma step {es' : List (Entry M)} {task : Task M} {l : L}
    (h : Serial M (es ++ ⟨task, some l⟩ :: es') s t) (apart : Apart es' task.foot) :
    Serial M (es ++ ⟨task, some (M.step l t).1⟩ :: es') s (M.step l t).2 := by
  have own := h.own
  obtain ⟨m, before, h'⟩ := append.1 h
  cases h' with
  | @started _ _ _ _ k _ steps after =>
    -- the later tasks have left the footprint as this task left it
    have same : ∀ c ∈ task.foot.cells, M.cell t c = M.cell k c := fun c hc => after.frame apart hc
    obtain ⟨next, written⟩ := task.agree own same
    obtain ⟨t', after', off, on⟩ := after.shift apart (u := (M.step l k).2) fun c hc =>
      (task.frame own hc).symm
    have eq : (M.step l t).2 = t' := by
      refine M.ext fun c => ?_
      by_cases w : c ∈ task.foot.writes
      · rw [written c w, on c w]
      · rw [task.frame own w, off c w]
    refine append.2 ⟨m, before, .started ?_ (eq ▸ after')⟩
    rw [next]
    exact steps.tail

/-- Tasks that are given by the elements of a list, with what each makes of a store when it is run
to its end. Outside the cells that the unfinished ones write, the store is what running all of them,
one after the other and to the end, leaves behind, if no unfinished task comes before a finished one
whose cells it writes. The induction is along the list, `U` are the cells that may differ so far. -/
lemma settled {J : Type u} (entry : J → Entry M) (final : J → σ → σ) (finished : J → Prop)
    (ends : ∀ j s, ∃ l, M.Steps (entry j).task.start s l (final j s))
    (ended : ∀ {j}, finished j → ∃ l, (entry j).state = some l ∧
      ∀ {s m}, M.Steps (entry j).task.start s l m → m = final j s)
    {js : List J} {v : σ} {U : Set ι} (h : Serial M (js.map entry) s t)
    (same : ∀ c ∉ U, M.cell s c = M.cell v c)
    (clear : ∀ j ∈ js, finished j → Disjoint U (entry j).task.foot.cells)
    (ordered : js.Pairwise fun i j =>
      ¬ finished i → finished j → Disjoint (entry i).task.foot.writes (entry j).task.foot.cells) :
    ∀ c ∉ U, (∀ j ∈ js, ¬ finished j → c ∉ (entry j).task.foot.writes) →
      M.cell t c = M.cell (js.foldl (fun s j => final j s) v) c := by
  induction js generalizing s v U with
  | nil =>
    cases h
    exact fun c out _ => same c out
  | cons j js ih =>
    obtain ⟨first, rest⟩ := List.pairwise_cons.1 ordered
    obtain ⟨_, steps'⟩ := ends j v
    have own := (entry j).task.own_start
    -- the store after the first task, as far as it has come
    obtain ⟨m, h', frame, ran⟩ : ∃ m, Serial M (js.map entry) m t ∧
        (∀ c ∉ (entry j).task.foot.writes, M.cell m c = M.cell s c) ∧
        ∀ l, (entry j).state = some l → M.Steps (entry j).task.start s l m := by
      rw [List.map_cons] at h
      generalize entry j = e at h own
      cases h with
      | waiting h' => exact ⟨s, h', fun _ _ => rfl, by simp⟩
      | started steps h' =>
        refine ⟨_, h', fun c out => steps.frame own out, ?_⟩
        rintro l ⟨⟩
        exact steps
    intro c out unwritten
    by_cases done : finished j
    · obtain ⟨l, state, unique⟩ := ended done
      have apart := clear j List.mem_cons_self done
      obtain ⟨t', ran', inside⟩ := (ran l state).agree own fun c hc =>
        same c (apart.notMem_of_mem_right hc)
      rw [unique ran'] at inside
      refine ih h' (v := final j v) ?_ (fun i hi => clear i (List.mem_cons_of_mem _ hi)) rest c out
        fun i hi => unwritten i (List.mem_cons_of_mem _ hi)
      intro c hc
      by_cases w : c ∈ (entry j).task.foot.writes
      · exact inside c (.inr w)
      · rw [frame c w, steps'.frame own w]
        exact same c hc
    · refine ih h' (v := final j v) (U := U ∪ (entry j).task.foot.writes) ?_ ?_ rest c ?_ ?_
      · intro c hc
        rw [Set.mem_union, not_or] at hc
        rw [frame c hc.2, steps'.frame own hc.2]
        exact same c hc.1
      · intro i hi doneI
        rw [Set.disjoint_union_left]
        exact ⟨clear i (List.mem_cons_of_mem _ hi) doneI, first i hi done doneI⟩
      · rw [Set.mem_union, not_or]
        exact ⟨out, unwritten j List.mem_cons_self done⟩
      · exact fun i hi => unwritten i (List.mem_cons_of_mem _ hi)

end Serial

end Machine

end Lib
