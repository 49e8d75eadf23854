import NbdServer.Export.Runtime
import NbdServer.Lib.Serial

/-!
# Requests take effect in the order of their submission

For an engine whose requests keep to footprints that the admission policy knows, the concurrent
runtime of `export/runtime.rs` answers every request as if the requests were executed one after the
other in the order of their submission. The engine is seen through a `Machine`: `Serializes` says
that a step of a request is a step of its task on the abstract store or leaves it alone, and that
requests which do not conflict have compatible footprints. What remains is that of `Lib.Serial`; the
admission controller provides its condition, by `Tracks.earlier_completed`.
-/

namespace NbdServer

open Admission Lib

variable {σ L τ ι V K : Type}

section ExecuteAll

variable {exec : τ → ExportRequest → ExportResult × τ}

/-- The requests executed one after the other: their results, and the store they leave. -/
def executeAll (exec : τ → ExportRequest → ExportResult × τ) (s : τ) :
    List ExportRequest → List ExportResult × τ
  | [] => ([], s)
  | request :: requests =>
    let (result, s') := exec s request
    let (results, t) := executeAll exec s' requests
    (result :: results, t)

lemma executeAll_store (s : τ) (requests : List ExportRequest) :
    (executeAll exec s requests).2 = requests.foldl (fun s request => (exec s request).2) s := by
  induction requests generalizing s with
  | nil => rfl
  | cons request requests ih => exact ih _

lemma executeAll_result (exec : τ → ExportRequest → ExportResult × τ) (s : τ)
    (before after : List ExportRequest) (request : ExportRequest) :
    (executeAll exec s (before ++ request :: after)).1[before.length]? =
      some (exec (executeAll exec s before).2 request).1 := by
  induction before generalizing s with
  | nil => rfl
  | cons first before ih => exact ih _

end ExecuteAll

/-- A request that `prepare_admitted_job` refuses with a fault: by the policy or by the
controller. -/
def Refused (E : Engine σ L) (extentBytes : Nat) (request : ExportRequest) (fault : Fault) : Prop :=
  E.operationFor request = .error fault ∨
    ∃ op, E.operationFor request = .ok op ∧
      (AdmissionState.new extentBytes).validate op = .error fault

/-- An engine that is a machine with footprints which the admission policy knows, with the meaning
`exec` of a request that is executed alone. -/
structure Serializes (E : Engine σ L) (extentBytes : Nat) (init : σ → Prop) (M : Machine τ ι V K)
    (exec : τ → ExportRequest → ExportResult × τ) where
  task : ExportRequest → Task M
  fin : ExportResult → K
  fin_inj : Function.Injective fin
  halted : ∀ r, M.Halted (fin r)
  ends : ∀ s request, M.Steps (task request).start s (fin (exec s request).1) (exec s request).2
  refused : ∀ {request fault}, Refused E extentBytes request fault →
    (∀ s, exec s request = (.error fault, s)) ∧ (task request).foot.cells = ∅
  compatible : ∀ {request request' op op'}, E.operationFor request = .ok op →
    E.operationFor request' = .ok op' → op.conflicts op' = false →
    (task request).foot.Compatible (task request').foot
  abs : σ → τ
  view : L → K
  view_start : ∀ request, view (E.start request) = (task request).start
  view_result : ∀ {l r}, E.result l = some r → view l = fin r
  work : ∀ {w : Runtime σ L} {j : Nat} {job : Job L} {t : Nat} {l l' : L} {s : σ},
    (runtimeSystem E extentBytes init).Reachable w →
    w.jobs[j]? = some job → job.phase = .executing t l → E.result l = none → E.step l w.store l' s →
    view l' = view l ∧ abs s = abs w.store ∨ (view l', abs s) = M.step (view l) (abs w.store)
  background : ∀ {w : Runtime σ L} {s}, (runtimeSystem E extentBytes init).Reachable w →
    E.background w.store s → abs s = abs w.store

section

variable {E : Engine σ L} {extentBytes : Nat} {init : σ → Prop} {w : Runtime σ L}

lemma refused_of_reachable (h : (runtimeSystem E extentBytes init).Reachable w) :
    ∀ job ∈ w.jobs, ∀ fault, job.phase = .rejected fault →
    Refused E extentBytes job.request fault := by
  induction h with
  | init start => simp [start.2.1]
  | @step w e w' reach st ih =>
    have add : ∀ new : Job L, (∀ fault, new.phase = .rejected fault →
        Refused E extentBytes new.request fault) →
        ∀ job ∈ w.jobs ++ [new], ∀ fault, job.phase = .rejected fault →
          Refused E extentBytes job.request fault := by
      intro new ok job mem
      rcases List.mem_append.1 mem with mem | mem
      · exact ih job mem
      · cases List.mem_singleton.1 mem
        exact ok
    have set : ∀ j (job : Job L) phase, (∀ fault, phase ≠ JobPhase.rejected fault) →
        ∀ job' ∈ w.jobs.set j { job with phase }, ∀ fault, job'.phase = .rejected fault →
          Refused E extentBytes job'.request fault := by
      intro j job phase ne job' mem fault rejected
      rcases List.mem_or_eq_of_mem_set mem with mem | rfl
      · exact ih job' mem fault rejected
      · exact absurd rejected (ne fault)
    cases st with
    | refused hop => exact add _ fun fault e => by cases e; exact .inl hop
    | @invalid request op fault hop free invalid =>
      refine add _ fun fault e => ?_
      cases e
      refine .inr ⟨op, hop, ?_⟩
      have extent := extentBytes_of_reachable (Tracks.of_reachable reach).reach
      rw [AdmissionState.validate_congr w.admission.state (by rw [extent]; rfl)]
      exact invalid
    | registered _ _ _ => exact add _ fun fault e => by cases e
    | promote _ => exact ih
    | wait _ _ _ => exact ih
    | begin _ _ _ => exact set _ _ _ (by simp)
    | work _ _ _ _ => exact set _ _ _ (by simp)
    | finish _ _ _ _ => exact set _ _ _ (by simp)
    | background _ => exact ih

end

namespace Serializes

variable {E : Engine σ L} {extentBytes : Nat} {init : σ → Prop} {M : Machine τ ι V K}
variable {exec : τ → ExportRequest → ExportResult × τ} {w : Runtime σ L}

def state (S : Serializes E extentBytes init M exec) : JobPhase L → Option K
  | .rejected fault => some (S.fin (.error fault))
  | .waiting _ => none
  | .executing _ l => some (S.view l)
  | .completed _ r => some (S.fin r)

def entry (S : Serializes E extentBytes init M exec) (job : Job L) : Machine.Entry M :=
  ⟨S.task job.request, S.state job.phase⟩

variable (S : Serializes E extentBytes init M exec)

lemma state_of_result {job : Job L} {r : ExportResult} (h : job.result = some r) :
    S.state job.phase = some (S.fin r) := by
  cases phase : job.phase with
  | rejected fault => simpa [Job.result, phase, state, S.fin_inj.eq_iff] using h
  | waiting t => simp [Job.result, phase] at h
  | executing t l => simp [Job.result, phase] at h
  | completed t r' => simpa [Job.result, phase, state, S.fin_inj.eq_iff] using h

lemma unique {request : ExportRequest} {s m : τ} {r : ExportResult}
    (h : M.Steps (S.task request).start s (S.fin r) m) : exec s request = (r, m) := by
  obtain ⟨fin, store⟩ := (S.ends s request).halted_unique h (S.halted _) (S.halted _)
  exact Prod.ext (S.fin_inj fin) store

lemma compatible_of_unfinished (reach : (runtimeSystem E extentBytes init).Reachable w) {i j : Nat}
    {job job' : Job L} (lt : i < j) (hi : w.jobs[i]? = some job) (hj : w.jobs[j]? = some job')
    (unfinished : job.result = none) (started : S.state job'.phase ≠ none) :
    (S.task job.request).foot.Compatible (S.task job'.request).foot := by
  have tracks := Tracks.of_reachable reach
  have admitted : ∀ {t}, job'.ticket = some t → job'.phase ≠ .waiting t →
      (S.task job.request).foot.Compatible (S.task job'.request).foot := by
    intro u ticket' notWaiting
    obtain ⟨t, ticket⟩ : ∃ t, job.ticket = some t := by
      cases phase : job.phase <;> simp_all [Job.result, Job.ticket]
    obtain ⟨x, -, hop, -⟩ := tracks.slot hi ticket
    obtain ⟨y, -, hop', -⟩ := tracks.slot hj ticket'
    refine S.compatible hop hop' ?_
    by_contra conflict
    rw [Bool.not_eq_false] at conflict
    obtain ⟨r, completed⟩ := tracks.earlier_completed lt hi hj ticket ticket' hop hop' conflict
      notWaiting
    simp [Job.result, completed] at unfinished
  cases phase : job'.phase with
  | rejected fault =>
    have refused := refused_of_reachable reach job' (List.mem_of_getElem? hj) fault phase
    have empty := (S.refused refused).2
    refine ⟨?_, ?_⟩
    · rw [empty]
      exact Set.disjoint_empty _
    · have writes : (S.task job'.request).foot.writes = ∅ := (Set.union_empty_iff.1 empty).2
      rw [writes]
      exact Set.empty_disjoint _
  | waiting t => simp [phase, state] at started
  | executing t l => exact admitted (t := t) (by simp [Job.ticket, phase]) (by simp [phase])
  | completed t r => exact admitted (t := t) (by simp [Job.ticket, phase]) (by simp [phase])

lemma entries_set {j : Nat} {job : Job L} (hj : w.jobs[j]? = some job) (phase : JobPhase L) :
    w.jobs.map S.entry =
      (w.jobs.take j).map S.entry ++ S.entry job :: (w.jobs.drop (j + 1)).map S.entry ∧
    (w.jobs.set j { job with phase }).map S.entry =
      (w.jobs.take j).map S.entry ++ S.entry { job with phase } ::
        (w.jobs.drop (j + 1)).map S.entry := by
  obtain ⟨lt, get⟩ := List.getElem?_eq_some_iff.1 hj
  refine ⟨?_, ?_⟩
  · rw [← List.map_cons, ← List.map_append, ← get, List.cons_getElem_drop_succ,
      List.take_append_drop]
  · rw [List.set_eq_take_append_cons_drop, if_pos lt, List.map_append, List.map_cons]

/-- In every run the store is what the requests, executed in the order of their submission and each
as far as it has come, make of the first one. -/
lemma serial {s₀ : τ} (start : ∀ s, init s → S.abs s = s₀)
    (reach : (runtimeSystem E extentBytes init).Reachable w) :
    M.Serial (w.jobs.map S.entry) s₀ (S.abs w.store) := by
  induction reach with
  | init h =>
    rw [h.2.1, start _ h.2.2]
    exact .nil
  | @step w e w' reach st ih =>
    have refuse : ∀ {request fault}, Refused E extentBytes request fault →
        M.Serial ((w.jobs ++ [(⟨request, .rejected fault⟩ : Job L)]).map S.entry) s₀
          (S.abs w.store) := by
      intro request fault refused
      have ends := S.ends (S.abs w.store) request
      rw [(S.refused refused).1] at ends
      rw [List.map_append]
      exact Machine.Serial.append.2 ⟨_, ih, .started ends .nil⟩
    have refused := refused_of_reachable (reach.step st)
    cases st with
    | refused _ => exact refuse (refused _ (List.mem_append_right _ List.mem_cons_self) _ rfl)
    | invalid _ _ _ => exact refuse (refused _ (List.mem_append_right _ List.mem_cons_self) _ rfl)
    | registered _ _ _ =>
      rw [List.map_append]
      exact ih.register _
    | promote _ => exact ih
    | wait _ _ _ => exact ih
    | @begin j job t a hj phase _ =>
      obtain ⟨before, after⟩ := S.entries_set hj (.executing t (E.start job.request))
      rw [before] at ih
      simp only [entry, phase, state] at ih
      simp only [Runtime.setPhase, after]
      rw [entry, state, S.view_start]
      exact ih.begin
    | @work j job t l l' s hj phase running worked =>
      obtain ⟨before, after⟩ := S.entries_set hj (.executing t l')
      rw [before] at ih
      simp only [Runtime.setPhase, after]
      rcases S.work reach hj phase running worked with ⟨same, store⟩ | moved
      · have eq : S.entry { job with phase := .executing t l' } = S.entry job := by
          simp [entry, state, phase, same]
        rw [eq, store]
        exact ih
      · have apart : Machine.Apart ((w.jobs.drop (j + 1)).map S.entry)
            (S.task job.request).foot := by
          intro e he started
          obtain ⟨job', mem, rfl⟩ := List.mem_map.1 he
          obtain ⟨i, hi⟩ := List.mem_iff_getElem?.1 mem
          rw [List.getElem?_drop] at hi
          exact S.compatible_of_unfinished reach (by omega) hj hi (by simp [Job.result, phase])
            started
        have eq : S.entry job = ⟨S.task job.request, some (S.view l)⟩ := by
          simp [entry, state, phase]
        rw [eq] at ih
        have stepped := ih.step apart
        rw [← moved] at stepped
        exact stepped
    | @finish j job t l r a hj phase done _ =>
      obtain ⟨before, after⟩ := S.entries_set hj (.completed t r)
      rw [before] at ih
      simp only [Runtime.setPhase, after]
      have eq : S.entry { job with phase := .completed t r } = S.entry job := by
        simp [entry, state, phase, S.view_result done]
      rw [eq]
      exact ih
    | background ran =>
      rw [S.background reach ran]
      exact ih

lemma settled (reach : (runtimeSystem E extentBytes init).Reachable w) {n : Nat} {s t : τ}
    (h : M.Serial ((w.jobs.take n).map S.entry) s t) :
    ∀ c, (∀ job ∈ w.jobs.take n, job.result = none → c ∉ (S.task job.request).foot.writes) →
      M.cell t c = M.cell (executeAll exec s ((w.jobs.take n).map Job.request)).2 c := by
  intro c unwritten
  have settled := Machine.Serial.settled S.entry (fun job s => (exec s job.request).2)
    (fun job => job.result.isSome) (U := ∅) (v := s)
    (fun job s => ⟨_, S.ends s job.request⟩) ?_ h (fun _ _ => rfl) (by simp) ?_ c (by simp) ?_
  · rw [executeAll_store, List.foldl_map]
    exact settled
  · intro job finished
    obtain ⟨r, result⟩ := Option.isSome_iff_exists.1 finished
    refine ⟨_, S.state_of_result result, ?_⟩
    intro s m steps
    rw [S.unique steps]
  · rw [List.pairwise_iff_getElem]
    intro i j hi hj lt unfinished finished
    rw [List.length_take] at hi hj
    rw [Bool.not_eq_true, Option.isSome_eq_false_iff, Option.isNone_iff_eq_none] at unfinished
    obtain ⟨r, result⟩ := Option.isSome_iff_exists.1 finished
    refine (S.compatible_of_unfinished reach lt ?_ ?_ unfinished ?_).left
    · rw [List.getElem_take, List.getElem?_eq_getElem]
    · rw [List.getElem_take, List.getElem?_eq_getElem]
    · rw [S.state_of_result result]
      simp
  · intro job mem unfinished
    rw [Bool.not_eq_true, Option.isSome_eq_false_iff, Option.isNone_iff_eq_none] at unfinished
    exact unwritten job mem unfinished

lemma results {s₀ : τ} (start : ∀ s, init s → S.abs s = s₀)
    (reach : (runtimeSystem E extentBytes init).Reachable w) {j : Nat} {job : Job L}
    {r : ExportResult} (hj : w.jobs[j]? = some job) (result : job.result = some r) :
    (executeAll exec s₀ (w.jobs.map Job.request)).1[j]? = some r := by
  have serial := S.serial start reach
  rw [(S.entries_set hj job.phase).1] at serial
  obtain ⟨m, before, after⟩ := Machine.Serial.append.1 serial
  have ended := S.state_of_result result
  obtain ⟨m', steps⟩ : ∃ m', M.Steps (S.task job.request).start m (S.fin r) m' := by
    simp only [entry, ended] at after
    cases after with
    | started steps _ => exact ⟨_, steps⟩
  -- the unfinished jobs before it have not written what it looks at
  obtain ⟨t, alone, -⟩ := steps.agree (S.task job.request).own_start
    (t := (executeAll exec s₀ ((w.jobs.take j).map Job.request)).2) (by
      intro c hc
      refine S.settled reach before c ?_
      intro job' mem unfinished
      obtain ⟨i, hi⟩ := List.mem_iff_getElem?.1 mem
      have lt := (List.getElem?_eq_some_iff.1 hi).1
      rw [List.length_take] at lt
      rw [List.getElem?_take_of_lt (by omega)] at hi
      have compatible := S.compatible_of_unfinished reach (by omega) hi hj unfinished
        (by simp [ended])
      exact compatible.left.notMem_of_mem_right hc)
  obtain ⟨lt, get⟩ := List.getElem?_eq_some_iff.1 hj
  have split : w.jobs.map Job.request = (w.jobs.take j).map Job.request ++
      job.request :: (w.jobs.drop (j + 1)).map Job.request := by
    rw [← List.map_cons, ← List.map_append, ← get, List.cons_getElem_drop_succ,
      List.take_append_drop]
  have at_j := executeAll_result exec s₀ ((w.jobs.take j).map Job.request)
    ((w.jobs.drop (j + 1)).map Job.request) job.request
  rw [← split, List.length_map, List.length_take, Nat.min_eq_left (by omega),
    S.unique alone] at at_j
  exact at_j

lemma final {s₀ : τ} (start : ∀ s, init s → S.abs s = s₀)
    (reach : (runtimeSystem E extentBytes init).Reachable w)
    (all : ∀ job ∈ w.jobs, job.result.isSome) :
    S.abs w.store = (executeAll exec s₀ (w.jobs.map Job.request)).2 := by
  refine M.ext fun c => ?_
  have settled := S.settled reach (n := w.jobs.length) (s := s₀) (t := S.abs w.store)
    (by rw [List.take_length]; exact S.serial start reach) c
  rw [List.take_length] at settled
  refine settled fun job mem unfinished => ?_
  simpa [unfinished] using all job mem

end Serializes

end NbdServer
