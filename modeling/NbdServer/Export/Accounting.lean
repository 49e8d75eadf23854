import NbdServer.Export.Close

/-!
# Jobs that are dropped and engines that panic

`active_jobs` of the two runtimes in `export/runtime.rs` when a `submit` future may be dropped at
its await and an engine call may panic. `begin_submit` of the concurrent runtime returns a
`ConcurrentActiveJob`, a guard that calls `finish_job` when it is dropped. The serial runtime has no
guard: a `submit` that is dropped while it awaits `sender.send`, and a worker that unwinds with the
receiver of its channel, take their jobs along and leave them counted. Such a job is `lost`: it is
gone with its queue slot and no task takes a step for it any more.
-/

namespace NbdServer.Lifecycle

open Lib

variable {kind : RuntimeKind} {capacity : Nat} {w w' : World} {e : Event}

lemma notifyEmpty_jobs : w.notifyEmpty.jobs = w.jobs := by
  unfold World.notifyEmpty
  split_ifs <;> rfl

def Event.drives : Event → Option Nat
  | .submitStep j | .execute j | .complete j | .finish j => some j
  | _ => none

lemma Step.job_kept (st : Step kind capacity w e w') {j : Nat} {job : Job}
    (hj : w.jobs[j]? = some job) (other : e.drives ≠ some j) :
    ∃ job', w'.jobs[j]? = some job' ∧ job'.phase = job.phase := by
  have set : ∀ {k : Nat} {new : Job}, e.drives = some k →
      ∃ job', (w.jobs.set k new)[j]? = some job' ∧ job'.phase = job.phase := by
    intro k new own
    have ne : k ≠ j := fun eq => other (eq ▸ own)
    exact ⟨job, by rw [List.getElem?_set_ne ne]; exact hj, rfl⟩
  cases st with
  | submitted _ =>
    exact ⟨job, by rw [List.getElem?_append_left (List.getElem?_eq_some_iff.1 hj).1]; exact hj, rfl⟩
  | @answered k old result hk _ _ =>
    by_cases eq : k = j
    · subst eq
      rw [hk] at hj
      cases hj
      exact ⟨_, get_set_self hk _, rfl⟩
    · exact ⟨job, by rw [List.getElem?_set_ne eq]; exact hj, rfl⟩
  | refused => exact set rfl
  | counted => exact set rfl
  | sent => exact set rfl
  | spawned => exact set rfl
  | received => exact set rfl
  | started => exact set rfl
  | completed => exact set rfl
  | finished =>
    simp only [World.notifyEmpty]
    split_ifs <;> exact set rfl
  | marked _ =>
    refine ⟨job, ?_, rfl⟩
    simp only [World.setClose, World.notifyEmpty]
    split_ifs <;> exact hj
  | _ => exact ⟨job, hj, rfl⟩

lemma Step.activeJobs_eq (st : Step kind capacity w e w')
    (h : w.activeJobs = w.jobs.countP (·.phase.active)) :
    w'.activeJobs = w'.jobs.countP (·.phase.active) := by
  -- a job that moves from one phase to another
  have move : ∀ {j : Nat} {job new : Job} {n : Nat}, w.jobs[j]? = some job →
      n + job.phase.active.toNat = w.activeJobs + new.phase.active.toNat →
      n = (w.jobs.set j new).countP (·.phase.active) := by
    intro j job new n hj change
    have := countP_set hj new (·.phase.active)
    omega
  cases st with
  | submitted _ => simpa [JobPhase.active] using h
  | refused hj phase _ => exact move hj (by simp [World.setJob, phase, JobPhase.active])
  | counted hj phase _ => exact move hj (by simp [phase, JobPhase.active])
  | sent _ hj phase => exact move hj (by simp [World.setJob, phase, JobPhase.active])
  | spawned _ hj phase => exact move hj (by simp [World.setJob, phase, JobPhase.active])
  | answered hj _ _ => exact move hj rfl
  | received _ hj phase _ => exact move hj (by simp [World.setJob, phase, JobPhase.active])
  | started _ hj phase => exact move hj (by simp [World.setJob, phase, JobPhase.active])
  | completed hj phase => exact move hj (by simp [World.setJob, phase, JobPhase.active])
  | finished hj phase active =>
    simp only [World.notifyEmpty]
    split_ifs <;> exact move hj (by simp [phase, active, JobPhase.active])
  | marked _ =>
    simp only [World.setClose, World.notifyEmpty]
    split_ifs <;> exact h
  | _ => exact h

/-- The channel holds jobs that are queued, each once; the concurrent runtime has none. -/
structure Queue (kind : RuntimeKind) (w : World) : Prop where
  nodup : w.channel.Nodup
  queued : ∀ j ∈ w.channel, ∃ job, w.jobs[j]? = some job ∧ job.phase = .queued
  spawns : kind = .concurrent → w.channel = []

namespace Queue

lemma setJob (h : Queue kind w) {k : Nat} {job new : Job} (hk : w.jobs[k]? = some job)
    (same : job.phase = .queued → new.phase = .queued) (jobs : w'.jobs = w.jobs.set k new)
    (channel : w'.channel = w.channel) : Queue kind w' := by
  refine ⟨channel ▸ h.nodup, ?_, channel ▸ h.spawns⟩
  rw [channel, jobs]
  intro j mem
  obtain ⟨old, hj, phase⟩ := h.queued j mem
  by_cases eq : k = j
  · subst eq
    rw [hk] at hj
    cases hj
    exact ⟨new, get_set_self hk new, same phase⟩
  · exact ⟨old, by rw [List.getElem?_set_ne eq]; exact hj, phase⟩

lemma keep (h : Queue kind w) (jobs : w'.jobs = w.jobs) (channel : w'.channel = w.channel) :
    Queue kind w' :=
  ⟨channel ▸ h.nodup, by rw [channel, jobs]; exact h.queued, channel ▸ h.spawns⟩

lemma notifyEmpty (h : Queue kind w) : Queue kind w.notifyEmpty := by
  unfold World.notifyEmpty
  split_ifs
  · exact h.keep rfl rfl
  · exact h

lemma step (h : Queue kind w) (st : Step kind capacity w e w') : Queue kind w' := by
  cases st with
  | submitted _ =>
    refine ⟨h.nodup, fun j mem => ?_, h.spawns⟩
    obtain ⟨job, hj, phase⟩ := h.queued j mem
    exact ⟨job, by
      rw [List.getElem?_append_left (List.getElem?_eq_some_iff.1 hj).1]; exact hj, phase⟩
  | refused hj phase _ => exact h.setJob hj (by simp [phase]) rfl rfl
  | counted hj phase _ => exact h.setJob hj (by simp [phase]) rfl rfl
  | @sent k job serial hk phase =>
    have new : k ∉ w.channel := by
      intro mem
      obtain ⟨old, hj, queued⟩ := h.queued k mem
      rw [hk] at hj
      cases hj
      simp [phase] at queued
    have moved : Queue kind (w.setJob k job .queued) := h.setJob hk (fun _ => rfl) rfl rfl
    refine ⟨?_, ?_, by simp [serial]⟩
    · exact List.nodup_append.2 ⟨h.nodup, List.nodup_singleton k,
        fun a mem b single eq => new (List.mem_singleton.1 single ▸ eq ▸ mem)⟩
    · intro j mem
      rcases List.mem_append.1 mem with mem | mem
      · exact moved.queued j mem
      · cases List.mem_singleton.1 mem
        exact ⟨_, get_set_self hk _, rfl⟩
  | spawned _ hj phase => exact h.setJob hj (by simp [phase]) rfl rfl
  | answered hj _ _ =>
    refine h.setJob hj ?_ rfl rfl
    exact id
  | @received k job rest serial hk phase channel =>
    have nodup := h.nodup
    rw [channel] at nodup
    obtain ⟨first, tail⟩ := List.nodup_cons.1 nodup
    refine ⟨tail, ?_, by simp [serial]⟩
    intro j mem
    obtain ⟨old, hj, queued⟩ := h.queued j (channel ▸ List.mem_cons_of_mem k mem)
    have ne : k ≠ j := fun eq => first (eq ▸ mem)
    exact ⟨old, by
      rw [show (w.setJob k job .executing).jobs[j]? = _ from List.getElem?_set_ne ne]; exact hj,
        queued⟩
  | started concurrent hj phase =>
    have none := h.spawns concurrent
    exact ⟨h.nodup, by simp [World.setJob, none], h.spawns⟩
  | completed hj phase => exact h.setJob hj (by simp [phase]) rfl rfl
  | finished hj phase _ => exact notifyEmpty (h.setJob hj (by simp [phase]) rfl rfl)
  | marked _ =>
    have marked : Queue kind { w with closed := true } := h.keep rfl rfl
    exact marked.notifyEmpty.keep rfl rfl
  | _ => exact h.keep rfl rfl

end Queue

lemma Step.channel_sub (st : Step kind capacity w e w') {j : Nat} (mem : j ∈ w'.channel) :
    j ∈ w.channel ∨ e = .submitStep j := by
  cases st with
  | sent =>
    rcases List.mem_append.1 mem with mem | mem
    · exact .inl mem
    · cases List.mem_singleton.1 mem
      exact .inr rfl
  | received _ _ _ channel => exact .inl (channel ▸ List.mem_cons_of_mem _ mem)
  | finished =>
    refine .inl ?_
    simp only [World.notifyEmpty] at mem
    split_ifs at mem <;> exact mem
  | marked _ =>
    refine .inl ?_
    simp only [World.setClose, World.notifyEmpty] at mem
    split_ifs at mem <;> exact mem
  | _ => exact .inl mem

/-- A runtime with the jobs that are counted although nothing holds them, and whether the worker of
the serial runtime has unwound and its receiver is gone. -/
structure Unwinding where
  runtime : World
  lost : List Nat
  receiverGone : Bool

/-- A step of the runtime; `sender.send` that finds no receiver; the drop of a `submit` future at
its await; a panic of the engine in a job. -/
inductive Incident where
  | step (e : Event)
  | sendFails (job : Nat)
  | dropSubmit (job : Nat)
  | panic (job : Nat)

def Incident.abandons : Incident → Bool
  | .dropSubmit _ | .panic _ => true
  | _ => false

namespace Unwinding

def new (capacity : Nat) : Unwinding := ⟨.new capacity, [], false⟩

/-- The task that takes the step is there, and a send finds the receiver. -/
def Takes (x : Unwinding) : Event → Prop
  | .submitStep j =>
    j ∉ x.lost ∧ ¬ (x.receiverGone = true ∧ (x.runtime.jobs[j]?).map Job.phase = some .counted)
  | .execute j | .complete j | .finish j => j ∉ x.lost
  | _ => True

instance (x : Unwinding) (e : Event) : Decidable (x.Takes e) := by
  cases e <;> unfold Takes <;> infer_instance

/-- `finish_job` for a job that goes with its queue slot. -/
def finishDropped (w : World) (j : Nat) (job : Job) (phase : JobPhase) : Option World := do
  let activeJobs ← checkedSub w.activeJobs 1
  some { w.setJob j job phase with activeJobs, available := w.available + 1 }.notifyEmpty

/-- What happens, `none` where it cannot happen. A `submit` of the concurrent runtime has no await;
its task drops the guard of the job when it unwinds. The worker of the serial runtime drops the
receiver, and with it the jobs in the channel. -/
def next (kind : RuntimeKind) (capacity : Nat) (x : Unwinding) : Incident → Option Unwinding
  | .step e => do
    if x.Takes e then some { x with runtime := ← x.runtime.next kind capacity e } else none
  | .sendFails j => do
    let job ← x.runtime.jobs[j]?
    if kind = .serial ∧ x.receiverGone = true ∧ job.phase = .counted ∧ j ∉ x.lost then
      some { x with runtime := ← finishDropped x.runtime j job .refused }
    else none
  | .dropSubmit j => do
    let job ← x.runtime.jobs[j]?
    if kind = .serial ∧ job.phase = .counted ∧ j ∉ x.lost then
      some { x with
        runtime := { x.runtime with available := x.runtime.available + 1 }, lost := j :: x.lost }
    else none
  | .panic j => do
    let job ← x.runtime.jobs[j]?
    if job.phase = .executing ∧ j ∉ x.lost then
      match kind with
      | .serial =>
        let dropped := j :: x.runtime.channel
        some {
          runtime := { x.runtime with
            available := x.runtime.available + dropped.length, channel := [] }
          lost := dropped ++ x.lost
          receiverGone := true }
      | .concurrent => some { x with runtime := ← finishDropped x.runtime j job .finished }
    else none

/-- The number of jobs that were accepted and can still complete. -/
def live (x : Unwinding) : Nat :=
  (List.range x.runtime.jobs.length).countP fun j =>
    (x.runtime.jobs[j]?).any (·.phase.active) && decide (j ∉ x.lost)

inductive Moves (kind : RuntimeKind) (capacity : Nat) (x : Unwinding) :
    Incident → Unwinding → Prop where
  | step {e : Event} {w' : World} : x.Takes e → Step kind capacity x.runtime e w' →
      Moves kind capacity x (.step e) { x with runtime := w' }
  | sendFailed {j job n} : kind = .serial → x.runtime.jobs[j]? = some job → job.phase = .counted →
      j ∉ x.lost → x.runtime.activeJobs = n + 1 →
      Moves kind capacity x (.sendFails j)
        { x with runtime := { x.runtime.setJob j job .refused with
            activeJobs := n, available := x.runtime.available + 1 }.notifyEmpty }
  | dropped {j job} : kind = .serial → x.runtime.jobs[j]? = some job → job.phase = .counted →
      j ∉ x.lost →
      Moves kind capacity x (.dropSubmit j)
        { x with runtime := { x.runtime with available := x.runtime.available + 1 }, lost := j ::
          x.lost }
  | unwound {j job available} : kind = .serial → x.runtime.jobs[j]? = some job →
      job.phase = .executing → j ∉ x.lost →
      Moves kind capacity x (.panic j)
        { runtime := { x.runtime with available, channel := [] }
          lost := j :: x.runtime.channel ++ x.lost
          receiverGone := true }
  | guarded {j job n} : kind = .concurrent → x.runtime.jobs[j]? = some job →
      job.phase = .executing →
      j ∉ x.lost → x.runtime.activeJobs = n + 1 →
      Moves kind capacity x (.panic j)
        { x with runtime := { x.runtime.setJob j job .finished with
            activeJobs := n, available := x.runtime.available + 1 }.notifyEmpty }

variable {x x' : Unwinding} {i : Incident}

lemma finishDropped_eq {j : Nat} {job : Job} {phase : JobPhase}
    (h : finishDropped w j job phase = some w') :
    ∃ n, w.activeJobs = n + 1 ∧
      w' = { w.setJob j job phase with
        activeJobs := n, available := w.available + 1 }.notifyEmpty := by
  obtain ⟨n, sub, h⟩ := Option.bind_eq_some_iff.1 h
  simp only [checkedSub, Option.ite_none_right_eq_some, Option.some.injEq] at sub
  cases h
  exact ⟨n, by omega, rfl⟩

lemma Moves.of_next (h : x.next kind capacity i = some x') : Moves kind capacity x i x' := by
  cases i with
  | step e =>
    simp only [next, Option.ite_none_right_eq_some] at h
    obtain ⟨takes, h⟩ := h
    obtain ⟨w', st, h⟩ := Option.bind_eq_some_iff.1 h
    cases h
    exact .step takes (.of_next st)
  | sendFails j =>
    obtain ⟨job, hj, h⟩ := Option.bind_eq_some_iff.1 h
    simp only [Option.ite_none_right_eq_some] at h
    obtain ⟨⟨serial, -, phase, held⟩, h⟩ := h
    obtain ⟨w', done, h⟩ := Option.bind_eq_some_iff.1 h
    obtain ⟨n, active, rfl⟩ := finishDropped_eq done
    cases h
    exact .sendFailed serial hj phase held active
  | dropSubmit j =>
    obtain ⟨job, hj, h⟩ := Option.bind_eq_some_iff.1 h
    simp only [Option.ite_none_right_eq_some, Option.some.injEq] at h
    obtain ⟨⟨serial, phase, held⟩, rfl⟩ := h
    exact .dropped serial hj phase held
  | panic j =>
    obtain ⟨job, hj, h⟩ := Option.bind_eq_some_iff.1 h
    simp only [Option.ite_none_right_eq_some] at h
    obtain ⟨⟨phase, held⟩, h⟩ := h
    cases kind with
    | serial =>
      cases h
      exact .unwound rfl hj phase held
    | concurrent =>
      obtain ⟨w', done, h⟩ := Option.bind_eq_some_iff.1 h
      obtain ⟨n, active, rfl⟩ := finishDropped_eq done
      cases h
      exact .guarded rfl hj phase held active

/-- Every counted job is held by a task, or it is lost. -/
structure Accounted (kind : RuntimeKind) (x : Unwinding) : Prop where
  active : x.runtime.activeJobs = x.runtime.jobs.countP (·.phase.active)
  closing : Closing x.runtime
  queue : Queue kind x.runtime
  held : ∀ j ∈ x.runtime.channel, j ∉ x.lost
  lost : ∀ j ∈ x.lost, ∃ job, x.runtime.jobs[j]? = some job ∧ job.phase.active = true
  nodup : x.lost.Nodup

lemma Takes.drives_ne (takes : x.Takes e) {j : Nat} (mem : j ∈ x.lost) : e.drives ≠ some j := by
  intro own
  cases e with
  | submitStep k =>
    cases own
    exact takes.1 mem
  | execute k =>
    cases own
    exact takes mem
  | complete k =>
    cases own
    exact takes mem
  | finish k =>
    cases own
    exact takes mem
  | _ => cases own

namespace Accounted

lemma finishDropped (h : Accounted kind x) {j n : Nat} {job : Job} {phase : JobPhase}
    (hj : x.runtime.jobs[j]? = some job) (was : job.phase.active = true)
    (idle : job.phase ≠ .queued) (gone : phase.active = false) (held : j ∉ x.lost)
    (active : x.runtime.activeJobs = n + 1) :
    Accounted kind { x with runtime := { x.runtime.setJob j job phase with
      activeJobs := n, available := x.runtime.available + 1 }.notifyEmpty } := by
  have channel : ∀ {w : World}, w.notifyEmpty.channel = w.channel := by
    intro w
    unfold World.notifyEmpty
    split_ifs <;> rfl
  have later := @Later.finishJob x.runtime
    { x.runtime.setJob j job phase with available := x.runtime.available + 1 } n active rfl rfl
  refine ⟨?_, ?_, ?_, ?_, ?_, h.nodup⟩
  · have count := countP_set hj { job with phase } (·.phase.active)
    simp only [was, gone, Bool.toNat_true, Bool.toNat_false] at count
    have := h.active
    simp only [World.notifyEmpty]
    split_ifs <;> simp only [World.setJob] <;> omega
  · refine h.closing.keep later ?_ ?_ ?_ <;> simp only [World.notifyEmpty] <;> split_ifs <;> rfl
  · exact Queue.notifyEmpty (h.queue.setJob hj (fun queued => absurd queued idle) rfl rfl)
  · rw [channel]
    exact h.held
  · intro k mem
    obtain ⟨old, hk, counted⟩ := h.lost k mem
    have ne : j ≠ k := fun eq => held (eq ▸ mem)
    refine ⟨old, ?_, counted⟩
    rw [notifyEmpty_jobs]
    exact (List.getElem?_set_ne ne).trans hk

lemma moves (h : Accounted kind x) (m : Moves kind capacity x i x') : Accounted kind x' := by
  cases m with
  | step takes st =>
    refine ⟨st.activeJobs_eq h.active, h.closing.step st, h.queue.step st, ?_, ?_, h.nodup⟩
    · intro j mem
      rcases st.channel_sub mem with old | rfl
      · exact h.held j old
      · exact takes.1
    · intro j mem
      obtain ⟨job, hj, counted⟩ := h.lost j mem
      obtain ⟨job', hj', same⟩ := st.job_kept hj (takes.drives_ne mem)
      exact ⟨job', hj', same ▸ counted⟩
  | sendFailed _ hj phase held active =>
    exact h.finishDropped hj (by rw [phase]; rfl) (by simp [phase]) rfl held active
  | guarded _ hj phase held active =>
    exact h.finishDropped hj (by rw [phase]; rfl) (by simp [phase]) rfl held active
  | @dropped j job _ hj phase held =>
    refine ⟨h.active, h.closing.keep (.of_eq rfl rfl rfl) rfl rfl rfl, h.queue.keep rfl rfl, ?_, ?_,
      List.nodup_cons.2 ⟨held, h.nodup⟩⟩
    · intro k mem
      obtain ⟨old, hk, queued⟩ := h.queue.queued k mem
      rw [List.mem_cons, not_or]
      refine ⟨fun eq => ?_, h.held k mem⟩
      subst eq
      rw [hj] at hk
      cases hk
      simp [phase] at queued
    · exact List.forall_mem_cons.2 ⟨⟨job, hj, by rw [phase]; rfl⟩, h.lost⟩
  | @unwound j job available _ hj phase held =>
    have out : j ∉ x.runtime.channel := by
      intro mem
      obtain ⟨old, hk, queued⟩ := h.queue.queued j mem
      rw [hj] at hk
      cases hk
      simp [phase] at queued
    refine ⟨h.active, h.closing.keep (.of_eq rfl rfl rfl) rfl rfl rfl,
      ⟨List.nodup_nil, by simp, fun _ => rfl⟩, by simp, ?_, ?_⟩
    · refine List.forall_mem_cons.2 ⟨⟨job, hj, by rw [phase]; rfl⟩, fun k mem => ?_⟩
      rcases List.mem_append.1 mem with queued | lost
      · obtain ⟨old, hk, queued⟩ := h.queue.queued k queued
        exact ⟨old, hk, by rw [queued]; rfl⟩
      · exact h.lost k lost
    · refine List.nodup_cons.2 ⟨?_, List.nodup_append.2 ⟨h.queue.nodup, h.nodup, ?_⟩⟩
      · intro mem
        exact (List.mem_append.1 mem).elim out held
      · rintro a mem b lost rfl
        exact h.held a mem lost

lemma activeJobs_eq (h : Accounted kind x) : x.runtime.activeJobs = x.live + x.lost.length := by
  rw [h.active, ← countP_range, live]
  refine countP_without h.nodup fun j mem => ?_
  obtain ⟨job, hj, active⟩ := h.lost j mem
  exact ⟨(List.getElem?_eq_some_iff.1 hj).1, by simp [hj, active]⟩

end Accounted

lemma Accounted.of_run {is : List Incident}
    (run : is.foldlM (next kind capacity) (new capacity) = some x) :
    Accounted kind x := by
  refine (System.invariant ⟨(· = new capacity), fun x i x' => x.next kind capacity i = some x'⟩
    (P := Accounted kind) ?_ fun h st => h.moves (.of_next st))
    (System.Reachable.foldlM (fun st => st) (.init rfl) run)
  rintro x rfl
  exact ⟨rfl, ⟨by simp [new, World.new], .inl ⟨rfl, rfl⟩, by simp [new, World.new],
    by simp [new, World.new], by simp [new, World.new]⟩, ⟨List.nodup_nil, by simp [new, World.new],
    fun _ => rfl⟩, by simp [new, World.new], by simp [new], List.nodup_nil⟩

lemma Moves.lost_eq_nil_iff (m : Moves kind capacity x i x') :
    x'.lost = [] ↔ x.lost = [] ∧ (kind = .concurrent ∨ i.abandons = false) := by
  cases m with
  | step => simp [Incident.abandons]
  | sendFailed => simp [Incident.abandons]
  | dropped serial => simp [serial, Incident.abandons]
  | unwound serial => simp [serial, Incident.abandons]
  | guarded concurrent => simp [concurrent]

lemma lost_eq_nil_iff {is : List Incident}
    (run : is.foldlM (next kind capacity) x = some x') :
    x'.lost = [] ↔ x.lost = [] ∧ (kind = .concurrent ∨ ∀ i ∈ is, i.abandons = false) := by
  induction is generalizing x with
  | nil =>
    cases run
    simp
  | cons i is ih =>
    simp only [List.foldlM_cons, Option.bind_eq_bind, Option.bind_eq_some_iff] at run
    obtain ⟨y, first, rest⟩ := run
    rw [ih rest, (Moves.of_next first).lost_eq_nil_iff, List.forall_mem_cons]
    tauto

lemma Moves.lost_kept (m : Moves kind capacity x i x') {j : Nat} {job : Job} (mem : j ∈ x.lost)
    (hj : x.runtime.jobs[j]? = some job) :
    j ∈ x'.lost ∧ ∃ job', x'.runtime.jobs[j]? = some job' ∧ job'.phase = job.phase := by
  cases m with
  | step takes st => exact ⟨mem, st.job_kept hj (takes.drives_ne mem)⟩
  | @sendFailed k _ _ _ _ _ held _ =>
    have ne : k ≠ j := fun eq => held (eq ▸ mem)
    refine ⟨mem, job, ?_, rfl⟩
    rw [notifyEmpty_jobs]
    exact (List.getElem?_set_ne ne).trans hj
  | @guarded k _ _ _ _ _ held _ =>
    have ne : k ≠ j := fun eq => held (eq ▸ mem)
    refine ⟨mem, job, ?_, rfl⟩
    rw [notifyEmpty_jobs]
    exact (List.getElem?_set_ne ne).trans hj
  | dropped => exact ⟨List.mem_cons_of_mem _ mem, job, hj, rfl⟩
  | unwound => exact ⟨List.mem_append_right _ mem, job, hj, rfl⟩

lemma lost_stays {is : List Incident} (run : is.foldlM (next kind capacity) x = some x') {j : Nat}
    {job : Job} (mem : j ∈ x.lost) (hj : x.runtime.jobs[j]? = some job) :
    ∃ job', x'.runtime.jobs[j]? = some job' ∧ job'.phase = job.phase := by
  induction is generalizing x job with
  | nil =>
    cases run
    exact ⟨job, hj, rfl⟩
  | cons i is ih =>
    simp only [List.foldlM_cons, Option.bind_eq_bind, Option.bind_eq_some_iff] at run
    obtain ⟨y, first, rest⟩ := run
    obtain ⟨mem', job', hj', same⟩ := (Moves.of_next first).lost_kept mem hj
    obtain ⟨job'', hj'', same'⟩ := ih rest mem' hj'
    exact ⟨job'', hj'', same'.trans same⟩

/-- The call of `close` alone comes out of `wait_empty`. -/
def WaitEnds (kind : RuntimeKind) (capacity : Nat) (x : Unwinding) (c : Nat) : Prop :=
  ∃ n x' p, (List.replicate n (Incident.step (.closeStep c))).foldlM (next kind capacity) x =
    some x' ∧
    x'.runtime.closes[c]? = some p ∧ p.rank = 0

lemma WaitEnds.of_step {c : Nat} (st : x.runtime.next kind capacity (.closeStep c) = some w')
    (h : WaitEnds kind capacity { x with runtime := w' } c) : WaitEnds kind capacity x c := by
  obtain ⟨n, y, p, run, out⟩ := h
  refine ⟨n + 1, y, p, ?_, out⟩
  have first : x.next kind capacity (.step (.closeStep c)) = some { x with runtime := w' } := by
    simp [next, Takes, st]
  rw [List.replicate_succ, List.foldlM_cons, first]
  exact run

lemma WaitEnds.of_drained {c : Nat} {p : ClosePhase} (closing : Closing x.runtime)
    (drained : Drained x.runtime) (hc : x.runtime.closes[c]? = some p) :
    WaitEnds kind capacity x c := by
  induction rank : p.rank using Nat.strong_induction_on generalizing x p with
  | _ k ih =>
    by_cases zero : k = 0
    · exact ⟨0, x, p, rfl, hc, rank.trans zero⟩
    · have inside : p.rank ≠ 0 := rank ▸ zero
      obtain ⟨w', next⟩ :=
        (closing.closeStep drained hc inside : ∃ w', x.runtime.next kind capacity _ = some w')
      have st := Step.of_next next
      obtain ⟨q, hq, moves | ⟨-, other⟩⟩ := st.close_at hc
      · exact .of_step next (ih q.rank (rank ▸ moves.rank_lt drained inside) (closing.step st)
          (drained.step st) hq rfl)
      · exact absurd rfl other

lemma WaitEnds.of_empty {c : Nat} {p : ClosePhase} (closing : Closing x.runtime)
    (empty : x.runtime.activeJobs = 0) (hc : x.runtime.closes[c]? = some p) :
    WaitEnds kind capacity x c := by
  have ok := closing.closes p (List.mem_of_getElem? hc)
  cases p with
  | called =>
    -- the first step of the call marks the runtime
    have next : x.runtime.next kind capacity (.closeStep c) =
        some ({ x.runtime with closed := true }.notifyEmpty.setClose c .marked) := by
      simp [World.next, hc, World.closeStep]
    have st := Step.of_next next
    refine .of_step next (.of_drained (p := .marked) (closing.step st) ?_ ?_)
    · have notified : { x.runtime with closed := true }.notifyEmpty =
          { x.runtime with closed := true, notifications := x.runtime.notifications + 1 } :=
        if_pos empty
      rw [notified]
      exact ⟨rfl, empty⟩
    · obtain ⟨q, hq, moves | ⟨-, other⟩⟩ := st.close_at hc
      · cases moves
        exact hq
      · exact absurd rfl other
  | marked => exact .of_drained closing ⟨ok, empty⟩ hc
  | waiting => exact .of_drained closing ⟨ok, empty⟩ hc
  | _ => exact .of_drained closing ⟨ok.1, empty⟩ hc

end Unwinding

open Unwinding in
/-- `active_jobs` is the number of jobs that were accepted and can still complete, exactly if the
runtime is the concurrent one or no future was dropped at its await and no engine has panicked.
Where it is, and no such job remains, every call of `close` comes out of `wait_empty`. Where it is
not, no call ever does. The jobs that are counted besides stay in their phase for ever. -/
theorem active_jobs_exact_iff {is : List Incident} {x : Unwinding}
    (run : is.foldlM (next kind capacity) (new capacity) = some x) :
    (x.runtime.activeJobs = x.live ↔ kind = .concurrent ∨ ∀ i ∈ is, i.abandons = false) ∧
    (x.runtime.activeJobs = x.live → x.live = 0 →
      ∀ (c : Nat) (p : ClosePhase), x.runtime.closes[c]? = some p → WaitEnds kind capacity x c) ∧
    (x.runtime.activeJobs ≠ x.live →
      ∀ (c : Nat) (p : ClosePhase), x.runtime.closes[c]? = some p → p.rank ≠ 0) ∧
    ∀ j ∈ x.lost, ∃ job, x.runtime.jobs[j]? = some job ∧ job.phase.active = true ∧
      ∀ (is' : List Incident) (x' : Unwinding), is'.foldlM (next kind capacity) x = some x' →
        ∃ job', x'.runtime.jobs[j]? = some job' ∧ job'.phase = job.phase := by
  have account := Accounted.of_run run
  have total := account.activeJobs_eq
  refine ⟨?_, ?_, ?_, ?_⟩
  · have exact_iff : x.runtime.activeJobs = x.live ↔ x.lost = [] := by
      rw [total, ← List.length_eq_zero_iff]
      omega
    rw [exact_iff, lost_eq_nil_iff run]
    simp [new]
  · intro exact_ none c p hc
    exact .of_empty account.closing (exact_.trans none) hc
  · intro ne c p hc out
    have ok := account.closing.closes p (List.mem_of_getElem? hc)
    have empty : x.runtime.activeJobs = 0 := by
      cases p with
      | empty => exact ok.2
      | initializing => exact ok.2
      | returned result => exact ok.2
      | _ => simp [ClosePhase.rank] at out
    omega
  · intro j mem
    obtain ⟨job, hj, active⟩ := account.lost j mem
    exact ⟨job, hj, active, fun is' x' run' => lost_stays run' mem hj⟩

/-- A call of `reserve`, and a `submit` that has been counted. -/
def submitOne : List Incident :=
  [.step .reserve, .step (.reserveStep 0), .step (.reserveStep 0), .step (.reserveStep 0),
    .step .submit, .step (.submitStep 0)]

def panicOne : List Incident := submitOne ++ [.step (.submitStep 0), .step (.execute 0), .panic 0]

/-- A call of `close` up to where it awaits. -/
def closeOne : List Incident :=
  [.step .close, .step (.closeStep 0), .step (.closeStep 0), .step (.closeStep 0),
    .step (.closeStep 0)]

/-- What is seen of a runtime at the end: the counter, the jobs that can still complete, and whether
the first call of `close` can go on. -/
def outcome (kind : RuntimeKind) (capacity : Nat) (is : List Incident) :
    Option (Nat × Nat × Bool) := do
  let x ← is.foldlM (Unwinding.next kind capacity) (Unwinding.new capacity)
  some (x.runtime.activeJobs, x.live, (x.next kind capacity (.step (.closeStep 0))).isSome)

/-- A `submit` of the serial runtime that is dropped while it awaits `sender.send`, and an engine
that panics in the worker: one job stays counted, none can complete, and `close` awaits for ever. -/
theorem close_awaits_lost_job :
    outcome .serial 1 (submitOne ++ [.dropSubmit 0] ++ closeOne) = some (1, 0, false) ∧
    outcome .serial 1 (panicOne ++ closeOne) = some (1, 0, false) := by
  decide +kernel

/-- The concurrent runtime after the same panic. -/
theorem active_jobs_exact_iff_guarded :
    ∃ x, panicOne.foldlM (Unwinding.next .concurrent 1) (Unwinding.new 1) = some x ∧
      x.runtime.activeJobs = x.live := by
  obtain ⟨x, run⟩ : ∃ x, panicOne.foldlM (Unwinding.next .concurrent 1) (Unwinding.new 1) =
      some x :=
    Option.isSome_iff_exists.1 (by decide +kernel)
  exact ⟨x, run, (active_jobs_exact_iff run).1.2 (.inl rfl)⟩

end NbdServer.Lifecycle
