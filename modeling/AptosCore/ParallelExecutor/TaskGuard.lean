import AptosCore.ParallelExecutor.Worker

/-!
# Task guards over every interleaving

`TaskGuard::new` adds one to `num_active_tasks`, and dropping the guard takes one off with an
`assert!` that the count was positive (`scheduler.rs`). A worker makes its guard in
`try_execute_next_version` or `try_validate_next_version` and holds it until the task it was
made for ends: through the execution, the `finish_execution` that may turn it into a validation
task, the validation and the `finish_abort` that may turn it into an execution task.

Over every interleaving of the workers' steps the count is exactly the number of workers that
hold a guard (`GuardsCounted`). So the assertion of a drop never fails, and the count never
exceeds the number of workers. Each step of the scheduler other than the guard's own two keeps
the count, each step of a worker other than making and dropping the guard keeps whether the
worker holds one, and the run lemma follows by induction on the steps.
-/

namespace AptosCore.ParallelExecutor

/-- Whether a worker standing at the step holds a `TaskGuard`: from the `TaskGuard::new` of
`try_execute_next_version` or `try_validate_next_version` until the guard is dropped. -/
def Pc.holdsGuard : Pc → Bool
  | .fetchAdd _ | .isExecuted _ | .tryIncarnate _ => true
  | .executing _ _ | .waiting _ _ _ | .finishExecution _ _ _ | .takeDependencies _ _ _
  | .resume _ _ _ _ _ | .loadValidationIdxAfterExecution _ _ _ => true
  | .validating _ _ | .markEstimates _ _ | .setAbortedStatus _ _ => true
  | .loadExecutionIdxAfterAbort _ | .incarnateAfterAbort _ | .notify _ | .dropGuard => true
  -- an index goes down inside `finish_execution` or `finish_abort`, under the task's guard
  | .decreaseIdx _ _ next | .bumpDecreaseCnt next => next.holdsGuard
  | .nextTask | .loadValidationIdx | .loadExecutionIdx _ | .tryValidateNextVersion => false
  | .tryExecuteNextVersion | .newGuard _ | .checkDone | .checkDoneValidationIdx _ => false
  | .checkDoneExecutionIdx _ _ | .checkDoneNumTasks _ _ _ | .checkDoneRecheck _ => false
  | .checkDoneStore | .done => false

@[simp] theorem Pc.holdsGuard_afterResume (txnIdx incarnation : ℕ) (rs : Bool) (minDep : Option ℕ) :
    (Execution.afterResume txnIdx incarnation rs minDep).holdsGuard = true := by
  cases minDep <;> rfl

namespace Scheduler

/-! ## The count of active tasks under each step of the scheduler -/

variable (s : Scheduler)

theorem numActiveTasks_setIdx (idx : Idx) (v : ℕ) :
    (s.setIdx idx v).numActiveTasks = s.numActiveTasks := by
  cases idx <;> rfl

theorem numActiveTasks_fetchAdd (idx : Idx) : (s.fetchAdd idx).2.numActiveTasks = s.numActiveTasks :=
  numActiveTasks_setIdx s _ _

theorem numActiveTasks_fetchMin (idx : Idx) (targetIdx : ℕ) :
    (s.fetchMin idx targetIdx).2.numActiveTasks = s.numActiveTasks :=
  numActiveTasks_setIdx s _ _

theorem numActiveTasks_tryAbort (txnIdx incarnation : ℕ) :
    (s.tryAbort txnIdx incarnation).2.numActiveTasks = s.numActiveTasks := by
  unfold tryAbort
  split <;> rfl

theorem numActiveTasks_tryIncarnate (txnIdx : ℕ) :
    (s.tryIncarnate txnIdx).2.numActiveTasks = s.numActiveTasks := by
  unfold tryIncarnate
  split
  · rfl
  · split <;> rfl

theorem numActiveTasks_takeDependencies (txnIdx : ℕ) :
    (s.takeDependencies txnIdx).2.numActiveTasks = s.numActiveTasks := rfl

variable {s} {s' : Scheduler}

theorem numActiveTasks_of_suspend {txnIdx depCondvar : ℕ} (h : s.suspend txnIdx depCondvar = .ok s') :
    s'.numActiveTasks = s.numActiveTasks := by
  unfold suspend at h
  split at h
  · cases h
    rfl
  · cases h

theorem numActiveTasks_of_resume {txnIdx : ℕ} (h : s.resume txnIdx = .ok s') :
    s'.numActiveTasks = s.numActiveTasks := by
  unfold resume at h
  split at h
  · cases h
    rfl
  · cases h

theorem numActiveTasks_of_setExecutedStatus {txnIdx incarnation : ℕ}
    (h : s.setExecutedStatus txnIdx incarnation = .ok s') : s'.numActiveTasks = s.numActiveTasks := by
  unfold setExecutedStatus at h
  split at h
  · cases h
    rfl
  · cases h

theorem numActiveTasks_of_setAbortedStatus {txnIdx incarnation : ℕ}
    (h : s.setAbortedStatus txnIdx incarnation = .ok s') : s'.numActiveTasks = s.numActiveTasks := by
  unfold setAbortedStatus at h
  split at h
  · cases h
    rfl
  · cases h

theorem numActiveTasks_of_waitForDependency {txnIdx depTxnIdx depCondvar : ℕ} {waitOn : Option ℕ}
    (h : s.waitForDependency txnIdx depTxnIdx depCondvar = .ok (waitOn, s')) :
    s'.numActiveTasks = s.numActiveTasks := by
  unfold waitForDependency at h
  split at h
  · cases h
    rfl
  · simp only [ExceptCheck.bind_eq_ok, ExceptCheck.pure_eq_ok] at h
    obtain ⟨s₁, hs₁, h⟩ := h
    cases h
    have hsuspend := numActiveTasks_of_suspend hs₁
    exact hsuspend

/-- Dropping a guard takes one off the count. -/
theorem numActiveTasks_of_dropTaskGuard (h : s.dropTaskGuard = .ok s') :
    s'.numActiveTasks + 1 = s.numActiveTasks := by
  unfold dropTaskGuard at h
  split at h
  · cases h
    dsimp only
    omega
  · cases h

/-- The assertion of a drop holds while some guard is counted. -/
theorem dropTaskGuard_eq_ok (h : 0 < s.numActiveTasks) :
    s.dropTaskGuard = .ok { s with numActiveTasks := s.numActiveTasks - 1 } := by
  simp [dropTaskGuard, h]

end Scheduler

namespace Execution

variable {K V : Type} [DecidableEq K]

/-- `num_active_tasks` is the number of workers that hold a guard. -/
def GuardsCounted (e : Execution K V) : Prop :=
  e.scheduler.numActiveTasks = e.workers.countP Pc.holdsGuard

/-- A step of the worker `w` standing at `pc`, as the guards see it: `w` alone moves, to some
`pc'`, and the count moves by the guard the step made or dropped. -/
def GuardStep (e e' : Execution K V) (w : ℕ) (pc : Pc) : Prop :=
  ∃ pc', e'.workers = e.workers.set w pc' ∧
    e'.scheduler.numActiveTasks + (if pc.holdsGuard then 1 else 0) =
      e.scheduler.numActiveTasks + (if pc'.holdsGuard then 1 else 0)

variable {e e' : Execution K V} {w : ℕ} {pc pc' : Pc}

/-! ## What a step does to the guards -/

omit [DecidableEq K] in
/-- A step that neither makes nor drops a guard. -/
theorem guardStep_keep {s : Scheduler} (hs : s.numActiveTasks = e.scheduler.numActiveTasks)
    (hpc : pc'.holdsGuard = pc.holdsGuard) : GuardStep e (e.update w pc' s) w pc :=
  ⟨pc', rfl, by dsimp only [update]; rw [hs, hpc]⟩

omit [DecidableEq K] in
theorem guardStep_goto (hpc : pc'.holdsGuard = pc.holdsGuard) : GuardStep e (e.goto w pc') w pc :=
  guardStep_keep rfl hpc

omit [DecidableEq K] in
theorem incarnate_guardStep {txnIdx : ℕ} (hg : pc.holdsGuard = true) :
    GuardStep e (e.incarnate w txnIdx) w pc := by
  unfold incarnate
  split
  all_goals
    rename_i heq
    have hs := Scheduler.numActiveTasks_tryIncarnate e.scheduler txnIdx
    rw [heq] at hs
    exact guardStep_keep hs (by rw [hg]; rfl)

omit [DecidableEq K] in
theorem readKey_guardStep {txnIdx incarnation : ℕ} {key : K}
    (hw : e.workers[w]? = some (.executing txnIdx incarnation))
    (h : e.readKey w txnIdx incarnation key = .ok e') : GuardStep e e' w (.executing txnIdx incarnation) := by
  unfold readKey at h
  split at h
  · simp only [ExceptCheck.bind_eq_ok, ExceptCheck.pure_eq_ok] at h
    obtain ⟨⟨waitOn, s⟩, hwait, h⟩ := h
    cases h
    refine guardStep_keep (Scheduler.numActiveTasks_of_waitForDependency hwait) ?_
    split <;> rfl
  · -- a value or storage: the worker stays where it is
    cases h
    obtain ⟨hlt, hpc⟩ := List.getElem?_eq_some_iff.mp hw
    exact ⟨_, by rw [← hpc, List.set_getElem_self], rfl⟩

theorem finishVm_guardStep {txnIdx incarnation : ℕ} {writes : Option (List (K × V))}
    (h : e.finishVm w txnIdx incarnation writes = .ok e') :
    GuardStep e e' w (.executing txnIdx incarnation) := by
  unfold finishVm at h
  split at h
  · simp only [ExceptCheck.bind_eq_ok, ExceptCheck.pure_eq_ok] at h
    obtain ⟨⟨prevWriteSet, writesOutside, m⟩, -, m', -, h⟩ := h
    cases h
    exact guardStep_goto rfl
  · simp only [ExceptCheck.bind_eq_ok, ExceptCheck.pure_eq_ok] at h
    obtain ⟨m, -, h⟩ := h
    cases h
    exact guardStep_goto rfl

omit [DecidableEq K] in
theorem validate_guardStep {txnIdx incarnation : ℕ} {valid : Bool}
    (h : e.validate w txnIdx incarnation valid = .ok e') :
    GuardStep e e' w (.validating txnIdx incarnation) := by
  unfold validate at h
  split at h
  · cases h
  split at h
  · cases h
    exact guardStep_goto rfl
  split at h
  · rename_i s heq
    cases h
    have hs := Scheduler.numActiveTasks_tryAbort e.scheduler txnIdx incarnation
    rw [heq] at hs
    exact guardStep_keep hs rfl
  · cases h
    exact guardStep_goto rfl

/-- Every step of a worker moves that worker alone, and changes the count only by the guard it
makes or drops. -/
theorem stepPc_guardStep {a : Action K V} (hw : e.workers[w]? = some pc)
    (h : e.stepPc w pc a = some (.ok e')) : GuardStep e e' w pc := by
  -- one case for each step a worker can take; an action it cannot take there is no step
  cases pc <;> cases a <;> simp only [stepPc, reduceCtorEq, Option.some.injEq, Except.ok.injEq] at h
  -- the steps that only move the worker on, keeping whether it holds a guard
  case loadValidationIdx.step | checkDone.step | checkDoneValidationIdx.step
      | checkDoneExecutionIdx.step | notify.step =>
    subst h
    exact guardStep_goto rfl
  case nextTask.step | loadExecutionIdx.step | tryValidateNextVersion.step
      | tryExecuteNextVersion.step | isExecuted.step | checkDoneNumTasks.step
      | checkDoneRecheck.step | loadExecutionIdxAfterAbort.step =>
    subst h
    exact guardStep_goto (by split <;> rfl)
  case loadValidationIdxAfterExecution.step =>
    subst h
    refine guardStep_goto ?_
    split
    · split <;> rfl
    · rfl
  case waiting.step =>
    split at h
    · cases h
      exact guardStep_goto rfl
    · cases h
  case resume.step deps minDep =>
    cases deps with
    | nil =>
      cases h
      exact guardStep_goto (by simp [Pc.holdsGuard])
    | cons dep deps =>
      simp only [Option.some.injEq] at h
      obtain ⟨s, hs, rfl⟩ := ExceptCheck.map_eq_ok.mp h
      exact guardStep_keep (Scheduler.numActiveTasks_of_resume hs) rfl
  -- the steps of the scheduler under a guard
  case fetchAdd.step idx =>
    cases idx <;> simp only [Option.some.injEq, Except.ok.injEq] at h <;> subst h <;>
      exact guardStep_keep (Scheduler.numActiveTasks_fetchAdd _ _) rfl
  case tryIncarnate.step | incarnateAfterAbort.step =>
    cases h
    exact incarnate_guardStep rfl
  case finishExecution.step =>
    obtain ⟨s, hs, rfl⟩ := ExceptCheck.map_eq_ok.mp h
    exact guardStep_keep (Scheduler.numActiveTasks_of_setExecutedStatus hs) rfl
  case takeDependencies.step =>
    subst h
    exact guardStep_keep (Scheduler.numActiveTasks_takeDependencies _ _) rfl
  case markEstimates.step =>
    obtain ⟨m, -, rfl⟩ := ExceptCheck.map_eq_ok.mp h
    exact guardStep_goto rfl
  case setAbortedStatus.step =>
    obtain ⟨s, hs, rfl⟩ := ExceptCheck.map_eq_ok.mp h
    exact guardStep_keep (Scheduler.numActiveTasks_of_setAbortedStatus hs) rfl
  case decreaseIdx.step =>
    subst h
    refine guardStep_keep (Scheduler.numActiveTasks_fetchMin _ _ _) ?_
    split <;> rfl
  case bumpDecreaseCnt.step | checkDoneStore.step =>
    cases h
    exact guardStep_keep rfl rfl
  -- the calls out of the worker's loop
  case executing.read => exact readKey_guardStep hw h
  case executing.finishVm => exact finishVm_guardStep h
  case validating.validate => exact validate_guardStep h
  -- making and dropping the guard
  case newGuard.step =>
    cases h
    exact ⟨_, rfl, rfl⟩
  case dropGuard.step =>
    obtain ⟨s, hs, rfl⟩ := ExceptCheck.map_eq_ok.mp h
    have hdrop := Scheduler.numActiveTasks_of_dropTaskGuard hs
    refine ⟨_, rfl, ?_⟩
    dsimp only [update]
    simp only [Pc.holdsGuard, Bool.false_eq_true, if_true, if_false]
    omega

theorem stepWorker_guardStep {a : Action K V} (h : e.stepWorker w a = some (.ok e')) :
    ∃ pc, e.workers[w]? = some pc ∧ GuardStep e e' w pc := by
  unfold stepWorker at h
  split at h
  · rename_i pc hw
    exact ⟨pc, hw, stepPc_guardStep hw h⟩
  · cases h

/-! ## The count over a run -/

omit [DecidableEq K] in
theorem GuardStep.length_workers (hstep : GuardStep e e' w pc) : e'.workers.length = e.workers.length := by
  obtain ⟨pc', hworkers, -⟩ := hstep
  rw [hworkers, List.length_set]

omit [DecidableEq K] in
/-- A step keeps the count: the worker's own guard is among those counted before it drops it. -/
theorem GuardStep.guardsCounted (hstep : GuardStep e e' w pc) (he : e.GuardsCounted)
    (hw : e.workers[w]? = some pc) : e'.GuardsCounted := by
  obtain ⟨pc', hworkers, hs⟩ := hstep
  obtain ⟨hlt, hpc⟩ := List.getElem?_eq_some_iff.mp hw
  have hown : (if pc.holdsGuard then 1 else 0) ≤ e.workers.countP Pc.holdsGuard := by
    split
    · exact List.countP_pos_iff.mpr ⟨pc, List.mem_of_getElem? hw, by assumption⟩
    · exact Nat.zero_le _
  unfold GuardsCounted at he ⊢
  rw [hworkers, List.countP_set hlt, hpc]
  omega

theorem run_guardsCounted_of (steps : List (ℕ × Action K V)) :
    e.GuardsCounted → e.run steps = some (.ok e') →
      e'.GuardsCounted ∧ e'.workers.length = e.workers.length := by
  -- induction on the steps, the state a run starts from generalized
  induction steps generalizing e with
  | nil =>
    intro he h
    cases h
    exact ⟨he, rfl⟩
  | cons step steps ih =>
    obtain ⟨w, a⟩ := step
    intro he h
    unfold run at h
    split at h
    · rename_i e₁ h₁
      obtain ⟨pc, hw, hstep⟩ := stepWorker_guardStep h₁
      obtain ⟨he', hlen⟩ := ih (hstep.guardsCounted he hw) h
      exact ⟨he', hlen.trans hstep.length_workers⟩
    · cases h
    · cases h

omit [DecidableEq K] in
theorem guardsCounted_init (numTxns concurrencyLevel : ℕ) :
    (init numTxns concurrencyLevel : Execution K V).GuardsCounted := by
  show 0 = (List.replicate concurrencyLevel Pc.nextTask).countP Pc.holdsGuard
  rw [List.countP_replicate]
  rfl

/-- A worker about to drop its guard can: the count is positive while it holds the guard. -/
theorem stepWorker_dropGuard (he : e.GuardsCounted) (hw : e.workers[w]? = some .dropGuard) :
    ∃ e', e.stepWorker w .step = some (.ok e') := by
  have hpos : 0 < e.scheduler.numActiveTasks := by
    rw [he]
    exact List.countP_pos_iff.mpr ⟨.dropGuard, List.mem_of_getElem? hw, rfl⟩
  refine ⟨e.update w .nextTask { e.scheduler with numActiveTasks := e.scheduler.numActiveTasks - 1 }, ?_⟩
  simp only [stepWorker, hw, stepPc, Scheduler.dropTaskGuard_eq_ok hpos]
  rfl

/-- Over every interleaving of the workers' steps from the start of a block, `num_active_tasks`
is the number of workers holding a guard, it never exceeds the number of workers, and the
`assert!` of a guard's drop never fails. -/
theorem run_guardsCounted (numTxns concurrencyLevel : ℕ) (steps : List (ℕ × Action K V))
    {e : Execution K V} (h : (init numTxns concurrencyLevel).run steps = some (.ok e)) :
    e.scheduler.numActiveTasks = e.workers.countP Pc.holdsGuard ∧
      e.scheduler.numActiveTasks ≤ concurrencyLevel ∧
      ∀ w, e.workers[w]? = some .dropGuard → ∃ e', e.stepWorker w .step = some (.ok e') := by
  obtain ⟨he, hlen⟩ := run_guardsCounted_of steps (guardsCounted_init numTxns concurrencyLevel) h
  refine ⟨he, ?_, fun w hw => stepWorker_dropGuard he hw⟩
  calc e.scheduler.numActiveTasks
      = e.workers.countP Pc.holdsGuard := he
    _ ≤ e.workers.length := List.countP_le_length
    _ = concurrencyLevel := by rw [hlen]; simp [init]

/-- A worker of two that has made its guard for the one transaction of a block. -/
theorem run_guardsCounted_fetchAdd :
    ((init 1 2 : Execution ℕ ℕ).update 0 (.fetchAdd .execution) (Scheduler.new 1).newTaskGuard
      ).scheduler.numActiveTasks =
      ((init 1 2 : Execution ℕ ℕ).update 0 (.fetchAdd .execution) (Scheduler.new 1).newTaskGuard
        ).workers.countP Pc.holdsGuard ∧
    ((init 1 2 : Execution ℕ ℕ).update 0 (.fetchAdd .execution) (Scheduler.new 1).newTaskGuard
      ).scheduler.numActiveTasks ≤ 2 ∧
    ∀ w, ((init 1 2 : Execution ℕ ℕ).update 0 (.fetchAdd .execution)
        (Scheduler.new 1).newTaskGuard).workers[w]? = some .dropGuard →
      ∃ e', ((init 1 2 : Execution ℕ ℕ).update 0 (.fetchAdd .execution)
        (Scheduler.new 1).newTaskGuard).stepWorker w .step = some (.ok e') :=
  run_guardsCounted 1 2 (List.replicate 5 (0, .step)) rfl

end Execution

end AptosCore.ParallelExecutor
