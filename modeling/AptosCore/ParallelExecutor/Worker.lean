import AptosCore.ParallelExecutor.Scheduler
import AptosCore.ParallelExecutor.MVHashMap

/-!
# The worker threads of parallel execution

`ParallelTransactionExecutor::work_task_with_scope` (`parallel-executor/src/executor.rs`) runs
on every worker thread: it asks the scheduler for a task (`next_task`), executes or validates
the version it names, and carries on with the task that returns, until the scheduler is done.
A worker is modelled by where it stands between two atomic steps (`Pc`), and a block's
execution by the scheduler, the multi-version map, the last outputs and the workers
(`Execution`). `stepPc` takes one atomic step of one worker; any worker may step next, so the
runs of the model are all the interleavings of the workers' steps.

What the virtual machine does is the worker's choice (`Action`): which key a read asks for,
and the writes an execution returns, with `none` for an `Abort`. A read takes its result from
the map as `MVHashMap::read` does. The verdict of a validation is a choice too, since which keys
were read is not recorded in the model. The captured reads and the values of outputs are not
modelled. Two fields are ghost: the versions given an execution task without a condition
variable, and the versions a `try_abort` succeeded for; no step reads them.
-/

namespace AptosCore.ParallelExecutor

/-- Where a worker stands, named by the atomic step it takes next. -/
inductive Pc
  /-- `next_task`: the check of `done_marker` at the head of its loop. -/
  | nextTask
  | loadValidationIdx
  | loadExecutionIdx (idxToValidate : ℕ)
  | tryValidateNextVersion
  | tryExecuteNextVersion
  | newGuard (idx : Idx)
  | fetchAdd (idx : Idx)
  | isExecuted (idxToValidate : ℕ)
  | tryIncarnate (idxToExecute : ℕ)
  /-- `check_done`: its four loads, the second load of `decrease_cnt`, and the store. -/
  | checkDone
  | checkDoneValidationIdx (observedCnt : ℕ)
  | checkDoneExecutionIdx (observedCnt valIdx : ℕ)
  | checkDoneNumTasks (observedCnt valIdx execIdx : ℕ)
  | checkDoneRecheck (observedCnt : ℕ)
  | checkDoneStore
  /-- `execute` of an `ExecutionTask` without a condition variable: the virtual machine runs. -/
  | executing (txnIdx incarnation : ℕ)
  /-- A read of the execution waits on the flag of a dependency condition variable. -/
  | waiting (txnIdx incarnation condvar : ℕ)
  /-- `finish_execution`, after the writes and the record. -/
  | finishExecution (txnIdx incarnation : ℕ) (revalidateSuffix : Bool)
  | takeDependencies (txnIdx incarnation : ℕ) (revalidateSuffix : Bool)
  | resume (txnIdx incarnation : ℕ) (revalidateSuffix : Bool) (deps : List ℕ) (minDep : Option ℕ)
  | loadValidationIdxAfterExecution (txnIdx incarnation : ℕ) (revalidateSuffix : Bool)
  /-- `validate` of a `ValidationTask`, then `finish_abort` after a successful abort. -/
  | validating (txnIdx incarnation : ℕ)
  | markEstimates (txnIdx incarnation : ℕ)
  | setAbortedStatus (txnIdx incarnation : ℕ)
  | loadExecutionIdxAfterAbort (txnIdx : ℕ)
  | incarnateAfterAbort (txnIdx : ℕ)
  /-- An `ExecutionTask` with a condition variable: set its flag and notify. -/
  | notify (condvar : ℕ)
  /-- `decrease_execution_idx` or `decrease_validation_idx`, then `next`. -/
  | decreaseIdx (idx : Idx) (targetIdx : ℕ) (next : Pc)
  | bumpDecreaseCnt (next : Pc)
  /-- The end of a task: its guard is dropped and `next_task` is called. -/
  | dropGuard
  /-- `SchedulerTask::Done`: the loop is left. -/
  | done
  deriving DecidableEq

/-- What a worker's step may depend on besides the shared state. -/
inductive Action (K V : Type)
  /-- The next atomic step, with no choice in it. -/
  | step
  /-- A read of the running execution, at a key. -/
  | read (key : K)
  /-- The virtual machine returns: the writes of its output, `none` for an `Abort`. -/
  | finishVm (writes : Option (List (K × V)))
  /-- The read set of a validation is found valid or not. -/
  | validate (valid : Bool)

/-- A block in parallel execution: the scheduler, the multi-version map, the output recorded
for each transaction by `TxnLastInputOutput::record` (`none` until the first), the flag of each
dependency condition variable, the number the next one is created with, and the workers;
then the two ghost lists. -/
structure Execution (K V : Type) where
  scheduler : Scheduler
  versionedData : MVHashMap K V
  outputs : ℕ → Option (Option (List (K × V)))
  condvars : ℕ → Bool
  nextCondvar : ℕ
  workers : List Pc
  executionTasks : List (ℕ × ℕ)
  aborts : List (ℕ × ℕ)

namespace Execution

variable {K V : Type} [DecidableEq K]

/-- The start of `execute_transactions_parallel` for a block of `numTxns` transactions and
`concurrencyLevel` workers, each about to call `next_task`. -/
def init (numTxns concurrencyLevel : ℕ) : Execution K V where
  scheduler := Scheduler.new numTxns
  versionedData := MVHashMap.new
  outputs := fun _ => none
  condvars := fun _ => false
  nextCondvar := 0
  workers := List.replicate concurrencyLevel .nextTask
  executionTasks := []
  aborts := []

/-- `TxnLastInputOutput::write_set`: the keys of the recorded output. -/
def writeSet (e : Execution K V) (txnIdx : ℕ) : List K :=
  match e.outputs txnIdx with
  | some (some writes) => writes.map Prod.fst
  | _ => []

/-- The worker `w` moves to `pc`. -/
def goto (e : Execution K V) (w : ℕ) (pc : Pc) : Execution K V :=
  { e with workers := e.workers.set w pc }

/-- The worker `w` moves to `pc` after a step on the scheduler. -/
def update (e : Execution K V) (w : ℕ) (pc : Pc) (s : Scheduler) : Execution K V :=
  { e with scheduler := s, workers := e.workers.set w pc }

/-- `try_incarnate` and the task it gives: an execution, a condition variable to notify, or
nothing, and then the guard is dropped. -/
def incarnate (e : Execution K V) (w txnIdx : ℕ) : Execution K V :=
  match e.scheduler.tryIncarnate txnIdx with
  | (some (incarnation, none), s) =>
    { e.update w (.executing txnIdx incarnation) s with
      executionTasks := e.executionTasks ++ [(txnIdx, incarnation)] }
  | (some (_, some condvar), s) => e.update w (.notify condvar) s
  | (none, s) => e.update w .dropGuard s

/-- The deletes of `execute` for the keys of the previous write set not written again. -/
def deleteAll (txnIdx : ℕ) (keys : List K) (m : MVHashMap K V) : Except String (MVHashMap K V) :=
  keys.foldlM (fun m k => m.delete k txnIdx) m

/-- The rest of `execute` once the virtual machine returns: the writes, the deletes, the
record, and then `finish_execution` with whether a write fell outside the previous write set. -/
def finishVm (e : Execution K V) (w txnIdx incarnation : ℕ) (writes : Option (List (K × V))) :
    Except String (Execution K V) :=
  match writes with
  | some ws => do
    let (prevWriteSet, writesOutside, m) ←
      MVHashMap.applyWrites (txnIdx, incarnation) ws (e.writeSet txnIdx) false e.versionedData
    let m ← deleteAll txnIdx prevWriteSet m
    return { e.goto w (.finishExecution txnIdx incarnation writesOutside) with
      versionedData := m, outputs := Function.update e.outputs txnIdx (some (some ws)) }
  | none => do
    let m ← deleteAll txnIdx (e.writeSet txnIdx) e.versionedData
    return { e.goto w (.finishExecution txnIdx incarnation false) with
      versionedData := m, outputs := Function.update e.outputs txnIdx (some none) }

/-- A read of the execution of `txnIdx`: a value or storage leaves the shared state alone, and
a dependency calls `wait_for_dependency` with a new condition variable. -/
def readKey (e : Execution K V) (w txnIdx incarnation : ℕ) (key : K) :
    Except String (Execution K V) :=
  match e.versionedData.read key txnIdx with
  | .error (some depTxnIdx) => do
    let (waitOn, s) ←
      e.scheduler.waitForDependency txnIdx depTxnIdx e.nextCondvar
    let pc := match waitOn with
      | some condvar => .waiting txnIdx incarnation condvar
      | none => .executing txnIdx incarnation
    return { e.update w pc s with nextCondvar := e.nextCondvar + 1 }
  | _ => .ok e

/-- `validate`, with the verdict on the read set given. -/
def validate (e : Execution K V) (w txnIdx incarnation : ℕ) (valid : Bool) :
    Except String (Execution K V) :=
  if (e.outputs txnIdx).isNone then .error "Prior read-set must be recorded"
  else if valid then .ok (e.goto w .dropGuard)
  else
    match e.scheduler.tryAbort txnIdx incarnation with
    | (true, s) =>
      .ok { e.update w (.markEstimates txnIdx incarnation) s with
        aborts := e.aborts ++ [(txnIdx, incarnation)] }
    | (false, _) => .ok (e.goto w .dropGuard)

/-- The `mark_estimate` of every key of the write set. -/
def markAll (txnIdx : ℕ) (keys : List K) (m : MVHashMap K V) : Except String (MVHashMap K V) :=
  keys.foldlM (fun m k => m.markEstimate k txnIdx) m

/-- Where `finish_execution` goes once its dependencies are resumed. -/
def afterResume (txnIdx incarnation : ℕ) (revalidateSuffix : Bool) : Option ℕ → Pc
  | some target =>
    .decreaseIdx .execution target (.loadValidationIdxAfterExecution txnIdx incarnation revalidateSuffix)
  | none => .loadValidationIdxAfterExecution txnIdx incarnation revalidateSuffix

/-- One atomic step of the worker `w` standing at `pc`: `none` when the action is not one it
can take there. -/
def stepPc (e : Execution K V) (w : ℕ) : Pc → Action K V → Option (Except String (Execution K V))
  | .nextTask, .step =>
    some (.ok (e.goto w (if e.scheduler.doneMarker then .done else .loadValidationIdx)))
  | .loadValidationIdx, .step => some (.ok (e.goto w (.loadExecutionIdx e.scheduler.validationIdx)))
  | .loadExecutionIdx idxToValidate, .step =>
    some (.ok (e.goto w (if idxToValidate < e.scheduler.executionIdx then .tryValidateNextVersion
      else .tryExecuteNextVersion)))
  | .tryValidateNextVersion, .step =>
    some (.ok (e.goto w (if e.scheduler.numTxns ≤ e.scheduler.validationIdx then .checkDone
      else .newGuard .validation)))
  | .tryExecuteNextVersion, .step =>
    some (.ok (e.goto w (if e.scheduler.numTxns ≤ e.scheduler.executionIdx then .checkDone
      else .newGuard .execution)))
  | .newGuard idx, .step => some (.ok (e.update w (.fetchAdd idx) e.scheduler.newTaskGuard))
  | .fetchAdd .validation, .step =>
    let (v, s) := e.scheduler.fetchAdd .validation
    some (.ok (e.update w (.isExecuted v) s))
  | .fetchAdd .execution, .step =>
    let (v, s) := e.scheduler.fetchAdd .execution
    some (.ok (e.update w (.tryIncarnate v) s))
  | .isExecuted idx, .step =>
    some (.ok (e.goto w (match e.scheduler.isExecuted idx with
      | some incarnation => .validating idx incarnation
      | none => .dropGuard)))
  | .tryIncarnate idx, .step => some (.ok (e.incarnate w idx))
  | .checkDone, .step => some (.ok (e.goto w (.checkDoneValidationIdx e.scheduler.decreaseCnt)))
  | .checkDoneValidationIdx c, .step =>
    some (.ok (e.goto w (.checkDoneExecutionIdx c e.scheduler.validationIdx)))
  | .checkDoneExecutionIdx c valIdx, .step =>
    some (.ok (e.goto w (.checkDoneNumTasks c valIdx e.scheduler.executionIdx)))
  | .checkDoneNumTasks c valIdx execIdx, .step =>
    -- work remaining: `check_done` is false, and `next_task` loops
    some (.ok (e.goto w (if min execIdx valIdx < e.scheduler.numTxns ∨ 0 < e.scheduler.numActiveTasks
      then .nextTask else .checkDoneRecheck c)))
  | .checkDoneRecheck c, .step =>
    some (.ok (e.goto w (if c = e.scheduler.decreaseCnt then .checkDoneStore else .nextTask)))
  | .checkDoneStore, .step => some (.ok (e.update w .nextTask e.scheduler.markDone))
  | .executing txnIdx incarnation, .read key => some (e.readKey w txnIdx incarnation key)
  | .executing txnIdx incarnation, .finishVm writes => some (e.finishVm w txnIdx incarnation writes)
  | .waiting txnIdx incarnation condvar, .step =>
    if e.condvars condvar then some (.ok (e.goto w (.executing txnIdx incarnation))) else none
  | .finishExecution txnIdx incarnation rs, .step =>
    some ((e.scheduler.setExecutedStatus txnIdx incarnation).map
      (e.update w (.takeDependencies txnIdx incarnation rs)))
  | .takeDependencies txnIdx incarnation rs, .step =>
    let (deps, s) := e.scheduler.takeDependencies txnIdx
    some (.ok (e.update w (.resume txnIdx incarnation rs deps deps.min?) s))
  | .resume txnIdx incarnation rs (dep :: deps) minDep, .step =>
    some ((e.scheduler.resume dep).map (e.update w (.resume txnIdx incarnation rs deps minDep)))
  | .resume txnIdx incarnation rs [] minDep, .step =>
    some (.ok (e.goto w (afterResume txnIdx incarnation rs minDep)))
  | .loadValidationIdxAfterExecution txnIdx incarnation rs, .step =>
    -- a lower validation index will validate the transaction anyway
    some (.ok (e.goto w (if txnIdx < e.scheduler.validationIdx then
      (if rs then .decreaseIdx .validation txnIdx .dropGuard else .validating txnIdx incarnation)
      else .dropGuard)))
  | .validating txnIdx incarnation, .validate valid => some (e.validate w txnIdx incarnation valid)
  | .markEstimates txnIdx incarnation, .step =>
    some ((markAll txnIdx (e.writeSet txnIdx) e.versionedData).map fun m =>
      { e.goto w (.setAbortedStatus txnIdx incarnation) with versionedData := m })
  | .setAbortedStatus txnIdx incarnation, .step =>
    some ((e.scheduler.setAbortedStatus txnIdx incarnation).map
      (e.update w (.decreaseIdx .validation (txnIdx + 1) (.loadExecutionIdxAfterAbort txnIdx))))
  | .loadExecutionIdxAfterAbort txnIdx, .step =>
    some (.ok (e.goto w (if txnIdx < e.scheduler.executionIdx then .incarnateAfterAbort txnIdx
      else .dropGuard)))
  | .incarnateAfterAbort txnIdx, .step => some (.ok (e.incarnate w txnIdx))
  | .notify condvar, .step =>
    some (.ok { e.goto w .dropGuard with condvars := Function.update e.condvars condvar true })
  | .decreaseIdx idx targetIdx next, .step =>
    let (lowered, s) := e.scheduler.fetchMin idx targetIdx
    some (.ok (e.update w (if lowered then .bumpDecreaseCnt next else next) s))
  | .bumpDecreaseCnt next, .step => some (.ok (e.update w next e.scheduler.bumpDecreaseCnt))
  | .dropGuard, .step => some ((e.scheduler.dropTaskGuard).map (e.update w .nextTask))
  | _, _ => none

/-- One atomic step of the worker `w`. -/
def stepWorker (e : Execution K V) (w : ℕ) (a : Action K V) : Option (Except String (Execution K V)) :=
  match e.workers[w]? with
  | some pc => e.stepPc w pc a
  | none => none

/-- A run of the given steps, one worker at a time: `none` when a step cannot be taken, an error
when a worker panics. -/
def run (e : Execution K V) : List (ℕ × Action K V) → Option (Except String (Execution K V))
  | [] => some (.ok e)
  | (w, a) :: steps =>
    match e.stepWorker w a with
    | some (.ok e') => e'.run steps
    | some (.error msg) => some (.error msg)
    | none => none

end Execution

end AptosCore.ParallelExecutor
