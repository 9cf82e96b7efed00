import Mathlib.Logic.Function.Basic
import Mathlib.Order.Basic

/-!
# The Block-STM scheduler

`aptos-move/parallel-executor/src/scheduler.rs`. The scheduler hands the worker threads of a
block their tasks. It keeps the status of every transaction under a mutex of its own, for each
transaction the list of those waiting for its next execution under another, and two shared
indices that sweep the block for executions and for validations, with a count of the times
either went down.

Each function here is one atomic step of the source: the body of one critical section, or one
access to an atomic counter. A function of the source that takes several such steps
(`decrease_validation_idx`, `check_done`, `next_task`) is a sequence of worker steps in
`Worker.lean`. `wait_for_dependency` is one step: it holds the dependency list it adds to from
before it looks at the status of the transaction depended on until after it has added to it,
and the only other status it writes belongs to the transaction its own worker is executing.

A dependency condition variable is named by the number it was created with; the flag it guards
is part of the worker model.
-/

namespace AptosCore.ParallelExecutor

/-- `TransactionStatus`, each with the latest incarnation of its transaction. The source
compares statuses only with `Executing`, `Executed` and `Aborting`, which carry no condition
variable, so its `PartialEq` (which ignores condition variables) agrees with equality here. -/
inductive TransactionStatus
  | readyToExecute (incarnation : ℕ) (condvar : Option ℕ)
  | executing (incarnation : ℕ)
  | suspended (incarnation : ℕ) (condvar : ℕ)
  | executed (incarnation : ℕ)
  | aborting (incarnation : ℕ)
  deriving DecidableEq

namespace TransactionStatus

/-- The incarnation a status holds. -/
def incarnation : TransactionStatus → ℕ
  | readyToExecute i _ => i
  | executing i => i
  | suspended i _ => i
  | executed i => i
  | aborting i => i

/-- The status diagram of the source: `Ready(i) → Executing(i) → Executed(i) → Aborting(i) →
Ready(i + 1)`, and `Executing(i) → Suspended(i) → Ready(i, Some cv) → Executing(i)`. -/
inductive Moves : TransactionStatus → TransactionStatus → Prop
  | incarnate (i : ℕ) (c : Option ℕ) : Moves (readyToExecute i c) (executing i)
  | suspend (i c : ℕ) : Moves (executing i) (suspended i c)
  | resume (i c : ℕ) : Moves (suspended i c) (readyToExecute i (some c))
  | finishExecution (i : ℕ) : Moves (executing i) (executed i)
  | abort (i : ℕ) : Moves (executed i) (aborting i)
  | finishAbort (i : ℕ) : Moves (aborting i) (readyToExecute (i + 1) none)

/-- Along the diagram an incarnation never goes down. -/
theorem Moves.incarnation_le {s t : TransactionStatus} (h : Moves s t) :
    s.incarnation ≤ t.incarnation := by
  cases h <;> simp [incarnation]

end TransactionStatus

/-- The two shared indices of the scheduler. -/
inductive Idx
  | execution
  | validation
  deriving DecidableEq

/-- `Scheduler`: the size of the block, the two shared indices and the count of their
decreases, the count of live task guards, the done marker, and for each transaction its
dependency list and its status. -/
structure Scheduler where
  numTxns : ℕ
  executionIdx : ℕ
  validationIdx : ℕ
  decreaseCnt : ℕ
  numActiveTasks : ℕ
  doneMarker : Bool
  txnDependency : ℕ → List ℕ
  txnStatus : ℕ → TransactionStatus

namespace Scheduler

/-- `Scheduler::new`. -/
def new (numTxns : ℕ) : Scheduler where
  numTxns := numTxns
  executionIdx := 0
  validationIdx := 0
  decreaseCnt := 0
  numActiveTasks := 0
  doneMarker := false
  txnDependency := fun _ => []
  txnStatus := fun _ => .readyToExecute 0 none

/-- One of the two shared indices. -/
def idx (s : Scheduler) : Idx → ℕ
  | .execution => s.executionIdx
  | .validation => s.validationIdx

/-- A store to one of the two shared indices. -/
def setIdx (s : Scheduler) : Idx → ℕ → Scheduler
  | .execution, v => { s with executionIdx := v }
  | .validation, v => { s with validationIdx := v }

/-- The `fetch_add(1)` of `try_execute_next_version` or `try_validate_next_version`. -/
def fetchAdd (s : Scheduler) (idx : Idx) : ℕ × Scheduler :=
  (s.idx idx, s.setIdx idx (s.idx idx + 1))

/-- The `fetch_min` of `decrease_execution_idx` or `decrease_validation_idx`, with whether it
lowered the index. -/
def fetchMin (s : Scheduler) (idx : Idx) (targetIdx : ℕ) : Bool × Scheduler :=
  (decide (targetIdx < s.idx idx), s.setIdx idx (min (s.idx idx) targetIdx))

/-- The `fetch_add(1)` on `decrease_cnt` after an index went down. -/
def bumpDecreaseCnt (s : Scheduler) : Scheduler := { s with decreaseCnt := s.decreaseCnt + 1 }

/-- `TaskGuard::new`. -/
def newTaskGuard (s : Scheduler) : Scheduler := { s with numActiveTasks := s.numActiveTasks + 1 }

/-- Dropping a `TaskGuard`, with its `assert!`. -/
def dropTaskGuard (s : Scheduler) : Except String Scheduler :=
  if 0 < s.numActiveTasks then .ok { s with numActiveTasks := s.numActiveTasks - 1 }
  else .error "assertion failed: self.counter.fetch_sub(1, Ordering::SeqCst) > 0"

/-- The store of `check_done` to `done_marker`. -/
def markDone (s : Scheduler) : Scheduler := { s with doneMarker := true }

/-- A write of one transaction's status, under its mutex. -/
def setStatus (s : Scheduler) (txnIdx : ℕ) (status : TransactionStatus) : Scheduler :=
  { s with txnStatus := Function.update s.txnStatus txnIdx status }

/-- `try_abort`. -/
def tryAbort (s : Scheduler) (txnIdx incarnation : ℕ) : Bool × Scheduler :=
  if s.txnStatus txnIdx = .executed incarnation then
    (true, s.setStatus txnIdx (.aborting incarnation))
  else (false, s)

/-- `try_incarnate`. -/
def tryIncarnate (s : Scheduler) (txnIdx : ℕ) : Option (ℕ × Option ℕ) × Scheduler :=
  if s.numTxns ≤ txnIdx then (none, s)
  else
    match s.txnStatus txnIdx with
    | .readyToExecute incarnation maybeCondvar =>
      (some (incarnation, maybeCondvar), s.setStatus txnIdx (.executing incarnation))
    | _ => (none, s)

/-- `is_executed`. -/
def isExecuted (s : Scheduler) (txnIdx : ℕ) : Option ℕ :=
  if s.numTxns ≤ txnIdx then none
  else
    match s.txnStatus txnIdx with
    | .executed incarnation => some incarnation
    | _ => none

/-- The panic of `unreachable!()`. -/
def unreachableMessage : String := "internal error: entered unreachable code"

/-- `suspend`. -/
def suspend (s : Scheduler) (txnIdx depCondvar : ℕ) : Except String Scheduler :=
  match s.txnStatus txnIdx with
  | .executing incarnation => .ok (s.setStatus txnIdx (.suspended incarnation depCondvar))
  | _ => .error unreachableMessage

/-- `resume`. -/
def resume (s : Scheduler) (txnIdx : ℕ) : Except String Scheduler :=
  match s.txnStatus txnIdx with
  | .suspended incarnation depCondvar =>
    .ok (s.setStatus txnIdx (.readyToExecute incarnation (some depCondvar)))
  | _ => .error unreachableMessage

/-- `set_executed_status`, its `debug_assert!` failing as a panic. -/
def setExecutedStatus (s : Scheduler) (txnIdx incarnation : ℕ) : Except String Scheduler :=
  if s.txnStatus txnIdx = .executing incarnation then
    .ok (s.setStatus txnIdx (.executed incarnation))
  else .error "assertion failed: *status == TransactionStatus::Executing(incarnation)"

/-- `set_aborted_status`, its `debug_assert!` failing as a panic. -/
def setAbortedStatus (s : Scheduler) (txnIdx incarnation : ℕ) : Except String Scheduler :=
  if s.txnStatus txnIdx = .aborting incarnation then
    .ok (s.setStatus txnIdx (.readyToExecute (incarnation + 1) none))
  else .error "assertion failed: *status == TransactionStatus::Aborting(incarnation)"

/-- `wait_for_dependency`, whole, with `depCondvar` the condition variable it creates: the
condition variable when the worker is to wait, `none` when the dependency is resolved. -/
def waitForDependency (s : Scheduler) (txnIdx depTxnIdx depCondvar : ℕ) :
    Except String (Option ℕ × Scheduler) :=
  if (s.isExecuted depTxnIdx).isSome then .ok (none, s)
  else do
    let s ← s.suspend txnIdx depCondvar
    let stored := s.txnDependency depTxnIdx ++ [txnIdx]
    return (some depCondvar,
      { s with txnDependency := Function.update s.txnDependency depTxnIdx stored })

/-- The critical section of `finish_execution` that takes its dependency list. -/
def takeDependencies (s : Scheduler) (txnIdx : ℕ) : List ℕ × Scheduler :=
  (s.txnDependency txnIdx, { s with txnDependency := Function.update s.txnDependency txnIdx [] })

end Scheduler

end AptosCore.ParallelExecutor
