import AptosCore.ParallelExecutor.TaskGuard

/-!
# The owners of the transactions' statuses

Every status change of the scheduler checks the status it changes: `set_executed_status` and
`set_aborted_status` by a `debug_assert!`, `suspend` and `resume` by an `unreachable!()` on any
other status (`scheduler.rs`). Each status sits behind a mutex of its own, taken for the one
change only, so nothing but the protocol of the workers makes these checks pass.

A worker owns a transaction (`Pc.owned`) from the `try_incarnate` that gives it the execution
until its `set_executed_status`, through the reads, a wait on a dependency and the resumption
of that wait, and from the `try_abort` of its validation until its `set_aborted_status`. A
transaction has at most one owner, and only the owner changes a status from `Executing`,
`Suspended` or `Aborting`; `try_incarnate` and `try_abort` make an owner only of a transaction
that has none, since they change `ReadyToExecute(_, None)` and `Executed`. A suspended
transaction is listed once among the dependency lists and the lists `finish_execution` resumes,
and only suspended transactions are listed, so `resume` finds its transaction suspended. A
condition variable is fresh when a read suspends on it, and it is set only after the
incarnation that resumes the suspended execution, so a waiting worker goes on only once its
transaction executes again.

`Owned` gathers these facts. Each step of a worker keeps it: a step that changes no status
through `Owned.move`, and each of the seven status changes through a lemma of its own.
-/

namespace AptosCore.ParallelExecutor

namespace TransactionStatus

/-- The condition variable a status names: the one a suspended execution waits on, kept when
the execution is resumed for its next incarnation to notify. -/
def condvar? : TransactionStatus → Option ℕ
  | suspended _ c => some c
  | readyToExecute _ c => c
  | _ => none

/-- Whether a transaction waits on a dependency. -/
def isSuspended : TransactionStatus → Bool
  | suspended _ _ => true
  | _ => false

/-- The statuses a transaction has while a worker owns it. -/
def isHeld : TransactionStatus → Bool
  | executing _ | suspended _ _ | aborting _ => true
  | readyToExecute _ c => c.isSome
  | executed _ => false

theorem eq_suspended_of_isSuspended {st : TransactionStatus} (h : st.isSuspended) :
    ∃ i c, st = suspended i c := by
  cases st <;> simp only [isSuspended, Bool.false_eq_true] at h
  exact ⟨_, _, rfl⟩

end TransactionStatus

namespace Pc

/-- The transaction whose status the worker owns: the one it executes, from `try_incarnate`
until `set_executed_status`, or the one its validation aborted, from `try_abort` until
`set_aborted_status`. -/
def owned : Pc → Option ℕ
  | executing j _ | waiting j _ _ | finishExecution j _ _ => some j
  | markEstimates j _ | setAbortedStatus j _ => some j
  | _ => none

/-- The dependencies `finish_execution` has taken and not yet resumed. -/
def resumeList : Pc → List ℕ
  | resume _ _ _ deps _ => deps
  | _ => []

/-- The condition variable a worker waits on or is about to notify. -/
def condvar? : Pc → Option ℕ
  | waiting _ _ c | notify c => some c
  | _ => none

theorem eq_of_condvar?_eq_some {pc : Pc} {c : ℕ} (h : pc.condvar? = some c) :
    (∃ j i, pc = waiting j i c) ∨ pc = notify c := by
  cases pc <;> simp only [condvar?, reduceCtorEq, Option.some.injEq] at h <;> subst h
  · exact .inl ⟨_, _, rfl⟩
  · exact .inr rfl

/-- A step that holds none of the above, as the steps after a lowered index are. -/
def Free (pc : Pc) : Prop := pc.owned = none ∧ pc.condvar? = none ∧ pc.resumeList = []

end Pc

namespace Scheduler

/-! ## The status changes of the scheduler -/

variable {s s' : Scheduler} {k : ℕ}

@[simp] theorem txnStatus_setStatus (st : TransactionStatus) :
    (s.setStatus k st).txnStatus = Function.update s.txnStatus k st := rfl

@[simp] theorem txnDependency_setStatus (st : TransactionStatus) :
    (s.setStatus k st).txnDependency = s.txnDependency := rfl

theorem tryIncarnate_eq_some {i : ℕ} {c : Option ℕ} (h : s.tryIncarnate k = (some (i, c), s')) :
    s.txnStatus k = .readyToExecute i c ∧ s' = s.setStatus k (.executing i) := by
  unfold tryIncarnate at h
  split_ifs at h
  · cases h
  split at h
  · cases h
    exact ⟨by assumption, rfl⟩
  · cases h

theorem tryIncarnate_eq_none (h : s.tryIncarnate k = (none, s')) : s' = s := by
  unfold tryIncarnate at h
  split_ifs at h
  · exact (Prod.mk.inj h).2.symm
  split at h
  · cases h
  · exact (Prod.mk.inj h).2.symm

theorem tryAbort_eq_true {i : ℕ} (h : (s.tryAbort k i).1 = true) :
    s.txnStatus k = .executed i ∧ (s.tryAbort k i).2 = s.setStatus k (.aborting i) := by
  unfold tryAbort at h ⊢
  split_ifs at h ⊢ with hs
  exact ⟨hs, rfl⟩

theorem tryAbort_eq_false {i : ℕ} (h : (s.tryAbort k i).1 = false) : (s.tryAbort k i).2 = s := by
  unfold tryAbort at h ⊢
  split_ifs at h ⊢
  rfl

theorem suspend_eq {i c : ℕ} (h : s.txnStatus k = .executing i) :
    s.suspend k c = .ok (s.setStatus k (.suspended i c)) := by
  simp [suspend, h]

theorem resume_eq {i c : ℕ} (h : s.txnStatus k = .suspended i c) :
    s.resume k = .ok (s.setStatus k (.readyToExecute i (some c))) := by
  simp [resume, h]

theorem setExecutedStatus_eq {i : ℕ} (h : s.txnStatus k = .executing i) :
    s.setExecutedStatus k i = .ok (s.setStatus k (.executed i)) := by
  simp [setExecutedStatus, h]

theorem setAbortedStatus_eq {i : ℕ} (h : s.txnStatus k = .aborting i) :
    s.setAbortedStatus k i = .ok (s.setStatus k (.readyToExecute (i + 1) none)) := by
  simp [setAbortedStatus, h]

/-- `wait_for_dependency` of an executing transaction: nothing when the dependency is
executed, else the transaction suspended on the new condition variable and added to the
dependency's list. -/
theorem waitForDependency_eq {d c i : ℕ} (h : s.txnStatus k = .executing i) :
    s.waitForDependency k d c =
      if (s.isExecuted d).isSome then .ok (none, s)
      else .ok (some c, { s.setStatus k (.suspended i c) with
        txnDependency := Function.update s.txnDependency d (s.txnDependency d ++ [k]) }) := by
  unfold waitForDependency
  split_ifs
  · rfl
  · rw [suspend_eq h]
    rfl

end Scheduler

namespace Execution

variable {K V : Type}

/-- What the next steps of a worker standing at a step rely on: the status of the transaction
it owns, the flag of the condition variable it waits on, the output its task reads, and the
status of the dependencies it is to resume. -/
def WorkerOk (e : Execution K V) : Pc → Prop
  | .executing j i => e.scheduler.txnStatus j = .executing i
  | .waiting j i c => c < e.nextCondvar ∧
      ((e.scheduler.txnStatus j = .suspended i c ∨
          e.scheduler.txnStatus j = .readyToExecute i (some c)) ∧ e.condvars c = false ∨
        e.scheduler.txnStatus j = .executing i)
  | .finishExecution j i _ => e.scheduler.txnStatus j = .executing i ∧ (e.outputs j).isSome
  | .takeDependencies j _ _ | .loadValidationIdxAfterExecution j _ _ | .validating j _ =>
    (e.outputs j).isSome
  | .resume j _ _ deps _ =>
    (e.outputs j).isSome ∧ ∀ k ∈ deps, (e.scheduler.txnStatus k).isSuspended
  | .markEstimates j i | .setAbortedStatus j i => e.scheduler.txnStatus j = .aborting i
  | .notify c => c < e.nextCondvar
  | .decreaseIdx _ _ next | .bumpDecreaseCnt next => e.WorkerOk next ∧ next.Free
  | _ => True

/-- Where a transaction waiting to be resumed is listed: in the dependency list of a
transaction, or in the list a worker's `finish_execution` resumes. -/
inductive Listing
  | dependency (txnIdx : ℕ)
  | worker (w : ℕ)
  deriving DecidableEq

/-- The transactions listed at a place. -/
def listed (e : Execution K V) : Listing → List ℕ
  | .dependency d => e.scheduler.txnDependency d
  | .worker w => (e.workers[w]?.map Pc.resumeList).getD []

/-- The protocol of ownership, over the whole execution. -/
structure Owned (e : Execution K V) : Prop where
  worker_ok : ∀ (w : ℕ) pc, e.workers[w]? = some pc → e.WorkerOk pc
  owner_unique : ∀ (v w : ℕ) pc pc' j, e.workers[v]? = some pc → e.workers[w]? = some pc' →
    pc.owned = some j → pc'.owned = some j → v = w
  condvar_unique : ∀ j k c, (e.scheduler.txnStatus j).condvar? = some c →
    (e.scheduler.txnStatus k).condvar? = some c → j = k
  status_fresh : ∀ j c, (e.scheduler.txnStatus j).condvar? = some c → c < e.nextCondvar
  flag_fresh : ∀ c, e.nextCondvar ≤ c → e.condvars c = false
  /-- a notification not yet sent is for a transaction that executes again -/
  notify_ready : ∀ (v u : ℕ) c j i, e.workers[v]? = some (.notify c) →
    e.workers[u]? = some (.waiting j i c) → e.scheduler.txnStatus j = .executing i
  dependency_suspended : ∀ d k, k ∈ e.scheduler.txnDependency d →
    (e.scheduler.txnStatus k).isSuspended
  listed_nodup : ∀ l, (e.listed l).Nodup
  listed_unique : ∀ l l' k, k ∈ e.listed l → k ∈ e.listed l' → l = l'
  executed_recorded : ∀ j i, e.scheduler.txnStatus j = .executed i → (e.outputs j).isSome

variable {e e' : Execution K V} {w : ℕ} {pc pc' : Pc}

/-! ## One worker's facts -/

/-- A worker owns only a transaction in a status it holds. -/
theorem WorkerOk.isHeld {j : ℕ} (h : e.WorkerOk pc) (hj : pc.owned = some j) :
    (e.scheduler.txnStatus j).isHeld := by
  cases pc <;> simp only [Pc.owned, reduceCtorEq, Option.some.injEq] at hj <;> subst hj
  case executing => rw [show e.scheduler.txnStatus _ = _ from h]; rfl
  case waiting =>
    obtain ⟨-, ⟨hs | hs, -⟩ | hs⟩ := h <;> rw [hs] <;> rfl
  case finishExecution => rw [h.1]; rfl
  case markEstimates | setAbortedStatus => rw [show e.scheduler.txnStatus _ = _ from h]; rfl

/-- A suspended transaction, and one resumed for its next incarnation, is owned by no one but
the worker waiting on its condition variable. -/
theorem WorkerOk.eq_waiting {q : Pc} {k i c : ℕ} (h : e.WorkerOk q) (hq : q.owned = some k)
    (hk : e.scheduler.txnStatus k = .suspended i c ∨
      e.scheduler.txnStatus k = .readyToExecute i (some c)) : q = .waiting k i c := by
  cases q with
  | executing j i' =>
    obtain rfl : j = k := Option.some.inj hq
    have hs : e.scheduler.txnStatus j = _ := h
    rcases hk with hk | hk <;> rw [hs] at hk <;> cases hk
  | waiting j i' c' =>
    obtain rfl : j = k := Option.some.inj hq
    obtain ⟨-, ⟨hs | hs, -⟩ | hs⟩ := h <;> rcases hk with hk | hk <;> rw [hs] at hk <;>
      cases hk <;> rfl
  | finishExecution j i' _ =>
    obtain rfl : j = k := Option.some.inj hq
    rcases hk with hk | hk <;> rw [h.1] at hk <;> cases hk
  | markEstimates j i' | setAbortedStatus j i' =>
    obtain rfl : j = k := Option.some.inj hq
    have hs : e.scheduler.txnStatus j = _ := h
    rcases hk with hk | hk <;> rw [hs] at hk <;> cases hk
  | _ => cases hq

/-- The dependencies a worker is to resume are suspended. -/
theorem WorkerOk.resumeList_suspended {k : ℕ} (h : e.WorkerOk pc) (hk : k ∈ pc.resumeList) :
    (e.scheduler.txnStatus k).isSuspended := by
  cases pc <;> simp only [Pc.resumeList, List.not_mem_nil] at hk
  exact h.2 k hk

/-- A worker's facts survive a change of what it does not read. -/
theorem WorkerOk.mono (h : e.WorkerOk pc)
    (howned : ∀ j, pc.owned = some j → e'.scheduler.txnStatus j = e.scheduler.txnStatus j)
    (hresume : ∀ k ∈ pc.resumeList, e'.scheduler.txnStatus k = e.scheduler.txnStatus k)
    (hflag : ∀ c, pc.condvar? = some c → e'.condvars c = e.condvars c)
    (hnext : e.nextCondvar ≤ e'.nextCondvar)
    (houtputs : ∀ j, (e.outputs j).isSome → (e'.outputs j).isSome) : e'.WorkerOk pc := by
  induction pc with
  | executing j i => rw [WorkerOk, howned j rfl]; exact h
  | waiting j i c =>
    obtain ⟨hc, hs⟩ := h
    refine ⟨hc.trans_le hnext, ?_⟩
    rw [howned j rfl, hflag c rfl]
    exact hs
  | finishExecution j i _ => exact ⟨(howned j rfl).trans h.1, houtputs j h.2⟩
  | takeDependencies j _ _ | loadValidationIdxAfterExecution j _ _ | validating j _ =>
    exact houtputs j h
  | resume j _ _ deps _ =>
    refine ⟨houtputs j h.1, fun k hk => ?_⟩
    rw [hresume k hk]
    exact h.2 k hk
  | markEstimates j i | setAbortedStatus j i => rw [WorkerOk, howned j rfl]; exact h
  | notify c => exact Nat.lt_of_lt_of_le h hnext
  | decreaseIdx _ _ next ih | bumpDecreaseCnt next ih =>
    obtain ⟨hnext', hfree⟩ := h
    obtain ⟨hown, hcv, hres⟩ := hfree
    refine ⟨ih hnext' (by simp [hown]) (by simp [hres]) (by simp [hcv]), hown, hcv, hres⟩
  | _ => trivial

/-! ## The workers after one of them moves -/

/-- After the worker `w` moves, a worker stands where it stood, or is `w` at its new step. -/
theorem getElem?_set_eq_some {l : List Pc} {v : ℕ} {q : Pc} (h : (l.set w pc')[v]? = some q) :
    v = w ∧ q = pc' ∨ v ≠ w ∧ l[v]? = some q := by
  rw [List.getElem?_set] at h
  split_ifs at h with hwv
  · exact .inl ⟨hwv.symm, (Option.some.inj h).symm⟩
  · exact .inr ⟨Ne.symm hwv, h⟩

/-- A worker that moves to a step resuming part of what it resumed lists only what was listed. -/
theorem listed_sublist (hworkers : e'.workers = e.workers.set w pc')
    (hdeps : e'.scheduler.txnDependency = e.scheduler.txnDependency)
    (hresume : pc'.resumeList.Sublist (e.listed (.worker w))) (l : Listing) :
    (e'.listed l).Sublist (e.listed l) := by
  cases l with
  | dependency d => rw [listed, listed, hdeps]
  | worker v =>
    simp only [listed, hworkers, List.getElem?_set]
    split_ifs with hwv
    · subst hwv
      simpa [listed] using hresume
    · simp
    · exact List.Sublist.refl _

/-- A worker that moves to a step resuming what it resumed lists what was listed. -/
theorem listed_worker (hw : e.workers[w]? = some pc) (hworkers : e'.workers = e.workers.set w pc')
    (hresume : pc'.resumeList = pc.resumeList) (v : ℕ) :
    e'.listed (.worker v) = e.listed (.worker v) := by
  simp only [listed, hworkers, List.getElem?_set]
  split_ifs with hwv hlt
  · subst hwv
    simp [hw, hresume]
  · subst hwv
    simp [List.getElem?_eq_none (Nat.le_of_not_lt hlt)]
  · rfl

/-- Listing fewer keeps each transaction listed once. -/
theorem Owned.listed_of_sublist (h : e.Owned) (hsub : ∀ l, (e'.listed l).Sublist (e.listed l)) :
    (∀ l, (e'.listed l).Nodup) ∧ ∀ l l' k, k ∈ e'.listed l → k ∈ e'.listed l' → l = l' :=
  ⟨fun l => (h.listed_nodup l).sublist (hsub l),
    fun l l' k hk hk' => h.listed_unique l l' k ((hsub l).subset hk) ((hsub l').subset hk')⟩

/-- A step that changes no status: the worker moves to a step that owns nothing new, waits on
nothing and resumes nothing, and the execution changes otherwise at most by a recorded output
or a fresh condition variable. -/
theorem Owned.move (h : e.Owned) (hw : e.workers[w]? = some pc)
    (hworkers : e'.workers = e.workers.set w pc')
    (hstatus : e'.scheduler.txnStatus = e.scheduler.txnStatus)
    (hdeps : e'.scheduler.txnDependency = e.scheduler.txnDependency)
    (hflags : e'.condvars = e.condvars) (hnext : e.nextCondvar ≤ e'.nextCondvar)
    (houtputs : ∀ j, (e.outputs j).isSome → (e'.outputs j).isSome)
    (hok : e'.WorkerOk pc') (howned : ∀ j, pc'.owned = some j → pc.owned = some j)
    (hcondvar : pc'.condvar? = none) (hresume : pc'.resumeList = []) : e'.Owned := by
  obtain ⟨hnodup, hunique⟩ :=
    h.listed_of_sublist (listed_sublist hworkers hdeps (hresume ▸ List.nil_sublist _))
  refine ⟨fun v q hv => ?_, fun v u q q' j hv hu hq hq' => ?_, ?_, ?_, ?_,
    fun v u c j i hv hu => ?_, ?_, hnodup, hunique, fun j i hj => ?_⟩
  · rw [hworkers] at hv
    rcases getElem?_set_eq_some hv with ⟨-, rfl⟩ | ⟨-, hv₀⟩
    · exact hok
    · exact (h.worker_ok v q hv₀).mono (by simp [hstatus]) (by simp [hstatus]) (by simp [hflags])
        hnext houtputs
  · rw [hworkers] at hv hu
    rcases getElem?_set_eq_some hv with ⟨rfl, rfl⟩ | ⟨-, hv₀⟩ <;>
      rcases getElem?_set_eq_some hu with ⟨rfl, rfl⟩ | ⟨-, hu₀⟩
    · rfl
    · exact h.owner_unique _ _ _ _ j hw hu₀ (howned j hq) hq'
    · exact h.owner_unique _ _ _ _ j hv₀ hw hq (howned j hq')
    · exact h.owner_unique _ _ _ _ j hv₀ hu₀ hq hq'
  · rw [hstatus]
    exact h.condvar_unique
  · intro j c hc
    rw [hstatus] at hc
    exact (h.status_fresh j c hc).trans_le hnext
  · intro c hc
    rw [hflags]
    exact h.flag_fresh c (hnext.trans hc)
  · rw [hworkers] at hv hu
    rcases getElem?_set_eq_some hv with ⟨-, rfl⟩ | ⟨-, hv₀⟩
    · simp [Pc.condvar?] at hcondvar
    rcases getElem?_set_eq_some hu with ⟨-, rfl⟩ | ⟨-, hu₀⟩
    · simp [Pc.condvar?] at hcondvar
    rw [hstatus]
    exact h.notify_ready v u c j i hv₀ hu₀
  · rw [hdeps, hstatus]
    exact h.dependency_suspended
  · rw [hstatus] at hj
    exact houtputs j (h.executed_recorded j i hj)

/-- Only suspended transactions are listed. -/
theorem Owned.listed_suspended (h : e.Owned) {l : Listing} {k : ℕ} (hk : k ∈ e.listed l) :
    (e.scheduler.txnStatus k).isSuspended := by
  cases l with
  | dependency d => exact h.dependency_suspended d k hk
  | worker v =>
    simp only [listed] at hk
    cases hv : e.workers[v]? with
    | none => simp [hv] at hk
    | some q =>
      simp only [hv, Option.map_some, Option.getD_some] at hk
      exact (h.worker_ok v q hv).resumeList_suspended hk

/-! ## A status changed by its owner, or by the worker that takes it -/

/-- A status changed to one that names no condition variable named no other. -/
theorem condvar?_update_eq_some {σ : ℕ → TransactionStatus} {k j c : ℕ} {st : TransactionStatus}
    (hst : st.condvar? = none) (h : (Function.update σ k st j).condvar? = some c) :
    j ≠ k ∧ (σ j).condvar? = some c := by
  by_cases hjk : j = k
  · subst hjk
    rw [Function.update_self, hst] at h
    cases h
  · rw [Function.update_of_ne hjk] at h
    exact ⟨hjk, h⟩

/-- The status of a transaction `k` that is not suspended changes to one that names no
condition variable, by the worker that owns `k` or, when no one owns it,
by the worker that takes it. -/
theorem Owned.change {k : ℕ} {st : TransactionStatus} (h : e.Owned) (hw : e.workers[w]? = some pc)
    (hworkers : e'.workers = e.workers.set w pc')
    (hstatus : e'.scheduler.txnStatus = Function.update e.scheduler.txnStatus k st)
    (hdeps : e'.scheduler.txnDependency = e.scheduler.txnDependency)
    (hflags : e'.condvars = e.condvars) (hnext : e'.nextCondvar = e.nextCondvar)
    (houtputs : e'.outputs = e.outputs)
    (hmine : pc.owned = some k ∨ (e.scheduler.txnStatus k).isHeld = false)
    (hfrom : (e.scheduler.txnStatus k).isSuspended = false)
    (hcv : st.condvar? = none) (hexec : ∀ i, st = .executed i → (e.outputs k).isSome)
    (hok : e'.WorkerOk pc') (howned : ∀ j, pc'.owned = some j → j = k)
    (hcondvar : pc'.condvar? = none) (hresume : pc'.resumeList = []) : e'.Owned := by
  -- no other worker owns `k`
  have hother : ∀ (v : ℕ) (q : Pc), v ≠ w → e.workers[v]? = some q → q.owned ≠ some k := by
    intro v q hvw hv hq
    rcases hmine with hpc | hheld
    · exact hvw (h.owner_unique _ _ _ _ k hv hw hq hpc)
    · have hq' := (h.worker_ok v q hv).isHeld hq
      rw [hheld] at hq'
      cases hq'
  -- and no list holds `k`
  have hunlisted : ∀ (v : ℕ) (q : Pc) k', e.workers[v]? = some q → k' ∈ q.resumeList → k' ≠ k := by
    rintro v q k' hv hk' rfl
    have hs := (h.worker_ok v q hv).resumeList_suspended hk'
    rw [hfrom] at hs
    cases hs
  obtain ⟨hnodup, hunique⟩ :=
    h.listed_of_sublist (listed_sublist hworkers hdeps (hresume ▸ List.nil_sublist _))
  refine ⟨fun v q hv => ?_, fun v u q q' j hv hu hq hq' => ?_, ?_, ?_, ?_,
    fun v u c j i hv hu => ?_, ?_, hnodup, hunique, fun j i hj => ?_⟩
  · rw [hworkers] at hv
    rcases getElem?_set_eq_some hv with ⟨-, rfl⟩ | ⟨hvw, hv₀⟩
    · exact hok
    refine (h.worker_ok v q hv₀).mono (fun j hj => ?_) (fun k' hk' => ?_) (by simp [hflags])
      hnext.ge (by simp [houtputs])
    · have hjk : j ≠ k := by
        rintro rfl
        exact hother v q hvw hv₀ hj
      rw [hstatus, Function.update_of_ne hjk]
    · rw [hstatus, Function.update_of_ne (hunlisted v q k' hv₀ hk')]
  · rw [hworkers] at hv hu
    rcases getElem?_set_eq_some hv with ⟨rfl, rfl⟩ | ⟨hvw, hv₀⟩ <;>
      rcases getElem?_set_eq_some hu with ⟨rfl, rfl⟩ | ⟨huw, hu₀⟩
    · rfl
    · exact absurd (howned j hq ▸ hq') (hother u q' huw hu₀)
    · exact absurd (howned j hq' ▸ hq) (hother v q hvw hv₀)
    · exact h.owner_unique _ _ _ _ j hv₀ hu₀ hq hq'
  · intro j j' c hj hj'
    rw [hstatus] at hj hj'
    exact h.condvar_unique j j' c (condvar?_update_eq_some hcv hj).2
      (condvar?_update_eq_some hcv hj').2
  · intro j c hj
    rw [hstatus] at hj
    rw [hnext]
    exact h.status_fresh j c (condvar?_update_eq_some hcv hj).2
  · intro c hc
    rw [hflags]
    exact h.flag_fresh c (hnext ▸ hc)
  · rw [hworkers] at hv hu
    rcases getElem?_set_eq_some hv with ⟨-, rfl⟩ | ⟨-, hv₀⟩
    · simp [Pc.condvar?] at hcondvar
    rcases getElem?_set_eq_some hu with ⟨-, rfl⟩ | ⟨huw, hu₀⟩
    · simp [Pc.condvar?] at hcondvar
    -- the waiter owns its transaction, so it is not `k`
    have hjk : j ≠ k := by
      rintro rfl
      exact hother u _ huw hu₀ rfl
    rw [hstatus, Function.update_of_ne hjk]
    exact h.notify_ready v u c j i hv₀ hu₀
  · intro d k' hk'
    rw [hdeps] at hk'
    have hs := h.dependency_suspended d k' hk'
    have hk'k : k' ≠ k := by
      rintro rfl
      rw [hfrom] at hs
      cases hs
    rw [hstatus, Function.update_of_ne hk'k]
    exact hs
  · rw [houtputs]
    rw [hstatus] at hj
    by_cases hjk : j = k
    · subst hjk
      rw [Function.update_self] at hj
      exact hexec i hj
    · rw [Function.update_of_ne hjk] at hj
      exact h.executed_recorded j i hj

/-! ## A read that waits -/

/-- A read that depends on a transaction not yet executed: the reader's transaction is
suspended on a fresh condition variable and listed with its dependency `d`, and the reader
waits. -/
theorem Owned.suspend {j i d : ℕ} (h : e.Owned) (hw : e.workers[w]? = some (.executing j i))
    (hworkers : e'.workers = e.workers.set w (.waiting j i e.nextCondvar))
    (hstatus : e'.scheduler.txnStatus =
      Function.update e.scheduler.txnStatus j (.suspended i e.nextCondvar))
    (hdeps : e'.scheduler.txnDependency =
      Function.update e.scheduler.txnDependency d (e.scheduler.txnDependency d ++ [j]))
    (hflags : e'.condvars = e.condvars) (hnext : e'.nextCondvar = e.nextCondvar + 1)
    (houtputs : e'.outputs = e.outputs) : e'.Owned := by
  have hexec : e.scheduler.txnStatus j = .executing i := h.worker_ok w _ hw
  -- `j` is not suspended, so it is listed nowhere, and no worker but `w` owns it
  have hunlisted : ∀ l, j ∉ e.listed l := by
    intro l hj
    have hs := h.listed_suspended hj
    rw [hexec] at hs
    cases hs
  have hother : ∀ (v : ℕ) (q : Pc), v ≠ w → e.workers[v]? = some q → q.owned ≠ some j :=
    fun v q hvw hv hq => hvw (h.owner_unique _ _ _ _ j hv hw hq rfl)
  have hne : ∀ k, (e.scheduler.txnStatus k).isSuspended → k ≠ j := by
    rintro k hs rfl
    rw [hexec] at hs
    cases hs
  -- a status other than `j`'s names the same condition variable as before
  have hcv : ∀ x c', (e'.scheduler.txnStatus x).condvar? = some c' →
      x = j ∧ c' = e.nextCondvar ∨ x ≠ j ∧ (e.scheduler.txnStatus x).condvar? = some c' := by
    intro x c' hx
    rw [hstatus] at hx
    by_cases hxj : x = j
    · subst hxj
      rw [Function.update_self] at hx
      exact .inl ⟨rfl, (Option.some.inj hx).symm⟩
    · rw [Function.update_of_ne hxj] at hx
      exact .inr ⟨hxj, hx⟩
  have hlisted : ∀ l, e'.listed l =
      if l = .dependency d then e.listed l ++ [j] else e.listed l := by
    intro l
    cases l with
    | dependency d' =>
      by_cases hd : d' = d
      · subst hd
        simp [listed, hdeps]
      · simp [listed, hdeps, hd]
    | worker v => simpa using listed_worker hw hworkers rfl v
  refine ⟨fun v q hv => ?_, fun v u q q' j' hv hu hq hq' => ?_, ?_, ?_, ?_,
    fun v u c j' i' hv hu => ?_, ?_, fun l => ?_, fun l l' k hk hk' => ?_, fun x i' hx => ?_⟩
  · rw [hworkers] at hv
    rcases getElem?_set_eq_some hv with ⟨-, rfl⟩ | ⟨hvw, hv₀⟩
    · refine ⟨by omega, .inl ⟨.inl ?_, ?_⟩⟩
      · rw [hstatus, Function.update_self]
      · rw [hflags]
        exact h.flag_fresh _ le_rfl
    have hq := h.worker_ok v q hv₀
    refine hq.mono (fun j' hj' => ?_) (fun k hk => ?_) (by simp [hflags]) (by omega)
      (by simp [houtputs])
    · rw [hstatus, Function.update_of_ne]
      rintro rfl
      exact hother v q hvw hv₀ hj'
    · rw [hstatus, Function.update_of_ne (hne k (hq.resumeList_suspended hk))]
  · rw [hworkers] at hv hu
    rcases getElem?_set_eq_some hv with ⟨rfl, rfl⟩ | ⟨hvw, hv₀⟩ <;>
      rcases getElem?_set_eq_some hu with ⟨rfl, rfl⟩ | ⟨huw, hu₀⟩
    · rfl
    · exact h.owner_unique _ _ _ _ j' hw hu₀ hq hq'
    · exact h.owner_unique _ _ _ _ j' hv₀ hw hq hq'
    · exact h.owner_unique _ _ _ _ j' hv₀ hu₀ hq hq'
  · intro x y c' hx hy
    rcases hcv x c' hx with ⟨rfl, hxc⟩ | ⟨hxj, hx⟩ <;>
      rcases hcv y c' hy with ⟨rfl, hyc⟩ | ⟨hyj, hy⟩
    · rfl
    · exact absurd (h.status_fresh y c' hy) (by rw [hxc]; exact lt_irrefl _)
    · exact absurd (h.status_fresh x c' hx) (by rw [hyc]; exact lt_irrefl _)
    · exact h.condvar_unique x y c' hx hy
  · intro x c' hx
    rw [hnext]
    rcases hcv x c' hx with ⟨-, rfl⟩ | ⟨-, hx⟩
    · omega
    · exact (h.status_fresh x c' hx).trans (Nat.lt_succ_self _)
  · intro c' hc'
    rw [hflags]
    exact h.flag_fresh c' (by omega)
  · rw [hworkers] at hv hu
    rcases getElem?_set_eq_some hv with ⟨-, hq⟩ | ⟨hvw, hv₀⟩
    · cases hq
    rcases getElem?_set_eq_some hu with ⟨-, hq⟩ | ⟨huw, hu₀⟩
    · -- the new condition variable: no notification for it is pending
      cases hq
      exact absurd (h.worker_ok v _ hv₀) (lt_irrefl _)
    have hs := h.notify_ready v u c j' i' hv₀ hu₀
    rw [hstatus, Function.update_of_ne]
    · exact hs
    · rintro rfl
      exact hother u _ huw hu₀ rfl
  · intro d' k hk
    rw [hstatus]
    by_cases hkj : k = j
    · subst hkj
      rw [Function.update_self]
      rfl
    rw [Function.update_of_ne hkj]
    rw [hdeps] at hk
    by_cases hd : d' = d
    · subst hd
      rw [Function.update_self, List.mem_append, List.mem_singleton] at hk
      exact h.dependency_suspended d' k (hk.resolve_right hkj)
    · rw [Function.update_of_ne hd] at hk
      exact h.dependency_suspended d' k hk
  · rw [hlisted]
    split_ifs
    · exact (h.listed_nodup l).append (List.nodup_singleton j)
        (List.disjoint_singleton.mpr (hunlisted l))
    · exact h.listed_nodup l
  · rw [hlisted] at hk hk'
    -- `j` is listed only with `d`; any other transaction where it was
    split_ifs at hk hk' with hl hl'
    · rw [hl, hl']
    · rw [List.mem_append, List.mem_singleton] at hk
      rcases hk with hk | rfl
      · exact h.listed_unique l l' k hk hk'
      · exact absurd hk' (hunlisted l')
    · rw [List.mem_append, List.mem_singleton] at hk'
      rcases hk' with hk' | rfl
      · exact h.listed_unique l l' k hk hk'
      · exact absurd hk (hunlisted l)
    · exact h.listed_unique l l' k hk hk'
  · rw [houtputs]
    rw [hstatus] at hx
    by_cases hxj : x = j
    · subst hxj
      rw [Function.update_self] at hx
      cases hx
    · rw [Function.update_of_ne hxj] at hx
      exact h.executed_recorded x i' hx

/-! ## The resumption of the dependencies -/

/-- `finish_execution` takes the dependency list of its transaction to resume it: the list moves
from the transaction to the worker. -/
theorem Owned.takeDependencies {j i : ℕ} {rs : Bool} {m : Option ℕ} (h : e.Owned)
    (hw : e.workers[w]? = some (.takeDependencies j i rs))
    (hworkers : e'.workers = e.workers.set w (.resume j i rs (e.scheduler.txnDependency j) m))
    (hstatus : e'.scheduler.txnStatus = e.scheduler.txnStatus)
    (hdeps : e'.scheduler.txnDependency = Function.update e.scheduler.txnDependency j [])
    (hflags : e'.condvars = e.condvars) (hnext : e'.nextCondvar = e.nextCondvar)
    (houtputs : e'.outputs = e.outputs) : e'.Owned := by
  have hlt : w < e.workers.length := (List.getElem?_eq_some_iff.mp hw).1
  -- the worker's list is the dependency list of `j`, which is emptied
  have hlist : ∀ l, e'.listed l = if l = .dependency j then []
      else e.listed (if l = .worker w then .dependency j else l) := by
    intro l
    cases l with
    | dependency d =>
      by_cases hd : d = j
      · subst hd
        simp [listed, hdeps]
      · simp [listed, hdeps, hd]
    | worker v =>
      by_cases hv : v = w
      · subst hv
        simp [listed, hworkers, List.getElem?_set_self hlt, Pc.resumeList]
      · simp [listed, hworkers, List.getElem?_set_ne (Ne.symm hv), hv]
  refine ⟨fun v q hv => ?_, fun v u q q' j' hv hu hq hq' => ?_, ?_, ?_, ?_,
    fun v u c j' i' hv hu => ?_, fun d k hk => ?_, fun l => ?_, fun l l' k hk hk' => ?_,
    fun x i' hx => ?_⟩
  · rw [hworkers] at hv
    rcases getElem?_set_eq_some hv with ⟨-, rfl⟩ | ⟨-, hv₀⟩
    · refine ⟨by rw [houtputs]; exact h.worker_ok w _ hw, fun k hk => ?_⟩
      rw [hstatus]
      exact h.dependency_suspended j k hk
    · exact (h.worker_ok v q hv₀).mono (by simp [hstatus]) (by simp [hstatus]) (by simp [hflags])
        hnext.ge (by simp [houtputs])
  · rw [hworkers] at hv hu
    rcases getElem?_set_eq_some hv with ⟨-, rfl⟩ | ⟨-, hv₀⟩
    · cases hq
    rcases getElem?_set_eq_some hu with ⟨-, rfl⟩ | ⟨-, hu₀⟩
    · cases hq'
    exact h.owner_unique _ _ _ _ j' hv₀ hu₀ hq hq'
  · rw [hstatus]
    exact h.condvar_unique
  · rw [hstatus, hnext]
    exact h.status_fresh
  · rw [hflags, hnext]
    exact h.flag_fresh
  · rw [hworkers] at hv hu
    rcases getElem?_set_eq_some hv with ⟨-, hq⟩ | ⟨-, hv₀⟩
    · cases hq
    rcases getElem?_set_eq_some hu with ⟨-, hq⟩ | ⟨-, hu₀⟩
    · cases hq
    rw [hstatus]
    exact h.notify_ready v u c j' i' hv₀ hu₀
  · rw [hstatus]
    rw [hdeps] at hk
    by_cases hd : d = j
    · subst hd
      simp at hk
    · rw [Function.update_of_ne hd] at hk
      exact h.dependency_suspended d k hk
  · rw [hlist]
    split_ifs
    · exact List.nodup_nil
    all_goals exact h.listed_nodup _
  · rw [hlist] at hk hk'
    by_cases hl : l = .dependency j
    · rw [if_pos hl] at hk
      exact absurd hk List.not_mem_nil
    by_cases hl' : l' = .dependency j
    · rw [if_pos hl'] at hk'
      exact absurd hk' List.not_mem_nil
    rw [if_neg hl] at hk
    rw [if_neg hl'] at hk'
    have hsame := h.listed_unique _ _ k hk hk'
    by_cases hw₁ : l = .worker w <;> by_cases hw₂ : l' = .worker w
    · rw [hw₁, hw₂]
    · rw [if_pos hw₁, if_neg hw₂] at hsame
      exact absurd hsame.symm hl'
    · rw [if_neg hw₁, if_pos hw₂] at hsame
      exact absurd hsame hl
    · rwa [if_neg hw₁, if_neg hw₂] at hsame
  · rw [hstatus] at hx
    rw [houtputs]
    exact h.executed_recorded x i' hx

/-- `resume` of the first dependency a worker holds: the transaction is ready for the
incarnation that is to notify the worker waiting for it. -/
theorem Owned.resume {j i dep i' c : ℕ} {rs : Bool} {deps : List ℕ} {m : Option ℕ}
    (h : e.Owned) (hw : e.workers[w]? = some (.resume j i rs (dep :: deps) m))
    (hdep : e.scheduler.txnStatus dep = .suspended i' c)
    (hworkers : e'.workers = e.workers.set w (.resume j i rs deps m))
    (hstatus : e'.scheduler.txnStatus =
      Function.update e.scheduler.txnStatus dep (.readyToExecute i' (some c)))
    (hdeps : e'.scheduler.txnDependency = e.scheduler.txnDependency)
    (hflags : e'.condvars = e.condvars) (hnext : e'.nextCondvar = e.nextCondvar)
    (houtputs : e'.outputs = e.outputs) : e'.Owned := by
  have hmine : e.listed (.worker w) = dep :: deps := by simp [listed, hw, Pc.resumeList]
  -- `dep` is listed here only, once
  have honly : ∀ l, dep ∈ e.listed l → l = .worker w := fun l hl =>
    h.listed_unique l _ dep hl (by rw [hmine]; exact List.mem_cons_self ..)
  have hnotin : dep ∉ deps := by
    have hnodup := h.listed_nodup (.worker w)
    rw [hmine] at hnodup
    exact (List.nodup_cons.mp hnodup).1
  have hne : ∀ x, x ≠ dep → e'.scheduler.txnStatus x = e.scheduler.txnStatus x := by
    intro x hx
    rw [hstatus, Function.update_of_ne hx]
  -- the condition variables named stay where they were
  have hcv : ∀ x, (e'.scheduler.txnStatus x).condvar? = (e.scheduler.txnStatus x).condvar? := by
    intro x
    by_cases hx : x = dep
    · subst hx
      rw [hstatus, Function.update_self, hdep]
      rfl
    · rw [hne x hx]
  obtain ⟨hnodup, hunique⟩ := h.listed_of_sublist (listed_sublist hworkers hdeps
    (by rw [hmine]; exact List.sublist_cons_self dep deps))
  refine ⟨fun v q hv => ?_, fun v u q q' j' hv hu hq hq' => ?_, fun x y c' hx hy => ?_,
    fun x c' hx => ?_, by rw [hflags, hnext]; exact h.flag_fresh, fun v u c' j' i'' hv hu => ?_,
    fun d k hk => ?_, hnodup, hunique, fun x i'' hx => ?_⟩
  · rw [hworkers] at hv
    rcases getElem?_set_eq_some hv with ⟨-, rfl⟩ | ⟨hvw, hv₀⟩
    · obtain ⟨hout, hsusp⟩ := h.worker_ok w _ hw
      refine ⟨by rw [houtputs]; exact hout, fun k hk => ?_⟩
      rw [hne k (fun hkd => hnotin (hkd ▸ hk))]
      exact hsusp k (List.mem_cons_of_mem _ hk)
    have hq := h.worker_ok v q hv₀
    by_cases hown : q.owned = some dep
    · -- the worker waiting on `dep`: its transaction is now ready
      obtain rfl := hq.eq_waiting hown (.inl hdep)
      obtain ⟨hc, ⟨-, hflag⟩ | hs⟩ := hq
      · exact ⟨by rw [hnext]; exact hc, .inl ⟨.inr (by rw [hstatus, Function.update_self]),
          by rw [hflags]; exact hflag⟩⟩
      · rw [hdep] at hs
        cases hs
    refine hq.mono (fun j' hj' => hne j' ?_) (fun k hk => hne k ?_) (by simp [hflags])
      hnext.ge (by simp [houtputs])
    · rintro rfl
      exact hown hj'
    · rintro rfl
      have hl := honly (.worker v) (by simp [listed, hv₀, hk])
      exact hvw (by cases hl; rfl)
  · rw [hworkers] at hv hu
    rcases getElem?_set_eq_some hv with ⟨-, rfl⟩ | ⟨-, hv₀⟩
    · cases hq
    rcases getElem?_set_eq_some hu with ⟨-, rfl⟩ | ⟨-, hu₀⟩
    · cases hq'
    exact h.owner_unique _ _ _ _ j' hv₀ hu₀ hq hq'
  · rw [hcv] at hx hy
    exact h.condvar_unique x y c' hx hy
  · rw [hcv] at hx
    rw [hnext]
    exact h.status_fresh x c' hx
  · rw [hworkers] at hv hu
    rcases getElem?_set_eq_some hv with ⟨-, hq⟩ | ⟨-, hv₀⟩
    · cases hq
    rcases getElem?_set_eq_some hu with ⟨-, hq⟩ | ⟨-, hu₀⟩
    · cases hq
    have hs := h.notify_ready v u c' j' i'' hv₀ hu₀
    rw [hne j' (by rintro rfl; rw [hdep] at hs; cases hs)]
    exact hs
  · rw [hdeps] at hk
    have hkd : k ≠ dep := by
      rintro rfl
      cases honly (.dependency d) hk
    rw [hne k hkd]
    exact h.dependency_suspended d k hk
  · by_cases hx' : x = dep
    · subst hx'
      rw [hstatus, Function.update_self] at hx
      cases hx
    · rw [hne x hx'] at hx
      rw [houtputs]
      exact h.executed_recorded x i'' hx

/-- The notification of a waiting worker: its transaction executes again. -/
theorem Owned.notify {c : ℕ} (h : e.Owned) (hw : e.workers[w]? = some (.notify c))
    (hworkers : e'.workers = e.workers.set w .dropGuard)
    (hstatus : e'.scheduler.txnStatus = e.scheduler.txnStatus)
    (hdeps : e'.scheduler.txnDependency = e.scheduler.txnDependency)
    (hflags : e'.condvars = Function.update e.condvars c true)
    (hnext : e'.nextCondvar = e.nextCondvar) (houtputs : e'.outputs = e.outputs) : e'.Owned := by
  have hc : c < e.nextCondvar := h.worker_ok w _ hw
  obtain ⟨hnodup, hunique⟩ := h.listed_of_sublist (listed_sublist hworkers hdeps
    (List.nil_sublist _))
  refine ⟨fun v q hv => ?_, fun v u q q' j hv hu hq hq' => ?_, ?_, ?_, fun c' hc' => ?_,
    fun v u c' j i hv hu => ?_, ?_, hnodup, hunique, fun x i hx => ?_⟩
  · rw [hworkers] at hv
    rcases getElem?_set_eq_some hv with ⟨-, rfl⟩ | ⟨-, hv₀⟩
    · trivial
    have hq := h.worker_ok v q hv₀
    by_cases hqc : q.condvar? = some c
    · rcases Pc.eq_of_condvar?_eq_some hqc with ⟨j, i, rfl⟩ | rfl
      · -- a worker waiting on `c`: its transaction executes already
        have hs := h.notify_ready w v c j i hw hv₀
        exact ⟨by rw [hnext]; exact hq.1, .inr (by rw [hstatus]; exact hs)⟩
      · show c < e'.nextCondvar
        rw [hnext]
        exact hq
    refine hq.mono (by simp [hstatus]) (by simp [hstatus]) (fun c' hc' => ?_) hnext.ge
      (by simp [houtputs])
    rw [hflags, Function.update_of_ne]
    rintro rfl
    exact hqc hc'
  · rw [hworkers] at hv hu
    rcases getElem?_set_eq_some hv with ⟨-, rfl⟩ | ⟨-, hv₀⟩
    · cases hq
    rcases getElem?_set_eq_some hu with ⟨-, rfl⟩ | ⟨-, hu₀⟩
    · cases hq'
    exact h.owner_unique _ _ _ _ j hv₀ hu₀ hq hq'
  · rw [hstatus]
    exact h.condvar_unique
  · rw [hstatus, hnext]
    exact h.status_fresh
  · rw [hnext] at hc'
    rw [hflags, Function.update_of_ne (by omega)]
    exact h.flag_fresh c' hc'
  · rw [hworkers] at hv hu
    rcases getElem?_set_eq_some hv with ⟨-, hq⟩ | ⟨-, hv₀⟩
    · cases hq
    rcases getElem?_set_eq_some hu with ⟨-, hq⟩ | ⟨-, hu₀⟩
    · cases hq
    rw [hstatus]
    exact h.notify_ready v u c' j i hv₀ hu₀
  · rw [hdeps, hstatus]
    exact h.dependency_suspended
  · rw [hstatus] at hx
    rw [houtputs]
    exact h.executed_recorded x i hx

/-! ## An incarnation -/

/-- The incarnation of a resumed transaction: its status is `Executing` again, and the worker
that incarnated it is to notify the worker waiting for it. -/
theorem Owned.resumed {k i c : ℕ} (h : e.Owned)
    (hready : e.scheduler.txnStatus k = .readyToExecute i (some c)) :
    (e.update w (.notify c) (e.scheduler.setStatus k (.executing i))).Owned := by
  set e' := e.update w (.notify c) (e.scheduler.setStatus k (.executing i))
  have hworkers : e'.workers = e.workers.set w (.notify c) := rfl
  have hstatus : e'.scheduler.txnStatus =
      Function.update e.scheduler.txnStatus k (.executing i) := rfl
  have hc : c < e.nextCondvar := h.status_fresh k c (by rw [hready]; rfl)
  -- a transaction other than `k` keeps its status
  have hne : ∀ j, e.scheduler.txnStatus j ≠ .readyToExecute i (some c) →
      e'.scheduler.txnStatus j = e.scheduler.txnStatus j := by
    intro j hj
    rw [hstatus, Function.update_of_ne]
    rintro rfl
    exact hj hready
  obtain ⟨hnodup, hunique⟩ :=
    h.listed_of_sublist (listed_sublist hworkers rfl (List.nil_sublist _))
  refine ⟨fun v q hv => ?_, fun v u q q' j hv hu hq hq' => ?_, ?_, ?_, h.flag_fresh,
    fun v u c' j i' hv hu => ?_, ?_, hnodup, hunique, fun j i' hj => ?_⟩
  · rw [hworkers] at hv
    rcases getElem?_set_eq_some hv with ⟨-, rfl⟩ | ⟨-, hv₀⟩
    · exact hc
    have hq := h.worker_ok v q hv₀
    by_cases hk : q.owned = some k
    · -- the waiter: its transaction executes again
      obtain rfl := hq.eq_waiting hk (.inr hready)
      exact ⟨hc, .inr (by rw [hstatus, Function.update_self])⟩
    refine hq.mono (fun j hj => hne j ?_) (fun k' hk' => hne k' ?_) (fun _ _ => rfl) le_rfl
      (fun _ => id)
    · intro hj'
      have hjk : j = k := h.condvar_unique j k c (by rw [hj']; rfl) (by rw [hready]; rfl)
      exact hk (hjk ▸ hj)
    · intro hk''
      have hs := hq.resumeList_suspended hk'
      rw [hk''] at hs
      cases hs
  · rw [hworkers] at hv hu
    rcases getElem?_set_eq_some hv with ⟨rfl, rfl⟩ | ⟨-, hv₀⟩ <;>
      rcases getElem?_set_eq_some hu with ⟨rfl, rfl⟩ | ⟨-, hu₀⟩
    · rfl
    · cases hq
    · cases hq'
    · exact h.owner_unique _ _ _ _ j hv₀ hu₀ hq hq'
  · intro j j' c' hj hj'
    rw [hstatus] at hj hj'
    exact h.condvar_unique j j' c' (condvar?_update_eq_some rfl hj).2
      (condvar?_update_eq_some rfl hj').2
  · intro j c' hj
    rw [hstatus] at hj
    exact h.status_fresh j c' (condvar?_update_eq_some rfl hj).2
  · rw [hworkers] at hv hu
    rcases getElem?_set_eq_some hu with ⟨-, hq⟩ | ⟨huw, hu₀⟩
    · cases hq
    rcases getElem?_set_eq_some hv with ⟨-, hq⟩ | ⟨-, hv₀⟩
    · -- the notification just made: its waiter's transaction is `k`, or executes already
      obtain rfl : c' = c := by cases hq; rfl
      obtain ⟨-, ⟨hs | hs, -⟩ | hs⟩ := h.worker_ok u _ hu₀
      · have hjk := h.condvar_unique j k c' (by rw [hs]; rfl) (by rw [hready]; rfl)
        subst hjk
        rw [hs] at hready
        cases hready
      · have hjk := h.condvar_unique j k c' (by rw [hs]; rfl) (by rw [hready]; rfl)
        subst hjk
        rw [hs] at hready
        cases hready
        rw [hstatus, Function.update_self]
      · rw [hne j (by rw [hs]; simp)]
        exact hs
    · have hs := h.notify_ready v u c' j i' hv₀ hu₀
      rw [hne j (by rw [hs]; simp)]
      exact hs
  · intro d k' hk'
    have hs := h.dependency_suspended d k' hk'
    rw [hne k' (by intro hk; rw [hk] at hs; cases hs)]
    exact hs
  · by_cases hjk : j = k
    · subst hjk
      rw [hstatus, Function.update_self] at hj
      cases hj
    · rw [hstatus, Function.update_of_ne hjk] at hj
      exact h.executed_recorded j i' hj

/-- `try_incarnate`: an execution task makes the worker the owner of the transaction, and the
task of a resumed transaction hands its execution back to the worker waiting for it. -/
theorem Owned.incarnate (h : e.Owned) (hw : e.workers[w]? = some pc) (k : ℕ) : (e.incarnate w k).Owned := by
  unfold Execution.incarnate
  rcases hk : e.scheduler.tryIncarnate k with ⟨_ | ⟨i, _ | c⟩, s'⟩
  · obtain rfl := Scheduler.tryIncarnate_eq_none hk
    exact h.move hw rfl rfl rfl rfl le_rfl (fun _ => id) trivial (by simp [Pc.owned]) rfl rfl
  · obtain ⟨hready, rfl⟩ := Scheduler.tryIncarnate_eq_some hk
    exact h.change hw rfl rfl rfl rfl rfl rfl (.inr (by rw [hready]; rfl)) (by rw [hready]; rfl)
      rfl (by simp) (by simp [WorkerOk, update]) (by simp [Pc.owned]) rfl rfl
  · obtain ⟨hready, rfl⟩ := Scheduler.tryIncarnate_eq_some hk
    exact h.resumed hready

end Execution

end AptosCore.ParallelExecutor
