import AptosCore.Channel.MessageQueuesRuns

/-!
# The channel over a per-key queue

`crates/channel/src/aptos_channel.rs`. Senders and the receiver share one
`PerKeyQueue` of messages, each stored with the status channel its sender may
have given. A push that makes the queue drop an element tells that element's
status channel `Dropped`, and a poll that returns a message tells its status
channel `Dequeued`. A status channel is named by a value of `Ch` and a task's
waker by a value of `W`; sending on a status channel is a notification the call
returns.
-/

namespace AptosCore.Channel

/-- `ElementStatus`. -/
inductive ElementStatus (M : Type) where
  | Dequeued
  | Dropped (message : M)
  deriving DecidableEq

/-- `Poll`. -/
inductive Poll (α : Type) where
  | Ready (value : α)
  | Pending
  deriving DecidableEq

/-- `SharedState`. -/
structure SharedState (K M Ch W : Type) where
  internalQueue : PerKeyQueue K (M × Option Ch)
  waker : Option W
  numSenders : Nat
  receiverDropped : Bool
  streamTerminated : Bool

namespace SharedState

variable {K M Ch W : Type} [DecidableEq K]

/-- `aptos_channel::new`: the shared state of a new channel, with one sender. -/
def new (queueStyle : QueueStyle) (maxQueueSizePerKey : Nat) : Except String (SharedState K M Ch W) :=
  if h : 0 < maxQueueSizePerKey then
    .ok
      { internalQueue := PerKeyQueue.new queueStyle ⟨maxQueueSizePerKey, h⟩
        waker := none
        numSenders := 1
        receiverDropped := false
        streamTerminated := false }
  else .error "aptos_channel cannot be of size 0"

/-- What `push_with_feedback` sends for a dropped element: `Dropped` on its status channel. -/
def droppedNotice : M × Option Ch → List (Ch × ElementStatus M)
  | (droppedVal, some droppedStatusCh) => [(droppedStatusCh, .Dropped droppedVal)]
  | (_, none) => []

/-- What `poll_next` sends for a returned element: `Dequeued` on its status channel. -/
def dequeuedNotice : M × Option Ch → List (Ch × ElementStatus M)
  | (_, some statusCh) => [(statusCh, .Dequeued)]
  | (_, none) => []

/-- `Sender::push_with_feedback`: its result and the notifications it sends. The
receiver's waker is taken to be woken. -/
def pushWithFeedback (key : K) (message : M) (statusCh : Option Ch) (s : SharedState K M Ch W) :
    (Except String Unit × List (Ch × ElementStatus M)) × SharedState K M Ch W :=
  if s.receiverDropped then ((.error "Channel is closed", []), s)
  else
    let dropped := s.internalQueue.push key (message, statusCh)
    ((.ok (), dropped.1.toList.flatMap droppedNotice),
      { s with internalQueue := dropped.2, waker := none })

/-- `Receiver::poll_next`, polled by the task with the waker given. -/
def pollNext (waker : W) (s : SharedState K M Ch W) :
    (Poll (Option M) × List (Ch × ElementStatus M)) × SharedState K M Ch W :=
  match s.internalQueue.pop with
  | (some (val, statusCh), internalQueue) =>
    ((.Ready (some val), dequeuedNotice (val, statusCh)), { s with internalQueue })
  | (none, internalQueue) =>
    if s.numSenders = 0 then ((.Ready none, []), { s with internalQueue, streamTerminated := true })
    else ((.Pending, []), { s with internalQueue, waker := some waker })

/-- `Receiver::clear`. -/
def clear (s : SharedState K M Ch W) : SharedState K M Ch W :=
  { s with internalQueue := s.internalQueue.clear }

/-- A poll sends `Dequeued` on a status channel exactly when it returns the message
stored with that channel. -/
theorem dequeued_mem_pollNext (waker : W) (s : SharedState K M Ch W) (c : Ch)
    (status : ElementStatus M) :
    (c, status) ∈ (s.pollNext waker).1.2 ↔
      status = .Dequeued ∧ ∃ m, (s.pollNext waker).1.1 = .Ready (some m) ∧
        s.internalQueue.pop.1 = some (m, some c) := by
  unfold pollNext
  rcases hpop : s.internalQueue.pop with ⟨_ | ⟨val, _ | ch⟩, internalQueue⟩
  · split_ifs <;> simp
  · simp [dequeuedNotice]
  · simp only [dequeuedNotice, List.mem_singleton, Prod.mk.injEq, Poll.Ready.injEq,
      Option.some.injEq]
    constructor
    · rintro ⟨rfl, rfl⟩
      exact ⟨rfl, val, rfl, rfl, rfl⟩
    · rintro ⟨rfl, m, rfl, -, rfl⟩
      exact ⟨rfl, rfl⟩

/-- A push sends `Dropped m` on a status channel exactly when the queue drops the
element `m` stored with that channel, and sends nothing else. -/
theorem dropped_mem_pushWithFeedback (key : K) (message : M) (statusCh : Option Ch)
    (s : SharedState K M Ch W) (c : Ch) (status : ElementStatus M) :
    (c, status) ∈ (s.pushWithFeedback key message statusCh).1.2 ↔
      s.receiverDropped = false ∧ ∃ m, status = .Dropped m ∧
        (s.internalQueue.push key (message, statusCh)).1 = some (m, some c) := by
  unfold pushWithFeedback
  cases s.receiverDropped
  · rw [if_neg Bool.false_ne_true]
    dsimp only
    generalize (s.internalQueue.push key (message, statusCh)).1 = dropped
    rcases dropped with _ | ⟨m, _ | ch⟩
    · simp
    · simp [droppedNotice]
    · simp only [Option.toList_some, List.flatMap_cons, List.flatMap_nil, List.append_nil,
        droppedNotice, List.mem_singleton, Prod.mk.injEq, true_and, Option.some.injEq]
      constructor
      · rintro ⟨rfl, rfl⟩
        exact ⟨m, rfl, rfl, rfl⟩
      · rintro ⟨m', rfl, rfl, rfl⟩
        exact ⟨rfl, rfl⟩
  · simp

end SharedState

/-- A per-key queue, from `PerKeyQueue::new` and after any calls, keeps the round
robin to the keys with messages, each once, and every queue within
`max_queue_size`; it hands back what was pushed and is not stored; a push drops
by its style and a pop returns by its style; a key with messages is served by
one of the next pops, as many as there are keys with messages, when no clear
comes in between. Through the channel, a status channel is told `Dequeued`
exactly when a poll returns its message and `Dropped` exactly when a push drops
its message. -/
theorem perKeyQueue_fair_lossless_bounded {K T : Type} [DecidableEq K] (queueStyle : QueueStyle)
    (maxQueueSize : ℕ+) (ops : List (PerKeyQueue.Op K T)) :
    let run := PerKeyQueue.run ops (PerKeyQueue.new queueStyle maxQueueSize)
    let q := run.2
    q.Inv ∧ (q.pop.1 = none ↔ q.stored = []) ∧
      ((ops.flatMap PerKeyQueue.Op.pushed : List T) : Multiset T) = run.1 + q.stored ∧
      (∀ key message, (q.push key message).1 =
        if (q.queueOf key).length < maxQueueSize then none
        else if queueStyle = .FIFO then some message else (q.queueOf key).head?) ∧
      (∀ key rest, q.roundRobinQueue = key :: rest →
        q.pop.1 = if queueStyle = .LIFO then (q.queueOf key).getLast? else (q.queueOf key).head?) ∧
      (∀ key, q.queueOf key ≠ [] → ∀ ops' : List (PerKeyQueue.Op K T), (∀ op ∈ ops', op ≠ .clear) →
        q.storedKeys.length ≤ ops'.countP PerKeyQueue.Op.isPop →
        ∃ pre post, ops' = pre ++ .pop :: post ∧
          pre.countP PerKeyQueue.Op.isPop < q.storedKeys.length ∧
          ∃ message ∈ (PerKeyQueue.run pre q).2.queueOf key,
            (PerKeyQueue.run pre q).2.pop.1 = some message) ∧
      (∀ {M Ch W : Type} (s : SharedState K M Ch W) (waker : W) (c : Ch) (status : ElementStatus M),
        (c, status) ∈ (s.pollNext waker).1.2 ↔
          status = .Dequeued ∧ ∃ m, (s.pollNext waker).1.1 = .Ready (some m) ∧
            s.internalQueue.pop.1 = some (m, some c)) ∧
      (∀ {M Ch W : Type} (s : SharedState K M Ch W) (key : K) (message : M) (statusCh : Option Ch)
        (c : Ch) (status : ElementStatus M),
        (c, status) ∈ (s.pushWithFeedback key message statusCh).1.2 ↔
          s.receiverDropped = false ∧ ∃ m, status = .Dropped m ∧
            (s.internalQueue.push key (message, statusCh)).1 = some (m, some c)) := by
  intro run q
  have hinv : q.Inv := PerKeyQueue.Inv.run ops (PerKeyQueue.Inv.new queueStyle maxQueueSize)
  have hstyle : q.queueStyle = queueStyle := PerKeyQueue.queueStyle_run ops _
  have hmax : q.maxQueueSize = maxQueueSize := PerKeyQueue.maxQueueSize_run ops _
  refine ⟨hinv, hinv.pop_fst_eq_none_iff, ?_, fun key message => ?_, fun key rest hrr => ?_,
    fun key hkey ops' hclear hpops => ?_,
    fun s waker c status => SharedState.dequeued_mem_pollNext waker s c status,
    fun s key message statusCh c status =>
      SharedState.dropped_mem_pushWithFeedback key message statusCh s c status⟩
  · have hrun := PerKeyQueue.stored_run ops (PerKeyQueue.new queueStyle maxQueueSize)
    rw [PerKeyQueue.stored_new, Multiset.coe_nil, zero_add] at hrun
    exact hrun.symm
  · rw [PerKeyQueue.push_fst_eq, hstyle, hmax]
  · rw [PerKeyQueue.pop_fst_eq hrr, hstyle]
  · -- the key's place in the round robin bounds the pops before it is served
    have hk : key ∈ q.roundRobinQueue := (hinv.mem_roundRobinQueue key).mpr hkey
    have hidx : q.roundRobinQueue.idxOf key < q.storedKeys.length :=
      hinv.length_roundRobinQueue ▸ List.idxOf_lt_length_iff.mpr hk
    obtain ⟨pre, post, rfl, hcount, hhead⟩ :=
      PerKeyQueue.served_within ops' q hinv hk hclear (by omega)
    exact ⟨pre, post, rfl, by omega, (PerKeyQueue.Inv.run pre hinv).pop_mem hhead⟩

end AptosCore.Channel
