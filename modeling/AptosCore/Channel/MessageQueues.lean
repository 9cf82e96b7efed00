import Mathlib.Data.PNat.Basic
import AptosCore.Lib.AssocMap

/-!
# Per-key message queues

`crates/channel/src/message_queues.rs`. A `PerKeyQueue` keeps a bounded queue of
messages for each key and serves the keys round robin: `push` appends to the
key's queue and puts the key at the back of the round robin when its queue was
empty; `pop` takes the key at the front, takes one message of its queue and puts
the key back at the end while messages remain. A full queue drops a message on
push: the new one under FIFO, the oldest under LIFO and KLAST. Every
`POPS_PER_GC` successful pops the empty queues are removed from the map.

The map is a list of entries written in place (`AssocMap`), a queue is a list
with its front first, and the optional metrics counters are left out.
-/

namespace AptosCore.Channel

/-- `QueueStyle`: how a key's queue drops and returns messages. -/
inductive QueueStyle where
  | FIFO
  | LIFO
  | KLAST
  deriving DecidableEq, Repr

/-- `POPS_PER_GC`. -/
def popsPerGc : Nat := 50

/-- `PerKeyQueue`, without its metrics counters. -/
structure PerKeyQueue (K T : Type) where
  queueStyle : QueueStyle
  perKeyQueue : List (K × List T)
  roundRobinQueue : List K
  maxQueueSize : ℕ+
  numPoppedSinceGc : Nat

namespace QueueStyle

variable {T : Type}

/-- The message `pop_from_key_queue` takes from a key's queue: `pop_front` under
FIFO and KLAST, `pop_back` under LIFO. -/
def popMessage : QueueStyle → List T → Option T × List T
  | .FIFO, queue | .KLAST, queue => (queue.head?, queue.tail)
  | .LIFO, queue => (queue.getLast?, queue.dropLast)

/-- The push onto a key's queue in `push`, with the message it drops when the
queue holds `maxQueueSize` messages already. -/
def pushMessage (style : QueueStyle) (maxQueueSize : Nat) (queue : List T) (message : T) :
    Option T × List T :=
  if queue.length ≥ maxQueueSize then
    match style with
    | .FIFO => (some message, queue)
    | .LIFO | .KLAST => (queue.head?, queue.tail ++ [message])
  else (none, queue ++ [message])

/-- A pop takes one message of the queue and keeps the others. -/
theorem popMessage_perm (style : QueueStyle) (queue : List T) :
    ((style.popMessage queue).1.toList ++ (style.popMessage queue).2).Perm queue := by
  cases style with
  | FIFO | KLAST => cases queue <;> simp [popMessage]
  | LIFO =>
    rcases List.eq_nil_or_concat queue with rfl | ⟨l, x, rfl⟩
    · simp [popMessage]
    · simpa [popMessage] using List.perm_append_singleton x l |>.symm

theorem length_popMessage (style : QueueStyle) (queue : List T) :
    (style.popMessage queue).2.length = queue.length - 1 := by
  cases style <;> simp [popMessage]

/-- A queue with a message gives one up. -/
theorem popMessage_mem {style : QueueStyle} {queue : List T} (h : queue ≠ []) :
    ∃ message ∈ queue, (style.popMessage queue).1 = some message := by
  cases style with
  | FIFO | KLAST =>
    obtain ⟨x, l, rfl⟩ := List.exists_cons_of_ne_nil h
    exact ⟨x, List.mem_cons_self, rfl⟩
  | LIFO => exact ⟨queue.getLast h, List.getLast_mem h, List.getLast?_eq_some_getLast h⟩

theorem popMessage_eq_none {style : QueueStyle} {queue : List T} :
    (style.popMessage queue).1 = none ↔ queue = [] := by
  cases style <;> simp [popMessage]

/-- A push keeps every message it does not drop. -/
theorem pushMessage_perm (style : QueueStyle) (maxQueueSize : Nat) (queue : List T) (message : T) :
    ((style.pushMessage maxQueueSize queue message).2 ++
      (style.pushMessage maxQueueSize queue message).1.toList).Perm (queue ++ [message]) := by
  unfold pushMessage
  split_ifs
  · cases style with
    | FIFO => exact List.Perm.refl _
    | LIFO | KLAST =>
      cases queue with
      | nil => exact List.Perm.refl _
      | cons x l => exact List.perm_append_singleton x (l ++ [message])
  · simp

theorem pushMessage_ne_nil (style : QueueStyle) {maxQueueSize : Nat} (hm : 0 < maxQueueSize)
    (queue : List T) (message : T) : (style.pushMessage maxQueueSize queue message).2 ≠ [] := by
  unfold pushMessage
  split_ifs with hfull
  · cases style with
    | FIFO =>
      have hlen : 0 < queue.length := by omega
      exact List.ne_nil_of_length_pos hlen
    | LIFO | KLAST => simp
  · simp

theorem length_pushMessage_le (style : QueueStyle) {maxQueueSize : Nat} (hm : 0 < maxQueueSize)
    {queue : List T} (h : queue.length ≤ maxQueueSize) (message : T) :
    (style.pushMessage maxQueueSize queue message).2.length ≤ maxQueueSize := by
  unfold pushMessage
  split_ifs with hfull
  · cases style with
    | FIFO => exact h
    | LIFO | KLAST => simp; omega
  · simp; omega

end QueueStyle

namespace PerKeyQueue

variable {K T : Type} [DecidableEq K]

/-- `PerKeyQueue::new`. -/
def new (queueStyle : QueueStyle) (maxQueueSizePerKey : ℕ+) : PerKeyQueue K T where
  queueStyle := queueStyle
  perKeyQueue := []
  roundRobinQueue := []
  maxQueueSize := maxQueueSizePerKey
  numPoppedSinceGc := 0

/-- The messages stored for a key; a key without an entry has none. -/
def queueOf (q : PerKeyQueue K T) (key : K) : List T := (q.perKeyQueue.lookup key).getD []

/-- Every message stored, queue after queue. -/
def stored (q : PerKeyQueue K T) : List T := (q.perKeyQueue.map Prod.snd).flatten

/-- `pop_from_key_queue`: the message taken from the key's queue, and whether the
queue is empty after it. -/
def popFromKeyQueue (key : K) (q : PerKeyQueue K T) : (Option T × Bool) × PerKeyQueue K T :=
  match q.perKeyQueue.lookup key with
  | some queue =>
    ((((q.queueStyle.popMessage queue).1, (q.queueStyle.popMessage queue).2.isEmpty)),
      { q with perKeyQueue := AssocMap.set key (q.queueStyle.popMessage queue).2 q.perKeyQueue })
  | none => ((none, true), q)

/-- `push`: the message dropped, if any. The key's entry is created empty when it
is missing (`or_insert_with`). -/
def push (key : K) (message : T) (q : PerKeyQueue K T) : Option T × PerKeyQueue K T :=
  let keyMessageQueue := q.queueOf key
  let pushed := q.queueStyle.pushMessage q.maxQueueSize keyMessageQueue message
  (pushed.1,
    { q with
      perKeyQueue := AssocMap.set key pushed.2 q.perKeyQueue
      roundRobinQueue :=
        if keyMessageQueue.isEmpty then q.roundRobinQueue ++ [key] else q.roundRobinQueue })

/-- `remove_empty_queues`. -/
def removeEmptyQueues (q : PerKeyQueue K T) : PerKeyQueue K T :=
  { q with perKeyQueue := q.perKeyQueue.filter fun e => !e.2.isEmpty }

/-- The count kept by `pop` of its successful pops, with the removal of the empty
queues on every `POPS_PER_GC`-th. -/
def countPop (q : PerKeyQueue K T) : PerKeyQueue K T :=
  if q.numPoppedSinceGc + 1 ≥ popsPerGc then removeEmptyQueues { q with numPoppedSinceGc := 0 }
  else { q with numPoppedSinceGc := q.numPoppedSinceGc + 1 }

/-- `pop`: the message of the key at the front of the round robin. -/
def pop (q : PerKeyQueue K T) : Option T × PerKeyQueue K T :=
  match q.roundRobinQueue with
  | [] => (none, q)
  | key :: roundRobinQueue =>
    let popped := popFromKeyQueue key { q with roundRobinQueue }
    let q' := if !popped.1.2 then { popped.2 with roundRobinQueue := roundRobinQueue ++ [key] }
      else popped.2
    (popped.1.1, if popped.1.1.isSome then q'.countPop else q')

/-- `clear`. -/
def clear (q : PerKeyQueue K T) : PerKeyQueue K T :=
  { q with perKeyQueue := [], roundRobinQueue := [] }

@[simp] theorem queueOf_new (queueStyle : QueueStyle) (m : ℕ+) (key : K) :
    (new (T := T) queueStyle m).queueOf key = [] := rfl

omit [DecidableEq K] in
@[simp] theorem stored_new (queueStyle : QueueStyle) (m : ℕ+) :
    (new (K := K) (T := T) queueStyle m).stored = [] := rfl

@[simp] theorem queueOf_clear (q : PerKeyQueue K T) (key : K) : q.clear.queueOf key = [] := rfl

omit [DecidableEq K] in
@[simp] theorem stored_clear (q : PerKeyQueue K T) : q.clear.stored = [] := rfl

/-- A key's messages after its queue is written. -/
theorem queueOf_of_perKeyQueue {q q' : PerKeyQueue K T} {key : K} {queue : List T}
    (h : q'.perKeyQueue = AssocMap.set key queue q.perKeyQueue) (key₀ : K) :
    q'.queueOf key₀ = if key₀ = key then queue else q.queueOf key₀ := by
  simp only [queueOf, h, AssocMap.lookup_set]
  split_ifs <;> rfl

/-- Writing a key's queue trades its old messages for the new ones. -/
theorem stored_perm_of_perKeyQueue {q q' : PerKeyQueue K T} {key : K} {queue : List T}
    (h : q'.perKeyQueue = AssocMap.set key queue q.perKeyQueue) :
    (q'.stored ++ q.queueOf key).Perm (q.stored ++ queue) := by
  have hperm := (AssocMap.values_set_perm key queue q.perKeyQueue).flatten
  rw [List.flatten_append, List.flatten_append, List.flatten_singleton] at hperm
  cases hq : q.perKeyQueue.lookup key <;> simpa [stored, queueOf, h, hq] using hperm

theorem queueOf_eq_of_lookup {q : PerKeyQueue K T} {key : K} {queue : List T}
    (hq : q.perKeyQueue.lookup key = some queue) : q.queueOf key = queue := by
  simp [queueOf, hq]

/-- A key with messages has an entry. -/
theorem exists_lookup_of_queueOf_ne_nil {q : PerKeyQueue K T} {key : K} (h : q.queueOf key ≠ []) :
    ∃ queue, q.perKeyQueue.lookup key = some queue := by
  cases hq : q.perKeyQueue.lookup key with
  | none => simp [queueOf, hq] at h
  | some queue => exact ⟨queue, rfl⟩

/-- Removing the empty queues changes no key's messages when the keys are distinct. -/
theorem queueOf_removeEmptyQueues {q : PerKeyQueue K T} (hnd : (q.perKeyQueue.map Prod.fst).Nodup)
    (key : K) : q.removeEmptyQueues.queueOf key = q.queueOf key := by
  simp only [removeEmptyQueues, queueOf]
  rw [AssocMap.lookup_filter (fun queue => !queue.isEmpty) key hnd]
  cases q.perKeyQueue.lookup key with
  | none => rfl
  | some queue => cases queue <;> rfl

omit [DecidableEq K] in
@[simp] theorem stored_removeEmptyQueues (q : PerKeyQueue K T) :
    q.removeEmptyQueues.stored = q.stored := by
  simp only [removeEmptyQueues, stored]
  rw [← List.flatten_filter_not_isEmpty (L := q.perKeyQueue.map Prod.snd), List.filter_map]
  rfl

/-- What `push` drops: the pushed message or the oldest one when the key's queue is full. -/
theorem push_fst (key : K) (message : T) (q : PerKeyQueue K T) :
    (q.push key message).1 = (q.queueStyle.pushMessage q.maxQueueSize (q.queueOf key) message).1 :=
  rfl

/-- The message `push` drops: none below `max_queue_size`, else the pushed one under
FIFO and the oldest one under LIFO and KLAST. -/
theorem push_fst_eq (key : K) (message : T) (q : PerKeyQueue K T) :
    (q.push key message).1 =
      if (q.queueOf key).length < q.maxQueueSize then none
      else if q.queueStyle = .FIFO then some message else (q.queueOf key).head? := by
  rw [push_fst]
  unfold QueueStyle.pushMessage
  by_cases hfull : (q.queueOf key).length < q.maxQueueSize
  · rw [if_neg (Nat.not_le.mpr hfull), if_pos hfull]
  · rw [if_pos (Nat.le_of_not_lt hfull), if_neg hfull]
    cases q.queueStyle <;> rfl

theorem perKeyQueue_push (key : K) (message : T) (q : PerKeyQueue K T) :
    (q.push key message).2.perKeyQueue =
      AssocMap.set key (q.queueStyle.pushMessage q.maxQueueSize (q.queueOf key) message).2
        q.perKeyQueue :=
  rfl

theorem roundRobinQueue_push (key : K) (message : T) (q : PerKeyQueue K T) :
    (q.push key message).2.roundRobinQueue =
      if q.queueOf key = [] then q.roundRobinQueue ++ [key] else q.roundRobinQueue := by
  simp only [push, List.isEmpty_iff]

@[simp] theorem queueStyle_push (key : K) (message : T) (q : PerKeyQueue K T) :
    (q.push key message).2.queueStyle = q.queueStyle := rfl

@[simp] theorem maxQueueSize_push (key : K) (message : T) (q : PerKeyQueue K T) :
    (q.push key message).2.maxQueueSize = q.maxQueueSize := rfl

theorem queueOf_push (key : K) (message : T) (q : PerKeyQueue K T) (key₀ : K) :
    (q.push key message).2.queueOf key₀ =
      if key₀ = key then (q.queueStyle.pushMessage q.maxQueueSize (q.queueOf key) message).2
      else q.queueOf key₀ :=
  queueOf_of_perKeyQueue (perKeyQueue_push key message q) key₀

omit [DecidableEq K] in
@[simp] theorem countPop_queueStyle (q : PerKeyQueue K T) : q.countPop.queueStyle = q.queueStyle := by
  unfold countPop; split_ifs <;> rfl

omit [DecidableEq K] in
@[simp] theorem countPop_maxQueueSize (q : PerKeyQueue K T) :
    q.countPop.maxQueueSize = q.maxQueueSize := by
  unfold countPop; split_ifs <;> rfl

omit [DecidableEq K] in
@[simp] theorem countPop_roundRobinQueue (q : PerKeyQueue K T) :
    q.countPop.roundRobinQueue = q.roundRobinQueue := by
  unfold countPop; split_ifs <;> rfl

omit [DecidableEq K] in
@[simp] theorem stored_countPop (q : PerKeyQueue K T) : q.countPop.stored = q.stored := by
  unfold countPop; split_ifs
  · exact stored_removeEmptyQueues _
  · rfl

theorem queueOf_countPop {q : PerKeyQueue K T} (hnd : (q.perKeyQueue.map Prod.fst).Nodup) (key : K) :
    q.countPop.queueOf key = q.queueOf key := by
  unfold countPop; split_ifs
  · exact queueOf_removeEmptyQueues hnd key
  · rfl

omit [DecidableEq K] in
theorem nodup_countPop {q : PerKeyQueue K T} (hnd : (q.perKeyQueue.map Prod.fst).Nodup) :
    (q.countPop.perKeyQueue.map Prod.fst).Nodup := by
  unfold countPop; split_ifs
  · exact hnd.sublist ((List.filter_sublist).map _)
  · exact hnd

/-- A `pop` at a key of the round robin with an entry. -/
theorem pop_eq {q : PerKeyQueue K T} {key : K} {rest : List K} {queue : List T}
    (hrr : q.roundRobinQueue = key :: rest) (hq : q.perKeyQueue.lookup key = some queue) :
    q.pop =
      let q' : PerKeyQueue K T :=
        { q with
          perKeyQueue := AssocMap.set key (q.queueStyle.popMessage queue).2 q.perKeyQueue
          roundRobinQueue :=
            if (q.queueStyle.popMessage queue).2 = [] then rest else rest ++ [key] }
      ((q.queueStyle.popMessage queue).1,
        if (q.queueStyle.popMessage queue).1.isSome then q'.countPop else q') := by
  simp only [pop, hrr, popFromKeyQueue, hq]
  split_ifs <;> simp_all

/-- A `pop` at a key of the round robin without an entry: nothing is returned and
the key leaves the round robin. -/
theorem pop_eq_of_lookup_eq_none {q : PerKeyQueue K T} {key : K} {rest : List K}
    (hrr : q.roundRobinQueue = key :: rest) (hq : q.perKeyQueue.lookup key = none) :
    q.pop = (none, { q with roundRobinQueue := rest }) := by
  simp [pop, hrr, popFromKeyQueue, hq]

theorem pop_eq_of_nil {q : PerKeyQueue K T} (hrr : q.roundRobinQueue = []) : q.pop = (none, q) := by
  simp [pop, hrr]

@[simp] theorem queueStyle_pop (q : PerKeyQueue K T) : q.pop.2.queueStyle = q.queueStyle := by
  cases hrr : q.roundRobinQueue with
  | nil => rw [pop_eq_of_nil hrr]
  | cons key rest =>
    cases hq : q.perKeyQueue.lookup key with
    | none => rw [pop_eq_of_lookup_eq_none hrr hq]
    | some queue =>
      rw [pop_eq hrr hq]
      split_ifs <;> simp

@[simp] theorem maxQueueSize_pop (q : PerKeyQueue K T) : q.pop.2.maxQueueSize = q.maxQueueSize := by
  cases hrr : q.roundRobinQueue with
  | nil => rw [pop_eq_of_nil hrr]
  | cons key rest =>
    cases hq : q.perKeyQueue.lookup key with
    | none => rw [pop_eq_of_lookup_eq_none hrr hq]
    | some queue =>
      rw [pop_eq hrr hq]
      split_ifs <;> simp

/-- `pop` returns the message its style takes from the key at the front of the round robin. -/
theorem pop_fst {q : PerKeyQueue K T} {key : K} {rest : List K} (hrr : q.roundRobinQueue = key :: rest) :
    q.pop.1 = (q.queueStyle.popMessage (q.queueOf key)).1 := by
  cases hq : q.perKeyQueue.lookup key with
  | none =>
    rw [pop_eq_of_lookup_eq_none hrr hq]
    cases h : q.queueStyle <;> simp [queueOf, hq, QueueStyle.popMessage]
  | some queue => simp [pop_eq hrr hq, queueOf, hq]

/-- What `pop` returns, by style: the oldest message of the key at the front of the
round robin, or its newest under LIFO. -/
theorem pop_fst_eq {q : PerKeyQueue K T} {key : K} {rest : List K} (hrr : q.roundRobinQueue = key :: rest) :
    q.pop.1 = if q.queueStyle = .LIFO then (q.queueOf key).getLast? else (q.queueOf key).head? := by
  rw [pop_fst hrr]
  cases q.queueStyle <;> rfl

end PerKeyQueue

end AptosCore.Channel
