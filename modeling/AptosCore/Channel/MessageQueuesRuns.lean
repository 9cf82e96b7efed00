import Mathlib.Algebra.Group.Basic
import Mathlib.Data.Multiset.OrderedMonoid
import Mathlib.Tactic.Abel
import AptosCore.Channel.MessageQueues

/-!
# Runs of a per-key queue

Any sequence of `push`, `pop` and `clear` on a `PerKeyQueue` keeps the round
robin equal to the keys with messages, each once, and every key's queue within
`max_queue_size` (`Inv`). No message is lost or made up: what a run pushed is what
it handed back, by a pop, as a push's dropped message or discarded by a clear,
and what is still stored (`stored_run`). A key with messages is served by one of
the next pops, as many as there are keys with messages (`served_within`): each
pop at another key moves it one place up the round robin, and a push puts a new
key behind it.
-/

namespace AptosCore.Channel.PerKeyQueue

/-- A call on a `PerKeyQueue`. -/
inductive Op (K T : Type) where
  | push (key : K) (message : T)
  | pop
  | clear

variable {K T : Type} [DecidableEq K]

namespace Op

/-- A call, with what it hands back: the message a push drops, the message a pop
returns, the messages a clear discards. -/
def apply : Op K T → PerKeyQueue K T → List T × PerKeyQueue K T
  | .push key message, q => ((q.push key message).1.toList, (q.push key message).2)
  | .pop, q => (q.pop.1.toList, q.pop.2)
  | .clear, q => (q.stored, q.clear)

/-- The message a call pushes. -/
def pushed : Op K T → List T
  | .push _ message => [message]
  | _ => []

def isPop : Op K T → Bool
  | .pop => true
  | _ => false

end Op

/-- A run of calls: all they hand back, in order, and the queue after them. -/
def run : List (Op K T) → PerKeyQueue K T → List T × PerKeyQueue K T
  | [], q => ([], q)
  | op :: ops, q => ((op.apply q).1 ++ (run ops (op.apply q).2).1, (run ops (op.apply q).2).2)

/-- The keys with messages. -/
def storedKeys (q : PerKeyQueue K T) : List K :=
  (q.perKeyQueue.filter fun e => !e.2.isEmpty).map Prod.fst

@[simp] theorem queueStyle_apply (op : Op K T) (q : PerKeyQueue K T) :
    (op.apply q).2.queueStyle = q.queueStyle := by
  cases op <;> simp [Op.apply, clear]

@[simp] theorem maxQueueSize_apply (op : Op K T) (q : PerKeyQueue K T) :
    (op.apply q).2.maxQueueSize = q.maxQueueSize := by
  cases op <;> simp [Op.apply, clear]

theorem queueStyle_run : ∀ (ops : List (Op K T)) (q : PerKeyQueue K T),
    (run ops q).2.queueStyle = q.queueStyle
  | [], _ => rfl
  | op :: ops, q => (queueStyle_run ops _).trans (queueStyle_apply op q)

theorem maxQueueSize_run : ∀ (ops : List (Op K T)) (q : PerKeyQueue K T),
    (run ops q).2.maxQueueSize = q.maxQueueSize
  | [], _ => rfl
  | op :: ops, q => (maxQueueSize_run ops _).trans (maxQueueSize_apply op q)

/-! ### No message lost or made up -/

omit [DecidableEq K] in
/-- Trading `queue` for `queue'` in the store while `queue'` with `d` is `queue`
with `m` trades `m` for `d`. -/
private theorem trade {s s' queue queue' d m : Multiset T} (hstore : s' + queue = s + queue')
    (hqueue : queue' + d = queue + m) : d + s' = s + m := by
  apply add_left_cancel (a := queue)
  calc queue + (d + s') = d + (s' + queue) := by abel
    _ = d + (s + queue') := by rw [hstore]
    _ = s + (queue' + d) := by abel
    _ = s + (queue + m) := by rw [hqueue]
    _ = queue + (s + m) := by abel

/-- A push keeps what it does not drop. -/
theorem stored_push (key : K) (message : T) (q : PerKeyQueue K T) :
    ((q.push key message).1.toList : Multiset T) + (q.push key message).2.stored =
      q.stored + [message] := by
  have hstore := Multiset.coe_eq_coe.mpr (stored_perm_of_perKeyQueue (perKeyQueue_push key message q))
  have hqueue := Multiset.coe_eq_coe.mpr
    (q.queueStyle.pushMessage_perm q.maxQueueSize (q.queueOf key) message)
  rw [← Multiset.coe_add, ← Multiset.coe_add] at hstore hqueue
  rw [push_fst]
  exact trade hstore hqueue

/-- A pop keeps what it does not return. -/
theorem stored_pop (q : PerKeyQueue K T) : (q.pop.1.toList : Multiset T) + q.pop.2.stored = q.stored := by
  cases hrr : q.roundRobinQueue with
  | nil => simp [pop_eq_of_nil hrr]
  | cons key rest =>
    cases hq : q.perKeyQueue.lookup key with
    | none => simp [pop_eq_of_lookup_eq_none hrr hq, stored]
    | some queue =>
      let q' : PerKeyQueue K T :=
        { q with
          perKeyQueue := AssocMap.set key (q.queueStyle.popMessage queue).2 q.perKeyQueue
          roundRobinQueue :=
            if (q.queueStyle.popMessage queue).2 = [] then rest else rest ++ [key] }
      have hset : q'.perKeyQueue =
          AssocMap.set key (q.queueStyle.popMessage queue).2 q.perKeyQueue := rfl
      have hstore := Multiset.coe_eq_coe.mpr (stored_perm_of_perKeyQueue hset)
      have hqueue := Multiset.coe_eq_coe.mpr (q.queueStyle.popMessage_perm queue)
      rw [← Multiset.coe_add, ← Multiset.coe_add, queueOf_eq_of_lookup hq] at hstore
      rw [← Multiset.coe_add, add_comm] at hqueue
      have hpop : (((q.queueStyle.popMessage queue).1.toList : Multiset T) + q'.stored) = q.stored := by
        simpa using trade hstore (hqueue.trans (add_zero _).symm)
      rw [pop_eq hrr hq]
      dsimp only
      by_cases hsome : (q.queueStyle.popMessage queue).1.isSome
      · rw [if_pos hsome, stored_countPop]
        exact hpop
      · rw [if_neg hsome]
        exact hpop

/-- A call hands back what it takes from the store and does not keep of what it pushes. -/
theorem stored_apply (op : Op K T) (q : PerKeyQueue K T) :
    ((op.apply q).1 : Multiset T) + (op.apply q).2.stored = q.stored + op.pushed := by
  cases op with
  | push key message => exact stored_push key message q
  | pop => simpa [Op.apply, Op.pushed] using stored_pop q
  | clear => simp [Op.apply, Op.pushed]

/-- What a run hands back and what it leaves stored are what was stored and what
it pushed. -/
theorem stored_run : ∀ (ops : List (Op K T)) (q : PerKeyQueue K T),
    ((run ops q).1 : Multiset T) + (run ops q).2.stored = q.stored + ops.flatMap Op.pushed
  | [], q => by simp [run]
  | op :: ops, q => by
    have hstep := stored_apply op q
    have hrest := stored_run ops (op.apply q).2
    calc ((run (op :: ops) q).1 : Multiset T) + (run (op :: ops) q).2.stored
        = (op.apply q).1 + ((run ops (op.apply q).2).1 + (run ops (op.apply q).2).2.stored) := by
          simp [run]
      _ = ((op.apply q).1 + (op.apply q).2.stored) + ops.flatMap Op.pushed := by
          rw [hrest, add_assoc]
      _ = q.stored + (op :: ops).flatMap Op.pushed := by
          rw [hstep, List.flatMap_cons, ← Multiset.coe_add, add_assoc]

/-! ### The invariant -/

/-- The round robin holds, once each, exactly the keys with messages; no key's
queue is longer than `max_queue_size`; the map's keys are distinct. -/
structure Inv (q : PerKeyQueue K T) : Prop where
  nodupKeys : (q.perKeyQueue.map Prod.fst).Nodup
  mem_roundRobinQueue : ∀ key, key ∈ q.roundRobinQueue ↔ q.queueOf key ≠ []
  nodup_roundRobinQueue : q.roundRobinQueue.Nodup
  length_queueOf_le : ∀ key, (q.queueOf key).length ≤ q.maxQueueSize

theorem Inv.new (queueStyle : QueueStyle) (maxQueueSize : ℕ+) :
    Inv (PerKeyQueue.new (K := K) (T := T) queueStyle maxQueueSize) where
  nodupKeys := List.nodup_nil
  mem_roundRobinQueue key := by simp [PerKeyQueue.new, queueOf]
  nodup_roundRobinQueue := List.nodup_nil
  length_queueOf_le key := by simp

theorem Inv.clear (q : PerKeyQueue K T) : Inv q.clear where
  nodupKeys := List.nodup_nil
  mem_roundRobinQueue key := by simp [PerKeyQueue.clear, queueOf]
  nodup_roundRobinQueue := List.nodup_nil
  length_queueOf_le key := by simp

variable {q : PerKeyQueue K T}

theorem Inv.push (hinv : Inv q) (key : K) (message : T) : Inv (q.push key message).2 where
  nodupKeys := AssocMap.nodup_keys_set _ _ hinv.nodupKeys
  mem_roundRobinQueue k := by
    have hne := q.queueStyle.pushMessage_ne_nil q.maxQueueSize.pos (q.queueOf key) message
    rw [roundRobinQueue_push, queueOf_push]
    by_cases hk : k = key
    · subst hk
      rw [if_pos rfl]
      refine ⟨fun _ => hne, fun _ => ?_⟩
      split_ifs with hempty
      · exact List.mem_append_right _ (List.mem_singleton_self k)
      · exact (hinv.mem_roundRobinQueue k).mpr hempty
    · rw [if_neg hk, ← hinv.mem_roundRobinQueue k]
      split_ifs <;> simp [hk]
  nodup_roundRobinQueue := by
    rw [roundRobinQueue_push]
    split_ifs with hempty
    · have hkey : key ∉ q.roundRobinQueue := fun h => (hinv.mem_roundRobinQueue key).mp h hempty
      exact List.concat_eq_append ▸ hinv.nodup_roundRobinQueue.concat hkey
    · exact hinv.nodup_roundRobinQueue
  length_queueOf_le k := by
    rw [queueOf_push, maxQueueSize_push]
    split_ifs
    · exact q.queueStyle.length_pushMessage_le q.maxQueueSize.pos (hinv.length_queueOf_le key) message
    · exact hinv.length_queueOf_le k

theorem Inv.countPop (hinv : Inv q) : Inv q.countPop where
  nodupKeys := nodup_countPop hinv.nodupKeys
  mem_roundRobinQueue key := by
    rw [countPop_roundRobinQueue, queueOf_countPop hinv.nodupKeys]
    exact hinv.mem_roundRobinQueue key
  nodup_roundRobinQueue := by
    rw [countPop_roundRobinQueue]
    exact hinv.nodup_roundRobinQueue
  length_queueOf_le key := by
    rw [queueOf_countPop hinv.nodupKeys, countPop_maxQueueSize]
    exact hinv.length_queueOf_le key

/-- Taking a message from the key at the front of the round robin, and putting the
key back at the end while it has messages, keeps the invariant. -/
theorem Inv.take (hinv : Inv q) {key : K} {rest : List K} {queue : List T}
    (hrr : q.roundRobinQueue = key :: rest) (hq : q.perKeyQueue.lookup key = some queue)
    {q' : PerKeyQueue K T}
    (hper : q'.perKeyQueue = AssocMap.set key (q.queueStyle.popMessage queue).2 q.perKeyQueue)
    (hrr' : q'.roundRobinQueue =
      if (q.queueStyle.popMessage queue).2 = [] then rest else rest ++ [key])
    (hmax : q'.maxQueueSize = q.maxQueueSize) : Inv q' := by
  have hnodup := hinv.nodup_roundRobinQueue
  rw [hrr, List.nodup_cons] at hnodup
  have hmem : ∀ k, k ∈ rest ↔ k ≠ key ∧ q.queueOf k ≠ [] := by
    intro k
    rw [← hinv.mem_roundRobinQueue k, hrr, List.mem_cons]
    constructor
    · intro h
      exact ⟨fun e => hnodup.1 (e ▸ h), Or.inr h⟩
    · rintro ⟨hk, rfl | h⟩
      · exact absurd rfl hk
      · exact h
  refine ⟨hper ▸ AssocMap.nodup_keys_set _ _ hinv.nodupKeys, fun k => ?_, ?_, fun k => ?_⟩
  · rw [queueOf_of_perKeyQueue hper k, hrr']
    by_cases hk : k = key
    · subst hk
      by_cases hempty : (q.queueStyle.popMessage queue).2 = [] <;> simp [hempty, hnodup.1]
    · have hrest : k ∈ rest ↔ q.queueOf k ≠ [] := by rw [hmem k]; exact and_iff_right hk
      rw [if_neg hk, ← hrest]
      split_ifs <;> simp [hk]
  · rw [hrr']
    split_ifs
    · exact hnodup.2
    · exact List.concat_eq_append ▸ hnodup.2.concat hnodup.1
  · rw [queueOf_of_perKeyQueue hper k, hmax]
    split_ifs
    · rw [QueueStyle.length_popMessage, ← queueOf_eq_of_lookup hq]
      exact (Nat.sub_le _ _).trans (hinv.length_queueOf_le key)
    · exact hinv.length_queueOf_le k

theorem Inv.pop (hinv : Inv q) : Inv q.pop.2 := by
  cases hrr : q.roundRobinQueue with
  | nil => rwa [pop_eq_of_nil hrr]
  | cons key rest =>
    have hkey : q.queueOf key ≠ [] := (hinv.mem_roundRobinQueue key).mp (hrr ▸ List.mem_cons_self)
    obtain ⟨queue, hq⟩ := exists_lookup_of_queueOf_ne_nil hkey
    rw [pop_eq hrr hq]
    dsimp only
    by_cases hsome : (q.queueStyle.popMessage queue).1.isSome
    · rw [if_pos hsome]
      apply Inv.countPop
      exact hinv.take hrr hq rfl rfl rfl
    · rw [if_neg hsome]
      exact hinv.take hrr hq rfl rfl rfl

theorem Inv.apply (hinv : Inv q) (op : Op K T) : Inv (op.apply q).2 := by
  cases op with
  | push key message => exact hinv.push key message
  | pop => exact hinv.pop
  | clear => exact Inv.clear q

theorem Inv.run : ∀ (ops : List (Op K T)) {q : PerKeyQueue K T}, Inv q → Inv (run ops q).2
  | [], _, hinv => hinv
  | op :: ops, _, hinv => Inv.run ops (hinv.apply op)

/-! ### What a pop returns -/

theorem mem_storedKeys_iff {key : K} (hnd : (q.perKeyQueue.map Prod.fst).Nodup) :
    key ∈ q.storedKeys ↔ q.queueOf key ≠ [] := by
  simp only [storedKeys, List.mem_map, List.mem_filter]
  constructor
  · rintro ⟨⟨k, queue⟩, ⟨hmem, hne⟩, rfl⟩
    rw [queueOf_eq_of_lookup (AssocMap.lookup_of_mem hnd hmem)]
    simpa using hne
  · intro h
    obtain ⟨queue, hq⟩ := exists_lookup_of_queueOf_ne_nil h
    rw [queueOf_eq_of_lookup hq] at h
    exact ⟨(key, queue), ⟨AssocMap.mem_of_lookup_eq_some hq, by simpa using h⟩, rfl⟩

/-- The round robin is as long as there are keys with messages. -/
theorem Inv.length_roundRobinQueue (hinv : Inv q) : q.roundRobinQueue.length = q.storedKeys.length := by
  have hnodup : q.storedKeys.Nodup := hinv.nodupKeys.sublist ((List.filter_sublist).map _)
  refine ((List.perm_ext_iff_of_nodup hinv.nodup_roundRobinQueue hnodup).mpr fun key => ?_).length_eq
  rw [hinv.mem_roundRobinQueue, mem_storedKeys_iff hinv.nodupKeys]

theorem stored_eq_nil_iff (hnd : (q.perKeyQueue.map Prod.fst).Nodup) :
    q.stored = [] ↔ ∀ key, q.queueOf key = [] := by
  simp only [stored, List.flatten_eq_nil_iff, List.mem_map]
  constructor
  · intro h key
    cases hq : q.perKeyQueue.lookup key with
    | none => simp [queueOf, hq]
    | some queue =>
      rw [queueOf_eq_of_lookup hq]
      exact h queue ⟨(key, queue), AssocMap.mem_of_lookup_eq_some hq, rfl⟩
  · rintro h _ ⟨⟨key, queue⟩, hmem, rfl⟩
    rw [← queueOf_eq_of_lookup (AssocMap.lookup_of_mem hnd hmem)]
    exact h key

/-- A pop returns nothing exactly when no message is stored. -/
theorem Inv.pop_fst_eq_none_iff (hinv : Inv q) : q.pop.1 = none ↔ q.stored = [] := by
  rw [stored_eq_nil_iff hinv.nodupKeys]
  cases hrr : q.roundRobinQueue with
  | nil =>
    simp only [pop_eq_of_nil hrr, true_iff]
    intro key
    by_contra h
    simpa [hrr] using (hinv.mem_roundRobinQueue key).mpr h
  | cons key rest =>
    have hkey : q.queueOf key ≠ [] := (hinv.mem_roundRobinQueue key).mp (hrr ▸ List.mem_cons_self)
    rw [pop_fst hrr, QueueStyle.popMessage_eq_none]
    exact ⟨fun h => absurd h hkey, fun h => h key⟩

/-- A pop at a served key returns one of its messages. -/
theorem Inv.pop_mem (hinv : Inv q) {key : K} (hhead : q.roundRobinQueue.head? = some key) :
    ∃ message ∈ q.queueOf key, q.pop.1 = some message := by
  obtain ⟨rest, hrr⟩ := List.head?_eq_some_iff.mp hhead
  have hkey : q.queueOf key ≠ [] := (hinv.mem_roundRobinQueue key).mp (hrr ▸ List.mem_cons_self)
  rw [pop_fst hrr]
  exact QueueStyle.popMessage_mem hkey

/-! ### Fairness -/

/-- A push keeps a key of the round robin in its place. -/
theorem idxOf_push {k : K} (hk : k ∈ q.roundRobinQueue) (key : K) (message : T) :
    k ∈ (q.push key message).2.roundRobinQueue ∧
      (q.push key message).2.roundRobinQueue.idxOf k = q.roundRobinQueue.idxOf k := by
  rw [roundRobinQueue_push]
  split_ifs
  · exact ⟨List.mem_append_left _ hk, List.idxOf_append_of_mem hk⟩
  · exact ⟨hk, rfl⟩

/-- A pop at another key moves a key of the round robin one place up. -/
theorem Inv.idxOf_pop (hinv : Inv q) {k : K} (hk : k ∈ q.roundRobinQueue)
    (hhead : q.roundRobinQueue.head? ≠ some k) :
    k ∈ q.pop.2.roundRobinQueue ∧ q.pop.2.roundRobinQueue.idxOf k + 1 = q.roundRobinQueue.idxOf k := by
  cases hrr : q.roundRobinQueue with
  | nil => simp [hrr] at hk
  | cons key rest =>
    have hne : key ≠ k := fun e => hhead (by simp [hrr, e])
    have hkrest : k ∈ rest := (List.mem_cons.mp (hrr ▸ hk)).resolve_left (Ne.symm hne)
    have hkey : q.queueOf key ≠ [] := (hinv.mem_roundRobinQueue key).mp (hrr ▸ List.mem_cons_self)
    obtain ⟨queue, hq⟩ := exists_lookup_of_queueOf_ne_nil hkey
    rw [pop_eq hrr hq, List.idxOf_cons_ne _ hne]
    dsimp only
    split_ifs <;>
      simp [hkrest, List.idxOf_append_of_mem hkrest]

/-- A key with messages is served by one of the next pops, no later than its place
in the round robin, when no clear comes in between. -/
theorem served_within {k : K} :
    ∀ (ops : List (Op K T)) (q : PerKeyQueue K T), Inv q → k ∈ q.roundRobinQueue →
      (∀ op ∈ ops, op ≠ .clear) → q.roundRobinQueue.idxOf k < ops.countP Op.isPop →
      ∃ pre post, ops = pre ++ .pop :: post ∧ pre.countP Op.isPop ≤ q.roundRobinQueue.idxOf k ∧
        (run pre q).2.roundRobinQueue.head? = some k
  | [], _, _, _, _, hlt => by simp at hlt
  | .push key message :: ops, q, hinv, hk, hclear, hlt => by
    obtain ⟨hk', hidx⟩ := idxOf_push hk key message
    obtain ⟨pre, post, rfl, hcount, hhead⟩ := served_within ops _ (hinv.push key message) hk'
      (fun op hop => hclear op (List.mem_cons_of_mem _ hop)) (by simpa [hidx, Op.isPop] using hlt)
    exact ⟨.push key message :: pre, post, rfl, by simpa [hidx, Op.isPop] using hcount, hhead⟩
  | .pop :: ops, q, hinv, hk, hclear, hlt => by
    by_cases hhead : q.roundRobinQueue.head? = some k
    · exact ⟨[], ops, rfl, Nat.zero_le _, hhead⟩
    · obtain ⟨hk', hidx⟩ := hinv.idxOf_pop hk hhead
      have hlt' : q.pop.2.roundRobinQueue.idxOf k < ops.countP Op.isPop := by
        simp only [List.countP_cons, Op.isPop, ↓reduceIte] at hlt
        omega
      obtain ⟨pre, post, rfl, hcount, hhead'⟩ := served_within ops _ hinv.pop hk'
        (fun op hop => hclear op (List.mem_cons_of_mem _ hop)) hlt'
      refine ⟨.pop :: pre, post, rfl, ?_, hhead'⟩
      simp only [List.countP_cons, Op.isPop, ↓reduceIte]
      omega
  | .clear :: _, _, _, _, hclear, _ => absurd rfl (hclear .clear List.mem_cons_self)

end AptosCore.Channel.PerKeyQueue
