import Mathlib.Data.List.Nodup
import Mathlib.Data.List.TakeWhile

/-!
# The state store pruner

`StateStorePruner` deletes the Jellyfish Merkle nodes that the versions it no longer serves
still held. The stale node index lists every replaced node with the version it is stale since,
in key order; `StaleNodeIndex::encode_key` writes the version big-endian in front of the node
key, so the order is by version first and a seek to a version lands on the first entry at or
past it. Each `prune` deletes one batch from `min_readable_version` on and records how far it
got.

The database is modelled by the index as a list in key order and, beside it, the entries
deleted so far: a version is readable while every deleted node was already stale at it.

What holds: a run whose targets never go down keeps every version from
`min_readable_version` on readable and never lowers it (`Inv.run`), and for a fixed target,
one prune per index entry and one more end the pending work (`run_replicate_prune`).
What does not: a batch that stops inside the target version reports the target done while
entries of that version are left (`prune_leaves_target_version`); a restart after such a batch
puts `min_readable_version` one below a version whose nodes are gone (`new_not_readable`);
and a prune with the target below `min_readable_version`, which `is_pruning_pending` allows
until a batch reaches the end of the target, records the lower target as progress
(`prune_lowers_minReadableVersion`).
-/

namespace AptosCore.Pruner

/-- `StaleNodeIndex`: the node `nodeKey` is not in the tree from `staleSinceVersion` on. -/
structure StaleNodeIndex (K : Type) where
  staleSinceVersion : ℕ
  nodeKey : K
  deriving DecidableEq

/-- The part of the database the pruner reads and writes: the stale node index column family,
whose keys are distinct and ordered by version first, and the entries deleted from it so far,
each with its node. -/
structure StaleNodeDb (K : Type) where
  index : List (StaleNodeIndex K)
  deleted : List (StaleNodeIndex K)
  sorted : index.Pairwise fun a b => a.staleSinceVersion ≤ b.staleSinceVersion
  nodup : index.Nodup

/-- `StateStorePruner` over its database. -/
structure StateStorePruner (K : Type) where
  db : StaleNodeDb K
  targetVersion : ℕ
  minReadableVersion : ℕ
  prunedToTheEndOfTargetVersion : Bool

variable {K : Type}

/-- Version `v` can still be read: every node deleted so far was already stale at `v`. -/
def Readable (db : StaleNodeDb K) (v : ℕ) : Prop :=
  ∀ d ∈ db.deleted, d.staleSinceVersion ≤ v

instance (db : StaleNodeDb K) (v : ℕ) : Decidable (Readable db v) :=
  inferInstanceAs (Decidable (∀ d ∈ db.deleted, d.staleSinceVersion ≤ v))

theorem Readable.mono {db : StaleNodeDb K} {v w : ℕ} (h : Readable db v) (hvw : v ≤ w) :
    Readable db w :=
  fun d hd => (h d hd).trans hvw

/-- `iter.seek(&start_version)`: the entries from the first one at or past `startVersion`. -/
def seek (index : List (StaleNodeIndex K)) (startVersion : ℕ) : List (StaleNodeIndex K) :=
  index.dropWhile fun i => i.staleSinceVersion < startVersion

/-- The `is_end_of_target_version` that `get_stale_node_indices` returns when neither the batch
nor the entry after it passed the target: the batch is empty or ends at the target. -/
def isEndOfTargetVersion (targetVersion : ℕ) (indices : List (StaleNodeIndex K)) : Bool :=
  match indices.getLast? with
  | some lastIndex => lastIndex.staleSinceVersion == targetVersion
  | none => true

/-- The loop of `get_stale_node_indices` over the iterator, with `numItems` entries still to
take, then its look at the next entry. -/
def getStaleNodeIndicesLoop (targetVersion : ℕ) :
    ℕ → List (StaleNodeIndex K) → List (StaleNodeIndex K) → List (StaleNodeIndex K) × Bool
  | numItems + 1, index :: iter, indices =>
    if index.staleSinceVersion > targetVersion then (indices, true)
    else getStaleNodeIndicesLoop targetVersion numItems iter (indices ++ [index])
  -- no more stale nodes: the loop breaks and the look past it finds nothing either
  | _ + 1, [], indices => (indices, isEndOfTargetVersion targetVersion indices)
  | 0, nextIndex :: _, indices =>
    if nextIndex.staleSinceVersion > targetVersion then (indices, true)
    else (indices, isEndOfTargetVersion targetVersion indices)
  | 0, [], indices => (indices, isEndOfTargetVersion targetVersion indices)

/-- `StateStorePruner::get_stale_node_indices`. -/
def getStaleNodeIndices (index : List (StaleNodeIndex K)) (startVersion targetVersion batchSize : ℕ) :
    List (StaleNodeIndex K) × Bool :=
  getStaleNodeIndicesLoop targetVersion batchSize (seek index startVersion) []

/-- One write batch: the given entries and their nodes are deleted. -/
def StaleNodeDb.delete [DecidableEq K] (db : StaleNodeDb K) (indices : List (StaleNodeIndex K)) :
    StaleNodeDb K where
  index := db.index.filter fun i => i ∉ indices
  deleted := db.deleted ++ indices
  sorted := db.sorted.sublist List.filter_sublist
  nodup := db.nodup.filter _

@[simp] theorem StaleNodeDb.index_delete [DecidableEq K] (db : StaleNodeDb K)
    (indices : List (StaleNodeIndex K)) :
    (db.delete indices).index = db.index.filter fun i => i ∉ indices := rfl

@[simp] theorem StaleNodeDb.deleted_delete [DecidableEq K] (db : StaleNodeDb K)
    (indices : List (StaleNodeIndex K)) : (db.delete indices).deleted = db.deleted ++ indices := rfl

namespace StateStorePruner

/-- `StateStorePruner::prune_state_store`; the `assert_ne!` on the batch size is an error. -/
def pruneStateStore [DecidableEq K] (p : StateStorePruner K)
    (minReadableVersion targetVersion batchSize : ℕ) : Except String (ℕ × StateStorePruner K) :=
  if batchSize = 0 then .error "assertion failed: batch_size != 0"
  else
    let (indices, isEndOfTargetVersion) :=
      getStaleNodeIndices p.db.index minReadableVersion targetVersion batchSize
    match indices.getLast? with
    -- an empty batch records the target as progress, whatever the current minimum is
    | none => .ok (targetVersion,
        { p with prunedToTheEndOfTargetVersion := isEndOfTargetVersion,
                 minReadableVersion := targetVersion })
    | some lastIndex => .ok (lastIndex.staleSinceVersion,
        { p with db := p.db.delete indices,
                 prunedToTheEndOfTargetVersion := isEndOfTargetVersion,
                 minReadableVersion := lastIndex.staleSinceVersion })

/-- `DBPruner::is_pruning_pending` of `StateStorePruner`. -/
def isPruningPending (p : StateStorePruner K) : Bool :=
  p.targetVersion > p.minReadableVersion || !p.prunedToTheEndOfTargetVersion

/-- `DBPruner::prune` of `StateStorePruner`. -/
def prune [DecidableEq K] (p : StateStorePruner K) (batchSize : ℕ) :
    Except String (ℕ × StateStorePruner K) :=
  if !p.isPruningPending then .ok (p.minReadableVersion, p)
  else p.pruneStateStore p.minReadableVersion p.targetVersion batchSize

/-- `DBPruner::set_target_version`, as `receive_commands` calls it for every target it gets. -/
def setTargetVersion (p : StateStorePruner K) (targetVersion : ℕ) : StateStorePruner K :=
  { p with targetVersion }

end StateStorePruner

/-- `initialize_min_readable_version`: one below the version of the first entry left; the
`expect` on a version 0 is an error. -/
def initializeMinReadableVersion (db : StaleNodeDb K) : Except String ℕ :=
  match db.index.head? with
  | none => .ok 0
  | some index =>
    if index.staleSinceVersion = 0 then .error "Nothing is stale since version 0."
    else .ok (index.staleSinceVersion - 1)

/-- `StateStorePruner::new` followed by `initialize`. -/
def StateStorePruner.new (db : StaleNodeDb K) : Except String (StateStorePruner K) := do
  let minReadableVersion ← initializeMinReadableVersion db
  return { db, targetVersion := 0, minReadableVersion, prunedToTheEndOfTargetVersion := false }

/-- What the worker does with the pruner: a target from a `Command::Prune`, or one batch. -/
inductive Command
  | setTargetVersion (targetVersion : ℕ)
  | prune (batchSize : ℕ)

/-- One command applied to the pruner. -/
def Command.apply [DecidableEq K] (p : StateStorePruner K) :
    Command → Except String (StateStorePruner K)
  | .setTargetVersion t => .ok (p.setTargetVersion t)
  | .prune b => Prod.snd <$> p.prune b

/-- A run of commands, stopping at the first error. -/
def run [DecidableEq K] (p : StateStorePruner K) : List Command → Except String (StateStorePruner K)
  | [] => .ok p
  | c :: cs => c.apply p >>= fun p' => run p' cs

/-! ## The batch -/

section Batch

variable (T : ℕ)

/-- The loop takes the entries up to the first one past the target, at most `numItems` of them. -/
theorem getStaleNodeIndicesLoop_fst :
    ∀ (numItems : ℕ) (iter indices : List (StaleNodeIndex K)),
      (getStaleNodeIndicesLoop T numItems iter indices).1 =
        indices ++ (iter.takeWhile fun i => i.staleSinceVersion ≤ T).take numItems
  | 0, [], indices => by simp [getStaleNodeIndicesLoop]
  | 0, i :: iter, indices => by
    rw [getStaleNodeIndicesLoop]
    split_ifs <;> simp
  | n + 1, [], indices => by simp [getStaleNodeIndicesLoop]
  | n + 1, i :: iter, indices => by
    rw [getStaleNodeIndicesLoop]
    split_ifs with h
    · rw [List.takeWhile_cons_of_neg (by simpa using h)]
      simp
    · rw [getStaleNodeIndicesLoop_fst n iter, List.takeWhile_cons_of_pos (by simpa using h),
        List.take_succ_cons, List.append_assoc, List.singleton_append]

/-- Entries up to the target are taken one by one, so a loop with as many items to take as
there are such entries in front of the iterator ends at the look past them. -/
theorem getStaleNodeIndicesLoop_append :
    ∀ (pre iter indices : List (StaleNodeIndex K)), (∀ i ∈ pre, i.staleSinceVersion ≤ T) →
      getStaleNodeIndicesLoop T pre.length (pre ++ iter) indices =
        getStaleNodeIndicesLoop T 0 iter (indices ++ pre)
  | [], iter, indices, _ => by simp
  | i :: pre, iter, indices, h => by
    have hi : ¬ T < i.staleSinceVersion := Nat.not_lt.mpr (h i List.mem_cons_self)
    rw [List.length_cons, List.cons_append, getStaleNodeIndicesLoop, if_neg hi,
      getStaleNodeIndicesLoop_append pre iter _ fun j hj => h j (List.mem_cons_of_mem _ hj),
      List.append_assoc, List.singleton_append]

/-- An iterator whose first entry is past the target gives an empty batch at the end of it. -/
theorem getStaleNodeIndicesLoop_of_head (n : ℕ) (iter : List (StaleNodeIndex K))
    (h : ∀ i ∈ iter.head?, T < i.staleSinceVersion) :
    getStaleNodeIndicesLoop T (n + 1) iter [] = ([], true) := by
  cases iter with
  | nil => rfl
  | cons i iter => rw [getStaleNodeIndicesLoop, if_pos (h i rfl)]

/-- A batch of at least one entry comes back empty only when the next entry is past the target
or there is none, and either way it is the end of the target. -/
theorem getStaleNodeIndicesLoop_snd_of_fst_eq_nil (n : ℕ) (iter : List (StaleNodeIndex K))
    (h : (getStaleNodeIndicesLoop T (n + 1) iter []).1 = []) :
    (getStaleNodeIndicesLoop T (n + 1) iter []).2 = true := by
  cases iter with
  | nil => rfl
  | cons i iter =>
    rw [getStaleNodeIndicesLoop] at h ⊢
    split_ifs at h ⊢ with hi
    · rfl
    · rw [getStaleNodeIndicesLoop_fst] at h
      simp at h

theorem getStaleNodeIndices_fst (index : List (StaleNodeIndex K)) (s b : ℕ) :
    (getStaleNodeIndices index s T b).1 =
      ((seek index s).takeWhile fun i => i.staleSinceVersion ≤ T).take b := by
  rw [getStaleNodeIndices, getStaleNodeIndicesLoop_fst, List.nil_append]

theorem getStaleNodeIndices_sublist (index : List (StaleNodeIndex K)) (s b : ℕ) :
    List.Sublist (getStaleNodeIndices index s T b).1 index := by
  rw [getStaleNodeIndices_fst]
  exact (List.take_sublist _ _).trans
    ((List.takeWhile_sublist _).trans (List.dropWhile_sublist _))

/-- In a sorted index, the seek skips exactly the entries below the start version. -/
theorem le_of_mem_seek {index : List (StaleNodeIndex K)}
    (hs : index.Pairwise fun a b => a.staleSinceVersion ≤ b.staleSinceVersion) {s : ℕ}
    {i : StaleNodeIndex K} (hi : i ∈ seek index s) : s ≤ i.staleSinceVersion := by
  have hp := hs.sublist (List.dropWhile_sublist fun i => decide (i.staleSinceVersion < s))
  have hhead := List.head?_dropWhile_not (fun i : StaleNodeIndex K => decide (i.staleSinceVersion < s)) index
  rw [seek] at hi
  cases hseek : index.dropWhile fun i => decide (i.staleSinceVersion < s) with
  | nil => rw [hseek] at hi; cases hi
  | cons h t =>
    rw [hseek] at hi hp hhead
    have hh : s ≤ h.staleSinceVersion := by simpa using hhead
    rcases List.mem_cons.mp hi with rfl | hit
    · exact hh
    · exact hh.trans (List.rel_of_pairwise_cons hp hit)

/-- Every entry of a batch is in the index, at or past the start and not past the target. -/
theorem mem_getStaleNodeIndices {index : List (StaleNodeIndex K)}
    (hs : index.Pairwise fun a b => a.staleSinceVersion ≤ b.staleSinceVersion) {s b : ℕ}
    {i : StaleNodeIndex K} (hi : i ∈ (getStaleNodeIndices index s T b).1) :
    i ∈ index ∧ s ≤ i.staleSinceVersion ∧ i.staleSinceVersion ≤ T := by
  rw [getStaleNodeIndices_fst] at hi
  have hw := List.mem_of_mem_take hi
  have hseek : i ∈ seek index s := (List.takeWhile_sublist _).subset hw
  refine ⟨(List.dropWhile_sublist _).subset hseek, le_of_mem_seek hs hseek, ?_⟩
  simpa using List.mem_takeWhile_imp hw

/-- The last entry of a batch is at the highest version in it. -/
theorem le_of_getLast?_getStaleNodeIndices {index : List (StaleNodeIndex K)}
    (hs : index.Pairwise fun a b => a.staleSinceVersion ≤ b.staleSinceVersion) {s b : ℕ}
    {ℓ i : StaleNodeIndex K} (hℓ : (getStaleNodeIndices index s T b).1.getLast? = some ℓ)
    (hi : i ∈ (getStaleNodeIndices index s T b).1) : i.staleSinceVersion ≤ ℓ.staleSinceVersion := by
  have hp := hs.sublist (getStaleNodeIndices_sublist T index s b)
  obtain ⟨l, hl⟩ := List.getLast?_eq_some_iff.mp hℓ
  rw [hl] at hp hi
  rcases List.mem_append.mp hi with hi | hi
  · exact (List.pairwise_append.mp hp).2.2 i hi ℓ (List.mem_singleton_self ℓ)
  · rw [List.mem_singleton.mp hi]

end Batch

/-- The targets a run sets never go below the one before. -/
def TargetsRise : ℕ → List Command → Prop
  | _, [] => True
  | t, .setTargetVersion t' :: cs => t ≤ t' ∧ TargetsRise t' cs
  | t, .prune _ :: cs => TargetsRise t cs

/-! ## One prune -/

namespace StateStorePruner

/-- The batch a pending `prune` fetches, with its end flag. -/
def nextBatch (p : StateStorePruner K) (batchSize : ℕ) : List (StaleNodeIndex K) × Bool :=
  getStaleNodeIndices p.db.index p.minReadableVersion p.targetVersion batchSize

@[simp] theorem setTargetVersion_db (p : StateStorePruner K) (t : ℕ) :
    (p.setTargetVersion t).db = p.db := rfl

@[simp] theorem setTargetVersion_targetVersion (p : StateStorePruner K) (t : ℕ) :
    (p.setTargetVersion t).targetVersion = t := rfl

@[simp] theorem setTargetVersion_minReadableVersion (p : StateStorePruner K) (t : ℕ) :
    (p.setTargetVersion t).minReadableVersion = p.minReadableVersion := rfl

variable [DecidableEq K] {p p' : StateStorePruner K} {b v : ℕ}

theorem prune_of_not_pending (h : p.isPruningPending = false) :
    p.prune b = .ok (p.minReadableVersion, p) := by
  rw [prune, h]
  rfl

/-- A pending prune with a batch size of at least one is `prune_state_store` on the batch it
fetches. -/
theorem prune_of_pending (hpend : p.isPruningPending = true) (hb : 0 < b) :
    p.prune b = match (p.nextBatch b).1.getLast? with
      | none => .ok (p.targetVersion,
          { p with prunedToTheEndOfTargetVersion := (p.nextBatch b).2,
                   minReadableVersion := p.targetVersion })
      | some ℓ => .ok (ℓ.staleSinceVersion,
          { p with db := p.db.delete (p.nextBatch b).1,
                   prunedToTheEndOfTargetVersion := (p.nextBatch b).2,
                   minReadableVersion := ℓ.staleSinceVersion }) := by
  rw [prune, hpend, Bool.not_true, if_neg Bool.false_ne_true, pruneStateStore,
    if_neg (Nat.pos_iff_ne_zero.mp hb)]
  rfl

/-- What one `prune` can do: nothing when no pruning is pending; otherwise, with a batch size of
at least one, record the target after an empty batch, or delete a non-empty batch and record
the version of its last entry. -/
theorem prune_cases (h : p.prune b = .ok (v, p')) :
    (p.isPruningPending = false ∧ p' = p) ∨
    (p.isPruningPending = true ∧ 0 < b ∧ (p.nextBatch b).1 = [] ∧
      p' = { p with prunedToTheEndOfTargetVersion := (p.nextBatch b).2,
                    minReadableVersion := p.targetVersion }) ∨
    (p.isPruningPending = true ∧ 0 < b ∧ ∃ ℓ, (p.nextBatch b).1.getLast? = some ℓ ∧
      p' = { p with db := p.db.delete (p.nextBatch b).1,
                    prunedToTheEndOfTargetVersion := (p.nextBatch b).2,
                    minReadableVersion := ℓ.staleSinceVersion }) := by
  cases hpend : p.isPruningPending with
  | false =>
    rw [prune_of_not_pending hpend] at h
    exact .inl ⟨rfl, (Prod.mk.inj (Except.ok.inj h)).2.symm⟩
  | true =>
    have hb : 0 < b := by
      refine Nat.pos_of_ne_zero fun hb => ?_
      rw [prune, hpend, Bool.not_true, if_neg Bool.false_ne_true, pruneStateStore, if_pos hb] at h
      cases h
    rw [prune_of_pending hpend hb] at h
    cases hl : (p.nextBatch b).1.getLast? with
    | none =>
      rw [hl] at h
      obtain ⟨-, rfl⟩ := Prod.mk.inj (Except.ok.inj h)
      exact .inr (.inl ⟨rfl, hb, List.getLast?_eq_none_iff.mp hl, rfl⟩)
    | some ℓ =>
      rw [hl] at h
      obtain ⟨-, rfl⟩ := Prod.mk.inj (Except.ok.inj h)
      exact .inr (.inr ⟨rfl, hb, ℓ, rfl, rfl⟩)

/-! ## What holds over runs -/

/-- A pending prune with a batch size of at least one either ends the pending work or deletes
at least one entry; the target stays. -/
theorem prune_progress (hpend : p.isPruningPending = true) (hb : 0 < b) :
    ∃ v p', p.prune b = .ok (v, p') ∧ p'.targetVersion = p.targetVersion ∧
      (p'.isPruningPending = false ∨ p'.db.index.length < p.db.index.length) := by
  rw [prune_of_pending hpend hb]
  cases hl : (p.nextBatch b).1.getLast? with
  | none =>
    refine ⟨_, _, rfl, rfl, .inl ?_⟩
    -- an empty batch of a positive size always comes with the end flag
    obtain ⟨n, rfl⟩ : ∃ n, b = n + 1 := ⟨b - 1, by omega⟩
    have hend : (p.nextBatch (n + 1)).2 = true :=
      getStaleNodeIndicesLoop_snd_of_fst_eq_nil _ n _ (List.getLast?_eq_none_iff.mp hl)
    simp [isPruningPending, hend]
  | some ℓ =>
    refine ⟨_, _, rfl, rfl, .inr ?_⟩
    have hℓ := List.mem_of_getLast? hl
    have hmem := (mem_getStaleNodeIndices _ p.db.sorted hℓ).1
    rw [StaleNodeDb.index_delete]
    exact List.length_filter_lt_length_iff_exists.mpr ⟨ℓ, hmem, by simpa using hℓ⟩

theorem run_replicate_prune_of_not_pending (h : p.isPruningPending = false) :
    ∀ n, run p (List.replicate n (.prune b)) = .ok p
  | 0 => rfl
  | n + 1 => by
    rw [List.replicate_succ, run, Command.apply, prune_of_not_pending h]
    exact run_replicate_prune_of_not_pending h n

/-- For a fixed target, one prune per index entry and one more end the pending work. -/
theorem run_replicate_prune (hb : 0 < b) :
    ∀ (n : ℕ) (p : StateStorePruner K), p.db.index.length < n →
      ∃ p', run p (List.replicate n (.prune b)) = .ok p' ∧ p'.isPruningPending = false ∧
        p'.targetVersion = p.targetVersion
  | 0, _, h => absurd h (Nat.not_lt_zero _)
  | n + 1, p, h => by
    cases hpend : p.isPruningPending with
    | false => exact ⟨p, run_replicate_prune_of_not_pending hpend _, hpend, rfl⟩
    | true =>
      obtain ⟨v, p₁, hp₁, htarget, hdone | hlen⟩ := prune_progress hpend hb
      · refine ⟨p₁, ?_, hdone, htarget⟩
        rw [List.replicate_succ, run, Command.apply, hp₁]
        exact run_replicate_prune_of_not_pending hdone n
      · obtain ⟨p', hrun, hp', ht'⟩ := run_replicate_prune hb n p₁ (by omega)
        refine ⟨p', ?_, hp', ht'.trans htarget⟩
        rw [List.replicate_succ, run, Command.apply, hp₁]
        exact hrun

/-- What a run whose targets never go down keeps: every version from `min_readable_version` on
is readable, and the minimum is not past the target. -/
structure Inv (p : StateStorePruner K) : Prop where
  readable : Readable p.db p.minReadableVersion
  le_target : p.minReadableVersion ≤ p.targetVersion

/-- A prune keeps the invariant and does not lower the minimum: a batch starts at the minimum,
stays below the target, and ends at its highest version. -/
theorem Inv.prune (hi : Inv p) (h : p.prune b = .ok (v, p')) :
    Inv p' ∧ p.minReadableVersion ≤ p'.minReadableVersion ∧ p'.targetVersion = p.targetVersion := by
  rcases prune_cases h with ⟨-, rfl⟩ | ⟨-, -, -, rfl⟩ | ⟨-, -, ℓ, hℓ, rfl⟩
  · exact ⟨hi, le_rfl, rfl⟩
  · exact ⟨⟨hi.readable.mono hi.le_target, le_rfl⟩, hi.le_target, rfl⟩
  · have hmem := mem_getStaleNodeIndices _ p.db.sorted (List.mem_of_getLast? hℓ)
    refine ⟨⟨fun d hd => ?_, hmem.2.2⟩, hmem.2.1, rfl⟩
    rcases List.mem_append.mp hd with hd | hd
    · exact (hi.readable d hd).trans hmem.2.1
    · exact le_of_getLast?_getStaleNodeIndices _ p.db.sorted hℓ hd

/-- Over a run whose targets never go down, every version from `min_readable_version` on stays
readable and the minimum never goes down. -/
theorem Inv.run : ∀ (cs : List Command) {p p' : StateStorePruner K}, Inv p →
    TargetsRise p.targetVersion cs → Pruner.run p cs = .ok p' →
      Inv p' ∧ p.minReadableVersion ≤ p'.minReadableVersion
  | [], _, _, hi, _, h => by
    cases h
    exact ⟨hi, le_rfl⟩
  | .setTargetVersion t :: cs, p, _, hi, ⟨ht, hrise⟩, h =>
    Inv.run cs (p := p.setTargetVersion t) ⟨hi.readable, hi.le_target.trans ht⟩ hrise h
  | .prune b :: cs, p, _, hi, hrise, h => by
    rw [Pruner.run, Command.apply] at h
    cases hp : p.prune b with
    | error e =>
      rw [hp] at h
      cases h
    | ok r =>
      rw [hp] at h
      obtain ⟨hi₁, hle₁, ht₁⟩ := hi.prune hp
      obtain ⟨hi', hle'⟩ := Inv.run cs hi₁ (ht₁ ▸ hrise) h
      exact ⟨hi', hle₁.trans hle'⟩

/-! ## What does not hold -/

/-- A pending prune whose target is below `min_readable_version`, while its last batch did not
reach the end of its target, records the lower target as the new minimum: the seek starts past
the target, so the batch comes back empty. -/
theorem prune_lowers_minReadableVersion (hb : 0 < b)
    (hend : p.prunedToTheEndOfTargetVersion = false)
    (hlt : p.targetVersion < p.minReadableVersion) :
    p.prune b = .ok (p.targetVersion,
      { p with prunedToTheEndOfTargetVersion := true, minReadableVersion := p.targetVersion }) := by
  have hpend : p.isPruningPending = true := by simp [isPruningPending, hend]
  obtain ⟨n, rfl⟩ : ∃ n, b = n + 1 := ⟨b - 1, by omega⟩
  have hB : p.nextBatch (n + 1) = ([], true) :=
    getStaleNodeIndicesLoop_of_head _ n _ fun i hi =>
      hlt.trans_le (le_of_mem_seek p.db.sorted (List.mem_of_mem_head? hi))
  rw [prune_of_pending hpend hb, hB]
  rfl

/-- A batch that ends inside the target version, with more entries of that version after it,
reports the target as pruned to its end: no pruning is pending, yet those entries stay. -/
theorem prune_leaves_target_version (hpend : p.isPruningPending = true)
    {pre rest : List (StaleNodeIndex K)} {ℓ e : StaleNodeIndex K}
    (hseek : seek p.db.index p.minReadableVersion = pre ++ ℓ :: e :: rest)
    (hlen : pre.length + 1 = b) (hpre : ∀ i ∈ pre, i.staleSinceVersion ≤ p.targetVersion)
    (hℓ : ℓ.staleSinceVersion = p.targetVersion) (he : e.staleSinceVersion = p.targetVersion) :
    ∃ p', p.prune b = .ok (p.targetVersion, p') ∧ p'.isPruningPending = false ∧
      p'.targetVersion = p.targetVersion ∧ e ∈ p'.db.index := by
  have hsplit : pre ++ ℓ :: e :: rest = (pre ++ [ℓ]) ++ e :: rest := by simp
  have hall : ∀ i ∈ pre ++ [ℓ], i.staleSinceVersion ≤ p.targetVersion := by
    intro i hi
    rcases List.mem_append.mp hi with hi | hi
    · exact hpre i hi
    · rw [List.mem_singleton.mp hi, hℓ]
  -- the batch is everything up to `ℓ`, and the look at `e` does not pass the target
  have hB : p.nextBatch b = (pre ++ [ℓ], true) := by
    have hlen' : (pre ++ [ℓ]).length = b := by simpa using hlen
    rw [nextBatch, getStaleNodeIndices, hseek, hsplit, ← hlen',
      getStaleNodeIndicesLoop_append _ _ _ _ hall, getStaleNodeIndicesLoop,
      if_neg (Nat.not_lt.mpr he.le)]
    simp [isEndOfTargetVersion, hℓ]
  -- `e` is in the index and, the index having distinct keys, not in the batch
  have hseek_nodup : (seek p.db.index p.minReadableVersion).Nodup :=
    p.db.nodup.sublist (List.dropWhile_sublist _)
  rw [hseek, hsplit] at hseek_nodup
  have he_index : e ∈ p.db.index := by
    refine (List.dropWhile_sublist _).subset (?_ : e ∈ seek p.db.index p.minReadableVersion)
    rw [hseek]
    simp
  have he_batch : e ∉ pre ++ [ℓ] := fun h =>
    (List.nodup_append.mp hseek_nodup).2.2 e h e List.mem_cons_self rfl
  let p' : StateStorePruner K :=
    { p with db := p.db.delete (pre ++ [ℓ]), prunedToTheEndOfTargetVersion := true,
             minReadableVersion := ℓ.staleSinceVersion }
  refine ⟨p', ?_, ?_, rfl, ?_⟩
  · rw [prune_of_pending hpend (by omega), hB, List.getLast?_concat]
    exact congrArg (fun v => Except.ok (v, p')) hℓ
  · simp [p', isPruningPending, hℓ]
  · simpa [p', he_index] using he_batch

end StateStorePruner

/-- A restart reads the minimum off the first entry left. When a batch stopped inside that
entry's version, nodes of it are already gone, and the version one below is not readable. -/
theorem new_not_readable {db : StaleNodeDb K} {i d : StaleNodeIndex K}
    (hi : db.index.head? = some i) (hpos : 0 < i.staleSinceVersion) (hd : d ∈ db.deleted)
    (hdi : d.staleSinceVersion = i.staleSinceVersion) :
    ∃ p, StateStorePruner.new db = .ok p ∧ p.minReadableVersion = i.staleSinceVersion - 1 ∧
      ¬ Readable p.db p.minReadableVersion := by
  refine ⟨⟨db, 0, i.staleSinceVersion - 1, false⟩, ?_, rfl, fun h => ?_⟩
  · rw [StateStorePruner.new, initializeMinReadableVersion, hi]
    dsimp only
    rw [if_neg (Nat.pos_iff_ne_zero.mp hpos)]
    rfl
  · have hle : d.staleSinceVersion ≤ i.staleSinceVersion - 1 := h d hd
    omega

theorem pruner_overstates_progress [DecidableEq K] :
    -- a batch cut inside the target version ends the pending work with entries of it left
    (∀ (p : StateStorePruner K) (b : ℕ) (pre rest : List (StaleNodeIndex K))
        (ℓ e : StaleNodeIndex K),
      p.isPruningPending = true → seek p.db.index p.minReadableVersion = pre ++ ℓ :: e :: rest →
      pre.length + 1 = b → (∀ i ∈ pre, i.staleSinceVersion ≤ p.targetVersion) →
      ℓ.staleSinceVersion = p.targetVersion → e.staleSinceVersion = p.targetVersion →
      ∃ p', p.prune b = .ok (p.targetVersion, p') ∧ p'.isPruningPending = false ∧
        e ∈ p'.db.index ∧ e.staleSinceVersion ≤ p'.targetVersion) ∧
    -- a restart after such a cut puts the minimum at a version that cannot be read
    (∀ (db : StaleNodeDb K) (i d : StaleNodeIndex K),
      db.index.head? = some i → 0 < i.staleSinceVersion → d ∈ db.deleted →
      d.staleSinceVersion = i.staleSinceVersion →
      ∃ p, StateStorePruner.new db = .ok p ∧ ¬ Readable p.db p.minReadableVersion) ∧
    -- a target below the minimum, while the end of a target is not reached, lowers the minimum
    (∀ (p : StateStorePruner K) (b : ℕ), 0 < b → p.prunedToTheEndOfTargetVersion = false →
      p.targetVersion < p.minReadableVersion →
      ∃ p', p.prune b = .ok (p.targetVersion, p') ∧ p'.minReadableVersion < p.minReadableVersion) := by
  refine ⟨?_, ?_, ?_⟩
  · intro p b pre rest ℓ e hpend hseek hlen hpre hℓ he
    obtain ⟨p', hp, hpend', htarget, he'⟩ :=
      p.prune_leaves_target_version hpend hseek hlen hpre hℓ he
    exact ⟨p', hp, hpend', he', (he.trans htarget.symm).le⟩
  · intro db i d hi hpos hd hdi
    obtain ⟨p, hp, -, hnot⟩ := new_not_readable hi hpos hd hdi
    exact ⟨p, hp, hnot⟩
  · intro p b hb hend hlt
    exact ⟨_, p.prune_lowers_minReadableVersion hb hend hlt, hlt⟩

/-- Nodes `0`, `1` and `2`, all stale since version 5, with nothing pruned yet. -/
def sampleDb : StaleNodeDb ℕ := ⟨[⟨5, 0⟩, ⟨5, 1⟩, ⟨5, 2⟩], [], by decide, by decide⟩

/-- The same database after a batch of two: node `2` is left. -/
def sampleDbCut : StaleNodeDb ℕ := ⟨[⟨5, 2⟩], [⟨5, 0⟩, ⟨5, 1⟩], by decide, by decide⟩

theorem pruner_overstates_progress_sample :
    StateStorePruner.new sampleDb = .ok ⟨sampleDb, 0, 4, false⟩ ∧
    ((⟨sampleDb, 0, 4, false⟩ : StateStorePruner ℕ).setTargetVersion 5).prune 2 =
      .ok (5, ⟨sampleDbCut, 5, 5, true⟩) ∧
    (∃ p', ((⟨sampleDb, 0, 4, false⟩ : StateStorePruner ℕ).setTargetVersion 5).prune 2 =
        .ok (5, p') ∧ p'.isPruningPending = false ∧ ⟨5, 2⟩ ∈ p'.db.index ∧
        5 ≤ p'.targetVersion) ∧
    StateStorePruner.new sampleDbCut = .ok ⟨sampleDbCut, 0, 4, false⟩ ∧
    (∃ p, StateStorePruner.new sampleDbCut = .ok p ∧ ¬ Readable p.db p.minReadableVersion) ∧
    (∃ p', (⟨sampleDbCut, 0, 4, false⟩ : StateStorePruner ℕ).prune 1 = .ok (0, p') ∧
      p'.minReadableVersion < 4) :=
  ⟨rfl, rfl,
    pruner_overstates_progress.1 _ 2 [⟨5, 0⟩] [] ⟨5, 1⟩ ⟨5, 2⟩ rfl rfl rfl (by decide) rfl rfl,
    rfl,
    pruner_overstates_progress.2.1 sampleDbCut ⟨5, 2⟩ ⟨5, 0⟩ rfl (by decide) (by decide) rfl,
    pruner_overstates_progress.2.2 _ 1 (by decide) rfl (by decide)⟩

end AptosCore.Pruner
