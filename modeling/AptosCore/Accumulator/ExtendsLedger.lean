import AptosCore.Accumulator.RangeProof
import AptosCore.Accumulator.Representation

/-!
# Range proofs that extend a ledger

`TransactionInfoListWithProof::verify_extends_ledger` (types/src/proof/definition.rs)
checks a run of transaction infos that starts at `first_version` against a
ledger of `num_txns_in_ledger` transactions known only by its root hash: it
takes the left siblings of the run's range proof, reversed, as the frozen
subtree roots of the first `first_version` leaves, appends the infos the ledger
already holds and compares the root hashes. The left siblings are indeed those
roots, which `get_frozen_subtree_hashes` (storage/accumulator/src/lib.rs) reads
from storage: bottom up, the nodes left of the path of the first leaf are the
frozen subtrees of the leaves before it (`MerkleTree.leftRangeSiblings_eq_reverse`).
-/

namespace AptosCore

open Word MerkleTree Position

namespace MerkleAccumulatorView

variable {α : Type} (reader : Position → Except (AccumulatorError α) α)

/-- `MerkleAccumulatorView::get_frozen_subtree_hashes` of the view of
`numLeaves` leaves: each position `FrozenSubTreeIterator` yields, read from storage. -/
def getFrozenSubtreeHashes (numLeaves : Nat) : Except (AccumulatorError α) (List α) :=
  (FrozenSubTreeIterator.new numLeaves).toList.mapM reader

end MerkleAccumulatorView

/-- How `verify_extends_ledger` fails: each of its `ensure!`s, with the values
its message prints, and an error of the accumulator it rebuilds. -/
inductive ExtendsLedgerError (α : Type) where
  /-- "Transaction list too new. Expected version: {}. First transaction version: {}." -/
  | transactionListTooNew (numTxnsInLedger firstVersion : Nat)
  /-- "Fork happens because the current synced_trees doesn't match the txn list provided." -/
  | fork
  /-- The message-less `ensure!(self.transaction_infos.is_empty())`. -/
  | transactionInfosNotEmpty
  /-- `InMemoryAccumulator::new` failed, or `append` panicked. -/
  | accumulator (e : AccumulatorError α)
  deriving DecidableEq, Repr

/-- `TransactionInfoListWithProof`, with transaction infos of type `β`. -/
structure TransactionInfoListWithProof (β α : Type) where
  ledgerInfoToTransactionInfosProof : AccumulatorRangeProof α
  transactionInfos : List β

namespace TransactionInfoListWithProof

variable {α β : Type} [DecidableEq α] (hash : α → α → α) (placeholder : α) (hashInfo : β → α)

/-- `TransactionInfoListWithProof::verify_extends_ledger`; `hashInfo` is
`CryptoHash::hash` of a transaction info. -/
def verifyExtendsLedger (self : TransactionInfoListWithProof β α) (numTxnsInLedger : Nat)
    (rootHash : α) (firstTransactionInfoVersion : Option Nat) : Except (ExtendsLedgerError α) Nat :=
  match firstTransactionInfoVersion with
  | some firstVersion =>
    if firstVersion ≤ numTxnsInLedger then
      let numOverlapTxns := numTxnsInLedger - firstVersion
      -- the entire chunk is in the past: a fork is detected later
      if self.transactionInfos.length < numOverlapTxns then .ok self.transactionInfos.length
      else
        let overlapTxnInfos := self.transactionInfos.take numOverlapTxns
        let frozenSubtreeRootsFromProof := self.ledgerInfoToTransactionInfosProof.leftSiblings.reverse
        do
          let accuFromProof ← (do
            let acc ← InMemoryAccumulator.new hash placeholder frozenSubtreeRootsFromProof firstVersion
            acc.append hash placeholder (overlapTxnInfos.map hashInfo)).mapError .accumulator
          if accuFromProof.rootHash = rootHash then .ok numOverlapTxns else .error .fork
    else .error (.transactionListTooNew numTxnsInLedger firstVersion)
  | none => if self.transactionInfos.isEmpty then .ok 0 else .error .transactionInfosNotEmpty

end TransactionInfoListWithProof

/-! ## The left siblings are the frozen subtree roots -/

section Frozen

variable {α : Type} {hash : α → α → α} {placeholder : α}

open MerkleAccumulatorView

/-- Over a reader holding the nodes complete over `n` leaves, the frozen subtree
hashes of `n` leaves are their frontier. -/
theorem getFrozenSubtreeHashes_eq {reader : Position → Except (AccumulatorError α) α}
    {leaf : Nat → α} {n : Nat} (hS : Stored hash reader leaf n) (hn : n ≤ 2 ^ 63) :
    getFrozenSubtreeHashes reader n = .ok (frontier hash leaf n) := by
  rw [getFrozenSubtreeHashes, FrozenSubTreeIterator.toList_new_eq_frozenSubtrees hn, List.mapM_map,
    frontier_eq_map]
  exact mapM_eq_ok fun p hp => hS p.1 p.2 (fits_of_mem_frozenSubtrees hp)

/-- Bottom up, the nodes of the padded tree left of the path of leaf `i < n` are
the frozen subtree roots of the first `i` leaves, smallest first. -/
theorem leftRangeSiblings_paddedRoot_reverse (leaf : Nat → α) {n i : Nat} (hi : i < n) :
    (leftRangeSiblings (paddedRoot hash placeholder leaf n) i 0 (rootLevel n)).reverse =
      frontier hash leaf i := by
  have hlt : i < 2 ^ rootLevel n := by
    have := Nat.lt_size_self (n - 1)
    rw [rootLevel]
    omega
  rw [leftRangeSiblings_eq_reverse _ hlt, List.reverse_reverse, frontier_eq_map]
  apply List.map_congr_left
  rintro ⟨l, k⟩ hmem
  exact paddedRoot_eq_perfectRoot (le_trans (fits_of_mem_frozenSubtrees hmem) hi.le)

/-- Appending the leaves `i..m - 1` of `F` to the accumulator of its first `i`
leaves gives the accumulator of its first `m`. -/
theorem append_ofTree_drop_take {F : List α} {i m : Nat} (him : i ≤ m) (hm : m ≤ F.length)
    (hF : F.length < 2 ^ 64) :
    (InMemoryAccumulator.ofTree hash placeholder (leafOf placeholder F) i).append hash placeholder
        ((F.drop i).take (m - i)) =
      .ok (InMemoryAccumulator.ofTree hash placeholder (leafOf placeholder F) m) := by
  have hjoin : F.take i ++ (F.drop i).take (m - i) = F.take m := by
    rw [← List.take_add, Nat.add_sub_cancel' him]
  have hlen : (F.take i ++ (F.drop i).take (m - i)).length < 2 ^ 64 := by
    rw [hjoin, List.length_take]
    omega
  have hi' : (F.take i).length = i := by rw [List.length_take]; omega
  have hm' : (F.take m).length = m := by rw [List.length_take]; omega
  have happ := @InMemoryAccumulator.append_ofTree α hash placeholder
    (F.take i) ((F.drop i).take (m - i)) hlen
  rw [hjoin, hi', hm', InMemoryAccumulator.ofTree_congr fun j hj => leafOf_take hj,
    InMemoryAccumulator.ofTree_congr fun j hj => leafOf_take hj] at happ
  exact happ

end Frozen

/-! ## Checking a run against the ledger -/

namespace TransactionInfoListWithProof

section Verify

variable {α β : Type} [DecidableEq α] {hash : α → α → α} {placeholder : α} {hashInfo : β → α}

/-- A run of `k` infos that starts at `i` and reaches past the ledger's end is
accepted without a check. -/
theorem verifyExtendsLedger_of_lt {self : TransactionInfoListWithProof β α} {i m : Nat}
    (rootHash : α) (h : i + self.transactionInfos.length < m) :
    self.verifyExtendsLedger hash placeholder hashInfo m rootHash (some i) =
      .ok self.transactionInfos.length := by
  rw [verifyExtendsLedger, if_pos (by omega)]
  dsimp only
  rw [if_pos (by omega)]

/-- A run whose proof carries the frozen roots of the first `i` leaves of `F`
and whose infos hash to the leaves from `i` on is accepted by a ledger of `m`
leaves of `F` for every `m` it overlaps. -/
theorem verifyExtendsLedger_of_le {self : TransactionInfoListWithProof β α} {F : List α}
    {i k m : Nat} (hF : F.length < 2 ^ 64)
    (hroots : self.ledgerInfoToTransactionInfosProof.leftSiblings.reverse =
      frontier hash (leafOf placeholder F) i)
    (hinfos : self.transactionInfos.map hashInfo = (F.drop i).take k)
    (him : i ≤ m) (hmk : m ≤ i + k) (hm : m ≤ F.length) :
    self.verifyExtendsLedger hash placeholder hashInfo m
        (treeRoot hash placeholder (leafOf placeholder F) m) (some i) = .ok (m - i) := by
  have hk : m - i ≤ self.transactionInfos.length := by
    have := congrArg List.length hinfos
    rw [List.length_map, List.length_take, List.length_drop] at this
    omega
  -- the overlap hashes to the leaves `i..m - 1`
  have hoverlap : (self.transactionInfos.take (m - i)).map hashInfo = (F.drop i).take (m - i) := by
    rw [List.map_take, hinfos, List.take_take, Nat.min_eq_left (by omega)]
  have hnew := @InMemoryAccumulator.new_frontier α hash placeholder
    (leafOf placeholder F) i (show i < 2 ^ 64 by omega)
  rw [verifyExtendsLedger, if_pos him]
  dsimp only
  rw [if_neg (by omega), hroots, hoverlap, hnew]
  simp only [bind, Except.bind, append_ofTree_drop_take him hm hF, Except.mapError,
    InMemoryAccumulator.rootHash_ofTree, if_pos trivial]

end Verify

end TransactionInfoListWithProof

/-! ## Range proofs of a stored accumulator extend its ledgers -/

section Stored

open MerkleAccumulatorView TransactionInfoListWithProof

variable {α β : Type} [DecidableEq α] {hash : α → α → α} {placeholder : α}

variable (hash placeholder) in
/-- Over a store holding the frozen nodes of the leaves `F`, the left siblings of
the range proof `get_range_proof` returns for the leaves `i..i + k - 1`, reversed,
are what `get_frozen_subtree_hashes` reads for the first `i` leaves. So
`verify_extends_ledger` of that proof and of infos hashing to those leaves
accepts the root hash `get_root_hash` gives for every `m` from `i` to `i + k`
with `0 < m`, and the empty accumulator's placeholder for `m = 0`, counting the
`m - i` infos the ledger holds; past `i + k` it accepts any root hash, counting `k`. -/
theorem rangeProof_left_siblings_are_frozen_roots {s : MockHashStore α} {F : List α}
    (hs : StoresFrozen hash s (leafOf placeholder F) F.length)
    (hF : F.length ≤ maxAccumulatorLeaves) (hashInfo : β → α) :
    ∀ i k, 0 < k → i + k ≤ F.length →
      ∃ proof, getRangeProof hash placeholder s.get F.length (some i) k = .ok proof ∧
        getFrozenSubtreeHashes s.get i = .ok proof.leftSiblings.reverse ∧
        ∀ infos : List β, infos.map hashInfo = (F.drop i).take k →
          (∀ m, i ≤ m → m ≤ i + k → 0 < m → ∃ rootHash,
            getRootHash hash placeholder s.get m = .ok rootHash ∧
            (⟨proof, infos⟩ : TransactionInfoListWithProof β α).verifyExtendsLedger hash
              placeholder hashInfo m rootHash (some i) = .ok (m - i)) ∧
          (i = 0 → (⟨proof, infos⟩ : TransactionInfoListWithProof β α).verifyExtendsLedger hash
              placeholder hashInfo 0 placeholder (some 0) = .ok 0) ∧
          ∀ m, i + k < m → ∀ rootHash,
            (⟨proof, infos⟩ : TransactionInfoListWithProof β α).verifyExtendsLedger hash
              placeholder hashInfo m rootHash (some i) = .ok k := by
  rw [maxAccumulatorLeaves_eq] at hF
  have hS := stored_of_storesFrozen hs hF
  intro i k hk hik
  obtain ⟨proof, hproof, hleft⟩ : ∃ proof,
      getRangeProof hash placeholder s.get F.length (some i) k = .ok proof ∧
        proof.leftSiblings.reverse = frontier hash (leafOf placeholder F) i :=
    ⟨_, getRangeProof_eq hS hF hk hik,
      leftRangeSiblings_paddedRoot_reverse (leafOf placeholder F) (show i < F.length by omega)⟩
  refine ⟨proof, hproof, ?_, fun infos hinfos => ⟨?_, ?_, ?_⟩⟩
  · rw [getFrozenSubtreeHashes_eq (hS.mono (by omega)) (by omega), hleft]
  · intro m him hmk hm
    exact ⟨_, getRootHash_eq (hS.mono (by omega)) hm (by omega),
      verifyExtendsLedger_of_le (by omega) hleft hinfos him hmk (by omega)⟩
  · -- the empty prefix: the root of no leaf is the placeholder
    rintro rfl
    have h : (⟨proof, infos⟩ : TransactionInfoListWithProof β α).verifyExtendsLedger hash placeholder
        hashInfo 0 (treeRoot hash placeholder (leafOf placeholder F) 0) (some 0) = .ok (0 - 0) :=
      verifyExtendsLedger_of_le (by omega) hleft hinfos (le_refl 0) (by omega) (by omega)
    rwa [treeRoot, if_pos rfl] at h
  · intro m hm rootHash
    have hlen : infos.length = k := by
      have := congrArg List.length hinfos
      rw [List.length_map, List.length_take, List.length_drop] at this
      omega
    have h : (⟨proof, infos⟩ : TransactionInfoListWithProof β α).verifyExtendsLedger hash placeholder
        hashInfo m rootHash (some i) = .ok infos.length :=
      verifyExtendsLedger_of_lt rootHash (show i + infos.length < m by omega)
    rwa [hlen] at h

theorem rangeProof_left_siblings_are_frozen_roots_five :
    StoresFrozen Nat.add ((MockHashStore.empty : MockHashStore Nat).putMany
        (writesFrom Nat.add (leafOf 0 [1, 2, 3, 4, 5]) 0 5)) (leafOf 0 [1, 2, 3, 4, 5])
        [1, 2, 3, 4, 5].length ∧
      [1, 2, 3, 4, 5].length ≤ maxAccumulatorLeaves ∧
      ∃ proof, getRangeProof Nat.add 0 ((MockHashStore.empty : MockHashStore Nat).putMany
          (writesFrom Nat.add (leafOf 0 [1, 2, 3, 4, 5]) 0 5)).get [1, 2, 3, 4, 5].length
          (some 3) 2 = .ok proof ∧
        getFrozenSubtreeHashes ((MockHashStore.empty : MockHashStore Nat).putMany
          (writesFrom Nat.add (leafOf 0 [1, 2, 3, 4, 5]) 0 5)).get 3 =
          .ok proof.leftSiblings.reverse := by
  have hs : StoresFrozen Nat.add ((MockHashStore.empty : MockHashStore Nat).putMany
      (writesFrom Nat.add (leafOf 0 [1, 2, 3, 4, 5]) 0 5)) (leafOf 0 [1, 2, 3, 4, 5]) (0 + 5) :=
    storesFrozen_putMany (storesFrozen_empty _) (by decide)
  obtain ⟨proof, hproof, hfrozen, -⟩ := rangeProof_left_siblings_are_frozen_roots Nat.add 0 hs
    (by decide) (id : Nat → Nat) 3 2 (by decide) (by decide)
  exact ⟨hs, by decide, proof, hproof, hfrozen⟩

/-- At `i = m = 0` the call of the claim has no root hash to check: over the
store of five leaves, `get_root_hash` of no leaf fails the
`assert!(leaf_count > 0)` of `root_from_leaf_count`. -/
theorem extends_empty_ledger_getRootHash_panics :
    getRootHash Nat.add 0 ((MockHashStore.empty : MockHashStore Nat).putMany
        (writesFrom Nat.add (leafOf 0 [1, 2, 3, 4, 5]) 0 5)).get 0 =
      .error (.panic "assertion failed: leaf_count > 0") :=
  rfl

end Stored

end AptosCore
