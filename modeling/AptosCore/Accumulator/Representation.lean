import AptosCore.Accumulator.Storage
import AptosCore.Accumulator.FrozenSubtrees

/-!
# The representation invariant of the in-memory accumulator

An `InMemoryAccumulator` of the leaves `L` keeps the number of leaves, one
root for each set bit of it, the `i`-th being the hash of the subtree at the
`i`-th position `FrozenSubTreeIterator` yields, and the root of the tree over
`L` padded with placeholders (`Represents`). These fields are determined by
`L` (`represents_iff`): `from_leaves` builds them, and `append` carries an
accumulator of `A` to one of `A ++ B`, so that `append` is an action of list
concatenation on accumulators.

Positions exist for trees of at most `MAX_ACCUMULATOR_LEAVES` leaves, which
bounds the leaf counts here.
-/

namespace AptosCore

open Word MerkleTree Position MerkleAccumulatorView

variable {α : Type} {hash : α → α → α} {placeholder : α}

variable (hash placeholder) in
/-- The representation invariant of an accumulator of the leaves `L`. -/
structure Represents (acc : InMemoryAccumulator α) (L : List α) : Prop where
  numLeaves_eq : acc.numLeaves = L.length
  length_frozenSubtreeRoots : acc.frozenSubtreeRoots.length = countOnes 64 acc.numLeaves
  frozenSubtreeRoots_eq : acc.frozenSubtreeRoots =
    (FrozenSubTreeIterator.new acc.numLeaves).toList.map (nodeHash hash (leafOf placeholder L))
  rootHash_eq : acc.rootHash = treeRoot hash placeholder (leafOf placeholder L) acc.numLeaves

/-- The hashes of the subtrees at the iterator's positions are the frontier. -/
theorem map_nodeHash_toList_new (leaf : Nat → α) {n : Nat} (hn : n ≤ 2 ^ 63) :
    (FrozenSubTreeIterator.new n).toList.map (nodeHash hash leaf) = frontier hash leaf n := by
  rw [FrozenSubTreeIterator.toList_new_eq_frozenSubtrees hn, List.map_map, frontier_eq_map]
  apply List.map_congr_left
  rintro ⟨l, k⟩ hmem
  exact nodeHash_fromLevelAndPos leaf (le_trans (fits_of_mem_frozenSubtrees hmem) hn)

/-- The accumulator of `L` is the one its invariant describes, and no other. -/
theorem represents_iff {acc : InMemoryAccumulator α} {L : List α} (hlen : L.length ≤ 2 ^ 63) :
    Represents hash placeholder acc L ↔
      acc = InMemoryAccumulator.ofTree hash placeholder (leafOf placeholder L) L.length := by
  constructor
  · rintro ⟨hn, -, hroots, hroot⟩
    rw [hn, map_nodeHash_toList_new _ hlen] at hroots
    rw [hn] at hroot
    cases acc
    simp only at hn hroots hroot
    subst hn hroots hroot
    rfl
  · rintro rfl
    refine ⟨rfl, length_frontier (by omega), ?_, rfl⟩
    rw [InMemoryAccumulator.numLeaves_ofTree, map_nodeHash_toList_new _ hlen]
    rfl

/-- `append` is an action of list concatenation that keeps the invariant: on
leaf lists within `MAX_ACCUMULATOR_LEAVES`, `from_leaves(A).append(B)` is
`from_leaves(A ++ B)`, `from_leaves` builds an accumulator with the invariant,
and `append` of `B` to any accumulator of `A` succeeds with an accumulator of
`A ++ B`. The invariant holds `popcount(num_leaves)` roots, the hashes of the
subtrees `FrozenSubTreeIterator` yields, and the root of the padded tree. -/
theorem inMemoryAccumulator_append_action :
    (∀ A B : List α, (A ++ B).length ≤ maxAccumulatorLeaves →
      (InMemoryAccumulator.fromLeaves hash placeholder A >>= fun acc =>
          acc.append hash placeholder B) =
        InMemoryAccumulator.fromLeaves hash placeholder (A ++ B)) ∧
    (∀ L : List α, L.length ≤ maxAccumulatorLeaves →
      ∃ acc, InMemoryAccumulator.fromLeaves hash placeholder L = .ok acc ∧
        Represents hash placeholder acc L) ∧
    (∀ (acc : InMemoryAccumulator α) (A B : List α), Represents hash placeholder acc A →
      (A ++ B).length ≤ maxAccumulatorLeaves →
      ∃ acc', acc.append hash placeholder B = .ok acc' ∧ Represents hash placeholder acc' (A ++ B)) := by
  rw [maxAccumulatorLeaves_eq]
  refine ⟨fun A B hlen => ?_, fun L hlen => ?_, fun acc A B hacc hlen => ?_⟩
  · have hA : A.length < 2 ^ 64 := by rw [List.length_append] at hlen; omega
    rw [InMemoryAccumulator.fromLeaves_eq_ofTree A hA,
      InMemoryAccumulator.fromLeaves_eq_ofTree (A ++ B) (by omega)]
    exact InMemoryAccumulator.append_ofTree A B (by omega)
  · exact ⟨_, InMemoryAccumulator.fromLeaves_eq_ofTree L (by omega), (represents_iff hlen).mpr rfl⟩
  · have hA : A.length ≤ 2 ^ 63 := by rw [List.length_append] at hlen; omega
    rw [represents_iff hA] at hacc
    subst hacc
    exact ⟨_, InMemoryAccumulator.append_ofTree A B (by omega), (represents_iff hlen).mpr rfl⟩

theorem inMemoryAccumulator_append_action_sample :
    ([1, 2] ++ [3] : List Nat).length ≤ maxAccumulatorLeaves ∧
      (InMemoryAccumulator.fromLeaves Nat.add 0 [1, 2] >>= fun acc => acc.append Nat.add 0 [3]) =
        InMemoryAccumulator.fromLeaves Nat.add 0 ([1, 2] ++ [3]) :=
  ⟨by decide, (@inMemoryAccumulator_append_action Nat Nat.add 0).1 [1, 2] [3]
    (by decide)⟩

end AptosCore
