import AptosCore.Accumulator.Proof
import AptosCore.Accumulator.FrozenSubtrees

/-!
# Consistency proofs

`MerkleAccumulatorView::get_consistency_proof` (storage/accumulator/src/lib.rs)
proves that the accumulator of `n` leaves extends the one of `m ≤ n` leaves
with the roots of the subtrees that hold the leaves `m, …, n - 1`, in the order
`FrozenSubtreeSiblingIterator` (types/src/proof/position/mod.rs) yields them:
while enough leaves remain, one of the size of the rightmost frozen subtree, so
that the two merge; then the largest that fit, in decreasing size.
`InMemoryAccumulator::append_subtrees` consumes them in the same order, merging
each of the first kind with the frozen roots of its size on its left. A light
client's `TransactionAccumulatorSummary::try_extend_with_proof`
(types/src/proof/definition.rs) runs `append_subtrees` and checks the result
against a `LedgerInfo`.

The subtrees of the first kind are single leaves of the tree `2 ^ z` times
coarser (`MerkleTree.frontier_two_pow_mul`), so their merges are the carries
of `append_one` there; the others are the frozen subtrees of the leaves left
(`MerkleTree.frozenSubtrees_add`).
-/

namespace AptosCore

open Word MerkleTree Position

namespace Position

/-- `FrozenSubtreeSiblingIterator::next_new_leaf_batch`:
`1 << (MAX_ACCUMULATOR_PROOF_DEPTH - remaining_new_leaves.leading_zeros())`. -/
def nextNewLeafBatch (remainingNewLeaves : Nat) : Nat :=
  shiftLeft 64 1 (maxAccumulatorProofDepth - leadingZeros 64 remainingNewLeaves)

/-- The size of the subtree `FrozenSubtreeSiblingIterator::next` yields: that of
the rightmost frozen subtree while that many leaves remain, so that the two
merge, and otherwise the largest batch. -/
def nextSubtreeLeaves (currentNumLeaves remainingNewLeaves : Nat) : Nat :=
  if 0 < currentNumLeaves then
    let rightmostFrozenSubtreeLeaves := shiftLeft 64 1 (trailingZeros 64 currentNumLeaves)
    if rightmostFrozenSubtreeLeaves ≤ remainingNewLeaves then rightmostFrozenSubtreeLeaves
    else nextNewLeafBatch remainingNewLeaves
  else nextNewLeafBatch remainingNewLeaves

theorem nextSubtreeLeaves_pos (currentNumLeaves remainingNewLeaves : Nat) :
    0 < nextSubtreeLeaves currentNumLeaves remainingNewLeaves := by
  unfold nextSubtreeLeaves nextNewLeafBatch
  dsimp only
  split_ifs <;> exact shiftLeft_one_pos (show 0 < 64 by decide) _

/-- What `FrozenSubtreeSiblingIterator` yields from `currentNumLeaves` leaves
with `remainingNewLeaves` to add: the root of each subtree, the in-order
position between its first and last leaf. -/
def frozenSubtreeSiblings (currentNumLeaves remainingNewLeaves : Nat) : List Position :=
  if remainingNewLeaves = 0 then []
  else
    let nextSubtreeLeaves := nextSubtreeLeaves currentNumLeaves remainingNewLeaves
    let firstLeafIndex := currentNumLeaves
    let lastLeafIndex := firstLeafIndex + nextSubtreeLeaves - 1
    fromInorderIndex (firstLeafIndex + lastLeafIndex) ::
      frozenSubtreeSiblings (currentNumLeaves + nextSubtreeLeaves)
        (remainingNewLeaves - nextSubtreeLeaves)
termination_by remainingNewLeaves
decreasing_by
  have := nextSubtreeLeaves_pos currentNumLeaves remainingNewLeaves
  omega

/-- `FrozenSubtreeSiblingIterator::new` with its two `assert!`s, and the
positions it yields. -/
def frozenSubtreeSiblingIterator {α : Type} (currentNumLeaves newNumLeaves : Nat) :
    Except (AccumulatorError α) (List Position) :=
  if newNumLeaves ≤ maxAccumulatorLeaves then
    if currentNumLeaves ≤ newNumLeaves then
      .ok (frozenSubtreeSiblings currentNumLeaves (newNumLeaves - currentNumLeaves))
    else .error (.panic ("Number of leaves needs to be increasing: current_num_leaves: " ++
      toString currentNumLeaves ++ ", new_num_leaves: " ++ toString newNumLeaves))
  else .error (.panic ("An accumulator can have at most 2^" ++ toString maxAccumulatorProofDepth ++
    " leaves. Provided num_leaves: " ++ toString newNumLeaves ++ "."))

/-! ## The subtrees the iterator yields -/

/-- A number `0 < r` lies between `2 ^ (r.size - 1)` and `2 ^ r.size`. -/
theorem two_pow_size_sub_one_le {r : Nat} (h0 : 0 < r) :
    2 ^ (r.size - 1) ≤ r ∧ r < 2 ^ (r.size - 1 + 1) := by
  have hpos := Nat.size_pos.mpr h0
  have hlt := Nat.lt_size_self r
  rw [show r.size - 1 + 1 = r.size by omega]
  exact ⟨Nat.lt_size.mp (by omega), hlt⟩

/-- `next_new_leaf_batch` is the largest power of two not above the leaves left. -/
theorem nextNewLeafBatch_eq {r : Nat} (h0 : 0 < r) (hr : r < 2 ^ 64) :
    nextNewLeafBatch r = 2 ^ (r.size - 1) := by
  have hpos := Nat.size_pos.mpr h0
  have hsize : r.size ≤ 64 := Nat.size_le.mpr hr
  rw [nextNewLeafBatch, leadingZeros, maxAccumulatorProofDepth,
    show 63 - (64 - r.size) = r.size - 1 by omega, shiftLeft_one_eq_two_pow (by omega)]

/-- While as many leaves remain, the next subtree is the size of the rightmost
frozen one. -/
theorem nextSubtreeLeaves_of_le {c r : Nat} (h0 : 0 < c) (hc : c < 2 ^ 64)
    (hle : 2 ^ trailingZeros 64 c ≤ r) : nextSubtreeLeaves c r = 2 ^ trailingZeros 64 c := by
  have hz := (testBit_trailingZeros hc (by omega)).1
  unfold nextSubtreeLeaves
  rw [if_pos h0]
  dsimp only
  rw [shiftLeft_one_eq_two_pow hz, if_pos hle]

/-- Otherwise it is the largest that fits. -/
theorem nextSubtreeLeaves_of_lt {c r : Nat} (hr : 0 < r) (hr64 : r < 2 ^ 64) (hc : c < 2 ^ 64)
    (h : c = 0 ∨ r < 2 ^ trailingZeros 64 c) : nextSubtreeLeaves c r = 2 ^ (r.size - 1) := by
  unfold nextSubtreeLeaves
  rcases h with rfl | hlt
  · simp [nextNewLeafBatch_eq hr hr64]
  · by_cases h0 : 0 < c
    · have hz := (testBit_trailingZeros hc (by omega)).1
      rw [if_pos h0]
      dsimp only
      rw [shiftLeft_one_eq_two_pow hz, if_neg (by omega), nextNewLeafBatch_eq hr hr64]
    · rw [if_neg h0, nextNewLeafBatch_eq hr hr64]

/-- The size of every subtree the iterator yields is a power of two that divides
the leaves before it and fits in those left. -/
theorem nextSubtreeLeaves_spec {c r : Nat} (hr : 0 < r) (hcr : c + r ≤ 2 ^ 63) :
    ∃ e, nextSubtreeLeaves c r = 2 ^ e ∧ 2 ^ e ∣ c ∧ 2 ^ e ≤ r := by
  by_cases hmerge : 0 < c ∧ 2 ^ trailingZeros 64 c ≤ r
  · exact ⟨_, nextSubtreeLeaves_of_le hmerge.1 (by omega) hmerge.2,
      two_pow_trailingZeros_dvd c, hmerge.2⟩
  · have hsize := two_pow_size_sub_one_le hr
    have hcase : c = 0 ∨ r < 2 ^ trailingZeros 64 c := by
      by_cases h0 : c = 0
      · exact Or.inl h0
      · exact Or.inr (by omega)
    refine ⟨r.size - 1, nextSubtreeLeaves_of_lt hr (by omega) (by omega) hcase, ?_, hsize.1⟩
    rcases hcase with rfl | hlt
    · exact Nat.dvd_zero _
    · -- the batch is smaller than the rightmost frozen subtree, which divides `c`
      have hle : r.size - 1 ≤ trailingZeros 64 c := by
        have := Nat.pow_lt_pow_iff_right (show 1 < 2 by decide) |>.mp
          (lt_of_le_of_lt hsize.1 hlt)
        omega
      exact (Nat.pow_dvd_pow 2 hle).trans (two_pow_trailingZeros_dvd c)

/-- One step of the iterator: the root of the next `2 ^ e` leaves, the in-order
position halfway between the first and the last of them. -/
theorem frozenSubtreeSiblings_of_pos {c r e : Nat} (hr : 0 < r)
    (he : nextSubtreeLeaves c r = 2 ^ e) (hdvd : 2 ^ e ∣ c) (hfit : c + 2 ^ e ≤ 2 ^ 63) :
    frozenSubtreeSiblings c r =
      fromLevelAndPos e (c / 2 ^ e) :: frozenSubtreeSiblings (c + 2 ^ e) (r - 2 ^ e) := by
  obtain ⟨q, rfl⟩ := hdvd
  have hq : 2 ^ e * q / 2 ^ e = q := Nat.mul_div_cancel_left q (Nat.two_pow_pos e)
  have hb : (q + 1) * 2 ^ e ≤ 2 ^ 63 := by rw [Nat.add_mul, Nat.one_mul, Nat.mul_comm]; exact hfit
  rw [frozenSubtreeSiblings, if_neg (by omega)]
  dsimp only
  rw [he, hq]
  congr 1
  ext
  rw [fromLevelAndPos_val hb, fromInorderIndex, inorderIndex, Nat.pow_succ]
  have hpos := Nat.two_pow_pos e
  simp only
  rw [show 2 ^ e * 2 * q = 2 * (2 ^ e * q) by ring]
  omega

/-- Once fewer leaves remain than the rightmost frozen subtree holds, the
iterator yields the frozen subtrees of the leaves left, largest first, shifted
past the `c` leaves before them. -/
theorem frozenSubtreeSiblings_eq_frozenSubtrees :
    ∀ r c, 2 ^ r.size ∣ c → c + r ≤ 2 ^ 63 →
      frozenSubtreeSiblings c r =
        (frozenSubtrees r).map fun p => fromLevelAndPos p.1 (p.2 + c / 2 ^ p.1) := by
  intro r
  induction r using Nat.strongRecOn with
  | ind r ih =>
    intro c hdvd hcr
    by_cases hr : r = 0
    · subst hr
      rw [frozenSubtreeSiblings, if_pos rfl, frozenSubtrees_zero, List.map_nil]
    · -- the largest batch, `2 ^ p`, then the rest below it
      obtain ⟨p, hp⟩ : ∃ p, r.size - 1 = p := ⟨_, rfl⟩
      have hsize := two_pow_size_sub_one_le (show 0 < r by omega)
      rw [hp, Nat.pow_succ] at hsize
      have hpc : 2 ^ p ∣ c := (Nat.pow_dvd_pow 2 (by omega)).trans hdvd
      have hcase : c = 0 ∨ r < 2 ^ trailingZeros 64 c := by
        by_cases h0 : c = 0
        · exact Or.inl h0
        · have := le_trailingZeros_of_dvd (w := 64) (by omega) h0 hdvd
          exact Or.inr (lt_of_lt_of_le (Nat.lt_size_self r) (Nat.pow_le_pow_right (by decide) this))
      have hnext := nextSubtreeLeaves_of_lt (show 0 < r by omega) (by omega) (by omega) hcase
      rw [hp] at hnext
      have hrest : (r - 2 ^ p).size ≤ p := Nat.size_le.mpr (by omega)
      have hsplit := map_frozenSubtrees_two_pow_add (show r - 2 ^ p < 2 ^ p by omega) hpc
      rw [Nat.add_sub_cancel' hsize.1] at hsplit
      rw [frozenSubtreeSiblings_of_pos (by omega) hnext hpc (by omega),
        ih (r - 2 ^ p) (by omega) (c + 2 ^ p)
          ((Nat.pow_dvd_pow 2 hrest).trans (Nat.dvd_add hpc (Nat.dvd_refl _))) (by omega),
        hsplit]

/-- Every position the iterator yields is a node complete over the `c + r` leaves. -/
theorem mem_frozenSubtreeSiblings :
    ∀ r c, c + r ≤ 2 ^ 63 → ∀ pos ∈ frozenSubtreeSiblings c r,
      ∃ l k, pos = fromLevelAndPos l k ∧ (k + 1) * 2 ^ l ≤ c + r := by
  intro r
  induction r using Nat.strongRecOn with
  | ind r ih =>
    intro c hcr pos hpos
    by_cases hr : r = 0
    · subst hr
      rw [frozenSubtreeSiblings, if_pos rfl] at hpos
      cases hpos
    · obtain ⟨e, he, hdvd, hle⟩ := nextSubtreeLeaves_spec (show 0 < r by omega) hcr
      have hpow := Nat.two_pow_pos e
      rw [frozenSubtreeSiblings_of_pos (by omega) he hdvd (by omega)] at hpos
      rcases List.mem_cons.mp hpos with rfl | hmem
      · refine ⟨e, c / 2 ^ e, rfl, ?_⟩
        rw [Nat.add_mul, Nat.one_mul, Nat.div_mul_cancel hdvd]
        omega
      · obtain ⟨l, k, rfl, hk⟩ := ih (r - 2 ^ e) (by omega) (c + 2 ^ e) (by omega) _ hmem
        exact ⟨l, k, rfl, by omega⟩

/-- The iterator tiles the new leaves with aligned perfect subtrees, left to right. -/
theorem frozenSubtreeSiblings_tiles :
    ∀ r c, c + r ≤ 2 ^ 63 → ∃ s, frozenSubtreeSiblings c r = s.map (fun p => fromLevelAndPos p.1 p.2) ∧
      Tiles s c (c + r) := by
  intro r
  induction r using Nat.strongRecOn with
  | ind r ih =>
    intro c hcr
    by_cases hr : r = 0
    · subst hr
      refine ⟨[], ?_, rfl⟩
      rw [frozenSubtreeSiblings, if_pos rfl, List.map_nil]
    · obtain ⟨e, he, hdvd, hle⟩ := nextSubtreeLeaves_spec (show 0 < r by omega) hcr
      have hpow := Nat.two_pow_pos e
      obtain ⟨s, hs, htiles⟩ := ih (r - 2 ^ e) (by omega) (c + 2 ^ e) (by omega)
      refine ⟨(e, c / 2 ^ e) :: s, ?_, Nat.div_mul_cancel hdvd, ?_⟩
      · rw [frozenSubtreeSiblings_of_pos (by omega) he hdvd (by omega), hs, List.map_cons]
      · rw [Nat.add_mul, Nat.one_mul, Nat.div_mul_cancel hdvd,
          show c + r = c + 2 ^ e + (r - 2 ^ e) by omega]
        exact htiles

end Position

/-- `AccumulatorConsistencyProof`: the roots of the subtrees of the new leaves. -/
structure AccumulatorConsistencyProof (α : Type) where
  subtrees : List α
  deriving DecidableEq, Repr

namespace MerkleAccumulatorView

variable {α : Type} (reader : Position → Except (AccumulatorError α) α)

/-- `MerkleAccumulatorView::get_consistency_proof` of the view of `numLeaves`
leaves: the frozen subtrees to append to `subAccLeaves` leaves, read from
storage. -/
def getConsistencyProof (numLeaves subAccLeaves : Nat) :
    Except (AccumulatorError α) (AccumulatorConsistencyProof α) :=
  if subAccLeaves ≤ numLeaves then do
    let positions ← frozenSubtreeSiblingIterator subAccLeaves numLeaves
    let subtrees ← positions.mapM reader
    .ok ⟨subtrees⟩
  else .error (.versionTooNew numLeaves subAccLeaves)

end MerkleAccumulatorView

/-! ## `append_subtrees` consumes what the iterator yields -/

section AppendSubtrees

open MerkleAccumulatorView

variable {α : Type}

variable (hash : α → α → α)

/-- The subtrees of the second kind complete the frontier. -/
theorem frontier_append_frozenSubtreeSiblings (leaf : Nat → α) {c r : Nat}
    (hdvd : 2 ^ r.size ∣ c) (hcr : c + r ≤ 2 ^ 63) :
    frontier hash leaf c ++ (frozenSubtreeSiblings c r).map (nodeHash hash leaf) =
      frontier hash leaf (c + r) := by
  rw [frozenSubtreeSiblings_eq_frozenSubtrees r c hdvd hcr, MerkleTree.frontier, MerkleTree.frontier,
    frozenSubtrees_add hdvd (Nat.lt_size_self r), List.map_append, List.map_map, List.map_map]
  congr 1
  apply List.map_congr_left
  rintro ⟨l, k⟩ hmem
  have hfit := fits_of_mem_frozenSubtrees hmem
  -- the subtree lies below level `r.size`, so it starts at a multiple of `2 ^ l` past `c`
  have hl : l < r.size :=
    Nat.lt_size.mpr (le_trans (Nat.le_mul_of_pos_left (2 ^ l) (by omega)) hfit)
  obtain ⟨q, hq⟩ : 2 ^ l ∣ c := (Nat.pow_dvd_pow 2 hl.le).trans hdvd
  have hshift : (k + c / 2 ^ l + 1) * 2 ^ l = (k + 1) * 2 ^ l + c := by
    rw [hq, Nat.mul_div_cancel_left q (Nat.two_pow_pos l)]
    ring
  simp only [Function.comp_apply]
  rw [nodeHash_fromLevelAndPos leaf (by omega)]

/-- The outer loop of `append_subtrees` over the iterator's subtrees merges those
of the first kind and stops at the others. -/
theorem appendSubtreesLoop_frozenSubtreeSiblings (leaf : Nat → α) :
    ∀ r c, 0 < c → c + r ≤ 2 ^ 63 →
      ∃ c' r', c' + r' = c + r ∧ 0 < c' ∧ r' < 2 ^ trailingZeros 64 c' ∧
        InMemoryAccumulator.appendSubtreesLoop hash (frontier hash leaf c) c r
            (2 ^ trailingZeros 64 c) ((frozenSubtreeSiblings c r).map (nodeHash hash leaf)) =
          .ok (frontier hash leaf c', c', r',
            (frozenSubtreeSiblings c' r').map (nodeHash hash leaf)) := by
  intro r
  induction r using Nat.strongRecOn with
  | ind r ih =>
    intro c h0 hcr
    by_cases hle : 2 ^ trailingZeros 64 c ≤ r
    · -- a subtree as large as the rightmost frozen one: one round of the loop
      have hpos := Nat.two_pow_pos (trailingZeros 64 c)
      have hdvd := two_pow_trailingZeros_dvd (w := 64) c
      have hb : (c / 2 ^ trailingZeros 64 c + 1) * 2 ^ trailingZeros 64 c ≤ 2 ^ 63 := by
        rw [Nat.add_mul, Nat.one_mul, Nat.div_mul_cancel hdvd]
        omega
      rw [frozenSubtreeSiblings_of_pos (by omega) (nextSubtreeLeaves_of_le h0 (by omega) hle)
          hdvd (by omega), List.map_cons, nodeHash_fromLevelAndPos leaf hb,
        InMemoryAccumulator.appendSubtreesLoop_step leaf _ h0 hle (by omega)]
      obtain ⟨c', r', hsum, hc', hr', hloop⟩ :=
        ih (r - 2 ^ trailingZeros 64 c) (by omega) (c + 2 ^ trailingZeros 64 c) (by omega)
          (by omega)
      exact ⟨c', r', by omega, hc', hr', hloop⟩
    · exact ⟨c, r, rfl, h0, by omega, InMemoryAccumulator.appendSubtreesLoop_stop _ (by omega) _⟩

/-- `append_subtrees` of the iterator's subtrees over `m ≤ n` leaves gives the
accumulator of `n` leaves. -/
theorem appendSubtrees_ofTree (placeholder : α) (leaf : Nat → α) {m n : Nat} (hmn : m ≤ n)
    (hn : n ≤ 2 ^ 63) :
    (InMemoryAccumulator.ofTree hash placeholder leaf m).appendSubtrees hash placeholder
        ((frozenSubtreeSiblings m (n - m)).map (nodeHash hash leaf)) (n - m) =
      .ok (InMemoryAccumulator.ofTree hash placeholder leaf n) := by
  rw [InMemoryAccumulator.appendSubtrees, InMemoryAccumulator.frozenSubtreeRoots_ofTree,
    InMemoryAccumulator.numLeaves_ofTree, maxAccumulatorLeaves_eq,
    if_neg (by omega), if_pos (by omega)]
  by_cases hm : m = 0
  · -- an empty accumulator takes the subtrees as its frontier
    subst hm
    have hfr := frontier_append_frozenSubtreeSiblings hash leaf (Nat.dvd_zero (2 ^ n.size))
      (by omega)
    rw [show frontier hash leaf 0 = [] by simp [MerkleTree.frontier], List.nil_append, Nat.zero_add] at hfr
    rw [if_pos rfl, Nat.sub_zero, hfr, InMemoryAccumulator.new_frontier leaf (by omega)]
  · obtain ⟨c', r', hsum, hc', hr', hloop⟩ :=
      appendSubtreesLoop_frozenSubtreeSiblings hash leaf (n - m) m (by omega) (by omega)
    have hdvd : 2 ^ r'.size ∣ c' :=
      (Nat.pow_dvd_pow 2 (Nat.size_le.mpr hr')).trans (two_pow_trailingZeros_dvd c')
    have hz := (testBit_trailingZeros (show m < 2 ^ 64 by omega) hm).1
    rw [if_neg hm, shiftLeft_one_eq_two_pow hz, hloop]
    simp only [bind, Except.bind]
    rw [frontier_append_frozenSubtreeSiblings hash leaf hdvd (by omega),
      show c' + r' = n by omega, InMemoryAccumulator.new_frontier leaf (by omega)]

/-- Over a reader holding the nodes complete over `n` leaves,
`get_consistency_proof` returns the roots of the iterator's subtrees. -/
theorem getConsistencyProof_eq {reader : Position → Except (AccumulatorError α) α}
    {leaf : Nat → α} {m n : Nat} (hS : Stored hash reader leaf n) (hmn : m ≤ n)
    (hn : n ≤ maxAccumulatorLeaves) :
    getConsistencyProof reader n m =
      .ok ⟨(frozenSubtreeSiblings m (n - m)).map (nodeHash hash leaf)⟩ := by
  have hread : ∀ pos ∈ frozenSubtreeSiblings m (n - m), reader pos = .ok (nodeHash hash leaf pos) := by
    intro pos hpos
    obtain ⟨l, k, rfl, hk⟩ := mem_frozenSubtreeSiblings (n - m) m (by rw [maxAccumulatorLeaves_eq] at hn; omega) pos hpos
    rw [hS l k (by omega), nodeHash_fromLevelAndPos leaf (by rw [maxAccumulatorLeaves_eq] at hn; omega)]
  rw [getConsistencyProof, if_pos hmn, frozenSubtreeSiblingIterator,
    if_pos hn, if_pos hmn]
  simp only [bind, Except.bind]
  rw [mapM_eq_ok hread]

end AppendSubtrees

/-- The two fields of a `LedgerInfo` the accumulator summary reads, both from
its `commit_info`: `version()` and `transaction_accumulator_hash()`. -/
structure LedgerInfo (α : Type) where
  version : Nat
  transactionAccumulatorHash : α
  deriving DecidableEq, Repr

/-- `TransactionAccumulatorSummary`: the in-memory accumulator a light client
keeps. -/
structure TransactionAccumulatorSummary (α : Type) where
  accumulator : InMemoryAccumulator α
  deriving DecidableEq, Repr

namespace TransactionAccumulatorSummary

variable {α : Type} [DecidableEq α] (hash : α → α → α) (placeholder : α)

/-- `TransactionAccumulatorSummary::new`: never from an empty accumulator. -/
def new (accumulator : InMemoryAccumulator α) :
    Except (AccumulatorError α) (TransactionAccumulatorSummary α) :=
  if accumulator.numLeaves = 0 then .error .emptyAccumulator else .ok ⟨accumulator⟩

/-- `TransactionAccumulatorSummary::version`. -/
def version (summary : TransactionAccumulatorSummary α) : Nat := summary.accumulator.version

/-- `TransactionAccumulatorSummary::root_hash`. -/
def rootHash (summary : TransactionAccumulatorSummary α) : α := summary.accumulator.rootHash

/-- `TransactionAccumulatorSummary::verify_consistency`: same version and same
root hash as the ledger info. -/
def verifyConsistency (summary : TransactionAccumulatorSummary α) (ledgerInfo : LedgerInfo α) :
    Except (AccumulatorError α) Unit :=
  if ledgerInfo.version = summary.version then
    if ledgerInfo.transactionAccumulatorHash = summary.rootHash then .ok ()
    else .error (.rootHashInconsistent ledgerInfo.transactionAccumulatorHash summary.rootHash)
  else .error (.versionMismatch ledgerInfo.version summary.version)

/-- `TransactionAccumulatorSummary::try_extend_with_proof`. -/
def tryExtendWithProof (summary : TransactionAccumulatorSummary α)
    (consistencyProof : AccumulatorConsistencyProof α) (targetLi : LedgerInfo α) :
    Except (AccumulatorError α) (TransactionAccumulatorSummary α) :=
  if summary.accumulator.version ≤ targetLi.version then do
    let numNewTxns := targetLi.version - summary.accumulator.version
    let accumulator ← summary.accumulator.appendSubtrees hash placeholder
      consistencyProof.subtrees numNewTxns
    let newAccumulator : TransactionAccumulatorSummary α := ⟨accumulator⟩
    match newAccumulator.verifyConsistency targetLi with
    | .ok () => .ok newAccumulator
    | .error e => .error (.inconsistentAfterProof e)
  else .error (.targetVersionOlder targetLi.version summary.accumulator.version)

end TransactionAccumulatorSummary

/-! ## Extending a trusted accumulator -/

section Ratchet

open MerkleAccumulatorView

variable {α : Type} [DecidableEq α]

namespace TransactionAccumulatorSummary

variable (hash : α → α → α) (placeholder : α)

/-- A light client that trusts the accumulator of `m ≥ 1` leaves accepts the
honest consistency proof to a ledger info of `n` leaves and moves to the
accumulator of `n` leaves. -/
theorem tryExtendWithProof_ofTree (leaf : Nat → α) {m n : Nat} (hm : 0 < m) (hmn : m ≤ n)
    (hn : n ≤ 2 ^ 63) :
    tryExtendWithProof hash placeholder ⟨InMemoryAccumulator.ofTree hash placeholder leaf m⟩
        ⟨(frozenSubtreeSiblings m (n - m)).map (nodeHash hash leaf)⟩
        ⟨n - 1, treeRoot hash placeholder leaf n⟩ =
      .ok ⟨InMemoryAccumulator.ofTree hash placeholder leaf n⟩ := by
  have hcons : verifyConsistency ⟨InMemoryAccumulator.ofTree hash placeholder leaf n⟩
      ⟨n - 1, treeRoot hash placeholder leaf n⟩ = .ok () := by
    rw [verifyConsistency, version, rootHash, InMemoryAccumulator.version_ofTree leaf (by omega)]
    dsimp only
    rw [InMemoryAccumulator.rootHash_ofTree, if_pos rfl, if_pos rfl]
  rw [tryExtendWithProof]
  dsimp only
  -- `target_li.version() - self.0.version()` is the number of new leaves
  rw [InMemoryAccumulator.version_ofTree leaf hm, if_pos (by omega),
    show n - 1 - (m - 1) = n - m by omega, appendSubtrees_ofTree hash placeholder leaf hmn hn]
  simp only [bind, Except.bind]
  rw [hcons]

end TransactionAccumulatorSummary

variable (hash : α → α → α) (placeholder : α) in
theorem getConsistencyProof_appendSubtrees {s : MockHashStore α} {F : List α}
    (hs : StoresFrozen hash s (leafOf placeholder F) F.length)
    (hF : F.length ≤ maxAccumulatorLeaves) :
    (∀ m, m ≤ F.length → ∃ proof acc accF,
      getConsistencyProof s.get F.length m = .ok proof ∧
      InMemoryAccumulator.fromLeaves hash placeholder (F.take m) = .ok acc ∧
      InMemoryAccumulator.fromLeaves hash placeholder F = .ok accF ∧
      acc.appendSubtrees hash placeholder proof.subtrees (F.length - m) = .ok accF) ∧
    ∀ m, 0 < m → m ≤ F.length → ∃ proof acc accF rootHash,
      getConsistencyProof s.get F.length m = .ok proof ∧
      InMemoryAccumulator.fromLeaves hash placeholder (F.take m) = .ok acc ∧
      InMemoryAccumulator.fromLeaves hash placeholder F = .ok accF ∧
      TransactionAccumulatorSummary.new acc = .ok ⟨acc⟩ ∧
      TransactionAccumulatorSummary.version ⟨acc⟩ = m - 1 ∧
      getRootHash hash placeholder s.get F.length = .ok rootHash ∧
      TransactionAccumulatorSummary.tryExtendWithProof hash placeholder ⟨acc⟩ proof
        ⟨F.length - 1, rootHash⟩ = .ok ⟨accF⟩ := by
  have hmax := hF
  rw [maxAccumulatorLeaves_eq] at hF
  have hS := stored_of_storesFrozen hs hF
  -- the proof from `m` leaves and the accumulator of the first `m` leaves
  have hpieces : ∀ m, m ≤ F.length →
      getConsistencyProof s.get F.length m =
        .ok ⟨(frozenSubtreeSiblings m (F.length - m)).map (nodeHash hash (leafOf placeholder F))⟩ ∧
      InMemoryAccumulator.fromLeaves hash placeholder (F.take m) =
        .ok (InMemoryAccumulator.ofTree hash placeholder (leafOf placeholder F) m) := fun m hm =>
    ⟨getConsistencyProof_eq hash hS hm hmax,
      InMemoryAccumulator.fromLeaves_take_eq_ofTree F hm (by omega)⟩
  have hwhole := @InMemoryAccumulator.fromLeaves_eq_ofTree α hash placeholder F (by omega)
  refine ⟨fun m hm => ?_, fun m h0 hm => ?_⟩
  · obtain ⟨hproof, hacc⟩ := hpieces m hm
    exact ⟨_, _, _, hproof, hacc, hwhole, appendSubtrees_ofTree hash placeholder _ hm hF⟩
  · obtain ⟨hproof, hacc⟩ := hpieces m hm
    refine ⟨_, _, _, _, hproof, hacc, hwhole, ?_, InMemoryAccumulator.version_ofTree _ h0,
      getRootHash_eq hS (by omega) hF,
      TransactionAccumulatorSummary.tryExtendWithProof_ofTree hash placeholder _ h0 hm hF⟩
    rw [TransactionAccumulatorSummary.new, InMemoryAccumulator.numLeaves_ofTree,
      if_neg (show m ≠ 0 by omega)]

theorem getConsistencyProof_appendSubtrees_five :
    StoresFrozen Nat.add ((MockHashStore.empty : MockHashStore Nat).putMany
        (writesFrom Nat.add (leafOf 0 [1, 2, 3, 4, 5]) 0 5)) (leafOf 0 [1, 2, 3, 4, 5])
        [1, 2, 3, 4, 5].length ∧
      [1, 2, 3, 4, 5].length ≤ maxAccumulatorLeaves ∧
    (∀ m, m ≤ [1, 2, 3, 4, 5].length → ∃ proof acc accF,
      getConsistencyProof ((MockHashStore.empty : MockHashStore Nat).putMany
        (writesFrom Nat.add (leafOf 0 [1, 2, 3, 4, 5]) 0 5)).get [1, 2, 3, 4, 5].length m =
          .ok proof ∧
      InMemoryAccumulator.fromLeaves Nat.add 0 ([1, 2, 3, 4, 5].take m) = .ok acc ∧
      InMemoryAccumulator.fromLeaves Nat.add 0 [1, 2, 3, 4, 5] = .ok accF ∧
      acc.appendSubtrees Nat.add 0 proof.subtrees ([1, 2, 3, 4, 5].length - m) = .ok accF) ∧
    ∀ m, 0 < m → m ≤ [1, 2, 3, 4, 5].length → ∃ proof acc accF rootHash,
      getConsistencyProof ((MockHashStore.empty : MockHashStore Nat).putMany
        (writesFrom Nat.add (leafOf 0 [1, 2, 3, 4, 5]) 0 5)).get [1, 2, 3, 4, 5].length m =
          .ok proof ∧
      InMemoryAccumulator.fromLeaves Nat.add 0 ([1, 2, 3, 4, 5].take m) = .ok acc ∧
      InMemoryAccumulator.fromLeaves Nat.add 0 [1, 2, 3, 4, 5] = .ok accF ∧
      TransactionAccumulatorSummary.new acc = .ok ⟨acc⟩ ∧
      TransactionAccumulatorSummary.version ⟨acc⟩ = m - 1 ∧
      getRootHash Nat.add 0 ((MockHashStore.empty : MockHashStore Nat).putMany
        (writesFrom Nat.add (leafOf 0 [1, 2, 3, 4, 5]) 0 5)).get [1, 2, 3, 4, 5].length =
          .ok rootHash ∧
      TransactionAccumulatorSummary.tryExtendWithProof Nat.add 0 ⟨acc⟩ proof
        ⟨[1, 2, 3, 4, 5].length - 1, rootHash⟩ = .ok ⟨accF⟩ := by
  have hs : StoresFrozen Nat.add ((MockHashStore.empty : MockHashStore Nat).putMany
      (writesFrom Nat.add (leafOf 0 [1, 2, 3, 4, 5]) 0 5)) (leafOf 0 [1, 2, 3, 4, 5]) (0 + 5) :=
    storesFrozen_putMany (storesFrozen_empty _) (by decide)
  exact ⟨hs, by decide, getConsistencyProof_appendSubtrees Nat.add 0 hs (by decide)⟩

end Ratchet

/-- Both iterators over frozen subtrees are exact. `FrozenSubTreeIterator::new(n)`
yields one position per set bit of `n`, those of the recursive decomposition of
the tests; `FrozenSubtreeSiblingIterator::new(m, n)` yields aligned perfect
subtrees that tile the leaves `m, …, n - 1` left to right, each freezable over
`n` leaves, with the sum of its first and last leaf indices within a `u64`. -/
theorem frozen_subtree_iterators_partition {α : Type} :
    (∀ n, n ≤ 2 ^ 63 →
      (FrozenSubTreeIterator.new n).toList.length = countOnes 64 n ∧
        (FrozenSubTreeIterator.new n).toList = slowGetFrozenSubtreeRoots n) ∧
    ∀ m n, m ≤ n → n ≤ 2 ^ 63 →
      ∃ s, (frozenSubtreeSiblingIterator m n : Except (AccumulatorError α) _) =
          .ok (s.map fun p => fromLevelAndPos p.1 p.2) ∧
        Tiles s m n ∧
        ∀ p ∈ s, (fromLevelAndPos p.1 p.2).isFreezable (n - 1) = true ∧
          p.2 * 2 ^ p.1 + ((p.2 + 1) * 2 ^ p.1 - 1) < 2 ^ 64 := by
  refine ⟨fun n hn => ⟨FrozenSubTreeIterator.length_toList_new hn, ?_⟩, fun m n hmn hn => ?_⟩
  · rw [FrozenSubTreeIterator.toList_new_eq_frozenSubtrees hn, slowGetFrozenSubtreeRoots_eq hn]
  · obtain ⟨s, hs, htiles⟩ := frozenSubtreeSiblings_tiles (n - m) m (by omega)
    rw [Nat.add_sub_cancel' hmn] at htiles
    refine ⟨s, ?_, htiles, ?_⟩
    · rw [frozenSubtreeSiblingIterator, maxAccumulatorLeaves_eq, if_pos hn, if_pos hmn, hs]
    · rintro ⟨l, k⟩ hp
      obtain ⟨-, hend⟩ := (Tiles.bounds htiles).2 _ hp
      dsimp only at hend ⊢
      have hpos : 0 < (k + 1) * 2 ^ l := Nat.mul_pos (by omega) (Nat.two_pow_pos l)
      have hstep : k * 2 ^ l ≤ (k + 1) * 2 ^ l := Nat.mul_le_mul_right _ (Nat.le_succ k)
      refine ⟨?_, by omega⟩
      rw [isFreezable_fromLevelAndPos (by omega) (by omega), decide_eq_true_eq]
      omega

theorem frozen_subtree_iterators_partition_seven :
    (7 : Nat) ≤ 2 ^ 63 ∧ (FrozenSubTreeIterator.new 7).toList.length = countOnes 64 7 :=
  ⟨by decide, ((frozen_subtree_iterators_partition (α := Unit)).1 7 (by decide)).1⟩

end AptosCore
