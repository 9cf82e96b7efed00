import AptosCore.Accumulator.Position
import AptosCore.Lib.Frontier

/-!
# The in-memory accumulator

`InMemoryAccumulator` (types/src/proof/accumulator/mod.rs) keeps, of the whole
accumulator, only the roots of its frozen subtrees, the number of leaves and
the root hash. The model takes the hash of an internal node
(`MerkleTreeInternalNode::<H>::new(left, right).hash()`) and
`ACCUMULATOR_PLACEHOLDER_HASH` as parameters; a vector is a list in the same
order, `push` appending at the end.

The second half proves that the model computes the tree of `MerkleTree`: the
roots are the frontier of the leaves (`appendOne_frontier`), the root hash is
the padded tree's root (`computeRootHash_frontier`), and so every accumulator
built from leaves is `ofTree` of them (`fromLeaves_eq_ofTree`).
-/

namespace AptosCore

open Word MerkleTree

/-- How an accumulator operation or a proof check ends without a result. Each
constructor is one `ensure!`, `ok_or_else` or reader error of the source, with
the values its message prints; `panic` is a failed `assert!` or `expect`, or an
arithmetic overflow. -/
inductive AccumulatorError (α : Type) where
  /-- `InMemoryAccumulator::new`: "The number of frozen subtrees does not match
  the number of leaves." -/
  | frozenSubtreesMismatch (len numLeaves : Nat)
  /-- `append_subtrees`: "Too many new leaves." -/
  | tooManyNewLeaves (numLeaves numNewLeaves : Nat)
  /-- `append_subtrees`: "Too few subtrees." -/
  | tooFewSubtrees
  /-- `HashReader::get` of the mock store: "Position {:?} absent." -/
  | absent (position : Position)
  /-- `get_proof`: "invalid leaf_index {}, num_leaves {}" -/
  | invalidLeafIndex (leafIndex numLeaves : Nat)
  /-- `get_consistency_proof`: "Can't get accumulator consistency proof for a
  version newer than the local version." -/
  | versionTooNew (numLeaves subAccLeaves : Nat)
  /-- `get_range_proof_positions`: "num_leaves is not zero while first_leaf_index is None." -/
  | numLeavesNotZero
  /-- `get_range_proof_positions`: "num_leaves is zero while first_leaf_index is not None." -/
  | numLeavesZero
  /-- `get_range_proof_positions`: "Requesting too many leaves." -/
  | tooManyLeaves
  /-- `get_range_proof_positions`: "Invalid last_leaf_index: {}, num_leaves: {}" -/
  | invalidLastLeafIndex (lastLeafIndex numLeaves : Nat)
  /-- `AccumulatorProof::verify`: "Accumulator proof has more than {} ({}) siblings." -/
  | tooManySiblings (len : Nat)
  /-- `verify`: "Root hashes do not match. Actual root hash: {:x}. Expected root hash: {:x}." -/
  | rootHashMismatch (actual expected : α)
  /-- `AccumulatorRangeProof::verify`: "first_leaf_index indicated empty list
  while leaf_hashes is not empty." -/
  | leafHashesNotEmpty
  /-- `AccumulatorRangeProof::verify`: "No siblings are needed." -/
  | siblingsNotNeeded
  /-- `AccumulatorRangeProof::verify`: "Proof has more than {} ({}) left siblings." -/
  | tooManyLeftSiblings (len : Nat)
  /-- `AccumulatorRangeProof::verify`: "Proof has more than {} ({}) right siblings." -/
  | tooManyRightSiblings (len : Nat)
  /-- `AccumulatorRangeProof::verify`: "leaf_hashes is empty while
  first_leaf_index indicated non-empty list." -/
  | leafHashesEmpty
  /-- `AccumulatorRangeProof::verify`: "First child is a right child, but
  missing sibling on the left." -/
  | missingLeftSibling
  /-- `AccumulatorRangeProof::verify`: "Last child is a left child, but missing
  sibling on the right." -/
  | missingRightSibling
  /-- `TransactionAccumulatorSummary::new`: "empty accumulator: we can't verify
  consistency proofs from an empty accumulator" -/
  | emptyAccumulator
  /-- `try_extend_with_proof`: "target ledger info version ({}) must be newer
  than our current accumulator summary version ({})" -/
  | targetVersionOlder (targetVersion version : Nat)
  /-- `verify_consistency`: "ledger info and accumulator must be at the same version" -/
  | versionMismatch (ledgerInfoVersion version : Nat)
  /-- `verify_consistency`: "ledger info root hash and accumulator root hash must match" -/
  | rootHashInconsistent (ledgerInfoRootHash rootHash : α)
  /-- `try_extend_with_proof`'s context: "accumulator is not consistent with the
  target ledger info after applying consistency proof" -/
  | inconsistentAfterProof (cause : AccumulatorError α)
  | panic (msg : String)
  deriving DecidableEq, Repr

/-- `InMemoryAccumulator<H>`, without its phantom hasher: the equality the
source implements compares exactly these three fields. -/
structure InMemoryAccumulator (α : Type) where
  frozenSubtreeRoots : List α
  numLeaves : Nat
  rootHash : α
  deriving DecidableEq, Repr

section Model

variable {α : Type} (hash : α → α → α) (placeholder : α)

/-- `Result::expect`: an error becomes a panic with the given message. -/
def expectOk {β : Type} (r : Except (AccumulatorError α) β) (msg : String) :
    Except (AccumulatorError α) β :=
  match r with
  | .ok b => .ok b
  | .error _ => .error (.panic msg)

/-- `Vec::pop` followed by `expect(msg)`: the vector without its last element,
and that element. -/
def popExpect {β : Type} (v : List β) (msg : String) : Except (AccumulatorError α) (List β × β) :=
  match v.getLast? with
  | some x => .ok (v.dropLast, x)
  | none => .error (.panic msg)

@[simp] theorem popExpect_concat {β : Type} (v : List β) (x : β) (msg : String) :
    (popExpect (v ++ [x]) msg : Except (AccumulatorError α) _) = .ok (v, x) := by
  simp [popExpect]

theorem length_lt_of_popExpect {β : Type} {v rest : List β} {x : β} {msg : String}
    (h : (popExpect v msg : Except (AccumulatorError α) _) = .ok (rest, x)) :
    rest.length < v.length := by
  unfold popExpect at h
  split at h
  case h_1 y hlast =>
    cases h
    have hne : v ≠ [] := by
      rintro rfl
      simp at hlast
    have := List.length_pos_iff.mpr hne
    simp only [List.length_dropLast]
    omega
  case h_2 => cases h

namespace InMemoryAccumulator

/-- The `while bitmap > 0` loop of `compute_root_hash`: below the lowest frozen
subtree it climbs the right edge, taking a frozen root on the left for a set
bit and the placeholder on the right for a clear one. -/
def computeRootHashLoop (bitmap : Nat) (currentHash : α) (frozenSubtreeIter : List α) :
    Except (AccumulatorError α) α :=
  if 0 < bitmap then
    if bitmap &&& 1 ≠ 0 then
      match frozenSubtreeIter with
      | [] => .error (.panic "This frozen subtree should exist.")
      | root :: rest => computeRootHashLoop (bitmap >>> 1) (hash root currentHash) rest
    else computeRootHashLoop (bitmap >>> 1) (hash currentHash placeholder) frozenSubtreeIter
  else .ok currentHash
termination_by bitmap
decreasing_by all_goals (rw [Nat.shiftRight_one]; omega)

/-- `InMemoryAccumulator::compute_root_hash`. -/
def computeRootHash (frozenSubtreeRoots : List α) (numLeaves : Nat) :
    Except (AccumulatorError α) α :=
  match frozenSubtreeRoots with
  | [] => .ok placeholder
  | [root] => .ok root
  | _ => computeRootHashLoop hash placeholder (numLeaves >>> trailingZeros 64 numLeaves)
      placeholder frozenSubtreeRoots.reverse

/-- `InMemoryAccumulator::new`. -/
def new (frozenSubtreeRoots : List α) (numLeaves : Nat) :
    Except (AccumulatorError α) (InMemoryAccumulator α) :=
  if frozenSubtreeRoots.length = countOnes 64 numLeaves then do
    let rootHash ← computeRootHash hash placeholder frozenSubtreeRoots numLeaves
    pure ⟨frozenSubtreeRoots, numLeaves, rootHash⟩
  else .error (.frozenSubtreesMismatch frozenSubtreeRoots.length numLeaves)

/-- `InMemoryAccumulator::new_empty`. -/
def newEmpty : InMemoryAccumulator α := ⟨[], 0, placeholder⟩

/-- `Default::default`: `Self::new(vec![], 0).expect(..)`. -/
def default : Except (AccumulatorError α) (InMemoryAccumulator α) :=
  expectOk (new hash placeholder [] 0) "Constructing empty accumulator should work."

/-- The carry loop of `append_one`: `n` times, pop the two rightmost roots and
push their parent. -/
def appendOneCarry : Nat → List α → Except (AccumulatorError α) (List α)
  | 0, roots => .ok roots
  | n + 1, roots => do
    let (roots, rightHash) ← @popExpect α _ roots "Invalid accumulator."
    let (roots, leftHash) ← @popExpect α _ roots "Invalid accumulator."
    appendOneCarry n (roots ++ [hash leftHash rightHash])

/-- `InMemoryAccumulator::append_one`; the carry runs `(!num_existing_leaves).trailing_zeros()` times. -/
def appendOne (frozenSubtreeRoots : List α) (numExistingLeaves : Nat) (leaf : α) :
    Except (AccumulatorError α) (List α) :=
  appendOneCarry hash (trailingZeros 64 (complement 64 numExistingLeaves))
    (frozenSubtreeRoots ++ [leaf])

/-- The `for leaf in leaves` loop of `append`. -/
def appendLeaves (frozenSubtreeRoots : List α) (numLeaves : Nat) :
    List α → Except (AccumulatorError α) (List α × Nat)
  | [] => .ok (frozenSubtreeRoots, numLeaves)
  | leaf :: leaves => do
    let roots ← appendOne hash frozenSubtreeRoots numLeaves leaf
    appendLeaves roots (numLeaves + 1) leaves

/-- `InMemoryAccumulator::append`. -/
def append (acc : InMemoryAccumulator α) (leaves : List α) :
    Except (AccumulatorError α) (InMemoryAccumulator α) := do
  let (roots, numLeaves) ← appendLeaves hash acc.frozenSubtreeRoots acc.numLeaves leaves
  expectOk (new hash placeholder roots numLeaves)
    "Appending leaves to a valid accumulator should create another valid accumulator."

/-- `InMemoryAccumulator::from_leaves`: `Self::default().append(leaves)`. -/
def fromLeaves (leaves : List α) : Except (AccumulatorError α) (InMemoryAccumulator α) := do
  let acc ← default hash placeholder
  append hash placeholder acc leaves

set_option linter.unusedVariables false in
/-- The inner `while current_num_leaves & mask != 0` loop of `append_subtrees`:
merge the new subtree with the frozen roots of its size on its left. -/
def mergeMask (currentNumLeaves : Nat) (roots : List α) (mask : Nat) (currentHash : α) :
    Except (AccumulatorError α) (List α × Nat × α) :=
  if currentNumLeaves &&& mask ≠ 0 then
    match h : @popExpect α _ roots "This frozen subtree must exist." with
    | .error e => .error e
    | .ok (rest, leftHash) =>
      mergeMask currentNumLeaves rest (shiftLeft 64 mask 1) (hash leftHash currentHash)
  else .ok (roots, mask, currentHash)
termination_by roots.length
decreasing_by exact length_lt_of_popExpect h

/-- The outer `while remaining_new_leaves >= rightmost_frozen_subtree_size` loop
of `append_subtrees`, one subtree of `subtree_iter` a round. It returns the
roots, the leaf count, the leaves still to add and the subtrees not consumed. -/
def appendSubtreesLoop (roots : List α)
    (currentNumLeaves remainingNewLeaves rightmostFrozenSubtreeSize : Nat) :
    List α → Except (AccumulatorError α) (List α × Nat × Nat × List α)
  | [] =>
    if rightmostFrozenSubtreeSize ≤ remainingNewLeaves then .error .tooFewSubtrees
    else .ok (roots, currentNumLeaves, remainingNewLeaves, [])
  | currentHash :: rest =>
    if rightmostFrozenSubtreeSize ≤ remainingNewLeaves then do
      let (roots, mask, currentHash) ←
        mergeMask hash currentNumLeaves roots rightmostFrozenSubtreeSize currentHash
      appendSubtreesLoop (roots ++ [currentHash])
        (currentNumLeaves + rightmostFrozenSubtreeSize)
        (remainingNewLeaves - rightmostFrozenSubtreeSize) mask rest
    else .ok (roots, currentNumLeaves, remainingNewLeaves, currentHash :: rest)

/-- `InMemoryAccumulator::append_subtrees`. -/
def appendSubtrees (acc : InMemoryAccumulator α) (subtrees : List α) (numNewLeaves : Nat) :
    Except (AccumulatorError α) (InMemoryAccumulator α) :=
  -- `MAX_ACCUMULATOR_LEAVES - self.num_leaves` overflows past the maximum
  if maxAccumulatorLeaves < acc.numLeaves then .error (.panic "attempt to subtract with overflow")
  else if numNewLeaves ≤ maxAccumulatorLeaves - acc.numLeaves then
    if acc.numLeaves = 0 then new hash placeholder subtrees numNewLeaves
    else do
      let (roots, currentNumLeaves, remainingNewLeaves, subtreeIter) ←
        appendSubtreesLoop hash acc.frozenSubtreeRoots acc.numLeaves numNewLeaves
          (shiftLeft 64 1 (trailingZeros 64 acc.numLeaves)) subtrees
      new hash placeholder (roots ++ subtreeIter) (currentNumLeaves + remainingNewLeaves)
  else .error (.tooManyNewLeaves acc.numLeaves numNewLeaves)

/-- `InMemoryAccumulator::version`. -/
def version (acc : InMemoryAccumulator α) : Nat :=
  if acc.numLeaves = 0 then 0 else acc.numLeaves - 1

end InMemoryAccumulator

end Model

/-! ## The model computes the frontier and the padded root -/

section Refinement

variable {α : Type} {hash : α → α → α} {placeholder : α}

variable (hash placeholder) in
/-- The accumulator over the first `n` leaves of `leaf`: their frontier, `n`, and
the root of the padded tree. -/
def InMemoryAccumulator.ofTree (leaf : Nat → α) (n : Nat) : InMemoryAccumulator α :=
  ⟨frontier hash leaf n, n, treeRoot hash placeholder leaf n⟩

@[simp] theorem InMemoryAccumulator.frozenSubtreeRoots_ofTree (leaf : Nat → α) (n : Nat) :
    (ofTree hash placeholder leaf n).frozenSubtreeRoots = frontier hash leaf n := rfl

@[simp] theorem InMemoryAccumulator.numLeaves_ofTree (leaf : Nat → α) (n : Nat) :
    (ofTree hash placeholder leaf n).numLeaves = n := rfl

@[simp] theorem InMemoryAccumulator.rootHash_ofTree (leaf : Nat → α) (n : Nat) :
    (ofTree hash placeholder leaf n).rootHash = treeRoot hash placeholder leaf n := rfl

variable (placeholder) in
/-- The leaves of a list as a function of their index, `placeholder` past its end. -/
def leafOf (leaves : List α) (i : Nat) : α := leaves.getD i placeholder

theorem leafOf_append_of_lt {F L : List α} {i : Nat} (hi : i < F.length) :
    leafOf placeholder (F ++ L) i = leafOf placeholder F i := by
  simp [leafOf, List.getElem?_append_left hi]

theorem leafOf_append_add {F B : List α} {i : Nat} (hi : i < B.length) :
    leafOf placeholder (F ++ B) (F.length + i) = B[i] := by
  simp [leafOf, hi]

theorem leafOf_append_length (F : List α) (x : α) (L : List α) :
    leafOf placeholder (F ++ x :: L) F.length = x := by
  simp [leafOf]

theorem leafOf_take {F : List α} {m i : Nat} (hi : i < m) :
    leafOf placeholder (F.take m) i = leafOf placeholder F i := by
  simp [leafOf, List.getElem?_take_of_lt hi]

namespace InMemoryAccumulator

/-- The accumulator of `n` leaves only reads those leaves. -/
theorem ofTree_congr {leaf leaf' : Nat → α} {n : Nat} (h : ∀ i, i < n → leaf i = leaf' i) :
    ofTree hash placeholder leaf n = ofTree hash placeholder leaf' n := by
  rw [ofTree, ofTree, frontier_congr h, treeRoot_congr h]

/-- The carry of `append_one`, from the `j`-th merge on: the pending root is the
perfect subtree on level `j` that ends with leaf `c`. -/
theorem appendOneCarry_frontier (leaf : Nat → α) {c j : Nat} (hj : j ≤ trailingOnes c) :
    appendOneCarry hash (trailingOnes c - j)
        (frontier hash leaf (c + 1 - 2 ^ j) ++ [perfectRoot hash leaf j (c / 2 ^ j)]) =
      .ok (frontier hash leaf (c + 1)) := by
  induction hd : trailingOnes c - j generalizing j with
  | zero =>
    obtain rfl : j = trailingOnes c := by omega
    rw [appendOneCarry, frontier_succ]
  | succ d ih =>
    have hlt : j < trailingOnes c := by omega
    -- the two rightmost roots are the siblings `2q` and `2q + 1` on level `j`
    rw [frontier_carry leaf hlt]
    simp only [appendOneCarry, popExpect_concat, bind, Except.bind, perfectRoot_carry leaf hlt]
    exact ih (by omega) (by omega)

/-- `append_one` turns the frontier of `c` leaves into that of `c + 1`. -/
theorem appendOne_frontier (leaf : Nat → α) {c : Nat} (hc : c + 1 < 2 ^ 64) :
    appendOne hash (frontier hash leaf c) c (leaf c) = .ok (frontier hash leaf (c + 1)) := by
  have ht : trailingZeros 64 (complement 64 c) = trailingOnes c :=
    trailingZeros_complement (by omega) (trailingOnes_lt (by omega))
  have h0 := @appendOneCarry_frontier α hash leaf c 0 (Nat.zero_le _)
  simp only [Nat.sub_zero, Nat.pow_zero, Nat.add_sub_cancel, Nat.div_one] at h0
  rw [appendOne, ht]
  exact h0

/-- The leaf loop of `append` appends the leaves one by one to the frontier. -/
theorem appendLeaves_frontier (F L : List α) (hlen : (F ++ L).length < 2 ^ 64) :
    appendLeaves hash (frontier hash (leafOf placeholder (F ++ L)) F.length) F.length L =
      .ok (frontier hash (leafOf placeholder (F ++ L)) (F ++ L).length, (F ++ L).length) := by
  induction L generalizing F with
  | nil => simp [appendLeaves]
  | cons x L ih =>
    have hc : F.length + 1 < 2 ^ 64 := by simp at hlen; omega
    have hstep := @appendOne_frontier α hash (leafOf placeholder (F ++ x :: L)) _ hc
    rw [leafOf_append_length] at hstep
    have hrest := ih (F ++ [x]) (by simpa using hlen)
    simp only [List.append_assoc, List.cons_append, List.nil_append, List.length_append,
      List.length_singleton] at hrest
    simp only [appendLeaves, hstep, bind, Except.bind]
    rw [hrest]
    simp

/-- Above the lowest set bit, `n` has a set bit among its low `j + 1` bits. -/
private theorem mod_two_pow_succ_ne_zero {n j : Nat} (hn : n < 2 ^ 64) (h0 : n ≠ 0)
    (hz : trailingZeros 64 n ≤ j) : n % 2 ^ (j + 1) ≠ 0 := by
  obtain ⟨_, hbit⟩ := testBit_trailingZeros hn h0
  intro hzero
  have := Nat.testBit_mod_two_pow n (j + 1) (trailingZeros 64 n)
  rw [hzero, Nat.zero_testBit, hbit] at this
  simp at this
  omega

/-- The loop of `compute_root_hash`, from level `j` on: the hash is the edge node
on level `j` and the frozen roots left are those of the levels above `j`. -/
theorem computeRootHashLoop_edge (leaf : Nat → α) {n : Nat} (hn : n < 2 ^ 64) (h0 : n ≠ 0) :
    ∀ d j, n.size = j + d → trailingZeros 64 n ≤ j →
      computeRootHashLoop hash placeholder (n / 2 ^ j) (paddedRoot hash placeholder leaf n j (n / 2 ^ j))
          (frontier hash leaf (2 ^ j * (n / 2 ^ j))).reverse =
        .ok (paddedRoot hash placeholder leaf n n.size 0) := by
  intro d
  induction d with
  | zero =>
    intro j hj _
    have hq : n / 2 ^ j = 0 := Nat.div_eq_of_lt (by rw [← Nat.add_zero j, ← hj]; exact Nat.lt_size_self n)
    rw [computeRootHashLoop.eq_def, hq, hj, Nat.add_zero]
    simp
  | succ d ih =>
    intro j hj hz
    have hpos : 0 < n / 2 ^ j := Nat.div_pos (Nat.lt_size.mp (by omega)) (Nat.two_pow_pos j)
    have hedge := @paddedRoot_edge_succ α hash placeholder leaf n j
      (mod_two_pow_succ_ne_zero hn h0 hz)
    have hnext := ih (j + 1) (by omega) (by omega)
    have hq := Nat.div_add_mod (n / 2 ^ j) 2
    rw [div_two_pow_succ] at hedge hnext
    rw [computeRootHashLoop.eq_def, if_pos hpos, Nat.and_one_is_mod, Nat.shiftRight_one]
    split
    case isTrue hodd =>
      -- bit `j` is set: the frozen root on level `j` is the left sibling
      have hsplit : 2 ^ j * (n / 2 ^ j) = 2 ^ (j + 1) * (n / 2 ^ j / 2) + 2 ^ j := by
        obtain ⟨q, hq'⟩ : ∃ q, n / 2 ^ j = 2 * q + 1 := ⟨n / 2 ^ j / 2, by omega⟩
        rw [hq', show (2 * q + 1) / 2 = q by omega, Nat.pow_succ]
        ring
      rw [if_pos (show n / 2 ^ j % 2 = 1 by omega)] at hedge
      rw [hsplit, frontier_add_two_pow leaf (Dvd.intro _ rfl), two_pow_succ_mul_div,
        List.reverse_append]
      simp only [List.reverse_cons, List.reverse_nil, List.nil_append, List.cons_append]
      rw [show 2 * (n / 2 ^ j / 2) = n / 2 ^ j - 1 by omega, ← hedge]
      exact hnext
    case isFalse heven =>
      -- bit `j` is clear: the placeholder is the right sibling
      have hsplit : 2 ^ j * (n / 2 ^ j) = 2 ^ (j + 1) * (n / 2 ^ j / 2) := by
        obtain ⟨q, hq'⟩ : ∃ q, n / 2 ^ j = 2 * q := ⟨n / 2 ^ j / 2, by omega⟩
        rw [hq', show 2 * q / 2 = q by omega, Nat.pow_succ]
        ring
      rw [if_neg (show ¬ n / 2 ^ j % 2 = 1 by omega)] at hedge
      rw [hsplit, ← hedge]
      exact hnext

/-- `compute_root_hash` of the frontier is the root of the padded tree. -/
theorem computeRootHash_frontier (leaf : Nat → α) {n : Nat} (hn : n < 2 ^ 64) :
    computeRootHash hash placeholder (frontier hash leaf n) n = .ok (treeRoot hash placeholder leaf n) := by
  rcases hfs : frozenSubtrees n with _ | ⟨⟨l, k⟩, _ | ⟨p, rest⟩⟩
  case nil =>
    obtain rfl := frozenSubtrees_eq_nil_iff.mp hfs
    simp [MerkleTree.frontier, computeRootHash, treeRoot]
  case cons.nil =>
    -- a single frozen subtree: `n` is a power of two and the root is that subtree
    obtain ⟨rfl, rfl⟩ := frozenSubtrees_eq_singleton hfs
    simp only [MerkleTree.frontier, hfs, List.map_cons, List.map_nil, computeRootHash, treeRoot,
      rootLevel_two_pow]
    rw [paddedRoot_eq_perfectRoot (by simp)]
    simp
  case cons.cons =>
    have h0 : n ≠ 0 := by
      rintro rfl
      simp at hfs
    have hpow : ∀ l, n ≠ 2 ^ l := by
      rintro l rfl
      rw [frozenSubtrees_two_pow] at hfs
      simp at hfs
    set z := trailingZeros 64 n with hz
    have hzero : n % 2 ^ z = 0 := mod_two_pow_trailingZeros
    have hdm := Nat.div_add_mod n (2 ^ z)
    have hsize : z < n.size := by
      have := (testBit_trailingZeros hn h0).2
      exact Nat.lt_size.mpr (Nat.ge_two_pow_of_testBit this)
    have hloop := @computeRootHashLoop_edge α hash placeholder leaf _ hn h0
      (n.size - z) z (by omega) (le_refl z)
    rw [show 2 ^ z * (n / 2 ^ z) = n by omega,
      paddedRoot_of_le (by rw [Nat.mul_comm]; omega)] at hloop
    have hfr : frontier hash leaf n = perfectRoot hash leaf l k ::
        perfectRoot hash leaf p.1 p.2 :: rest.map fun p => perfectRoot hash leaf p.1 p.2 := by
      simp [MerkleTree.frontier, hfs]
    rw [hfr]
    simp only [computeRootHash]
    rw [← hfr, Nat.shiftRight_eq_div_pow, hloop, treeRoot, if_neg h0,
      rootLevel_eq_size (Nat.pos_of_ne_zero h0) hpow]

/-- `InMemoryAccumulator::new` accepts the frontier of `n` leaves. -/
theorem new_frontier (leaf : Nat → α) {n : Nat} (hn : n < 2 ^ 64) :
    new hash placeholder (frontier hash leaf n) n = .ok (ofTree hash placeholder leaf n) := by
  simp [new, length_frontier hn, computeRootHash_frontier leaf hn, ofTree, bind, Except.bind,
    pure, Except.pure]

/-- Appending leaves to the accumulator of `F` gives the accumulator of `F ++ L`. -/
theorem append_ofTree (F L : List α) (hlen : (F ++ L).length < 2 ^ 64) :
    append hash placeholder (ofTree hash placeholder (leafOf placeholder F) F.length) L =
      .ok (ofTree hash placeholder (leafOf placeholder (F ++ L)) (F ++ L).length) := by
  have hfront : frontier hash (leafOf placeholder F) F.length =
      frontier hash (leafOf placeholder (F ++ L)) F.length :=
    frontier_congr fun i hi => (leafOf_append_of_lt hi).symm
  simp only [append, ofTree, hfront, appendLeaves_frontier F L hlen, bind, Except.bind]
  rw [new_frontier _ hlen]
  rfl

theorem default_eq_ofTree :
    default hash placeholder = .ok (ofTree hash placeholder (leafOf placeholder []) 0) := by
  simp [default, new, computeRootHash, countOnes, ofTree, MerkleTree.frontier, treeRoot, expectOk, bind,
    Except.bind, pure, Except.pure]

/-- `from_leaves` builds the accumulator of the padded Merkle tree over the leaves. -/
theorem fromLeaves_eq_ofTree (L : List α) (hlen : L.length < 2 ^ 64) :
    fromLeaves hash placeholder L = .ok (ofTree hash placeholder (leafOf placeholder L) L.length) := by
  have h := @append_ofTree α hash placeholder [] L (by simpa using hlen)
  simp only [List.nil_append, List.length_nil] at h
  simp only [fromLeaves, default_eq_ofTree, bind, Except.bind]
  exact h

/-- `from_leaves` of a prefix is the accumulator of the first leaves of the whole list. -/
theorem fromLeaves_take_eq_ofTree (F : List α) {m : Nat} (hm : m ≤ F.length)
    (hlen : F.length < 2 ^ 64) :
    fromLeaves hash placeholder (F.take m) = .ok (ofTree hash placeholder (leafOf placeholder F) m) := by
  rw [fromLeaves_eq_ofTree _ (by rw [List.length_take]; omega), List.length_take,
    Nat.min_eq_left hm, ofTree_congr fun i hi => leafOf_take hi]

/-- The version of a non-empty accumulator is its last leaf's index. -/
theorem version_ofTree (leaf : Nat → α) {n : Nat} (hn : 0 < n) :
    (ofTree hash placeholder leaf n).version = n - 1 := by
  rw [version, numLeaves_ofTree, if_neg (show n ≠ 0 by omega)]

/-! ### Appending subtrees -/

/-- The merges of `append_subtrees` for one new subtree, counted in subtrees of
`2 ^ z` leaves, from the `t`-th merge on: `x` of them are frozen and the pending
root is the level `t` node above the `x`-th. -/
theorem mergeMask_frontier (leaf : Nat → α) {z x t : Nat} (ht : t ≤ trailingOnes x)
    (hz : z + trailingOnes x < 64) :
    mergeMask hash (2 ^ z * x) (frontier hash leaf (x + 1 - 2 ^ t)) (2 ^ (z + t))
        (perfectRoot hash leaf t (x / 2 ^ t)) =
      .ok (frontier hash leaf (x + 1 - 2 ^ trailingOnes x), 2 ^ (z + trailingOnes x),
        perfectRoot hash leaf (trailingOnes x) (x / 2 ^ trailingOnes x)) := by
  induction hd : trailingOnes x - t generalizing t with
  | zero =>
    obtain rfl : t = trailingOnes x := by omega
    have hbit : ¬(2 ^ z * x &&& 2 ^ (z + trailingOnes x) ≠ 0) := by
      rw [two_pow_mul_and_two_pow_ne_zero_iff, testBit_trailingOnes]
      decide
    rw [mergeMask, if_neg hbit]
  | succ d ih =>
    have hlt : t < trailingOnes x := by omega
    have hbit : 2 ^ z * x &&& 2 ^ (z + t) ≠ 0 :=
      (two_pow_mul_and_two_pow_ne_zero_iff z x t).mpr (testBit_of_lt_trailingOnes hlt)
    -- the rightmost root is the left sibling of the pending one
    rw [mergeMask, if_pos hbit, frontier_carry leaf hlt]
    split
    next e h => simp at h
    next rest leftHash h =>
      simp only [popExpect_concat, Except.ok.injEq, Prod.mk.injEq] at h
      obtain ⟨rfl, rfl⟩ := h
      rw [@perfectRoot_carry α hash leaf x t hlt, shiftLeft_two_pow_one (by omega)]
      exact ih (by omega) (by omega)

/-- One round of the outer loop of `append_subtrees`: the next subtree is as
large as the rightmost frozen one, and merges into the frontier. -/
theorem appendSubtreesLoop_step (leaf : Nat → α) {c r : Nat} (rest : List α) (h0 : 0 < c)
    (hr : 2 ^ trailingZeros 64 c ≤ r) (hcr : c + r < 2 ^ 64) :
    appendSubtreesLoop hash (frontier hash leaf c) c r (2 ^ trailingZeros 64 c)
        (perfectRoot hash leaf (trailingZeros 64 c) (c / 2 ^ trailingZeros 64 c) :: rest) =
      appendSubtreesLoop hash (frontier hash leaf (c + 2 ^ trailingZeros 64 c))
        (c + 2 ^ trailingZeros 64 c) (r - 2 ^ trailingZeros 64 c)
        (2 ^ trailingZeros 64 (c + 2 ^ trailingZeros 64 c)) rest := by
  have hlt : c + 2 ^ trailingZeros 64 c < 2 ^ 64 := by omega
  have hcarry := trailingZeros_add_two_pow_trailingZeros hlt
  have htz := (testBit_trailingZeros hlt (Nat.pos_iff_ne_zero.mp (Nat.add_pos_left h0 _))).1
  set z := trailingZeros 64 c
  obtain ⟨x, hx⟩ : 2 ^ z ∣ c := two_pow_trailingZeros_dvd c
  have hdiv : c / 2 ^ z = x := by rw [hx, Nat.mul_div_cancel_left x (Nat.two_pow_pos z)]
  rw [hdiv] at hcarry
  -- count in subtrees of `2 ^ z` leaves: the new subtree is the `x`-th of them
  have hmerge := @mergeMask_frontier α hash ((pairUp hash)^[z] leaf) z x 0 (Nat.zero_le _)
    (by omega)
  rw [Nat.pow_zero, Nat.add_sub_cancel, Nat.add_zero, Nat.div_one, ← frontier_two_pow_mul, ← hx,
    show perfectRoot hash ((pairUp hash)^[z] leaf) 0 x = perfectRoot hash leaf z x from
      (perfectRoot_eq_iterate_pairUp leaf z x).symm] at hmerge
  have hnext : c + 2 ^ z = 2 ^ z * (x + 1) := by rw [Nat.mul_succ, ← hx]
  rw [appendSubtreesLoop, if_pos hr, hdiv, hmerge]
  simp only [bind, Except.bind]
  rw [← frontier_succ, ← frontier_two_pow_mul, ← hnext, hcarry]

/-- Once fewer leaves remain than the rightmost frozen subtree holds, the outer
loop of `append_subtrees` stops. -/
theorem appendSubtreesLoop_stop (roots : List α) {c r s : Nat} (hr : r < s) (subtrees : List α) :
    appendSubtreesLoop hash roots c r s subtrees = .ok (roots, c, r, subtrees) := by
  cases subtrees with
  | nil => rw [appendSubtreesLoop, if_neg (by omega)]
  | cons h rest => rw [appendSubtreesLoop, if_neg (by omega)]

end InMemoryAccumulator

end Refinement

end AptosCore
