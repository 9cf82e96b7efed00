import AptosCore.Accumulator.Storage

/-!
# Inclusion proofs

`MerkleAccumulatorView::get_proof` (storage/accumulator/src/lib.rs) collects the
siblings of the path from a leaf up to the root of the accumulator of
`num_leaves` leaves, reading the frozen ones through the `HashReader` and
computing the others with `get_hash`. `AccumulatorProof::verify`
(types/src/proof/definition.rs) folds them back up, taking the running node
as a left or a right child by the parity of its index.

The positions come from `iter_ancestor_sibling`, a bit trick on in-order
positions; `iterAncestorSibling_fromLeafIndex` reads it as the siblings of the
path of `MerkleTree.pathSiblings`, and the fold of `verify` is
`MerkleTree.pathStep`. A proof read from a store of `n` leaves for the
historical accumulator of `m ≤ n` of them folds to that accumulator's root.
-/

namespace AptosCore

open Word MerkleTree Position

/-- `AccumulatorProof`: the siblings of a path, from the bottom level up. -/
structure AccumulatorProof (α : Type) where
  siblings : List α
  deriving DecidableEq, Repr

namespace AccumulatorProof

variable {α : Type} [DecidableEq α] (hash : α → α → α)

/-- `AccumulatorProof::verify`: fold the siblings onto the element's hash and
compare with the expected root. -/
def verify (proof : AccumulatorProof α) (expectedRootHash elementHash : α)
    (elementIndex : Nat) : Except (AccumulatorError α) Unit :=
  if proof.siblings.length ≤ maxAccumulatorProofDepth then
    let actualRootHash := (proof.siblings.foldl
      -- `index` is the index of the element's ancestor on the current level
      (fun (h, index) siblingHash =>
        (if index % 2 = 0 then hash h siblingHash else hash siblingHash h, index / 2))
      (elementHash, elementIndex)).1
    if actualRootHash = expectedRootHash then .ok ()
    else .error (.rootHashMismatch actualRootHash expectedRootHash)
  else .error (.tooManySiblings proof.siblings.length)

omit [DecidableEq α] in
/-- The step of the fold in `verify` is one step up a Merkle path. -/
theorem verify_step_eq :
    (fun (acc : α × Nat) (siblingHash : α) =>
      match acc with
      | (h, index) =>
        (if index % 2 = 0 then hash h siblingHash else hash siblingHash h, index / 2)) =
      pathStep hash := by
  funext acc siblingHash
  rfl

/-- A proof of at most 63 siblings is accepted exactly when its path folds to
the expected root. -/
theorem verify_eq_ok {proof : AccumulatorProof α} {expectedRootHash elementHash : α}
    {elementIndex : Nat} (hlen : proof.siblings.length ≤ 63)
    (hroot : (proof.siblings.foldl (pathStep hash) (elementHash, elementIndex)).1 =
      expectedRootHash) :
    proof.verify hash expectedRootHash elementHash elementIndex = .ok () := by
  rw [verify, maxAccumulatorProofDepth, if_pos hlen]
  dsimp only
  rw [verify_step_eq, if_pos hroot]

end AccumulatorProof

namespace MerkleAccumulatorView

section Model

variable {α : Type} (hash : α → α → α) (placeholder : α)
  (reader : Position → Except (AccumulatorError α) α)

/-- `get_sibling_positions`: the siblings on the path from leaf `leafIndex` to
the root of `numLeaves` leaves, bottom up, that pass `filter`. -/
def getSiblingPositions (numLeaves leafIndex : Nat) (filter : Position → Bool) :
    Except (AccumulatorError α) (List Position) :=
  match rootFromLeafCount numLeaves with
  | some rootPos =>
    .ok (((fromLeafIndex leafIndex).iterAncestorSibling rootPos.level).filter filter)
  | none => .error (.panic "assertion failed: leaf_count > 0")

/-- `get_hashes`: `get_hash` of each position, stopping at the first error. -/
def getHashes (numLeaves : Nat) (positions : List Position) :
    Except (AccumulatorError α) (List α) :=
  positions.mapM (getHash hash placeholder reader numLeaves)

/-- `get_siblings`. -/
def getSiblings (numLeaves leafIndex : Nat) (filter : Position → Bool) :
    Except (AccumulatorError α) (List α) := do
  let positions ← getSiblingPositions numLeaves leafIndex filter
  getHashes hash placeholder reader numLeaves positions

/-- `MerkleAccumulatorView::get_proof`. -/
def getProof (numLeaves leafIndex : Nat) : Except (AccumulatorError α) (AccumulatorProof α) :=
  if leafIndex < numLeaves then do
    let siblings ← getSiblings hash placeholder reader numLeaves leafIndex fun _ => true
    .ok ⟨siblings⟩
  else .error (.invalidLeafIndex leafIndex numLeaves)

end Model

/-! ## The path of a leaf -/

/-- `iter_ancestor_sibling` from the node on level `l` with index `k`: on each
level above it, the sibling of the ancestor. -/
theorem iterAncestorSibling_fromLevelAndPos :
    ∀ (L l k : Nat), (k + 1) * 2 ^ l ≤ 2 ^ 63 → l + L ≤ 63 →
      (fromLevelAndPos l k).iterAncestorSibling L =
        (List.range L).map fun j => fromLevelAndPos (l + j) (siblingIndex (k / 2 ^ j))
  | 0, _, _, _, _ => rfl
  | L + 1, l, k, hb, hL => by
    rw [iterAncestorSibling_succ, sibling_fromLevelAndPos hb (by omega),
      parent_fromLevelAndPos hb (by omega),
      iterAncestorSibling_fromLevelAndPos L (l + 1) (k / 2) (parent_fits hb (by omega)) (by omega),
      List.range_succ_eq_map, List.map_cons, List.map_map]
    congr 1
    · simp
    apply List.map_congr_left
    intro j _
    rw [Function.comp_apply, Nat.div_div_eq_div_mul, ← Nat.pow_succ', Nat.add_assoc,
      Nat.add_comm 1 j]

theorem iterAncestorSibling_fromLeafIndex {i L : Nat} (hi : i < 2 ^ 63) (hL : L ≤ 63) :
    (fromLeafIndex i).iterAncestorSibling L = pathSiblings fromLevelAndPos i L := by
  rw [fromLeafIndex, iterAncestorSibling_fromLevelAndPos L 0 i (by omega) (by omega),
    pathSiblings]
  simp only [Nat.zero_add]

/-- The nodes on the path of a leaf below `2 ^ 63`, and their siblings, are
positions of the tree. -/
theorem sibling_fits_of_lt {i l : Nat} (hi : i < 2 ^ 63) (hl : l < 63) :
    (siblingIndex (i / 2 ^ l) + 1) * 2 ^ l ≤ 2 ^ 63 := by
  have hx : i / 2 ^ l * 2 ^ l < 2 ^ 63 := lt_of_le_of_lt (Nat.div_mul_le_self _ _) hi
  exact sibling_fits (succ_mul_le_of_mul_lt (by omega) hx) hl

theorem getSiblingPositions_eq {n i : Nat} (h0 : 0 < n) (hn : n ≤ 2 ^ 63) (hi : i < n)
    (filter : Position → Bool) :
    (getSiblingPositions n i filter : Except (AccumulatorError α) (List Position)) =
      .ok ((pathSiblings fromLevelAndPos i (rootLevel n)).filter filter) := by
  have hsize : (n - 1).size ≤ 63 := Nat.size_le.mpr (by omega)
  have hb : (0 + 1) * 2 ^ (n - 1).size ≤ 2 ^ 63 := by
    rw [Nat.zero_add, Nat.one_mul]
    exact Nat.pow_le_pow_right (by decide) hsize
  rw [getSiblingPositions, rootFromLeafCount_eq h0 hn]
  dsimp only
  rw [level_fromLevelAndPos hb, iterAncestorSibling_fromLeafIndex (by omega) hsize, rootLevel]

/-! ## Reading the siblings -/

section Reading

variable {α : Type} {hash : α → α → α} {placeholder : α}

theorem mapM_eq_ok {β γ ε : Type} {f : β → Except ε γ} {g : β → γ} :
    ∀ {xs : List β}, (∀ x ∈ xs, f x = .ok (g x)) → xs.mapM f = .ok (xs.map g)
  | [], _ => rfl
  | x :: xs, h => by
    rw [List.mapM_cons, h x List.mem_cons_self,
      mapM_eq_ok fun y hy => h y (List.mem_cons_of_mem x hy)]
    rfl

/-- Over a reader holding the nodes complete over `n` leaves, `get_hashes` of
nodes of the tree is their padded roots. -/
theorem getHashes_map {reader : Position → Except (AccumulatorError α) α} {leaf : Nat → α}
    {n : Nat} (hS : Stored hash reader leaf n) (h0 : 0 < n) (hn : n ≤ 2 ^ 63)
    {β : Type} (xs : List β) (level index : β → Nat)
    (hb : ∀ x ∈ xs, (index x + 1) * 2 ^ level x ≤ 2 ^ 63) :
    getHashes hash placeholder reader n (xs.map fun x => fromLevelAndPos (level x) (index x)) =
      .ok (xs.map fun x => paddedRoot hash placeholder leaf n (level x) (index x)) := by
  rw [getHashes, List.mapM_map]
  exact mapM_eq_ok fun x hx => getHash_eq hS h0 hn (hb x hx)

/-- The siblings of the path of a leaf `i < n`, read over `n` leaves, are the
padded tree's nodes beside the path. -/
theorem getSiblings_eq {reader : Position → Except (AccumulatorError α) α} {leaf : Nat → α}
    {n i : Nat} (hS : Stored hash reader leaf n) (hn : n ≤ 2 ^ 63) (hi : i < n) :
    getSiblings hash placeholder reader n i (fun _ => true) =
      .ok (pathSiblings (paddedRoot hash placeholder leaf n) i (rootLevel n)) := by
  have hL : rootLevel n ≤ 63 := Nat.size_le.mpr (by omega)
  rw [getSiblings, getSiblingPositions_eq (by omega) hn hi, List.filter_eq_self.mpr fun _ _ => rfl]
  simp only [bind, Except.bind, pathSiblings]
  exact getHashes_map hS (by omega) hn _ _ _ fun l hl =>
    sibling_fits_of_lt (by omega) (by simp at hl; omega)

/-- `get_proof` of a leaf below `m` succeeds over a reader holding the nodes
complete over `m` leaves, and folds back to the tree's root. -/
theorem getProof_eq {reader : Position → Except (AccumulatorError α) α} {leaf : Nat → α}
    {m i : Nat} (hS : Stored hash reader leaf m) (hm : m ≤ 2 ^ 63) (hi : i < m) :
    getProof hash placeholder reader m i =
      .ok ⟨pathSiblings (paddedRoot hash placeholder leaf m) i (rootLevel m)⟩ := by
  rw [getProof, if_pos hi, getSiblings_eq hS hm hi]
  rfl

theorem Stored.mono {reader : Position → Except (AccumulatorError α) α} {leaf : Nat → α}
    {m n : Nat} (hS : Stored hash reader leaf n) (hmn : m ≤ n) : Stored hash reader leaf m :=
  fun l k hle => hS l k (le_trans hle hmn)

end Reading

/-! ## Inclusion proofs of historical accumulators -/

section Historical

open AccumulatorProof

variable {α : Type} [DecidableEq α] {hash : α → α → α} {placeholder : α}

variable (hash placeholder) in
/-- Over a store holding the frozen nodes of the leaves `F`, as `append` leaves
it, the proof `get_proof` returns for leaf `i` of the accumulator of the first
`m` leaves verifies against `get_root_hash` of those `m` leaves, however many
leaves were appended after them; and `get_proof` fails exactly for the leaf
indices from `m` on. -/
theorem getProof_verify {s : MockHashStore α} {F : List α}
    (hs : StoresFrozen hash s (leafOf placeholder F) F.length)
    (hF : F.length ≤ maxAccumulatorLeaves) {m : Nat} (hm : 0 < m) (hmn : m ≤ F.length) :
    (∀ i (hi : i < m), ∃ proof rootHash,
      getProof hash placeholder s.get m i = .ok proof ∧
      getRootHash hash placeholder s.get m = .ok rootHash ∧
      proof.verify hash rootHash F[i] i = .ok ()) ∧
    ∀ i, (∃ e, getProof hash placeholder s.get m i = .error e) ↔ m ≤ i := by
  rw [maxAccumulatorLeaves_eq] at hF
  have hS : Stored hash s.get (leafOf placeholder F) m :=
    (stored_of_storesFrozen hs hF).mono hmn
  constructor
  · intro i hi
    have hL : rootLevel m ≤ 63 := Nat.size_le.mpr (by omega)
    refine ⟨_, _, getProof_eq hS (by omega) hi, getRootHash_eq hS hm (by omega), ?_⟩
    apply verify_eq_ok
    · simpa [pathSiblings] using hL
    · have hleaf : F[i] = leafOf placeholder F i := by simp [leafOf, show i < F.length by omega]
      rw [hleaf, foldl_pathStep_treeRoot _ hi]
  · intro i
    by_cases hi : i < m
    · simp only [getProof_eq hS (by omega) hi, reduceCtorEq, exists_false, false_iff]
      omega
    · simp only [getProof, if_neg hi, Except.error.injEq, exists_eq', true_iff]
      omega

theorem getProof_verify_five :
    StoresFrozen Nat.add ((MockHashStore.empty : MockHashStore Nat).putMany
        (writesFrom Nat.add (leafOf 0 [1, 2, 3, 4, 5]) 0 5)) (leafOf 0 [1, 2, 3, 4, 5])
        [1, 2, 3, 4, 5].length ∧
      [1, 2, 3, 4, 5].length ≤ maxAccumulatorLeaves ∧ 0 < 3 ∧ 3 ≤ [1, 2, 3, 4, 5].length ∧
    ((∀ i (hi : i < 3), ∃ proof rootHash,
      getProof Nat.add 0 ((MockHashStore.empty : MockHashStore Nat).putMany
        (writesFrom Nat.add (leafOf 0 [1, 2, 3, 4, 5]) 0 5)).get 3 i = .ok proof ∧
      getRootHash Nat.add 0 ((MockHashStore.empty : MockHashStore Nat).putMany
        (writesFrom Nat.add (leafOf 0 [1, 2, 3, 4, 5]) 0 5)).get 3 = .ok rootHash ∧
      proof.verify Nat.add rootHash ([1, 2, 3, 4, 5].get ⟨i, by simp; omega⟩) i = .ok ()) ∧
    ∀ i, (∃ e, getProof Nat.add 0 ((MockHashStore.empty : MockHashStore Nat).putMany
        (writesFrom Nat.add (leafOf 0 [1, 2, 3, 4, 5]) 0 5)).get 3 i = .error e) ↔ 3 ≤ i) := by
  have hs : StoresFrozen Nat.add ((MockHashStore.empty : MockHashStore Nat).putMany
      (writesFrom Nat.add (leafOf 0 [1, 2, 3, 4, 5]) 0 5)) (leafOf 0 [1, 2, 3, 4, 5]) (0 + 5) :=
    storesFrozen_putMany (storesFrozen_empty _) (by decide)
  exact ⟨hs, by decide, by decide, by decide,
    getProof_verify Nat.add 0 hs (by decide) (by decide) (by decide)⟩

end Historical

end MerkleAccumulatorView

end AptosCore
