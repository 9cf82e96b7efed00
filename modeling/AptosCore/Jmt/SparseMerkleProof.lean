import AptosCore.Jmt.Node
import AptosCore.Lib.SparseMerkle
import AptosCore.Lib.ExceptCheck

/-!
# Sparse Merkle proofs

`types/src/proof/definition.rs`. A `SparseMerkleProof` of a key holds the leaf
at which the key's path in the tree ends, if there is one, and the siblings of
the path from the bottom up. `verify_by_hash` checks what the proof states of
the key (its value hash, or its absence: the path ends at an empty place, or at
the leaf of another key that shares the path's bits), then hashes the leaf up
through the siblings along the key's bits and compares with the expected root.

The fold of `verify_by_hash` is the climb of `SparseMerkle` from the proof's
leaf, the siblings top first and bit `i` of the key at depth `i`
(`foldl_eq_climb`), so a proof is accepted exactly when its statement holds and
that climb reaches the root (`verifyByHash_eq_ok_iff`). Where the hashes do not
collide (`SmtHasher.CollisionFree`), one root admits one statement per key
(`eq_of_verifyByHash_ok`): a climb from a leaf or from the placeholder is fixed
by where it ends.
-/

namespace AptosCore

open SparseMerkle

/-- `SparseMerkleLeafNode`: a key and the hash of its value. -/
structure SparseMerkleLeafNode (α : Type) where
  key : HashValue
  valueHash : α
  deriving DecidableEq

/-- `CryptoHash for SparseMerkleLeafNode`. -/
def SparseMerkleLeafNode.hash {α : Type} (H : SmtHasher α) (leaf : SparseMerkleLeafNode α) : α :=
  H.leaf leaf.key leaf.valueHash

/-- `SparseMerkleProof`: the leaf at which the path ends, if any, and the
siblings on the path, the lowest first. -/
structure SparseMerkleProof (α : Type) where
  leaf : Option (SparseMerkleLeafNode α)
  siblings : List α

namespace SmtHasher

variable {α : Type}

/-- The hashes never collide: the node and the leaf hash are injective, their
images are apart, and the placeholder is in neither. -/
structure CollisionFree (H : SmtHasher α) : Prop where
  internal_inj : ∀ a b a' b', H.internal a b = H.internal a' b' → a = a' ∧ b = b'
  leaf_inj : ∀ k v k' v', H.leaf k v = H.leaf k' v' → k = k' ∧ v = v'
  leaf_ne_internal : ∀ k v a b, H.leaf k v ≠ H.internal a b
  placeholder_ne_internal : ∀ a b, H.placeholder ≠ H.internal a b
  placeholder_ne_leaf : ∀ k v, H.placeholder ≠ H.leaf k v

end SmtHasher

/-- Hashes as the terms that build them. -/
inductive SmtTerm where
  | placeholder
  | leaf (key : HashValue) (valueHash : SmtTerm)
  | internal (left right : SmtTerm)
  deriving DecidableEq

/-- The hasher of terms, in which equal hashes have equal inputs. -/
def SmtTerm.hasher : SmtHasher SmtTerm := ⟨.internal, .leaf, .placeholder⟩

theorem SmtTerm.collisionFree_hasher : SmtTerm.hasher.CollisionFree where
  internal_inj _ _ _ _ h := SmtTerm.internal.inj h
  leaf_inj _ _ _ _ h := SmtTerm.leaf.inj h
  leaf_ne_internal _ _ _ _ := SmtTerm.noConfusion
  placeholder_ne_internal _ _ := SmtTerm.noConfusion
  placeholder_ne_leaf _ _ := SmtTerm.noConfusion

namespace HashValue

/-- Keys that agree on their first `L` bits share a prefix of `L` bits at least. -/
theorem le_commonPrefixBitsLen {h h' : HashValue} {L : Nat} (hL : L ≤ lengthInBits)
    (hbits : ∀ i, i < L → getBit h i = getBit h' i) : L ≤ commonPrefixBitsLen h h' := by
  have hzip : (iterBits h).zip (iterBits h') = (List.range lengthInBits).map fun i => (getBit h i, getBit h' i) := by
    rw [iterBits, iterBits, List.zip_map']
  have htake : ((List.range lengthInBits).map fun i => (getBit h i, getBit h' i)).take L =
      (List.range L).map fun i => (getBit h i, getBit h' i) := by
    rw [← List.map_take, List.take_range, Nat.min_eq_left hL]
  -- the first `L` pairs all agree, so `take_while` keeps them
  have hagree : ∀ p ∈ (List.range L).map fun i => (getBit h i, getBit h' i), (p.1 == p.2) = true := by
    intro p hp
    obtain ⟨i, hi, rfl⟩ := List.mem_map.mp hp
    rw [beq_iff_eq, hbits i (List.mem_range.mp hi)]
  rw [commonPrefixBitsLen, hzip, ← List.take_append_drop L (List.map _ _), htake,
    List.takeWhile_append_of_pos hagree, List.length_append, List.length_map, List.length_range]
  exact Nat.le_add_right _ _

/-- The bits `verify_by_hash` pairs with the siblings: those of the depths the
proof covers, the deepest first. -/
theorem iterBits_reverse_drop (h : HashValue) {n : Nat} (hn : n ≤ lengthInBits) :
    (iterBits h).reverse.drop (lengthInBits - n) = (List.range n).reverse.map fun i => getBit h (0 + i) := by
  rw [iterBits, ← List.map_reverse, ← List.map_drop, List.drop_reverse, List.length_range,
    Nat.sub_sub_self hn, List.take_range, Nat.min_eq_left hn]
  simp only [Nat.zero_add]

end HashValue

namespace SparseMerkleProof

variable {α : Type} (H : SmtHasher α)

/-- The fold of `verify_by_hash` climbs from the leaf along the key from the top,
the siblings top first. -/
theorem foldl_eq_climb (elementKey : HashValue) (siblings : List α)
    (hlen : siblings.length ≤ HashValue.lengthInBits) (currentHash : α) :
    (siblings.zip ((HashValue.iterBits elementKey).reverse.drop (HashValue.lengthInBits - siblings.length))).foldl
        (fun hash (siblingHash, bit) => if bit then H.internal siblingHash hash else H.internal hash siblingHash)
        currentHash =
      climb H.internal HashValue.getBit elementKey 0 siblings.reverse currentHash := by
  rw [HashValue.iterBits_reverse_drop elementKey hlen]
  exact foldl_zip_eq_climb elementKey 0 siblings currentHash

variable [DecidableEq α]

/-- The `match (element_hash, self.leaf)` of `verify_by_hash`: the proof's leaf
checked against what is to be verified of the key. -/
def checkLeaf (proof : SparseMerkleProof α) (elementKey : HashValue) (elementHash : Option α) :
    Except (JmtError α) Unit :=
  match elementHash, proof.leaf with
  | some hash, some leaf => do
    -- an inclusion proof: the leaf is the key's, with the value hash given
    unless elementKey = leaf.key do throw (.keysDoNotMatch leaf.key elementKey)
    unless hash = leaf.valueHash do throw (.valueHashesDoNotMatch leaf.valueHash hash)
  | some _, none => throw .expectedInclusionProof
  | none, some leaf => do
    -- a proof of absence through the leaf of another key, in whose place the key would go
    unless elementKey ≠ leaf.key do throw .keyExistsInProof
    unless elementKey.commonPrefixBitsLen leaf.key ≥ proof.siblings.length do throw .notValidNonInclusionProof
  | none, none => pure ()

/-- `SparseMerkleProof::verify_by_hash`: `element_hash` is the value hash the
proof must show for `element_key`, or `None` for a proof of its absence. -/
def verifyByHash (proof : SparseMerkleProof α) (expectedRootHash : α) (elementKey : HashValue)
    (elementHash : Option α) : Except (JmtError α) Unit := do
  unless proof.siblings.length ≤ HashValue.lengthInBits do throw (.tooManySiblings proof.siblings.length)
  proof.checkLeaf elementKey elementHash
  let currentHash := proof.leaf.elim H.placeholder (SparseMerkleLeafNode.hash H)
  let actualRootHash := (proof.siblings.zip
      ((HashValue.iterBits elementKey).reverse.drop (HashValue.lengthInBits - proof.siblings.length))).foldl
    (fun hash (siblingHash, bit) => if bit then H.internal siblingHash hash else H.internal hash siblingHash)
    currentHash
  unless actualRootHash = expectedRootHash do throw (.rootHashesDoNotMatch actualRootHash expectedRootHash)

/-- What a proof states of a key: the key's leaf with the value hash, or the
key's absence, with no leaf or with the leaf of another key that shares the
bits of every level the proof covers. -/
def States (proof : SparseMerkleProof α) (elementKey : HashValue) (elementHash : Option α) : Prop :=
  match elementHash, proof.leaf with
  | some hash, some leaf => elementKey = leaf.key ∧ hash = leaf.valueHash
  | some _, none => False
  | none, some leaf => elementKey ≠ leaf.key ∧ proof.siblings.length ≤ elementKey.commonPrefixBitsLen leaf.key
  | none, none => True

/-- The leaf check passes exactly when the proof states it. -/
theorem checkLeaf_eq_ok_iff (proof : SparseMerkleProof α) (elementKey : HashValue) (elementHash : Option α) :
    proof.checkLeaf elementKey elementHash = .ok () ↔ proof.States elementKey elementHash := by
  unfold checkLeaf States
  split <;> simp

/-- A proof is accepted exactly when it has at most 256 siblings, its statement
holds and the climb from its leaf along the key reaches the root. -/
theorem verifyByHash_eq_ok_iff (proof : SparseMerkleProof α) (expectedRootHash : α) (elementKey : HashValue)
    (elementHash : Option α) :
    proof.verifyByHash H expectedRootHash elementKey elementHash = .ok () ↔
      proof.siblings.length ≤ HashValue.lengthInBits ∧ proof.States elementKey elementHash ∧
        climb H.internal HashValue.getBit elementKey 0 proof.siblings.reverse
          (proof.leaf.elim H.placeholder (SparseMerkleLeafNode.hash H)) = expectedRootHash := by
  by_cases hlen : proof.siblings.length ≤ HashValue.lengthInBits
  · simp [verifyByHash, hlen, checkLeaf_eq_ok_iff, foldl_eq_climb H elementKey _ hlen]
  · simp [verifyByHash, hlen]

/-! ## One statement per key and root -/

variable {H}

omit [DecidableEq α] in
/-- The hash a proof climbs from is a leaf's or the placeholder, never a node's. -/
theorem internal_ne_leafHash (hcf : H.CollisionFree) (proof : SparseMerkleProof α) (a b : α) :
    H.internal a b ≠ proof.leaf.elim H.placeholder (SparseMerkleLeafNode.hash H) := by
  rcases proof with ⟨_ | leaf, siblings⟩
  · exact fun h => hcf.placeholder_ne_internal a b h.symm
  · exact fun h => hcf.leaf_ne_internal leaf.key leaf.valueHash a b h.symm

omit [DecidableEq α] in
/-- A proof that states a value hash of a key ends at the key's leaf with it. -/
theorem leaf_eq_of_states_some {proof : SparseMerkleProof α} {elementKey : HashValue} {hash : α}
    (h : proof.States elementKey (some hash)) : proof.leaf = some ⟨elementKey, hash⟩ := by
  rcases hleaf : proof.leaf with _ | leaf
  · simp only [States, hleaf] at h
  · simp only [States, hleaf] at h
    obtain ⟨rfl, rfl⟩ := h
    rfl

/-- Against one root, once a proof shows a value hash of a key, every proof of
that key that is accepted shows the same value hash. Both climbs start from a
leaf or the placeholder, so they start from the same hash. -/
theorem eq_some_of_verifyByHash_ok (hcf : H.CollisionFree) {proof proof' : SparseMerkleProof α}
    {expectedRootHash : α} {elementKey : HashValue} {hash : α} {elementHash : Option α}
    (h : proof.verifyByHash H expectedRootHash elementKey (some hash) = .ok ())
    (h' : proof'.verifyByHash H expectedRootHash elementKey elementHash = .ok ()) :
    elementHash = some hash := by
  obtain ⟨-, hstates, hclimb⟩ := (verifyByHash_eq_ok_iff H proof expectedRootHash elementKey _).mp h
  obtain ⟨-, hstates', hclimb'⟩ := (verifyByHash_eq_ok_iff H proof' expectedRootHash elementKey _).mp h'
  obtain ⟨-, hstart⟩ := climb_inj_of_not_node hcf.internal_inj elementKey (internal_ne_leafHash hcf proof)
    (internal_ne_leafHash hcf proof') (hclimb.trans hclimb'.symm)
  rw [leaf_eq_of_states_some hstates] at hstart
  rcases elementHash with _ | hash'
  · -- a proof of absence ends at the placeholder or at another key's leaf
    exfalso
    rcases hleaf' : proof'.leaf with _ | leaf'
    · rw [hleaf'] at hstart
      exact hcf.placeholder_ne_leaf _ _ hstart.symm
    · rw [hleaf'] at hstart
      simp only [States, hleaf'] at hstates'
      exact hstates'.1 (hcf.leaf_inj _ _ _ _ hstart).1
  · rw [leaf_eq_of_states_some hstates'] at hstart
    exact congrArg some (hcf.leaf_inj _ _ _ _ hstart).2.symm

/-- `verify_by_hash` binds a root to one answer per key: where the hashes do not
collide, two proofs accepted against one root for one key show the same value
hash, or both show the key absent. -/
theorem eq_of_verifyByHash_ok (hcf : H.CollisionFree) {proof proof' : SparseMerkleProof α}
    {expectedRootHash : α} {elementKey : HashValue} {elementHash elementHash' : Option α}
    (h : proof.verifyByHash H expectedRootHash elementKey elementHash = .ok ())
    (h' : proof'.verifyByHash H expectedRootHash elementKey elementHash' = .ok ()) :
    elementHash = elementHash' := by
  rcases elementHash with _ | hash
  · rcases elementHash' with _ | hash'
    · rfl
    · exact eq_some_of_verifyByHash_ok hcf h' h
  · exact (eq_some_of_verifyByHash_ok hcf h h').symm

end SparseMerkleProof

end AptosCore
