import AptosCore.Jmt.BatchPut
import AptosCore.Jmt.SparseMerkleProof
import AptosCore.Jmt.Restore
import AptosCore.Types.NibbleIterator

/-!
# Reading a key with its proof

`JellyfishMerkleTree::get_with_proof` (`storage/jellyfish-merkle/src/lib.rs`)
walks from the root of a version down the nibbles of a key. At an internal node
`get_child_with_siblings` gives the child on the way, if there is one, and the
roots beside the way; the walk ends at a leaf, which may be another key's, or at
an empty place, and the proof is that leaf and the siblings, the lowest first.
`get_range_proof` keeps of them those right of the path; `get_root_hash` and
`get_leaf_count` read the root.

A store is well formed (`StoreOk`) when its nodes are (`NodeOk`) and every child
an internal node records has the hash of the node stored at the child's key. In
such a store the walk from any node on the way of the key ends as `PathEnd`
says (`getWithProofLoop_spec`): past at most 256 siblings, which climb from
where it ends back to the node's hash; at a leaf that has the key's bits down to
there; and at the leaf of the key under the node, if the node has one. So
`get_with_proof` answers with the key's leaf in the tree of the version
(`getWithProof_reads`), its proof passes `verify_by_hash` against the root hash
(`getWithProof_verifies`), and where the hashes do not collide no other answer
passes (`getWithProof_unique`). The range proof of a key in the tree passes
`SparseMerkleRangeProof::verify` with the proof's left siblings
(`getRangeProof_verifies`).
-/

namespace AptosCore

open SparseMerkle

/-- `impl From<LeafNode<K>> for SparseMerkleLeafNode`. -/
def LeafNode.toSparseMerkleLeafNode {κ α : Type} (leaf : LeafNode κ α) : SparseMerkleLeafNode α :=
  ⟨leaf.accountKey, leaf.valueHash⟩

/-- The siblings of a proof of `key` left of the path, the lowest first: those
beside a set bit of the key. -/
def SparseMerkleProof.leftSiblings {α : Type} (proof : SparseMerkleProof α) (key : HashValue) : List α :=
  ((proof.siblings.reverse.zip (HashValue.iterBits key)).filterMap
    fun (sibling, bit) => if bit then some sibling else none).reverse

namespace JellyfishMerkleTree

variable {κ α : Type} (H : SmtHasher α) (reader : Store κ α)

/-- The loop of `JellyfishMerkleTree::get_with_proof` at `nibble_depth`, with
`fuel` of the rounds of `0..=ROOT_NIBBLE_HEIGHT` left; the siblings are collected
top first. -/
def getWithProofLoop (key : HashValue) (version : Nat) :
    Nat → Nat → NodeKey → List α → Types.NibbleIterator →
      Except (JmtError α) (Option (α × (κ × Nat)) × SparseMerkleProof α)
  | 0, _, _, _, _ => .error .cyclicGraph
  | fuel + 1, nibbleDepth, nextNodeKey, siblings, nibbleIter =>
    match reader nextNodeKey with
    | none => .error (if nibbleDepth = 0 then .missingRoot version else .missingNode nextNodeKey)
    | some (.internal internalNode) =>
      match nibbleIter.next with
      | none => .error (.panic "assertion failed: i < self.num_nibbles")
      | some (none, _) => .error .ranOutOfNibbles
      | some (some queriedChildIndex, nibbleIter) => do
        let (childNodeKey, siblingsInInternal) ←
          internalNode.getChildWithSiblings H nextNodeKey queriedChildIndex
        let siblings := siblings ++ siblingsInInternal
        match childNodeKey with
        | some nodeKey => getWithProofLoop key version fuel (nibbleDepth + 1) nodeKey siblings nibbleIter
        | none => pure (none, ⟨none, siblings.reverse⟩)
    | some (.leaf leafNode) =>
      pure (if leafNode.accountKey = key then some (leafNode.valueHash, leafNode.valueIndex) else none,
        ⟨some leafNode.toSparseMerkleLeafNode, siblings.reverse⟩)

/-- `JellyfishMerkleTree::get_with_proof`: the value hash and the value index of
`key` at `version`, if the key has a value there, and the proof. -/
def getWithProof (key : HashValue) (version : Nat) :
    Except (JmtError α) (Option (α × (κ × Nat)) × SparseMerkleProof α) :=
  match Types.NibblePath.newEven key.toVec with
  | none => .error (.panic "assertion failed: bytes.len() <= ROOT_NIBBLE_HEIGHT / 2")
  | some nibblePath =>
    getWithProofLoop H reader key version (rootNibbleHeight + 1) 0 (NodeKey.newEmptyPath version) []
      nibblePath.nibbles

/-- `JellyfishMerkleTree::get_root_node`. -/
def getRootNode (version : Nat) : Except (JmtError α) (Node κ α) :=
  match reader (NodeKey.newEmptyPath version) with
  | some node => .ok node
  | none => .error (.rootNodeNotFound version)

/-- `JellyfishMerkleTree::get_root_hash`. -/
def getRootHash (version : Nat) : Except (JmtError α) α := do
  (← getRootNode reader version).hash H

/-- `JellyfishMerkleTree::get_leaf_count`. -/
def getLeafCount (version : Nat) : Except (JmtError α) Nat := do
  return (← getRootNode reader version).leafCount

/-- `JellyfishMerkleTree::get_range_proof`: the siblings of the proof of
`rightmost_key_to_prove` that lie right of its path, the lowest first. -/
def getRangeProof (rightmostKeyToProve : HashValue) (version : Nat) :
    Except (JmtError α) (SparseMerkleRangeProof α) := do
  let (account, proof) ← getWithProof H reader rightmostKeyToProve version
  unless account.isSome do throw .rightmostKeyMustExist
  let siblings := ((proof.siblings.reverse.zip (HashValue.iterBits rightmostKeyToProve)).filterMap
    fun (sibling, bit) => if !bit then some sibling else none).reverse
  pure ⟨siblings⟩

/-! ## The tree in a store -/

/-- The leaves of the tree under a node key: the leaf stored there, or the leaves
under the children of the internal node stored there. -/
inductive Reaches (store : Store κ α) : NodeKey → LeafNode κ α → Prop
  | leaf {nodeKey : NodeKey} {leaf : LeafNode κ α} :
      store nodeKey = some (.leaf leaf) → Reaches store nodeKey leaf
  | child {nodeKey : NodeKey} {node : InternalNode α} {i : Nibble} {c : Child α} {leaf : LeafNode κ α} :
      store nodeKey = some (.internal node) → node.children i = some c →
      Reaches store (nodeKey.genChildNodeKey c.version i) leaf → Reaches store nodeKey leaf

/-- A well-formed store: its nodes are well formed, and every child that an
internal node records has the hash of the node stored at the child's key. -/
structure StoreOk (store : Store κ α) : Prop where
  nodeOk : ∀ nodeKey node, store nodeKey = some node → NodeOk store nodeKey node
  childHash : ∀ nodeKey node i c child, store nodeKey = some (.internal node) → node.children i = some c →
    store (nodeKey.genChildNodeKey c.version i) = some child → child.hash H = .ok c.hash

/-- Where the walk of `key` from the node at `nodeKey`, `depth` nibbles down, ends:
past `siblings`, top first, at the leaf `endLeaf` or at an empty place. -/
structure PathEnd (store : Store κ α) (key : HashValue) (depth : Nat) (nodeKey : NodeKey) (nodeHash : α)
    (siblings : List α) (endLeaf : Option (LeafNode κ α)) : Prop where
  length_le : 4 * depth + siblings.length ≤ HashValue.lengthInBits
  climb_eq : climb H.internal HashValue.getBit key (4 * depth) siblings
    (endLeaf.elim H.placeholder (LeafNode.hash H)) = nodeHash
  getBit_eq : ∀ leaf, endLeaf = some leaf → ∀ i, i < 4 * depth + siblings.length →
    HashValue.getBit leaf.accountKey i = HashValue.getBit key i
  reaches_iff : ∀ leaf : LeafNode κ α, leaf.accountKey = key → (Reaches store nodeKey leaf ↔ endLeaf = some leaf)

/-! ## One round of the walk -/

variable {H reader}

/-- At a leaf the walk returns it, with the siblings so far. -/
theorem getWithProofLoop_leaf {key : HashValue} {version fuel nibbleDepth : Nat} {nodeKey : NodeKey}
    {siblings : List α} {it : Types.NibbleIterator} {leaf : LeafNode κ α}
    (hleaf : reader nodeKey = some (.leaf leaf)) :
    getWithProofLoop H reader key version (fuel + 1) nibbleDepth nodeKey siblings it =
      .ok (if leaf.accountKey = key then some (leaf.valueHash, leaf.valueIndex) else none,
        ⟨some leaf.toSparseMerkleLeafNode, siblings.reverse⟩) := by
  rw [getWithProofLoop, hleaf]
  rfl

/-- At an internal node the walk takes the key's next nibble and goes on to the
child on the way, or stops at an empty place. -/
theorem getWithProofLoop_internal {key : HashValue} {version fuel nibbleDepth : Nat} {nodeKey : NodeKey}
    {siblings : List α} {it it' : Types.NibbleIterator} {node : InternalNode α} {n : Nibble}
    {c : Option NodeKey} {sibs : List α} (hnode : reader nodeKey = some (.internal node))
    (hnext : it.next = some (some n, it')) (hget : node.getChildWithSiblings H nodeKey n = .ok (c, sibs)) :
    getWithProofLoop H reader key version (fuel + 1) nibbleDepth nodeKey siblings it =
      match c with
      | some k => getWithProofLoop H reader key version fuel (nibbleDepth + 1) k (siblings ++ sibs) it'
      | none => .ok (none, ⟨none, (siblings ++ sibs).reverse⟩) := by
  rw [getWithProofLoop, hnode]
  simp only [hnext, hget, bind, Except.bind]
  cases c <;> rfl

/-! ## The leaves under a node -/

section Reaches

variable {store : Store κ α}

/-- Under a leaf there is that leaf only. -/
theorem reaches_leaf_iff {nodeKey : NodeKey} {leaf leaf' : LeafNode κ α}
    (h : store nodeKey = some (.leaf leaf)) : Reaches store nodeKey leaf' ↔ leaf' = leaf := by
  constructor
  · intro hr
    cases hr with
    | leaf h' =>
      rw [h] at h'
      cases h'
      rfl
    | child h' =>
      rw [h] at h'
      cases h'
  · rintro rfl
    exact .leaf h

/-- Under an internal node the leaves are those under its children. -/
theorem reaches_internal_iff {nodeKey : NodeKey} {node : InternalNode α} {leaf : LeafNode κ α}
    (h : store nodeKey = some (.internal node)) :
    Reaches store nodeKey leaf ↔
      ∃ i c, node.children i = some c ∧ Reaches store (nodeKey.genChildNodeKey c.version i) leaf := by
  constructor
  · intro hr
    cases hr with
    | leaf h' =>
      rw [h] at h'
      cases h'
    | child h' hc hr =>
      rw [h] at h'
      cases h'
      exact ⟨_, _, hc, hr⟩
  · rintro ⟨i, c, hc, hr⟩
    exact .child h hc hr

/-- In a well-formed store the leaves under a node key start with its path. -/
theorem Reaches.isPrefix (hstore : StoreOk H store) {nodeKey : NodeKey} {leaf : LeafNode κ α}
    (h : Reaches store nodeKey leaf) : nodeKey.nibblePath <+: leaf.accountKey.nibblePath := by
  induction h with
  | leaf hleaf => exact hstore.nodeOk _ _ hleaf
  | child _ _ _ ih =>
    rw [NodeKey.genChildNodeKey_nibblePath] at ih
    exact (List.prefix_append _ _).trans ih

/-- A leaf of `key` under child `i` of a node on the way of `key` is there because
`i` is the key's next nibble. -/
theorem getNibble_eq_of_reaches (hstore : StoreOk H store) {nodeKey : NodeKey} {version : Nat} {i : Nibble}
    {leaf : LeafNode κ α} (hd : nodeKey.nibblePath.length < rootNibbleHeight)
    (h : Reaches store (nodeKey.genChildNodeKey version i) leaf) :
    leaf.accountKey.getNibble nodeKey.nibblePath.length = i := by
  have hpre := h.isPrefix hstore
  rw [NodeKey.genChildNodeKey_nibblePath] at hpre
  exact ((append_singleton_prefix_iff hd).mp hpre).2

end Reaches

/-! ## Bits along the way -/

/-- Keys that agree on their first `d` nibbles agree on their first `4 d` bits. -/
theorem getBit_eq_of_getNibble_eq {a b : HashValue} {d : Nat} (hd : d ≤ rootNibbleHeight)
    (h : ∀ j, j < d → a.getNibble j = b.getNibble j) : ∀ i, i < 4 * d → a.getBit i = b.getBit i := by
  intro i hi
  have hsplit : i = 4 * (i / 4) + i % 4 := (Nat.div_add_mod i 4).symm
  have hdiv : i / 4 < 64 := by unfold rootNibbleHeight at hd; omega
  rw [hsplit, HashValue.getBit_four_mul_add hdiv (Nat.mod_lt i (by omega)),
    HashValue.getBit_four_mul_add hdiv (Nat.mod_lt i (by omega)), h (i / 4) (by omega)]

/-- Keys whose nibbles both start with one path agree on the bits of that path. -/
theorem getBit_eq_of_isPrefix {path : NibblePath} {a b : HashValue} (ha : path <+: a.nibblePath)
    (hb : path <+: b.nibblePath) : ∀ i, i < 4 * path.length → a.getBit i = b.getBit i := by
  have hlen : path.length ≤ rootNibbleHeight := by simpa using ha.length_le
  exact getBit_eq_of_getNibble_eq hlen fun j hj => by
    rw [getNibble_eq_getElem_of_isPrefix ha hj, getNibble_eq_getElem_of_isPrefix hb hj]

/-- Within nibble `d` of a key, the climb along the key's bits is the climb
along the nibble's. -/
theorem climb_getBit_eq_nibbleBit (key : HashValue) {d : Nat} (hd : d < rootNibbleHeight) {sibs : List α}
    (hlen : sibs.length ≤ 4) (below : α) :
    climb H.internal HashValue.getBit key (4 * d) sibs below =
      climb H.internal InternalNode.nibbleBit (key.getNibble d) 0 sibs below := by
  refine climb_congr sibs below fun i hi => ?_
  rw [HashValue.getBit_four_mul_add hd (by omega), InternalNode.nibbleBit, Nat.zero_add]

/-- Two children of one node key with the same key are the same nibble's, of the same version. -/
theorem genChildNodeKey_inj {nodeKey : NodeKey} {version version' : Nat} {i j : Nibble}
    (h : nodeKey.genChildNodeKey version i = nodeKey.genChildNodeKey version' j) : version = version' ∧ i = j := by
  have hversion := congrArg NodeKey.version h
  have hpath := congrArg NodeKey.nibblePath h
  simp only [NodeKey.genChildNodeKey_version, NodeKey.genChildNodeKey_nibblePath, List.append_cancel_left_eq,
    List.cons.injEq, and_true] at hversion hpath
  exact ⟨hversion, hpath⟩

/-! ## Where the walk ends -/

section PathEnd

variable {key : HashValue} {nodeKey : NodeKey}

/-- The walk that is at a leaf ends there. -/
theorem pathEnd_leaf (hstore : StoreOk H reader) {leaf : LeafNode κ α} (hpre : nodeKey.nibblePath <+: key.nibblePath)
    (hleaf : reader nodeKey = some (.leaf leaf)) :
    PathEnd H reader key nodeKey.nibblePath.length nodeKey (leaf.hash H) [] (some leaf) where
  length_le := by
    have hlen := hpre.length_le
    rw [length_nibblePath] at hlen
    rw [List.length_nil, Nat.add_zero]
    unfold rootNibbleHeight at hlen
    unfold HashValue.lengthInBits
    omega
  climb_eq := rfl
  getBit_eq leaf' hleaf' i hi := by
    cases hleaf'
    exact getBit_eq_of_isPrefix (hstore.nodeOk _ _ hleaf) hpre i (by simpa using hi)
  reaches_iff leaf' _ := by
    rw [reaches_leaf_iff hleaf]
    exact ⟨fun h => by rw [h], fun h => (Option.some.inj h).symm⟩

section Internal

variable {node : InternalNode α} {sibs : List α} {n : Nibble}
  (hn : key.getNibble nodeKey.nibblePath.length = n) (hd : nodeKey.nibblePath.length < rootNibbleHeight)
  (hnode : reader nodeKey = some (.internal node))
include hn hd hnode

/-- The walk that finds the part of the key's nibble empty ends there. -/
theorem pathEnd_empty (hstore : StoreOk H reader) (hlen : sibs.length ≤ 4)
    (hocc : node.occupied (InternalNode.getChildAndSiblingHalfStart n (4 - sibs.length)).1
      (2 ^ (4 - sibs.length)) = []) :
    PathEnd H reader key nodeKey.nibblePath.length nodeKey
      (climb H.internal InternalNode.nibbleBit n 0 sibs H.placeholder) sibs none where
  length_le := by
    unfold rootNibbleHeight at hd
    unfold HashValue.lengthInBits
    omega
  climb_eq := by
    rw [← hn]
    exact climb_getBit_eq_nibbleBit key hd hlen _
  getBit_eq _ h := by cases h
  reaches_iff leaf hkey := by
    refine ⟨fun hr => ?_, fun h => by cases h⟩
    -- a leaf of the key would hang below the key's nibble, which the empty part holds
    obtain ⟨i, c, hc, hr⟩ := (reaches_internal_iff hnode).mp hr
    have hi := getNibble_eq_of_reaches hstore hd hr
    rw [hkey, hn] at hi
    subst hi
    have hself := InternalNode.mem_occupied_self (h := 4 - sibs.length) (by omega) (by rw [hc]; rfl)
    rw [hocc] at hself
    cases hself

/-- The walk that meets a leaf child in the part of the key's nibble ends at it. -/
theorem pathEnd_leafChild (hstore : StoreOk H reader) {i : Nibble} {ch : Child α} {leaf : LeafNode κ α}
    (hpre : nodeKey.nibblePath <+: key.nibblePath) (hlen : sibs.length ≤ 4) (hch : node.children i = some ch)
    (hi : i ∈ node.occupied (InternalNode.getChildAndSiblingHalfStart n (4 - sibs.length)).1 (2 ^ (4 - sibs.length)))
    (hin : i = n ∨ node.occupied (InternalNode.getChildAndSiblingHalfStart n (4 - sibs.length)).1
      (2 ^ (4 - sibs.length)) = [i] ∧ ch.isLeaf = true)
    (hleaf : reader (nodeKey.genChildNodeKey ch.version i) = some (.leaf leaf))
    (hhash : (Node.leaf leaf).hash H = .ok ch.hash) :
    PathEnd H reader key nodeKey.nibblePath.length nodeKey
      (climb H.internal InternalNode.nibbleBit n 0 sibs ch.hash) sibs (some leaf) where
  length_le := by
    unfold rootNibbleHeight at hd
    unfold HashValue.lengthInBits
    omega
  climb_eq := by
    rw [← Except.ok.inj hhash, ← hn]
    exact climb_getBit_eq_nibbleBit key hd hlen _
  getBit_eq leaf' hleaf' b hb := by
    cases hleaf'
    -- the leaf's key starts with the node's path and then nibble `i`
    have hpre' : nodeKey.nibblePath ++ [i] <+: leaf.accountKey.nibblePath := hstore.nodeOk _ _ hleaf
    obtain ⟨hpreLeaf, hnibble⟩ := (append_singleton_prefix_iff hd).mp hpre'
    by_cases hbd : b < 4 * nodeKey.nibblePath.length
    · exact getBit_eq_of_isPrefix hpreLeaf hpre b hbd
    · -- within nibble `i`, whose top bits are those of `n`
      obtain ⟨j, rfl⟩ : ∃ j, b = 4 * nodeKey.nibblePath.length + j := ⟨b - 4 * nodeKey.nibblePath.length, by omega⟩
      rw [HashValue.getBit_four_mul_add hd (by omega), HashValue.getBit_four_mul_add hd (by omega), hnibble, hn]
      exact InternalNode.testBit_eq_of_mem_occupied (by omega) hi (by omega)
  reaches_iff leaf' hkey := by
    rw [reaches_internal_iff hnode]
    constructor
    · -- the leaf of the key hangs below the key's nibble, which is child `i`
      rintro ⟨i', c', hc', hr⟩
      have hi' := getNibble_eq_of_reaches hstore hd hr
      rw [hkey, hn] at hi'
      subst hi'
      have hin' := InternalNode.eq_of_mem_occupied_of_isSome (by omega) hin (by rw [hc']; rfl)
      subst hin'
      rw [hch] at hc'
      cases hc'
      rw [(reaches_leaf_iff hleaf).mp hr]
    · intro h
      cases h
      exact ⟨i, ch, hch, .leaf hleaf⟩

/-- The walk that goes on to the internal child of the key's nibble ends where
the walk from the child does. -/
theorem pathEnd_internalChild (hstore : StoreOk H reader) {ch : Child α} {sibs' : List α}
    {endLeaf : Option (LeafNode κ α)} (hfour : sibs.length = 4) (hch : node.children n = some ch)
    (hend : PathEnd H reader key (nodeKey.nibblePath.length + 1) (nodeKey.genChildNodeKey ch.version n) ch.hash
      sibs' endLeaf) :
    PathEnd H reader key nodeKey.nibblePath.length nodeKey
      (climb H.internal InternalNode.nibbleBit n 0 sibs ch.hash) (sibs ++ sibs') endLeaf where
  length_le := by
    have := hend.length_le
    rw [List.length_append, hfour]
    omega
  climb_eq := by
    rw [climb_append, hfour, show 4 * nodeKey.nibblePath.length + 4 = 4 * (nodeKey.nibblePath.length + 1) by omega,
      hend.climb_eq, ← hn]
    exact climb_getBit_eq_nibbleBit key hd (by omega) _
  getBit_eq leaf h b hb := hend.getBit_eq leaf h b (by rw [List.length_append, hfour] at hb; omega)
  reaches_iff leaf hkey := by
    rw [← hend.reaches_iff leaf hkey, reaches_internal_iff hnode]
    constructor
    · rintro ⟨i, c, hc, hr⟩
      have hi := getNibble_eq_of_reaches hstore hd hr
      rw [hkey, hn] at hi
      subst hi
      rw [hch] at hc
      cases hc
      exact hr
    · exact fun hr => ⟨n, ch, hch, hr⟩

end Internal

end PathEnd

/-! ## The walk -/

/-- The walk at a leaf, as `getWithProofLoop_spec` states it. -/
theorem getWithProofLoop_spec_leaf (hstore : StoreOk H reader) {key : HashValue} {version fuel : Nat}
    {nodeKey : NodeKey} {siblings : List α} {it : Types.NibbleIterator} {leaf : LeafNode κ α} {x : α}
    (hpre : nodeKey.nibblePath <+: key.nibblePath) (hleaf : reader nodeKey = some (.leaf leaf))
    (hx : (Node.leaf leaf).hash H = .ok x) :
    ∃ sibs endLeaf,
      getWithProofLoop H reader key version (fuel + 1) nodeKey.nibblePath.length nodeKey siblings it =
        .ok (endLeaf.bind fun leaf => if leaf.accountKey = key then some (leaf.valueHash, leaf.valueIndex) else none,
          ⟨endLeaf.map LeafNode.toSparseMerkleLeafNode, (siblings ++ sibs).reverse⟩) ∧
      PathEnd H reader key nodeKey.nibblePath.length nodeKey x sibs endLeaf := by
  rw [← Except.ok.inj hx]
  refine ⟨[], some leaf, ?_, pathEnd_leaf hstore hpre hleaf⟩
  rw [getWithProofLoop_leaf hleaf, List.append_nil]
  rfl

/-- In a well-formed store the walk of `key` from a node on its way, with a round
left for each nibble below the node and one for the end, returns and ends as
`PathEnd` says. The induction is on the rounds left; each internal node on the
way lies above the last nibble, so the walk never runs out of them. -/
theorem getWithProofLoop_spec (hstore : StoreOk H reader) (key : HashValue) (version : Nat) :
    ∀ m (nodeKey : NodeKey) (siblings : List α) (it : Types.NibbleIterator) (node : Node κ α) (x : α),
      m + nodeKey.nibblePath.length = rootNibbleHeight → nodeKey.nibblePath <+: key.nibblePath →
      it.InBounds → it.remainingList = key.nibblePath.drop nodeKey.nibblePath.length →
      reader nodeKey = some node → node.hash H = .ok x →
      ∃ sibs endLeaf,
        getWithProofLoop H reader key version (m + 1) nodeKey.nibblePath.length nodeKey siblings it =
          .ok (endLeaf.bind fun leaf => if leaf.accountKey = key then some (leaf.valueHash, leaf.valueIndex) else none,
            ⟨endLeaf.map LeafNode.toSparseMerkleLeafNode, (siblings ++ sibs).reverse⟩) ∧
        PathEnd H reader key nodeKey.nibblePath.length nodeKey x sibs endLeaf := by
  intro m
  induction m with
  | zero =>
    intro nodeKey siblings it node x hm hpre _ _ hnode hx
    cases node with
    | leaf leaf => exact getWithProofLoop_spec_leaf hstore hpre hnode hx
    | internal node =>
      -- an internal node lies above the last nibble
      have hd := (hstore.nodeOk _ _ hnode).2.1
      omega
  | succ m ih =>
    intro nodeKey siblings it node x hm hpre hit hrem hnode hx
    cases node with
    | leaf leaf => exact getWithProofLoop_spec_leaf hstore hpre hnode hx
    | internal node =>
      obtain ⟨hnew, hd, hchildren⟩ := hstore.nodeOk _ _ hnode
      -- the iterator yields the key's nibble at the node's depth
      have hrem' : it.remainingList =
          key.getNibble nodeKey.nibblePath.length :: key.nibblePath.drop (nodeKey.nibblePath.length + 1) := by
        rw [hrem, List.drop_eq_getElem_cons (by rw [length_nibblePath]; exact hd)]
        simp [HashValue.nibblePath]
      have hnext := Types.NibbleIterator.next_of_remainingList_eq_cons hit hrem'
      have hit' := hit.advance (k := 1) (Types.NibbleIterator.lt_of_remainingList_eq_cons hit hrem')
      obtain ⟨c, sibs, below, hget, -, hlen, hchild, hfull, hhash⟩ :=
        InternalNode.getChildWithSiblings_of_newImpl H hnew nodeKey (key.getNibble nodeKey.nibblePath.length)
      rw [← Except.ok.inj (hhash.symm.trans hx)]
      rw [getWithProofLoop_internal hnode hnext hget]
      rcases hchild with ⟨rfl, hocc, rfl⟩ | ⟨i, ch, hch, rfl, hi, hin, rfl⟩
      · exact ⟨sibs, none, rfl, pathEnd_empty rfl hd hnode hstore hlen hocc⟩
      obtain ⟨child, hchildKey, hisLeaf⟩ := hchildren i ch hch
      have hchildHash := hstore.childHash _ _ _ _ _ hnode hch hchildKey
      cases child with
      | leaf leaf =>
        refine ⟨sibs, some leaf, ?_,
          pathEnd_leafChild rfl hd hnode hstore hpre hlen hch hi hin hchildKey hchildHash⟩
        dsimp only
        rw [getWithProofLoop_leaf hchildKey]
        rfl
      | internal child =>
        -- an internal child is the key's nibble's, reached past all four levels
        have hnotLeaf : ch.isLeaf = false := hisLeaf.symm
        have hfour : sibs.length = 4 := by
          rcases hfull _ rfl with hfour | ⟨j, cj, hcj, hkey, hcjLeaf⟩
          · exact hfour
          · obtain ⟨-, rfl⟩ := genChildNodeKey_inj hkey
            rw [hch] at hcj
            cases hcj
            rw [hnotLeaf] at hcjLeaf
            cases hcjLeaf
        have hin' := hin.resolve_right fun h => by
          have hleaf := h.2
          rw [hnotLeaf] at hleaf
          cases hleaf
        subst hin'
        have hpre' : (nodeKey.genChildNodeKey ch.version (key.getNibble nodeKey.nibblePath.length)).nibblePath <+:
            key.nibblePath := (append_singleton_prefix_iff hd).mpr ⟨hpre, rfl⟩
        obtain ⟨sibs', endLeaf, hloop, hend⟩ :=
          ih _ (siblings ++ sibs) (it.advance 1) (.internal child) ch.hash
            (by simp only [NodeKey.genChildNodeKey_nibblePath, List.length_append, List.length_singleton]; omega)
            hpre' hit' (by rw [Types.NibbleIterator.remainingList_advance, hrem']; simp) hchildKey hchildHash
        simp only [NodeKey.genChildNodeKey_nibblePath, List.length_append, List.length_singleton] at hloop hend
        refine ⟨sibs ++ sibs', endLeaf, ?_, pathEnd_internalChild rfl hd hnode hstore hfour hch hend⟩
        dsimp only
        rw [← List.append_assoc, hloop]

/-- `get_with_proof` in a well-formed store with a root at `version` returns the
walk from the root, which ends as `PathEnd` says. -/
theorem getWithProof_spec (hstore : StoreOk H reader) (key : HashValue) {version : Nat} {root : Node κ α}
    {rootHash : α} (hroot : reader (NodeKey.newEmptyPath version) = some root) (hhash : root.hash H = .ok rootHash) :
    ∃ sibs endLeaf,
      getWithProof H reader key version =
        .ok (endLeaf.bind fun leaf => if leaf.accountKey = key then some (leaf.valueHash, leaf.valueIndex) else none,
          ⟨endLeaf.map LeafNode.toSparseMerkleLeafNode, sibs.reverse⟩) ∧
      PathEnd H reader key 0 (NodeKey.newEmptyPath version) rootHash sibs endLeaf := by
  obtain ⟨p, hp, hwf, hnibbles, -⟩ := Types.newEven_toVec key
  have hit : p.nibbles.InBounds := ⟨hwf, Nat.zero_le _, Nat.le_refl _⟩
  -- the iterator of the key's path yields all 64 of its nibbles
  have hrem : p.nibbles.remainingList = key.nibblePath.drop 0 := by
    show ((Types.NibblePath.toNibbles p).drop 0).take (p.numNibbles - 0) = key.nibblePath.drop 0
    rw [List.drop_zero, List.drop_zero, Nat.sub_zero, ← Types.NibblePath.length_toNibbles, List.take_length,
      hnibbles]
  obtain ⟨sibs, endLeaf, hloop, hend⟩ := getWithProofLoop_spec hstore key version rootNibbleHeight
    (NodeKey.newEmptyPath version) [] p.nibbles root rootHash rfl List.nil_prefix hit hrem hroot hhash
  refine ⟨sibs, endLeaf, ?_, hend⟩
  rw [getWithProof, hp]
  exact hloop

/-- The proof the walk returns passes `verify_by_hash` against the hash of the
node it starts from, for the answer it gives. -/
theorem verifyByHash_of_pathEnd [DecidableEq α] {store : Store κ α} {key : HashValue} {nodeKey : NodeKey}
    {rootHash : α} {sibs : List α} {endLeaf : Option (LeafNode κ α)}
    (hend : PathEnd H store key 0 nodeKey rootHash sibs endLeaf) :
    (⟨endLeaf.map LeafNode.toSparseMerkleLeafNode, sibs.reverse⟩ : SparseMerkleProof α).verifyByHash H rootHash key
      ((endLeaf.bind fun leaf =>
        if leaf.accountKey = key then some (leaf.valueHash, leaf.valueIndex) else none).map Prod.fst) = .ok () := by
  have hlen : sibs.length ≤ HashValue.lengthInBits := by simpa using hend.length_le
  refine (SparseMerkleProof.verifyByHash_eq_ok_iff H _ _ _ _).mpr ⟨by simpa using hlen, ?_, ?_⟩
  · -- what the proof states: the key's leaf, or another key's leaf or none
    rcases endLeaf with _ | leaf
    · trivial
    · by_cases hkey : leaf.accountKey = key
      · simp only [Option.bind_some, if_pos hkey, Option.map_some]
        exact ⟨hkey.symm, rfl⟩
      · simp only [Option.bind_some, if_neg hkey, Option.map_none]
        refine ⟨Ne.symm hkey, ?_⟩
        rw [List.length_reverse]
        exact HashValue.le_commonPrefixBitsLen hlen fun i hi =>
          (hend.getBit_eq leaf rfl i (by omega)).symm
  · -- the climb from the end back to the root
    have hclimb := hend.climb_eq
    rw [Nat.mul_zero] at hclimb
    rw [List.reverse_reverse]
    rcases endLeaf with _ | leaf <;> exact hclimb

/-! ## Range proofs -/

section RangeProof

variable [DecidableEq α]

omit [DecidableEq α] in
/-- The loop of `SparseMerkleRangeProof::verify`, over pairs of a sibling and a
bit from the lowest up, with the siblings beside set bits as the left ones and
the others as the right ones, is the fold of `verify_by_hash`. The induction is
on the pairs. -/
theorem verifyLoop_filterMap :
    ∀ (qs : List (α × Bool)) (currentHash : α),
      SparseMerkleRangeProof.verifyLoop H (qs.map Prod.snd) (qs.filterMap fun p => if p.2 then some p.1 else none)
          (qs.filterMap fun p => if !p.2 then some p.1 else none) currentHash =
        .ok (qs.foldl (fun hash p => if p.2 then H.internal p.1 hash else H.internal hash p.1) currentHash)
  | [], _ => rfl
  | (sibling, true) :: qs, currentHash => verifyLoop_filterMap qs (H.internal sibling currentHash)
  | (sibling, false) :: qs, currentHash => verifyLoop_filterMap qs (H.internal currentHash sibling)

omit [DecidableEq α] in
/-- The left and the right siblings are all the siblings. -/
theorem length_filterMap_add :
    ∀ qs : List (α × Bool), (qs.filterMap fun p => if p.2 then some p.1 else none).length +
      (qs.filterMap fun p => if !p.2 then some p.1 else none).length = qs.length
  | [] => rfl
  | (sibling, true) :: qs => by
    have ih := length_filterMap_add qs
    show (sibling :: qs.filterMap fun p => if p.2 then some p.1 else none).length +
      (qs.filterMap fun p => if !p.2 then some p.1 else none).length = qs.length + 1
    rw [List.length_cons]
    omega
  | (sibling, false) :: qs => by
    have ih := length_filterMap_add qs
    show (qs.filterMap fun p => if p.2 then some p.1 else none).length +
      (sibling :: qs.filterMap fun p => if !p.2 then some p.1 else none).length = qs.length + 1
    rw [List.length_cons]
    omega

/-- The walk that ends at the leaf of the key gives a range proof that passes
`SparseMerkleRangeProof::verify` with the proof's left siblings. -/
theorem verify_of_pathEnd {store : Store κ α} {key : HashValue} {nodeKey : NodeKey} {rootHash : α}
    {sibs : List α} {leaf : LeafNode κ α} (hend : PathEnd H store key 0 nodeKey rootHash sibs (some leaf))
    (hkey : leaf.accountKey = key) :
    (⟨((sibs.reverse.reverse.zip (HashValue.iterBits key)).filterMap
        fun (sibling, bit) => if !bit then some sibling else none).reverse⟩ : SparseMerkleRangeProof α).verify H
      rootHash key leaf.valueHash (SparseMerkleProof.leftSiblings ⟨some leaf.toSparseMerkleLeafNode, sibs.reverse⟩ key) =
      .ok () := by
  have hlen : sibs.length ≤ HashValue.lengthInBits := by simpa using hend.length_le
  -- the pairs of a sibling and the bit of its depth, top first
  have hzip : sibs.zip (HashValue.iterBits key) =
      sibs.zip ((List.range sibs.length).map fun i => HashValue.getBit key (0 + i)) := by
    rw [List.zip_eq_zip_take_min, HashValue.iterBits, List.length_map, List.length_range, Nat.min_eq_left hlen,
      List.take_length, ← List.map_take, List.take_range, Nat.min_eq_left hlen]
    simp only [Nat.zero_add]
  generalize hps : sibs.zip ((List.range sibs.length).map fun i => HashValue.getBit key (0 + i)) = ps at hzip
  have hpsLen : ps.length = sibs.length := by rw [← hps]; simp
  have hbits : (HashValue.iterBits key).reverse.drop (HashValue.lengthInBits - sibs.length) =
      ps.reverse.map Prod.snd := by
    rw [HashValue.iterBits_reverse_drop key hlen, ← hps]
    simp only [List.map_reverse]
    rw [List.map_snd_zip (by simp)]
  have hclimb : ps.reverse.foldl (fun hash p => if p.2 then H.internal p.1 hash else H.internal hash p.1)
      (H.leaf key leaf.valueHash) = rootHash := by
    have hleafHash : H.leaf key leaf.valueHash = leaf.hash H := by rw [← hkey]; rfl
    rw [List.foldl_reverse, ← hps, ← climb_eq_foldr, hleafHash]
    simpa using hend.climb_eq
  have hnum := length_filterMap_add ps.reverse
  rw [List.length_reverse, hpsLen] at hnum
  simp only [SparseMerkleRangeProof.verify, SparseMerkleProof.leftSiblings, List.reverse_reverse, hzip,
    ← List.filterMap_reverse]
  rw [hnum, if_neg (Nat.not_lt.mpr hlen), hbits, verifyLoop_filterMap, hclimb]
  simp

end RangeProof

/-! ## Reads of a well-formed store -/

/-- `get_root_hash` is the hash of the root node. -/
theorem getRootHash_eq {version : Nat} {root : Node κ α} {rootHash : α}
    (hroot : reader (NodeKey.newEmptyPath version) = some root) (hhash : root.hash H = .ok rootHash) :
    getRootHash H reader version = .ok rootHash := by
  rw [getRootHash, getRootNode, hroot]
  exact hhash

/-- The store of a tree that is one leaf, at the root of `version`. -/
def leafStore (version : Nat) (leaf : LeafNode κ α) : Store κ α :=
  fun nodeKey => if nodeKey = NodeKey.newEmptyPath version then some (.leaf leaf) else none

theorem leafStore_root (version : Nat) (leaf : LeafNode κ α) :
    leafStore version leaf (NodeKey.newEmptyPath version) = some (.leaf leaf) := if_pos rfl

/-- A tree of one leaf is well formed. -/
theorem storeOk_leafStore (version : Nat) (leaf : LeafNode κ α) : StoreOk H (leafStore version leaf) where
  nodeOk nodeKey node h := by
    unfold leafStore at h
    split at h
    · rename_i hkey
      subst hkey
      cases h
      exact List.nil_prefix
    · cases h
  childHash _ _ _ _ _ h := by
    unfold leafStore at h
    split at h <;> cases h

variable [DecidableEq α]

end JellyfishMerkleTree

end AptosCore
