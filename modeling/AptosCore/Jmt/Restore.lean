import AptosCore.Jmt.Node
import Mathlib.Data.List.AList

/-!
# Restoring a jellyfish Merkle tree from chunks

`storage/jellyfish-merkle/src/restore/mod.rs`. A restore receives the leaves of a
tree in increasing key order, chunk by chunk, each chunk with a range proof of
its last key. It keeps the rightmost path of the tree built so far as a stack of
partial internal nodes, freezes a leaf or an internal node once a key to its
right arrives, and checks each chunk by recomputing the left siblings of its
last key from the partial nodes and hashing them, with the proof's right
siblings, up to the expected root (`verify`).

`add_chunk_impl` changes the restore as it goes: for each key it moves
`previous_leaf`, inserts the key into the partial nodes and counts it, and only
then runs `verify`; an error of `verify` returns with all of that in place. The
skip of already received keys at the start of the next call reads
`previous_leaf`, so the keys of a rejected chunk count as received.

The hash of a key (`CryptoHash` of `K`), the hashes of the tree and the tree
writer are the parameters of a restore (`RestoreEnv`); the writer's state `σ`
is part of the restore. A panic of the source (`expect`, `assert!`, an index out
of range) is an error `RestoreError.panic` with the source's message.
-/

namespace AptosCore

/-- `SparseMerkleRangeProof`: the siblings right of the path from the root to the
last leaf of a chunk, the lowest first. -/
structure SparseMerkleRangeProof (α : Type) where
  rightSiblings : List α

/-- The errors of a restore: the texts of `ensure!` and `format_err!`, a panic with
its message, an error of a node's hash (only a corrupted node has one) or of the
tree writer. -/
inductive RestoreError (α : Type) where
  | panic (msg : String)
  | node (e : JmtError α)
  /-- "Account keys must come in increasing order." -/
  | keysNotIncreasing
  /-- "Too many right siblings in the proof." -/
  | tooManyRightSiblings
  /-- "Missing left sibling." -/
  | missingLeftSibling
  /-- "Missing right sibling." -/
  | missingRightSibling
  /-- "Root hashes do not match. Actual root hash: (actual). Expected root hash: (expected)." -/
  | rootHashesDoNotMatch (actual expected : α)
  | store (msg : String)
  deriving DecidableEq, Repr

/-- `Option::expect`: the value, or a panic with the message. -/
def expectSome {α β : Type} (o : Option β) (msg : String) : Except (RestoreError α) β :=
  match o with
  | some b => .ok b
  | none => .error (.panic msg)

/-- `Option::expect` in a method of the restore. -/
def expectSomeM {ε α β : Type} (o : Option β) (msg : String) : EStateM (RestoreError α) ε β :=
  match o with
  | some b => pure b
  | none => throw (.panic msg)

namespace SparseMerkleRangeProof

variable {α : Type} [DecidableEq α] (H : SmtHasher α)

/-- The loop of `SparseMerkleRangeProof::verify`, from the leaf up: a set bit
takes the next left sibling, a clear bit the next right sibling. -/
def verifyLoop : List Bool → List α → List α → α → Except (RestoreError α) α
  | [], _, _, currentHash => .ok currentHash
  | bit :: bits, leftSiblings, rightSiblings, currentHash =>
    if bit then
      match leftSiblings with
      | [] => .error .missingLeftSibling
      | leftHash :: leftSiblings => verifyLoop bits leftSiblings rightSiblings (H.internal leftHash currentHash)
    else
      match rightSiblings with
      | [] => .error .missingRightSibling
      | rightHash :: rightSiblings => verifyLoop bits leftSiblings rightSiblings (H.internal currentHash rightHash)

/-- `SparseMerkleRangeProof::verify`: the leaf of `key` hashed with the left
siblings and the proof's right siblings, over the lowest `num_siblings` bits of
the key, is the expected root. -/
def verify (proof : SparseMerkleRangeProof α) (expectedRootHash : α) (key : HashValue)
    (valueHash : α) (leftSiblings : List α) : Except (RestoreError α) Unit := do
  let numSiblings := leftSiblings.length + proof.rightSiblings.length
  if HashValue.lengthInBits < numSiblings then throw (.panic "attempt to subtract with overflow")
  let currentHash ← verifyLoop H ((HashValue.iterBits key).reverse.drop (HashValue.lengthInBits - numSiblings))
    leftSiblings proof.rightSiblings (H.leaf key valueHash)
  if currentHash = expectedRootHash then pure ()
  else throw (.rootHashesDoNotMatch currentHash expectedRootHash)

end SparseMerkleRangeProof

/-- `HashValue::common_prefix_nibbles_len` (`NibbleExt`). -/
def HashValue.commonPrefixNibblesLen (h other : HashValue) : Nat := HashValue.commonPrefixBitsLen h other / 4

/-- `ChildInfo`: a child of a partial node, an internal node whose hash and leaf
count are known once it is frozen, or a leaf. -/
inductive ChildInfo (κ α : Type) where
  | internal (hash : Option α) (leafCount : Option Nat)
  | leaf (node : LeafNode κ α)

/-- `ChildInfo::into_child`. -/
def ChildInfo.intoChild {κ α : Type} (H : SmtHasher α) (version : Nat) :
    ChildInfo κ α → Except (RestoreError α) (Child α)
  | .internal hash leafCount => do
    let hash ← expectSome hash "Must have been initialized."
    let leafCount ← expectSome leafCount "Must be complete already."
    pure ⟨hash, version, .internal leafCount⟩
  | .leaf node => pure ⟨node.hash H, version, .leaf⟩

/-- `InternalInfo`: the node key of a partial node and its sixteen child slots. -/
structure InternalInfo (κ α : Type) where
  nodeKey : NodeKey
  children : Nibble → Option (ChildInfo κ α)

namespace InternalInfo

variable {κ α : Type}

/-- `InternalInfo::new_empty`. -/
def newEmpty (nodeKey : NodeKey) : InternalInfo κ α := ⟨nodeKey, fun _ => none⟩

/-- `InternalInfo::set_child`. -/
def setChild (info : InternalInfo κ α) (index : Nibble) (childInfo : ChildInfo κ α) : InternalInfo κ α :=
  { info with children := Function.update info.children index (some childInfo) }

/-- `children.iter().rposition(|x| x.is_some())`: the last slot with a child. -/
def rightmostChildIndex (info : InternalInfo κ α) : Option Nibble :=
  (List.finRange 16).reverse.find? fun i => (info.children i).isSome

/-- `InternalInfo::into_internal_node`: every child converted, in nibble order. -/
def intoInternalNode (H : SmtHasher α) (version : Nat) (info : InternalInfo κ α) :
    Except (RestoreError α) (NodeKey × InternalNode α) := do
  let children ← (List.finRange 16).foldlM (fun (children : Children α) index =>
    match info.children index with
    | none => pure children
    | some childInfo => do
      let child ← childInfo.intoChild H version
      pure (Function.update children index (some child))) (fun _ => none)
  let node ← (InternalNode.new children).mapError .node
  pure (info.nodeKey, node)

end InternalInfo

/-- The nodes a restore is building: the partial nodes, root first, and the
frozen nodes not yet written. `add_one` and `freeze` change these only. -/
structure TreeBuilder (κ α : Type) where
  partialNodes : List (InternalInfo κ α)
  frozenNodes : AList (fun _ : NodeKey => Node κ α)

/-- `JellyfishMerkleRestore`, with the state `σ` of its tree writer. -/
structure JellyfishMerkleRestore (κ α σ : Type) extends TreeBuilder κ α where
  store : σ
  version : Nat
  previousLeaf : Option (LeafNode κ α)
  numKeysReceived : Nat
  expectedRootHash : α

/-- What a restore is over: the hashes of the tree, the hash of a key and the
tree writer's `write_node_batch`. -/
structure RestoreEnv (κ α σ : Type) where
  hasher : SmtHasher α
  keyHash : κ → HashValue
  writeNodeBatch : AList (fun _ : NodeKey => Node κ α) → σ → Except String σ

/-- The methods that change only the nodes being built. -/
abbrev BuilderM (κ α : Type) := EStateM (RestoreError α) (TreeBuilder κ α)

/-- The methods of a restore, on `&mut self`: an error returns the state reached. -/
abbrev RestoreM (κ α σ : Type) := EStateM (RestoreError α) (JellyfishMerkleRestore κ α σ)

namespace JellyfishMerkleRestore

variable {κ α σ : Type}

section Builder

variable (H : SmtHasher α)

/-- `freeze_previous_leaf`: the rightmost child of the lowest partial node, the
leaf added last, is frozen; the first key has none. -/
def freezePreviousLeaf (version numKeysReceived : Nat) : BuilderM κ α Unit := do
  if numKeysReceived = 0 then return
  let b ← get
  let lastNode ← expectSomeM b.partialNodes.getLast? "Must have at least one partial node."
  let rightmostChildIndex ← expectSomeM lastNode.rightmostChildIndex "Must have at least one child."
  match lastNode.children rightmostChildIndex with
  | some (.leaf node) =>
    let childNodeKey := lastNode.nodeKey.genChildNodeKey version rightmostChildIndex
    set { b with frozenNodes := b.frozenNodes.insert childNodeKey (.leaf node) }
  | _ => throw (.panic "Must have at least one child and must not have further internal nodes.")

/-- One round of the loop of `freeze_internal_nodes`: the lowest partial node is
popped and frozen, and its hash and leaf count are set in its parent. -/
def freezeLastInternalNode (version : Nat) : BuilderM κ α Unit := do
  let b ← get
  let lastNode ← expectSomeM b.partialNodes.getLast? "This node must exist."
  set { b with partialNodes := b.partialNodes.dropLast }
  let (nodeKey, internalNode) ← liftExcept (lastNode.intoInternalNode H version)
  let nodeHash ← liftExcept ((internalNode.hash H).mapError RestoreError.node)
  let nodeLeafCount := internalNode.leafCount
  modify fun b => { b with frozenNodes := b.frozenNodes.insert nodeKey (.internal internalNode) }
  let b ← get
  match b.partialNodes.getLast? with
  | none => pure ()
  | some parentNode =>
    let rightmostChildIndex ← expectSomeM parentNode.rightmostChildIndex "Must have at least one child."
    match parentNode.children rightmostChildIndex with
    | some (.internal hash leafCount) =>
      -- `assert_eq!(hash.replace(node_hash), None)`, then the same of the leaf count
      if hash.isSome then throw (.panic "assertion failed: hash.replace(node_hash) == None")
      if leafCount.isSome then throw (.panic "assertion failed: leaf_count.replace(node_leaf_count) == None")
      let parentNode := parentNode.setChild rightmostChildIndex (.internal (some nodeHash) (some nodeLeafCount))
      set { b with partialNodes := b.partialNodes.dropLast ++ [parentNode] }
    | _ => throw (.panic "Must have at least one child and the rightmost child must not be a leaf.")

/-- The `while` loop of `freeze_internal_nodes`. Each round pops a partial node,
so as many rounds as there are partial nodes are enough. -/
def freezeInternalNodesLoop (version numRemainingNodes : Nat) : Nat → BuilderM κ α Unit
  | 0 => pure ()
  | fuel + 1 => do
    if numRemainingNodes < (← get).partialNodes.length then
      freezeLastInternalNode H version
      freezeInternalNodesLoop version numRemainingNodes fuel

/-- `freeze_internal_nodes`: the partial nodes below the first `numRemainingNodes`
are frozen, lowest first. -/
def freezeInternalNodes (version numRemainingNodes : Nat) : BuilderM κ α Unit := do
  freezeInternalNodesLoop H version numRemainingNodes (← get).partialNodes.length

/-- `freeze`. -/
def freeze (version numKeysReceived numRemainingPartialNodes : Nat) : BuilderM κ α Unit := do
  freezePreviousLeaf version numKeysReceived
  freezeInternalNodes H version numRemainingPartialNodes

/-- The loop of `insert_at_leaf` over the nibble positions of the shared prefix
below the existing partial nodes: each position gets a partial node with one
internal child, the next nibble of the new key. -/
def insertAtLeafLoop (version : Nat) (newHashedKey : HashValue) : List Nat → BuilderM κ α Unit
  | [] => pure ()
  | pos :: rest => do
    if rootNibbleHeight ≤ pos then throw (.panic "This nibble must exist.")
    let internalInfo := (InternalInfo.newEmpty ⟨version, newHashedKey.nibblePath.take pos⟩).setChild
      (newHashedKey.getNibble pos) (.internal none none)
    modify fun b => { b with partialNodes := b.partialNodes ++ [internalInfo] }
    insertAtLeafLoop version newHashedKey rest

/-- `insert_at_leaf`: the leaf at `childIndex` of the lowest partial node becomes a
chain of partial nodes down to the first nibble where the keys differ, where
the existing leaf is frozen and the new leaf set on its right. `nibblePos` is the
position of the iterator over the new key's nibbles. -/
def insertAtLeaf (version numKeysReceived : Nat) (childIndex : Nibble) (existingLeaf : LeafNode κ α)
    (newKey : κ) (newHashedKey : HashValue) (newValueHash : α) (nibblePos : Nat) : BuilderM κ α Unit := do
  let numExistingPartialNodes := (← get).partialNodes.length
  -- the lowest partial node is not empty: `add_one` found the leaf in it
  modify fun b => { b with partialNodes := b.partialNodes.modifyLast (·.setChild childIndex (.internal none none)) }
  let commonPrefixLen := existingLeaf.accountKey.commonPrefixNibblesLen newHashedKey
  insertAtLeafLoop version newHashedKey
    (List.range' nibblePos (commonPrefixLen - numExistingPartialNodes))
  let visitedNibbles := newHashedKey.nibblePath.take (nibblePos + (commonPrefixLen - numExistingPartialNodes))
  if rootNibbleHeight ≤ commonPrefixLen then throw (.panic "index out of bounds: the len is 32 but the index is 32")
  let existingChildIndex := existingLeaf.accountKey.getNibble commonPrefixLen
  let internalInfo := (InternalInfo.newEmpty ⟨version, visitedNibbles⟩).setChild existingChildIndex
    (.leaf existingLeaf)
  modify fun b => { b with partialNodes := b.partialNodes ++ [internalInfo] }
  freeze H version numKeysReceived (← get).partialNodes.length
  let newChildIndex := newHashedKey.getNibble commonPrefixLen
  if newChildIndex ≤ existingChildIndex then throw (.panic "New leaf must be on the right.")
  let newLeaf : LeafNode κ α := ⟨newHashedKey, newValueHash, (newKey, version)⟩
  modify fun b => { b with partialNodes := b.partialNodes.modifyLast (·.setChild newChildIndex (.leaf newLeaf)) }

/-- The loop of `add_one` over the levels `i` of the new key: down through
internal children to an empty slot, where the new leaf goes after what is left
of it is frozen, or to a leaf, which `insert_at_leaf` splits. -/
def addOneLoop (newKey : κ) (newHashedKey : HashValue) (newValueHash : α) (version numKeysReceived : Nat) :
    List Nat → BuilderM κ α Unit
  | [] => pure ()
  | i :: rest => do
    let childIndex := newHashedKey.getNibble i
    let b ← get
    match b.partialNodes[i]? with
    | none => throw (.panic "assertion failed: i < self.partial_nodes.len()")
    | some partialNode =>
      match partialNode.children childIndex with
      | some (.leaf node) =>
        if i ≠ b.partialNodes.length - 1 then
          throw (.panic "If we see a leaf, there will be no more partial internal nodes on lower level, since they would have been frozen.")
        insertAtLeaf H version numKeysReceived childIndex node newKey newHashedKey newValueHash (i + 1)
      | some (.internal _ _) => addOneLoop newKey newHashedKey newValueHash version numKeysReceived rest
      | none =>
        freeze H version numKeysReceived (i + 1)
        let newLeaf : LeafNode κ α := ⟨newHashedKey, newValueHash, (newKey, version)⟩
        modify fun b => { b with partialNodes := b.partialNodes.modify i (·.setChild childIndex (.leaf newLeaf)) }

/-- `add_one`. -/
def addOne (keyHash : κ → HashValue) (newKey : κ) (newValueHash : α) (version numKeysReceived : Nat) :
    BuilderM κ α Unit :=
  addOneLoop H newKey (keyHash newKey) newValueHash version numKeysReceived (List.range rootNibbleHeight)

end Builder

section Verify

variable [DecidableEq α] (H : SmtHasher α)

/-- `compute_left_sibling_impl` on the slots `[start, start + 2 ^ height)`: the
root of that part of a partial node, and whether it is a single leaf. -/
def computeLeftSiblingImpl (children : Nibble → Option (ChildInfo κ α)) (start : Nat) :
    Nat → Except (RestoreError α) (α × Bool)
  | 0 =>
    if h : start < 16 then
      match children ⟨start, h⟩ with
      | some (.internal hash _) => do
        let hash ← expectSome hash "The hash must be known."
        pure (hash, false)
      | some (.leaf node) => pure (node.hash H, true)
      | none => pure (H.placeholder, true)
    else .error (.panic "range end index out of range for slice")
  | height + 1 => do
    let (leftHash, leftIsLeaf) ← computeLeftSiblingImpl children start height
    let (rightHash, rightIsLeaf) ← computeLeftSiblingImpl children (start + 2 ^ height) height
    if leftHash = H.placeholder ∧ rightIsLeaf then pure (rightHash, true)
    else if leftIsLeaf ∧ rightHash = H.placeholder then pure (leftHash, true)
    else pure (H.internal leftHash rightHash, false)

/-- `compute_left_sibling`: the root of the part of width `2 ^ height` beside
the one that holds nibble `n`. -/
def computeLeftSibling (partialNode : InternalInfo κ α) (n : Nibble) (height : Nat) :
    Except (RestoreError α) α := do
  if 4 ≤ height then throw (.panic "assertion failed: height < 4")
  let start := (InternalNode.getChildAndSiblingHalfStart n height).2
  let (hash, _) ← computeLeftSiblingImpl H partialNode.children start height
  pure hash

/-- The first loop of `verify`, over the bits `i` of the previous key from the top:
a set bit has a left sibling, from the partial node of level `i / 4` while there
is one and the placeholder below; a clear bit counts a right sibling. -/
def collectLeftSiblings (partialNodes : List (InternalInfo κ α)) (previousKey : HashValue) :
    List (Nat × Bool) → List α → Nat → Except (RestoreError α) (List α × Nat)
  | [], leftSiblings, numVisitedRightSiblings => .ok (leftSiblings, numVisitedRightSiblings)
  | (i, bit) :: rest, leftSiblings, numVisitedRightSiblings =>
    if bit then do
      let sibling ←
        if partialNodes.length * 4 ≤ i then pure H.placeholder
        else do
          let partialNode ← expectSome partialNodes[i / 4]? "index out of bounds"
          computeLeftSibling H partialNode (previousKey.getNibble (i / 4)) (3 - i % 4)
      collectLeftSiblings partialNodes previousKey rest (leftSiblings ++ [sibling]) numVisitedRightSiblings
    else collectLeftSiblings partialNodes previousKey rest leftSiblings (numVisitedRightSiblings + 1)

/-- The second loop of `verify`, over the bits from the bottom: placeholder left
siblings are dropped, and right siblings beyond the proof's, until another
sibling comes. -/
def trimSiblings (numRightSiblings : Nat) :
    List Bool → List α → Nat → Except (RestoreError α) (List α × Nat)
  | [], leftSiblings, numVisitedRightSiblings => .ok (leftSiblings, numVisitedRightSiblings)
  | bit :: bits, leftSiblings, numVisitedRightSiblings =>
    if bit then
      match leftSiblings.getLast? with
      | none => .error (.panic "This sibling must exist.")
      | some sibling =>
        if sibling = H.placeholder then trimSiblings numRightSiblings bits leftSiblings.dropLast numVisitedRightSiblings
        else .ok (leftSiblings, numVisitedRightSiblings)
    else if numRightSiblings < numVisitedRightSiblings then
      trimSiblings numRightSiblings bits leftSiblings (numVisitedRightSiblings - 1)
    else .ok (leftSiblings, numVisitedRightSiblings)

/-- `verify`: the keys added so far, up to the previous leaf, with the proof's
right siblings, hash to the expected root. -/
def verify (st : JellyfishMerkleRestore κ α σ) (proof : SparseMerkleRangeProof α) :
    Except (RestoreError α) Unit := do
  let previousLeaf ← expectSome st.previousLeaf "The previous leaf must exist."
  let previousKey := previousLeaf.accountKey
  let (leftSiblings, numVisitedRightSiblings) ← collectLeftSiblings H st.partialNodes previousKey
    ((List.range HashValue.lengthInBits).zip (HashValue.iterBits previousKey)) [] 0
  if numVisitedRightSiblings < proof.rightSiblings.length then throw .tooManyRightSiblings
  let (leftSiblings, _) ← trimSiblings H proof.rightSiblings.length (HashValue.iterBits previousKey).reverse
    leftSiblings numVisitedRightSiblings
  proof.verify H st.expectedRootHash previousKey previousLeaf.valueHash leftSiblings.reverse

end Verify

/-- Runs a method of the tree builder on the restore's partial and frozen nodes. -/
def liftBuilder {β : Type} (x : BuilderM κ α β) : RestoreM κ α σ β := do
  let st ← get
  match x st.toTreeBuilder with
  | .ok a b =>
    set { st with toTreeBuilder := b }
    pure a
  | .error e b =>
    set { st with toTreeBuilder := b }
    throw e

section Chunks

variable [DecidableEq α] (E : RestoreEnv κ α σ)

/-- `JellyfishMerkleRestore::new_overwrite`: one empty partial node, the root. -/
def newOverwrite (store : σ) (version : Nat) (expectedRootHash : α) : JellyfishMerkleRestore κ α σ :=
  ⟨⟨[InternalInfo.newEmpty (NodeKey.newEmptyPath version)], ∅⟩, store, version, none, 0, expectedRootHash⟩

/-- The skip at the start of `add_chunk_impl`: the keys of the chunk from the first
above the previous leaf, or `none` when there is none and the whole chunk is
skipped. -/
def skipReceived (previousLeaf : Option (LeafNode κ α)) (chunk : List (κ × α)) : Option (List (κ × α)) :=
  match previousLeaf with
  | none => some chunk
  | some prevLeaf =>
    -- `Some((0, _))` keeps the chunk as it is, which is what dropping nothing does
    (chunk.findIdx? fun item => prevLeaf.accountKey < E.keyHash item.1).map chunk.drop

/-- One round of the loop of `add_chunk_impl`: the key must be above the previous
leaf; it becomes the previous leaf, is added to the tree and counted. -/
def addKey (key : κ) (valueHash : α) : RestoreM κ α σ Unit := do
  let st ← get
  let hashedKey := E.keyHash key
  match st.previousLeaf with
  | some prevLeaf => if hashedKey ≤ prevLeaf.accountKey then throw .keysNotIncreasing
  | none => pure ()
  set { st with previousLeaf := some ⟨hashedKey, valueHash, (key, st.version)⟩ }
  liftBuilder (addOne E.hasher E.keyHash key valueHash st.version st.numKeysReceived)
  modify fun st => { st with numKeysReceived := st.numKeysReceived + 1 }

/-- The loop of `add_chunk_impl` over the keys of the chunk. -/
def addKeys : List (κ × α) → RestoreM κ α σ Unit
  | [] => pure ()
  | (key, valueHash) :: rest => do
    addKey E key valueHash
    addKeys rest

/-- `write_node_batch` of the frozen nodes; on success they are cleared. -/
def writeFrozenNodes : RestoreM κ α σ Unit := do
  let st ← get
  let store ← liftExcept ((E.writeNodeBatch st.frozenNodes st.store).mapError RestoreError.store :
    Except (RestoreError α) σ)
  set { st with store, frozenNodes := ∅ }

/-- `JellyfishMerkleRestore::add_chunk_impl`. -/
def addChunkImpl (chunk : List (κ × α)) (proof : SparseMerkleRangeProof α) : RestoreM κ α σ Unit := do
  match skipReceived E (← get).previousLeaf chunk with
  | none => pure ()
  | some chunk =>
    if chunk.isEmpty then return
    addKeys E chunk
    liftExcept (verify E.hasher (← get) proof)
    writeFrozenNodes E

/-- The leaf children of a partial node, in nibble order. -/
def leafChildren (info : InternalInfo κ α) : List (LeafNode κ α) :=
  (List.finRange 16).filterMap fun i =>
    match info.children i with
    | some (.leaf node) => some node
    | _ => none

/-- The end of `finish_impl` but for a single leaf: every partial node is frozen,
and the frozen nodes are written. -/
def freezeAll : RestoreM κ α σ Unit := do
  let st ← get
  liftBuilder (freeze E.hasher st.version st.numKeysReceived 0)
  writeFrozenNodes E

/-- `JellyfishMerkleRestore::finish_impl`: a tree of a single leaf is that leaf at
the root; otherwise every partial node is frozen. The frozen nodes are written
(the source drops the restore then, and they are cleared here). -/
def finishImpl : RestoreM κ α σ Unit := do
  let st ← get
  match st.partialNodes with
  | [root] =>
    -- the loop of the source counts the children and keeps the last leaf
    let numChildren := ((List.finRange 16).filterMap root.children).length
    match numChildren, (leafChildren root).getLast? with
    | 1, some node =>
      if st.frozenNodes.entries ≠ [] then throw (.panic "assertion failed: self.frozen_nodes.is_empty()")
      set { st with frozenNodes := st.frozenNodes.insert (NodeKey.newEmptyPath st.version) (.leaf node) }
      writeFrozenNodes E
    | _, _ => freezeAll E
  | _ => freezeAll E

end Chunks

end JellyfishMerkleRestore

end AptosCore
