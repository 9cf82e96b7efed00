import AptosCore.Jmt.Key
import AptosCore.Lib.Word

/-!
# Nodes of the jellyfish Merkle tree

`storage/jellyfish-merkle/src/node_type/mod.rs`. An internal node holds up to
sixteen children, one per nibble, and hashes them as a four-level binary tree in
which a part with no child is the placeholder and a part with a single child
that is a leaf is that leaf (`InternalNode::merkle_hash`). The parts are found
through two sixteen-bit maps of the children and of the leaf children
(`generate_bitmaps`, `range_bitmaps`).

The hashes are a parameter: `SparseMerkleInternalNode::hash`,
`SparseMerkleLeafNode::hash` and `SPARSE_MERKLE_PLACEHOLDER_HASH`, over a type
`α` of hash values. A node's hash can fail only on a corrupted node, so it is an
`Except`.
-/

namespace AptosCore

open Word

/-- The hashes of the sparse Merkle tree. -/
structure SmtHasher (α : Type) where
  /-- `SparseMerkleInternalNode::new(left, right).hash()`. -/
  internal : α → α → α
  /-- `SparseMerkleLeafNode::new(key, value_hash).hash()`. -/
  leaf : HashValue → α → α
  /-- `SPARSE_MERKLE_PLACEHOLDER_HASH`. -/
  placeholder : α

/-- The errors of the tree, its store and its proofs, with the values their
messages print. -/
inductive JmtError (α : Type) where
  | panic (msg : String)
  /-- `TreeReader::get_node`: "Missing node at {node_key}." -/
  | missingNode (nodeKey : NodeKey)
  /-- `MissingRootError`. -/
  | missingRoot (version : Nat)
  | ranOutOfNibbles
  | cyclicGraph
  /-- `MockTreeStore::put_node`: "Key {key} exists." -/
  | keyExists (nodeKey : NodeKey)
  | duplicatedRetireLog
  | rootNodeNotFound (version : Nat)
  | rightmostKeyMustExist
  | tooManySiblings (numSiblings : Nat)
  | keysDoNotMatch (proofKey expectedKey : HashValue)
  | valueHashesDoNotMatch (proofValueHash expectedValueHash : α)
  | expectedInclusionProof
  | keyExistsInProof
  | notValidNonInclusionProof
  | rootHashesDoNotMatch (actual expected : α)
  deriving DecidableEq, Repr

/-- `NodeType`. -/
inductive NodeType where
  | leaf
  | internal (leafCount : Nat)
  deriving DecidableEq, Repr

/-- `Child`: a child's hash, the version of its node key and its type. -/
structure Child (α : Type) where
  hash : α
  version : Nat
  nodeType : NodeType
  deriving DecidableEq, Repr

namespace Child

variable {α : Type}

/-- `Child::is_leaf`. -/
def isLeaf (c : Child α) : Bool :=
  match c.nodeType with
  | .leaf => true
  | .internal _ => false

/-- `Child::leaf_count`. -/
def leafCount (c : Child α) : Nat :=
  match c.nodeType with
  | .leaf => 1
  | .internal leafCount => leafCount

end Child

/-- `Children`, the `HashMap<Nibble, Child>` of an internal node. -/
abbrev Children (α : Type) := Nibble → Option (Child α)

/-- The children present, in nibble order: the source's uses of the map (its
size, the sum of the leaf counts, its one element) do not depend on the order. -/
def Children.values {α : Type} (children : Children α) : List (Child α) :=
  (List.finRange 16).filterMap children

/-- `InternalNode`: its children and the number of leaves below it. -/
structure InternalNode (α : Type) where
  children : Children α
  leafCount : Nat

/-- `LeafNode`: the key, the hash of its value, and the value's index. -/
structure LeafNode (κ α : Type) where
  accountKey : HashValue
  valueHash : α
  valueIndex : κ × Nat
  deriving DecidableEq, Repr

/-- `Node`. -/
inductive Node (κ α : Type) where
  | internal (node : InternalNode α)
  | leaf (node : LeafNode κ α)

namespace InternalNode

variable {α : Type} (H : SmtHasher α)

/-- `InternalNode::new_impl`: at least one child, and a single child is not a leaf. -/
def newImpl (children : Children α) : Except String (InternalNode α) :=
  if children.values.isEmpty then .error "Children must not be empty"
  else if children.values.length = 1 ∧ children.values.any Child.isLeaf then
    .error "If there's only one child, it must not be a leaf."
  else .ok ⟨children, (children.values.map Child.leafCount).sum⟩

/-- `InternalNode::new`: `new_impl(children).expect("Input children are logical.")`. -/
def new (children : Children α) : Except (JmtError α) (InternalNode α) :=
  match newImpl children with
  | .ok node => .ok node
  | .error e => .error (.panic ("Input children are logical.: " ++ e))

/-- `InternalNode::node_type`. -/
def nodeType (node : InternalNode α) : NodeType := .internal node.leafCount

/-- `InternalNode::child`. -/
def child (node : InternalNode α) (n : Nibble) : Option (Child α) := node.children n

/-- One child's bits in the two bitmaps. -/
def addToBitmaps (node : InternalNode α) (bitmaps : Nat × Nat) (i : Nibble) : Nat × Nat :=
  match node.children i with
  | none => bitmaps
  | some c => (bitmaps.1 ||| 1 <<< i.val, if c.isLeaf then bitmaps.2 ||| 1 <<< i.val else bitmaps.2)

/-- `InternalNode::generate_bitmaps`: bit `i` of the first is set when child `i`
exists, of the second when it is a leaf. -/
def generateBitmaps (node : InternalNode α) : Nat × Nat :=
  (List.finRange 16).foldl node.addToBitmaps (0, 0)

/-- `InternalNode::range_bitmaps`: the bits of `[start, start + width)`. The
source asserts that `width` is a power of two that divides `start` and that the
range is within sixteen bits; every call made below is of that form. -/
def rangeBitmaps (start width : Nat) (bitmaps : Nat × Nat) : Nat × Nat :=
  let mask := (((1 <<< width) - 1) <<< start) % 2 ^ 16
  (bitmaps.1 &&& mask, bitmaps.2 &&& mask)

/-- `Nibble::from`, which asserts its argument is below 16. -/
def nibbleFrom (n : Nat) : Except (JmtError α) Nibble :=
  if h : n < 16 then .ok ⟨n, h⟩ else .error (.panic "Nibble out of range")

/-- The only child of a range of the node, `trailing_zeros` of its bitmap. -/
def onlyChild (node : InternalNode α) (rangeExistenceBitmap : Nat) :
    Except (JmtError α) (Nibble × Child α) := do
  let onlyChildIndex ← nibbleFrom (trailingZeros 16 rangeExistenceBitmap)
  match node.child onlyChildIndex with
  | some c => .ok (onlyChildIndex, c)
  | none => .error (.panic
      "Corrupted internal node: existence_bitmap indicates the existence of a non-exist child")

theorem rangeBitmaps_zero_width (start : Nat) (bitmaps : Nat × Nat) :
    (rangeBitmaps start 0 bitmaps).1 = 0 := by
  simp [rangeBitmaps]

/-- `InternalNode::merkle_hash`: the root of the part `[start, start + width)` of
the node's children. -/
def merkleHash (node : InternalNode α) (start width : Nat) (bitmaps : Nat × Nat) :
    Except (JmtError α) α :=
  let range := rangeBitmaps start width bitmaps
  if h0 : range.1 = 0 then
    -- no child under this subtree
    .ok H.placeholder
  else if width = 1 ∨ (countOnes 16 range.1 = 1 ∧ range.2 ≠ 0) then do
    -- a single leaf child under this subtree, or the lowest level
    let (_, c) ← node.onlyChild range.1
    .ok c.hash
  else do
    let leftChild ← merkleHash node start (width / 2) range
    let rightChild ← merkleHash node (start + width / 2) (width / 2) range
    .ok (H.internal leftChild rightChild)
termination_by width
decreasing_by
  all_goals
    have hw : width ≠ 0 := fun hw => h0 (by
      show (rangeBitmaps start width bitmaps).1 = 0
      rw [hw]
      exact rangeBitmaps_zero_width _ _)
    omega

/-- `InternalNode::hash`. -/
def hash (node : InternalNode α) : Except (JmtError α) α :=
  node.merkleHash H 0 16 node.generateBitmaps

/-- `get_child_and_sibling_half_start`: the first nibble of the part of width
`2 ^ height` that holds `n`, and of the part beside it. -/
def getChildAndSiblingHalfStart (n : Nibble) (height : Nat) : Nat × Nat :=
  let childHalfStart := ((0xff <<< height) % 256) &&& n.val
  let siblingHalfStart := childHalfStart ^^^ (1 <<< height)
  (childHalfStart, siblingHalfStart)

/-- The loop of `InternalNode::get_child_with_siblings` over the heights from 3
down to 0: the root of the part beside `n`, then a stop if the part of `n` has
no child or a single leaf child or is one child. -/
def getChildWithSiblingsLoop (node : InternalNode α) (nodeKey : NodeKey) (n : Nibble)
    (bitmaps : Nat × Nat) : List Nat → List α → Except (JmtError α) (Option NodeKey × List α)
  | [], _ =>
    .error (.panic
      "internal error: entered unreachable code: Impossible to get here without returning even at the lowest level.")
  | h :: hs, siblings => do
    let width := 1 <<< h
    let (childHalfStart, siblingHalfStart) := getChildAndSiblingHalfStart n h
    let siblingHash ← node.merkleHash H siblingHalfStart width bitmaps
    let siblings := siblings ++ [siblingHash]
    let range := rangeBitmaps childHalfStart width bitmaps
    if range.1 = 0 then .ok (none, siblings)
    else if width = 1 ∨ (countOnes 16 range.1 = 1 ∧ range.2 ≠ 0) then do
      let (onlyChildIndex, c) ← node.onlyChild range.1
      .ok (some (nodeKey.genChildNodeKey c.version onlyChildIndex), siblings)
    else getChildWithSiblingsLoop node nodeKey n bitmaps hs siblings

/-- `InternalNode::get_child_with_siblings`: the node key of the child on the way
to `n`, if any, and the roots beside the way, top first. -/
def getChildWithSiblings (node : InternalNode α) (nodeKey : NodeKey) (n : Nibble) :
    Except (JmtError α) (Option NodeKey × List α) :=
  node.getChildWithSiblingsLoop H nodeKey n node.generateBitmaps [3, 2, 1, 0] []

end InternalNode

namespace LeafNode

variable {κ α : Type}

/-- `LeafNode::hash`. -/
def hash (H : SmtHasher α) (leaf : LeafNode κ α) : α := H.leaf leaf.accountKey leaf.valueHash

end LeafNode

namespace Node

variable {κ α : Type} (H : SmtHasher α)

/-- `Node::hash`. -/
def hash : Node κ α → Except (JmtError α) α
  | .internal node => node.hash H
  | .leaf l => .ok (l.hash H)

/-- `Node::node_type`. -/
def nodeType : Node κ α → NodeType
  | .leaf _ => .leaf
  | .internal node => node.nodeType

/-- `Node::leaf_count`. -/
def leafCount : Node κ α → Nat
  | .leaf _ => 1
  | .internal node => node.leafCount

/-- `Node::is_leaf`. -/
def isLeaf : Node κ α → Bool
  | .leaf _ => true
  | .internal _ => false

end Node

end AptosCore
