import AptosCore.Jmt.NibbleRanges
import AptosCore.Jmt.NodeProof
import AptosCore.Lib.SortedMap
import AptosCore.Lib.Outcome
import AptosCore.Storage.StatePruner

/-!
# Batch insertion into the tree

`JellyfishMerkleTree::batch_put_value_set` (`storage/jellyfish-merkle/src/lib.rs`)
sorts and deduplicates a value set and writes the nodes of the new version's tree
into a `TreeUpdateBatch`: from the root of the persisted version
(`batch_insert_at`), or from nothing (`batch_create_subtree`). Below a leaf that
the value set reaches, `batch_create_subtree_with_existing_leaf` builds the subtree
of the new keys and the existing leaf. Each internal node is built by
`InternalNode::new`, which panics on children that `new_impl` rejects.

The store is read through `TreeReader::get_node`, here a map from node keys to
nodes; the batch is the state of the run. The source spreads the children of an
internal node over threads and combines their sub-batches in order; that gives
the writes of the sequential loop modelled here.
-/

namespace AptosCore

open Pruner (StaleNodeIndex)

/-- `TreeUpdateBatch`: the nodes to write, the stale node index and the counts of
new and stale leaves. The source keeps the writes as a vector of vectors, which
`combine` concatenates; only their order matters. -/
structure TreeUpdateBatch (κ α : Type) where
  nodeBatch : List (NodeKey × Node κ α)
  staleNodeIndexBatch : List (StaleNodeIndex NodeKey)
  numNewLeaves : Nat
  numStaleLeaves : Nat

namespace TreeUpdateBatch

variable {κ α : Type}

/-- `TreeUpdateBatch::new`. -/
def new : TreeUpdateBatch κ α := ⟨[], [], 0, 0⟩

/-- `TreeUpdateBatch::put_node`. -/
def putNode (nodeKey : NodeKey) (node : Node κ α) (batch : TreeUpdateBatch κ α) : TreeUpdateBatch κ α :=
  { batch with nodeBatch := batch.nodeBatch ++ [(nodeKey, node)] }

/-- `TreeUpdateBatch::put_stale_node`. -/
def putStaleNode (nodeKey : NodeKey) (staleSinceVersion : Nat) (batch : TreeUpdateBatch κ α) :
    TreeUpdateBatch κ α :=
  { batch with staleNodeIndexBatch := batch.staleNodeIndexBatch ++ [⟨staleSinceVersion, nodeKey⟩] }

/-- `TreeUpdateBatch::inc_num_new_leaves`. -/
def incNumNewLeaves (batch : TreeUpdateBatch κ α) : TreeUpdateBatch κ α :=
  { batch with numNewLeaves := batch.numNewLeaves + 1 }

/-- `TreeUpdateBatch::inc_num_stale_leaves`. -/
def incNumStaleLeaves (batch : TreeUpdateBatch κ α) : TreeUpdateBatch κ α :=
  { batch with numStaleLeaves := batch.numStaleLeaves + 1 }

end TreeUpdateBatch

/-- A run that writes to the batch and may fail. -/
abbrev TreeM (κ α : Type) := EStateM (JmtError α) (TreeUpdateBatch κ α)

namespace JellyfishMerkleTree

variable {κ α : Type} (H : SmtHasher α) (reader : NodeKey → Option (Node κ α))
  (hashCache : Option (NibblePath → Option α))

/-- A failure of a pure computation, as a failure of the run. -/
def ofExcept {β : Type} : Except (JmtError α) β → TreeM κ α β
  | .ok b => pure b
  | .error e => throw e

/-- `TreeReader::get_node`: the node at a key, or `MissingNode`. -/
def getNode (nodeKey : NodeKey) : TreeM κ α (Node κ α) :=
  match reader nodeKey with
  | some node => pure node
  | none => throw (.missingNode nodeKey)

/-- `JellyfishMerkleTree::get_hash`: the hash from the cache, which must hold the
node's path, or the node's own hash. -/
def getHash (nodeKey : NodeKey) (node : Node κ α) : TreeM κ α α :=
  match hashCache with
  | some cache =>
    match cache nodeKey.nibblePath with
    | some hash => pure hash
    | none => throw (.panic "can not be found in hash cache")
  | none => ofExcept (node.hash H)

/-- `kvs[i]`, which panics past the end of the slice. -/
def index {β : Type} (kvs : List β) (i : Nat) : TreeM κ α β :=
  match kvs[i]? with
  | some kv => pure kv
  | none => throw (.panic "index out of bounds")

/-- `&kvs[left..=right]`, which panics unless the range is within the slice. -/
def slice {β : Type} (kvs : List β) (left right : Nat) : TreeM κ α (List β) :=
  if left ≤ right + 1 ∧ right < kvs.length then pure ((kvs.drop left).take (right + 1 - left))
  else throw (.panic "range end index out of range for slice")

/-- `HashValue::get_nibble`, whose byte index panics past the 32 bytes. -/
def getNibble (h : HashValue) (index : Nat) : TreeM κ α Nibble :=
  if index < rootNibbleHeight then pure (h.getNibble index)
  else throw (.panic "index out of bounds: the len is 32")

/-- `Node::new_leaf` of a value set entry: the key's hash, the value's hash and
the value's index `(key, version)`. -/
def newLeaf (kv : HashValue × α × κ) (version : Nat) : LeafNode κ α := ⟨kv.1, kv.2.1, (kv.2.2, version)⟩

/-- A successful `NibbleRangeIterator::new` was given a nibble of the key. -/
theorem lt_of_new_eq_ok {kvs : List (HashValue × α × κ)} {depth : Nat} {it : NibbleRangeIterator (α × κ)}
    (h : (NibbleRangeIterator.new kvs depth : Except (JmtError α) _) = .ok it) : depth < rootNibbleHeight := by
  unfold NibbleRangeIterator.new at h
  split at h
  · assumption
  · cases h

mutual

/-- `JellyfishMerkleTree::batch_create_subtree`: a leaf for one entry, and
otherwise an internal node over the subtrees of the nibble ranges at `depth`. -/
def batchCreateSubtree (nodeKey : NodeKey) (version : Nat) (kvs : List (HashValue × α × κ)) (depth : Nat) :
    TreeM κ α (NodeKey × Node κ α) :=
  if kvs.length = 1 then do
    let kv ← index kvs 0
    let newLeafNode : Node κ α := .leaf (newLeaf kv version)
    modify (TreeUpdateBatch.putNode nodeKey newLeafNode)
    modify TreeUpdateBatch.incNumNewLeaves
    pure (nodeKey, newLeafNode)
  else
    match h : (NibbleRangeIterator.new kvs depth : Except (JmtError α) _) with
    | .error e => throw e
    | .ok it => do
      let children ← batchCreateSubtreeLoop nodeKey version kvs depth (lt_of_new_eq_ok h) it.toList
        (fun _ => none)
      let newInternalNode ← ofExcept (InternalNode.new children)
      modify (TreeUpdateBatch.putNode nodeKey (.internal newInternalNode))
      pure (nodeKey, .internal newInternalNode)
termination_by (rootNibbleHeight - depth, 1, 0)
decreasing_by exact Prod.Lex.right _ (Prod.Lex.left _ _ Nat.zero_lt_one)

/-- The loop of `batch_create_subtree` over the nibble ranges left. -/
def batchCreateSubtreeLoop (nodeKey : NodeKey) (version : Nat) (kvs : List (HashValue × α × κ)) (depth : Nat)
    (hd : depth < rootNibbleHeight) : List (Nat × Nat) → Children α → TreeM κ α (Children α)
  | [], children => pure children
  | (left, right) :: ranges, children => do
    let kv ← index kvs left
    let childIndex ← getNibble kv.1 depth
    let childNodeKey := nodeKey.genChildNodeKey version childIndex
    let sub ← slice kvs left right
    let (newChildNodeKey, newChildNode) ← batchCreateSubtree childNodeKey version sub (depth + 1)
    let hash ← getHash H hashCache newChildNodeKey newChildNode
    batchCreateSubtreeLoop nodeKey version kvs depth hd ranges
      (Function.update children childIndex (some ⟨hash, version, newChildNode.nodeType⟩))
termination_by ranges => (rootNibbleHeight - depth, 0, ranges.length)
decreasing_by
  · exact Prod.Lex.left _ _ (by omega)
  · exact Prod.Lex.right _ (Prod.Lex.right _ (Nat.lt_succ_self _))

/-- `JellyfishMerkleTree::batch_create_subtree_with_existing_leaf`: the leaf
rewritten when the only entry is its key, and otherwise an internal node over the
subtrees of the nibble ranges at `depth` and the existing leaf, which goes down
with the range of its nibble or, if no range has it, becomes a child itself. -/
def batchCreateSubtreeWithExistingLeaf (nodeKey : NodeKey) (version : Nat) (existingLeafNode : LeafNode κ α)
    (kvs : List (HashValue × α × κ)) (depth : Nat) : TreeM κ α (NodeKey × Node κ α) :=
  let existingLeafKey := existingLeafNode.accountKey
  -- `kvs.len() == 1 && kvs[0].0 == existing_leaf_key`: `kvs[0]` is read only for one entry
  if kvs.length = 1 ∧ kvs.head?.map Prod.fst = some existingLeafKey then do
    let kv ← index kvs 0
    let newLeafNode : Node κ α := .leaf (newLeaf (existingLeafKey, kv.2) version)
    modify (TreeUpdateBatch.putNode nodeKey newLeafNode)
    modify TreeUpdateBatch.incNumNewLeaves
    pure (nodeKey, newLeafNode)
  else do
    let existingLeafBucket ← getNibble existingLeafKey depth
    match h : (NibbleRangeIterator.new kvs depth : Except (JmtError α) _) with
    | .error e => throw e
    | .ok it =>
      let (isolatedExistingLeaf, children) ← withExistingLeafLoop nodeKey version existingLeafNode
        existingLeafBucket kvs depth (lt_of_new_eq_ok h) it.toList (true, fun _ => none)
      let children ← if isolatedExistingLeaf then do
          let existingLeafNodeKey := nodeKey.genChildNodeKey version existingLeafBucket
          modify TreeUpdateBatch.incNumNewLeaves
          modify (TreeUpdateBatch.putNode existingLeafNodeKey (.leaf existingLeafNode))
          pure (Function.update children existingLeafBucket
            (some ⟨existingLeafNode.hash H, version, .leaf⟩))
        else pure children
      let newInternalNode ← ofExcept (InternalNode.new children)
      modify (TreeUpdateBatch.putNode nodeKey (.internal newInternalNode))
      pure (nodeKey, .internal newInternalNode)
termination_by (rootNibbleHeight - depth, 1, 0)
decreasing_by exact Prod.Lex.right _ (Prod.Lex.left _ _ Nat.zero_lt_one)

/-- The loop of `batch_create_subtree_with_existing_leaf` over the nibble ranges
left, with whether the existing leaf is still isolated. -/
def withExistingLeafLoop (nodeKey : NodeKey) (version : Nat) (existingLeafNode : LeafNode κ α)
    (existingLeafBucket : Nibble) (kvs : List (HashValue × α × κ)) (depth : Nat)
    (hd : depth < rootNibbleHeight) :
    List (Nat × Nat) → Bool × Children α → TreeM κ α (Bool × Children α)
  | [], acc => pure acc
  | (left, right) :: ranges, (isolatedExistingLeaf, children) => do
    let kv ← index kvs left
    let childIndex ← getNibble kv.1 depth
    let childNodeKey := nodeKey.genChildNodeKey version childIndex
    let sub ← slice kvs left right
    let (isolatedExistingLeaf, newChildNodeKey, newChildNode) ←
      if existingLeafBucket = childIndex then do
        let r ← batchCreateSubtreeWithExistingLeaf childNodeKey version existingLeafNode sub (depth + 1)
        pure (false, r)
      else do
        let r ← batchCreateSubtree childNodeKey version sub (depth + 1)
        pure (isolatedExistingLeaf, r)
    let hash ← getHash H hashCache newChildNodeKey newChildNode
    withExistingLeafLoop nodeKey version existingLeafNode existingLeafBucket kvs depth hd ranges
      (isolatedExistingLeaf, Function.update children childIndex (some ⟨hash, version, newChildNode.nodeType⟩))
termination_by ranges => (rootNibbleHeight - depth, 0, ranges.length)
decreasing_by
  · exact Prod.Lex.right _ (Prod.Lex.right _ (Nat.lt_succ_self _))
  -- both subtree calls one level down
  · exact Prod.Lex.left _ _ (by omega)

end

-- `insert_at_child` keeps the bound on `depth` that its recursive call needs
set_option linter.unusedVariables false in
mutual

/-- `JellyfishMerkleTree::batch_insert_at`: the node at `nodeKey` becomes stale;
an internal node is rebuilt at `version` with the children the nibble ranges at
`depth` reach updated, and a leaf is replaced by the subtree of the entries and
itself. -/
def batchInsertAt (nodeKey : NodeKey) (version : Nat) (kvs : List (HashValue × α × κ)) (depth : Nat) :
    TreeM κ α (NodeKey × Node κ α) := do
  let node ← getNode reader nodeKey
  modify (TreeUpdateBatch.putStaleNode nodeKey version)
  match node with
  | .internal internalNode =>
    match h : (NibbleRangeIterator.new kvs depth : Except (JmtError α) _) with
    | .error e => throw e
    | .ok it =>
      let newChildren ← insertAtChildLoop nodeKey internalNode version kvs depth (lt_of_new_eq_ok h) it.toList
      -- `children.extend(new_children)`
      let children := newChildren.foldl
        (fun (children : Children α) (c : Nibble × Child α) => Function.update children c.1 (some c.2))
        internalNode.children
      let newInternalNode ← ofExcept (InternalNode.new children)
      let nodeKey := nodeKey.setVersion version
      modify (TreeUpdateBatch.putNode nodeKey (.internal newInternalNode))
      pure (nodeKey, .internal newInternalNode)
  | .leaf leafNode =>
    modify TreeUpdateBatch.incNumStaleLeaves
    batchCreateSubtreeWithExistingLeaf H hashCache (nodeKey.setVersion version) version leafNode kvs depth
termination_by (rootNibbleHeight - depth, 2, 0)
decreasing_by exact Prod.Lex.right _ (Prod.Lex.left _ _ Nat.two_pos)

/-- `JellyfishMerkleTree::insert_at_child`: the child of the range
`[left, right]`, inserted into if the node has it and created otherwise. -/
def insertAtChild (nodeKey : NodeKey) (internalNode : InternalNode α) (version : Nat)
    (kvs : List (HashValue × α × κ)) (left right depth : Nat) (hd : depth < rootNibbleHeight) :
    TreeM κ α (Nibble × Child α) := do
  let kv ← index kvs left
  let childIndex ← getNibble kv.1 depth
  let sub ← slice kvs left right
  let (nodeKey, node) ← match internalNode.child childIndex with
    | some child => batchInsertAt (nodeKey.genChildNodeKey child.version childIndex) version sub (depth + 1)
    | none =>
      batchCreateSubtree H hashCache (nodeKey.genChildNodeKey version childIndex) version sub (depth + 1)
  let hash ← getHash H hashCache nodeKey node
  pure (childIndex, ⟨hash, version, node.nodeType⟩)
termination_by (rootNibbleHeight - depth, 0, 0)
decreasing_by exact Prod.Lex.left _ _ (by omega)

/-- The children of the nibble ranges left, in order. -/
def insertAtChildLoop (nodeKey : NodeKey) (internalNode : InternalNode α) (version : Nat)
    (kvs : List (HashValue × α × κ)) (depth : Nat) (hd : depth < rootNibbleHeight) :
    List (Nat × Nat) → TreeM κ α (List (Nibble × Child α))
  | [] => pure []
  | (left, right) :: ranges => do
    let c ← insertAtChild nodeKey internalNode version kvs left right depth hd
    let cs ← insertAtChildLoop nodeKey internalNode version kvs depth hd ranges
    pure (c :: cs)
termination_by ranges => (rootNibbleHeight - depth, 0, ranges.length + 1)
decreasing_by
  · exact Prod.Lex.right _ (Prod.Lex.right _ (Nat.succ_pos _))
  · exact Prod.Lex.right _ (Prod.Lex.right _ (Nat.lt_succ_self _))

end

/-- `JellyfishMerkleTree::batch_put_value_set`: the root hash of the new version
and its batch. -/
def batchPutValueSet (valueSet : List (HashValue × α × κ)) (persistedVersion : Option Nat) (version : Nat) :
    Except (JmtError α) (α × TreeUpdateBatch κ α) :=
  let dedupedAndSortedKvs := SortedMap.collect valueSet
  let run : TreeM κ α (NodeKey × Node κ α) :=
    match persistedVersion with
    | some persistedVersion =>
      batchInsertAt H reader hashCache (NodeKey.newEmptyPath persistedVersion) version dedupedAndSortedKvs 0
    | none => batchCreateSubtree H hashCache (NodeKey.newEmptyPath version) version dedupedAndSortedKvs 0
  match run TreeUpdateBatch.new with
  | .ok (_, rootNode) batch => (fun rootHash => (rootHash, batch)) <$> rootNode.hash H
  | .error e _ => .error e

/-! ## An empty value set -/

/-- No children but one. -/
theorem values_update_empty (n : Nibble) (c : Child α) :
    Children.values (Function.update (fun _ => none) n (some c)) = [c] := by
  have hnone : ∀ l : List Nibble, n ∉ l → l.filterMap (Function.update (fun _ => none) n (some c)) = [] := by
    intro l hn
    apply List.filterMap_eq_nil_iff.mpr
    intro m hm
    have hne : m ≠ n := fun h => hn (h ▸ hm)
    rw [Function.update_of_ne hne]
  have hsplit : ∀ l : List Nibble, l.Nodup → n ∈ l → l.filterMap (Function.update (fun _ => none) n (some c)) = [c] := by
    intro l
    induction l with
    | nil => intro _ h; cases h
    | cons m l ih =>
      intro hnodup hmem
      rw [List.nodup_cons] at hnodup
      by_cases hm : m = n
      · subst hm
        rw [List.filterMap_cons, Function.update_self, hnone l hnodup.1]
      · rw [List.filterMap_cons, Function.update_of_ne hm]
        exact ih hnodup.2 ((List.mem_cons.mp hmem).resolve_left (Ne.symm hm))
  exact hsplit _ (List.nodup_finRange 16) (List.mem_finRange n)

/-- The ranges of no entries. -/
theorem toList_new_nil {depth : Nat} (hd : depth < rootNibbleHeight) :
    ∃ it, (NibbleRangeIterator.new ([] : List (HashValue × α × κ)) depth : Except (JmtError α) _) = .ok it ∧
      it.toList = [] :=
  ⟨_, by rw [NibbleRangeIterator.new, if_pos hd],
    NibbleRangeIterator.toList_of_next_none (NibbleRangeIterator.next_eq_none (Nat.zero_le _))⟩

/-- No children. -/
theorem values_empty : Children.values (fun _ => none : Children α) = [] :=
  List.filterMap_eq_nil_iff.mpr fun _ _ => rfl

/-- `InternalNode::new` of no children panics. -/
theorem new_empty : (InternalNode.new (fun _ => none : Children α)) =
    .error (.panic "Input children are logical.: Children must not be empty") := by
  simp [InternalNode.new, InternalNode.newImpl, values_empty]

/-- `InternalNode::new` of a single leaf child panics. -/
theorem new_single_leaf (n : Nibble) (c : Child α) (hc : c.isLeaf = true) :
    (InternalNode.new (Function.update (fun _ => none) n (some c))) =
      .error (.panic "Input children are logical.: If there's only one child, it must not be a leaf.") := by
  simp [InternalNode.new, InternalNode.newImpl, values_update_empty, hc]

/-- With no entries, `batch_create_subtree` builds an internal node with no
children, and `InternalNode::new` panics. -/
theorem batchCreateSubtree_nil (nodeKey : NodeKey) (version : Nat) :
    batchCreateSubtree H hashCache nodeKey version ([] : List (HashValue × α × κ)) 0 =
      throw (.panic "Input children are logical.: Children must not be empty") := by
  obtain ⟨it, hnew, hlist⟩ := toList_new_nil (α := α) (κ := κ) (show 0 < rootNibbleHeight by decide)
  rw [batchCreateSubtree, if_neg (by simp)]
  split
  · rename_i h
    rw [hnew] at h
    cases h
  · rename_i it' h
    rw [hnew] at h
    cases h
    simp only [hlist, batchCreateSubtreeLoop, pure_bind, new_empty, ofExcept]
    -- a failure ends the run
    rfl

/-- With no entries below an existing leaf, the leaf is isolated and becomes the
only child of a new internal node, and `InternalNode::new` panics. -/
theorem batchCreateSubtreeWithExistingLeaf_nil (nodeKey : NodeKey) (version : Nat) (leaf : LeafNode κ α) :
    batchCreateSubtreeWithExistingLeaf H hashCache nodeKey version leaf ([] : List (HashValue × α × κ)) 0 =
      (do
        modify TreeUpdateBatch.incNumNewLeaves
        modify (TreeUpdateBatch.putNode (nodeKey.genChildNodeKey version (leaf.accountKey.getNibble 0))
          (.leaf leaf))
        throw (.panic "Input children are logical.: If there's only one child, it must not be a leaf.")) := by
  obtain ⟨it, hnew, hlist⟩ := toList_new_nil (α := α) (κ := κ) (show 0 < rootNibbleHeight by decide)
  rw [batchCreateSubtreeWithExistingLeaf, if_neg (by simp)]
  simp only [getNibble, if_pos (show 0 < rootNibbleHeight by decide), pure_bind]
  split
  · rename_i h
    rw [hnew] at h
    cases h
  · rename_i it' h
    rw [hnew] at h
    cases h
    have hleaf : (⟨leaf.hash H, version, .leaf⟩ : Child α).isLeaf = true := rfl
    simp only [hlist, withExistingLeafLoop, pure_bind, if_true, new_single_leaf _ _ hleaf, ofExcept]
    -- a failure ends the run
    rfl

/-- `batch_put_value_set` of an empty value set panics, for every store, hash
cache and version, when there is no persisted version and when the persisted
version's root is a leaf. -/
theorem empty_value_set_panics (version : Nat) :
    batchPutValueSet H reader hashCache [] none version =
        .error (.panic "Input children are logical.: Children must not be empty") ∧
      ∀ persistedVersion leaf, reader (NodeKey.newEmptyPath persistedVersion) = some (.leaf leaf) →
        batchPutValueSet H reader hashCache [] (some persistedVersion) version =
          .error (.panic "Input children are logical.: If there's only one child, it must not be a leaf.") := by
  refine ⟨?_, fun persistedVersion leaf hroot => ?_⟩
  · simp only [batchPutValueSet, SortedMap.collect, List.foldl_nil, batchCreateSubtree_nil]
    rfl
  · simp only [batchPutValueSet, SortedMap.collect, List.foldl_nil]
    rw [batchInsertAt]
    simp only [getNode, hroot, pure_bind, batchCreateSubtreeWithExistingLeaf_nil]
    rfl

/-! ## Paths and the entries under them -/

@[simp] theorem length_nibblePath (h : HashValue) : h.nibblePath.length = rootNibbleHeight := by
  simp [HashValue.nibblePath]

/-- A path that starts a key's nibbles gives its nibbles. -/
theorem getNibble_eq_getElem_of_isPrefix {path : NibblePath} {h : HashValue} (hpath : path <+: h.nibblePath) {i : Nat}
    (hi : i < path.length) : h.getNibble i = path[i] := by
  rw [hpath.getElem hi]
  simp [HashValue.nibblePath]

/-- A path and one more nibble start a key's nibbles when the path does and the
key's next nibble is that one. -/
theorem append_singleton_prefix_iff {path : NibblePath} {h : HashValue} {n : Nibble}
    (hlen : path.length < rootNibbleHeight) :
    path ++ [n] <+: h.nibblePath ↔ path <+: h.nibblePath ∧ h.getNibble path.length = n := by
  have htake : h.nibblePath.take (path.length + 1) = h.nibblePath.take path.length ++ [h.getNibble path.length] := by
    rw [List.take_add_one, List.getElem?_eq_getElem (by simpa using hlen)]
    simp [HashValue.nibblePath]
  have htakeLen : (h.nibblePath.take path.length).length = path.length := by
    simp only [List.length_take, length_nibblePath]
    omega
  rw [List.prefix_iff_eq_take, List.prefix_iff_eq_take, List.length_append, List.length_singleton, htake]
  constructor
  · intro heq
    obtain ⟨hpath, hn⟩ := List.append_inj heq htakeLen.symm
    exact ⟨hpath, (List.singleton_inj.mp hn).symm⟩
  · rintro ⟨hpath, rfl⟩
    rw [← hpath]

/-- Two keys that start with one path of all 64 nibbles are equal. -/
theorem eq_of_full_isPrefix {path : NibblePath} (hlen : rootNibbleHeight ≤ path.length) {a b : HashValue}
    (ha : path <+: a.nibblePath) (hb : path <+: b.nibblePath) : a = b := by
  apply HashValue.eq_of_getNibble_eq
  intro i hi
  have hi' : i < path.length := lt_of_lt_of_le hi hlen
  rw [getNibble_eq_getElem_of_isPrefix ha hi', getNibble_eq_getElem_of_isPrefix hb hi']

/-- Entries for the subtree at `path`: sorted by key without repeats, every key
starting with `path`. -/
def EntriesAt {β : Type} (path : NibblePath) (kvs : List (HashValue × β)) : Prop :=
  kvs.Pairwise (fun a b => a.1 < b.1) ∧ ∀ kv ∈ kvs, path <+: kv.1.nibblePath

/-- Entries under one path of all 64 nibbles are at most one. -/
theorem length_le_one_of_entriesAt {β : Type} {path : NibblePath} {kvs : List (HashValue × β)}
    (hkvs : EntriesAt path kvs) (hlen : rootNibbleHeight ≤ path.length) : kvs.length ≤ 1 := by
  match kvs, hkvs with
  | [], _ => simp
  | [_], _ => simp
  | a :: b :: _, ⟨hsorted, hpath⟩ =>
    have hab := List.rel_of_pairwise_cons hsorted List.mem_cons_self
    have heq := eq_of_full_isPrefix hlen (hpath a List.mem_cons_self) (hpath b (List.mem_cons_of_mem _ List.mem_cons_self))
    exact absurd (heq ▸ hab) (lt_irrefl _)

/-- The entries of an inclusive range that is one run of the nibble after `path`
are the entries under `path` and that nibble. -/
theorem entriesAt_slice {β : Type} {path : NibblePath} {kvs : List (HashValue × β)} (hkvs : EntriesAt path kvs)
    (hd : path.length < rootNibbleHeight) {l r : Nat} (hl : l < kvs.length)
    (hrun : ∀ k, l ≤ k → k ≤ r →
      NibbleRangeIterator.nibbleAt kvs path.length k = NibbleRangeIterator.nibbleAt kvs path.length l) :
    EntriesAt (path ++ [kvs[l].1.getNibble path.length]) ((kvs.drop l).take (r + 1 - l)) := by
  refine ⟨hkvs.1.sublist ((List.take_sublist _ _).trans (List.drop_sublist _ _)), fun kv hkv => ?_⟩
  obtain ⟨j, hj, rfl⟩ := List.mem_iff_getElem.mp hkv
  simp only [List.length_take, List.length_drop] at hj
  have hk : l + j < kvs.length := by omega
  rw [List.getElem_take, List.getElem_drop, append_singleton_prefix_iff hd]
  refine ⟨hkvs.2 _ (List.getElem_mem hk), Fin.ext ?_⟩
  -- the entry has the nibble of the range's first
  have hnib := hrun (l + j) (by omega) (by omega)
  simp only [NibbleRangeIterator.nibbleAt, List.getElem?_eq_getElem hk, List.getElem?_eq_getElem hl,
    Option.map_some, Option.some.injEq] at hnib
  rw [HashValue.getNibble_eq_nibble, HashValue.getNibble_eq_nibble, hnib]

/-- The ranges of entries under a path: each a nonempty run of the next nibble
whose entries are under the path and that nibble, the nibbles all different, none
for no entries, and one range for all of them when there is one. -/
theorem entriesAt_ranges {β : Type} {path : NibblePath} {kvs : List (HashValue × β)} (hkvs : EntriesAt path kvs)
    (hd : path.length < rootNibbleHeight) :
    (∀ range ∈ (⟨kvs, path.length, 0⟩ : NibbleRangeIterator β).toList,
        ∃ hl : range.1 < kvs.length, range.1 ≤ range.2 ∧ range.2 < kvs.length ∧
          EntriesAt (path ++ [kvs[range.1].1.getNibble path.length])
            ((kvs.drop range.1).take (range.2 + 1 - range.1))) ∧
      (⟨kvs, path.length, 0⟩ : NibbleRangeIterator β).toList.Pairwise (fun a b =>
        NibbleRangeIterator.nibbleAt kvs path.length a.1 ≠ NibbleRangeIterator.nibbleAt kvs path.length b.1) ∧
      (kvs ≠ [] → (⟨kvs, path.length, 0⟩ : NibbleRangeIterator β).toList ≠ []) ∧
      ∀ range, (⟨kvs, path.length, 0⟩ : NibbleRangeIterator β).toList = [range] →
        (kvs.drop range.1).take (range.2 + 1 - range.1) = kvs := by
  have hshared : ∀ a ∈ kvs, ∀ b ∈ kvs, ∀ i, i < path.length → a.1.getNibble i = b.1.getNibble i :=
    fun a ha b hb i hi => by rw [getNibble_eq_getElem_of_isPrefix (hkvs.2 a ha) hi, getNibble_eq_getElem_of_isPrefix (hkvs.2 b hb) hi]
  obtain ⟨hruns, hne, hnil, hone⟩ :=
    NibbleRangeIterator.toList_new_spec (hkvs.1.imp le_of_lt) hd hshared
  refine ⟨fun range hmem => ?_, hne, hnil, fun range h => ?_⟩
  · obtain ⟨hle, hlt, hrun⟩ := hruns range hmem
    exact ⟨by omega, hle, hlt, entriesAt_slice hkvs hd (by omega) hrun.1⟩
  · obtain ⟨hle, hlt, -⟩ := hruns range (h ▸ List.mem_singleton_self range)
    rw [hone range h] at hlt ⊢
    simp only [List.drop_zero, Nat.sub_zero]
    exact List.take_of_length_le (by omega)

/-! ## Well-formed stores and the writes of a call -/

/-- A store of nodes, as `TreeReader::get_node` reads it. -/
abbrev Store (κ α : Type) := NodeKey → Option (Node κ α)

/-- The store after writing nodes in order, the last write of a key winning. -/
def writeNodes (nodes : List (NodeKey × Node κ α)) (store : Store κ α) : Store κ α :=
  nodes.foldl (fun store kn => Function.update store kn.1 (some kn.2)) store

theorem writeNodes_of_not_mem : ∀ {nodes : List (NodeKey × Node κ α)} {store : Store κ α} {k : NodeKey},
    k ∉ nodes.map Prod.fst → writeNodes nodes store k = store k
  | [], _, _, _ => rfl
  | kn :: nodes, store, k, h => by
    rw [List.map_cons, List.mem_cons, not_or] at h
    rw [writeNodes, List.foldl_cons, ← writeNodes, writeNodes_of_not_mem h.2, Function.update_of_ne h.1]

/-- Each of writes to distinct keys is in the store after them. -/
theorem writeNodes_of_mem : ∀ {nodes : List (NodeKey × Node κ α)} {store : Store κ α} {kn : NodeKey × Node κ α},
    (nodes.map Prod.fst).Nodup → kn ∈ nodes → writeNodes nodes store kn.1 = some kn.2
  | [], _, _, _, h => absurd h List.not_mem_nil
  | kn' :: nodes, store, kn, hnodup, hmem => by
    rw [List.map_cons, List.nodup_cons] at hnodup
    rw [writeNodes, List.foldl_cons, ← writeNodes]
    rcases List.mem_cons.mp hmem with rfl | hmem
    · rw [writeNodes_of_not_mem hnodup.1, Function.update_self]
    · exact writeNodes_of_mem hnodup.2 hmem

/-- A node is well formed at its key in a store: an internal node is one that
`new_impl` builds, above the last nibble, with each child in the store at its key
and of the type the node records; a leaf's key starts with the leaf's path. -/
def NodeOk (store : Store κ α) (k : NodeKey) : Node κ α → Prop
  | .internal node => InternalNode.newImpl node.children = .ok node ∧ k.nibblePath.length < rootNibbleHeight ∧
      ∀ i c, node.children i = some c → ∃ n, store (k.genChildNodeKey c.version i) = some n ∧ n.isLeaf = c.isLeaf
  | .leaf leaf => k.nibblePath <+: leaf.accountKey.nibblePath

/-- The writes of a call that builds the subtree at `path` at `version`: keys of
that version under `path`, each written once, and nodes well formed in any store
that holds them and agrees with `R` on the older versions. -/
structure WritesOk (R : Store κ α) (version : Nat) (path : NibblePath) (W : List (NodeKey × Node κ α)) :
    Prop where
  nodup : (W.map Prod.fst).Nodup
  under : ∀ kn ∈ W, kn.1.version = version ∧ path <+: kn.1.nibblePath
  nodeOk : ∀ store : Store κ α, (∀ kn ∈ W, store kn.1 = some kn.2) →
    (∀ k, k.version < version → store k = R k) → ∀ kn ∈ W, NodeOk store kn.1 kn.2

namespace WritesOk

variable {R : Store κ α} {version : Nat} {path : NibblePath}

theorem nil : WritesOk R version path [] :=
  ⟨List.nodup_nil, fun _ h => absurd h List.not_mem_nil, fun _ _ _ _ h => absurd h List.not_mem_nil⟩

/-- Writes under a longer path are under the shorter one. -/
theorem of_append {W : List (NodeKey × Node κ α)} {n : Nibble} (h : WritesOk R version (path ++ [n]) W) :
    WritesOk R version path W :=
  ⟨h.nodup, fun kn hkn => ⟨(h.under kn hkn).1, (List.prefix_append path [n]).trans (h.under kn hkn).2⟩, h.nodeOk⟩

/-- Writes to keys apart from each other join. -/
theorem append {W₁ W₂ : List (NodeKey × Node κ α)} (h₁ : WritesOk R version path W₁)
    (h₂ : WritesOk R version path W₂) (hdisj : ∀ kn ∈ W₁, ∀ kn' ∈ W₂, kn.1 ≠ kn'.1) :
    WritesOk R version path (W₁ ++ W₂) := by
  refine ⟨?_, fun kn hkn => ?_, fun store hstore hR kn hkn => ?_⟩
  · rw [List.map_append, List.nodup_append]
    refine ⟨h₁.nodup, h₂.nodup, ?_⟩
    intro a ha b hb hab
    obtain ⟨kn, hkn, rfl⟩ := List.mem_map.mp ha
    obtain ⟨kn', hkn', rfl⟩ := List.mem_map.mp hb
    exact hdisj kn hkn kn' hkn' hab
  · rcases List.mem_append.mp hkn with hkn | hkn
    · exact h₁.under kn hkn
    · exact h₂.under kn hkn
  · rcases List.mem_append.mp hkn with hkn | hkn
    · exact h₁.nodeOk store (fun kn h => hstore kn (List.mem_append_left _ h)) hR kn hkn
    · exact h₂.nodeOk store (fun kn h => hstore kn (List.mem_append_right _ h)) hR kn hkn

/-- Writes under two different nibbles after one path are to different keys. -/
theorem disjoint {W₁ W₂ : List (NodeKey × Node κ α)} {i j : Nibble}
    (h₁ : WritesOk R version (path ++ [i]) W₁) (h₂ : WritesOk R version (path ++ [j]) W₂) (hij : i ≠ j) :
    ∀ kn ∈ W₁, ∀ kn' ∈ W₂, kn.1 ≠ kn'.1 := by
  intro kn hkn kn' hkn' heq
  have hp₁ := (h₁.under kn hkn).2
  have hp₂ := (h₂.under kn' hkn').2
  rw [← heq] at hp₂
  have hsame : path ++ [i] = path ++ [j] :=
    (List.prefix_of_prefix_length_le hp₁ hp₂ (by simp)).eq_of_length (by simp)
  exact hij (List.singleton_inj.mp (List.append_cancel_left hsame))

/-- Writes under a path and one more nibble are not to the path's own key. -/
theorem ne_self {W : List (NodeKey × Node κ α)} {n : Nibble} (h : WritesOk R version (path ++ [n]) W) :
    ∀ kn ∈ W, kn.1 ≠ ⟨version, path⟩ := by
  intro kn hkn heq
  have hlen := (h.under kn hkn).2.length_le
  rw [heq] at hlen
  simp at hlen

/-- A node written after the writes below it, at a key they do not write. -/
theorem snoc {W : List (NodeKey × Node κ α)} {k : NodeKey} {node : Node κ α} (hW : WritesOk R version k.nibblePath W)
    (hk : k.version = version) (hne : ∀ kn ∈ W, kn.1 ≠ k)
    (hnode : ∀ store : Store κ α, (∀ kn ∈ W ++ [(k, node)], store kn.1 = some kn.2) →
      (∀ k', k'.version < version → store k' = R k') → NodeOk store k node) :
    WritesOk R version k.nibblePath (W ++ [(k, node)]) := by
  refine ⟨?_, fun kn hkn => ?_, fun store hstore hR kn hkn => ?_⟩
  · rw [List.map_append, List.nodup_append]
    refine ⟨hW.nodup, List.nodup_singleton _, fun a ha b hb hab => ?_⟩
    obtain ⟨kn, hkn, rfl⟩ := List.mem_map.mp ha
    rw [List.map_singleton, List.mem_singleton] at hb
    exact hne kn hkn (hab.trans hb)
  · rcases List.mem_append.mp hkn with hkn | hkn
    · exact hW.under kn hkn
    · rw [List.mem_singleton] at hkn
      subst hkn
      exact ⟨hk, List.prefix_refl _⟩
  · rcases List.mem_append.mp hkn with hkn | hkn
    · exact hW.nodeOk store (fun kn h => hstore kn (List.mem_append_left _ h)) hR kn hkn
    · rw [List.mem_singleton] at hkn
      subst hkn
      exact hnode store hstore hR

end WritesOk

/-! ## The steps of a run that does not fail -/

theorem index_of_lt {β : Type} {kvs : List β} {i : Nat} (hi : i < kvs.length) :
    (index kvs i : TreeM κ α β) = pure kvs[i] := by
  rw [index, List.getElem?_eq_getElem hi]

theorem getNibble_of_lt {h : HashValue} {i : Nat} (hi : i < rootNibbleHeight) :
    (getNibble h i : TreeM κ α Nibble) = pure (h.getNibble i) := by
  rw [getNibble, if_pos hi]

theorem slice_of_le {β : Type} {kvs : List β} {l r : Nat} (hle : l ≤ r) (hr : r < kvs.length) :
    (slice kvs l r : TreeM κ α (List β)) = pure ((kvs.drop l).take (r + 1 - l)) := by
  rw [slice, if_pos ⟨by omega, hr⟩]

/-- A node's hash does not fail. -/
theorem Node.hash_ok (node : Node κ α) : ∃ hash, node.hash H = .ok hash := by
  cases node with
  | internal node => exact node.merkleHash_ok H 4 0
  | leaf leaf => exact ⟨_, rfl⟩

/-- Without a hash cache, `get_hash` is the node's hash. -/
theorem getHash_none (nodeKey : NodeKey) (node : Node κ α) :
    ∃ hash, getHash H none nodeKey node = (pure hash : TreeM κ α α) := by
  obtain ⟨hash, h⟩ := Node.hash_ok H node
  exact ⟨hash, by rw [getHash, h]; rfl⟩

/-- The child a new node records for a node it built. -/
@[simp] theorem isLeaf_child (hash : α) (version : Nat) (node : Node κ α) :
    (⟨hash, version, node.nodeType⟩ : Child α).isLeaf = node.isLeaf := by
  cases node <;> rfl

/-- Children with two set nibbles have two values. -/
theorem two_le_length_values {children : Children α} {i j : Nibble} (hi : (children i).isSome)
    (hj : (children j).isSome) (hij : i ≠ j) : 2 ≤ children.values.length := by
  rw [Children.values, List.length_filterMap_eq_countP, List.countP_eq_length_filter]
  exact two_le_length_of_mem_of_ne (List.mem_filter.mpr ⟨List.mem_finRange i, hi⟩)
    (List.mem_filter.mpr ⟨List.mem_finRange j, hj⟩) hij

/-- `new_impl` accepts children with a child that is not a leaf or has another
beside it. -/
theorem newImpl_eq_ok {children : Children α} {i : Nibble} {c : Child α} (hi : children i = some c)
    (hlone : c.isLeaf = true → ∃ j, j ≠ i ∧ (children j).isSome) :
    InternalNode.newImpl children = .ok ⟨children, (children.values.map Child.leafCount).sum⟩ := by
  have hmem : c ∈ children.values := List.mem_filterMap.mpr ⟨i, List.mem_finRange i, hi⟩
  have hne : children.values.isEmpty = false := by
    cases h : children.values with
    | nil => rw [h] at hmem; cases hmem
    | cons _ _ => rfl
  rw [InternalNode.newImpl, if_neg (by simp [hne]), if_neg]
  rintro ⟨hone, hleaf⟩
  obtain ⟨x, hx⟩ := List.length_eq_one_iff.mp hone
  rw [hx, List.mem_singleton] at hmem
  subst hmem
  rw [hx, List.any_cons, List.any_nil, Bool.or_false] at hleaf
  obtain ⟨j, hji, hj⟩ := hlone hleaf
  have := two_le_length_values (by rw [hi]; rfl) hj (Ne.symm hji)
  omega

/-- The nibble at `depth` of the first entry of a range: the child the range goes to. -/
def rangeNibble {β : Type} (kvs : List (HashValue × β)) (depth : Nat) (range : Nat × Nat) : Nibble :=
  match kvs[range.1]? with
  | some kv => kv.1.getNibble depth
  | none => 0

/-- The entries of an inclusive range. -/
def rangeSlice {β : Type} (kvs : List β) (range : Nat × Nat) : List β :=
  (kvs.drop range.1).take (range.2 + 1 - range.1)

theorem rangeNibble_of_lt {β : Type} {kvs : List (HashValue × β)} {depth : Nat} {range : Nat × Nat}
    (h : range.1 < kvs.length) : rangeNibble kvs depth range = kvs[range.1].1.getNibble depth := by
  rw [rangeNibble, List.getElem?_eq_getElem h]

/-- Ranges with different nibbles go to different children. -/
theorem rangeNibble_ne {β : Type} {kvs : List (HashValue × β)} {depth : Nat} {a b : Nat × Nat}
    (ha : a.1 < kvs.length) (hb : b.1 < kvs.length)
    (hne : NibbleRangeIterator.nibbleAt kvs depth a.1 ≠ NibbleRangeIterator.nibbleAt kvs depth b.1) :
    rangeNibble kvs depth a ≠ rangeNibble kvs depth b := by
  rw [rangeNibble_of_lt ha, rangeNibble_of_lt hb]
  intro heq
  apply hne
  simp only [NibbleRangeIterator.nibbleAt, List.getElem?_eq_getElem ha, List.getElem?_eq_getElem hb,
    Option.map_some, ← HashValue.getNibble_eq_nibble, heq]

section Steps

variable {nodeKey : NodeKey} {version depth : Nat} {kvs : List (HashValue × α × κ)}

/-- `batch_create_subtree` of one entry writes its leaf. -/
theorem batchCreateSubtree_of_one (hlen : kvs.length = 1) :
    batchCreateSubtree H hashCache nodeKey version kvs depth = (do
      modify (TreeUpdateBatch.putNode nodeKey (.leaf (newLeaf kvs[0] version)))
      modify TreeUpdateBatch.incNumNewLeaves
      pure (nodeKey, .leaf (newLeaf kvs[0] version))) := by
  rw [batchCreateSubtree, if_pos hlen, index_of_lt (by omega), pure_bind]

/-- `batch_create_subtree` of other entries above the last nibble builds an
internal node over the subtrees of the ranges. -/
theorem batchCreateSubtree_of_ne_one (hlen : kvs.length ≠ 1) (hd : depth < rootNibbleHeight) :
    batchCreateSubtree H hashCache nodeKey version kvs depth = (do
      let children ← batchCreateSubtreeLoop H hashCache nodeKey version kvs depth hd
        (⟨kvs, depth, 0⟩ : NibbleRangeIterator (α × κ)).toList (fun _ => none)
      let newInternalNode ← ofExcept (InternalNode.new children)
      modify (TreeUpdateBatch.putNode nodeKey (.internal newInternalNode))
      pure (nodeKey, .internal newInternalNode)) := by
  rw [batchCreateSubtree, if_neg hlen]
  split
  · rename_i h
    rw [NibbleRangeIterator.new, if_pos hd] at h
    cases h
  · rename_i it h
    rw [NibbleRangeIterator.new, if_pos hd] at h
    cases h
    rfl

/-- A step of the loop of `batch_create_subtree` over a range within the entries. -/
theorem batchCreateSubtreeLoop_cons (hd : depth < rootNibbleHeight) {l r : Nat} (hl : l < kvs.length)
    (hle : l ≤ r) (hr : r < kvs.length) (ranges : List (Nat × Nat)) (children : Children α) :
    batchCreateSubtreeLoop H hashCache nodeKey version kvs depth hd ((l, r) :: ranges) children = (do
      let (newChildNodeKey, newChildNode) ← batchCreateSubtree H hashCache
        (nodeKey.genChildNodeKey version (rangeNibble kvs depth (l, r))) version (rangeSlice kvs (l, r)) (depth + 1)
      let hash ← getHash H hashCache newChildNodeKey newChildNode
      batchCreateSubtreeLoop H hashCache nodeKey version kvs depth hd ranges
        (Function.update children (rangeNibble kvs depth (l, r)) (some ⟨hash, version, newChildNode.nodeType⟩))) := by
  rw [batchCreateSubtreeLoop, index_of_lt hl, pure_bind, getNibble_of_lt hd, pure_bind, slice_of_le hle hr,
    pure_bind, rangeNibble_of_lt hl]
  rfl

/-- `batch_create_subtree_with_existing_leaf` of one entry for the leaf's own key
rewrites the leaf. -/
theorem batchCreateSubtreeWithExistingLeaf_of_same {leaf : LeafNode κ α}
    (h : kvs.length = 1 ∧ kvs.head?.map Prod.fst = some leaf.accountKey) :
    batchCreateSubtreeWithExistingLeaf H hashCache nodeKey version leaf kvs depth = (do
      modify (TreeUpdateBatch.putNode nodeKey (.leaf (newLeaf (leaf.accountKey, kvs[0].2) version)))
      modify TreeUpdateBatch.incNumNewLeaves
      pure (nodeKey, .leaf (newLeaf (leaf.accountKey, kvs[0].2) version))) := by
  rw [batchCreateSubtreeWithExistingLeaf]
  dsimp only
  rw [if_pos h, index_of_lt (by omega), pure_bind]

/-- `batch_create_subtree_with_existing_leaf` of other entries above the last
nibble builds an internal node over the subtrees of the ranges and the leaf. -/
theorem batchCreateSubtreeWithExistingLeaf_of_ne {leaf : LeafNode κ α}
    (h : ¬(kvs.length = 1 ∧ kvs.head?.map Prod.fst = some leaf.accountKey)) (hd : depth < rootNibbleHeight) :
    batchCreateSubtreeWithExistingLeaf H hashCache nodeKey version leaf kvs depth = (do
      let (isolatedExistingLeaf, children) ← withExistingLeafLoop H hashCache nodeKey version leaf
        (leaf.accountKey.getNibble depth) kvs depth hd (⟨kvs, depth, 0⟩ : NibbleRangeIterator (α × κ)).toList
        (true, fun _ => none)
      let children ← if isolatedExistingLeaf then do
          modify TreeUpdateBatch.incNumNewLeaves
          modify (TreeUpdateBatch.putNode (nodeKey.genChildNodeKey version (leaf.accountKey.getNibble depth))
            (.leaf leaf))
          pure (Function.update children (leaf.accountKey.getNibble depth)
            (some ⟨leaf.hash H, version, .leaf⟩))
        else pure children
      let newInternalNode ← ofExcept (InternalNode.new children)
      modify (TreeUpdateBatch.putNode nodeKey (.internal newInternalNode))
      pure (nodeKey, .internal newInternalNode)) := by
  rw [batchCreateSubtreeWithExistingLeaf]
  dsimp only
  rw [if_neg h, getNibble_of_lt hd, pure_bind]
  split
  · rename_i e h
    rw [NibbleRangeIterator.new, if_pos hd] at h
    cases h
  · rename_i it h
    rw [NibbleRangeIterator.new, if_pos hd] at h
    cases h
    rfl

/-- A step of the loop of `batch_create_subtree_with_existing_leaf` over a range
within the entries: the range of the leaf's nibble goes down with the leaf. -/
theorem withExistingLeafLoop_cons {leaf : LeafNode κ α} {bucket : Nibble} (hd : depth < rootNibbleHeight)
    {l r : Nat} (hl : l < kvs.length) (hle : l ≤ r) (hr : r < kvs.length) (ranges : List (Nat × Nat))
    (isolated : Bool) (children : Children α) :
    withExistingLeafLoop H hashCache nodeKey version leaf bucket kvs depth hd ((l, r) :: ranges)
        (isolated, children) = (do
      let (isolated, newChildNodeKey, newChildNode) ←
        if bucket = rangeNibble kvs depth (l, r) then do
          let res ← batchCreateSubtreeWithExistingLeaf H hashCache
            (nodeKey.genChildNodeKey version (rangeNibble kvs depth (l, r))) version leaf (rangeSlice kvs (l, r))
            (depth + 1)
          pure (false, res)
        else do
          let res ← batchCreateSubtree H hashCache (nodeKey.genChildNodeKey version (rangeNibble kvs depth (l, r)))
            version (rangeSlice kvs (l, r)) (depth + 1)
          pure (isolated, res)
      let hash ← getHash H hashCache newChildNodeKey newChildNode
      withExistingLeafLoop H hashCache nodeKey version leaf bucket kvs depth hd ranges
        (isolated, Function.update children (rangeNibble kvs depth (l, r))
          (some ⟨hash, version, newChildNode.nodeType⟩))) := by
  rw [withExistingLeafLoop, index_of_lt hl, pure_bind, getNibble_of_lt hd, pure_bind, slice_of_le hle hr,
    pure_bind, rangeNibble_of_lt hl]
  rfl

end Steps

/-! ## Building a subtree -/

/-- A run that builds the subtree at the key `k` of `version` from a batch: it
returns the node at `k`, and its writes after those already in the batch are those
of the subtree, the node among them. -/
def Builds (R : Store κ α) (version : Nat) (k : NodeKey) (run : TreeM κ α (NodeKey × Node κ α))
    (b : TreeUpdateBatch κ α) (P : Node κ α → Prop) : Prop :=
  ∃ node b' W, run b = .ok (k, node) b' ∧ b'.nodeBatch = b.nodeBatch ++ W ∧
    WritesOk R version k.nibblePath W ∧ (k, node) ∈ W ∧ P node

/-- Keys under a path and two different nibbles differ. -/
theorem key_ne_of_prefix {path : NibblePath} {i j : Nibble} {k k' : NodeKey}
    (hk : path ++ [i] <+: k.nibblePath) (hk' : path ++ [j] <+: k'.nibblePath) (hij : i ≠ j) : k ≠ k' := by
  rintro rfl
  have hsame : path ++ [i] = path ++ [j] :=
    (List.prefix_of_prefix_length_le hk hk' (by simp)).eq_of_length (by simp)
  exact hij (List.singleton_inj.mp (List.append_cancel_left hsame))

/-- The ranges a loop goes over: each a nonempty range of the entries, whose
entries are under the path and the range's nibble, the nibbles all different. -/
def RangesOk {β : Type} (path : NibblePath) (kvs : List (HashValue × β)) (ranges : List (Nat × Nat)) : Prop :=
  (∀ range ∈ ranges, range.1 ≤ range.2 ∧ range.2 < kvs.length ∧
      EntriesAt (path ++ [rangeNibble kvs path.length range]) (rangeSlice kvs range)) ∧
    ranges.Pairwise fun a b => rangeNibble kvs path.length a ≠ rangeNibble kvs path.length b

theorem RangesOk.tail {β : Type} {path : NibblePath} {kvs : List (HashValue × β)} {range : Nat × Nat}
    {ranges : List (Nat × Nat)} (h : RangesOk path kvs (range :: ranges)) : RangesOk path kvs ranges :=
  ⟨fun r hr => h.1 r (List.mem_cons_of_mem _ hr), (List.pairwise_cons.mp h.2).2⟩

/-- The ranges of entries under a path are fit for the loops. -/
theorem rangesOk_toList {β : Type} {path : NibblePath} {kvs : List (HashValue × β)} (hkvs : EntriesAt path kvs)
    (hd : path.length < rootNibbleHeight) :
    RangesOk path kvs (⟨kvs, path.length, 0⟩ : NibbleRangeIterator β).toList := by
  obtain ⟨hranges, hne, -, -⟩ := entriesAt_ranges hkvs hd
  refine ⟨fun range hmem => ?_, hne.imp_of_mem fun ha hb h => ?_⟩
  · obtain ⟨hl, hle, hlt, hentries⟩ := hranges range hmem
    exact ⟨hle, hlt, by rwa [rangeNibble_of_lt hl]⟩
  · exact rangeNibble_ne (hranges _ ha).1 (hranges _ hb).1 h

/-- A range of the loops has entries. -/
theorem rangeSlice_ne_nil {β : Type} {kvs : List β} {range : Nat × Nat} (hle : range.1 ≤ range.2)
    (hr : range.2 < kvs.length) : rangeSlice kvs range ≠ [] := by
  rw [rangeSlice, ← List.length_pos_iff, List.length_take, List.length_drop]
  omega

section Loops

variable {R : Store κ α} {version : Nat} {kvs : List (HashValue × α × κ)}

/-- What the loops over ranges below the key `k` leave: their writes are those of
the subtrees of the ranges, the children of the ranges' nibbles are set to the
subtrees' roots, of their type and with `Q`, and the other children are kept. -/
def LoopOk (version : Nat) (k : NodeKey) (kvs : List (HashValue × α × κ))
    (Q : Nat × Nat → Node κ α → Prop) (ranges : List (Nat × Nat)) (children children' : Children α)
    (W : List (NodeKey × Node κ α)) : Prop :=
  (∀ kn ∈ W, ∃ range ∈ ranges,
      k.nibblePath ++ [rangeNibble kvs k.nibblePath.length range] <+: kn.1.nibblePath) ∧
    (∀ i, (∀ range ∈ ranges, rangeNibble kvs k.nibblePath.length range ≠ i) → children' i = children i) ∧
    ∀ range ∈ ranges, ∃ c node, children' (rangeNibble kvs k.nibblePath.length range) = some c ∧
      c.version = version ∧ (k.genChildNodeKey version (rangeNibble kvs k.nibblePath.length range), node) ∈ W ∧
      node.isLeaf = c.isLeaf ∧ Q range node

theorem LoopOk.nil {k : NodeKey} (Q : Nat × Nat → Node κ α → Prop) (children : Children α) :
    LoopOk version k kvs Q [] children children ([] : List (NodeKey × Node κ α)) :=
  ⟨fun _ h => absurd h List.not_mem_nil, fun _ _ => rfl, fun _ h => absurd h List.not_mem_nil⟩

/-- A step of a loop: the subtree of the first range, written before those of the
rest, whose nibbles differ from its own. -/
theorem LoopOk.cons {k : NodeKey} {Q : Nat × Nat → Node κ α → Prop} {range : Nat × Nat}
    {ranges : List (Nat × Nat)} {children children' : Children α} {W₁ W : List (NodeKey × Node κ α)} {hash : α}
    {node : Node κ α}
    (hne : ∀ r ∈ ranges, rangeNibble kvs k.nibblePath.length r ≠ rangeNibble kvs k.nibblePath.length range)
    (hW₁ : WritesOk R version (k.genChildNodeKey version (rangeNibble kvs k.nibblePath.length range)).nibblePath W₁)
    (hmem : (k.genChildNodeKey version (rangeNibble kvs k.nibblePath.length range), node) ∈ W₁) (hQ : Q range node)
    (h : LoopOk version k kvs Q ranges
      (Function.update children (rangeNibble kvs k.nibblePath.length range) (some ⟨hash, version, node.nodeType⟩))
      children' W) :
    LoopOk version k kvs Q (range :: ranges) children children' (W₁ ++ W) := by
  obtain ⟨hunder, hkeep, hset⟩ := h
  refine ⟨fun kn hkn => ?_, fun i hi => ?_, fun r hr => ?_⟩
  · rcases List.mem_append.mp hkn with hkn | hkn
    · exact ⟨range, List.mem_cons_self, (hW₁.under kn hkn).2⟩
    · obtain ⟨r, hr, hp⟩ := hunder kn hkn
      exact ⟨r, List.mem_cons_of_mem _ hr, hp⟩
  · rw [hkeep i fun r hr => hi r (List.mem_cons_of_mem _ hr),
      Function.update_of_ne (Ne.symm (hi range List.mem_cons_self))]
  · rcases List.mem_cons.mp hr with rfl | hr
    · refine ⟨⟨hash, version, node.nodeType⟩, node, ?_, rfl, List.mem_append_left _ hmem,
        (isLeaf_child _ _ _).symm, hQ⟩
      rw [hkeep _ hne, Function.update_self]
    · obtain ⟨c, node', hc, hv, hmem', hleaf, hQ'⟩ := hset r hr
      exact ⟨c, node', hc, hv, List.mem_append_right _ hmem', hleaf, hQ'⟩

/-- The children a loop leaves are in any store that holds its writes, with the
type they record, when the children it kept are. -/
theorem LoopOk.agree {k : NodeKey} {Q : Nat × Nat → Node κ α → Prop} {ranges : List (Nat × Nat)}
    {children children' : Children α} {W : List (NodeKey × Node κ α)} {store : Store κ α}
    (h : LoopOk version k kvs Q ranges children children' W) (hstore : ∀ kn ∈ W, store kn.1 = some kn.2)
    (hkept : ∀ i c, (∀ range ∈ ranges, rangeNibble kvs k.nibblePath.length range ≠ i) → children i = some c →
      ∃ node, store (k.genChildNodeKey c.version i) = some node ∧ node.isLeaf = c.isLeaf) :
    ∀ i c, children' i = some c →
      ∃ node, store (k.genChildNodeKey c.version i) = some node ∧ node.isLeaf = c.isLeaf := by
  intro i c hc
  by_cases hi : ∃ range ∈ ranges, rangeNibble kvs k.nibblePath.length range = i
  · obtain ⟨range, hrange, rfl⟩ := hi
    obtain ⟨c', node, hc', hv, hmem, hleaf, -⟩ := h.2.2 range hrange
    rw [hc', Option.some.injEq] at hc
    subst hc
    exact ⟨node, by rw [hv, hstore _ hmem], hleaf⟩
  · have hkeep : ∀ range ∈ ranges, rangeNibble kvs k.nibblePath.length range ≠ i :=
      fun range hrange heq => hi ⟨range, hrange, heq⟩
    rw [h.2.1 i hkeep] at hc
    exact hkept i c hkeep hc

/-- The loop of `batch_create_subtree` builds the subtree of each range, given
that `batch_create_subtree` one nibble down does. The induction is on the ranges. -/
theorem batchCreateSubtreeLoop_spec {k : NodeKey} (hd : k.nibblePath.length < rootNibbleHeight)
    (hsub : ∀ (n : Nibble) (sub : List (HashValue × α × κ)) (b : TreeUpdateBatch κ α),
      EntriesAt (k.nibblePath ++ [n]) sub → sub ≠ [] →
      Builds R version (k.genChildNodeKey version n)
        (batchCreateSubtree H none (k.genChildNodeKey version n) version sub (k.nibblePath.length + 1)) b
        (fun node => node.isLeaf = true ↔ sub.length = 1)) :
    ∀ (ranges : List (Nat × Nat)) (children : Children α) (b : TreeUpdateBatch κ α), RangesOk k.nibblePath kvs ranges →
      ∃ children' b' W,
        batchCreateSubtreeLoop H none k version kvs k.nibblePath.length hd ranges children b = .ok children' b' ∧
        b'.nodeBatch = b.nodeBatch ++ W ∧ WritesOk R version k.nibblePath W ∧
        LoopOk version k kvs (fun range node => node.isLeaf = true ↔ (rangeSlice kvs range).length = 1)
          ranges children children' W
  | [], children, b, _ =>
    ⟨children, b, [], by rw [batchCreateSubtreeLoop]; rfl, by simp, WritesOk.nil, LoopOk.nil _ children⟩
  | (l, r) :: ranges, children, b, hranges => by
    obtain ⟨hle, hr, hentries⟩ := hranges.1 (l, r) List.mem_cons_self
    obtain ⟨node, b₁, W₁, hrun₁, hb₁, hW₁, hmem₁, hleaf₁⟩ :=
      hsub (rangeNibble kvs k.nibblePath.length (l, r)) (rangeSlice kvs (l, r)) b hentries
        (rangeSlice_ne_nil hle hr)
    obtain ⟨hash, hhash⟩ := getHash_none H (k.genChildNodeKey version (rangeNibble kvs k.nibblePath.length (l, r)))
      node
    have hne : ∀ r' ∈ ranges, rangeNibble kvs k.nibblePath.length r' ≠ rangeNibble kvs k.nibblePath.length (l, r) :=
      fun r' hr' => Ne.symm ((List.pairwise_cons.mp hranges.2).1 r' hr')
    obtain ⟨children', b', W, hrun, hb', hW, hloop⟩ := batchCreateSubtreeLoop_spec hd hsub ranges
      (Function.update children (rangeNibble kvs k.nibblePath.length (l, r)) (some ⟨hash, version, node.nodeType⟩))
      b₁ hranges.tail
    refine ⟨children', b', W₁ ++ W, ?_, by rw [hb', hb₁, List.append_assoc], ?_,
      LoopOk.cons hne hW₁ hmem₁ hleaf₁ hloop⟩
    · rw [batchCreateSubtreeLoop_cons H none hd (by omega) hle hr, bind_of_ok hrun₁]
      dsimp only
      rw [hhash, pure_bind, hrun]
    · refine hW₁.of_append.append hW fun kn hkn kn' hkn' => ?_
      obtain ⟨r', hr', hp'⟩ := hloop.1 kn' hkn'
      exact key_ne_of_prefix (hW₁.under kn hkn).2 hp' (Ne.symm (hne r' hr'))

/-- The loop of `batch_create_subtree_with_existing_leaf` builds the subtree of
each range, the range of the leaf's nibble with the leaf, given that the two
builders one nibble down do; the leaf stays isolated while no range has its
nibble. The induction is on the ranges. -/
theorem withExistingLeafLoop_spec {k : NodeKey} {leaf : LeafNode κ α} (hd : k.nibblePath.length < rootNibbleHeight)
    (hsub : ∀ (n : Nibble) (sub : List (HashValue × α × κ)) (b : TreeUpdateBatch κ α),
      EntriesAt (k.nibblePath ++ [n]) sub → sub ≠ [] →
      Builds R version (k.genChildNodeKey version n)
        (batchCreateSubtree H none (k.genChildNodeKey version n) version sub (k.nibblePath.length + 1)) b
        (fun node => node.isLeaf = true ↔ sub.length = 1))
    (hleafSub : ∀ (sub : List (HashValue × α × κ)) (b : TreeUpdateBatch κ α),
      EntriesAt (k.nibblePath ++ [leaf.accountKey.getNibble k.nibblePath.length]) sub → sub ≠ [] →
      Builds R version (k.genChildNodeKey version (leaf.accountKey.getNibble k.nibblePath.length))
        (batchCreateSubtreeWithExistingLeaf H none
          (k.genChildNodeKey version (leaf.accountKey.getNibble k.nibblePath.length)) version leaf sub
          (k.nibblePath.length + 1)) b
        (fun node => node.isLeaf = true ↔ sub.length = 1 ∧ sub.head?.map Prod.fst = some leaf.accountKey)) :
    ∀ (ranges : List (Nat × Nat)) (isolated : Bool) (children : Children α) (b : TreeUpdateBatch κ α),
      RangesOk k.nibblePath kvs ranges →
      ∃ isolated' children' b' W,
        withExistingLeafLoop H none k version leaf (leaf.accountKey.getNibble k.nibblePath.length) kvs
          k.nibblePath.length hd ranges (isolated, children) b = .ok (isolated', children') b' ∧
        b'.nodeBatch = b.nodeBatch ++ W ∧ WritesOk R version k.nibblePath W ∧
        LoopOk version k kvs (fun range node =>
            rangeNibble kvs k.nibblePath.length range = leaf.accountKey.getNibble k.nibblePath.length →
            (node.isLeaf = true ↔ (rangeSlice kvs range).length = 1 ∧
              (rangeSlice kvs range).head?.map Prod.fst = some leaf.accountKey))
          ranges children children' W ∧
        (isolated' = true ↔ isolated = true ∧
          ∀ range ∈ ranges, rangeNibble kvs k.nibblePath.length range ≠ leaf.accountKey.getNibble k.nibblePath.length)
  | [], isolated, children, b, _ =>
    ⟨isolated, children, b, [], by rw [withExistingLeafLoop]; rfl, by simp, WritesOk.nil, LoopOk.nil _ children,
      by simp⟩
  | (l, r) :: ranges, isolated, children, b, hranges => by
    obtain ⟨hle, hr, hentries⟩ := hranges.1 (l, r) List.mem_cons_self
    have hne : ∀ r' ∈ ranges, rangeNibble kvs k.nibblePath.length r' ≠ rangeNibble kvs k.nibblePath.length (l, r) :=
      fun r' hr' => Ne.symm ((List.pairwise_cons.mp hranges.2).1 r' hr')
    by_cases hb : leaf.accountKey.getNibble k.nibblePath.length = rangeNibble kvs k.nibblePath.length (l, r)
    · -- the range of the leaf's nibble goes down with the leaf
      have hsub₁ := hleafSub (rangeSlice kvs (l, r)) b (hb ▸ hentries) (rangeSlice_ne_nil hle hr)
      rw [hb] at hsub₁
      obtain ⟨node, b₁, W₁, hrun₁, hb₁, hW₁, hmem₁, hleaf₁⟩ := hsub₁
      obtain ⟨hash, hhash⟩ :=
        getHash_none H (k.genChildNodeKey version (rangeNibble kvs k.nibblePath.length (l, r))) node
      obtain ⟨isolated', children', b', W, hrun, hb', hW, hloop, hiso⟩ := withExistingLeafLoop_spec hd hsub hleafSub
        ranges false
        (Function.update children (rangeNibble kvs k.nibblePath.length (l, r)) (some ⟨hash, version, node.nodeType⟩))
        b₁ hranges.tail
      refine ⟨isolated', children', b', W₁ ++ W, ?_, by rw [hb', hb₁, List.append_assoc], ?_,
        LoopOk.cons hne hW₁ hmem₁ (fun _ => hleaf₁) hloop, ?_⟩
      · rw [withExistingLeafLoop_cons H none hd (by omega) hle hr, if_pos hb, bind_of_ok hrun₁,
          pure_bind]
        dsimp only
        rw [hhash, pure_bind, hrun]
      · refine hW₁.of_append.append hW fun kn hkn kn' hkn' => ?_
        obtain ⟨r', hr', hp'⟩ := hloop.1 kn' hkn'
        exact key_ne_of_prefix (hW₁.under kn hkn).2 hp' (Ne.symm (hne r' hr'))
      · rw [hiso]
        simp only [Bool.false_eq_true, false_and, false_iff, not_and, not_forall]
        exact fun _ => ⟨(l, r), List.mem_cons_self, fun h => h hb.symm⟩
    · -- another range makes a subtree of its own
      obtain ⟨node, b₁, W₁, hrun₁, hb₁, hW₁, hmem₁, hleaf₁⟩ :=
        hsub (rangeNibble kvs k.nibblePath.length (l, r)) (rangeSlice kvs (l, r)) b hentries
          (rangeSlice_ne_nil hle hr)
      obtain ⟨hash, hhash⟩ :=
        getHash_none H (k.genChildNodeKey version (rangeNibble kvs k.nibblePath.length (l, r))) node
      obtain ⟨isolated', children', b', W, hrun, hb', hW, hloop, hiso⟩ := withExistingLeafLoop_spec hd hsub hleafSub
        ranges isolated
        (Function.update children (rangeNibble kvs k.nibblePath.length (l, r)) (some ⟨hash, version, node.nodeType⟩))
        b₁ hranges.tail
      refine ⟨isolated', children', b', W₁ ++ W, ?_, by rw [hb', hb₁, List.append_assoc], ?_,
        LoopOk.cons hne hW₁ hmem₁ (fun h => absurd h.symm hb) hloop, ?_⟩
      · rw [withExistingLeafLoop_cons H none hd (by omega) hle hr, if_neg hb, bind_of_ok hrun₁,
          pure_bind]
        dsimp only
        rw [hhash, pure_bind, hrun]
      · refine hW₁.of_append.append hW fun kn hkn kn' hkn' => ?_
        obtain ⟨r', hr', hp'⟩ := hloop.1 kn' hkn'
        exact key_ne_of_prefix (hW₁.under kn hkn).2 hp' (Ne.symm (hne r' hr'))
      · rw [hiso, List.forall_mem_cons]
        exact ⟨fun ⟨hi, hall⟩ => ⟨hi, fun h => hb h.symm, hall⟩, fun ⟨hi, _, hall⟩ => ⟨hi, hall⟩⟩

/-- `batch_create_subtree` of one entry writes its leaf. -/
theorem batchCreateSubtree_spec_one {k : NodeKey} (hk : k.version = version) (hkvs : EntriesAt k.nibblePath kvs)
    (hlen : kvs.length = 1) (b : TreeUpdateBatch κ α) :
    Builds R version k (batchCreateSubtree H none k version kvs k.nibblePath.length) b
      (fun node => node.isLeaf = true ↔ kvs.length = 1) := by
  refine ⟨.leaf (newLeaf kvs[0] version),
    TreeUpdateBatch.incNumNewLeaves (TreeUpdateBatch.putNode k (.leaf (newLeaf kvs[0] version)) b),
    [(k, .leaf (newLeaf kvs[0] version))], ?_, rfl, ?_,
    List.mem_singleton_self _, by simp [Node.isLeaf, hlen]⟩
  · rw [batchCreateSubtree_of_one H none hlen]
    rfl
  · -- the leaf's key starts with the path
    have hleaf : WritesOk R version k.nibblePath ([] ++ [(k, Node.leaf (newLeaf kvs[0] version))]) :=
      WritesOk.nil.snoc hk (fun _ h => absurd h List.not_mem_nil) fun _ _ _ => hkvs.2 _ (List.getElem_mem _)
    rwa [List.nil_append] at hleaf

/-- `batch_create_subtree` builds the subtree of nonempty entries under its key:
a leaf for one entry and an internal node for more. The induction is on the
nibbles left below the key. -/
theorem batchCreateSubtree_spec : ∀ (m : Nat) (k : NodeKey) (kvs : List (HashValue × α × κ)) (b : TreeUpdateBatch κ α),
    rootNibbleHeight - k.nibblePath.length ≤ m → k.version = version → EntriesAt k.nibblePath kvs → kvs ≠ [] →
    Builds R version k (batchCreateSubtree H none k version kvs k.nibblePath.length) b
      (fun node => node.isLeaf = true ↔ kvs.length = 1)
  | 0, k, kvs, b, hm, hk, hkvs, hne => by
    -- no nibbles are left below the key, so there is one entry
    have hlen : kvs.length = 1 := by
      have := length_le_one_of_entriesAt hkvs (by omega)
      have := List.length_pos_iff.mpr hne
      omega
    exact batchCreateSubtree_spec_one H hk hkvs hlen b
  | m + 1, k, kvs, b, hm, hk, hkvs, hne => by
    by_cases hlen : kvs.length = 1
    · exact batchCreateSubtree_spec_one H hk hkvs hlen b
    -- more than one entry: the keys differ within the 64 nibbles
    have htwo : 2 ≤ kvs.length := by
      have := List.length_pos_iff.mpr hne
      omega
    have hd : k.nibblePath.length < rootNibbleHeight := by
      by_contra hd
      have := length_le_one_of_entriesAt hkvs (by omega)
      omega
    have hsub : ∀ (n : Nibble) (sub : List (HashValue × α × κ)) (b : TreeUpdateBatch κ α),
        EntriesAt (k.nibblePath ++ [n]) sub → sub ≠ [] →
        Builds R version (k.genChildNodeKey version n)
          (batchCreateSubtree H none (k.genChildNodeKey version n) version sub (k.nibblePath.length + 1)) b
          (fun node => node.isLeaf = true ↔ sub.length = 1) := by
      intro n sub b hsub hsubne
      have h := batchCreateSubtree_spec m (k.genChildNodeKey version n) sub b (by simp; omega) rfl hsub hsubne
      rwa [NodeKey.genChildNodeKey_nibblePath, List.length_append, List.length_singleton] at h
    have hranges := rangesOk_toList hkvs hd
    obtain ⟨-, -, hnil, hone⟩ := entriesAt_ranges hkvs hd
    obtain ⟨children, b₁, W, hrun, hb₁, hW, hloop⟩ :=
      batchCreateSubtreeLoop_spec H hd hsub _ (fun _ => none) b hranges
    -- the first range's child, with another beside it when it is a leaf
    obtain ⟨range, ranges, hcons⟩ := List.exists_cons_of_ne_nil (hnil hne)
    obtain ⟨c, node, hc, -, -, hleaf, hQ⟩ := hloop.2.2 range (hcons ▸ List.mem_cons_self)
    have hnew : InternalNode.newImpl children = .ok ⟨children, (children.values.map Child.leafCount).sum⟩ := by
      refine newImpl_eq_ok hc fun hcleaf => ?_
      obtain ⟨range', ranges', rfl⟩ : ∃ range' ranges', ranges = range' :: ranges' := by
        refine List.exists_cons_of_ne_nil fun hnil' => ?_
        have hslice := hone range (hcons.trans (by rw [hnil']))
        rw [← hleaf, hQ, rangeSlice, hslice] at hcleaf
        omega
      obtain ⟨c', -, hc', -⟩ := hloop.2.2 range' (by rw [hcons]; simp)
      have hne' := (List.pairwise_cons.mp (hcons ▸ hranges.2)).1 range' List.mem_cons_self
      exact ⟨_, Ne.symm hne', by rw [hc']; rfl⟩
    refine ⟨.internal ⟨children, (children.values.map Child.leafCount).sum⟩,
      TreeUpdateBatch.putNode k (.internal ⟨children, (children.values.map Child.leafCount).sum⟩) b₁,
      W ++ [(k, .internal ⟨children, (children.values.map Child.leafCount).sum⟩)], ?_, ?_, ?_,
      List.mem_append_right _ (List.mem_singleton_self _), by simp [Node.isLeaf, hlen]⟩
    · rw [batchCreateSubtree_of_ne_one H none hlen hd, bind_of_ok hrun]
      simp only [InternalNode.new, hnew, ofExcept, pure_bind]
      rfl
    · rw [← List.append_assoc, ← hb₁]
      rfl
    · refine hW.snoc hk (fun kn hkn heq => ?_) fun store hstore _ => ⟨hnew, hd, hloop.agree
        (fun kn hkn => hstore kn (List.mem_append_left _ hkn)) fun _ _ _ h => absurd h (by simp)⟩
      -- the subtrees' keys are longer than the node's
      obtain ⟨r, -, hp⟩ := hloop.1 kn hkn
      have := hp.length_le
      rw [heq] at this
      simp at this

end Loops

end JellyfishMerkleTree

end AptosCore
