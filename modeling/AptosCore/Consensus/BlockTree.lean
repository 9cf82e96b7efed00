import AptosCore.Consensus.Types
import AptosCore.Lib.AssocMap

/-!
# The block tree of consensus

`consensus/src/block_storage/block_tree.rs`. A replica keeps every block it knows in a
`BlockTree`: each block with the ids of its children, the roots of the ordering and of the
commit phase, the block of the highest quorum certificate, the highest ordered and commit
certificates, the quorum certificate of each block, and the ids of blocks pruned from the tree
but kept in memory until more than `max_pruned_blocks_in_mem` of them wait.

A `HashMap` is a list of entries written in place (`AssocMap`); removing every entry of a key
is `remove`, as the keys of such a list stay distinct. The
`HashSet` of a block's children is a list in the order of insertion, the order in which the
model iterates it. A panic of the source (`assert!`, `expect`, `unwrap`) is an error of the
model with its message, and so is a `loop` that never ends (`diverges`): the walks get fuel
for every block of the tree, which runs out only on a cycle of links.

Left out: the counters and the logs, the failure of `storage.prune_tree`, which
`commit_callback` only logs, the `checked_verify_eq!` of `insert_block` and the
`precondition!` of `insert_quorum_cert`, which are annotations for a static analyser and not
run, the execution results of blocks, which the tree does not read, and the test helpers
`len` and `child_links`.
-/

namespace AptosCore.Consensus

variable {A PK Sig : Type} [LinearOrder A]

variable (A PK Sig) in
/-- `ExecutedBlock`: a block with the result of its execution, of which the tree reads only
the block. -/
structure ExecutedBlock where
  block : Block A PK Sig

namespace ExecutedBlock

/-- `ExecutedBlock::id`. -/
def id (b : ExecutedBlock A PK Sig) : HashValue := b.block.id

/-- `ExecutedBlock::parent_id`: the block its quorum certificate certifies. -/
def parentId (b : ExecutedBlock A PK Sig) : HashValue := b.block.quorumCert.certifiedBlock.id

/-- `ExecutedBlock::round`. -/
def round (b : ExecutedBlock A PK Sig) : Nat := b.block.round

end ExecutedBlock

/-- `QuorumCert::commit_info`: the block the certified ledger info commits. -/
def QuorumCert.commitInfo (qc : QuorumCert A PK Sig) : BlockInfo A PK :=
  qc.signedLedgerInfo.ledgerInfo.commitInfo

/-- `QuorumCert::create_merged_with_executed_state`: the certificate with the executed ledger
info, whose block must match the ordered one. The values the error prints are left out. -/
def QuorumCert.createMergedWithExecutedState (qc : QuorumCert A PK Sig)
    (executedLedgerInfo : LedgerInfoWithSignatures A PK Sig) : Except String (QuorumCert A PK Sig) :=
  if qc.commitInfo.matchOrderedOnly executedLedgerInfo.ledgerInfo.commitInfo then
    .ok ⟨qc.voteData, executedLedgerInfo⟩
  else .error "Block info from QC and executed LI need to match"

/-- The errors of the block tree. -/
inductive BlockTreeError where
  /-- `bail!("Parent block {} not found")` of `insert_block`. -/
  | parentBlockNotFound (parentId : HashValue)
  /-- `bail!("Block {} not found")` of `insert_quorum_cert`. -/
  | blockNotFound (blockId : HashValue)
  /-- The panic of `add_child`: `Block {:x} already existed.` -/
  | blockAlreadyExisted (childId : HashValue)
  /-- Any other panic, with its message. -/
  | panic (message : String)
  /-- A `loop` of the source that never ends. -/
  | diverges
  deriving DecidableEq

variable (A PK Sig) in
/-- `LinkableBlock`: a block and the ids of its children. -/
structure LinkableBlock where
  executedBlock : ExecutedBlock A PK Sig
  children : List HashValue

namespace LinkableBlock

/-- `LinkableBlock::new`: no children yet. -/
def new (block : ExecutedBlock A PK Sig) : LinkableBlock A PK Sig := ⟨block, []⟩

/-- `LinkableBlock::id`. -/
def id (lb : LinkableBlock A PK Sig) : HashValue := lb.executedBlock.id

/-- `LinkableBlock::add_child`, with the `assert!` that the child is new. -/
def addChild (lb : LinkableBlock A PK Sig) (childId : HashValue) :
    Except BlockTreeError (LinkableBlock A PK Sig) :=
  if childId ∈ lb.children then .error (.blockAlreadyExisted childId)
  else .ok { lb with children := lb.children ++ [childId] }

end LinkableBlock

variable (A PK Sig) in
/-- `BlockTree`. `prunedBlockIds` is the `VecDeque`, its front first. -/
structure BlockTree where
  idToBlock : List (HashValue × LinkableBlock A PK Sig)
  orderedRootId : HashValue
  commitRootId : HashValue
  highestCertifiedBlockId : HashValue
  highestQuorumCert : QuorumCert A PK Sig
  highest2chainTimeoutCert : Option (TwoChainTimeoutCertificate A PK Sig)
  highestOrderedCert : QuorumCert A PK Sig
  highestCommitCert : QuorumCert A PK Sig
  idToQuorumCert : List (HashValue × QuorumCert A PK Sig)
  prunedBlockIds : List HashValue
  maxPrunedBlocksInMem : Nat

namespace BlockTree

/-- `BlockTree::new`: the root alone, which all three roots name, with its certificates. The
values `assert_eq!` prints are left out of its message. -/
def new (root : ExecutedBlock A PK Sig) (rootQuorumCert rootOrderedCert rootCommitCert : QuorumCert A PK Sig)
    (maxPrunedBlocksInMem : Nat) (highest2chainTimeoutCert : Option (TwoChainTimeoutCertificate A PK Sig)) :
    Except BlockTreeError (BlockTree A PK Sig) :=
  if root.id ≠ rootOrderedCert.commitInfo.id then .error (.panic "inconsistent root and ledger info")
  else .ok {
    idToBlock := [(root.id, LinkableBlock.new root)]
    orderedRootId := root.id
    commitRootId := root.id
    highestCertifiedBlockId := root.id
    highestQuorumCert := rootQuorumCert
    highest2chainTimeoutCert := highest2chainTimeoutCert
    highestOrderedCert := rootOrderedCert
    highestCommitCert := rootCommitCert
    idToQuorumCert := [(rootQuorumCert.certifiedBlock.id, rootQuorumCert)]
    prunedBlockIds := []
    maxPrunedBlocksInMem := maxPrunedBlocksInMem }

variable (t : BlockTree A PK Sig)

/-- `get_linkable_block`. -/
def getLinkableBlock (blockId : HashValue) : Option (LinkableBlock A PK Sig) := t.idToBlock.lookup blockId

/-- The write through `get_linkable_block_mut`. -/
def setLinkableBlock (blockId : HashValue) (lb : LinkableBlock A PK Sig) : BlockTree A PK Sig :=
  { t with idToBlock := AssocMap.set blockId lb t.idToBlock }

/-- `block_exists`. -/
def blockExists (blockId : HashValue) : Bool := (t.getLinkableBlock blockId).isSome

/-- `get_block`. -/
def getBlock (blockId : HashValue) : Option (ExecutedBlock A PK Sig) :=
  (t.getLinkableBlock blockId).map LinkableBlock.executedBlock

/-- A block that must exist: the `expect` of the root accessors. -/
def expectBlock (blockId : HashValue) (message : String) : Except BlockTreeError (ExecutedBlock A PK Sig) :=
  match t.getBlock blockId with
  | some block => .ok block
  | none => .error (.panic message)

/-- `ordered_root`. -/
def orderedRoot : Except BlockTreeError (ExecutedBlock A PK Sig) :=
  t.expectBlock t.orderedRootId "Root must exist"

/-- `commit_root`. -/
def commitRoot : Except BlockTreeError (ExecutedBlock A PK Sig) :=
  t.expectBlock t.commitRootId "Commit root must exist"

/-- `highest_certified_block`. -/
def highestCertifiedBlock : Except BlockTreeError (ExecutedBlock A PK Sig) :=
  t.expectBlock t.highestCertifiedBlockId "Highest cerfified block must exist"

/-- `linkable_root`: the block of the commit root. -/
def linkableRoot : Except BlockTreeError (LinkableBlock A PK Sig) :=
  match t.getLinkableBlock t.commitRootId with
  | some root => .ok root
  | none => .error (.panic "Root must exist")

/-- `remove_block`: the block and its quorum certificate. -/
def removeBlock (blockId : HashValue) : BlockTree A PK Sig :=
  { t with
    idToBlock := t.idToBlock.filter fun e => e.1 ≠ blockId
    idToQuorumCert := t.idToQuorumCert.filter fun e => e.1 ≠ blockId }

/-- `get_quorum_cert_for_block`. -/
def getQuorumCertForBlock (blockId : HashValue) : Option (QuorumCert A PK Sig) :=
  t.idToQuorumCert.lookup blockId

/-- `get_all_block_id`. -/
def getAllBlockId : List HashValue := t.idToBlock.map Prod.fst

/-- `replace_2chain_timeout_cert`. -/
def replace2chainTimeoutCert (tc : TwoChainTimeoutCertificate A PK Sig) : BlockTree A PK Sig :=
  { t with highest2chainTimeoutCert := some tc }

/-- `insert_block`: a block already known is returned as it is; otherwise it becomes a child
of its parent, which must be in the tree. -/
def insertBlock (block : ExecutedBlock A PK Sig) :
    Except BlockTreeError (ExecutedBlock A PK Sig × BlockTree A PK Sig) :=
  match t.getBlock block.id with
  | some existingBlock => .ok (existingBlock, t)
  | none =>
    match t.getLinkableBlock block.parentId with
    | none => .error (.parentBlockNotFound block.parentId)
    | some parentBlock => do
      let parentBlock ← parentBlock.addChild block.id
      let t := t.setLinkableBlock block.parentId parentBlock
      -- no block has the id, so the `assert!` on the insertion holds
      .ok (block, { t with idToBlock := AssocMap.set block.id (LinkableBlock.new block) t.idToBlock })

/-- `update_ordered_root`. -/
def updateOrderedRoot (rootId : HashValue) : Except BlockTreeError (BlockTree A PK Sig) :=
  if t.blockExists rootId then .ok { t with orderedRootId := rootId }
  else .error (.panic "assertion failed: self.block_exists(&root_id)")

/-- `update_commit_root`. -/
def updateCommitRoot (rootId : HashValue) : Except BlockTreeError (BlockTree A PK Sig) :=
  if t.blockExists rootId then .ok { t with commitRootId := rootId }
  else .error (.panic "assertion failed: self.block_exists(&root_id)")

/-- `update_highest_commit_cert`: a certificate of a higher commit round replaces the highest
one and moves the commit root to the block it commits. -/
def updateHighestCommitCert (newCommitCert : QuorumCert A PK Sig) : Except BlockTreeError (BlockTree A PK Sig) :=
  if t.highestCommitCert.commitInfo.round < newCommitCert.commitInfo.round then
    { t with highestCommitCert := newCommitCert }.updateCommitRoot newCommitCert.commitInfo.id
  else .ok t

/-- `insert_quorum_cert`: the certified block must be in the tree; a higher one becomes the
highest certified block, the first certificate of a block is the one kept for it, and a
certificate of a higher commit round becomes the highest ordered one. -/
def insertQuorumCert (qc : QuorumCert A PK Sig) : Except BlockTreeError (BlockTree A PK Sig) :=
  let blockId := qc.certifiedBlock.id
  match t.getBlock blockId with
  | none => .error (.blockNotFound blockId)
  | some block => do
    let highest ← t.highestCertifiedBlock
    let t := if highest.round < block.round then
      { t with highestCertifiedBlockId := block.id, highestQuorumCert := qc } else t
    -- `entry(block_id).or_insert_with`
    let t := match t.idToQuorumCert.lookup blockId with
      | some _ => t
      | none => { t with idToQuorumCert := AssocMap.set blockId qc t.idToQuorumCert }
    .ok (if t.highestOrderedCert.commitInfo.round < qc.commitInfo.round then
      { t with highestOrderedCert := qc } else t)

/-- The `for child_id in block_to_remove.children()` loop of `find_blocks_to_prune`: each child
but the new root is looked up and pushed on the stack, its top first. -/
def pushChildren (nextRootId : HashValue) (children : List HashValue)
    (blocksToBePruned : List (LinkableBlock A PK Sig)) : Except BlockTreeError (List (LinkableBlock A PK Sig)) :=
  children.foldlM (fun stack childId =>
    if nextRootId = childId then .ok stack
    else match t.getLinkableBlock childId with
      | some child => .ok (child :: stack)
      | none => .error (.panic "Child must exist in the tree")) blocksToBePruned

/-- The `while let Some(block_to_remove) = blocks_to_be_pruned.pop()` loop of
`find_blocks_to_prune`. -/
def findBlocksToPruneLoop (nextRootId : HashValue) :
    Nat → List (LinkableBlock A PK Sig) → List HashValue → Except BlockTreeError (List HashValue)
  | _, [], blocksPruned => .ok blocksPruned
  | 0, _ :: _, _ => .error .diverges
  | fuel + 1, blockToRemove :: blocksToBePruned, blocksPruned => do
    let blocksToBePruned ← t.pushChildren nextRootId blockToRemove.children blocksToBePruned
    findBlocksToPruneLoop nextRootId fuel blocksToBePruned (blocksPruned ++ [blockToRemove.id])

/-- `find_blocks_to_prune`: the blocks below the commit root, apart from those below the new
root. The walk pops a block once for each path to it from the root, at most `2 ^ n` times on
`n` blocks whose links have no cycle, and forever on a cycle. -/
def findBlocksToPrune (nextRootId : HashValue) : Except BlockTreeError (List HashValue) :=
  if nextRootId = t.commitRootId then .ok []
  else do
    let root ← t.linkableRoot
    t.findBlocksToPruneLoop nextRootId (2 ^ t.idToBlock.length) [root] []

/-- The `for _ in 0..num_blocks_to_remove` loop of `process_pruned_blocks`: the oldest pruned
ids leave the queue, and their blocks the tree. -/
def processPrunedBlocksLoop : Nat → BlockTree A PK Sig → BlockTree A PK Sig
  | 0, t => t
  | n + 1, t =>
    match t.prunedBlockIds with
    | [] => processPrunedBlocksLoop n t
    | id :: rest => processPrunedBlocksLoop n ({ t with prunedBlockIds := rest }.removeBlock id)

/-- `process_pruned_blocks`: the newly pruned ids join the queue, and the oldest leave it while
it holds more than `max_pruned_blocks_in_mem`. -/
def processPrunedBlocks (newlyPrunedBlocks : List HashValue) : BlockTree A PK Sig :=
  let t := { t with prunedBlockIds := t.prunedBlockIds ++ newlyPrunedBlocks }
  if t.maxPrunedBlocksInMem < t.prunedBlockIds.length then
    processPrunedBlocksLoop (t.prunedBlockIds.length - t.maxPrunedBlocksInMem) t
  else t

/-- The `loop` of `path_from_root_to_block`: from `curBlockId` down the parent links while the
blocks are above the root's round, with the blocks passed so far, the latest last. `none` for a
block not in the tree; otherwise the block it stopped at. -/
def pathFromRootToBlockLoop (rootRound : Nat) :
    Nat → HashValue → List (ExecutedBlock A PK Sig) →
      Except BlockTreeError (Option (HashValue × List (ExecutedBlock A PK Sig)))
  | 0, _, _ => .error .diverges
  | fuel + 1, curBlockId, res =>
    match t.getBlock curBlockId with
    | some block =>
      if block.round ≤ rootRound then .ok (some (curBlockId, res))
      else pathFromRootToBlockLoop rootRound fuel block.parentId (res ++ [block])
    | none => .ok none

/-- `path_from_root_to_block`: the blocks from the root, excluded, to the block, included. Each
round of the loop but the last passes a block of the tree, and the walk is the same from a block
passed twice, so fuel for every block of the tree runs out only on a cycle. -/
def pathFromRootToBlock (blockId rootId : HashValue) (rootRound : Nat) :
    Except BlockTreeError (Option (List (ExecutedBlock A PK Sig))) := do
  match ← t.pathFromRootToBlockLoop rootRound (t.idToBlock.length + 1) blockId [] with
  | none => .ok none
  | some (curBlockId, res) => .ok (if curBlockId ≠ rootId then none else some res.reverse)

/-- `path_from_ordered_root`. -/
def pathFromOrderedRoot (blockId : HashValue) : Except BlockTreeError (Option (List (ExecutedBlock A PK Sig))) := do
  let root ← t.orderedRoot
  t.pathFromRootToBlock blockId t.orderedRootId root.round

/-- `path_from_commit_root`. -/
def pathFromCommitRoot (blockId : HashValue) : Except BlockTreeError (Option (List (ExecutedBlock A PK Sig))) := do
  let root ← t.commitRoot
  t.pathFromRootToBlock blockId t.commitRootId root.round

/-- `commit_callback`: prune what is not below the last block to commit, then take the merged
commit certificate as the highest one if its round is higher. -/
def commitCallback (blocksToCommit : List (ExecutedBlock A PK Sig)) (finalityProof : QuorumCert A PK Sig)
    (commitDecision : LedgerInfoWithSignatures A PK Sig) : Except BlockTreeError (BlockTree A PK Sig) := do
  let commitProof ← (finalityProof.createMergedWithExecutedState commitDecision).mapError fun _ =>
    .panic "Inconsistent commit proof and evaluation decision, cannot commit block"
  let blockToCommit ← match blocksToCommit.getLast? with
    | some block => .ok block
    | none => .error (.panic "called `Option::unwrap()` on a `None` value")
  -- `current_round`, for the log
  let _ ← t.commitRoot
  let idToRemove ← t.findBlocksToPrune blockToCommit.id
  (t.processPrunedBlocks idToRemove).updateHighestCommitCert commitProof

/-! ## Two sample trees -/

/-- A block at `id` of round `round`, whose certificate certifies `parentId`. -/
def sampleBlock (id parentId : HashValue) (round : Nat) : ExecutedBlock Nat Nat Nat :=
  ⟨⟨id, ⟨0, round, 0, ⟨⟨⟨0, 0, parentId, 0, 0, 0, none⟩, BlockInfo.empty⟩, ⟨⟨BlockInfo.empty, 0⟩, []⟩⟩,
    .nilBlock⟩, none⟩⟩

/-- A certificate that certifies and commits the block at `id`, of round `0`. -/
def sampleCert (id : HashValue) : QuorumCert Nat Nat Nat :=
  ⟨⟨⟨0, 0, id, 0, 0, 0, none⟩, BlockInfo.empty⟩, ⟨⟨⟨0, 0, id, 0, 0, 0, none⟩, 0⟩, []⟩⟩

/-- The tree `BlockTree::new` makes of the block `1`, keeping one pruned block in memory. -/
def rootTree : BlockTree Nat Nat Nat where
  idToBlock := [(1, LinkableBlock.new (sampleBlock 1 0 0))]
  orderedRootId := 1
  commitRootId := 1
  highestCertifiedBlockId := 1
  highestQuorumCert := sampleCert 1
  highest2chainTimeoutCert := none
  highestOrderedCert := sampleCert 1
  highestCommitCert := sampleCert 1
  idToQuorumCert := [(1, sampleCert 1)]
  prunedBlockIds := []
  maxPrunedBlocksInMem := 1

example : new (sampleBlock 1 0 0) (sampleCert 1) (sampleCert 1) (sampleCert 1) 1 none = .ok rootTree := rfl

/-- `rootTree` with the block `2` of round `1` inserted as the child of `1`. -/
def twoBlockTree : BlockTree Nat Nat Nat :=
  { rootTree with idToBlock := [(1, ⟨sampleBlock 1 0 0, [2]⟩), (2, LinkableBlock.new (sampleBlock 2 1 1))] }

example : rootTree.insertBlock (sampleBlock 2 1 1) = .ok (sampleBlock 2 1 1, twoBlockTree) := rfl

end BlockTree

end AptosCore.Consensus
