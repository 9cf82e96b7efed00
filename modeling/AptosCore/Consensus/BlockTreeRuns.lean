import AptosCore.Consensus.BlockTree
import AptosCore.Lib.ExceptCheck

/-!
# Runs of the block tree

`BlockStore` changes its tree by `insert_block`, `insert_quorum_cert`,
`replace_2chain_timeout_cert`, `update_ordered_root`, `update_commit_root`,
`process_pruned_blocks` and `commit_callback` (`Op`). Every call that returns keeps one entry
per key in each of the two maps, and at most `max_pruned_blocks_in_mem` pruned ids waiting in
memory (`Wf`), and the commit rounds of the highest ordered and commit certificates do not go
down (`Advances`). A run of calls (`run`) from `BlockTree::new` keeps them all, by induction on
the calls.
-/

namespace AptosCore.Consensus

variable {A PK Sig : Type} [LinearOrder A]

namespace BlockTree

variable (A PK Sig) in
/-- A call that changes the tree. -/
inductive Op where
  | insertBlock (block : ExecutedBlock A PK Sig)
  | insertQuorumCert (qc : QuorumCert A PK Sig)
  | replace2chainTimeoutCert (tc : TwoChainTimeoutCertificate A PK Sig)
  | updateOrderedRoot (rootId : HashValue)
  | updateCommitRoot (rootId : HashValue)
  | processPrunedBlocks (newlyPrunedBlocks : List HashValue)
  | commitCallback (blocksToCommit : List (ExecutedBlock A PK Sig)) (finalityProof : QuorumCert A PK Sig)
      (commitDecision : LedgerInfoWithSignatures A PK Sig)

/-- A call on the tree. -/
def Op.apply (t : BlockTree A PK Sig) : Op A PK Sig → Except BlockTreeError (BlockTree A PK Sig)
  | .insertBlock block => (t.insertBlock block).map Prod.snd
  | .insertQuorumCert qc => t.insertQuorumCert qc
  | .replace2chainTimeoutCert tc => .ok (t.replace2chainTimeoutCert tc)
  | .updateOrderedRoot rootId => t.updateOrderedRoot rootId
  | .updateCommitRoot rootId => t.updateCommitRoot rootId
  | .processPrunedBlocks newlyPrunedBlocks => .ok (t.processPrunedBlocks newlyPrunedBlocks)
  | .commitCallback blocksToCommit finalityProof commitDecision =>
    t.commitCallback blocksToCommit finalityProof commitDecision

/-- A run of calls, up to the first that fails. -/
def run (t : BlockTree A PK Sig) : List (Op A PK Sig) → Except BlockTreeError (BlockTree A PK Sig)
  | [] => .ok t
  | op :: ops =>
    match Op.apply t op with
    | .ok t => run t ops
    | .error e => .error e

/-- What every call keeps: one entry per key in each map, and at most
`max_pruned_blocks_in_mem` pruned ids waiting. -/
structure Wf (t : BlockTree A PK Sig) : Prop where
  nodup_blocks : (t.idToBlock.map Prod.fst).Nodup
  nodup_certs : (t.idToQuorumCert.map Prod.fst).Nodup
  pruned_le : t.prunedBlockIds.length ≤ t.maxPrunedBlocksInMem

/-- A later tree: the same bound on pruned ids, and certificates of commit rounds at least
those of the earlier one. -/
structure Advances (t t' : BlockTree A PK Sig) : Prop where
  max_eq : t'.maxPrunedBlocksInMem = t.maxPrunedBlocksInMem
  ordered_le : t.highestOrderedCert.commitInfo.round ≤ t'.highestOrderedCert.commitInfo.round
  commit_le : t.highestCommitCert.commitInfo.round ≤ t'.highestCommitCert.commitInfo.round

namespace Advances

theorem refl (t : BlockTree A PK Sig) : Advances t t := ⟨rfl, le_rfl, le_rfl⟩

theorem trans {t₁ t₂ t₃ : BlockTree A PK Sig} (h₁₂ : Advances t₁ t₂) (h₂₃ : Advances t₂ t₃) :
    Advances t₁ t₃ :=
  ⟨h₂₃.max_eq.trans h₁₂.max_eq, h₁₂.ordered_le.trans h₂₃.ordered_le, h₁₂.commit_le.trans h₂₃.commit_le⟩

/-- A call that writes neither the bound nor the two certificates. -/
theorem of_eq {t t' : BlockTree A PK Sig} (hmax : t'.maxPrunedBlocksInMem = t.maxPrunedBlocksInMem)
    (hordered : t'.highestOrderedCert = t.highestOrderedCert) (hcommit : t'.highestCommitCert = t.highestCommitCert) :
    Advances t t' :=
  ⟨hmax, hordered ▸ le_rfl, hcommit ▸ le_rfl⟩

end Advances

variable {t t' : BlockTree A PK Sig}

/-! ## The calls one by one -/

/-- A `Wf` tree with only the roots, the highest certificates or the timeout certificate
written is `Wf`. -/
theorem Wf.of_maps_eq (hwf : t.Wf) (hblocks : t'.idToBlock = t.idToBlock)
    (hcerts : t'.idToQuorumCert = t.idToQuorumCert) (hpruned : t'.prunedBlockIds = t.prunedBlockIds)
    (hmax : t'.maxPrunedBlocksInMem = t.maxPrunedBlocksInMem) : t'.Wf :=
  ⟨hblocks ▸ hwf.nodup_blocks, hcerts ▸ hwf.nodup_certs, hpruned ▸ hmax ▸ hwf.pruned_le⟩

theorem updateCommitRoot_eq {rootId : HashValue} (h : t.updateCommitRoot rootId = .ok t') :
    t' = { t with commitRootId := rootId } := by
  unfold updateCommitRoot at h
  split at h
  · exact (Except.ok.inj h).symm
  · cases h

theorem updateOrderedRoot_eq {rootId : HashValue} (h : t.updateOrderedRoot rootId = .ok t') :
    t' = { t with orderedRootId := rootId } := by
  unfold updateOrderedRoot at h
  split at h
  · exact (Except.ok.inj h).symm
  · cases h

theorem updateHighestCommitCert_wf {qc : QuorumCert A PK Sig} (hwf : t.Wf)
    (h : t.updateHighestCommitCert qc = .ok t') : t'.Wf ∧ Advances t t' := by
  unfold updateHighestCommitCert at h
  split at h
  · -- a higher commit round: the certificate and the commit root move
    rename_i hlt
    obtain rfl := updateCommitRoot_eq h
    exact ⟨hwf.of_maps_eq rfl rfl rfl rfl, ⟨rfl, le_rfl, hlt.le⟩⟩
  · cases h
    exact ⟨hwf, Advances.refl t⟩

theorem insertBlock_wf {block : ExecutedBlock A PK Sig} {b : ExecutedBlock A PK Sig} (hwf : t.Wf)
    (h : t.insertBlock block = .ok (b, t')) : t'.Wf ∧ Advances t t' := by
  unfold insertBlock at h
  split at h
  · cases h
    exact ⟨hwf, Advances.refl t⟩
  split at h
  · cases h
  · simp only [ExceptCheck.bind_eq_ok] at h
    obtain ⟨parent, -, h⟩ := h
    cases h
    -- the parent's entry is written in place, and the block's is added
    refine ⟨⟨?_, hwf.nodup_certs, hwf.pruned_le⟩, Advances.of_eq rfl rfl rfl⟩
    exact AssocMap.nodup_keys_set _ _ (AssocMap.nodup_keys_set _ _ hwf.nodup_blocks)

/-- What `insert_quorum_cert` writes: the highest certified block, the certificate kept for the
block if it had none, and a higher ordered certificate. -/
theorem insertQuorumCert_frame {qc : QuorumCert A PK Sig} (h : t.insertQuorumCert qc = .ok t') :
    t'.idToBlock = t.idToBlock ∧ t'.commitRootId = t.commitRootId ∧ t'.prunedBlockIds = t.prunedBlockIds ∧
      t'.maxPrunedBlocksInMem = t.maxPrunedBlocksInMem ∧ t'.highestCommitCert = t.highestCommitCert ∧
      (t'.idToQuorumCert = t.idToQuorumCert ∨
        t'.idToQuorumCert = AssocMap.set qc.certifiedBlock.id qc t.idToQuorumCert) ∧
      t.highestOrderedCert.commitInfo.round ≤ t'.highestOrderedCert.commitInfo.round := by
  unfold insertQuorumCert at h
  dsimp only at h
  split at h
  · cases h
  · simp only [ExceptCheck.bind_eq_ok] at h
    obtain ⟨highest, -, h⟩ := h
    obtain rfl := Except.ok.inj h
    -- one case for each way the three writes go
    split <;> split <;> split <;> simp_all [le_of_lt]

theorem insertQuorumCert_wf {qc : QuorumCert A PK Sig} (hwf : t.Wf) (h : t.insertQuorumCert qc = .ok t') :
    t'.Wf ∧ Advances t t' := by
  obtain ⟨hblocks, -, hpruned, hmax, hcommit, hcerts, hordered⟩ := insertQuorumCert_frame h
  refine ⟨⟨hblocks ▸ hwf.nodup_blocks, ?_, hpruned ▸ hmax ▸ hwf.pruned_le⟩, ⟨hmax, hordered, hcommit ▸ le_rfl⟩⟩
  rcases hcerts with hcerts | hcerts <;> rw [hcerts]
  · exact hwf.nodup_certs
  · exact AssocMap.nodup_keys_set _ _ hwf.nodup_certs

/-- The loop of `process_pruned_blocks` takes `n` ids off the front of the queue, and keeps of
each map entries of the old one. The induction is on `n`, one id a round. -/
theorem processPrunedBlocksLoop_eq :
    ∀ (n : Nat) (t : BlockTree A PK Sig), n ≤ t.prunedBlockIds.length →
      ∃ blocks certs, processPrunedBlocksLoop n t =
          { t with prunedBlockIds := t.prunedBlockIds.drop n, idToBlock := blocks, idToQuorumCert := certs } ∧
        blocks.Sublist t.idToBlock ∧ certs.Sublist t.idToQuorumCert
  | 0, t, _ => ⟨t.idToBlock, t.idToQuorumCert, rfl, List.Sublist.refl _, List.Sublist.refl _⟩
  | n + 1, t, hn => by
    cases hpruned : t.prunedBlockIds with
    | nil => rw [hpruned] at hn; simp at hn
    | cons id rest =>
      have hn' : n ≤ rest.length := by rw [hpruned] at hn; simpa using hn
      obtain ⟨blocks, certs, hloop, hblocks, hcerts⟩ :=
        processPrunedBlocksLoop_eq n ({ t with prunedBlockIds := rest }.removeBlock id) hn'
      refine ⟨blocks, certs, ?_, hblocks.trans List.filter_sublist, hcerts.trans List.filter_sublist⟩
      simp only [processPrunedBlocksLoop, hpruned, hloop]
      rfl

/-- `process_pruned_blocks` leaves at most `max_pruned_blocks_in_mem` ids waiting. -/
theorem processPrunedBlocks_wf (newlyPrunedBlocks : List HashValue) (hwf : t.Wf) :
    (t.processPrunedBlocks newlyPrunedBlocks).Wf ∧ Advances t (t.processPrunedBlocks newlyPrunedBlocks) := by
  unfold processPrunedBlocks
  dsimp only
  split
  · -- more than the bound wait: the oldest leave until the bound is reached
    rename_i hover
    obtain ⟨blocks, certs, hloop, hblocks, hcerts⟩ := processPrunedBlocksLoop_eq
      ((t.prunedBlockIds ++ newlyPrunedBlocks).length - t.maxPrunedBlocksInMem)
      { t with prunedBlockIds := t.prunedBlockIds ++ newlyPrunedBlocks } (Nat.sub_le _ _)
    rw [hloop]
    refine ⟨⟨(hblocks.map _).nodup hwf.nodup_blocks, (hcerts.map _).nodup hwf.nodup_certs, ?_⟩,
      Advances.of_eq rfl rfl rfl⟩
    dsimp only at hover ⊢
    rw [List.length_drop]
    omega
  · rename_i hunder
    exact ⟨⟨hwf.nodup_blocks, hwf.nodup_certs, Nat.le_of_not_lt hunder⟩, Advances.of_eq rfl rfl rfl⟩

theorem commitCallback_wf {blocksToCommit : List (ExecutedBlock A PK Sig)} {finalityProof : QuorumCert A PK Sig}
    {commitDecision : LedgerInfoWithSignatures A PK Sig} (hwf : t.Wf)
    (h : t.commitCallback blocksToCommit finalityProof commitDecision = .ok t') : t'.Wf ∧ Advances t t' := by
  unfold commitCallback at h
  simp only [ExceptCheck.bind_eq_ok] at h
  obtain ⟨commitProof, -, h⟩ := h
  split at h
  · simp only [ExceptCheck.bind_eq_ok] at h
    obtain ⟨blockToCommit, -, -, -, idToRemove, -, h⟩ := h
    -- pruning writes no certificate; the merged certificate may then raise the commit round
    obtain ⟨hwf₁, hadv₁⟩ := processPrunedBlocks_wf idToRemove hwf
    obtain ⟨hwf₂, hadv₂⟩ := updateHighestCommitCert_wf hwf₁ h
    exact ⟨hwf₂, hadv₁.trans hadv₂⟩
  · -- no block to commit: the `unwrap` panics
    simp [ExceptCheck.bind_eq_ok] at h

/-- Every call that returns keeps `Wf` and advances the tree. -/
theorem Op.apply_wf (op : Op A PK Sig) (hwf : t.Wf) (h : Op.apply t op = .ok t') : t'.Wf ∧ Advances t t' := by
  cases op with
  | insertBlock block =>
    obtain ⟨⟨b, t''⟩, hins, rfl⟩ := ExceptCheck.map_eq_ok.mp h
    exact insertBlock_wf hwf hins
  | insertQuorumCert qc => exact insertQuorumCert_wf hwf h
  | replace2chainTimeoutCert tc =>
    cases h
    exact ⟨hwf.of_maps_eq rfl rfl rfl rfl, Advances.of_eq rfl rfl rfl⟩
  | updateOrderedRoot rootId =>
    obtain rfl := updateOrderedRoot_eq h
    exact ⟨hwf.of_maps_eq rfl rfl rfl rfl, Advances.of_eq rfl rfl rfl⟩
  | updateCommitRoot rootId =>
    obtain rfl := updateCommitRoot_eq h
    exact ⟨hwf.of_maps_eq rfl rfl rfl rfl, Advances.of_eq rfl rfl rfl⟩
  | processPrunedBlocks newlyPrunedBlocks =>
    cases h
    exact processPrunedBlocks_wf newlyPrunedBlocks hwf
  | commitCallback blocksToCommit finalityProof commitDecision => exact commitCallback_wf hwf h

/-- A run of calls that returns keeps `Wf` and advances the tree. -/
theorem run_wf : ∀ (ops : List (Op A PK Sig)) {t t' : BlockTree A PK Sig}, t.Wf → t.run ops = .ok t' →
    t'.Wf ∧ Advances t t'
  | [], t, t', hwf, h => by
    cases h
    exact ⟨hwf, Advances.refl t⟩
  | op :: ops, t, t', hwf, h => by
    unfold run at h
    split at h
    · rename_i t₁ h₁
      obtain ⟨hwf₁, hadv₁⟩ := Op.apply_wf op hwf h₁
      obtain ⟨hwf', hadv'⟩ := run_wf ops hwf₁ h
      exact ⟨hwf', hadv₁.trans hadv'⟩
    · cases h

theorem new_wf {root : ExecutedBlock A PK Sig} {rootQuorumCert rootOrderedCert rootCommitCert : QuorumCert A PK Sig}
    {maxPrunedBlocksInMem : Nat} {tc : Option (TwoChainTimeoutCertificate A PK Sig)}
    (h : new root rootQuorumCert rootOrderedCert rootCommitCert maxPrunedBlocksInMem tc = .ok t) : t.Wf := by
  unfold new at h
  split at h
  · cases h
  · cases h
    exact ⟨List.nodup_singleton _, List.nodup_singleton _, Nat.zero_le _⟩

end BlockTree

end AptosCore.Consensus
