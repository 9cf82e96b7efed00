import AptosCore.Jmt.Key
import AptosCore.Types.ValidatorVerifier

/-!
# Consensus types

The data of `consensus/consensus-types` and `types` that the safety rules and
the vote aggregation read: block infos, ledger infos, quorum certificates,
blocks, votes, 2-chain timeouts and their certificates, and the safety data a
validator persists. Authors are of a type `A` ordered as account addresses are,
public keys of a type `PK` and signatures of a type `Sig`; hashes and block ids
are `HashValue`s.

Left out, as nothing modelled reads them: the payload and the failed authors of
a proposal, and the timestamps' use in `verify_well_formed`.
-/

namespace AptosCore.Consensus

variable (A PK Sig : Type) [LinearOrder A]

/-- `EpochState`: an epoch and its validator set. -/
structure EpochState where
  epoch : Nat
  verifier : ValidatorVerifier A PK

/-- `BlockInfo`. -/
structure BlockInfo where
  epoch : Nat
  round : Nat
  id : HashValue
  executedStateId : HashValue
  version : Nat
  timestampUsecs : Nat
  nextEpochState : Option (EpochState A PK)

/-- `VoteData`: the block voted for and its parent. -/
structure VoteData where
  proposed : BlockInfo A PK
  parent : BlockInfo A PK

/-- `LedgerInfo`: the block to commit (or `BlockInfo::empty()`) and the hash of the
vote data it was signed with. -/
structure LedgerInfo where
  commitInfo : BlockInfo A PK
  consensusDataHash : HashValue

/-- `LedgerInfoWithSignatures`, the signatures by author. -/
structure LedgerInfoWithSignatures where
  ledgerInfo : LedgerInfo A PK
  signatures : List (A × Sig)

/-- `QuorumCert`. -/
structure QuorumCert where
  voteData : VoteData A PK
  signedLedgerInfo : LedgerInfoWithSignatures A PK Sig

/-- `BlockType`: a proposal names its author; nil and genesis blocks have none. -/
inductive BlockType where
  | proposal (author : A)
  | nilBlock
  | genesis

/-- `BlockData`. -/
structure BlockData where
  epoch : Nat
  round : Nat
  timestampUsecs : Nat
  quorumCert : QuorumCert A PK Sig
  blockType : BlockType A

/-- `Block`: its id, its data and the proposer's signature. -/
structure Block where
  id : HashValue
  blockData : BlockData A PK Sig
  signature : Option Sig

/-- `TwoChainTimeout`: a validator's timeout of a round, with the highest quorum
certificate it has seen. -/
structure TwoChainTimeout where
  epoch : Nat
  round : Nat
  quorumCert : QuorumCert A PK Sig

/-- `TimeoutSigningRepr`: what a validator signs of a timeout. -/
structure TimeoutSigningRepr where
  epoch : Nat
  round : Nat
  hqcRound : Nat

/-- `TwoChainTimeoutCertificate`: a timeout, and each signer's highest certified
round with its signature. -/
structure TwoChainTimeoutCertificate where
  timeout : TwoChainTimeout A PK Sig
  signatures : List (A × Nat × Sig)

/-- `Vote`. -/
structure Vote where
  voteData : VoteData A PK
  author : A
  ledgerInfo : LedgerInfo A PK
  signature : Sig
  twoChainTimeout : Option (TwoChainTimeout A PK Sig × Sig)

/-- `VoteProposal`: a block to vote on, with the proof of `E` that its execution
extends the parent's accumulator. -/
structure VoteProposal (E : Type) where
  accumulatorExtensionProof : E
  block : Block A PK Sig
  nextEpochState : Option (EpochState A PK)
  decoupledExecution : Bool

/-- `SafetyData`: what a validator persists about its votes. -/
structure SafetyData where
  epoch : Nat
  lastVotedRound : Nat
  preferredRound : Nat
  oneChainRound : Nat
  lastVote : Option (Vote A PK Sig)

/-- `Waypoint`: a version and the hash of a ledger info. -/
structure Waypoint where
  version : Nat
  value : HashValue
  deriving DecidableEq, Repr

variable {A PK Sig}

/-- `BlockInfo::empty()`. -/
def BlockInfo.empty : BlockInfo A PK := ⟨0, 0, 0, 0, 0, 0, none⟩

/-- `QuorumCert::certified_block`. -/
def QuorumCert.certifiedBlock (qc : QuorumCert A PK Sig) : BlockInfo A PK := qc.voteData.proposed

/-- `QuorumCert::parent_block`. -/
def QuorumCert.parentBlock (qc : QuorumCert A PK Sig) : BlockInfo A PK := qc.voteData.parent

/-- `BlockData::author`. -/
def BlockData.author (blockData : BlockData A PK Sig) : Option A :=
  match blockData.blockType with
  | .proposal author => some author
  | _ => none

/-- `Vote::epoch`. -/
def Vote.epoch (vote : Vote A PK Sig) : Nat := vote.voteData.proposed.epoch

/-- `Block::round`. -/
def Block.round (block : Block A PK Sig) : Nat := block.blockData.round

/-- `Block::epoch`. -/
def Block.epoch (block : Block A PK Sig) : Nat := block.blockData.epoch

/-- `Block::quorum_cert`. -/
def Block.quorumCert (block : Block A PK Sig) : QuorumCert A PK Sig := block.blockData.quorumCert

/-- `TwoChainTimeout::hqc_round`. -/
def TwoChainTimeout.hqcRound (timeout : TwoChainTimeout A PK Sig) : Nat :=
  timeout.quorumCert.certifiedBlock.round

/-- `TwoChainTimeoutCertificate::round`. -/
def TwoChainTimeoutCertificate.round (tc : TwoChainTimeoutCertificate A PK Sig) : Nat := tc.timeout.round

/-- `TwoChainTimeoutCertificate::highest_hqc_round`. -/
def TwoChainTimeoutCertificate.highestHqcRound (tc : TwoChainTimeoutCertificate A PK Sig) : Nat :=
  tc.timeout.hqcRound

/-- `TwoChainTimeout::signing_format`. -/
def TwoChainTimeout.signingFormat (timeout : TwoChainTimeout A PK Sig) : TimeoutSigningRepr :=
  ⟨timeout.epoch, timeout.round, timeout.hqcRound⟩

/-- `Block::gen_block_info`. -/
def Block.genBlockInfo (block : Block A PK Sig) (executedStateId : HashValue) (version : Nat)
    (nextEpochState : Option (EpochState A PK)) : BlockInfo A PK :=
  ⟨block.epoch, block.round, block.id, executedStateId, version, block.blockData.timestampUsecs,
    nextEpochState⟩

/-- `VoteProposal::gen_vote_data`: with decoupled execution the executed state is the
placeholder at version 0; otherwise it is the root and version of the accumulator
that `verifyExtension` checks the extension proof into, from the parent's state. -/
def VoteProposal.genVoteData {E : Type} (placeholder : HashValue)
    (verifyExtension : E → HashValue → Except String (HashValue × Nat))
    (voteProposal : VoteProposal A PK Sig E) : Except String (VoteData A PK) :=
  let block := voteProposal.block
  if voteProposal.decoupledExecution then
    .ok ⟨block.genBlockInfo placeholder 0 voteProposal.nextEpochState, block.quorumCert.certifiedBlock⟩
  else
    verifyExtension voteProposal.accumulatorExtensionProof block.quorumCert.certifiedBlock.executedStateId
      >>= fun (rootHash, version) =>
        .ok ⟨block.genBlockInfo rootHash version voteProposal.nextEpochState,
          block.quorumCert.certifiedBlock⟩

/-- The vote data of a proposal are for its block: its epoch and its round. -/
theorem VoteProposal.genVoteData_proposed {E : Type} {placeholder : HashValue}
    {verifyExtension : E → HashValue → Except String (HashValue × Nat)} {voteProposal : VoteProposal A PK Sig E}
    {voteData : VoteData A PK} (h : voteProposal.genVoteData placeholder verifyExtension = .ok voteData) :
    voteData.proposed.epoch = voteProposal.block.epoch ∧ voteData.proposed.round = voteProposal.block.round := by
  unfold genVoteData at h
  dsimp only at h
  split at h
  · cases h
    exact ⟨rfl, rfl⟩
  · cases hv : verifyExtension voteProposal.accumulatorExtensionProof
        voteProposal.block.quorumCert.certifiedBlock.executedStateId with
    | ok rv =>
      rw [hv] at h
      cases h
      exact ⟨rfl, rfl⟩
    | error e =>
      rw [hv] at h
      cases h

/-- `Vote::new_with_signature`. -/
def Vote.newWithSignature (voteData : VoteData A PK) (author : A) (ledgerInfo : LedgerInfo A PK)
    (signature : Sig) : Vote A PK Sig :=
  ⟨voteData, author, ledgerInfo, signature, none⟩

/-- `BlockInfo::is_ordered_only`: not `BlockInfo::empty()` (compared field by field),
with no next epoch state, the placeholder as executed state and version 0. -/
def BlockInfo.isOrderedOnly (placeholder : HashValue) (b : BlockInfo A PK) : Bool :=
  !(b.epoch == 0 && b.round == 0 && b.id == 0 && b.executedStateId == 0 && b.version == 0 &&
      b.timestampUsecs == 0 && b.nextEpochState.isNone) &&
    b.nextEpochState.isNone && b.executedStateId == placeholder && b.version == 0

/-- `BlockInfo::match_ordered_only`: the executed block info may have moved its
timestamp back only for a reconfiguration. -/
def BlockInfo.matchOrderedOnly (b executed : BlockInfo A PK) : Bool :=
  b.epoch == executed.epoch && b.round == executed.round && b.id == executed.id &&
    (b.timestampUsecs == executed.timestampUsecs ||
      (executed.timestampUsecs < b.timestampUsecs && executed.nextEpochState.isSome))

/-- `SafetyData::new`. -/
def SafetyData.new (epoch lastVotedRound preferredRound oneChainRound : Nat)
    (lastVote : Option (Vote A PK Sig)) : SafetyData A PK Sig :=
  ⟨epoch, lastVotedRound, preferredRound, oneChainRound, lastVote⟩

end AptosCore.Consensus
