import AptosCore.Consensus.Types
import AptosCore.Lib.ExceptCheck

/-!
# Checking votes and certificates

What a validator checks of a vote, a quorum certificate and a 2-chain timeout
certificate before it uses one: `Vote::verify`, `QuorumCert::verify`,
`TwoChainTimeout::verify` and `TwoChainTimeoutCertificate::verify`, over the
signature checks of `ValidatorVerifier`. How a certificate grows from single
votes is in the same sources: `LedgerInfoWithSignatures::add_signature` keeps an
author's first signature, `TwoChainTimeoutCertificate::add` replaces an author's
entry and keeps the timeout of the highest quorum certificate.

The hashes of ledger infos and vote data and the check of a signature are the
parameters `Crypto`. `batch_verify_aggregated_signatures` is modelled by the
check it falls back to, `verify_aggregated_struct_signature`: a batch of
signatures verifies exactly when each of them does. An `anyhow` error is its
text.
-/

namespace AptosCore

deriving instance DecidableEq for ValidatorVerifier

namespace Consensus

deriving instance DecidableEq for EpochState
deriving instance DecidableEq for BlockInfo

/-- The hashes and the signature check the certificates rely on. -/
structure Crypto (A PK : Type) [LinearOrder A] (Sig : Type) where
  /-- `LedgerInfo::hash`, the digest a vote is counted under. -/
  hashLedgerInfo : LedgerInfo A PK → HashValue
  /-- `VoteData::hash`. -/
  hashVoteData : VoteData A PK → HashValue
  /-- `verify_struct_signature` of a ledger info under a public key. -/
  verifyLedgerInfo : PK → LedgerInfo A PK → Sig → Bool
  /-- `verify_struct_signature` of a `TimeoutSigningRepr` under a public key. -/
  verifyTimeoutSigningRepr : PK → TimeoutSigningRepr → Sig → Bool

end Consensus

namespace VerifyError

/-- The `Display` texts of `VerifyError`. -/
def message : VerifyError → String
  | .unknownAuthor => "Author is unknown"
  | .tooLittleVotingPower votingPower expectedVotingPower =>
    s!"The voting power ({votingPower}) is less than expected voting power ({expectedVotingPower})"
  | .tooManySignatures numOfSignatures numOfAuthors =>
    s!"The number of signatures ({numOfSignatures}) is greater than total number of authors ({numOfAuthors})"
  | .invalidSignature => "Signature is invalid"
  | .inconsistentBlockInfo => "Inconsistent Block Info"
  | .panic msg => msg

end VerifyError

namespace ValidatorVerifier

variable {A PK Sig M : Type} [LinearOrder A]

/-- `ValidatorVerifier::verify`: the signature of a known author on a message,
checked under its public key. -/
def verify (v : ValidatorVerifier A PK) (verifyStruct : PK → M → Sig → Bool) (author : A) (message : M)
    (signature : Sig) : Except VerifyError Unit :=
  match v.getPublicKey author with
  | some publicKey => if verifyStruct publicKey message signature then .ok () else .error .invalidSignature
  | none => .error .unknownAuthor

/-- `check_num_of_signatures`: no more signatures than validators. -/
def checkNumOfSignatures (v : ValidatorVerifier A PK) (aggregatedSignature : List (A × Sig)) :
    Except VerifyError Unit :=
  if v.len < aggregatedSignature.length then .error (.tooManySignatures aggregatedSignature.length v.len)
  else .ok ()

/-- `verify_aggregated_struct_signature`: not too many signatures, a quorum of
known authors, and each signature valid, checked in the order of the authors. -/
def verifyAggregatedStructSignature (v : ValidatorVerifier A PK) (verifyStruct : PK → M → Sig → Bool)
    (message : M) (aggregatedSignature : List (A × Sig)) : Except VerifyError Unit := do
  v.checkNumOfSignatures aggregatedSignature
  v.checkVotingPower (aggregatedSignature.map Prod.fst)
  aggregatedSignature.forM fun (author, signature) => v.verify verifyStruct author message signature

end ValidatorVerifier

namespace Consensus

variable {A PK Sig : Type} [LinearOrder A] [DecidableEq PK] (C : Crypto A PK Sig)

/-- `Vote::is_timeout`. -/
def Vote.isTimeout (vote : Vote A PK Sig) : Bool := vote.twoChainTimeout.isSome

/-- `LedgerInfoWithSignatures::add_signature`: `entry(validator).or_insert(signature)`,
so an author's first signature stays. -/
def LedgerInfoWithSignatures.addSignature (li : LedgerInfoWithSignatures A PK Sig) (validator : A)
    (signature : Sig) : LedgerInfoWithSignatures A PK Sig :=
  match li.signatures.lookup validator with
  | some _ => li
  | none => { li with signatures := SortedMap.insert validator signature li.signatures }

namespace LedgerInfoWithSignatures

omit [DecidableEq PK]

@[simp] theorem addSignature_ledgerInfo (li : LedgerInfoWithSignatures A PK Sig) (validator : A) (signature : Sig) :
    (li.addSignature validator signature).ledgerInfo = li.ledgerInfo := by
  unfold addSignature
  split <;> rfl

theorem sorted_addSignature {li : LedgerInfoWithSignatures A PK Sig} (h : SortedMap.Sorted li.signatures)
    (validator : A) (signature : Sig) : SortedMap.Sorted (li.addSignature validator signature).signatures := by
  unfold addSignature
  split
  · exact h
  · exact SortedMap.sorted_insert validator signature h

/-- An added signature is the validator's, or one that was there. -/
theorem mem_addSignature {li : LedgerInfoWithSignatures A PK Sig} {validator : A} {signature : Sig}
    {x : A × Sig} (hx : x ∈ (li.addSignature validator signature).signatures) :
    x ∈ li.signatures ∨ x = (validator, signature) := by
  unfold addSignature at hx
  split at hx
  · exact Or.inl hx
  · exact (SortedMap.mem_insert hx).symm

end LedgerInfoWithSignatures

/-- `LedgerInfoWithSignatures::verify_signatures`. -/
def LedgerInfoWithSignatures.verifySignatures (v : ValidatorVerifier A PK) (li : LedgerInfoWithSignatures A PK Sig) :
    Except VerifyError Unit :=
  v.verifyAggregatedStructSignature C.verifyLedgerInfo li.ledgerInfo li.signatures

/-- `VoteData::verify`. -/
def VoteData.verify (voteData : VoteData A PK) : Except String Unit := do
  unless voteData.parent.epoch = voteData.proposed.epoch do throw "Parent and proposed epochs do not match"
  unless voteData.parent.round < voteData.proposed.round do throw "Proposed round is less than parent round"
  unless voteData.parent.timestampUsecs ≤ voteData.proposed.timestampUsecs do
    throw "Proposed happened before parent"
  unless voteData.proposed.version = 0 ∨ voteData.parent.version ≤ voteData.proposed.version do
    throw "Proposed version is less than parent version"

/-- `QuorumCert::verify`: the ledger info is of the vote data; a certificate of
round 0 is a genesis one with no signatures, any other carries a quorum of valid
signatures on well-formed vote data. -/
def QuorumCert.verify (v : ValidatorVerifier A PK) (qc : QuorumCert A PK Sig) : Except String Unit := do
  unless qc.signedLedgerInfo.ledgerInfo.consensusDataHash = C.hashVoteData qc.voteData do
    throw "Quorum Cert's hash mismatch LedgerInfo"
  if qc.certifiedBlock.round = 0 then
    unless qc.parentBlock = qc.certifiedBlock do
      throw "Genesis QC has inconsistent parent block with certified block"
    unless qc.certifiedBlock = qc.signedLedgerInfo.ledgerInfo.commitInfo do
      throw "Genesis QC has inconsistent commit block with certified block"
    unless qc.signedLedgerInfo.signatures.isEmpty do throw "Genesis QC should not carry signatures"
  else
    (qc.signedLedgerInfo.verifySignatures C v).mapError fun _ => "Fail to verify QuorumCert"
    qc.voteData.verify

/-- `TwoChainTimeout::verify`: the timeout is above its quorum certificate, which
verifies. -/
def TwoChainTimeout.verify (v : ValidatorVerifier A PK) (timeout : TwoChainTimeout A PK Sig) : Except String Unit := do
  unless timeout.hqcRound < timeout.round do throw "Timeout round should be larger than the QC round"
  timeout.quorumCert.verify C v

/-- `Vote::verify`: the ledger info is of the vote data and signed by the author; an
attached timeout is of the vote's epoch and round, valid and signed by the
author; the vote data are well formed. -/
def Vote.verify (v : ValidatorVerifier A PK) (vote : Vote A PK Sig) : Except String Unit := do
  unless vote.ledgerInfo.consensusDataHash = C.hashVoteData vote.voteData do
    throw "Vote's hash mismatch with LedgerInfo"
  (v.verify C.verifyLedgerInfo vote.author vote.ledgerInfo vote.signature).mapError
    fun _ => "Failed to verify Vote"
  match vote.twoChainTimeout with
  | some (timeout, signature) =>
    unless (timeout.epoch, timeout.round) = (vote.epoch, vote.voteData.proposed.round) do
      throw "2-chain timeout has different (epoch, round) than Vote"
    timeout.verify C v
    (v.verify C.verifyTimeoutSigningRepr vote.author timeout.signingFormat signature).mapError
      fun _ => "Failed to verify 2-chain timeout signature"
  | none => pure ()
  vote.voteData.verify

namespace TwoChainTimeoutCertificate

/-- `TwoChainTimeoutCertificate::new`. -/
def new (timeout : TwoChainTimeout A PK Sig) : TwoChainTimeoutCertificate A PK Sig := ⟨timeout, []⟩

/-- `TwoChainTimeoutCertificate::signers`. -/
def signers (tc : TwoChainTimeoutCertificate A PK Sig) : List A := tc.signatures.map Prod.fst

/-- `TwoChainTimeoutCertificate::add`: the timeout of the highest quorum
certificate is kept, and the author's entry is its round and signature. -/
def add (tc : TwoChainTimeoutCertificate A PK Sig) (author : A) (timeout : TwoChainTimeout A PK Sig)
    (signature : Sig) : TwoChainTimeoutCertificate A PK Sig :=
  let tc := if tc.timeout.hqcRound < timeout.hqcRound then { tc with timeout } else tc
  { tc with signatures := SortedMap.insert author (timeout.hqcRound, signature) tc.signatures }

omit [DecidableEq PK] in
@[simp] theorem add_signatures (tc : TwoChainTimeoutCertificate A PK Sig) (author : A)
    (timeout : TwoChainTimeout A PK Sig) (signature : Sig) :
    (tc.add author timeout signature).signatures = SortedMap.insert author (timeout.hqcRound, signature) tc.signatures := by
  unfold add
  split <;> rfl

omit [DecidableEq PK] in
theorem add_timeout (tc : TwoChainTimeoutCertificate A PK Sig) (author : A) (timeout : TwoChainTimeout A PK Sig)
    (signature : Sig) :
    (tc.add author timeout signature).timeout =
      if tc.timeout.hqcRound < timeout.hqcRound then timeout else tc.timeout := by
  unfold add
  split <;> rfl

/-- `TwoChainTimeoutCertificate::verify`: the timeout is valid, its signers a
quorum, each signature valid on the timeout's epoch and round with the signer's
round, and the timeout's quorum certificate of the highest of those rounds. -/
def verify (v : ValidatorVerifier A PK) (tc : TwoChainTimeoutCertificate A PK Sig) : Except String Unit := do
  tc.timeout.verify C v
  let hqcRound := tc.timeout.hqcRound
  (v.checkVotingPower tc.signers).mapError VerifyError.message
  let signedRound ← tc.signatures.foldlM (fun signedRound (author, qcRound, signature) => do
    let t : TimeoutSigningRepr := ⟨tc.timeout.epoch, tc.timeout.round, qcRound⟩
    (v.verify C.verifyTimeoutSigningRepr author t signature).mapError
      fun _ => "Failed to verify TimeoutSigningRepr"
    pure (max signedRound qcRound)) 0
  unless hqcRound = signedRound do
    throw s!"Inconsistent hqc round, qc has round {hqcRound}, highest signed round {signedRound}"

end TwoChainTimeoutCertificate

/-! ## What passes the checks -/

/-- What `Vote::verify` establishes of a vote. -/
structure Vote.Verified (v : ValidatorVerifier A PK) (vote : Vote A PK Sig) : Prop where
  consensusDataHash : vote.ledgerInfo.consensusDataHash = C.hashVoteData vote.voteData
  signature : v.verify C.verifyLedgerInfo vote.author vote.ledgerInfo vote.signature = .ok ()
  timeout : ∀ timeout signature, vote.twoChainTimeout = some (timeout, signature) →
    timeout.epoch = vote.epoch ∧ timeout.round = vote.voteData.proposed.round ∧ timeout.verify C v = .ok () ∧
      v.verify C.verifyTimeoutSigningRepr vote.author timeout.signingFormat signature = .ok ()
  voteData : vote.voteData.verify = .ok ()

variable {C} {v : ValidatorVerifier A PK}

theorem Vote.verified_of_verify {vote : Vote A PK Sig} (h : vote.verify C v = .ok ()) :
    vote.Verified C v := by
  cases ht : vote.twoChainTimeout with
  | none =>
    simp [Vote.verify, ht] at h
    obtain ⟨hhash, hsig, hdata⟩ := h
    refine ⟨hhash, hsig, fun _ _ hsome => ?_, hdata⟩
    rw [ht] at hsome
    cases hsome
  | some entry =>
    obtain ⟨timeout, timeoutSignature⟩ := entry
    simp [Vote.verify, ht] at h
    obtain ⟨hhash, hsig, ⟨hepoch, hround⟩, htimeout, htsig, hdata⟩ := h
    refine ⟨hhash, hsig, fun _ _ hsome => ?_, hdata⟩
    rw [ht, Option.some.injEq, Prod.mk.injEq] at hsome
    obtain ⟨rfl, rfl⟩ := hsome
    exact ⟨hepoch, hround, htimeout, htsig⟩

omit [DecidableEq PK] in
theorem VoteData.round_lt_of_verify {voteData : VoteData A PK} (h : voteData.verify = .ok ()) :
    voteData.parent.round < voteData.proposed.round := by
  simp [VoteData.verify] at h
  exact h.2.1

/-- A certificate above round 0 passes with a valid aggregate on its well-formed vote data. -/
theorem QuorumCert.verify_of_signatures {qc : QuorumCert A PK Sig}
    (hhash : qc.signedLedgerInfo.ledgerInfo.consensusDataHash = C.hashVoteData qc.voteData)
    (hround : qc.certifiedBlock.round ≠ 0) (hsig : qc.signedLedgerInfo.verifySignatures C v = .ok ())
    (hdata : qc.voteData.verify = .ok ()) : qc.verify C v = .ok () := by
  simp [QuorumCert.verify, hhash, hround, hsig, hdata]

omit [DecidableEq PK] in
theorem ValidatorVerifier.verifyAggregatedStructSignature_of {M : Type} {verifyStruct : PK → M → Sig → Bool}
    {message : M} {aggregatedSignature : List (A × Sig)} (hnum : aggregatedSignature.length ≤ v.len)
    (hpower : v.checkVotingPower (aggregatedSignature.map Prod.fst) = .ok ())
    (hsig : ∀ x ∈ aggregatedSignature, v.verify verifyStruct x.1 message x.2 = .ok ()) :
    v.verifyAggregatedStructSignature verifyStruct message aggregatedSignature = .ok () := by
  have hcount : v.checkNumOfSignatures aggregatedSignature = .ok () := if_neg (Nat.not_lt.mpr hnum)
  simp [ValidatorVerifier.verifyAggregatedStructSignature, hcount, hpower, ExceptCheck.forM_eq_ok hsig]

/-- A certificate passes when its timeout is valid, its signers a quorum with
valid signatures, and its timeout's round the highest they signed. -/
theorem TwoChainTimeoutCertificate.verify_of {tc : TwoChainTimeoutCertificate A PK Sig}
    (htimeout : tc.timeout.verify C v = .ok ()) (hpower : v.checkVotingPower tc.signers = .ok ())
    (hsig : ∀ x ∈ tc.signatures,
      v.verify C.verifyTimeoutSigningRepr x.1 ⟨tc.timeout.epoch, tc.timeout.round, x.2.1⟩ x.2.2 = .ok ())
    (hle : ∀ x ∈ tc.signatures, x.2.1 ≤ tc.timeout.hqcRound)
    (hreach : ∃ x ∈ tc.signatures, x.2.1 = tc.timeout.hqcRound) :
    tc.verify C v = .ok () := by
  simp only [TwoChainTimeoutCertificate.verify, htimeout, hpower, ExceptCheck.bind_eq_ok, ExceptCheck.mapError_eq_ok]
  refine ⟨(), trivial, (), trivial, tc.timeout.hqcRound, ?_, by simp⟩
  rw [ExceptCheck.foldlM_eq_ok (g := fun m x => max m x.2.1) 0,
    ExceptCheck.foldl_max_eq _ (Nat.zero_le _) hle (Or.inr hreach)]
  intro x hx c
  rw [hsig x hx]
  rfl

end Consensus

end AptosCore
