import AptosCore.Consensus.Types
import AptosCore.Lib.U64

/-!
# Safety rules

`consensus/safety-rules`: the component that holds a validator's consensus key
and signs proposals, votes, timeouts and commit votes only when the rules of the
2-chain protocol allow it. Its state is `SafetyRules`: a `PersistentSafetyStorage`
(the secure storage, with a cached copy of the `SafetyData`), the signer and the
epoch state. Each method takes `&mut self` and returns a `Result`; a method that
fails keeps what it changed before failing, so the model is `EStateM Error`.

The secure storage is a state `σ` read and written through `SecureStorage`; a
failed write leaves it as it was. What the rules do not decide is left abstract in
`Primitives`: signing, hashing, the check of each certificate and proof, and the
`Display` texts that errors carry.

The public methods of `TSafetyRules` run the guarded ones through `run_and_log`,
which only logs; `Request.run` dispatches a call to its guarded method.
-/

namespace AptosCore.Consensus

/-- `aptos_secure_storage::Error`. -/
inductive StorageError where
  | entropyError (msg : String)
  | internalError (msg : String)
  | keyAlreadyExists (msg : String)
  | keyNotSet (msg : String)
  | permissionDenied
  | serializationError (msg : String)
  | keyVersionNotFound (name version : String)
  deriving DecidableEq, Repr

/-- The `Display` texts of `aptos_secure_storage::Error`. -/
def StorageError.toString : StorageError → String
  | .entropyError msg => "Entropy error: " ++ msg
  | .internalError msg => "Internal error: " ++ msg
  | .keyAlreadyExists msg => "Key already exists: " ++ msg
  | .keyNotSet msg => "Key not set: " ++ msg
  | .permissionDenied => "Permission denied"
  | .serializationError msg => "Serialization error: " ++ msg
  | .keyVersionNotFound name version => "Key version not found, key name: " ++ name ++ ", version: " ++ version

instance : ToString StorageError := ⟨StorageError.toString⟩

/-- `safety_rules::Error`, and `panic` for a panic of the thread. -/
inductive Error where
  | incorrectEpoch (given expected : Nat)
  | incorrectRound (round : Nat)
  | incorrectLastVotedRound (round lastVotedRound : Nat)
  | incorrectPreferredRound (round preferredRound : Nat)
  | invalidAccumulatorExtension (msg : String)
  | invalidEpochChangeProof (msg : String)
  | internalError (msg : String)
  | invalidLedgerInfo
  | invalidProposal (msg : String)
  | invalidQuorumCertificate (msg : String)
  | notInitialized (field : String)
  | secureStorageMissingDataError (msg : String)
  | secureStorageUnexpectedError (msg : String)
  | serializationError (msg : String)
  | validatorKeyNotFound (msg : String)
  | validatorNotInSet (author : String)
  | voteProposalSignatureNotFound
  | notSafeToVote (round qcRound tcRound hqcRound : Nat)
  | notSafeToTimeout (round qcRound tcRound oneChainRound : Nat)
  | invalidTimeoutCertificate (msg : String)
  | inconsistentExecutionResult (ordered executed : String)
  | invalidOrderedLedgerInfo (msg : String)
  | waypointOutOfDate (previousVersion updatedVersion currentEpoch providedEpoch : Nat)
  | invalidTimeout (msg : String)
  | panic (msg : String)
  deriving DecidableEq, Repr

/-- `impl From<aptos_secure_storage::Error> for Error`: a denied permission panics. -/
def Error.ofStorage : StorageError → Error
  | .permissionDenied =>
    .panic "A permission error was thrown: PermissionDenied. Maybe the storage token needs to be renewed?"
  | error@(.keyVersionNotFound _ _) => .secureStorageMissingDataError (toString error)
  | error@(.keyNotSet _) => .secureStorageMissingDataError (toString error)
  | error => .secureStorageUnexpectedError (toString error)

variable {A PK SK Sig E P σ : Type} [LinearOrder A]

variable (A PK SK Sig σ) in
/-- The secure storage (`aptos_secure_storage::Storage`) at the keys the safety
rules use: `safety_data`, `waypoint`, `owner_account` and `consensus`. A write
that fails leaves the storage as it was. -/
structure SecureStorage where
  getSafetyData : σ → Except StorageError (SafetyData A PK Sig)
  setSafetyData : SafetyData A PK Sig → σ → Except StorageError σ
  getWaypoint : σ → Except StorageError Waypoint
  setWaypoint : Waypoint → σ → Except StorageError σ
  getOwnerAccount : σ → Except StorageError A
  getConsensusKey : σ → Except StorageError SK

/-- A storage that reads back what was written: a successful write of the safety
data is what the next read returns, and a write of the waypoint leaves the safety
data as it was. -/
structure SecureStorage.Lawful (S : SecureStorage A PK SK Sig σ) : Prop where
  getSafetyData_setSafetyData {data : SafetyData A PK Sig} {s s' : σ} :
    S.setSafetyData data s = .ok s' → S.getSafetyData s' = .ok data
  getSafetyData_setWaypoint {w : Waypoint} {s s' : σ} :
    S.setWaypoint w s = .ok s' → S.getSafetyData s' = S.getSafetyData s

variable (A PK SK Sig) in
/-- `InMemoryStorage` at the keys the safety rules use. -/
structure InMemoryStorage where
  safetyData : Option (SafetyData A PK Sig)
  waypoint : Option Waypoint
  ownerAccount : Option A
  consensusKey : Option SK

/-- `InMemoryStorage::get`, `InMemoryStorage::set`: a key never written is `KeyNotSet`;
a write always succeeds. -/
def InMemoryStorage.storage : SecureStorage A PK SK Sig (InMemoryStorage A PK SK Sig) where
  getSafetyData s := match s.safetyData with
    | some data => .ok data
    | none => .error (.keyNotSet "safety_data")
  setSafetyData data s := .ok { s with safetyData := some data }
  getWaypoint s := match s.waypoint with
    | some waypoint => .ok waypoint
    | none => .error (.keyNotSet "waypoint")
  setWaypoint waypoint s := .ok { s with waypoint := some waypoint }
  getOwnerAccount s := match s.ownerAccount with
    | some author => .ok author
    | none => .error (.keyNotSet "owner_account")
  getConsensusKey s := match s.consensusKey with
    | some key => .ok key
    | none => .error (.keyNotSet "consensus")

/-- The in-memory storage reads back what was written. -/
theorem InMemoryStorage.lawful : (InMemoryStorage.storage : SecureStorage A PK SK Sig _).Lawful where
  getSafetyData_setSafetyData h := by
    cases h
    rfl
  getSafetyData_setWaypoint h := by
    cases h
    rfl

variable (A PK SK Sig E P) in
/-- What the safety rules take from outside: the consensus key's public key and
signatures, the hash of vote data, the checks of certificates, proposals and
proofs (each `Err` with its message), `Waypoint::new_epoch_boundary`,
`ACCUMULATOR_PLACEHOLDER_HASH`, and the `Display` texts. -/
structure Primitives where
  publicKey : SK → PK
  signBlockData : SK → BlockData A PK Sig → Sig
  signTimeout : SK → TimeoutSigningRepr → Sig
  signLedgerInfo : SK → LedgerInfo A PK → Sig
  hashVoteData : VoteData A PK → HashValue
  verifyQc : QuorumCert A PK Sig → ValidatorVerifier A PK → Except String Unit
  validateSignature : Block A PK Sig → ValidatorVerifier A PK → Except String Unit
  verifyWellFormed : Block A PK Sig → Except String Unit
  verifyExtension : E → HashValue → Except String (HashValue × Nat)
  verifyTimeout : TwoChainTimeout A PK Sig → ValidatorVerifier A PK → Except String Unit
  verifyTc : TwoChainTimeoutCertificate A PK Sig → ValidatorVerifier A PK → Except String Unit
  verifySignatures : LedgerInfoWithSignatures A PK Sig → ValidatorVerifier A PK → Except String Unit
  verifyEpochChangeProof : P → Waypoint → Except String (LedgerInfoWithSignatures A PK Sig)
  newEpochBoundary : LedgerInfo A PK → Except String Waypoint
  accumulatorPlaceholderHash : HashValue
  displayAuthor : A → String
  displayPublicKey : PK → String
  displayLedgerInfo : LedgerInfo A PK → String
  displayBlockInfo : BlockInfo A PK → String

variable (A SK) in
/-- `ValidatorSigner`. -/
structure ValidatorSigner where
  author : A
  privateKey : SK

variable (A PK Sig σ) in
/-- `PersistentSafetyStorage`. -/
structure PersistentSafetyStorage where
  enableCachedSafetyData : Bool
  cachedSafetyData : Option (SafetyData A PK Sig)
  internalStore : σ

variable (A PK SK Sig σ) in
/-- `SafetyRules`. -/
structure SafetyRules where
  persistentStorage : PersistentSafetyStorage A PK Sig σ
  validatorSigner : Option (ValidatorSigner A SK)
  epochState : Option (EpochState A PK)

/-- `PersistentSafetyStorage::new`: nothing cached. -/
def PersistentSafetyStorage.new (internalStore : σ) (enableCachedSafetyData : Bool) :
    PersistentSafetyStorage A PK Sig σ :=
  ⟨enableCachedSafetyData, none, internalStore⟩

/-- `SafetyRules::new`: no signer and no epoch state until `initialize`. -/
def SafetyRules.new (persistentStorage : PersistentSafetyStorage A PK Sig σ) :
    SafetyRules A PK SK Sig σ :=
  ⟨persistentStorage, none, none⟩

variable (A PK SK Sig σ) in
/-- The methods of `SafetyRules`. -/
abbrev SafetyRulesM := EStateM Error (SafetyRules A PK SK Sig σ)

/-! ## `PersistentSafetyStorage`

Its methods as functions of the storage: a method that takes `&mut self` returns
its result with the storage it leaves. -/

namespace PersistentSafetyStorage

variable (S : SecureStorage A PK SK Sig σ) (storage : PersistentSafetyStorage A PK Sig σ)

/-- `PersistentSafetyStorage::safety_data`: from the cache when caching is on and
the cache is filled, else from the storage, filling the cache. -/
def safetyData : Except Error (SafetyData A PK Sig) × PersistentSafetyStorage A PK Sig σ :=
  if !storage.enableCachedSafetyData then
    ((S.getSafetyData storage.internalStore).mapError Error.ofStorage, storage)
  else
    match storage.cachedSafetyData with
    | some cachedSafetyData => (.ok cachedSafetyData, storage)
    | none =>
      match S.getSafetyData storage.internalStore with
      | .ok safetyData => (.ok safetyData, { storage with cachedSafetyData := some safetyData })
      | .error error => (.error (Error.ofStorage error), storage)

/-- `PersistentSafetyStorage::set_safety_data`: on success the cache holds the new
data; on failure it is emptied. -/
def setSafetyData (data : SafetyData A PK Sig) : Except Error Unit × PersistentSafetyStorage A PK Sig σ :=
  match S.setSafetyData data storage.internalStore with
  | .ok internalStore => (.ok (), { storage with cachedSafetyData := some data, internalStore })
  | .error error =>
    (.error (.secureStorageUnexpectedError (toString error)), { storage with cachedSafetyData := none })

/-- `PersistentSafetyStorage::waypoint`. -/
def waypoint : Except Error Waypoint :=
  (S.getWaypoint storage.internalStore).mapError Error.ofStorage

/-- `PersistentSafetyStorage::set_waypoint`. -/
def setWaypoint (waypoint : Waypoint) : Except Error Unit × PersistentSafetyStorage A PK Sig σ :=
  match S.setWaypoint waypoint storage.internalStore with
  | .ok internalStore => (.ok (), { storage with internalStore })
  | .error error => (.error (Error.ofStorage error), storage)

/-- `PersistentSafetyStorage::author`. -/
def author : Except Error A :=
  (S.getOwnerAccount storage.internalStore).mapError Error.ofStorage

/-- `PersistentSafetyStorage::consensus_key_for_version`: the stored key, if its
public key is the one asked for. -/
def consensusKeyForVersion [DecidableEq PK] (C : Primitives A PK SK Sig E P) (version : PK) :
    Except Error SK := do
  let key ← (S.getConsensusKey storage.internalStore).mapError Error.ofStorage
  if C.publicKey key ≠ version then
    throw (.secureStorageMissingDataError ("PrivateKey for " ++ C.displayPublicKey version ++ " not found"))
  pure key

end PersistentSafetyStorage

/-- `self.persistent_storage.method(..)?` for a method that takes `&mut self`. -/
def modifyStorage {α : Type}
    (method : PersistentSafetyStorage A PK Sig σ → Except Error α × PersistentSafetyStorage A PK Sig σ) :
    SafetyRulesM A PK SK Sig σ α := do
  let st ← get
  set { st with persistentStorage := (method st.persistentStorage).2 }
  liftExcept (method st.persistentStorage).1

/-- `self.persistent_storage.method(..)?` for a method that takes `&self`. -/
def readStorage {α : Type} (method : PersistentSafetyStorage A PK Sig σ → Except Error α) :
    SafetyRulesM A PK SK Sig σ α := do
  liftExcept (method (← get).persistentStorage)

/-! ## The rules -/

/-- `next_round`: the round after, unless it does not fit a `u64`. -/
def nextRound (round : Nat) : Except Error Nat :=
  match U64.checkedAdd round 1 with
  | some next => .ok next
  | none => .error (.incorrectRound round)

/-- `SafetyRules::signer`. -/
def signer : SafetyRulesM A PK SK Sig σ (ValidatorSigner A SK) := do
  match (← get).validatorSigner with
  | some signer => pure signer
  | none => throw (.notInitialized "validator_signer")

/-- `SafetyRules::epoch_state`. -/
def epochState : SafetyRulesM A PK SK Sig σ (EpochState A PK) := do
  match (← get).epochState with
  | some epochState => pure epochState
  | none => throw (.notInitialized "epoch_state")

/-- `SafetyRules::sign`, with the signing function of the message's type. -/
def sign {M : Type} (signWith : SK → M → Sig) (message : M) : SafetyRulesM A PK SK Sig σ Sig := do
  let signer ← signer
  pure (signWith signer.privateKey message)

/-- `SafetyRules::observe_qc`: raises the one-chain round to the certified block's
round and the preferred round to its parent's; says whether either moved. -/
def observeQc (qc : QuorumCert A PK Sig) (safetyData : SafetyData A PK Sig) :
    Bool × SafetyData A PK Sig :=
  let oneChain := qc.certifiedBlock.round
  let twoChain := qc.parentBlock.round
  let (updated, safetyData) :=
    if oneChain > safetyData.oneChainRound then (true, { safetyData with oneChainRound := oneChain })
    else (false, safetyData)
  if twoChain > safetyData.preferredRound then (true, { safetyData with preferredRound := twoChain })
  else (updated, safetyData)

@[simp] theorem observeQc_epoch (qc : QuorumCert A PK Sig) (safetyData : SafetyData A PK Sig) :
    (observeQc qc safetyData).2.epoch = safetyData.epoch := by
  unfold observeQc
  dsimp only
  split_ifs <;> rfl

@[simp] theorem observeQc_lastVotedRound (qc : QuorumCert A PK Sig) (safetyData : SafetyData A PK Sig) :
    (observeQc qc safetyData).2.lastVotedRound = safetyData.lastVotedRound := by
  unfold observeQc
  dsimp only
  split_ifs <;> rfl

/-- Observing a quorum certificate only raises the one-chain and preferred rounds. -/
theorem observeQc_rounds_le (qc : QuorumCert A PK Sig) (safetyData : SafetyData A PK Sig) :
    safetyData.preferredRound ≤ (observeQc qc safetyData).2.preferredRound ∧
      safetyData.oneChainRound ≤ (observeQc qc safetyData).2.oneChainRound := by
  unfold observeQc
  dsimp only
  split_ifs with h₁ h₂ h₂
  · exact ⟨h₂.le, h₁.le⟩
  · exact ⟨le_rfl, h₁.le⟩
  · exact ⟨h₂.le, le_rfl⟩
  · exact ⟨le_rfl, le_rfl⟩

/-- `SafetyRules::verify_and_update_preferred_round`, the second voting rule. -/
def verifyAndUpdatePreferredRound (quorumCert : QuorumCert A PK Sig) (safetyData : SafetyData A PK Sig) :
    Except Error (Bool × SafetyData A PK Sig) := do
  let preferredRound := safetyData.preferredRound
  let oneChainRound := quorumCert.certifiedBlock.round
  if oneChainRound < preferredRound then
    throw (.incorrectPreferredRound oneChainRound preferredRound)
  pure (observeQc quorumCert safetyData)

/-- `SafetyRules::verify_author`: the proposal's author is the signer. -/
def verifyAuthor (author : Option A) : SafetyRulesM A PK SK Sig σ Unit := do
  let validatorSignerAuthor := (← signer).author
  match author with
  | none => throw (.invalidProposal "No author found in the proposal")
  | some author =>
    if validatorSignerAuthor ≠ author then
      throw (.invalidProposal "Proposal author is not validator signer!")

/-- `SafetyRules::verify_epoch`. -/
def verifyEpoch (epoch : Nat) (safetyData : SafetyData A PK Sig) : Except Error Unit := do
  if epoch ≠ safetyData.epoch then
    throw (.incorrectEpoch epoch safetyData.epoch)

/-- `SafetyRules::verify_and_update_last_vote_round`, the first voting rule. -/
def verifyAndUpdateLastVoteRound (round : Nat) (safetyData : SafetyData A PK Sig) :
    Except Error (SafetyData A PK Sig) := do
  if round ≤ safetyData.lastVotedRound then
    throw (.incorrectLastVotedRound round safetyData.lastVotedRound)
  pure { safetyData with lastVotedRound := round }

theorem verifyEpoch_eq_ok {epoch : Nat} {safetyData : SafetyData A PK Sig} {u : Unit}
    (h : verifyEpoch epoch safetyData = .ok u) : epoch = safetyData.epoch := by
  unfold verifyEpoch at h
  by_contra hne
  rw [if_pos hne] at h
  cases h

theorem verifyAndUpdateLastVoteRound_eq_ok {round : Nat} {safetyData safetyData' : SafetyData A PK Sig}
    (h : verifyAndUpdateLastVoteRound round safetyData = .ok safetyData') :
    safetyData.lastVotedRound < round ∧ safetyData' = { safetyData with lastVotedRound := round } := by
  unfold verifyAndUpdateLastVoteRound at h
  by_cases hle : round ≤ safetyData.lastVotedRound
  · rw [if_pos hle] at h
    cases h
  · rw [if_neg hle] at h
    cases h
    exact ⟨Nat.lt_of_not_le hle, rfl⟩

/-- `SafetyRules::safe_to_timeout`, the 2-chain timeout rule: the round follows the
quorum certificate's or the timeout certificate's, and the quorum certificate is
no older than the one-chain round. -/
def safeToTimeout (timeout : TwoChainTimeout A PK Sig) (maybeTc : Option (TwoChainTimeoutCertificate A PK Sig))
    (safetyData : SafetyData A PK Sig) : Except Error Unit := do
  let round := timeout.round
  let qcRound := timeout.hqcRound
  let tcRound := maybeTc.elim 0 (·.round)
  -- `||` evaluates its right side only when the left one is false
  let extendsRound ← do
    if round = (← nextRound qcRound) then pure true
    else pure (round = (← nextRound tcRound))
  if extendsRound ∧ qcRound ≥ safetyData.oneChainRound then pure ()
  else throw (.notSafeToTimeout round qcRound tcRound safetyData.oneChainRound)

/-- A timeout the 2-chain rule allows carries a quorum certificate no older than the
one-chain round. -/
theorem safeToTimeout_eq_ok {timeout : TwoChainTimeout A PK Sig}
    {maybeTc : Option (TwoChainTimeoutCertificate A PK Sig)} {safetyData : SafetyData A PK Sig} {u : Unit}
    (h : safeToTimeout timeout maybeTc safetyData = .ok u) : safetyData.oneChainRound ≤ timeout.hqcRound := by
  unfold safeToTimeout at h
  simp only [bind, Except.bind, pure, Except.pure] at h
  -- whichever certificate the round follows, the last check is the same
  split at h
  · cases h
  · split at h
    · split at h
      · rename_i hsafe
        exact hsafe.2
      · cases h
    · split at h
      · cases h
      · split at h
        · rename_i hsafe
          exact hsafe.2
        · cases h

/-- `SafetyRules::safe_to_vote`, the 2-chain voting rule: the block's round follows
its quorum certificate's, or follows the timeout certificate's with a quorum
certificate no older than the highest one the timeout certificate names. -/
def safeToVote (block : Block A PK Sig) (maybeTc : Option (TwoChainTimeoutCertificate A PK Sig)) :
    Except Error Unit := do
  let round := block.round
  let qcRound := block.quorumCert.certifiedBlock.round
  let tcRound := maybeTc.elim 0 (·.round)
  let hqcRound := maybeTc.elim 0 (·.highestHqcRound)
  let safe ← do
    if round = (← nextRound qcRound) then pure true
    else pure (round = (← nextRound tcRound) ∧ qcRound ≥ hqcRound)
  if safe then pure ()
  else throw (.notSafeToVote round qcRound tcRound hqcRound)

/-- `SafetyRules::construct_ledger_info_2chain`: commit the certified block when the
proposed block is in the next round. -/
def constructLedgerInfo2chain (proposedBlock : Block A PK Sig) (consensusDataHash : HashValue) :
    Except Error (LedgerInfo A PK) := do
  let block1 := proposedBlock.round
  let block0 := proposedBlock.quorumCert.certifiedBlock.round
  let commit := (← nextRound block0) = block1
  let commitInfo := if commit then proposedBlock.quorumCert.certifiedBlock else BlockInfo.empty
  pure ⟨commitInfo, consensusDataHash⟩

section Rules

variable (C : Primitives A PK SK Sig E P) (S : SecureStorage A PK SK Sig σ)

/-- `SafetyRules::verify_qc`. -/
def verifyQc (qc : QuorumCert A PK Sig) : SafetyRulesM A PK SK Sig σ Unit := do
  let epochState ← epochState
  liftExcept ((C.verifyQc qc epochState.verifier).mapError Error.invalidQuorumCertificate)

/-- `SafetyRules::verify_tc`. -/
def verifyTc (tc : TwoChainTimeoutCertificate A PK Sig) : SafetyRulesM A PK SK Sig σ Unit := do
  let epochState ← epochState
  liftExcept ((C.verifyTc tc epochState.verifier).mapError Error.invalidTimeoutCertificate)

/-- `SafetyRules::verify_proposal`: the epoch, the quorum certificate, the
proposer's signature and well-formedness, then the vote data. -/
def verifyProposal (voteProposal : VoteProposal A PK Sig E) : SafetyRulesM A PK SK Sig σ (VoteData A PK) := do
  let proposedBlock := voteProposal.block
  let safetyData ← modifyStorage (PersistentSafetyStorage.safetyData S)
  liftExcept (verifyEpoch proposedBlock.epoch safetyData)
  verifyQc C proposedBlock.quorumCert
  liftExcept ((C.validateSignature proposedBlock (← epochState).verifier).mapError Error.invalidProposal)
  liftExcept ((C.verifyWellFormed proposedBlock).mapError Error.invalidProposal)
  liftExcept ((voteProposal.genVoteData C.accumulatorPlaceholderHash C.verifyExtension).mapError
    Error.invalidAccumulatorExtension)

/-- `SafetyRules::guarded_initialize`: move to the epoch of the proof's last ledger
info, raising the waypoint, resetting the safety data for a new epoch, and finding
the consensus key of the new validator set. A failed key reconciliation removes
the signer. -/
def guardedInitialize [DecidableEq PK] (proof : P) : SafetyRulesM A PK SK Sig σ Unit := do
  let waypoint ← readStorage (PersistentSafetyStorage.waypoint S)
  let lastLi ← liftExcept ((C.verifyEpochChangeProof proof waypoint).mapError Error.invalidEpochChangeProof)
  let ledgerInfo := lastLi.ledgerInfo
  let epochState ← match ledgerInfo.commitInfo.nextEpochState with
    | some epochState => pure epochState
    | none => throw .invalidLedgerInfo
  let newWaypoint ← liftExcept ((C.newEpochBoundary ledgerInfo).mapError Error.internalError)
  if newWaypoint.version > waypoint.version then
    modifyStorage (PersistentSafetyStorage.setWaypoint S · newWaypoint)
  let currentEpoch := (← modifyStorage (PersistentSafetyStorage.safetyData S)).epoch
  match compare currentEpoch epochState.epoch with
  | .gt =>
    throw (.waypointOutOfDate waypoint.version newWaypoint.version currentEpoch epochState.epoch)
  | .lt => modifyStorage (PersistentSafetyStorage.setSafetyData S · (SafetyData.new epochState.epoch 0 0 0 none))
  | .eq => pure ()
  modify fun st => { st with epochState := some epochState }
  let author ← readStorage (PersistentSafetyStorage.author S)
  tryCatch
    (match epochState.verifier.getPublicKey author with
      | none => throw (.validatorNotInSet (C.displayAuthor author))
      | some expectedKey => do
        let currentKey := (← get).validatorSigner.map fun signer => C.publicKey signer.privateKey
        if currentKey ≠ some expectedKey then
          match (← get).persistentStorage.consensusKeyForVersion S C expectedKey with
          | .ok consensusKey => modify fun st => { st with validatorSigner := some ⟨author, consensusKey⟩ }
          | .error (.secureStorageMissingDataError error) => throw (.validatorKeyNotFound error)
          | .error error => throw error)
    fun error => do
      modify fun st => { st with validatorSigner := none }
      throw error

/-- `SafetyRules::guarded_sign_proposal`: sign a block of the signer's own, in the
current epoch, above the last voted round, whose quorum certificate is valid and
no older than the preferred round. The updated preferred round is not persisted. -/
def guardedSignProposal (blockData : BlockData A PK Sig) : SafetyRulesM A PK SK Sig σ Sig := do
  let _ ← signer
  verifyAuthor blockData.author
  let safetyData ← modifyStorage (PersistentSafetyStorage.safetyData S)
  liftExcept (verifyEpoch blockData.epoch safetyData)
  if blockData.round ≤ safetyData.lastVotedRound then
    throw (.invalidProposal ("Proposed round " ++ toString blockData.round ++
      " is not higher than last voted round " ++ toString safetyData.lastVotedRound))
  verifyQc C blockData.quorumCert
  let _ ← liftExcept (verifyAndUpdatePreferredRound blockData.quorumCert safetyData)
  sign C.signBlockData blockData

/-- `SafetyRules::guarded_sign_timeout_with_qc`: sign a timeout of the current epoch
that the 2-chain timeout rule allows, not below the last voted round; a timeout
above it is persisted as the new last voted round before signing. -/
def guardedSignTimeoutWithQc (timeout : TwoChainTimeout A PK Sig)
    (timeoutCert : Option (TwoChainTimeoutCertificate A PK Sig)) : SafetyRulesM A PK SK Sig σ Sig := do
  let _ ← signer
  let safetyData ← modifyStorage (PersistentSafetyStorage.safetyData S)
  liftExcept (verifyEpoch timeout.epoch safetyData)
  liftExcept ((C.verifyTimeout timeout (← epochState).verifier).mapError Error.invalidTimeout)
  if let some tc := timeoutCert then
    verifyTc C tc
  liftExcept (safeToTimeout timeout timeoutCert safetyData)
  if timeout.round < safetyData.lastVotedRound then
    throw (.incorrectLastVotedRound timeout.round safetyData.lastVotedRound)
  if timeout.round > safetyData.lastVotedRound then
    let safetyData ← liftExcept (verifyAndUpdateLastVoteRound timeout.round safetyData)
    modifyStorage (PersistentSafetyStorage.setSafetyData S · safetyData)
  sign C.signTimeout timeout.signingFormat

/-- `SafetyRules::guarded_construct_and_sign_vote_two_chain`: return the last vote
again for its own round; otherwise vote above the last voted round where the
2-chain voting rule allows it, record the quorum certificate, sign the ledger info
of the 2-chain commit rule, and persist the vote with the new rounds. -/
def guardedConstructAndSignVoteTwoChain (voteProposal : VoteProposal A PK Sig E)
    (timeoutCert : Option (TwoChainTimeoutCertificate A PK Sig)) : SafetyRulesM A PK SK Sig σ (Vote A PK Sig) := do
  let _ ← signer
  let voteData ← verifyProposal C S voteProposal
  if let some tc := timeoutCert then
    verifyTc C tc
  let proposedBlock := voteProposal.block
  let safetyData ← modifyStorage (PersistentSafetyStorage.safetyData S)
  -- a vote already cast in this round is sent again
  if let some vote := safetyData.lastVote then
    if vote.voteData.proposed.round = proposedBlock.round then
      return vote
  let safetyData ← liftExcept (verifyAndUpdateLastVoteRound proposedBlock.blockData.round safetyData)
  liftExcept (safeToVote proposedBlock timeoutCert)
  let safetyData := (observeQc proposedBlock.quorumCert safetyData).2
  let author := (← signer).author
  let ledgerInfo ← liftExcept (constructLedgerInfo2chain proposedBlock (C.hashVoteData voteData))
  let signature ← sign C.signLedgerInfo ledgerInfo
  let vote := Vote.newWithSignature voteData author ledgerInfo signature
  modifyStorage (PersistentSafetyStorage.setSafetyData S · { safetyData with lastVote := some vote })
  pure vote

/-- `SafetyRules::guarded_sign_commit_vote`: sign an executed ledger info that
matches an ordered one carrying a quorum of signatures. -/
def guardedSignCommitVote (ledgerInfo : LedgerInfoWithSignatures A PK Sig) (newLedgerInfo : LedgerInfo A PK) :
    SafetyRulesM A PK SK Sig σ Sig := do
  let _ ← signer
  let oldLedgerInfo := ledgerInfo.ledgerInfo
  if !oldLedgerInfo.commitInfo.isOrderedOnly C.accumulatorPlaceholderHash then
    throw (.invalidOrderedLedgerInfo (C.displayLedgerInfo oldLedgerInfo))
  if !oldLedgerInfo.commitInfo.matchOrderedOnly newLedgerInfo.commitInfo then
    throw (.inconsistentExecutionResult (C.displayBlockInfo oldLedgerInfo.commitInfo)
      (C.displayBlockInfo newLedgerInfo.commitInfo))
  liftExcept ((C.verifySignatures ledgerInfo (← epochState).verifier).mapError Error.invalidQuorumCertificate)
  sign C.signLedgerInfo newLedgerInfo

end Rules

/-! ## Requests -/

variable (A PK Sig E P) in
/-- A call of a method of `TSafetyRules`, with its arguments. -/
inductive Request where
  | initializeEpoch (proof : P)
  | signProposal (blockData : BlockData A PK Sig)
  | signTimeoutWithQc (timeout : TwoChainTimeout A PK Sig)
      (timeoutCert : Option (TwoChainTimeoutCertificate A PK Sig))
  | constructAndSignVoteTwoChain (voteProposal : VoteProposal A PK Sig E)
      (timeoutCert : Option (TwoChainTimeoutCertificate A PK Sig))
  | signCommitVote (ledgerInfo : LedgerInfoWithSignatures A PK Sig) (newLedgerInfo : LedgerInfo A PK)

variable (A PK Sig) in
/-- What a successful call returns. -/
inductive Response where
  | initialized
  | signature (signature : Sig)
  | vote (vote : Vote A PK Sig)

/-- The guarded method a request calls. -/
def Request.run [DecidableEq PK] (C : Primitives A PK SK Sig E P) (S : SecureStorage A PK SK Sig σ) :
    Request A PK Sig E P → SafetyRulesM A PK SK Sig σ (Response A PK Sig)
  | .initializeEpoch proof => do guardedInitialize C S proof; pure .initialized
  | .signProposal blockData => .signature <$> guardedSignProposal C S blockData
  | .signTimeoutWithQc timeout timeoutCert => .signature <$> guardedSignTimeoutWithQc C S timeout timeoutCert
  | .constructAndSignVoteTwoChain voteProposal timeoutCert =>
    .vote <$> guardedConstructAndSignVoteTwoChain C S voteProposal timeoutCert
  | .signCommitVote ledgerInfo newLedgerInfo => .signature <$> guardedSignCommitVote C ledgerInfo newLedgerInfo

end AptosCore.Consensus
