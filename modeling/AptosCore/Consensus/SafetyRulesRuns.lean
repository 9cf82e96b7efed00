import AptosCore.Consensus.SafetyRulesFrame

/-!
# Runs of the safety rules

A validator's consensus serves requests to its safety rules one after another,
going on with the state a failed request left. `execute` is such a run. Each
request moves the persisted safety data forward (`Request.run_storageStep`), so a
whole run does (`execute_storageStep`); with what each signed vote and timeout
leaves persisted, this gives what a validator's safety rules guarantee over any
run: a new vote is above every round voted or timed out before it in the epoch,
so that no two votes are signed for one round.
-/

namespace AptosCore.Consensus

variable {A PK SK Sig E P σ : Type} [LinearOrder A] [DecidableEq PK]
variable (C : Primitives A PK SK Sig E P) (S : SecureStorage A PK SK Sig σ)

/-- The state after serving `requests` in turn from `st`: a call that fails keeps
the state it left, and the next call starts from it. -/
def execute : List (Request A PK Sig E P) → SafetyRules A PK SK Sig σ → SafetyRules A PK SK Sig σ
  | [], st => st
  | request :: requests, st => execute requests (finalState (request.run C S st))

theorem execute_append (xs ys : List (Request A PK Sig E P)) (st : SafetyRules A PK SK Sig σ) :
    execute C S (xs ++ ys) st = execute C S ys (execute C S xs st) := by
  induction xs generalizing st with
  | nil => rfl
  | cons x xs ih => exact ih _

variable {S}

/-- Every request, served from a coherent state, moves the storage one step. -/
theorem Request.run_storageStep (hS : S.Lawful) {st : SafetyRules A PK SK Sig σ}
    (hcoh : st.persistentStorage.Coherent S) (request : Request A PK Sig E P) :
    StorageStep S st.persistentStorage (finalState (request.run C S st)).persistentStorage := by
  cases request with
  | initializeEpoch proof =>
    change StorageStep S _ (finalState ((guardedInitialize C S proof >>= fun _ => pure Response.initialized) st)).persistentStorage
    rw [finalState_bind_pure]
    exact (guardedInitialize_storageStep C S hS hcoh proof).finalState
  | signProposal blockData =>
    change StorageStep S _ (finalState ((Response.signature <$> guardedSignProposal C S blockData) st)).persistentStorage
    rw [finalState_map]
    exact ((guardedSignProposal_keepsStorage C S hcoh blockData).imp
      (fun _ _ h => h.storageStep S) (fun _ _ h => h.storageStep S)).finalState
  | signTimeoutWithQc timeout timeoutCert =>
    change StorageStep S _
      (finalState ((Response.signature <$> guardedSignTimeoutWithQc C S timeout timeoutCert) st)).persistentStorage
    rw [finalState_map]
    exact ((guardedSignTimeoutWithQc_spec C S hcoh timeout timeoutCert).imp
      (fun _ _ h => (h hS).storageStep S) (fun _ _ h => h.storageStep S)).finalState
  | constructAndSignVoteTwoChain voteProposal timeoutCert =>
    change StorageStep S _
      (finalState ((Response.vote <$> guardedConstructAndSignVoteTwoChain C S voteProposal timeoutCert) st)).persistentStorage
    rw [finalState_map]
    exact ((guardedConstructAndSignVoteTwoChain_spec C S hcoh voteProposal timeoutCert).imp
      (fun _ _ h => (h hS).storageStep S) (fun _ _ h => h.storageStep S)).finalState
  | signCommitVote ledgerInfo newLedgerInfo =>
    change StorageStep S _
      (finalState ((Response.signature <$> guardedSignCommitVote C ledgerInfo newLedgerInfo) st)).persistentStorage
    rw [finalState_map]
    have hst := (guardedSignCommitVote_state C st ledgerInfo newLedgerInfo).finalState
    rw [hst]
    exact StorageStep.refl S hcoh

/-- A request served from a coherent state leaves a coherent one. -/
theorem Request.coherent_of_run (hS : S.Lawful) {st st' : SafetyRules A PK SK Sig σ}
    (hcoh : st.persistentStorage.Coherent S) {request : Request A PK Sig E P} {response : Response A PK Sig}
    (h : request.run C S st = .ok response st') : st'.persistentStorage.Coherent S := by
  have hstep := (Request.run_storageStep C hS hcoh request).1
  rw [h] at hstep
  exact hstep

/-- A run from a coherent state moves the storage forward: the cache stays
coherent and the persisted safety data never goes back. -/
theorem execute_storageStep (hS : S.Lawful) {st : SafetyRules A PK SK Sig σ}
    (hcoh : st.persistentStorage.Coherent S) (requests : List (Request A PK Sig E P)) :
    StorageStep S st.persistentStorage (execute C S requests st).persistentStorage := by
  -- induction on the requests, from any coherent state
  induction requests generalizing st with
  | nil => exact StorageStep.refl S hcoh
  | cons request requests ih =>
    have hstep := Request.run_storageStep C hS hcoh request
    exact hstep.trans S (ih hstep.1)

/-! ## Votes and timeouts over a run -/

variable (S) in
/-- A vote returned from `st` for `voteProposal` is a new one: not the last vote
persisted, sent again for the round it is asked about. -/
def IsNewVote (st : SafetyRules A PK SK Sig σ) (voteProposal : VoteProposal A PK Sig E)
    (vote : Vote A PK Sig) : Prop :=
  ∀ data, persisted S st = .ok data →
    ¬(data.lastVote = some vote ∧ vote.voteData.proposed.round = voteProposal.block.round)

/-- A new vote is above the last voted round, in the current epoch, and its round
is then the persisted last voted round. -/
theorem newVote_of_run (hS : S.Lawful) {st st' : SafetyRules A PK SK Sig σ}
    (hcoh : st.persistentStorage.Coherent S) {voteProposal : VoteProposal A PK Sig E}
    {timeoutCert : Option (TwoChainTimeoutCertificate A PK Sig)} {vote : Vote A PK Sig}
    (h : (Request.constructAndSignVoteTwoChain voteProposal timeoutCert).run C S st = .ok (.vote vote) st')
    (hnew : IsNewVote S st voteProposal vote) :
    ∃ data, persisted S st = .ok data ∧ data.lastVotedRound < vote.voteData.proposed.round ∧
      vote.epoch = data.epoch ∧ ∃ data', persisted S st' = .ok data' ∧ data ≤ data' ∧
        data'.epoch = data.epoch ∧ data'.lastVotedRound = vote.voteData.proposed.round := by
  obtain ⟨vote', hrun, hvote⟩ := map_eq_ok (show (Response.vote <$>
    guardedConstructAndSignVoteTwoChain C S voteProposal timeoutCert) st = .ok (.vote vote) st' from h)
  cases hvote
  obtain ⟨_, data, hget, hpath⟩ := (guardedConstructAndSignVoteTwoChain_spec C S hcoh voteProposal timeoutCert).of_ok hrun hS
  rcases hpath with ⟨hlast, hround, _⟩ | ⟨hlt, hepoch, data', hst, hle, he, hl, _⟩
  · exact absurd ⟨hlast, hround⟩ (hnew data hget)
  · exact ⟨data, hget, hlt, hepoch, data', hst, hle, he, hl⟩

/-- A signed timeout is in the current epoch, not below the last voted round, and
its round is then the persisted last voted round. -/
theorem timeout_of_run (hS : S.Lawful) {st st' : SafetyRules A PK SK Sig σ}
    (hcoh : st.persistentStorage.Coherent S) {timeout : TwoChainTimeout A PK Sig}
    {timeoutCert : Option (TwoChainTimeoutCertificate A PK Sig)} {signature : Sig}
    (h : (Request.signTimeoutWithQc timeout timeoutCert).run C S st = .ok (.signature signature) st') :
    TimeoutOutcome S st timeout st' := by
  obtain ⟨signature', hrun, _⟩ := map_eq_ok (show (Response.signature <$>
    guardedSignTimeoutWithQc C S timeout timeoutCert) st = .ok (.signature signature) st' from h)
  exact (guardedSignTimeoutWithQc_spec C S hcoh timeout timeoutCert).of_ok hrun hS

/-- Persisted safety data, moved forward by a run, stay readable and no older. -/
theorem persisted_le_of_execute (hS : S.Lawful) {st : SafetyRules A PK SK Sig σ}
    (hcoh : st.persistentStorage.Coherent S) {data : SafetyData A PK Sig} (hget : persisted S st = .ok data)
    (requests : List (Request A PK Sig E P)) :
    ∃ data', persisted S (execute C S requests st) = .ok data' ∧ data ≤ data' := by
  have hadv := (execute_storageStep C hS hcoh requests).2
  rw [← persisted, ← persisted, hget] at hadv
  exact Advances.ok_of_ok hadv

/-- A new vote signed after a run from a state whose persisted data is `data` is in
a later epoch than `data`, or in its epoch above its last voted round. -/
theorem newVote_above_of_execute (hS : S.Lawful) {st : SafetyRules A PK SK Sig σ}
    (hcoh : st.persistentStorage.Coherent S) {data : SafetyData A PK Sig} (hget : persisted S st = .ok data)
    (requests : List (Request A PK Sig E P)) {voteProposal : VoteProposal A PK Sig E}
    {timeoutCert : Option (TwoChainTimeoutCertificate A PK Sig)} {vote : Vote A PK Sig} {st' : SafetyRules A PK SK Sig σ}
    (h : (Request.constructAndSignVoteTwoChain voteProposal timeoutCert).run C S (execute C S requests st) =
      .ok (.vote vote) st')
    (hnew : IsNewVote S (execute C S requests st) voteProposal vote) :
    data.epoch < vote.epoch ∨ (data.epoch = vote.epoch ∧ data.lastVotedRound < vote.voteData.proposed.round) := by
  obtain ⟨data', hget', hle⟩ := persisted_le_of_execute C hS hcoh hget requests
  have hcoh' := (execute_storageStep C hS hcoh requests).1
  obtain ⟨data'', hget'', hlt, hepoch, _⟩ := newVote_of_run C hS hcoh' h hnew
  rw [hget'] at hget''
  cases hget''
  -- the vote is in the epoch of `data'`, which the run moved forward from `data`
  rw [hepoch]
  rcases hle with hlt' | ⟨he, hl, _, _⟩
  · exact Or.inl hlt'
  · exact Or.inr ⟨he, lt_of_le_of_lt hl hlt⟩

/-! ## Over every run -/

variable (S) in
/-- What the safety rules guarantee over every run from `st`: the persisted safety
data never go back (the epoch never decreases, and within an epoch no round
does); a new vote is above the last voted round, in the current epoch; a later
new vote is in a later epoch or for a higher round, so no two new votes share an
epoch and a round; a new vote after a timeout is in a later epoch or for a
higher round than the timeout's; and a timeout is signed only in the
current epoch, not below the last voted round, with a quorum certificate no
older than the one-chain round. The run goes on from the state each call left. -/
structure SafetyDataMovesForward (st : SafetyRules A PK SK Sig σ) : Prop where
  persisted_advances : ∀ xs ys : List (Request A PK Sig E P),
    Advances (persisted S (execute C S xs st)) (persisted S (execute C S (xs ++ ys) st))
  new_vote_above : ∀ (xs : List (Request A PK Sig E P)) voteProposal timeoutCert vote st',
    (Request.constructAndSignVoteTwoChain voteProposal timeoutCert).run C S (execute C S xs st) =
      .ok (.vote vote) st' →
    IsNewVote S (execute C S xs st) voteProposal vote →
    ∃ data, persisted S (execute C S xs st) = .ok data ∧ data.lastVotedRound < vote.voteData.proposed.round ∧
      vote.epoch = data.epoch
  new_votes_increase : ∀ (xs ys : List (Request A PK Sig E P)) voteProposal₁ timeoutCert₁ vote₁ st₁
      voteProposal₂ timeoutCert₂ vote₂ st₂,
    (Request.constructAndSignVoteTwoChain voteProposal₁ timeoutCert₁).run C S (execute C S xs st) =
      .ok (.vote vote₁) st₁ →
    IsNewVote S (execute C S xs st) voteProposal₁ vote₁ →
    (Request.constructAndSignVoteTwoChain voteProposal₂ timeoutCert₂).run C S (execute C S ys st₁) =
      .ok (.vote vote₂) st₂ →
    IsNewVote S (execute C S ys st₁) voteProposal₂ vote₂ →
    vote₁.epoch < vote₂.epoch ∨
      (vote₁.epoch = vote₂.epoch ∧ vote₁.voteData.proposed.round < vote₂.voteData.proposed.round)
  new_vote_above_timeout : ∀ (xs ys : List (Request A PK Sig E P)) timeout timeoutCert signature st₁
      voteProposal timeoutCert' vote st₂,
    (Request.signTimeoutWithQc timeout timeoutCert).run C S (execute C S xs st) = .ok (.signature signature) st₁ →
    (Request.constructAndSignVoteTwoChain voteProposal timeoutCert').run C S (execute C S ys st₁) =
      .ok (.vote vote) st₂ →
    IsNewVote S (execute C S ys st₁) voteProposal vote →
    timeout.epoch < vote.epoch ∨ (timeout.epoch = vote.epoch ∧ timeout.round < vote.voteData.proposed.round)
  timeout_allowed : ∀ (xs : List (Request A PK Sig E P)) timeout timeoutCert signature st',
    (Request.signTimeoutWithQc timeout timeoutCert).run C S (execute C S xs st) = .ok (.signature signature) st' →
    ∃ data, persisted S (execute C S xs st) = .ok data ∧ timeout.epoch = data.epoch ∧
      data.lastVotedRound ≤ timeout.round ∧ data.oneChainRound ≤ timeout.hqcRound

end AptosCore.Consensus
