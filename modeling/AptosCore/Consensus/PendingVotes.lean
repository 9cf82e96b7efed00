import AptosCore.Consensus.Certificates

/-!
# Aggregating the votes of a round

`consensus/src/pending_votes.rs`. A validator collects the votes of one round:
the signatures on each ledger info, under its digest, and the timeouts the votes
carry, in a partial 2-chain timeout certificate. `insert_vote` returns a quorum
certificate once the signers of a ledger info reach the quorum, else a timeout
certificate once the timeout signers do, and asks for a timeout of its own once,
when they pass `f + 1`. An author's second vote is a duplicate, or an
equivocation when it is for another ledger info, except the same vote again with
a timeout attached, which is counted once more for the timeout.
-/

namespace AptosCore.Consensus

variable (A PK Sig : Type) [LinearOrder A]

/-- `VoteReceptionResult`. -/
inductive VoteReceptionResult where
  | voteAdded (votingPower : Nat)
  | duplicateVote
  | equivocateVote
  | newQuorumCertificate (qc : QuorumCert A PK Sig)
  | new2ChainTimeoutCertificate (tc : TwoChainTimeoutCertificate A PK Sig)
  | errorAddingVote (error : VerifyError)
  | unexpectedRound (round expected : Nat)
  | echoTimeout (votingPower : Nat)

/-- `PendingVotes`: the signatures by ledger info digest, the partial timeout
certificate, each author's vote, and whether a timeout was echoed. -/
structure PendingVotes where
  liDigestToVotes : HashValue → Option (LedgerInfoWithSignatures A PK Sig)
  maybePartial2chainTc : Option (TwoChainTimeoutCertificate A PK Sig)
  authorToVote : A → Option (Vote A PK Sig)
  echoTimeout : Bool

variable {A PK Sig}

/-- Whether a result is `EchoTimeout`. -/
def VoteReceptionResult.isEchoTimeout : VoteReceptionResult A PK Sig → Bool
  | .echoTimeout _ => true
  | _ => false

namespace PendingVotes

/-- `PendingVotes::new`. -/
def new : PendingVotes A PK Sig := ⟨fun _ => none, none, fun _ => none, false⟩

variable (C : Crypto A PK Sig) (v : ValidatorVerifier A PK)

/-- Step 1 of `insert_vote`: the result for an author who voted before in the
round, if the vote stops there. The same ledger info again is a duplicate,
unless the vote newly carries a timeout; another ledger info is an equivocation. -/
def previousVoteResult (vote : Vote A PK Sig) : Option (Vote A PK Sig) → Option (VoteReceptionResult A PK Sig)
  | none => none
  | some previouslySeenVote =>
    if C.hashLedgerInfo vote.ledgerInfo = C.hashLedgerInfo previouslySeenVote.ledgerInfo then
      if vote.isTimeout && !previouslySeenVote.isTimeout then none else some .duplicateVote
    else some .equivocateVote

/-- Step 3's aggregate: the signatures on the vote's ledger info, none yet for a
ledger info first voted for, with the vote's signature added. -/
def withSignature (vote : Vote A PK Sig) (pv : PendingVotes A PK Sig) : LedgerInfoWithSignatures A PK Sig :=
  ((pv.liDigestToVotes (C.hashLedgerInfo vote.ledgerInfo)).getD ⟨vote.ledgerInfo, []⟩).addSignature
    vote.author vote.signature

/-- Steps 2 and 3 of `insert_vote`: the vote stored under its author, replacing
the same vote without its timeout, and the aggregate on its ledger info. -/
def recordVote (vote : Vote A PK Sig) (pv : PendingVotes A PK Sig) : PendingVotes A PK Sig :=
  { pv with
    authorToVote := Function.update pv.authorToVote vote.author (some vote)
    liDigestToVotes :=
      Function.update pv.liDigestToVotes (C.hashLedgerInfo vote.ledgerInfo) (some (withSignature C vote pv)) }

/-- Step 4's partial certificate: the timeout added to the partial one, or to a
new one of that timeout when there is none. -/
def partialTcWith (vote : Vote A PK Sig) (timeout : TwoChainTimeout A PK Sig) (signature : Sig)
    (pv : PendingVotes A PK Sig) : TwoChainTimeoutCertificate A PK Sig :=
  (pv.maybePartial2chainTc.getD (.new timeout)).add vote.author timeout signature

/-- Steps 4 and 5 of `insert_vote`, when no quorum certificate formed: a vote with
a timeout joins the partial timeout certificate, which may complete, or reach the
echo threshold `f + 1` while no timeout was echoed. -/
def insertTimeout (vote : Vote A PK Sig) (votingPower : Nat) (pv : PendingVotes A PK Sig) :
    Except String (VoteReceptionResult A PK Sig × PendingVotes A PK Sig) :=
  match vote.twoChainTimeout with
  | none => .ok (.voteAdded votingPower, pv)
  | some (timeout, signature) =>
    let partialTc := partialTcWith vote timeout signature pv
    let pv := { pv with maybePartial2chainTc := some partialTc }
    match v.checkVotingPower partialTc.signers with
    | .ok () => .ok (.new2ChainTimeoutCertificate partialTc, pv)
    | .error (.tooLittleVotingPower tcVotingPower _) =>
      if pv.echoTimeout then .ok (.voteAdded votingPower, pv)
      else do
        let fPlusOne ← v.echoTimeoutThreshold
        if fPlusOne ≤ tcVotingPower then .ok (.echoTimeout tcVotingPower, { pv with echoTimeout := true })
        else .ok (.voteAdded votingPower, pv)
    | .error (.panic msg) => .error msg
    | .error error => .ok (.errorAddingVote error, pv)

/-- `PendingVotes::insert_vote`; a panic is an error with its message. -/
def insertVote (vote : Vote A PK Sig) (pv : PendingVotes A PK Sig) :
    Except String (VoteReceptionResult A PK Sig × PendingVotes A PK Sig) :=
  match previousVoteResult C vote (pv.authorToVote vote.author) with
  | some result => .ok (result, pv)
  | none =>
    let liWithSig := withSignature C vote pv
    match v.checkVotingPower (liWithSig.signatures.map Prod.fst) with
    | .ok () => .ok (.newQuorumCertificate ⟨vote.voteData, liWithSig⟩, recordVote C vote pv)
    | .error (.tooLittleVotingPower votingPower _) => insertTimeout v vote votingPower (recordVote C vote pv)
    | .error (.panic msg) => .error msg
    | .error error => .ok (.errorAddingVote error, recordVote C vote pv)

/-- The votes of a round inserted in turn, with the results `insert_vote` returns. -/
def insertVotes : List (Vote A PK Sig) → PendingVotes A PK Sig →
    Except String (List (VoteReceptionResult A PK Sig) × PendingVotes A PK Sig)
  | [], pv => .ok ([], pv)
  | vote :: votes, pv => do
    let (result, pv) ← insertVote C v vote pv
    let (results, pv) ← insertVotes votes pv
    pure (result :: results, pv)

/-! ## What each step returns -/

@[simp] theorem recordVote_authorToVote (vote : Vote A PK Sig) (pv : PendingVotes A PK Sig) :
    (recordVote C vote pv).authorToVote = Function.update pv.authorToVote vote.author (some vote) := rfl

@[simp] theorem recordVote_liDigestToVotes (vote : Vote A PK Sig) (pv : PendingVotes A PK Sig) :
    (recordVote C vote pv).liDigestToVotes =
      Function.update pv.liDigestToVotes (C.hashLedgerInfo vote.ledgerInfo) (some (withSignature C vote pv)) := rfl

@[simp] theorem recordVote_maybePartial2chainTc (vote : Vote A PK Sig) (pv : PendingVotes A PK Sig) :
    (recordVote C vote pv).maybePartial2chainTc = pv.maybePartial2chainTc := rfl

@[simp] theorem recordVote_echoTimeout (vote : Vote A PK Sig) (pv : PendingVotes A PK Sig) :
    (recordVote C vote pv).echoTimeout = pv.echoTimeout := rfl

variable {C v}

/-- A vote goes on past step 1 only when its author's earlier vote, if any, is for
the same digest and has no timeout. -/
theorem previousVoteResult_eq_none {vote : Vote A PK Sig} {prev : Option (Vote A PK Sig)}
    (h : previousVoteResult C vote prev = none) :
    ∀ p, prev = some p → C.hashLedgerInfo p.ledgerInfo = C.hashLedgerInfo vote.ledgerInfo ∧ p.isTimeout = false := by
  rintro p rfl
  simp only [previousVoteResult] at h
  split_ifs at h with hhash hnew
  simp only [Bool.and_eq_true, Bool.not_eq_true'] at hnew
  exact ⟨hhash.symm, hnew.2⟩

/-- Step 1 stops a vote as a duplicate or an equivocation. -/
theorem previousVoteResult_eq_some {vote : Vote A PK Sig} {prev : Option (Vote A PK Sig)}
    {result : VoteReceptionResult A PK Sig} (h : previousVoteResult C vote prev = some result) :
    result = .duplicateVote ∨ result = .equivocateVote := by
  cases prev with
  | none => cases h
  | some p =>
    simp only [previousVoteResult] at h
    split_ifs at h <;> cases h
    · exact Or.inl rfl
    · exact Or.inr rfl

/-- What steps 4 and 5 return: a vote without a timeout is counted; else its
timeout joins the partial certificate, which is returned when its signers are a
quorum, and otherwise may be echoed once. -/
theorem insertTimeout_eq_ok {vote : Vote A PK Sig} {votingPower : Nat} {pv pv' : PendingVotes A PK Sig}
    {result : VoteReceptionResult A PK Sig} (h : insertTimeout v vote votingPower pv = .ok (result, pv')) :
    (vote.twoChainTimeout = none ∧ result = .voteAdded votingPower ∧ pv' = pv) ∨
      ∃ timeout signature, vote.twoChainTimeout = some (timeout, signature) ∧
        ((v.checkVotingPower (partialTcWith vote timeout signature pv).signers = .ok () ∧
            result = .new2ChainTimeoutCertificate (partialTcWith vote timeout signature pv) ∧
            pv' = { pv with maybePartial2chainTc := some (partialTcWith vote timeout signature pv) }) ∨
          (pv.echoTimeout = false ∧ (∃ tcVotingPower, result = .echoTimeout tcVotingPower) ∧
            pv' = { pv with maybePartial2chainTc := some (partialTcWith vote timeout signature pv), echoTimeout := true }) ∨
          ((result = .voteAdded votingPower ∨ ∃ error, result = .errorAddingVote error) ∧
            pv' = { pv with maybePartial2chainTc := some (partialTcWith vote timeout signature pv) })) := by
  unfold insertTimeout at h
  split at h
  next hnone =>
    obtain ⟨rfl, rfl⟩ := Prod.mk.inj (Except.ok.inj h)
    exact Or.inl ⟨hnone, rfl, rfl⟩
  next timeout signature hsome =>
    refine Or.inr ⟨timeout, signature, hsome, ?_⟩
    dsimp only at h
    split at h
    next hpower =>
      obtain ⟨rfl, rfl⟩ := Prod.mk.inj (Except.ok.inj h)
      exact Or.inl ⟨hpower, rfl, rfl⟩
    next tcVotingPower _ hpower =>
      split at h
      next =>
        obtain ⟨rfl, rfl⟩ := Prod.mk.inj (Except.ok.inj h)
        exact Or.inr (Or.inr ⟨Or.inl rfl, rfl⟩)
      next hecho =>
        obtain ⟨fPlusOne, -, h⟩ := ExceptCheck.bind_eq_ok.mp h
        split at h
        · obtain ⟨rfl, rfl⟩ := Prod.mk.inj (Except.ok.inj h)
          exact Or.inr (Or.inl ⟨Bool.eq_false_iff.mpr hecho, ⟨_, rfl⟩, rfl⟩)
        · obtain ⟨rfl, rfl⟩ := Prod.mk.inj (Except.ok.inj h)
          exact Or.inr (Or.inr ⟨Or.inl rfl, rfl⟩)
    next msg _ => cases h
    next error _ _ _ =>
      obtain ⟨rfl, rfl⟩ := Prod.mk.inj (Except.ok.inj h)
      exact Or.inr (Or.inr ⟨Or.inr ⟨error, rfl⟩, rfl⟩)

/-- What `insert_vote` returns: the result of step 1 with nothing changed, or the
vote recorded and then a quorum certificate when its ledger info's signers are a
quorum, the outcome of steps 4 and 5 when they are too few, or an error result. -/
theorem insertVote_eq_ok {vote : Vote A PK Sig} {pv pv' : PendingVotes A PK Sig}
    {result : VoteReceptionResult A PK Sig} (h : insertVote C v vote pv = .ok (result, pv')) :
    (previousVoteResult C vote (pv.authorToVote vote.author) = some result ∧ pv' = pv) ∨
      previousVoteResult C vote (pv.authorToVote vote.author) = none ∧
        ((v.checkVotingPower ((withSignature C vote pv).signatures.map Prod.fst) = .ok () ∧
            result = .newQuorumCertificate ⟨vote.voteData, withSignature C vote pv⟩ ∧ pv' = recordVote C vote pv) ∨
          (∃ votingPower, insertTimeout v vote votingPower (recordVote C vote pv) = .ok (result, pv')) ∨
          ((∃ error, result = .errorAddingVote error) ∧ pv' = recordVote C vote pv)) := by
  unfold insertVote at h
  split at h
  next result' hprev =>
    obtain ⟨rfl, rfl⟩ := Prod.mk.inj (Except.ok.inj h)
    exact Or.inl ⟨hprev, rfl⟩
  next hprev =>
    refine Or.inr ⟨hprev, ?_⟩
    dsimp only at h
    split at h
    next hpower =>
      obtain ⟨rfl, rfl⟩ := Prod.mk.inj (Except.ok.inj h)
      exact Or.inl ⟨hpower, rfl, rfl⟩
    next votingPower _ _ => exact Or.inr (Or.inl ⟨votingPower, h⟩)
    next msg _ => cases h
    next error _ _ _ =>
      obtain ⟨rfl, rfl⟩ := Prod.mk.inj (Except.ok.inj h)
      exact Or.inr (Or.inr ⟨⟨error, rfl⟩, rfl⟩)

theorem insertVotes_cons_eq_ok {vote : Vote A PK Sig} {votes : List (Vote A PK Sig)}
    {pv pv' : PendingVotes A PK Sig} {results : List (VoteReceptionResult A PK Sig)}
    (h : insertVotes C v (vote :: votes) pv = .ok (results, pv')) :
    ∃ result pv₁ rest, insertVote C v vote pv = .ok (result, pv₁) ∧ insertVotes C v votes pv₁ = .ok (rest, pv') ∧
      results = result :: rest := by
  simp only [insertVotes, ExceptCheck.bind_eq_ok, ExceptCheck.pure_eq_ok] at h
  obtain ⟨⟨result, pv₁⟩, h₁, ⟨rest, pv₂⟩, h₂, h₃⟩ := h
  obtain ⟨rfl, rfl⟩ := Prod.mk.inj h₃
  exact ⟨result, pv₁, rest, h₁, h₂, rfl⟩

end PendingVotes

end AptosCore.Consensus
