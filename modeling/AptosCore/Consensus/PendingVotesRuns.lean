import AptosCore.Consensus.PendingVotes

/-!
# The certificates vote aggregation returns

Over votes of one round that pass `Vote::verify`, the state of `PendingVotes`
keeps an invariant (`Inv`). Each aggregate is sorted by author and on the ledger
info of a vote of its digest, and each of its signers voted for that digest and
signed that ledger info (`AggInv`). The partial timeout certificate is sorted by
author, its timeout valid and of the round, each signer voted with a timeout and
signed the round with its own highest certified round, and the timeout's round
is the highest of those (`TcInv`). The step that would break the last part, a
second entry of one author, cannot happen: an author gets past step 1 again only
when its earlier vote had no timeout (`TcInv.not_signer`).

From the invariant, a quorum certificate `insert_vote` returns passes
`QuorumCert::verify`, and a timeout certificate
`TwoChainTimeoutCertificate::verify` (`insertVote_valid`). The echo flag is set
exactly when `EchoTimeout` is returned (`insertVotes_echo`), so that happens at
most once.

Ledger infos are told apart by their digests: no two votes of the round have
different ledger infos of one digest (`RoundVotes.collisionFree`).
-/

namespace AptosCore.Consensus.PendingVotes

variable {A PK Sig : Type} [LinearOrder A] [DecidableEq PK] {C : Crypto A PK Sig} {v : ValidatorVerifier A PK}

variable (C v) in
/-- A vote `insert_vote` is given in round `r` of epoch `e`: of that round, and
passing `Vote::verify`. -/
def VoteOfRound (e r : Nat) (vote : Vote A PK Sig) : Prop :=
  vote.epoch = e ∧ vote.voteData.proposed.round = r ∧ vote.verify C v = .ok ()

variable (C v) in
/-- The votes a round is given: of the round, passing `Vote::verify`, and no two
with different ledger infos of one digest. -/
structure RoundVotes (e r : Nat) where
  good : Vote A PK Sig → Prop
  ofRound : ∀ vote, good vote → VoteOfRound C v e r vote
  collisionFree : ∀ v₁ v₂, good v₁ → good v₂ →
    C.hashLedgerInfo v₁.ledgerInfo = C.hashLedgerInfo v₂.ledgerInfo → v₁.ledgerInfo = v₂.ledgerInfo

variable {e r : Nat} {S : RoundVotes C v e r} {vote : Vote A PK Sig}

namespace RoundVotes

theorem verified (hgood : S.good vote) : vote.Verified C v :=
  Vote.verified_of_verify (S.ofRound vote hgood).2.2

/-- A good vote's timeout is of the round, valid, and signed by the vote's author
on the round with the timeout's highest certified round. -/
theorem timeout_of_good (hgood : S.good vote) {timeout : TwoChainTimeout A PK Sig} {signature : Sig}
    (ht : vote.twoChainTimeout = some (timeout, signature)) :
    (timeout.epoch = e ∧ timeout.round = r ∧ timeout.verify C v = .ok ()) ∧
      v.verify C.verifyTimeoutSigningRepr vote.author ⟨e, r, timeout.hqcRound⟩ signature = .ok () := by
  obtain ⟨he, hr, -⟩ := S.ofRound vote hgood
  obtain ⟨hte, htr, htv, hts⟩ := (S.verified hgood).timeout timeout signature ht
  have hformat : timeout.signingFormat = ⟨e, r, timeout.hqcRound⟩ := by
    rw [TwoChainTimeout.signingFormat, hte, he, htr, hr]
  rw [hformat] at hts
  exact ⟨⟨hte.trans he, htr.trans hr, htv⟩, hts⟩

end RoundVotes

variable (S) in
/-- What the aggregate under digest `d` keeps, with `stored` the votes by author. -/
structure AggInv (stored : A → Option (Vote A PK Sig)) (d : HashValue) (li : LedgerInfoWithSignatures A PK Sig) :
    Prop where
  sorted : SortedMap.Sorted li.signatures
  ledgerInfo : ∃ vote, S.good vote ∧ C.hashLedgerInfo vote.ledgerInfo = d ∧ li.ledgerInfo = vote.ledgerInfo
  signer : ∀ x ∈ li.signatures, (∃ vote, stored x.1 = some vote ∧ C.hashLedgerInfo vote.ledgerInfo = d) ∧
    v.verify C.verifyLedgerInfo x.1 li.ledgerInfo x.2 = .ok ()

variable (C v e r) in
/-- What the partial timeout certificate keeps, with `stored` the votes by author. -/
structure TcInv (stored : A → Option (Vote A PK Sig)) (tc : TwoChainTimeoutCertificate A PK Sig) : Prop where
  sorted : SortedMap.Sorted tc.signatures
  timeout : tc.timeout.epoch = e ∧ tc.timeout.round = r ∧ tc.timeout.verify C v = .ok ()
  signer : ∀ x ∈ tc.signatures, (∃ vote, stored x.1 = some vote ∧ vote.isTimeout) ∧
    v.verify C.verifyTimeoutSigningRepr x.1 ⟨e, r, x.2.1⟩ x.2.2 = .ok ()
  highest : (∀ x ∈ tc.signatures, x.2.1 ≤ tc.timeout.hqcRound) ∧ ∃ x ∈ tc.signatures, x.2.1 = tc.timeout.hqcRound

variable (S) in
/-- The invariant of `PendingVotes` over the votes of a round. -/
structure Inv (pv : PendingVotes A PK Sig) : Prop where
  aggregate : ∀ d li, pv.liDigestToVotes d = some li → AggInv S pv.authorToVote d li
  partialTc : ∀ tc, pv.maybePartial2chainTc = some tc → TcInv C v e r pv.authorToVote tc

namespace AggInv

variable {stored : A → Option (Vote A PK Sig)} {d : HashValue} {li : LedgerInfoWithSignatures A PK Sig}

/-- The aggregate on a good vote's digest is on that vote's ledger info. -/
theorem ledgerInfo_eq (h : AggInv S stored (C.hashLedgerInfo vote.ledgerInfo) li) (hgood : S.good vote) :
    li.ledgerInfo = vote.ledgerInfo := by
  obtain ⟨w, hw, hwd, hli⟩ := h.ledgerInfo
  rw [hli]
  exact S.collisionFree w vote hw hgood hwd

/-- Storing a vote keeps an aggregate when the author's earlier vote, if any, has
the new vote's digest. -/
theorem update (h : AggInv S stored d li)
    (hprev : ∀ w, stored vote.author = some w → C.hashLedgerInfo w.ledgerInfo = C.hashLedgerInfo vote.ledgerInfo) :
    AggInv S (Function.update stored vote.author (some vote)) d li := by
  refine ⟨h.sorted, h.ledgerInfo, fun x hx => ?_⟩
  obtain ⟨⟨w, hw, hwd⟩, hsig⟩ := h.signer x hx
  refine ⟨?_, hsig⟩
  by_cases hx₁ : x.1 = vote.author
  · rw [hx₁, Function.update_self]
    rw [hx₁] at hw
    exact ⟨vote, rfl, (hprev w hw).symm.trans hwd⟩
  · rw [Function.update_of_ne hx₁]
    exact ⟨w, hw, hwd⟩

/-- The signature of an author who voted for the digest, valid on the ledger
info, keeps an aggregate. -/
theorem addSignature (h : AggInv S stored d li) {a : A} {s : Sig} (hstored : stored a = some vote)
    (hd : C.hashLedgerInfo vote.ledgerInfo = d) (hsig : v.verify C.verifyLedgerInfo a li.ledgerInfo s = .ok ()) :
    AggInv S stored d (li.addSignature a s) := by
  refine ⟨LedgerInfoWithSignatures.sorted_addSignature h.sorted a s, ?_, fun x hx => ?_⟩
  · rw [LedgerInfoWithSignatures.addSignature_ledgerInfo]
    exact h.ledgerInfo
  · rw [LedgerInfoWithSignatures.addSignature_ledgerInfo]
    rcases LedgerInfoWithSignatures.mem_addSignature hx with hx | rfl
    · exact h.signer x hx
    · exact ⟨⟨vote, hstored, hd⟩, hsig⟩

/-- An aggregate whose signers pass `check_voting_power` passes `verify_signatures`. -/
theorem verifySignatures (h : AggInv S stored d li)
    (hpower : v.checkVotingPower (li.signatures.map Prod.fst) = .ok ()) : li.verifySignatures C v = .ok () := by
  have hle := (SortedMap.keys_nodup_of_sorted h.sorted).length_le_of_subset
    (v.quorum_of_checkVotingPower hpower).1
  rw [List.length_map, ValidatorVerifier.addresses, List.length_map] at hle
  exact ValidatorVerifier.verifyAggregatedStructSignature_of hle hpower fun x hx => (h.signer x hx).2

end AggInv

namespace TcInv

variable {stored : A → Option (Vote A PK Sig)} {tc : TwoChainTimeoutCertificate A PK Sig}

/-- An author whose stored vote has no timeout has no entry. -/
theorem not_signer (h : TcInv C v e r stored tc) {a : A} (hprev : ∀ w, stored a = some w → w.isTimeout = false) :
    ∀ x ∈ tc.signatures, x.1 ≠ a := by
  intro x hx hxa
  obtain ⟨⟨w, hw, hwt⟩, -⟩ := h.signer x hx
  rw [hxa] at hw
  rw [hprev w hw] at hwt
  cases hwt

/-- Storing a vote for an author whose stored vote has no timeout keeps the certificate. -/
theorem update (h : TcInv C v e r stored tc) {a : A} (hprev : ∀ w, stored a = some w → w.isTimeout = false) :
    TcInv C v e r (Function.update stored a (some vote)) tc := by
  refine ⟨h.sorted, h.timeout, fun x hx => ?_, h.highest⟩
  rw [Function.update_of_ne (h.not_signer hprev x hx)]
  exact h.signer x hx

variable {timeout : TwoChainTimeout A PK Sig} {signature : Sig}

/-- A fresh author's valid timeout keeps the certificate: the timeout of the higher
quorum certificate stays, and its round is the highest signed. -/
theorem add (h : TcInv C v e r stored tc) (hstored : stored vote.author = some vote)
    (ht : vote.twoChainTimeout = some (timeout, signature))
    (htimeout : timeout.epoch = e ∧ timeout.round = r ∧ timeout.verify C v = .ok ())
    (hsig : v.verify C.verifyTimeoutSigningRepr vote.author ⟨e, r, timeout.hqcRound⟩ signature = .ok ())
    (hfresh : ∀ x ∈ tc.signatures, x.1 ≠ vote.author) :
    TcInv C v e r stored (tc.add vote.author timeout signature) := by
  have hnew : ∃ w, stored vote.author = some w ∧ w.isTimeout := ⟨vote, hstored, by simp [Vote.isTimeout, ht]⟩
  obtain ⟨hle, x₀, hx₀, hx₀q⟩ := h.highest
  refine ⟨?_, ?_, fun x hx => ?_, ?_⟩
  · rw [TwoChainTimeoutCertificate.add_signatures]
    exact SortedMap.sorted_insert _ _ h.sorted
  · rw [TwoChainTimeoutCertificate.add_timeout]
    split_ifs
    · exact htimeout
    · exact h.timeout
  · rw [TwoChainTimeoutCertificate.add_signatures] at hx
    rcases SortedMap.mem_insert hx with rfl | hx
    · exact ⟨hnew, hsig⟩
    · exact h.signer x hx
  · rw [TwoChainTimeoutCertificate.add_signatures, TwoChainTimeoutCertificate.add_timeout]
    split_ifs with hlt
    · refine ⟨fun x hx => ?_, _, SortedMap.mem_insert_self _ _ _, rfl⟩
      rcases SortedMap.mem_insert hx with rfl | hx
      · exact le_rfl
      · exact (hle x hx).trans hlt.le
    · refine ⟨fun x hx => ?_, x₀, SortedMap.mem_insert_of_ne (hfresh x₀ hx₀) hx₀, hx₀q⟩
      rcases SortedMap.mem_insert hx with rfl | hx
      · exact Nat.le_of_not_lt hlt
      · exact hle x hx

/-- The certificate a valid timeout starts. -/
theorem new_add (hstored : stored vote.author = some vote) (ht : vote.twoChainTimeout = some (timeout, signature))
    (htimeout : timeout.epoch = e ∧ timeout.round = r ∧ timeout.verify C v = .ok ())
    (hsig : v.verify C.verifyTimeoutSigningRepr vote.author ⟨e, r, timeout.hqcRound⟩ signature = .ok ()) :
    TcInv C v e r stored ((TwoChainTimeoutCertificate.new timeout).add vote.author timeout signature) := by
  have hsigs : ((TwoChainTimeoutCertificate.new timeout).add vote.author timeout signature).signatures =
      [(vote.author, timeout.hqcRound, signature)] := by
    rw [TwoChainTimeoutCertificate.add_signatures]
    rfl
  have htime : ((TwoChainTimeoutCertificate.new timeout).add vote.author timeout signature).timeout = timeout := by
    rw [TwoChainTimeoutCertificate.add_timeout]
    exact if_neg (lt_irrefl _)
  refine ⟨?_, ?_, fun x hx => ?_, ?_⟩
  · rw [hsigs]
    exact List.pairwise_singleton _ _
  · rw [htime]
    exact htimeout
  · rw [hsigs, List.mem_singleton] at hx
    subst hx
    exact ⟨⟨vote, hstored, by simp [Vote.isTimeout, ht]⟩, hsig⟩
  · rw [hsigs, htime]
    refine ⟨fun x hx => ?_, _, List.mem_singleton_self _, rfl⟩
    rw [List.mem_singleton] at hx
    subst hx
    exact le_rfl

/-- A certificate whose signers pass `check_voting_power` passes `verify`. -/
theorem verify (h : TcInv C v e r stored tc) (hpower : v.checkVotingPower tc.signers = .ok ()) :
    tc.verify C v = .ok () := by
  obtain ⟨he, hr, htv⟩ := h.timeout
  refine TwoChainTimeoutCertificate.verify_of htv hpower (fun x hx => ?_) h.highest.1 h.highest.2
  rw [he, hr]
  exact (h.signer x hx).2

end TcInv

namespace Inv

variable {pv : PendingVotes A PK Sig}

theorem new : Inv S (PendingVotes.new : PendingVotes A PK Sig) where
  aggregate _ _ h := by cases h
  partialTc _ h := by cases h

/-- The echo flag is no part of the invariant. -/
theorem echo (hinv : Inv S pv) (b : Bool) : Inv S { pv with echoTimeout := b } :=
  ⟨hinv.aggregate, hinv.partialTc⟩

/-- The aggregate a good vote joins: the one under its digest, or a new one on its
ledger info. -/
theorem base (hinv : Inv S pv) (hgood : S.good vote) :
    AggInv S pv.authorToVote (C.hashLedgerInfo vote.ledgerInfo)
      ((pv.liDigestToVotes (C.hashLedgerInfo vote.ledgerInfo)).getD ⟨vote.ledgerInfo, []⟩) := by
  cases hagg : pv.liDigestToVotes (C.hashLedgerInfo vote.ledgerInfo) with
  | none => exact ⟨List.Pairwise.nil, ⟨vote, hgood, rfl, rfl⟩, fun x hx => by cases hx⟩
  | some li => exact hinv.aggregate _ li hagg

/-- Steps 2 and 3 keep the invariant. -/
theorem recordVote (hinv : Inv S pv) (hgood : S.good vote)
    (hprev : previousVoteResult C vote (pv.authorToVote vote.author) = none) :
    Inv S (recordVote C vote pv) := by
  have hold := previousVoteResult_eq_none hprev
  constructor
  · intro d li hli
    rw [recordVote_authorToVote]
    by_cases hd : d = C.hashLedgerInfo vote.ledgerInfo
    · subst hd
      rw [recordVote_liDigestToVotes, Function.update_self, Option.some.injEq] at hli
      subst hli
      have hsig : v.verify C.verifyLedgerInfo vote.author
          ((pv.liDigestToVotes (C.hashLedgerInfo vote.ledgerInfo)).getD ⟨vote.ledgerInfo, []⟩).ledgerInfo
          vote.signature = .ok () := by
        rw [(hinv.base hgood).ledgerInfo_eq hgood]
        exact (RoundVotes.verified hgood).signature
      exact ((hinv.base hgood).update fun w hw => (hold w hw).1).addSignature (Function.update_self _ _ _) rfl hsig
    · rw [recordVote_liDigestToVotes, Function.update_of_ne hd] at hli
      exact (hinv.aggregate d li hli).update fun w hw => (hold w hw).1
  · intro tc htc
    exact (hinv.partialTc tc htc).update fun w hw => (hold w hw).2

/-- An author let past step 1 has no entry in the partial certificate. -/
theorem not_signer (hinv : Inv S pv) (hprev : previousVoteResult C vote (pv.authorToVote vote.author) = none) :
    ∀ tc, pv.maybePartial2chainTc = some tc → ∀ x ∈ tc.signatures, x.1 ≠ vote.author :=
  fun tc htc => (hinv.partialTc tc htc).not_signer fun w hw => (previousVoteResult_eq_none hprev w hw).2

/-- A good vote's timeout joins the partial certificate keeping the invariant,
when the vote is stored and its author has no entry yet. -/
theorem addTimeout (hinv : Inv S pv) (hgood : S.good vote) (hstored : pv.authorToVote vote.author = some vote)
    {timeout : TwoChainTimeout A PK Sig} {signature : Sig} (ht : vote.twoChainTimeout = some (timeout, signature))
    (hfresh : ∀ tc, pv.maybePartial2chainTc = some tc → ∀ x ∈ tc.signatures, x.1 ≠ vote.author) :
    Inv S { pv with maybePartial2chainTc := some (partialTcWith vote timeout signature pv) } := by
  obtain ⟨htimeout, hsig⟩ := RoundVotes.timeout_of_good hgood ht
  refine ⟨hinv.aggregate, fun tc htc => ?_⟩
  cases htc
  unfold partialTcWith
  cases hpt : pv.maybePartial2chainTc with
  | none => exact TcInv.new_add hstored ht htimeout hsig
  | some tc => exact (hinv.partialTc tc hpt).add hstored ht htimeout hsig (hfresh tc hpt)

/-- Each author signs an aggregate and the partial certificate at most once, and
aggregates of one digest only. -/
theorem signersOnce (hinv : Inv S pv) :
    (∀ d li, pv.liDigestToVotes d = some li → (li.signatures.map Prod.fst).Nodup) ∧
      (∀ tc, pv.maybePartial2chainTc = some tc → tc.signers.Nodup) ∧
      ∀ d₁ d₂ li₁ li₂, pv.liDigestToVotes d₁ = some li₁ → pv.liDigestToVotes d₂ = some li₂ →
        ∀ x₁ ∈ li₁.signatures, ∀ x₂ ∈ li₂.signatures, x₁.1 = x₂.1 → d₁ = d₂ := by
  refine ⟨fun d li h => SortedMap.keys_nodup_of_sorted (hinv.aggregate d li h).sorted,
    fun tc h => SortedMap.keys_nodup_of_sorted (hinv.partialTc tc h).sorted, ?_⟩
  intro d₁ d₂ li₁ li₂ h₁ h₂ x₁ hx₁ x₂ hx₂ hx
  obtain ⟨w₁, hw₁, rfl⟩ := ((hinv.aggregate d₁ li₁ h₁).signer x₁ hx₁).1
  obtain ⟨w₂, hw₂, rfl⟩ := ((hinv.aggregate d₂ li₂ h₂).signer x₂ hx₂).1
  rw [hx, hw₂, Option.some.injEq] at hw₁
  rw [hw₁]

end Inv

variable (C v) in
/-- What a returned certificate satisfies. A quorum certificate has distinct
signers of a quorum's power on the ledger info of its vote data, and passes
`QuorumCert::verify`; a timeout certificate passes
`TwoChainTimeoutCertificate::verify`, its timeout of the highest round signed. -/
def ValidResult : VoteReceptionResult A PK Sig → Prop
  | .newQuorumCertificate qc =>
    (qc.signedLedgerInfo.signatures.map Prod.fst).Nodup ∧
      v.quorumVotingPower ≤ ((qc.signedLedgerInfo.signatures.map Prod.fst).map v.power).sum ∧
      qc.signedLedgerInfo.ledgerInfo.consensusDataHash = C.hashVoteData qc.voteData ∧ qc.verify C v = .ok ()
  | .new2ChainTimeoutCertificate tc =>
    tc.verify C v = .ok () ∧
      (∀ x ∈ tc.signatures, x.2.1 ≤ tc.timeout.hqcRound) ∧ ∃ x ∈ tc.signatures, x.2.1 = tc.timeout.hqcRound
  | _ => True

variable {pv pv' : PendingVotes A PK Sig} {result : VoteReceptionResult A PK Sig}

/-- The quorum certificate step 3 forms from a good vote is valid. -/
theorem validResult_quorumCert (hinv : Inv S (recordVote C vote pv)) (hgood : S.good vote)
    (hpower : v.checkVotingPower ((withSignature C vote pv).signatures.map Prod.fst) = .ok ()) :
    ValidResult C v (.newQuorumCertificate ⟨vote.voteData, withSignature C vote pv⟩) := by
  have hagg := hinv.aggregate _ _ (by rw [recordVote_liDigestToVotes, Function.update_self])
  have hverified := RoundVotes.verified hgood
  have hhash : (withSignature C vote pv).ledgerInfo.consensusDataHash = C.hashVoteData vote.voteData := by
    rw [hagg.ledgerInfo_eq hgood]
    exact hverified.consensusDataHash
  have hround := VoteData.round_lt_of_verify hverified.voteData
  refine ⟨SortedMap.keys_nodup_of_sorted hagg.sorted, (v.quorum_of_checkVotingPower hpower).2, hhash, ?_⟩
  exact QuorumCert.verify_of_signatures hhash (Nat.ne_of_gt (Nat.lt_of_le_of_lt (Nat.zero_le _) hround))
    (hagg.verifySignatures hpower) hverified.voteData

/-- Steps 4 and 5 keep the invariant and return a valid result, for a stored good
vote whose author has no entry in the partial certificate. -/
theorem insertTimeout_inv {votingPower : Nat} (hinv : Inv S pv) (hgood : S.good vote)
    (hstored : pv.authorToVote vote.author = some vote)
    (hfresh : ∀ tc, pv.maybePartial2chainTc = some tc → ∀ x ∈ tc.signatures, x.1 ≠ vote.author)
    (h : insertTimeout v vote votingPower pv = .ok (result, pv')) : Inv S pv' ∧ ValidResult C v result := by
  rcases insertTimeout_eq_ok h with ⟨-, rfl, rfl⟩ |
      ⟨timeout, signature, ht, ⟨hpower, rfl, rfl⟩ | ⟨-, ⟨_, rfl⟩, rfl⟩ | ⟨hresult, rfl⟩⟩
  · exact ⟨hinv, trivial⟩
  · have hinv' := hinv.addTimeout hgood hstored ht hfresh
    have htc := hinv'.partialTc _ rfl
    exact ⟨hinv', htc.verify hpower, htc.highest⟩
  · exact ⟨(hinv.addTimeout hgood hstored ht hfresh).echo true, trivial⟩
  · refine ⟨hinv.addTimeout hgood hstored ht hfresh, ?_⟩
    rcases hresult with rfl | ⟨_, rfl⟩ <;> trivial

/-- `insert_vote` keeps the invariant and returns a valid result for a good vote. -/
theorem insertVote_inv (hinv : Inv S pv) (hgood : S.good vote) (h : insertVote C v vote pv = .ok (result, pv')) :
    Inv S pv' ∧ ValidResult C v result := by
  rcases insertVote_eq_ok h with ⟨hprev, rfl⟩ | ⟨hprev, ⟨hpower, rfl, rfl⟩ | ⟨_, htimeout⟩ | ⟨⟨_, rfl⟩, rfl⟩⟩
  · refine ⟨hinv, ?_⟩
    rcases previousVoteResult_eq_some hprev with rfl | rfl <;> trivial
  · have hinv' := hinv.recordVote hgood hprev
    exact ⟨hinv', validResult_quorumCert hinv' hgood hpower⟩
  · exact insertTimeout_inv (hinv.recordVote hgood hprev) hgood (Function.update_self _ _ _) (hinv.not_signer hprev)
      htimeout
  · exact ⟨hinv.recordVote hgood hprev, trivial⟩

/-- Over a run of good votes, the invariant holds and every result is valid. -/
theorem insertVotes_inv :
    ∀ {votes : List (Vote A PK Sig)} {pv pv' : PendingVotes A PK Sig} {results : List (VoteReceptionResult A PK Sig)},
      (∀ vote ∈ votes, S.good vote) → Inv S pv → insertVotes C v votes pv = .ok (results, pv') →
        Inv S pv' ∧ ∀ result ∈ results, ValidResult C v result
  | [], _, _, _, _, hinv, h => by
    cases h
    exact ⟨hinv, fun _ h => by cases h⟩
  | vote :: votes, _, _, _, hgood, hinv, h => by
    obtain ⟨result, pv₁, rest, h₁, h₂, rfl⟩ := insertVotes_cons_eq_ok h
    obtain ⟨hinv₁, hvalid⟩ := insertVote_inv hinv (hgood vote List.mem_cons_self) h₁
    obtain ⟨hinv', hrest⟩ := insertVotes_inv (fun w hw => hgood w (List.mem_cons_of_mem vote hw)) hinv₁ h₂
    refine ⟨hinv', fun x hx => ?_⟩
    rcases List.mem_cons.mp hx with rfl | hx
    · exact hvalid
    · exact hrest x hx

/-! ## Echoing a timeout -/

section Echo

omit [DecidableEq PK]

/-- Steps 4 and 5 set the echo flag exactly when they return `EchoTimeout`, and
only when it was not set. -/
theorem insertTimeout_echo {votingPower : Nat} (h : insertTimeout v vote votingPower pv = .ok (result, pv')) :
    pv'.echoTimeout.toNat = pv.echoTimeout.toNat + result.isEchoTimeout.toNat := by
  rcases insertTimeout_eq_ok h with ⟨-, rfl, rfl⟩ |
      ⟨timeout, signature, -, ⟨-, rfl, rfl⟩ | ⟨hecho, ⟨_, rfl⟩, rfl⟩ | ⟨hresult, rfl⟩⟩
  · rfl
  · rfl
  · rw [hecho]
    rfl
  · rcases hresult with rfl | ⟨_, rfl⟩ <;> rfl

theorem insertVote_echo (h : insertVote C v vote pv = .ok (result, pv')) :
    pv'.echoTimeout.toNat = pv.echoTimeout.toNat + result.isEchoTimeout.toNat := by
  rcases insertVote_eq_ok h with ⟨hprev, rfl⟩ | ⟨-, ⟨-, rfl, rfl⟩ | ⟨_, htimeout⟩ | ⟨⟨_, rfl⟩, rfl⟩⟩
  · rcases previousVoteResult_eq_some hprev with rfl | rfl <;> rfl
  · rfl
  · rw [insertTimeout_echo htimeout, recordVote_echoTimeout]
  · rfl

/-- Over a run, the echo flag counts the `EchoTimeout` results. -/
theorem insertVotes_echo :
    ∀ {votes : List (Vote A PK Sig)} {pv pv' : PendingVotes A PK Sig} {results : List (VoteReceptionResult A PK Sig)},
      insertVotes C v votes pv = .ok (results, pv') →
        pv'.echoTimeout.toNat = pv.echoTimeout.toNat + results.countP (·.isEchoTimeout)
  | [], _, _, _, h => by
    cases h
    rfl
  | vote :: votes, _, _, _, h => by
    obtain ⟨result, pv₁, rest, h₁, h₂, rfl⟩ := insertVotes_cons_eq_ok h
    have hcount : (if result.isEchoTimeout = true then 1 else 0) = result.isEchoTimeout.toNat := by
      cases result.isEchoTimeout <;> rfl
    rw [insertVotes_echo h₂, insertVote_echo h₁, List.countP_cons, hcount]
    omega

end Echo

/-! ## A round of votes -/

/-- Votes of one round inserted in turn into new pending votes, each passing
`Vote::verify` and no two of different ledger infos under one digest. Each author
has at most one signature in each aggregate and one entry in the partial timeout
certificate, and signs aggregates of one digest only; every quorum certificate
returned has distinct signers of a quorum's power on the ledger info of its vote
data and passes `QuorumCert::verify`; every timeout certificate returned passes
`TwoChainTimeoutCertificate::verify`, its timeout of the highest round signed;
and `EchoTimeout` is returned at most once. -/
theorem vote_aggregation_sound {e r : Nat} {votes : List (Vote A PK Sig)}
    (hvotes : ∀ vote ∈ votes, VoteOfRound C v e r vote)
    (hcoll : ∀ v₁ ∈ votes, ∀ v₂ ∈ votes,
      C.hashLedgerInfo v₁.ledgerInfo = C.hashLedgerInfo v₂.ledgerInfo → v₁.ledgerInfo = v₂.ledgerInfo)
    {results : List (VoteReceptionResult A PK Sig)} {pv : PendingVotes A PK Sig}
    (h : insertVotes C v votes PendingVotes.new = .ok (results, pv)) :
    ((∀ d li, pv.liDigestToVotes d = some li → (li.signatures.map Prod.fst).Nodup) ∧
      (∀ tc, pv.maybePartial2chainTc = some tc → tc.signers.Nodup) ∧
      ∀ d₁ d₂ li₁ li₂, pv.liDigestToVotes d₁ = some li₁ → pv.liDigestToVotes d₂ = some li₂ →
        ∀ x₁ ∈ li₁.signatures, ∀ x₂ ∈ li₂.signatures, x₁.1 = x₂.1 → d₁ = d₂) ∧
      (∀ result ∈ results, ValidResult C v result) ∧ results.countP (·.isEchoTimeout) ≤ 1 := by
  let S : RoundVotes C v e r := ⟨(· ∈ votes), hvotes, fun v₁ v₂ h₁ h₂ => hcoll v₁ h₁ v₂ h₂⟩
  obtain ⟨hinv, hvalid⟩ := insertVotes_inv (S := S) (fun _ hvote => hvote) Inv.new h
  have hecho := insertVotes_echo h
  have hnew : (PendingVotes.new : PendingVotes A PK Sig).echoTimeout.toNat = 0 := rfl
  have hflag := Bool.toNat_le pv.echoTimeout
  refine ⟨hinv.signersOnce, hvalid, ?_⟩
  omega

/-- A verifier of the one validator `0`, of power `1` and key `0`. -/
def sampleVerifier : ValidatorVerifier Nat Nat := ⟨[(0, ⟨0, 1⟩)], 1, 1, by decide⟩

/-- Ledger infos hashed by their consensus data hash, vote data by the proposed
block's id, and a signature that is the signer's key. -/
def sampleCrypto : Crypto Nat Nat Nat :=
  ⟨fun li => li.consensusDataHash, fun voteData => voteData.proposed.id, fun pk _ s => s == pk,
    fun pk _ s => s == pk⟩

/-- The vote of validator `0` for a block of round 1 of epoch 1. -/
def sampleVote : Vote Nat Nat Nat :=
  ⟨⟨⟨1, 1, 5, 0, 0, 1, none⟩, ⟨1, 0, 4, 0, 0, 0, none⟩⟩, 0, ⟨BlockInfo.empty, 5⟩, 0, none⟩

/-- The one validator's vote forms a quorum certificate at once, and a valid one. -/
theorem vote_aggregation_sound_sample :
    ∃ results pv, insertVotes sampleCrypto sampleVerifier [sampleVote] PendingVotes.new = .ok (results, pv) ∧
      (∀ result ∈ results, ValidResult sampleCrypto sampleVerifier result) ∧ results.countP (·.isEchoTimeout) ≤ 1 := by
  have hvotes : ∀ vote ∈ [sampleVote], VoteOfRound sampleCrypto sampleVerifier 1 1 vote := by
    intro vote hvote
    rw [List.mem_singleton] at hvote
    subst hvote
    exact ⟨rfl, rfl, rfl⟩
  have hcoll : ∀ v₁ ∈ [sampleVote], ∀ v₂ ∈ [sampleVote],
      sampleCrypto.hashLedgerInfo v₁.ledgerInfo = sampleCrypto.hashLedgerInfo v₂.ledgerInfo →
        v₁.ledgerInfo = v₂.ledgerInfo := by
    intro v₁ h₁ v₂ h₂ _
    rw [List.mem_singleton] at h₁ h₂
    rw [h₁, h₂]
  obtain ⟨results, pv, h⟩ : ∃ results pv,
      insertVotes sampleCrypto sampleVerifier [sampleVote] PendingVotes.new = .ok (results, pv) := ⟨_, _, rfl⟩
  exact ⟨results, pv, h, (vote_aggregation_sound hvotes hcoll h).2⟩

end AptosCore.Consensus.PendingVotes
