import Mathlib
import AptosCore.Consensus.SafetyRules
import AptosCore.Lib.Outcome

/-!
# What each safety-rules method does to the persisted safety data

The safety data a validator relies on after a restart is the one in the secure
storage (`persisted`). `PersistentSafetyStorage` keeps a copy of it in a cache; the
copy is `Coherent` with the storage when it is what the storage holds. Every
method keeps the cache coherent, so that what `safety_data()` reads back is the
persisted data.

For each guarded method this module states what a run from a coherent state
does: a failed signing request leaves the storage as it was; a vote or a timeout
that is signed is above the last voted round and is persisted before it is
returned. Safety data are ordered by epoch, then by their rounds
(`SafetyData.le`), and every method moves the persisted data forward
(`Advances`).
-/

set_option mvcgen.warning false

namespace AptosCore.Consensus

open Std.Do

variable {A PK SK Sig E P σ : Type} [LinearOrder A]

/-! ## The order of safety data -/

/-- Safety data `d'` is no older than `d`: a later epoch, or the same epoch with no
round lower. -/
instance : Preorder (SafetyData A PK Sig) where
  le d d' := d.epoch < d'.epoch ∨ (d.epoch = d'.epoch ∧ d.lastVotedRound ≤ d'.lastVotedRound ∧
    d.preferredRound ≤ d'.preferredRound ∧ d.oneChainRound ≤ d'.oneChainRound)
  le_refl d := Or.inr ⟨rfl, le_rfl, le_rfl, le_rfl⟩
  le_trans d₁ d₂ d₃ := by
    rintro (h₁₂ | ⟨he₁₂, hl₁₂, hp₁₂, ho₁₂⟩) (h₂₃ | ⟨he₂₃, hl₂₃, hp₂₃, ho₂₃⟩)
    · exact Or.inl (h₁₂.trans h₂₃)
    · exact Or.inl (he₂₃ ▸ h₁₂)
    · exact Or.inl (he₁₂ ▸ h₂₃)
    · exact Or.inr ⟨he₁₂.trans he₂₃, hl₁₂.trans hl₂₃, hp₁₂.trans hp₂₃, ho₁₂.trans ho₂₃⟩

theorem SafetyData.le_def {d d' : SafetyData A PK Sig} :
    d ≤ d' ↔ d.epoch < d'.epoch ∨ (d.epoch = d'.epoch ∧ d.lastVotedRound ≤ d'.lastVotedRound ∧
      d.preferredRound ≤ d'.preferredRound ∧ d.oneChainRound ≤ d'.oneChainRound) := Iff.rfl

/-- Within one epoch, the last voted round of later safety data is no lower. -/
theorem SafetyData.lastVotedRound_le_of_le {d d' : SafetyData A PK Sig} (h : d ≤ d')
    (he : d.epoch = d'.epoch) : d.lastVotedRound ≤ d'.lastVotedRound := by
  rcases h with h | ⟨_, hl, _, _⟩
  · exact absurd he (ne_of_lt h)
  · exact hl

theorem SafetyData.epoch_le_of_le {d d' : SafetyData A PK Sig} (h : d ≤ d') : d.epoch ≤ d'.epoch := by
  rcases h with h | ⟨he, _⟩
  · exact h.le
  · exact he.le

/-- The persisted safety data moved forward from `x` to `y`: both read, the second
no older, or both unreadable with the same error. -/
def Advances : Except StorageError (SafetyData A PK Sig) → Except StorageError (SafetyData A PK Sig) → Prop
  | .ok d, .ok d' => d ≤ d'
  | .error e, .error e' => e = e'
  | _, _ => False

theorem Advances.of_eq {x y : Except StorageError (SafetyData A PK Sig)} (h : x = y) : Advances x y := by
  subst h
  cases x with
  | ok d => exact le_refl d
  | error e => rfl

theorem Advances.trans {x y z : Except StorageError (SafetyData A PK Sig)} (hxy : Advances x y)
    (hyz : Advances y z) : Advances x z := by
  cases x <;> cases y <;> cases z
  all_goals first
    | exact le_trans (α := SafetyData A PK Sig) hxy hyz
    | exact Eq.trans hxy hyz
    | exact hxy.elim
    | exact hyz.elim

theorem Advances.ok_of_ok {d : SafetyData A PK Sig} {y : Except StorageError (SafetyData A PK Sig)}
    (h : Advances (.ok d) y) : ∃ d', y = .ok d' ∧ d ≤ d' := by
  cases y with
  | ok d' => exact ⟨d', rfl, h⟩
  | error e => exact h.elim

/-! ## The cache of `PersistentSafetyStorage` -/

namespace PersistentSafetyStorage

variable (S : SecureStorage A PK SK Sig σ)

/-- The cached safety data, if any, is what the storage holds. -/
def Coherent (storage : PersistentSafetyStorage A PK Sig σ) : Prop :=
  ∀ data, storage.cachedSafetyData = some data → S.getSafetyData storage.internalStore = .ok data

/-- `PersistentSafetyStorage::new` caches nothing. -/
theorem coherent_new (internalStore : σ) (enableCachedSafetyData : Bool) :
    (PersistentSafetyStorage.new internalStore enableCachedSafetyData : PersistentSafetyStorage A PK Sig σ).Coherent S := by
  intro data h
  cases h

theorem coherent_of_cache_none {storage : PersistentSafetyStorage A PK Sig σ}
    (h : storage.cachedSafetyData = none) : storage.Coherent S := by
  intro data hd
  rw [h] at hd
  cases hd

@[simp] theorem safetyData_internalStore (storage : PersistentSafetyStorage A PK Sig σ) :
    (storage.safetyData S).2.internalStore = storage.internalStore := by
  unfold safetyData
  split
  · rfl
  · split
    · rfl
    · split <;> rfl

/-- Reading keeps the cache coherent: it fills it only with what the storage holds. -/
theorem coherent_safetyData {storage : PersistentSafetyStorage A PK Sig σ} (h : storage.Coherent S) :
    (storage.safetyData S).2.Coherent S := by
  unfold safetyData
  split
  · exact h
  · split
    · exact h
    · split
      · rename_i data hdata
        intro data' hdata'
        cases hdata'
        exact hdata
      · exact h

/-- From a coherent cache, `safety_data()` returns what the storage holds. -/
theorem safetyData_fst_of_coherent {storage : PersistentSafetyStorage A PK Sig σ} (h : storage.Coherent S) :
    (storage.safetyData S).1 = (S.getSafetyData storage.internalStore).mapError Error.ofStorage := by
  unfold safetyData
  split
  · rfl
  · split
    · rename_i data hcache
      rw [h data hcache]
      rfl
    · split <;> rename_i hget <;> rw [hget] <;> rfl

theorem getSafetyData_of_safetyData {storage : PersistentSafetyStorage A PK Sig σ} (h : storage.Coherent S)
    {data : SafetyData A PK Sig} (hread : (storage.safetyData S).1 = .ok data) :
    S.getSafetyData storage.internalStore = .ok data := by
  rw [safetyData_fst_of_coherent S h] at hread
  cases hget : S.getSafetyData storage.internalStore with
  | ok data' =>
    rw [hget] at hread
    cases hread
    rfl
  | error e =>
    rw [hget] at hread
    cases hread

theorem setSafetyData_of_error {storage : PersistentSafetyStorage A PK Sig σ} {data : SafetyData A PK Sig}
    {e : Error} (h : (storage.setSafetyData S data).1 = .error e) :
    (storage.setSafetyData S data).2 = { storage with cachedSafetyData := none } := by
  unfold setSafetyData at h ⊢
  split at h
  · cases h
  · rfl

theorem setSafetyData_of_ok {storage : PersistentSafetyStorage A PK Sig σ} {data : SafetyData A PK Sig}
    {u : Unit} (h : (storage.setSafetyData S data).1 = .ok u) :
    ∃ internalStore, S.setSafetyData data storage.internalStore = .ok internalStore ∧
      (storage.setSafetyData S data).2 = { storage with cachedSafetyData := some data, internalStore } := by
  unfold setSafetyData at h ⊢
  split at h
  · rename_i internalStore hset
    exact ⟨internalStore, hset, rfl⟩
  · cases h

/-- A failed write of the safety data leaves the storage as it was, with an empty
cache. -/
theorem setSafetyData_frame_of_error {storage : PersistentSafetyStorage A PK Sig σ}
    {data : SafetyData A PK Sig} {e : Error} (h : (storage.setSafetyData S data).1 = .error e) :
    (storage.setSafetyData S data).2.internalStore = storage.internalStore ∧
      (storage.setSafetyData S data).2.Coherent S := by
  rw [setSafetyData_of_error S h]
  exact ⟨rfl, coherent_of_cache_none S rfl⟩

variable {S}

/-- A successful write of the safety data is what the storage then holds. -/
theorem getSafetyData_setSafetyData (hS : S.Lawful) {storage : PersistentSafetyStorage A PK Sig σ}
    {data : SafetyData A PK Sig} {u : Unit} (h : (storage.setSafetyData S data).1 = .ok u) :
    S.getSafetyData (storage.setSafetyData S data).2.internalStore = .ok data := by
  obtain ⟨internalStore, hset, heq⟩ := setSafetyData_of_ok S h
  rw [heq]
  exact hS.getSafetyData_setSafetyData hset

/-- Writing the safety data, successfully or not, leaves the cache coherent. -/
theorem coherent_setSafetyData (hS : S.Lawful) (storage : PersistentSafetyStorage A PK Sig σ)
    (data : SafetyData A PK Sig) : (storage.setSafetyData S data).2.Coherent S := by
  cases h : (storage.setSafetyData S data).1 with
  | ok u =>
    intro data' hdata'
    obtain ⟨internalStore, hset, heq⟩ := setSafetyData_of_ok S h
    rw [heq] at hdata' ⊢
    cases hdata'
    exact hS.getSafetyData_setSafetyData hset
  | error e => exact (setSafetyData_frame_of_error S h).2

/-- Writing the waypoint leaves the safety data and the cache as they were. -/
theorem setWaypoint_safetyData (hS : S.Lawful) (storage : PersistentSafetyStorage A PK Sig σ)
    (waypoint : Waypoint) :
    S.getSafetyData (storage.setWaypoint S waypoint).2.internalStore = S.getSafetyData storage.internalStore ∧
      (storage.setWaypoint S waypoint).2.cachedSafetyData = storage.cachedSafetyData := by
  unfold setWaypoint
  split
  · rename_i internalStore hset
    exact ⟨hS.getSafetyData_setWaypoint hset, rfl⟩
  · exact ⟨rfl, rfl⟩

theorem coherent_setWaypoint (hS : S.Lawful) {storage : PersistentSafetyStorage A PK Sig σ}
    (h : storage.Coherent S) (waypoint : Waypoint) : (storage.setWaypoint S waypoint).2.Coherent S := by
  intro data hdata
  obtain ⟨hget, hcache⟩ := setWaypoint_safetyData hS storage waypoint
  rw [hget]
  rw [hcache] at hdata
  exact h data hdata

end PersistentSafetyStorage

/-! ## Reading the state back -/

section Read

variable (S : SecureStorage A PK SK Sig σ)

/-- The safety data in the secure storage. -/
def persisted (st : SafetyRules A PK SK Sig σ) : Except StorageError (SafetyData A PK Sig) :=
  S.getSafetyData st.persistentStorage.internalStore

/-- What `safety_data()` returns in a state: the safety data read back. -/
def readSafetyData (st : SafetyRules A PK SK Sig σ) : Except Error (SafetyData A PK Sig) :=
  (st.persistentStorage.safetyData S).1

/-- What `waypoint()` returns in a state. -/
def readWaypoint (st : SafetyRules A PK SK Sig σ) : Except Error Waypoint :=
  st.persistentStorage.waypoint S

/-- Two coherent states with one storage read back the same safety data and
waypoint. -/
theorem read_eq_of_internalStore_eq {st st' : SafetyRules A PK SK Sig σ}
    (hcoh : st.persistentStorage.Coherent S) (hcoh' : st'.persistentStorage.Coherent S)
    (hstore : st'.persistentStorage.internalStore = st.persistentStorage.internalStore) :
    readSafetyData S st' = readSafetyData S st ∧ readWaypoint S st' = readWaypoint S st := by
  refine ⟨?_, ?_⟩
  · rw [readSafetyData, readSafetyData, PersistentSafetyStorage.safetyData_fst_of_coherent S hcoh,
      PersistentSafetyStorage.safetyData_fst_of_coherent S hcoh', hstore]
  · rw [readWaypoint, readWaypoint, PersistentSafetyStorage.waypoint, PersistentSafetyStorage.waypoint, hstore]

end Read

/-! ## What a call does to the storage -/

section Calls

variable (C : Primitives A PK SK Sig E P) (S : SecureStorage A PK SK Sig σ)

open PersistentSafetyStorage

/-- From `storage₀` to `storage` the cache stays coherent and the persisted safety
data moves forward. -/
def StorageStep (storage₀ storage : PersistentSafetyStorage A PK Sig σ) : Prop :=
  storage.Coherent S ∧ Advances (S.getSafetyData storage₀.internalStore) (S.getSafetyData storage.internalStore)

theorem StorageStep.refl {storage : PersistentSafetyStorage A PK Sig σ} (h : storage.Coherent S) :
    StorageStep S storage storage :=
  ⟨h, Advances.of_eq rfl⟩

theorem StorageStep.trans {storage₀ storage₁ storage₂ : PersistentSafetyStorage A PK Sig σ}
    (h₀₁ : StorageStep S storage₀ storage₁) (h₁₂ : StorageStep S storage₁ storage₂) :
    StorageStep S storage₀ storage₂ :=
  ⟨h₁₂.1, h₀₁.2.trans h₁₂.2⟩

/-- A read after a step is a step. -/
theorem StorageStep.safetyData {storage₀ storage : PersistentSafetyStorage A PK Sig σ}
    (h : StorageStep S storage₀ storage) : StorageStep S storage₀ (storage.safetyData S).2 :=
  ⟨coherent_safetyData S h.1, by rw [safetyData_internalStore]; exact h.2⟩

variable {S} in
/-- A write of the waypoint, successful or not, after a step is a step. -/
theorem StorageStep.setWaypoint (hS : S.Lawful) {storage₀ storage : PersistentSafetyStorage A PK Sig σ}
    (h : StorageStep S storage₀ storage) (waypoint : Waypoint) :
    StorageStep S storage₀ (storage.setWaypoint S waypoint).2 :=
  ⟨coherent_setWaypoint hS h.1 waypoint, by rw [(setWaypoint_safetyData hS storage waypoint).1]; exact h.2⟩

variable {S} in
/-- A write of safety data no older than what a read returned, successful or not,
after a step is a step. -/
theorem StorageStep.setSafetyData_of_read (hS : S.Lawful) {storage₀ storage : PersistentSafetyStorage A PK Sig σ}
    (h : StorageStep S storage₀ storage) {data data' : SafetyData A PK Sig}
    (hread : (storage.safetyData S).1 = .ok data) (hle : data ≤ data') :
    StorageStep S storage₀ ((storage.safetyData S).2.setSafetyData S data').2 := by
  have hget := getSafetyData_of_safetyData S h.1 hread
  cases hset : ((storage.safetyData S).2.setSafetyData S data').1 with
  | ok u =>
    refine ⟨coherent_setSafetyData hS _ _, ?_⟩
    rw [getSafetyData_setSafetyData hS hset]
    have hadv := h.2
    rw [hget] at hadv
    -- the storage read `data` after a step, so it was readable from the start
    cases h₀ : S.getSafetyData storage₀.internalStore with
    | ok data₀ =>
      rw [h₀] at hadv
      exact le_trans (α := SafetyData A PK Sig) hadv hle
    | error e =>
      rw [h₀] at hadv
      exact hadv.elim
  | error e =>
    obtain ⟨hstore, hcoh⟩ := setSafetyData_frame_of_error S hset
    refine ⟨hcoh, ?_⟩
    rw [hstore, safetyData_internalStore]
    exact h.2

/-- The storage is the one of `st₀` and the cache is coherent. -/
def KeepsStorage (st₀ st : SafetyRules A PK SK Sig σ) : Prop :=
  st.persistentStorage.internalStore = st₀.persistentStorage.internalStore ∧ st.persistentStorage.Coherent S

theorem KeepsStorage.storageStep {st₀ st : SafetyRules A PK SK Sig σ} (h : KeepsStorage S st₀ st) :
    StorageStep S st₀.persistentStorage st.persistentStorage :=
  ⟨h.2, Advances.of_eq (by rw [h.1])⟩

/-- What a successful `construct_and_sign_vote_two_chain` leaves: the last vote sent
again for its round with nothing written, or a new vote above the last voted
round, in the current epoch, persisted as the last vote with its round. -/
def VoteOutcome (st₀ : SafetyRules A PK SK Sig σ) (voteProposal : VoteProposal A PK Sig E)
    (vote : Vote A PK Sig) (st : SafetyRules A PK SK Sig σ) : Prop :=
  st.persistentStorage.Coherent S ∧ ∃ data, persisted S st₀ = .ok data ∧
    ((data.lastVote = some vote ∧ vote.voteData.proposed.round = voteProposal.block.round ∧
        persisted S st = .ok data) ∨
      (data.lastVotedRound < vote.voteData.proposed.round ∧ vote.voteData.proposed.epoch = data.epoch ∧
        ∃ data', persisted S st = .ok data' ∧ data ≤ data' ∧ data'.epoch = data.epoch ∧
          data'.lastVotedRound = vote.voteData.proposed.round ∧ data'.lastVote = some vote))

theorem VoteOutcome.storageStep {st₀ st : SafetyRules A PK SK Sig σ} {voteProposal : VoteProposal A PK Sig E}
    {vote : Vote A PK Sig} (h : VoteOutcome S st₀ voteProposal vote st) :
    StorageStep S st₀.persistentStorage st.persistentStorage := by
  obtain ⟨hcoh, data, hget, hpath⟩ := h
  refine ⟨hcoh, ?_⟩
  rw [← persisted, ← persisted, hget]
  rcases hpath with ⟨_, _, hst⟩ | ⟨_, _, data', hst, hle, _⟩
  · rw [hst]
    exact le_refl data
  · rw [hst]
    exact hle

/-- What a successful `sign_timeout_with_qc` leaves: the timeout is in the current
epoch, not below the last voted round, with a quorum certificate no older than
the one-chain round, and its round is the persisted last voted round. -/
def TimeoutOutcome (st₀ : SafetyRules A PK SK Sig σ) (timeout : TwoChainTimeout A PK Sig)
    (st : SafetyRules A PK SK Sig σ) : Prop :=
  st.persistentStorage.Coherent S ∧ ∃ data, persisted S st₀ = .ok data ∧ timeout.epoch = data.epoch ∧
    data.lastVotedRound ≤ timeout.round ∧ data.oneChainRound ≤ timeout.hqcRound ∧
    persisted S st = .ok { data with lastVotedRound := timeout.round }

theorem TimeoutOutcome.storageStep {st₀ st : SafetyRules A PK SK Sig σ} {timeout : TwoChainTimeout A PK Sig}
    (h : TimeoutOutcome S st₀ timeout st) : StorageStep S st₀.persistentStorage st.persistentStorage := by
  obtain ⟨hcoh, data, hget, _, hround, _, hst⟩ := h
  refine ⟨hcoh, ?_⟩
  rw [← persisted, ← persisted, hget, hst]
  exact Or.inr ⟨rfl, hround, le_rfl, le_rfl⟩

/-- Reading from a coherent storage gives what the storage of `st₀` holds. -/
theorem persisted_of_read {st₀ : SafetyRules A PK SK Sig σ} {storage : PersistentSafetyStorage A PK Sig σ}
    (hcoh : storage.Coherent S) (hstore : storage.internalStore = st₀.persistentStorage.internalStore)
    {data : SafetyData A PK Sig} (hread : (storage.safetyData S).1 = .ok data) : persisted S st₀ = .ok data := by
  rw [persisted, ← hstore]
  exact getSafetyData_of_safetyData S hcoh hread

/-! ### `guarded_sign_proposal` and `guarded_sign_commit_vote` -/

/-- `guarded_sign_proposal` writes nothing: it reads the safety data at most. -/
theorem guardedSignProposal_keepsStorage {st₀ : SafetyRules A PK SK Sig σ}
    (hcoh : st₀.persistentStorage.Coherent S) (blockData : BlockData A PK Sig) :
    Outcome (fun _ st => KeepsStorage S st₀ st) (fun _ st => KeepsStorage S st₀ st)
      (guardedSignProposal C S blockData st₀) := by
  apply outcome_of_wp
  mvcgen [guardedSignProposal, verifyAuthor, verifyQc, signer, modifyStorage, epochState, sign, liftExcept]
  all_goals first
    | exact ⟨rfl, hcoh⟩
    | exact ⟨safetyData_internalStore S _, coherent_safetyData S hcoh⟩

/-- `guarded_sign_commit_vote` does not touch the state. -/
theorem guardedSignCommitVote_state (st₀ : SafetyRules A PK SK Sig σ)
    (ledgerInfo : LedgerInfoWithSignatures A PK Sig) (newLedgerInfo : LedgerInfo A PK) :
    Outcome (fun _ st => st = st₀) (fun _ st => st = st₀) (guardedSignCommitVote C ledgerInfo newLedgerInfo st₀) := by
  apply outcome_of_wp
  mvcgen [guardedSignCommitVote, signer, epochState, sign, liftExcept]

/-! ### `guarded_sign_timeout_with_qc` -/

/-- The path of a timeout above the last voted round: the round is written first. -/
theorem timeoutOutcome_of_write (hS : S.Lawful) {st₀ st : SafetyRules A PK SK Sig σ}
    (hcoh : st₀.persistentStorage.Coherent S) {timeout : TwoChainTimeout A PK Sig}
    {timeoutCert : Option (TwoChainTimeoutCertificate A PK Sig)} {data data' : SafetyData A PK Sig}
    {u₁ u₂ u₃ : Unit} (hread : (st₀.persistentStorage.safetyData S).1 = .ok data)
    (hepoch : verifyEpoch timeout.epoch data = .ok u₁) (hsafe : safeToTimeout timeout timeoutCert data = .ok u₂)
    (hlvr : verifyAndUpdateLastVoteRound timeout.round data = .ok data')
    (hset : ((st₀.persistentStorage.safetyData S).2.setSafetyData S data').1 = .ok u₃)
    (hst : st.persistentStorage = ((st₀.persistentStorage.safetyData S).2.setSafetyData S data').2) :
    TimeoutOutcome S st₀ timeout st := by
  obtain ⟨hlt, rfl⟩ := verifyAndUpdateLastVoteRound_eq_ok hlvr
  refine ⟨hst ▸ coherent_setSafetyData hS _ _, data, persisted_of_read S hcoh rfl hread,
    verifyEpoch_eq_ok hepoch, hlt.le, safeToTimeout_eq_ok hsafe, ?_⟩
  rw [persisted, hst]
  exact getSafetyData_setSafetyData hS hset

/-- The path of a timeout at the last voted round: nothing is written. -/
theorem timeoutOutcome_of_equal {st₀ st : SafetyRules A PK SK Sig σ}
    (hcoh : st₀.persistentStorage.Coherent S) {timeout : TwoChainTimeout A PK Sig}
    {timeoutCert : Option (TwoChainTimeoutCertificate A PK Sig)} {data : SafetyData A PK Sig}
    {u₁ u₂ : Unit} (hread : (st₀.persistentStorage.safetyData S).1 = .ok data)
    (hepoch : verifyEpoch timeout.epoch data = .ok u₁) (hsafe : safeToTimeout timeout timeoutCert data = .ok u₂)
    (hnlt : ¬timeout.round < data.lastVotedRound) (hngt : ¬timeout.round > data.lastVotedRound)
    (hst : st.persistentStorage = (st₀.persistentStorage.safetyData S).2) :
    TimeoutOutcome S st₀ timeout st := by
  have hround : data.lastVotedRound = timeout.round := le_antisymm (not_lt.mp hnlt) (not_lt.mp hngt)
  have hget := persisted_of_read S hcoh rfl hread
  refine ⟨hst ▸ coherent_safetyData S hcoh, data, hget, verifyEpoch_eq_ok hepoch, hround.le,
    safeToTimeout_eq_ok hsafe, ?_⟩
  rw [persisted, hst, safetyData_internalStore, ← persisted, hget, ← hround]

/-- `guarded_sign_timeout_with_qc` from a coherent state: a failed call leaves the
storage as it was, since the signer it checked first is still there to sign
after the round is written; a successful one, on a lawful storage, signs a
timeout the rules allow. -/
theorem guardedSignTimeoutWithQc_spec {st₀ : SafetyRules A PK SK Sig σ}
    (hcoh : st₀.persistentStorage.Coherent S) (timeout : TwoChainTimeout A PK Sig)
    (timeoutCert : Option (TwoChainTimeoutCertificate A PK Sig)) :
    Outcome (fun _ st => S.Lawful → TimeoutOutcome S st₀ timeout st) (fun _ st => KeepsStorage S st₀ st)
      (guardedSignTimeoutWithQc C S timeout timeoutCert st₀) := by
  apply outcome_of_wp
  mvcgen [guardedSignTimeoutWithQc, verifyTc, signer, modifyStorage, epochState, sign, liftExcept]
  all_goals first
    | exact ⟨rfl, hcoh⟩
    | exact ⟨safetyData_internalStore S _, coherent_safetyData S hcoh⟩
    | exact ⟨(setSafetyData_frame_of_error S ‹_›).1.trans (safetyData_internalStore S _),
        (setSafetyData_frame_of_error S ‹_›).2⟩
    -- signing after the write cannot fail: the signer was checked at the start
    | exact (Option.some_ne_none _ (‹st₀.validatorSigner = some _›.symm.trans ‹st₀.validatorSigner = none›)).elim
    | (intro hS
       apply timeoutOutcome_of_write S hS hcoh <;> first | assumption | rfl)
    | (intro _
       apply timeoutOutcome_of_equal S hcoh <;> first | assumption | rfl)

/-! ### `guarded_construct_and_sign_vote_two_chain` -/

/-- The safety data of a vote: the last voted round raised to the vote's round, the
quorum certificate observed, and the vote recorded. -/
theorem le_voteSafetyData {data : SafetyData A PK Sig} {round : Nat} (qc : QuorumCert A PK Sig)
    (vote : Option (Vote A PK Sig)) (hround : data.lastVotedRound ≤ round) :
    data ≤ { (observeQc qc { data with lastVotedRound := round }).2 with lastVote := vote } := by
  obtain ⟨hp, ho⟩ := observeQc_rounds_le qc { data with lastVotedRound := round }
  refine Or.inr ⟨(observeQc_epoch qc { data with lastVotedRound := round }).symm, ?_, hp, ho⟩
  rw [observeQc_lastVotedRound]
  exact hround

/-- The path of a vote that sends the last vote again. -/
theorem voteOutcome_of_cached {st₀ st : SafetyRules A PK SK Sig σ} {storage : PersistentSafetyStorage A PK Sig σ}
    {voteProposal : VoteProposal A PK Sig E} {vote : Vote A PK Sig}
    (hcoh : storage.Coherent S) (hstore : storage.internalStore = st₀.persistentStorage.internalStore)
    (hst : st.persistentStorage = (storage.safetyData S).2) {data : SafetyData A PK Sig}
    (hread : (storage.safetyData S).1 = .ok data) (hlast : data.lastVote = some vote)
    {block : Block A PK Sig} (hround : vote.voteData.proposed.round = block.round) (hblock : block = voteProposal.block) :
    VoteOutcome S st₀ voteProposal vote st := by
  subst hblock
  have hget := persisted_of_read S hcoh hstore hread
  refine ⟨hst ▸ coherent_safetyData S hcoh, data, hget, Or.inl ⟨hlast, hround, ?_⟩⟩
  rw [persisted, hst, safetyData_internalStore, hstore]
  exact hget

/-- The path of a vote that signs a new one: the epoch checked on the first read,
the vote data generated for the block, the last voted round checked on the second
read, and the new safety data written. -/
theorem voteOutcome_of_new (hS : S.Lawful) {st₀ st : SafetyRules A PK SK Sig σ}
    {storage : PersistentSafetyStorage A PK Sig σ} {voteProposal : VoteProposal A PK Sig E}
    {voteData : VoteData A PK} {author : A} {ledgerInfo : LedgerInfo A PK} {signature : Sig}
    (hcoh₀ : st₀.persistentStorage.Coherent S) (hcoh : storage.Coherent S)
    (hstore : storage.internalStore = st₀.persistentStorage.internalStore)
    {data₁ data data₃ : SafetyData A PK Sig} {u₁ u₂ : Unit}
    (hread₁ : (st₀.persistentStorage.safetyData S).1 = .ok data₁)
    (hepoch : verifyEpoch voteProposal.block.epoch data₁ = .ok u₁)
    (hgen : (voteProposal.genVoteData C.accumulatorPlaceholderHash C.verifyExtension).mapError
      Error.invalidAccumulatorExtension = .ok voteData)
    (hread : (storage.safetyData S).1 = .ok data)
    (hlvr : verifyAndUpdateLastVoteRound voteProposal.block.blockData.round data = .ok data₃)
    (hset : ((storage.safetyData S).2.setSafetyData S
      { (observeQc voteProposal.block.quorumCert data₃).2 with
        lastVote := some (Vote.newWithSignature voteData author ledgerInfo signature) }).1 = .ok u₂)
    (hst : st.persistentStorage = ((storage.safetyData S).2.setSafetyData S
      { (observeQc voteProposal.block.quorumCert data₃).2 with
        lastVote := some (Vote.newWithSignature voteData author ledgerInfo signature) }).2) :
    VoteOutcome S st₀ voteProposal (Vote.newWithSignature voteData author ledgerInfo signature) st := by
  have hget := persisted_of_read S hcoh hstore hread
  -- both reads return what the storage holds
  have hdata₁ : data₁ = data := by
    have h₁ := getSafetyData_of_safetyData S hcoh₀ hread₁
    rw [persisted] at hget
    rw [hget] at h₁
    exact (Except.ok.inj h₁).symm
  subst hdata₁
  obtain ⟨hlt, rfl⟩ := verifyAndUpdateLastVoteRound_eq_ok hlvr
  have hvd : voteData.proposed.epoch = voteProposal.block.epoch ∧
      voteData.proposed.round = voteProposal.block.round := by
    cases hg : voteProposal.genVoteData C.accumulatorPlaceholderHash C.verifyExtension with
    | ok vd =>
      rw [hg] at hgen
      cases hgen
      exact VoteProposal.genVoteData_proposed hg
    | error e =>
      rw [hg] at hgen
      cases hgen
  have hround : (Vote.newWithSignature voteData author ledgerInfo signature).voteData.proposed.round =
      voteProposal.block.blockData.round := hvd.2
  refine ⟨hst ▸ coherent_setSafetyData hS _ _, data₁, hget,
    Or.inr ⟨hround ▸ hlt, hvd.1.trans (verifyEpoch_eq_ok hepoch),
      { (observeQc voteProposal.block.quorumCert { data₁ with lastVotedRound := voteProposal.block.blockData.round }).2 with
        lastVote := some (Vote.newWithSignature voteData author ledgerInfo signature) }, ?_,
      le_voteSafetyData _ _ hlt.le, observeQc_epoch _ _, ?_, rfl⟩⟩
  · rw [persisted, hst]
    exact getSafetyData_setSafetyData hS hset
  · rw [observeQc_lastVotedRound]
    exact hround.symm

/-- `signer` reads the state only. -/
theorem signer_state (st₀ : SafetyRules A PK SK Sig σ) :
    Outcome (fun _ st => st = st₀) (fun _ st => st = st₀) (signer st₀) := by
  apply outcome_of_wp
  mvcgen [signer]

/-- What `verify_proposal` leaves: the safety data read once, in the epoch of
the block, and the vote data generated; or the storage as it was. -/
theorem verifyProposal_outcome {st₀ : SafetyRules A PK SK Sig σ} (hcoh : st₀.persistentStorage.Coherent S)
    (voteProposal : VoteProposal A PK Sig E) :
    Outcome (fun voteData st => st = { st₀ with persistentStorage := (st₀.persistentStorage.safetyData S).2 } ∧
        ∃ data, (st₀.persistentStorage.safetyData S).1 = .ok data ∧
          verifyEpoch voteProposal.block.epoch data = .ok () ∧
          (voteProposal.genVoteData C.accumulatorPlaceholderHash C.verifyExtension).mapError
            Error.invalidAccumulatorExtension = .ok voteData)
      (fun _ st => KeepsStorage S st₀ st) (verifyProposal C S voteProposal st₀) := by
  apply outcome_of_wp
  mvcgen [verifyProposal, verifyQc, modifyStorage, epochState, liftExcept]
  -- the one path that returns: every check passed
  · exact ⟨trivial, _, ‹_›, ‹_›, ‹_›⟩
  -- every check that fails comes after the read, which keeps the storage
  all_goals exact ⟨safetyData_internalStore S _, coherent_safetyData S hcoh⟩

/-- `guarded_construct_and_sign_vote_two_chain` from a coherent state: a failed call
leaves the storage as it was; a successful one, on a lawful storage, sends the
last vote again or persists a new one above the last voted round. -/
theorem guardedConstructAndSignVoteTwoChain_spec {st₀ : SafetyRules A PK SK Sig σ}
    (hcoh : st₀.persistentStorage.Coherent S) (voteProposal : VoteProposal A PK Sig E)
    (timeoutCert : Option (TwoChainTimeoutCertificate A PK Sig)) :
    Outcome (fun vote st => S.Lawful → VoteOutcome S st₀ voteProposal vote st) (fun _ st => KeepsStorage S st₀ st)
      (guardedConstructAndSignVoteTwoChain C S voteProposal timeoutCert st₀) := by
  rw [guardedConstructAndSignVoteTwoChain]
  refine Outcome.bind ((signer_state st₀).imp (fun _ _ h => h) fun _ _ h => by subst h; exact ⟨rfl, hcoh⟩)
    fun _ st₁ hst₁ => ?_
  subst hst₁
  refine Outcome.bind (verifyProposal_outcome C S hcoh voteProposal)
    fun voteData st₂ ⟨hst₂, data₁, hread₁, hepoch, hgen⟩ => ?_
  subst hst₂
  apply outcome_of_wp
  mvcgen [verifyTc, signer, modifyStorage, epochState, sign, liftExcept]
  -- the failed calls: after the read of `verify_proposal`, up to one more read and a failed write
  all_goals try first
    | exact ⟨safetyData_internalStore S _, coherent_safetyData S hcoh⟩
    | exact ⟨(safetyData_internalStore S _).trans (safetyData_internalStore S _),
        coherent_safetyData S (coherent_safetyData S hcoh)⟩
    | exact ⟨(setSafetyData_frame_of_error S ‹_›).1.trans
          ((safetyData_internalStore S _).trans (safetyData_internalStore S _)),
        (setSafetyData_frame_of_error S ‹_›).2⟩
  -- the successful calls: the last vote sent again, or a new vote
  all_goals intro hS
  all_goals first
    | (apply voteOutcome_of_cached S (coherent_safetyData S hcoh) (safetyData_internalStore S _) <;>
        first | assumption | rfl)
    | (apply voteOutcome_of_new C S hS hcoh (coherent_safetyData S hcoh) (safetyData_internalStore S _) <;>
        first | assumption | rfl)

/-! ### `guarded_initialize` -/

theorem le_new_of_compare {data : SafetyData A PK Sig} {epoch : Nat} (h : compare data.epoch epoch = .lt) :
    data ≤ SafetyData.new epoch 0 0 0 none :=
  Or.inl (Nat.compare_eq_lt.mp h)

/-- `guarded_initialize` from a coherent state moves the persisted safety data
forward, to a new epoch's only when the proof's epoch is above the current one,
whether it succeeds or fails. -/
theorem guardedInitialize_storageStep [DecidableEq PK] (hS : S.Lawful) {st₀ : SafetyRules A PK SK Sig σ}
    (hcoh : st₀.persistentStorage.Coherent S) (proof : P) :
    Outcome (fun _ st => StorageStep S st₀.persistentStorage st.persistentStorage)
      (fun _ st => StorageStep S st₀.persistentStorage st.persistentStorage) (guardedInitialize C S proof st₀) := by
  apply outcome_of_wp
  mvcgen [guardedInitialize, readStorage, modifyStorage, liftExcept]
  -- the storage after each path is reached by reads and writes from the start
  all_goals try dsimp +zetaDelta only
  all_goals (repeat' first
    | exact StorageStep.refl S hcoh
    | apply StorageStep.safetyData
    | apply StorageStep.setWaypoint hS
    | apply StorageStep.setSafetyData_of_read hS
    | assumption
    | exact le_new_of_compare ‹_›)

end Calls

/-! ## Rejected signing requests -/

/-- A signing request that fails leaves the safety data and the waypoint that the
safety rules read back as they were. -/
theorem rejected_request_keeps_safety_data [DecidableEq PK] (C : Primitives A PK SK Sig E P)
    (S : SecureStorage A PK SK Sig σ) {st : SafetyRules A PK SK Sig σ} (hcoh : st.persistentStorage.Coherent S)
    (request : Request A PK Sig E P) (hsign : ∀ proof, request ≠ .initializeEpoch proof) {e : Error}
    {st' : SafetyRules A PK SK Sig σ} (h : request.run C S st = .error e st') :
    readSafetyData S st' = readSafetyData S st ∧ readWaypoint S st' = readWaypoint S st := by
  have hkeep : KeepsStorage S st st' := by
    cases request with
    | initializeEpoch proof => exact absurd rfl (hsign proof)
    | signProposal blockData =>
      have h' : (Response.signature <$> guardedSignProposal C S blockData) st = .error e st' := h
      exact (guardedSignProposal_keepsStorage C S hcoh blockData).of_error (map_eq_error h')
    | signTimeoutWithQc timeout timeoutCert =>
      have h' : (Response.signature <$> guardedSignTimeoutWithQc C S timeout timeoutCert) st = .error e st' := h
      exact (guardedSignTimeoutWithQc_spec C S hcoh timeout timeoutCert).of_error (map_eq_error h')
    | constructAndSignVoteTwoChain voteProposal timeoutCert =>
      have h' : (Response.vote <$> guardedConstructAndSignVoteTwoChain C S voteProposal timeoutCert) st =
        .error e st' := h
      exact (guardedConstructAndSignVoteTwoChain_spec C S hcoh voteProposal timeoutCert).of_error
        (map_eq_error h')
    | signCommitVote ledgerInfo newLedgerInfo =>
      have h' : (Response.signature <$> guardedSignCommitVote C ledgerInfo newLedgerInfo) st = .error e st' := h
      have hst := (guardedSignCommitVote_state C st ledgerInfo newLedgerInfo).of_error (map_eq_error h')
      subst hst
      exact ⟨rfl, hcoh⟩
  exact read_eq_of_internalStore_eq S hcoh hkeep.2 hkeep.1

/-! ## A sample instance -/

/-- Primitives that accept every certificate and proposal, verify no epoch change
proof, and sign with the key itself. -/
def samplePrimitives : Primitives Nat Nat Nat Nat Unit Unit where
  publicKey key := key
  signBlockData key _ := key
  signTimeout key _ := key
  signLedgerInfo key _ := key
  hashVoteData _ := 0
  verifyQc _ _ := .ok ()
  validateSignature _ _ := .ok ()
  verifyWellFormed _ := .ok ()
  verifyExtension _ executedStateId := .ok (executedStateId, 0)
  verifyTimeout _ _ := .ok ()
  verifyTc _ _ := .ok ()
  verifySignatures _ _ := .ok ()
  verifyEpochChangeProof _ _ := .error "no proof"
  newEpochBoundary _ := .error "no boundary"
  accumulatorPlaceholderHash := 0
  displayAuthor _ := ""
  displayPublicKey _ := ""
  displayLedgerInfo _ := ""
  displayBlockInfo _ := ""

/-- A validator with its key and the safety data of epoch 1 in an in-memory
storage, caching on, before `initialize` has set an epoch state. -/
def sampleSafetyRules : SafetyRules Nat Nat Nat Nat (InMemoryStorage Nat Nat Nat Nat) :=
  ⟨PersistentSafetyStorage.new ⟨some (SafetyData.new 1 0 0 0 none), none, some 0, some 0⟩ true, some ⟨0, 0⟩, none⟩

/-- A proposal of round 1 in epoch 1, on a quorum certificate of the empty block. -/
def sampleVoteProposal : VoteProposal Nat Nat Nat Unit :=
  ⟨(), ⟨0, ⟨1, 1, 0, ⟨⟨BlockInfo.empty, BlockInfo.empty⟩, ⟨⟨BlockInfo.empty, 0⟩, []⟩⟩, .proposal 0⟩, none⟩,
    none, true⟩

/-- The sample validator refuses to vote, as it has no epoch state to check the
quorum certificate with, after filling its cache: what it reads back is unchanged. -/
theorem rejected_vote_keeps_safety_data_sample :
    ∃ e st', (Request.constructAndSignVoteTwoChain sampleVoteProposal none : Request Nat Nat Nat Unit Unit).run
        samplePrimitives InMemoryStorage.storage sampleSafetyRules = .error e st' ∧
      readSafetyData InMemoryStorage.storage st' = readSafetyData InMemoryStorage.storage sampleSafetyRules ∧
      readWaypoint InMemoryStorage.storage st' = readWaypoint InMemoryStorage.storage sampleSafetyRules :=
  ⟨_, _, rfl, rejected_request_keeps_safety_data samplePrimitives InMemoryStorage.storage
    (PersistentSafetyStorage.coherent_new _ _ _) (.constructAndSignVoteTwoChain sampleVoteProposal none)
    (fun _ h => by cases h) rfl⟩

end AptosCore.Consensus
