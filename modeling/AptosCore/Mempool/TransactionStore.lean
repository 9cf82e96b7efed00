import Mathlib.Data.Finset.Basic
import AptosCore.Lib.AssocMap
import AptosCore.Lib.SortedMap

/-!
# The transaction store of mempool, one account at a time

`mempool/src/core_mempool/transaction_store.rs`. The store keeps each account's
transactions in a `BTreeMap` by sequence number, and four indexes of them: the
priority index (what consensus may pull), the timeline (what is broadcast, each
entry under an increasing timeline id), the parking lot (what is not ready) and
the TTL indexes. Every operation modelled here, `insert`, `commit_transaction`,
`clean_committed_transactions` and `process_ready_transactions`, reads and writes
one account's transactions and that account's entries of the indexes, so the
store is modelled one account at a time: its map, the nonces it has in the
priority index and the parking lot, and its entries of the timeline with the
store-wide timeline counter. The map files each transaction under its own
sequence number, so its key is the nonce the indexes are written with.

An account of the CRSN kind (`AccountSequenceInfo::CRSN { min_nonce, size }`)
may use the nonces of the window `min_nonce .. min_nonce + size`. The promotion
loop of `process_ready_transactions` runs over `min_nonce .. size` instead: it
promotes every stored nonce of that range
(`mem_priorityIndex_processReadyTransactions`), but a stored nonce of the window
from `size` on is never promoted
(`not_mem_priorityIndex_processReadyTransactions`), and when `size <= min_nonce`
the transaction at `min_nonce` is neither promoted nor parked
(`processReadyTransactions_crsn_leaves_minNonce`). The sequential loop is modelled
with fuel, which it never uses up (`lookup_promoteWhile_eq_none`).
-/

namespace AptosCore.Mempool

/-- `TimelineState`. -/
inductive TimelineState
  | ready (timelineId : ℕ)
  | notReady
  | nonQualified
  deriving DecidableEq, Repr

/-- `AccountSequenceInfo`. -/
inductive AccountSequenceInfo
  | sequential (seqno : ℕ)
  | crsn (minNonce size : ℕ)
  deriving DecidableEq, Repr

/-- `AccountSequenceInfo::min_seq`. -/
def AccountSequenceInfo.minSeq : AccountSequenceInfo → ℕ
  | .sequential seqno => seqno
  | .crsn minNonce _ => minNonce

/-- `SequenceInfo`. -/
structure SequenceInfo where
  transactionSequenceNumber : ℕ
  accountSequenceNumberType : AccountSequenceInfo
  deriving DecidableEq, Repr

/-- `MempoolTransaction`, with the fields of its signed transaction that the store compares. -/
structure MempoolTransaction (P : Type*) where
  payload : P
  expirationTimestampSecs : ℕ
  maxGasAmount : ℕ
  gasUnitPrice : ℕ
  timelineState : TimelineState
  sequenceInfo : SequenceInfo
  deriving DecidableEq, Repr

/-- `MempoolStatusCode`. -/
inductive MempoolStatusCode
  | accepted
  | invalidSeqNumber
  | mempoolIsFull
  | tooManyTransactions
  | invalidUpdate
  | vmError
  | unknownStatus
  deriving DecidableEq, Repr

/-- `MempoolStatus`. -/
structure MempoolStatus where
  code : MempoolStatusCode
  message : String
  deriving DecidableEq, Repr

/-- `TimelineIndex`: the next timeline id and the log of ready nonces by timeline id. -/
structure TimelineIndex where
  timelineId : ℕ
  timeline : List (ℕ × ℕ)
  deriving DecidableEq, Repr

namespace TimelineIndex

/-- `TimelineIndex::new`. -/
def new : TimelineIndex := ⟨1, []⟩

/-- `TimelineIndex::insert`, which also marks the transaction `Ready` under the id it used. -/
def insert (t : TimelineIndex) (sequenceNumber : ℕ) : TimelineIndex :=
  ⟨t.timelineId + 1, SortedMap.insert t.timelineId sequenceNumber t.timeline⟩

/-- `TimelineIndex::remove`. -/
def remove (t : TimelineIndex) : TimelineState → TimelineIndex
  | .ready timelineId => { t with timeline := SortedMap.erase timelineId t.timeline }
  | _ => t

end TimelineIndex

/-- One account's part of `TransactionStore`. -/
structure TransactionStore (P : Type*) where
  transactions : List (ℕ × MempoolTransaction P)
  priorityIndex : Finset ℕ
  timelineIndex : TimelineIndex
  parkingLotIndex : Finset ℕ

namespace TransactionStore

variable {P : Type*}

/-- An account with no transactions. -/
def new : TransactionStore P := ⟨[], ∅, TimelineIndex.new, ∅⟩

/-- `index_remove`, on the indexes that hold the account's nonces. -/
def indexRemove (s : TransactionStore P) (txn : MempoolTransaction P) : TransactionStore P :=
  { s with
    priorityIndex := s.priorityIndex.erase txn.sequenceInfo.transactionSequenceNumber
    timelineIndex := s.timelineIndex.remove txn.timelineState
    parkingLotIndex := s.parkingLotIndex.erase txn.sequenceInfo.transactionSequenceNumber }

/-- `clean_committed_transactions`: the transactions below `sequence_number` leave the
store and every index. -/
def cleanCommittedTransactions (s : TransactionStore P) (sequenceNumber : ℕ) :
    TransactionStore P :=
  let active := s.transactions.filter fun e => sequenceNumber ≤ e.1
  let txnsForRemoval := s.transactions.filter fun e => e.1 < sequenceNumber
  txnsForRemoval.foldl (fun s e => s.indexRemove e.2) { s with transactions := active }

/-- The body of both promotion loops of `process_ready_transactions`, for the
transaction stored at nonce `i`. -/
def promote (s : TransactionStore P) (i : ℕ) (txn : MempoolTransaction P) : TransactionStore P :=
  let s := { s with priorityIndex := Insert.insert i s.priorityIndex }
  let s :=
    if txn.timelineState = .notReady then
      { s with
        transactions :=
          SortedMap.insert i { txn with timelineState := .ready s.timelineIndex.timelineId }
            s.transactions
        timelineIndex := s.timelineIndex.insert i }
    else s
  { s with parkingLotIndex := s.parkingLotIndex.erase i }

/-- The CRSN loop `for i in min_nonce..size`: each stored nonce is promoted, and
`min_seq` ends at the last one promoted. -/
def promoteEach : List ℕ → TransactionStore P → ℕ → TransactionStore P × ℕ
  | [], s, minSeq => (s, minSeq)
  | i :: is, s, minSeq =>
    match s.transactions.lookup i with
    | some txn => promoteEach is (s.promote i txn) i
    | none => promoteEach is s minSeq

/-- The sequential loop `while let Some(txn) = txns.get_mut(&min_seq)`, with the fuel it
cannot use up: it promotes one stored nonce per round. -/
def promoteWhile : ℕ → TransactionStore P → ℕ → TransactionStore P × ℕ
  | 0, s, minSeq => (s, minSeq)
  | fuel + 1, s, minSeq =>
    match s.transactions.lookup minSeq with
    | some txn => promoteWhile fuel (s.promote minSeq txn) (minSeq + 1)
    | none => (s, minSeq)

/-- The pass over `txns.range_mut((Excluded(min_seq), Unbounded))`: whatever is not
`Ready` goes to the parking lot. -/
def parkEach : List (ℕ × MempoolTransaction P) → TransactionStore P → TransactionStore P
  | [], s => s
  | (n, txn) :: es, s =>
    match txn.timelineState with
    | .ready _ => parkEach es s
    | _ => parkEach es { s with parkingLotIndex := Insert.insert n s.parkingLotIndex }

/-- `process_ready_transactions`. -/
def processReadyTransactions (s : TransactionStore P) (crsnOrSeqno : AccountSequenceInfo) :
    TransactionStore P :=
  let promoted :=
    match crsnOrSeqno with
    | .crsn minNonce size => promoteEach (List.range' minNonce (size - minNonce)) s minNonce
    | .sequential seqno => promoteWhile (s.transactions.length + 1) s seqno
  parkEach (promoted.1.transactions.filter fun e => promoted.2 < e.1) promoted.1

/-- `commit_transaction`. -/
def commitTransaction (s : TransactionStore P) (accountSequenceNumber : AccountSequenceInfo) :
    TransactionStore P :=
  (s.cleanCommittedTransactions accountSequenceNumber.minSeq).processReadyTransactions
    accountSequenceNumber

/-- `TransactionStore::insert`. `mempoolSize` is the size of the system TTL index once
`check_is_full_after_eviction` has evicted what it could: it counts every account's
transactions, and the eviction picks a parked transaction at random. -/
def insert [DecidableEq P] (s : TransactionStore P) (txn : MempoolTransaction P)
    (mempoolSize capacity capacityPerUser : ℕ) : MempoolStatus × TransactionStore P :=
  let sequenceNumber := txn.sequenceInfo
  -- `.error` is an early return that leaves the store as it was
  let updated : Except MempoolStatus (TransactionStore P) :=
    match s.transactions.lookup sequenceNumber.transactionSequenceNumber with
    | none => .ok s
    | some currentVersion =>
      if currentVersion.payload ≠ txn.payload then
        .error ⟨.invalidUpdate, "Transaction already in mempool with different payload"⟩
      else if currentVersion.expirationTimestampSecs ≠ txn.expirationTimestampSecs then
        .error ⟨.invalidUpdate,
          "Transaction already in mempool with different expiration timestamp"⟩
      else if currentVersion.maxGasAmount ≠ txn.maxGasAmount then
        .error ⟨.invalidUpdate, "Transaction already in mempool with different max gas amount"⟩
      else if currentVersion.gasUnitPrice < txn.gasUnitPrice then
        .ok ({ s with
          transactions :=
            SortedMap.erase sequenceNumber.transactionSequenceNumber s.transactions }.indexRemove
          currentVersion)
      else if currentVersion.gasUnitPrice > txn.gasUnitPrice then
        .error ⟨.invalidUpdate, "Transaction already in mempool with higher gas price"⟩
      else .error ⟨.accepted, ""⟩
  match updated with
  | .error status => (status, s)
  | .ok s =>
    if capacity ≤ mempoolSize then
      (⟨.mempoolIsFull,
        "mempool size: " ++ toString mempoolSize ++ ", capacity: " ++ toString capacity⟩, s)
    else
      let s := s.cleanCommittedTransactions sequenceNumber.accountSequenceNumberType.minSeq
      if capacityPerUser ≤ s.transactions.length then
        (⟨.tooManyTransactions, "txns length: " ++ toString s.transactions.length ++
          " capacity per user: " ++ toString capacityPerUser⟩, s)
      else
        let s := { s with
          transactions := SortedMap.insert sequenceNumber.transactionSequenceNumber txn
            s.transactions }
        (⟨.accepted, ""⟩, s.processReadyTransactions sequenceNumber.accountSequenceNumberType)

/-! ## What each step does to the indexes -/

@[simp] theorem priorityIndex_indexRemove (s : TransactionStore P) (txn : MempoolTransaction P) :
    (s.indexRemove txn).priorityIndex =
      s.priorityIndex.erase txn.sequenceInfo.transactionSequenceNumber := rfl

@[simp] theorem parkingLotIndex_indexRemove (s : TransactionStore P) (txn : MempoolTransaction P) :
    (s.indexRemove txn).parkingLotIndex =
      s.parkingLotIndex.erase txn.sequenceInfo.transactionSequenceNumber := rfl

@[simp] theorem transactions_indexRemove (s : TransactionStore P) (txn : MempoolTransaction P) :
    (s.indexRemove txn).transactions = s.transactions := rfl

/-- Removing transactions from the indexes only ever takes entries away. -/
theorem indexRemove_foldl_subset (es : List (ℕ × MempoolTransaction P)) (s : TransactionStore P) :
    (es.foldl (fun s e => s.indexRemove e.2) s).priorityIndex ⊆ s.priorityIndex ∧
      (es.foldl (fun s e => s.indexRemove e.2) s).parkingLotIndex ⊆ s.parkingLotIndex ∧
      (es.foldl (fun s e => s.indexRemove e.2) s).transactions = s.transactions := by
  induction es generalizing s with
  | nil => exact ⟨subset_rfl, subset_rfl, rfl⟩
  | cons e es ih =>
    obtain ⟨hp, hq, ht⟩ := ih (s.indexRemove e.2)
    exact ⟨hp.trans (Finset.erase_subset _ _), hq.trans (Finset.erase_subset _ _), ht⟩

theorem priorityIndex_cleanCommittedTransactions_subset (s : TransactionStore P) (n : ℕ) :
    (s.cleanCommittedTransactions n).priorityIndex ⊆ s.priorityIndex :=
  (indexRemove_foldl_subset _ _).1

theorem parkingLotIndex_cleanCommittedTransactions_subset (s : TransactionStore P) (n : ℕ) :
    (s.cleanCommittedTransactions n).parkingLotIndex ⊆ s.parkingLotIndex :=
  (indexRemove_foldl_subset _ _).2.1

/-- Cleaning keeps exactly the transactions from the committed sequence number on. -/
theorem lookup_cleanCommittedTransactions (s : TransactionStore P) (n k : ℕ) :
    (s.cleanCommittedTransactions n).transactions.lookup k =
      if n ≤ k then s.transactions.lookup k else none := by
  rw [cleanCommittedTransactions, (indexRemove_foldl_subset _ _).2.2]
  simpa using AssocMap.lookup_filter_fst (fun k => decide (n ≤ k)) k s.transactions

@[simp] theorem priorityIndex_promote (s : TransactionStore P) (i : ℕ) (txn : MempoolTransaction P) :
    (s.promote i txn).priorityIndex = Insert.insert i s.priorityIndex := by
  unfold promote
  split_ifs <;> rfl

@[simp] theorem parkingLotIndex_promote (s : TransactionStore P) (i : ℕ)
    (txn : MempoolTransaction P) :
    (s.promote i txn).parkingLotIndex = s.parkingLotIndex.erase i := by
  unfold promote
  split_ifs <;> rfl

/-- A promotion rewrites the transaction it promotes only. -/
theorem lookup_promote_of_ne (s : TransactionStore P) (i : ℕ) (txn : MempoolTransaction P)
    {k : ℕ} (hk : k ≠ i) : (s.promote i txn).transactions.lookup k = s.transactions.lookup k := by
  unfold promote
  split_ifs <;> simp [SortedMap.lookup_insert, hk]

/-- A promotion keeps the transaction it promotes stored. -/
theorem isSome_lookup_promote (s : TransactionStore P) (i : ℕ) (txn : MempoolTransaction P)
    (h : (s.transactions.lookup i).isSome) : ((s.promote i txn).transactions.lookup i).isSome := by
  unfold promote
  split_ifs
  · simp [SortedMap.lookup_insert]
  · exact h

/-! ## The promotion loops -/

/-- The CRSN loop touches the indexes and the map at the nonces it runs over only. -/
theorem promoteEach_of_not_mem {n : ℕ} :
    ∀ (is : List ℕ) (s : TransactionStore P) (m : ℕ), n ∉ is →
      (n ∈ (promoteEach is s m).1.priorityIndex ↔ n ∈ s.priorityIndex) ∧
      (n ∈ (promoteEach is s m).1.parkingLotIndex ↔ n ∈ s.parkingLotIndex) ∧
      (promoteEach is s m).1.transactions.lookup n = s.transactions.lookup n
  | [], _, _, _ => ⟨Iff.rfl, Iff.rfl, rfl⟩
  | i :: is, s, m, hn => by
    have hi : n ≠ i := fun h => hn (h ▸ List.mem_cons_self)
    have his : n ∉ is := fun h => hn (List.mem_cons_of_mem _ h)
    rw [promoteEach]
    cases s.transactions.lookup i with
    | none => exact promoteEach_of_not_mem is s m his
    | some txn =>
      obtain ⟨hp, hq, ht⟩ := promoteEach_of_not_mem is (s.promote i txn) i his
      refine ⟨?_, ?_, ht.trans (lookup_promote_of_ne s i txn hi)⟩
      · rw [hp, priorityIndex_promote, Finset.mem_insert, or_iff_right hi]
      · rw [hq, parkingLotIndex_promote, Finset.mem_erase, and_iff_right hi]

/-- `min_seq` ends where it started or at a nonce the loop ran over. -/
theorem promoteEach_snd :
    ∀ (is : List ℕ) (s : TransactionStore P) (m : ℕ),
      (promoteEach is s m).2 = m ∨ (promoteEach is s m).2 ∈ is
  | [], _, _ => .inl rfl
  | i :: is, s, m => by
    rw [promoteEach]
    split
    next txn _ =>
      rcases promoteEach_snd is (s.promote i txn) i with h | h
      · rw [h]
        exact .inr List.mem_cons_self
      · exact .inr (List.mem_cons_of_mem _ h)
    next =>
      rcases promoteEach_snd is s m with h | h
      · exact .inl h
      · exact .inr (List.mem_cons_of_mem _ h)


theorem priorityIndex_subset_promoteEach :
    ∀ (is : List ℕ) (s : TransactionStore P) (m : ℕ),
      s.priorityIndex ⊆ (promoteEach is s m).1.priorityIndex
  | [], _, _ => subset_rfl
  | i :: is, s, m => by
    rw [promoteEach]
    split
    next txn _ =>
      refine subset_trans ?_ (priorityIndex_subset_promoteEach is (s.promote i txn) i)
      rw [priorityIndex_promote]
      exact Finset.subset_insert _ _
    next => exact priorityIndex_subset_promoteEach is s m

/-- The CRSN loop promotes every stored nonce it runs over. -/
theorem mem_priorityIndex_promoteEach {k : ℕ} :
    ∀ (is : List ℕ) (s : TransactionStore P) (m : ℕ), k ∈ is →
      (s.transactions.lookup k).isSome → k ∈ (promoteEach is s m).1.priorityIndex
  | i :: is, s, m, hk, hs => by
    rw [promoteEach]
    by_cases hki : k = i
    · subst hki
      obtain ⟨txn, htxn⟩ := Option.isSome_iff_exists.mp hs
      rw [htxn]
      apply priorityIndex_subset_promoteEach
      rw [priorityIndex_promote]
      exact Finset.mem_insert_self _ _
    · have his : k ∈ is := (List.mem_cons.mp hk).resolve_left hki
      split
      next txn _ =>
        exact mem_priorityIndex_promoteEach is _ i his (by rwa [lookup_promote_of_ne s i txn hki])
      next => exact mem_priorityIndex_promoteEach is s m his hs


/-- A promotion of a stored nonce keeps what is stored. -/
theorem isSome_lookup_promote_eq (s : TransactionStore P) (i : ℕ) (txn : MempoolTransaction P)
    (h : (s.transactions.lookup i).isSome) (k : ℕ) :
    ((s.promote i txn).transactions.lookup k).isSome = (s.transactions.lookup k).isSome := by
  by_cases hk : k = i
  · subst hk
    rw [h, isSome_lookup_promote s k txn h]
  · rw [lookup_promote_of_ne s i txn hk]

/-- The sequential loop keeps what is stored, has found stored every nonce it passed, and
stops at a nonce that is not stored unless its fuel ran out. -/
theorem promoteWhile_spec :
    ∀ (fuel : ℕ) (s : TransactionStore P) (m : ℕ),
      (∀ k, ((promoteWhile fuel s m).1.transactions.lookup k).isSome =
        (s.transactions.lookup k).isSome) ∧
      (∀ k, m ≤ k → k < (promoteWhile fuel s m).2 → (s.transactions.lookup k).isSome) ∧
      ((promoteWhile fuel s m).2 = m + fuel ∨
        s.transactions.lookup (promoteWhile fuel s m).2 = none)
  | 0, _, _ => ⟨fun _ => rfl, fun _ h₁ h₂ => absurd h₂ (Nat.not_lt.mpr h₁), .inl rfl⟩
  | fuel + 1, s, m => by
    rw [promoteWhile]
    split
    next txn htxn =>
      have hm : (s.transactions.lookup m).isSome := by rw [htxn]; rfl
      have hkeep := isSome_lookup_promote_eq s m txn hm
      obtain ⟨hkeys, hpassed, hend⟩ := promoteWhile_spec fuel (s.promote m txn) (m + 1)
      refine ⟨fun k => (hkeys k).trans (hkeep k), fun k h₁ h₂ => ?_, ?_⟩
      · rcases Nat.eq_or_lt_of_le h₁ with rfl | h₁
        · exact hm
        · rw [← hkeep]
          exact hpassed k h₁ h₂
      · rcases hend with hend | hend
        · exact .inl (by omega)
        · right
          have hk := hkeep (promoteWhile fuel (s.promote m txn) (m + 1)).2
          rw [hend] at hk
          cases hl : s.transactions.lookup (promoteWhile fuel (s.promote m txn) (m + 1)).2 with
          | none => rfl
          | some v =>
            rw [hl] at hk
            cases hk
    next htxn => exact ⟨fun _ => rfl, fun _ h₁ h₂ => absurd h₂ (Nat.not_lt.mpr h₁), .inr htxn⟩

/-- The sequential loop never runs out of fuel: a run of stored nonces is no longer than the
map, so it stops at a nonce that is not stored, as the `while let` does. -/
theorem lookup_promoteWhile_eq_none (s : TransactionStore P) (m : ℕ) :
    s.transactions.lookup (promoteWhile (s.transactions.length + 1) s m).2 = none := by
  obtain ⟨-, hpassed, hend⟩ := promoteWhile_spec (s.transactions.length + 1) s m
  refine hend.resolve_left fun hfull => ?_
  -- otherwise `length + 1` distinct nonces would all be keys of the map
  have hsub : List.range' m (s.transactions.length + 1) ⊆ s.transactions.map Prod.fst := by
    intro k hk
    rw [List.mem_range'_1] at hk
    obtain ⟨v, hv⟩ := Option.isSome_iff_exists.mp (hpassed k hk.1 (by omega))
    exact List.mem_map_of_mem (AssocMap.mem_of_lookup_eq_some hv)
  have hlen := ((List.nodup_range' (s := m) (n := s.transactions.length + 1)).subperm hsub).length_le
  rw [List.length_range', List.length_map] at hlen
  omega

/-! ## The parking pass -/

@[simp] theorem priorityIndex_parkEach :
    ∀ (es : List (ℕ × MempoolTransaction P)) (s : TransactionStore P),
      (parkEach es s).priorityIndex = s.priorityIndex
  | [], _ => rfl
  | (n, txn) :: es, s => by
    rw [parkEach]
    split <;> exact priorityIndex_parkEach es _

@[simp] theorem transactions_parkEach :
    ∀ (es : List (ℕ × MempoolTransaction P)) (s : TransactionStore P),
      (parkEach es s).transactions = s.transactions
  | [], _ => rfl
  | (n, txn) :: es, s => by
    rw [parkEach]
    split <;> exact transactions_parkEach es _

/-- The parking pass parks the nonces it runs over only. -/
theorem parkingLotIndex_parkEach_of_not_mem {n : ℕ} :
    ∀ (es : List (ℕ × MempoolTransaction P)) (s : TransactionStore P), n ∉ es.map Prod.fst →
      (n ∈ (parkEach es s).parkingLotIndex ↔ n ∈ s.parkingLotIndex)
  | [], _, _ => Iff.rfl
  | (k, txn) :: es, s, hn => by
    rw [List.map_cons, List.mem_cons, not_or] at hn
    rw [parkEach]
    split
    · exact parkingLotIndex_parkEach_of_not_mem es s hn.2
    · rw [parkingLotIndex_parkEach_of_not_mem es _ hn.2, Finset.mem_insert, or_iff_right hn.1]

/-! ## `process_ready_transactions` on a CRSN account -/

section Crsn

variable (s : TransactionStore P) (minNonce size : ℕ)

/-- The nonces the CRSN loop runs over, `min_nonce..size`. -/
theorem mem_range'_crsn_iff {n : ℕ} :
    n ∈ List.range' minNonce (size - minNonce) ↔ minNonce ≤ n ∧ n < size := by
  rw [List.mem_range'_1]
  omega

/-- Past the loop's range, `process_ready_transactions` never puts a nonce into the
priority index. -/
theorem not_mem_priorityIndex_processReadyTransactions {n : ℕ} (hn : size ≤ n)
    (hp : n ∉ s.priorityIndex) :
    n ∉ (s.processReadyTransactions (.crsn minNonce size)).priorityIndex := by
  have hnot : n ∉ List.range' minNonce (size - minNonce) := fun h =>
    absurd ((mem_range'_crsn_iff minNonce size).mp h).2 (Nat.not_lt.mpr hn)
  rw [processReadyTransactions, priorityIndex_parkEach,
    (promoteEach_of_not_mem _ s minNonce hnot).1]
  exact hp


/-- Inside the loop's range, every stored nonce is in the priority index afterwards. -/
theorem mem_priorityIndex_processReadyTransactions {n : ℕ} (hlo : minNonce ≤ n) (hhi : n < size)
    (hs : (s.transactions.lookup n).isSome) :
    n ∈ (s.processReadyTransactions (.crsn minNonce size)).priorityIndex := by
  rw [processReadyTransactions, priorityIndex_parkEach]
  exact mem_priorityIndex_promoteEach _ s minNonce
    ((mem_range'_crsn_iff minNonce size).mpr ⟨hlo, hhi⟩) hs

/-- When `size <= min_nonce` the loop is empty and `min_seq` stays at `min_nonce`, which
the parking pass, from `min_seq` exclusive, does not reach either. -/
theorem processReadyTransactions_crsn_leaves_minNonce (hle : size ≤ minNonce) :
    (s.processReadyTransactions (.crsn minNonce size)).transactions.lookup minNonce =
        s.transactions.lookup minNonce ∧
      (minNonce ∈ (s.processReadyTransactions (.crsn minNonce size)).priorityIndex ↔
        minNonce ∈ s.priorityIndex) ∧
      (minNonce ∈ (s.processReadyTransactions (.crsn minNonce size)).parkingLotIndex ↔
        minNonce ∈ s.parkingLotIndex) := by
  have hzero : size - minNonce = 0 := Nat.sub_eq_zero_of_le hle
  have hpark : minNonce ∉ (s.transactions.filter fun e => minNonce < e.1).map Prod.fst := by
    simp
  simp only [processReadyTransactions, hzero, List.range'_zero, promoteEach]
  exact ⟨by rw [transactions_parkEach], by rw [priorityIndex_parkEach],
    parkingLotIndex_parkEach_of_not_mem _ s hpark⟩

end Crsn

/-! ## `insert` and `commit_transaction` -/

/-- Everything `insert` does before `process_ready_transactions` only takes entries out of
the priority index and the parking lot: it either stops there, or ends with
`process_ready_transactions` on such a store. -/
theorem insert_cases [DecidableEq P] (s : TransactionStore P) (txn : MempoolTransaction P)
    (mempoolSize capacity capacityPerUser : ℕ) :
    ((s.insert txn mempoolSize capacity capacityPerUser).2.priorityIndex ⊆ s.priorityIndex ∧
      (s.insert txn mempoolSize capacity capacityPerUser).2.parkingLotIndex ⊆
        s.parkingLotIndex) ∨
    ∃ s' : TransactionStore P,
      (s'.priorityIndex ⊆ s.priorityIndex ∧ s'.parkingLotIndex ⊆ s.parkingLotIndex) ∧
      (s.insert txn mempoolSize capacity capacityPerUser).2 =
        s'.processReadyTransactions txn.sequenceInfo.accountSequenceNumberType := by
  unfold insert
  dsimp only
  split
  next => exact .inl ⟨subset_rfl, subset_rfl⟩
  next s₁ h =>
    -- the update check returns the store, or the store without the transaction it replaces
    have h₁ : s₁.priorityIndex ⊆ s.priorityIndex ∧ s₁.parkingLotIndex ⊆ s.parkingLotIndex := by
      split at h
      · cases h
        exact ⟨subset_rfl, subset_rfl⟩
      · split_ifs at h
        cases h
        exact ⟨Finset.erase_subset _ _, Finset.erase_subset _ _⟩
    have h₂ := priorityIndex_cleanCommittedTransactions_subset s₁
      txn.sequenceInfo.accountSequenceNumberType.minSeq
    have h₃ := parkingLotIndex_cleanCommittedTransactions_subset s₁
      txn.sequenceInfo.accountSequenceNumberType.minSeq
    split_ifs
    · exact .inl h₁
    · exact .inl ⟨h₂.trans h₁.1, h₃.trans h₁.2⟩
    · refine .inr ⟨_, ?_, rfl⟩
      exact ⟨h₂.trans h₁.1, h₃.trans h₁.2⟩

section Crsn

variable [DecidableEq P] (s : TransactionStore P) (minNonce size : ℕ)

/-- What holds of `process_ready_transactions` holds of `insert`, whose earlier steps only
take entries out of the indexes. -/
theorem insert_of_processReadyTransactions (Q : Finset ℕ → Finset ℕ → Prop)
    (hQ : ∀ t : TransactionStore P, t.priorityIndex ⊆ s.priorityIndex →
      t.parkingLotIndex ⊆ s.parkingLotIndex →
      Q t.priorityIndex t.parkingLotIndex ∧
        Q (t.processReadyTransactions (.crsn minNonce size)).priorityIndex
          (t.processReadyTransactions (.crsn minNonce size)).parkingLotIndex)
    (txn : MempoolTransaction P) (mempoolSize capacity capacityPerUser : ℕ)
    (htxn : txn.sequenceInfo.accountSequenceNumberType = .crsn minNonce size) :
    Q (s.insert txn mempoolSize capacity capacityPerUser).2.priorityIndex
      (s.insert txn mempoolSize capacity capacityPerUser).2.parkingLotIndex := by
  rcases insert_cases s txn mempoolSize capacity capacityPerUser with ⟨hp, hq⟩ | ⟨t, ⟨hp, hq⟩, ht⟩
  · exact (hQ _ hp hq).1
  · rw [ht, htxn]
    exact (hQ t hp hq).2

end Crsn

end TransactionStore

end AptosCore.Mempool
