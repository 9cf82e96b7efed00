import Mathlib.Data.Finset.Card
import AptosCore.Mempool.TransactionStore

/-!
# The batches mempool hands to consensus

`Mempool::get_batch` (`mempool/src/core_mempool/mempool.rs`) walks the priority
index from the highest key down (`OrderedQueueKey::cmp`) and takes a transaction
when it is the next one of its account: its sequence number is the one cached for
the account, or the one before it was already sent to consensus (`seen`) or taken
into this batch. A CRSN account's transactions are always taken. A transaction
that is not yet the next one is remembered as skipped, and taken as soon as the
one before it is. Transactions are named by their pointer, an account and a
sequence number, and the batch is the list of pointers the loop took that the
store holds.

Over every priority queue whose keys name distinct transactions, every seen set
and every batch size, the loop takes nothing that was seen and nothing twice, and
every transaction it takes is the next one of its account when it is taken
(`Inv.getBatchLoop`). An account with nothing in `seen` is served the run
`cache, cache + 1, ...` in this order (`seqs_getBatchLoop`). The batch size bounds
the batch only when it is at least one.
-/

namespace AptosCore.Mempool

/-- `matches!(account_seqtype, AccountSequenceInfo::CRSN { .. })`. -/
def AccountSequenceInfo.isCrsn : AccountSequenceInfo → Bool
  | .crsn _ _ => true
  | .sequential _ => false

/-- `OrderedQueueKey`, the key of a transaction in the priority index. -/
structure OrderedQueueKey (A : Type*) where
  gasRankingScore : ℕ
  expirationTime : ℕ
  address : A
  sequenceNumber : SequenceInfo
  deriving DecidableEq, Repr

namespace OrderedQueueKey

variable {A : Type*}

/-- `TxnPointer::from`: the account and the sequence number. -/
def pointer (key : OrderedQueueKey A) : A × ℕ :=
  (key.address, key.sequenceNumber.transactionSequenceNumber)

/-- `OrderedQueueKey::cmp`: by gas ranking score, then by expiration time reversed, then by
address, then by sequence number reversed. -/
def cmp [Ord A] (a b : OrderedQueueKey A) : Ordering :=
  (compare a.gasRankingScore b.gasRankingScore).then
    ((compare a.expirationTime b.expirationTime).swap.then
      ((compare a.address b.address).then
        (compare a.sequenceNumber.transactionSequenceNumber
          b.sequenceNumber.transactionSequenceNumber).swap))

end OrderedQueueKey

section GetBatch

variable {A : Type*} [DecidableEq A]

/-- The `while skipped.contains(&skipped_txn)` loop of `get_batch`: the skipped
transactions that follow the one just taken are taken too. Besides `seen` and `result`
it returns whether it left the outer loop (`break 'main`). Its fuel is the number of
skipped transactions, which it cannot use up (`takeSkipped_card_succ`). -/
def takeSkipped (batchSize : ℕ) (skipped : Finset (A × ℕ)) :
    ℕ → A × ℕ → Finset (A × ℕ) → List (A × ℕ) → Finset (A × ℕ) × List (A × ℕ) × Bool
  | 0, _, seen, result => (seen, result, false)
  | fuel + 1, skippedTxn, seen, result =>
    if skippedTxn ∈ skipped then
      if (result ++ [skippedTxn]).length = batchSize then
        (insert skippedTxn seen, result ++ [skippedTxn], true)
      else
        takeSkipped batchSize skipped fuel (skippedTxn.1, skippedTxn.2 + 1)
          (insert skippedTxn seen) (result ++ [skippedTxn])
    else (seen, result, false)

/-- The `'main` loop of `get_batch` over the keys of the priority index, in the order of
`iter_queue`. -/
def getBatchLoop (batchSize : ℕ) (sequenceNumberCache : A → Option ℕ) :
    List (OrderedQueueKey A) → Finset (A × ℕ) → List (A × ℕ) → Finset (A × ℕ) → List (A × ℕ)
  | [], _, result, _ => result
  | txn :: queue, seen, result, skipped =>
    if txn.pointer ∈ seen then
      getBatchLoop batchSize sequenceNumberCache queue seen result skipped
    else
      let txSeq := txn.sequenceNumber.transactionSequenceNumber
      if (0 < txSeq ∧ (txn.address, txSeq - 1) ∈ seen) ∨
          sequenceNumberCache txn.address = some txSeq ∨
          txn.sequenceNumber.accountSequenceNumberType.isCrsn then
        if (result ++ [txn.pointer]).length = batchSize then result ++ [txn.pointer]
        else
          let taken := takeSkipped batchSize skipped skipped.card (txn.address, txSeq + 1)
            (insert txn.pointer seen) (result ++ [txn.pointer])
          if taken.2.2 then taken.2.1
          else getBatchLoop batchSize sequenceNumberCache queue taken.1 taken.2.1 skipped
      else getBatchLoop batchSize sequenceNumberCache queue seen result (insert txn.pointer skipped)

/-- `Mempool::get_batch`, with `stored` the pointers the transaction store holds. -/
def getBatch (stored : A × ℕ → Bool) (batchSize : ℕ) (sequenceNumberCache : A → Option ℕ)
    (queue : List (OrderedQueueKey A)) (seen : Finset (A × ℕ)) : List (A × ℕ) :=
  (getBatchLoop batchSize sequenceNumberCache queue seen [] ∅).filter stored

section Fuel

variable {A : Type*} [DecidableEq A] (batchSize : ℕ) (skipped : Finset (A × ℕ))

/-- One more round of fuel changes nothing once the walk meets a transaction that was not
skipped. -/
theorem takeSkipped_succ_eq :
    ∀ (fuel : ℕ) (q : A × ℕ) (seen : Finset (A × ℕ)) (result : List (A × ℕ)),
      (¬ ∀ i < fuel + 1, (q.1, q.2 + i) ∈ skipped) →
      takeSkipped batchSize skipped (fuel + 1) q seen result =
        takeSkipped batchSize skipped fuel q seen result
  | 0, q, seen, result, h => by
    have hq : q ∉ skipped := fun hq => h fun i hi => by
      rw [Nat.lt_one_iff.mp hi, Nat.add_zero]
      exact hq
    conv_lhs => rw [takeSkipped, if_neg hq]
    rfl
  | fuel + 1, q, seen, result, h => by
    conv_lhs => rw [takeSkipped]
    conv_rhs => rw [takeSkipped]
    split_ifs with hq hlen
    · rfl
    · refine takeSkipped_succ_eq fuel (q.1, q.2 + 1) _ _ fun hall => h fun i hi => ?_
      rcases i with _ | i
      · exact hq
      · rw [show q.2 + (i + 1) = q.2 + 1 + i by omega]
        exact hall i (by omega)
    · rfl

/-- The walk meets distinct skipped transactions, so it stops within their number. -/
theorem takeSkipped_card_succ (q : A × ℕ) (seen : Finset (A × ℕ)) (result : List (A × ℕ)) :
    takeSkipped batchSize skipped (skipped.card + 1) q seen result =
      takeSkipped batchSize skipped skipped.card q seen result := by
  refine takeSkipped_succ_eq batchSize skipped _ q seen result fun hall => ?_
  have hsub : (Finset.range (skipped.card + 1)).image (fun i => (q.1, q.2 + i)) ⊆ skipped := by
    intro x hx
    obtain ⟨i, hi, rfl⟩ := Finset.mem_image.mp hx
    exact hall i (Finset.mem_range.mp hi)
  have hinj : Function.Injective fun i => (q.1, q.2 + i) := fun i j hij => by
    simpa using congrArg Prod.snd hij
  have hcard := Finset.card_le_card hsub
  rw [Finset.card_image_of_injective _ hinj, Finset.card_range] at hcard
  omega

/-- Started below the batch size, the inner loop either breaks with exactly `batch_size`
transactions or ends below it. -/
theorem length_takeSkipped :
    ∀ (fuel : ℕ) (q : A × ℕ) (seen : Finset (A × ℕ)) (result : List (A × ℕ)),
      result.length < batchSize →
      ((takeSkipped batchSize skipped fuel q seen result).2.2 = true ∧
          (takeSkipped batchSize skipped fuel q seen result).2.1.length = batchSize) ∨
        ((takeSkipped batchSize skipped fuel q seen result).2.2 = false ∧
          (takeSkipped batchSize skipped fuel q seen result).2.1.length < batchSize)
  | 0, _, _, _, h => .inr ⟨rfl, h⟩
  | fuel + 1, q, seen, result, h => by
    rw [takeSkipped]
    split_ifs with hq hlen
    · exact .inl ⟨rfl, hlen⟩
    · refine length_takeSkipped fuel _ _ _ ?_
      rw [List.length_append, List.length_singleton] at hlen ⊢
      omega
    · exact .inr ⟨rfl, h⟩

end Fuel

/-- Started below the batch size, `get_batch` takes at most `batch_size` transactions. -/
theorem length_getBatchLoop_le {A : Type*} [DecidableEq A] (batchSize : ℕ)
    (cache : A → Option ℕ) :
    ∀ (rest : List (OrderedQueueKey A)) (seen : Finset (A × ℕ)) (result : List (A × ℕ))
      (skipped : Finset (A × ℕ)), result.length < batchSize →
      (getBatchLoop batchSize cache rest seen result skipped).length ≤ batchSize
  | [], _, _, _, h => h.le
  | key :: rest, seen, result, skipped, h => by
    rw [getBatchLoop]
    dsimp only
    have hnext : (result ++ [key.pointer]).length ≤ batchSize := by
      rw [List.length_append, List.length_singleton]
      omega
    split_ifs with hseen hready hlen hbreak
    · exact length_getBatchLoop_le batchSize cache rest seen result skipped h
    · exact hnext
    · rcases length_takeSkipped batchSize skipped skipped.card _ _ _ (lt_of_le_of_ne hnext hlen)
        with ⟨-, hl⟩ | ⟨-, hl⟩
      · exact hl.le
      · exact hl.le
    · rcases length_takeSkipped batchSize skipped skipped.card _ _ _ (lt_of_le_of_ne hnext hlen)
        with ⟨hb, -⟩ | ⟨-, hl⟩
      · exact absurd hb hbreak
      · exact length_getBatchLoop_le batchSize cache rest _ _ skipped hl
    · exact length_getBatchLoop_le batchSize cache rest seen result _ h

end GetBatch

/-! ## What the loop keeps -/

section Invariant

variable {A : Type*} [DecidableEq A] (cache : A → Option ℕ) (queue₀ : List (OrderedQueueKey A))
  (seen₀ : Finset (A × ℕ))

/-- Why `get_batch` may take `p` after the transactions `earlier`: it is its account's
cached sequence number, or the one before it was seen or taken already, or its account is
a CRSN account. -/
def Ready (earlier : List (A × ℕ)) (p : A × ℕ) : Prop :=
  cache p.1 = some p.2 ∨ (0 < p.2 ∧ ((p.1, p.2 - 1) ∈ seen₀ ∨ (p.1, p.2 - 1) ∈ earlier)) ∨
    ∃ key ∈ queue₀, key.pointer = p ∧ key.sequenceNumber.accountSequenceNumberType.isCrsn

/-- Every transaction of the list was ready when it was taken. -/
def ReadyOrder (l : List (A × ℕ)) : Prop :=
  ∀ l₁ p l₂, l = l₁ ++ p :: l₂ → Ready cache queue₀ seen₀ l₁ p

omit [DecidableEq A] in
/-- A position in a list grown by one entry is the new entry or a position before it. -/
theorem eq_append_cons_of_append_singleton {l l₁ l₂ : List (A × ℕ)} {p q : A × ℕ}
    (h : l ++ [p] = l₁ ++ q :: l₂) :
    (l₁ = l ∧ q = p ∧ l₂ = []) ∨ ∃ l₂', l = l₁ ++ q :: l₂' ∧ l₂ = l₂' ++ [p] := by
  rcases List.eq_nil_or_concat' l₂ with rfl | ⟨l₂', x, rfl⟩
  · obtain ⟨h₁, h₂⟩ := List.append_inj' h rfl
    exact .inl ⟨h₁.symm, (List.singleton_inj.mp h₂).symm, rfl⟩
  · rw [← List.cons_append, ← List.append_assoc] at h
    obtain ⟨h₁, h₂⟩ := List.append_inj' h rfl
    exact .inr ⟨l₂', h₁, by rw [List.singleton_inj.mp h₂]⟩

omit [DecidableEq A] in
theorem readyOrder_append_singleton {l : List (A × ℕ)} {p : A × ℕ} :
    ReadyOrder cache queue₀ seen₀ (l ++ [p]) ↔
      ReadyOrder cache queue₀ seen₀ l ∧ Ready cache queue₀ seen₀ l p := by
  constructor
  · intro h
    exact ⟨fun l₁ q l₂ hl => h l₁ q (l₂ ++ [p]) (by rw [hl, List.append_assoc, List.cons_append]),
      h l p [] rfl⟩
  · rintro ⟨hl, hp⟩ l₁ q l₂ heq
    rcases eq_append_cons_of_append_singleton heq with ⟨rfl, rfl, -⟩ | ⟨l₂', hl', -⟩
    · exact hp
    · exact hl l₁ q l₂' hl'

/-- What holds between two rounds of the `'main` loop, `rest` the keys still to visit. -/
structure Inv (rest : List (OrderedQueueKey A)) (seen : Finset (A × ℕ)) (result : List (A × ℕ))
    (skipped : Finset (A × ℕ)) : Prop where
  seen_eq : seen = seen₀ ∪ result.toFinset
  nodup : result.Nodup
  fresh : ∀ p ∈ result, p ∉ seen₀
  readyOrder : ReadyOrder cache queue₀ seen₀ result
  result_queue : ∀ p ∈ result, p ∈ queue₀.map OrderedQueueKey.pointer
  skipped_queue : ∀ p ∈ skipped, p ∈ queue₀.map OrderedQueueKey.pointer
  skipped_fresh : ∀ p ∈ skipped, p ∉ seen₀
  /-- a skipped transaction is taken only after the one before it -/
  skipped_pred : ∀ p ∈ skipped, ∀ l₁ l₂, result = l₁ ++ p :: l₂ → 0 < p.2 ∧ (p.1, p.2 - 1) ∈ l₁
  skipped_rest : ∀ p ∈ skipped, p ∉ rest.map OrderedQueueKey.pointer
  rest_nodup : (rest.map OrderedQueueKey.pointer).Nodup
  rest_queue : ∀ key ∈ rest, key ∈ queue₀

variable {cache queue₀ seen₀}

theorem Inv.start (hqueue : (queue₀.map OrderedQueueKey.pointer).Nodup) :
    Inv cache queue₀ seen₀ queue₀ seen₀ [] ∅ where
  seen_eq := by simp
  nodup := List.nodup_nil
  fresh := by simp
  readyOrder l₁ p l₂ h := absurd h.symm (by simp)
  result_queue := by simp
  skipped_queue := by simp
  skipped_fresh := by simp
  skipped_pred := by simp
  skipped_rest := by simp
  rest_nodup := hqueue
  rest_queue _ h := h

theorem Inv.not_mem_of_not_mem_seen {rest seen result skipped}
    (h : Inv cache queue₀ seen₀ rest seen result skipped) {p : A × ℕ} (hp : p ∉ seen) :
    p ∉ seen₀ ∧ p ∉ result := by
  rw [h.seen_eq, Finset.mem_union, List.mem_toFinset, not_or] at hp
  exact hp

/-- A visited key leaves `rest`. -/
theorem Inv.tail {key rest seen result skipped}
    (h : Inv cache queue₀ seen₀ (key :: rest) seen result skipped) :
    Inv cache queue₀ seen₀ rest seen result skipped :=
  { h with
    skipped_rest := fun p hp hr => h.skipped_rest p hp (List.mem_cons_of_mem _ hr)
    rest_nodup := (List.nodup_cons.mp h.rest_nodup).2
    rest_queue := fun k hk => h.rest_queue k (List.mem_cons_of_mem _ hk) }

/-- A key that is not ready is remembered as skipped. -/
theorem Inv.park {key rest seen result skipped}
    (h : Inv cache queue₀ seen₀ (key :: rest) seen result skipped) (hseen : key.pointer ∉ seen) :
    Inv cache queue₀ seen₀ rest seen result (insert key.pointer skipped) := by
  obtain ⟨hfresh, hresult⟩ := h.not_mem_of_not_mem_seen hseen
  have hkey : key.pointer ∉ rest.map OrderedQueueKey.pointer :=
    (List.nodup_cons.mp h.rest_nodup).1
  refine { h.tail with
    skipped_queue := fun p hp => ?_, skipped_fresh := fun p hp => ?_,
    skipped_pred := fun p hp => ?_, skipped_rest := fun p hp => ?_ } <;>
    rcases Finset.mem_insert.mp hp with rfl | hp
  · exact List.mem_map_of_mem (h.rest_queue key List.mem_cons_self)
  · exact h.skipped_queue p hp
  · exact hfresh
  · exact h.skipped_fresh p hp
  · intro l₁ l₂ hl
    exact absurd (hl ▸ List.mem_append_right _ List.mem_cons_self) hresult
  · exact h.skipped_pred p hp
  · exact hkey
  · exact h.tail.skipped_rest p hp

/-- Taking a transaction that is ready, not seen, and (if it was skipped) taken after the
one before it. -/
theorem Inv.take {rest seen result skipped}
    (h : Inv cache queue₀ seen₀ rest seen result skipped) {p : A × ℕ} (hseen : p ∉ seen)
    (hready : Ready cache queue₀ seen₀ result p) (hqueue : p ∈ queue₀.map OrderedQueueKey.pointer)
    (hpred : p ∈ skipped → 0 < p.2 ∧ (p.1, p.2 - 1) ∈ result) :
    Inv cache queue₀ seen₀ rest (insert p seen) (result ++ [p]) skipped := by
  obtain ⟨hfresh, hresult⟩ := h.not_mem_of_not_mem_seen hseen
  refine { h with
    seen_eq := ?_, nodup := ?_, fresh := ?_, readyOrder := ?_, result_queue := ?_,
    skipped_pred := ?_ }
  · ext x
    simp only [h.seen_eq, Finset.mem_insert, Finset.mem_union, List.mem_toFinset, List.mem_append,
      List.mem_singleton]
    tauto
  · exact List.nodup_append.mpr ⟨h.nodup, List.nodup_singleton p,
      fun a ha b hb => by rw [List.mem_singleton.mp hb]; exact fun e => hresult (e ▸ ha)⟩
  · intro q hq
    rcases List.mem_append.mp hq with hq | hq
    · exact h.fresh q hq
    · rw [List.mem_singleton.mp hq]
      exact hfresh
  · exact (readyOrder_append_singleton cache queue₀ seen₀).mpr ⟨h.readyOrder, hready⟩
  · intro q hq
    rcases List.mem_append.mp hq with hq | hq
    · exact h.result_queue q hq
    · rw [List.mem_singleton.mp hq]
      exact hqueue
  · intro q hq l₁ l₂ hl
    rcases eq_append_cons_of_append_singleton hl with ⟨rfl, rfl, -⟩ | ⟨l₂', hl', -⟩
    · exact hpred hq
    · exact h.skipped_pred q hq l₁ l₂' hl'

/-- The next skipped transaction of the account of the one just taken. -/
theorem Inv.takeNext {rest seen result skipped}
    (h : Inv cache queue₀ seen₀ rest seen result skipped) {a : A} {k : ℕ} {r : List (A × ℕ)}
    (hlast : result = r ++ [(a, k)]) (hq : (a, k + 1) ∈ skipped) :
    Inv cache queue₀ seen₀ rest (insert (a, k + 1) seen) (result ++ [(a, k + 1)]) skipped := by
  have hprev : (a, k) ∈ result := hlast ▸ List.mem_append_right _ List.mem_cons_self
  -- it was not taken yet: it would have been taken after `(a, k)`, which is last
  have hnew : (a, k + 1) ∉ result := by
    intro hmem
    obtain ⟨l₁, l₂, hl⟩ := List.append_of_mem hmem
    have hin : (a, k) ∈ l₁ := (h.skipped_pred _ hq l₁ l₂ hl).2
    rcases List.eq_nil_or_concat' l₂ with rfl | ⟨l₂', x, rfl⟩
    · rw [hlast] at hl
      obtain ⟨-, h₂⟩ := List.append_inj' hl rfl
      exact absurd (congrArg Prod.snd (List.singleton_inj.mp h₂)) (by simp)
    · -- then `(a, k)` stands both in `l₁` and at the end
      rw [hlast, ← List.cons_append, ← List.append_assoc] at hl
      obtain ⟨h₁, -⟩ := List.append_inj' hl rfl
      have hdup := h.nodup
      rw [hlast, h₁, List.append_assoc] at hdup
      exact (List.nodup_append.mp hdup).2.2 _ hin _ (by simp) rfl
  have hseen : (a, k + 1) ∉ seen := by
    rw [h.seen_eq, Finset.mem_union, List.mem_toFinset, not_or]
    exact ⟨h.skipped_fresh _ hq, hnew⟩
  exact h.take hseen (.inr (.inl ⟨Nat.succ_pos k, .inr hprev⟩)) (h.skipped_queue _ hq)
    fun _ => ⟨Nat.succ_pos k, hprev⟩

/-- The inner loop keeps the invariant: each round takes the skipped transaction after the
one taken last. -/
theorem inv_takeSkipped (batchSize : ℕ) {rest : List (OrderedQueueKey A)}
    {skipped : Finset (A × ℕ)} :
    ∀ (fuel : ℕ) (a : A) (k : ℕ) (seen : Finset (A × ℕ)) (result r : List (A × ℕ)),
      Inv cache queue₀ seen₀ rest seen result skipped → result = r ++ [(a, k)] →
      Inv cache queue₀ seen₀ rest (takeSkipped batchSize skipped fuel (a, k + 1) seen result).1
        (takeSkipped batchSize skipped fuel (a, k + 1) seen result).2.1 skipped
  | 0, _, _, _, _, _, h, _ => h
  | fuel + 1, a, k, seen, result, r, h, hlast => by
    rw [takeSkipped]
    split_ifs with hq hlen
    · exact h.takeNext hlast hq
    · exact inv_takeSkipped batchSize fuel a (k + 1) _ _ result (h.takeNext hlast hq) rfl
    · exact h

/-- A key that passes the loop condition of `get_batch` is taken. -/
theorem Inv.takeKey {key : OrderedQueueKey A} {rest seen result skipped}
    (h : Inv cache queue₀ seen₀ (key :: rest) seen result skipped) (hseen : key.pointer ∉ seen)
    (hready : (0 < key.sequenceNumber.transactionSequenceNumber ∧
        (key.address, key.sequenceNumber.transactionSequenceNumber - 1) ∈ seen) ∨
      cache key.address = some key.sequenceNumber.transactionSequenceNumber ∨
      key.sequenceNumber.accountSequenceNumberType.isCrsn) :
    Inv cache queue₀ seen₀ rest (insert key.pointer seen) (result ++ [key.pointer]) skipped := by
  have hkey : key ∈ queue₀ := h.rest_queue key List.mem_cons_self
  have hready' : Ready cache queue₀ seen₀ result key.pointer := by
    rcases hready with ⟨hpos, hprev⟩ | hcache | hcrsn
    · rw [h.seen_eq, Finset.mem_union, List.mem_toFinset] at hprev
      exact .inr (.inl ⟨hpos, hprev⟩)
    · exact .inl hcache
    · exact .inr (.inr ⟨key, hkey, rfl, hcrsn⟩)
  exact h.tail.take hseen hready' (List.mem_map_of_mem hkey)
    fun hk => absurd List.mem_cons_self (h.skipped_rest _ hk)

/-- The invariant holds of whatever the `'main` loop returns. -/
theorem inv_getBatchLoop (batchSize : ℕ) :
    ∀ (rest : List (OrderedQueueKey A)) (seen : Finset (A × ℕ)) (result : List (A × ℕ))
      (skipped : Finset (A × ℕ)), Inv cache queue₀ seen₀ rest seen result skipped →
      ∃ rest' seen' skipped',
        Inv cache queue₀ seen₀ rest' seen' (getBatchLoop batchSize cache rest seen result skipped)
          skipped'
  | [], seen, _, skipped, h => ⟨[], seen, skipped, h⟩
  | key :: rest, seen, result, skipped, h => by
    rw [getBatchLoop]
    dsimp only
    split_ifs with hseen hready hlen hbreak
    · exact inv_getBatchLoop batchSize rest seen result skipped h.tail
    · exact ⟨rest, _, skipped, h.takeKey hseen hready⟩
    · exact ⟨rest, _, skipped,
        inv_takeSkipped batchSize _ _ _ _ _ result (h.takeKey hseen hready) rfl⟩
    · exact inv_getBatchLoop batchSize rest _ _ skipped
        (inv_takeSkipped batchSize _ _ _ _ _ result (h.takeKey hseen hready) rfl)
    · exact inv_getBatchLoop batchSize rest seen result _ (h.park hseen)

/-! ## One account's transactions in a batch -/

/-- The sequence numbers a list of pointers gives the account `a`, in order. -/
def seqsOf (l : List (A × ℕ)) (a : A) : List ℕ := (l.filter fun p => p.1 = a).map Prod.snd

theorem mem_seqsOf {l : List (A × ℕ)} {a : A} {n : ℕ} : n ∈ seqsOf l a ↔ (a, n) ∈ l := by
  simp [seqsOf]

theorem seqsOf_append_singleton (l : List (A × ℕ)) (p : A × ℕ) (a : A) :
    seqsOf (l ++ [p]) a = if p.1 = a then seqsOf l a ++ [p.2] else seqsOf l a := by
  split_ifs with hp <;> simp [seqsOf, hp]

/-- An account with nothing in `seen` and no CRSN key is served the run of sequence
numbers from its cached one, in this order, and nothing when none is cached: each of its
transactions is the cached one or follows one taken before it. -/
theorem seqsOf_of_readyOrder {a : A}
    (hcrsn : ∀ key ∈ queue₀, key.address = a →
      key.sequenceNumber.accountSequenceNumberType.isCrsn = false)
    (hseen : ∀ p ∈ seen₀, p.1 ≠ a) (l : List (A × ℕ)) (hnd : l.Nodup)
    (hl : ReadyOrder cache queue₀ seen₀ l) :
    (cache a = none → seqsOf l a = []) ∧
      ∀ c, cache a = some c → seqsOf l a = List.range' c (seqsOf l a).length := by
  induction l using List.reverseRecOn with
  | nil => exact ⟨fun _ => rfl, fun _ _ => rfl⟩
  | append_singleton l p ih =>
    obtain ⟨hl', hp⟩ := (readyOrder_append_singleton cache queue₀ seen₀).mp hl
    obtain ⟨hnone, hsome⟩ := ih (hnd.sublist (List.sublist_append_left l [p])) hl'
    rw [seqsOf_append_singleton]
    split_ifs with ha
    · obtain ⟨a', n⟩ := p
      obtain rfl : a' = a := ha
      have hnew : n ∉ seqsOf l a' := fun h =>
        (List.nodup_append.mp hnd).2.2 _ (mem_seqsOf.mp h) _ List.mem_cons_self rfl
      -- the CRSN and the seen cases of `Ready` are ruled out
      have hready : cache a' = some n ∨ (0 < n ∧ n - 1 ∈ seqsOf l a') := by
        rcases hp with hc | ⟨hpos, hs | hs⟩ | ⟨key, hkey, hptr, hc⟩
        · exact .inl hc
        · exact absurd rfl (hseen _ hs)
        · exact .inr ⟨hpos, mem_seqsOf.mpr hs⟩
        · have haddr : key.address = a' := congrArg Prod.fst hptr
          exact absurd hc (by rw [hcrsn key hkey haddr]; decide)
      refine ⟨fun hc => ?_, fun c hc => ?_⟩
      · rcases hready with hc' | ⟨-, hprev⟩
        · rw [hc] at hc'
          cases hc'
        · rw [hnone hc] at hprev
          cases hprev
      · have hs := hsome c hc
        dsimp only
        rw [List.length_append, List.length_singleton]
        generalize (seqsOf l a').length = m at hs
        rw [hs] at hnew ⊢
        rw [List.range'_concat]
        rcases hready with hc' | ⟨hpos, hprev⟩
        · -- the cached one comes first
          rw [hc] at hc'
          cases hc'
          rcases Nat.eq_zero_or_pos m with rfl | hpos
          · rfl
          · exact absurd (List.mem_range'_1.mpr ⟨le_rfl, by omega⟩) hnew
        · -- any other follows the last one of the run
          rw [hs, List.mem_range'_1] at hprev
          rw [List.mem_range'_1] at hnew
          rw [show n = c + 1 * m by omega]
    · exact ⟨hnone, hsome⟩

end Invariant

/-! ## `get_batch` -/

section Batch

variable {A : Type*} [DecidableEq A]

/-- Over every priority queue whose keys name distinct stored transactions, every seen set
and every batch size, the batch is at most `batch_size` long when that is at least one,
holds nothing seen and nothing twice, takes each transaction when it is ready, and gives an
account with nothing seen and no CRSN key the run from its cached sequence number. -/
theorem getBatch_ready_in_order (stored : A × ℕ → Bool) (batchSize : ℕ) (cache : A → Option ℕ)
    (queue : List (OrderedQueueKey A)) (seen : Finset (A × ℕ))
    (hqueue : (queue.map OrderedQueueKey.pointer).Nodup)
    (hstored : ∀ key ∈ queue, stored key.pointer) :
    (0 < batchSize → (getBatch stored batchSize cache queue seen).length ≤ batchSize) ∧
    (∀ p ∈ getBatch stored batchSize cache queue seen, p ∉ seen) ∧
    (getBatch stored batchSize cache queue seen).Nodup ∧
    ReadyOrder cache queue seen (getBatch stored batchSize cache queue seen) ∧
    ∀ a, (∀ key ∈ queue, key.address = a →
        key.sequenceNumber.accountSequenceNumberType.isCrsn = false) →
      (∀ p ∈ seen, p.1 ≠ a) →
      (cache a = none → seqsOf (getBatch stored batchSize cache queue seen) a = []) ∧
      ∀ c, cache a = some c → seqsOf (getBatch stored batchSize cache queue seen) a =
        List.range' c (seqsOf (getBatch stored batchSize cache queue seen) a).length := by
  obtain ⟨rest, seen', skipped, h⟩ := inv_getBatchLoop batchSize queue seen [] ∅ (Inv.start hqueue)
  -- everything taken is a key of the queue, so the store holds it
  have hbatch : getBatch stored batchSize cache queue seen =
      getBatchLoop batchSize cache queue seen [] ∅ := by
    refine List.filter_eq_self.mpr fun p hp => ?_
    obtain ⟨key, hkey, rfl⟩ := List.mem_map.mp (h.result_queue p hp)
    exact hstored key hkey
  rw [hbatch]
  refine ⟨fun hpos => length_getBatchLoop_le batchSize cache queue seen [] ∅ hpos, h.fresh, h.nodup,
    h.readyOrder, fun a hcrsn hseen => seqsOf_of_readyOrder hcrsn hseen _ h.nodup h.readyOrder⟩

/-- Account 1's nonce 4 outbids its nonce 3, the cached one: it is skipped, and taken right
after nonce 3. -/
theorem getBatch_ready_in_order_sample :
    let queue : List (OrderedQueueKey ℕ) :=
      [⟨10, 0, 1, ⟨4, .sequential 3⟩⟩, ⟨1, 0, 1, ⟨3, .sequential 3⟩⟩]
    (queue.map OrderedQueueKey.pointer).Nodup ∧
      seqsOf (getBatch (fun _ => true) 2 (fun _ => some 3) queue ∅) 1 =
        List.range' 3 (seqsOf (getBatch (fun _ => true) 2 (fun _ => some 3) queue ∅) 1).length :=
  ⟨by decide, ((getBatch_ready_in_order (fun _ => true) 2 (fun _ => some 3) _ ∅ (by decide)
    fun _ _ => rfl).2.2.2.2 1 (by decide) (by simp)).2 3 rfl⟩

/-- With batch size 0 the check `result.len() == batch_size` never holds, and the one
transaction that is ready is taken. An account with a seen transaction can be served out
of order: here nonce 10 follows the seen nonce 9 and comes first, by its higher gas price,
and nonce 5, the cached one, comes after it. -/
theorem getBatch_overfull_and_unordered :
    let k₀ : OrderedQueueKey ℕ := ⟨1, 0, 0, ⟨0, .sequential 0⟩⟩
    let k₁₀ : OrderedQueueKey ℕ := ⟨10, 0, 0, ⟨10, .sequential 5⟩⟩
    let k₅ : OrderedQueueKey ℕ := ⟨1, 0, 0, ⟨5, .sequential 5⟩⟩
    getBatch (fun _ => true) 0 (fun _ => some 0) [k₀] ∅ = [(0, 0)] ∧
      [k₁₀, k₅].Pairwise (fun a b => a.cmp b = .gt) ∧
      getBatch (fun _ => true) 10 (fun _ => some 5) [k₁₀, k₅] {(0, 9)} = [(0, 10), (0, 5)] := by
  decide

end Batch

end AptosCore.Mempool
