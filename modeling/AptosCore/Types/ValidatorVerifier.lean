import AptosCore.Lib.SortedMap
import AptosCore.Lib.U64
import AptosCore.Lib.Quorum

/-!
# The validator verifier

`types/src/validator_verifier.rs`. A validator set is an ordered map from
account addresses to a public key and a voting power. `ValidatorVerifier::new`
sums the powers with `checked_add` and sets the quorum to `2 T / 3 + 1` (`0`
for an empty set), computing `T * 2` in `u64`; `check_voting_power` sums the
powers of the authors of a set of signatures and compares with the quorum.
The release profile builds with overflow checks, so an overflowing `*`, `+` or
`-` panics.

Above `T < 2 ^ 63` nothing overflows, the quorum is at most `T` once `T` is
positive, and two sets of authors that each pass `check_voting_power` share
more than `T` minus the quorum (`quorum_arith_of_lt`); at `T = 2 ^ 63` the
constructor panics, and a non-empty set of zero total power gets quorum `1`
(`quorum_arith_overflow`).
-/

namespace AptosCore

/-- `ValidatorConsensusInfo`. -/
structure ValidatorConsensusInfo (PK : Type) where
  publicKey : PK
  votingPower : Nat
  deriving DecidableEq, Repr

/-- `VerifyError`, with the panics of the code that returns it. -/
inductive VerifyError where
  | unknownAuthor
  | tooLittleVotingPower (votingPower expectedVotingPower : Nat)
  | tooManySignatures (numOfSignatures numOfAuthors : Nat)
  | invalidSignature
  | inconsistentBlockInfo
  /-- A panic, with its message. -/
  | panic (msg : String)
  deriving DecidableEq, Repr

/-- `ValidatorVerifier`: the ordered map of validators, its quorum and its total power. -/
structure ValidatorVerifier (A PK : Type) [LinearOrder A] where
  addressToValidatorInfo : List (A × ValidatorConsensusInfo PK)
  quorumVotingPower : Nat
  totalVotingPower : Nat
  /-- A `BTreeMap`: the addresses in increasing order. -/
  sorted : SortedMap.Sorted addressToValidatorInfo

namespace ValidatorVerifier

variable {A PK : Type} [LinearOrder A]

/-- `sum_voting_power`: the powers added with `checked_add`, panicking on overflow. -/
def sumVotingPower (m : List (A × ValidatorConsensusInfo PK)) : Except String Nat :=
  m.foldlM (fun sum x =>
    match U64.checkedAdd sum x.2.votingPower with
    | some s => .ok s
    | none => .error "sum of all voting power is greater than u64::max") 0

/-- `ValidatorVerifier::new`. -/
def new (m : List (A × ValidatorConsensusInfo PK)) (hm : SortedMap.Sorted m) :
    Except String (ValidatorVerifier A PK) := do
  let totalVotingPower ← sumVotingPower m
  let quorumVotingPower ← (if m.isEmpty then pure 0 else
    U64.mul totalVotingPower 2 >>= fun double => U64.add (double / 3) 1)
  pure ⟨m, quorumVotingPower, totalVotingPower, hm⟩

/-- `ValidatorVerifier::get_voting_power`. -/
def getVotingPower (v : ValidatorVerifier A PK) (author : A) : Option Nat :=
  (v.addressToValidatorInfo.lookup author).map (·.votingPower)

/-- `ValidatorVerifier::get_public_key`. -/
def getPublicKey (v : ValidatorVerifier A PK) (author : A) : Option PK :=
  (v.addressToValidatorInfo.lookup author).map (·.publicKey)

/-- `ValidatorVerifier::len`. -/
def len (v : ValidatorVerifier A PK) : Nat := v.addressToValidatorInfo.length

/-- The loop of `check_voting_power`: the powers of the authors added up, stopping
at the first unknown author. -/
def checkVotingPowerLoop (v : ValidatorVerifier A PK) : List A → Nat → Except VerifyError Nat
  | [], aggregatedVotingPower => .ok aggregatedVotingPower
  | author :: authors, aggregatedVotingPower =>
    match v.getVotingPower author with
    | some votingPower =>
      match U64.add aggregatedVotingPower votingPower with
      | .ok sum => checkVotingPowerLoop v authors sum
      | .error msg => .error (.panic msg)
    | none => .error .unknownAuthor

/-- `ValidatorVerifier::check_voting_power`. -/
def checkVotingPower (v : ValidatorVerifier A PK) (authors : List A) : Except VerifyError Unit := do
  let aggregatedVotingPower ← v.checkVotingPowerLoop authors 0
  if aggregatedVotingPower < v.quorumVotingPower then
    .error (.tooLittleVotingPower aggregatedVotingPower v.quorumVotingPower)
  else .ok ()

/-- The echo threshold `f + 1` of `PendingVotes::insert_vote`:
`total_voting_power() - quorum_voting_power() + 1`. -/
def echoTimeoutThreshold (v : ValidatorVerifier A PK) : Except String Nat := do
  let d ← U64.sub v.totalVotingPower v.quorumVotingPower
  U64.add d 1

/-! ## Voting power as a weight -/

/-- The sum of the powers of a map. -/
def totalOf (m : List (A × ValidatorConsensusInfo PK)) : Nat := (m.map (·.2.votingPower)).sum

/-- The power of an author, `0` for one not in the set. -/
def power (v : ValidatorVerifier A PK) (author : A) : Nat := (v.getVotingPower author).getD 0

/-- The addresses of the set. -/
def addresses (v : ValidatorVerifier A PK) : List A := v.addressToValidatorInfo.map Prod.fst

omit [LinearOrder A] in
theorem sumVotingPower_foldlM (m : List (A × ValidatorConsensusInfo PK)) :
    ∀ acc, acc + totalOf m < U64.size →
      m.foldlM (fun sum x =>
        match U64.checkedAdd sum x.2.votingPower with
        | some s => .ok s
        | none => .error "sum of all voting power is greater than u64::max") acc =
        (.ok (acc + totalOf m) : Except String Nat) := by
  induction m with
  | nil => intro acc _; rfl
  | cons x m ih =>
    intro acc hacc
    have hstep : acc + x.2.votingPower < U64.size := by
      simp only [totalOf, List.map_cons, List.sum_cons] at hacc
      omega
    rw [List.foldlM_cons, U64.checkedAdd_of_lt hstep]
    have hrest := ih (acc + x.2.votingPower) (by simp only [totalOf, List.map_cons, List.sum_cons] at hacc ⊢; omega)
    refine hrest.trans ?_
    simp only [totalOf, List.map_cons, List.sum_cons, Nat.add_assoc]

omit [LinearOrder A] in
theorem sumVotingPower_eq {m : List (A × ValidatorConsensusInfo PK)} (h : totalOf m < U64.size) :
    sumVotingPower m = .ok (totalOf m) := by
  rw [sumVotingPower, sumVotingPower_foldlM m 0 (by omega), Nat.zero_add]

/-- Below `2 ^ 63` the constructor computes the quorum without overflow. -/
theorem new_eq {m : List (A × ValidatorConsensusInfo PK)} (hm : SortedMap.Sorted m)
    (h : totalOf m < 2 ^ 63) :
    new m hm = .ok ⟨m, if m = [] then 0 else totalOf m * 2 / 3 + 1, totalOf m, hm⟩ := by
  have hsize : U64.size = 2 ^ 64 := rfl
  rw [new, sumVotingPower_eq (by omega)]
  cases m with
  | nil => rfl
  | cons x m =>
    have hmul : totalOf (x :: m) * 2 < U64.size := by omega
    have hadd : totalOf (x :: m) * 2 / 3 + 1 < U64.size := by omega
    simp only [List.isEmpty_cons, Bool.false_eq_true, if_false, U64.mul_of_lt hmul, U64.add_of_lt hadd,
      bind, Except.bind, reduceCtorEq]
    rfl

/-- The power of an address of the set is its entry's. -/
theorem power_of_mem (v : ValidatorVerifier A PK) {x : A × ValidatorConsensusInfo PK}
    (hx : x ∈ v.addressToValidatorInfo) : v.power x.1 = x.2.votingPower := by
  rw [power, getVotingPower, (SortedMap.mem_iff_lookup v.sorted).mp hx]
  rfl

theorem power_of_not_mem (v : ValidatorVerifier A PK) {a : A} (ha : a ∉ v.addresses) : v.power a = 0 := by
  have hnone : v.addressToValidatorInfo.lookup a = none := by
    rw [List.lookup_eq_none_iff]
    intro x hx
    rw [bne_iff_ne]
    intro hax
    exact ha (List.mem_map.mpr ⟨x, hx, hax.symm⟩)
  rw [power, getVotingPower, hnone]
  rfl

theorem addresses_nodup (v : ValidatorVerifier A PK) : v.addresses.Nodup :=
  SortedMap.keys_nodup_of_sorted v.sorted

/-- The total is the weight of all addresses. -/
theorem totalOf_eq_sum_power (v : ValidatorVerifier A PK) :
    totalOf v.addressToValidatorInfo = (v.addresses.map v.power).sum := by
  rw [totalOf, addresses, List.map_map]
  congr 1
  apply List.map_congr_left
  intro x hx
  exact (power_of_mem v hx).symm

/-- A repetition-free list of authors weighs at most the total. -/
theorem sum_power_le (v : ValidatorVerifier A PK) {authors : List A} (h : authors.Nodup) :
    (authors.map v.power).sum ≤ totalOf v.addressToValidatorInfo := by
  rw [totalOf_eq_sum_power]
  exact Quorum.sum_map_le_of_eq_zero v.power v.addresses_nodup h fun a ha => v.power_of_not_mem ha

theorem mem_addresses_of_getVotingPower (v : ValidatorVerifier A PK) {a : A} {p : Nat}
    (h : v.getVotingPower a = some p) : a ∈ v.addresses := by
  obtain ⟨x, hx, -⟩ := Option.map_eq_some_iff.mp h
  exact List.mem_map.mpr ⟨(a, x), (SortedMap.mem_iff_lookup v.sorted (x := (a, x))).mpr hx, rfl⟩

/-- The loop either sums the authors' powers or stops at an unknown one, as long as
the sum fits. -/
theorem checkVotingPowerLoop_eq (v : ValidatorVerifier A PK) :
    ∀ (authors : List A) (acc : Nat), acc + (authors.map v.power).sum < U64.size →
      (v.checkVotingPowerLoop authors acc = .ok (acc + (authors.map v.power).sum) ∧
          ∀ a ∈ authors, a ∈ v.addresses) ∨
        v.checkVotingPowerLoop authors acc = .error .unknownAuthor
  | [], acc, _ => Or.inl ⟨rfl, fun _ ha => absurd ha List.not_mem_nil⟩
  | a :: authors, acc, hsum => by
    rw [checkVotingPowerLoop]
    cases hp : v.getVotingPower a with
    | none => exact Or.inr rfl
    | some p =>
      have hpa : v.power a = p := by rw [power, hp]; rfl
      have hmem := mem_addresses_of_getVotingPower v hp
      simp only [List.map_cons, List.sum_cons, hpa] at hsum
      dsimp only
      rw [U64.add_of_lt (by omega)]
      dsimp only
      rcases checkVotingPowerLoop_eq v authors (acc + p) (by omega) with ⟨heq, hall⟩ | herr
      · refine Or.inl ⟨?_, ?_⟩
        · rw [heq, List.map_cons, List.sum_cons, hpa, Nat.add_assoc]
        · intro b hb
          rcases List.mem_cons.mp hb with rfl | hb
          · exact hmem
          · exact hall b hb
      · exact Or.inr herr

/-- A loop that returned summed the powers of the authors, all of them known. -/
theorem checkVotingPowerLoop_eq_ok (v : ValidatorVerifier A PK) :
    ∀ {authors : List A} {acc n : Nat}, v.checkVotingPowerLoop authors acc = .ok n →
      n = acc + (authors.map v.power).sum ∧ ∀ a ∈ authors, a ∈ v.addresses
  | [], acc, n, h => by
    cases h
    exact ⟨rfl, fun _ ha => absurd ha List.not_mem_nil⟩
  | a :: authors, acc, n, h => by
    rw [checkVotingPowerLoop] at h
    cases hp : v.getVotingPower a with
    | none =>
      rw [hp] at h
      cases h
    | some p =>
      have hpa : v.power a = p := by rw [power, hp]; rfl
      rw [hp] at h
      dsimp only at h
      -- an overflow would have stopped the loop with a panic
      rcases U64.add_eq_ok_or acc p with hadd | hadd <;> rw [hadd] at h
      · obtain ⟨rfl, hall⟩ := checkVotingPowerLoop_eq_ok v h
        refine ⟨by rw [List.map_cons, List.sum_cons, hpa, Nat.add_assoc], ?_⟩
        intro b hb
        rcases List.mem_cons.mp hb with rfl | hb
        · exact mem_addresses_of_getVotingPower v hp
        · exact hall b hb
      · cases h

/-- Authors that pass `check_voting_power` are known and reach the quorum. -/
theorem quorum_of_checkVotingPower (v : ValidatorVerifier A PK) {authors : List A}
    (hok : v.checkVotingPower authors = .ok ()) :
    (∀ a ∈ authors, a ∈ v.addresses) ∧ v.quorumVotingPower ≤ (authors.map v.power).sum := by
  rw [checkVotingPower] at hok
  cases hloop : v.checkVotingPowerLoop authors 0 with
  | error e =>
    rw [hloop] at hok
    cases hok
  | ok n =>
    obtain ⟨rfl, hall⟩ := v.checkVotingPowerLoop_eq_ok hloop
    rw [hloop, Nat.zero_add] at hok
    refine ⟨hall, ?_⟩
    simp only [bind, Except.bind] at hok
    by_contra hlt
    rw [if_pos (Nat.lt_of_not_le hlt)] at hok
    cases hok

/-- `check_voting_power` never overflows on a repetition-free list of authors. -/
theorem checkVotingPower_ne_panic (v : ValidatorVerifier A PK) (hT : totalOf v.addressToValidatorInfo < U64.size)
    {authors : List A} (h : authors.Nodup) (msg : String) :
    v.checkVotingPower authors ≠ .error (.panic msg) := by
  have hle := v.sum_power_le h
  rw [checkVotingPower]
  rcases checkVotingPowerLoop_eq v authors 0 (by omega) with ⟨heq, -⟩ | herr
  · rw [heq]
    intro hpanic
    simp only [bind, Except.bind] at hpanic
    split at hpanic <;> cases hpanic
  · rw [herr]
    intro hpanic
    cases hpanic

/-- What the quorum arithmetic of a verifier `v` built from the map `m` guarantees. -/
structure QuorumArithmetic (m : List (A × ValidatorConsensusInfo PK)) (v : ValidatorVerifier A PK) :
    Prop where
  totalVotingPower_eq : v.totalVotingPower = totalOf m
  quorumVotingPower_eq : v.quorumVotingPower = if m = [] then 0 else totalOf m * 2 / 3 + 1
  /-- The quorum is reachable, and the echo threshold does not underflow. -/
  quorum_le_total : m = [] ∨ 0 < totalOf m →
    v.quorumVotingPower ≤ v.totalVotingPower ∧
      v.echoTimeoutThreshold = .ok (v.totalVotingPower - v.quorumVotingPower + 1)
  /-- Summing the powers of distinct authors never overflows. -/
  checkVotingPower_ne_panic : ∀ authors : List A, authors.Nodup → ∀ msg,
    v.checkVotingPower authors ≠ .error (.panic msg)
  /-- Two sets of authors that each pass share more than the total minus the quorum. -/
  quorum_intersection : m ≠ [] → ∀ as bs : List A, as.Nodup → bs.Nodup →
    v.checkVotingPower as = .ok () → v.checkVotingPower bs = .ok () →
    v.totalVotingPower - v.quorumVotingPower + 1 ≤ Quorum.sharedWeight v.power as bs

/-- Below `T = 2 ^ 63` the quorum arithmetic holds: no overflow, the quorum is
`2 T / 3 + 1` (or `0`), reachable once `T > 0`, and any two passing sets of
authors intersect in more than `T` minus the quorum. -/
theorem quorum_arith_of_lt (m : List (A × ValidatorConsensusInfo PK)) (hm : SortedMap.Sorted m)
    (hT : totalOf m < 2 ^ 63) : ∃ v, new m hm = .ok v ∧ QuorumArithmetic m v := by
  have hsize : U64.size = 2 ^ 64 := rfl
  refine ⟨_, new_eq hm hT, ?_⟩
  -- the verifier the constructor returns, with its quorum `q` and total `T`
  set q := if m = [] then 0 else totalOf m * 2 / 3 + 1 with hq
  have hqT : m = [] ∨ 0 < totalOf m → q ≤ totalOf m := by
    rintro (hnil | hpos)
    · rw [hq, if_pos hnil]
      exact Nat.zero_le _
    · by_cases hnil : m = []
      · rw [hq, if_pos hnil]
        exact Nat.zero_le _
      · rw [hq, if_neg hnil]
        omega
  refine ⟨rfl, rfl, fun hcase => ⟨hqT hcase, ?_⟩, ?_, ?_⟩
  · -- `T - q + 1` fits
    show (U64.sub (totalOf m) q >>= fun d => U64.add d 1) = _
    rw [U64.sub_of_le (hqT hcase)]
    exact U64.add_of_lt (by omega)
  · intro authors hnodup msg
    exact checkVotingPower_ne_panic _ (show totalOf m < U64.size by omega) hnodup msg
  · intro hne as bs has hbs hokA hokB
    have hqA := quorum_of_checkVotingPower _ hokA
    have hqB := quorum_of_checkVotingPower _ hokB
    have htotal := totalOf_eq_sum_power (⟨m, q, totalOf m, hm⟩ : ValidatorVerifier A PK)
    have h3q : 2 * totalOf m < 3 * q := by
      rw [hq, if_neg hne]
      omega
    have := Quorum.le_sharedWeight_of_quorum _ (addresses_nodup _) has hbs hqA.1 hqB.1
      (htotal ▸ h3q) hqA.2 hqB.2
    rw [← htotal] at this
    exact this

/-- Four validators of power one each. -/
def fourValidators : List (Nat × ValidatorConsensusInfo Unit) :=
  [(0, ⟨(), 1⟩), (1, ⟨(), 1⟩), (2, ⟨(), 1⟩), (3, ⟨(), 1⟩)]

theorem quorum_arith_of_lt_four :
    totalOf fourValidators < 2 ^ 63 ∧
      ∃ v, new fourValidators (by decide) = .ok v ∧ QuorumArithmetic fourValidators v :=
  ⟨by decide, quorum_arith_of_lt fourValidators (by decide) (by decide)⟩

/-- At `T = 2 ^ 63` the constructor panics on `T * 2`; a non-empty set of total
power zero gets quorum `1`, above the total, and the echo threshold underflows. -/
theorem quorum_arith_overflow :
    new [((0 : Nat), (⟨(), 2 ^ 63⟩ : ValidatorConsensusInfo Unit))] (List.pairwise_singleton _ _) =
        .error "attempt to multiply with overflow" ∧
      ∃ v, new [((0 : Nat), (⟨(), 0⟩ : ValidatorConsensusInfo Unit))] (List.pairwise_singleton _ _) =
          .ok v ∧ v.totalVotingPower < v.quorumVotingPower ∧
        v.echoTimeoutThreshold = .error "attempt to subtract with overflow" :=
  ⟨rfl, _, rfl, by decide, rfl⟩

end ValidatorVerifier

end AptosCore
