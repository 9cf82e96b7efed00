import AptosCore.Lib.AssocMap
import AptosCore.Lib.ExceptCheck
import AptosCore.Lib.U32
import AptosCore.Lib.U64
import AptosCore.Lib.WeightedChoice

/-!
# Leader reputation

`consensus/src/liveness/leader_reputation.rs`. The leader of a round is drawn
among the proposers with a probability proportional to a weight that a
heuristic gives each of them from the committed history: the votes, proposals
and failed proposals counted in a window of recent block events. The weights are
turned into running sums, a value drawn from the round is reduced modulo their
total, and a binary search finds the first running sum above it.

Counts are `u32` and weights `u64`, both with the overflow checks of the release
build, so a count, their sum, or the failure test of `ProposerAndVoterHeuristic`
can panic. A total weight of zero panics in the modulo. The draw `next` hashes
the bytes of the round; it is a parameter here, as is the backend that reads
the history.
-/

namespace AptosCore.Consensus

/-- `NewBlockEvent`, with the fields leader reputation reads. -/
structure NewBlockEvent (A : Type) where
  epoch : Nat
  proposer : A
  previousBlockVotes : List Bool
  failedProposerIndices : List Nat

/-- `NewBlockEventAggregation`: the windows in which votes and proposals are counted. -/
structure NewBlockEventAggregation where
  voterWindowSize : Nat
  proposerWindowSize : Nat

namespace NewBlockEventAggregation

variable {A : Type} [DecidableEq A]

/-- `bitmap_to_voters`. -/
def bitmapToVoters (validators : List A) (bitmap : List Bool) : Except String (List A) :=
  if validators.length ≠ bitmap.length then .error "bitmap does not match validators"
  else .ok ((validators.zip bitmap).filterMap fun (validator, voted) => if voted then some validator else none)

/-- `indices_to_validators`. -/
def indicesToValidators (validators : List A) (indices : List Nat) : Except String (List A) :=
  indices.mapM fun index =>
    match validators[index]? with
    | some validator => .ok validator
    | none => .error "index is larger than number of validators"

/-- `history_iter`: the events of the epoch among the last `windowSize`. -/
def historyIter (history : List (NewBlockEvent A)) (epoch windowSize : Nat) : List (NewBlockEvent A) :=
  let start := if history.length > windowSize then history.length - windowSize else 0
  (history.drop start).filter fun event => event.epoch = epoch

/-- `*map.entry(author).or_insert(0) += 1` on a `u32` count. -/
def bump (map : List (A × Nat)) (author : A) : Except String (List (A × Nat)) := do
  let count ← U32.add ((map.lookup author).getD 0) 1
  pure (AssocMap.set author count map)

/-- `count_votes`: the events whose vote bitmap does not match are skipped. -/
def countVotes (agg : NewBlockEventAggregation) (epoch : Nat) (candidates : List A)
    (history : List (NewBlockEvent A)) : Except String (List (A × Nat)) :=
  (historyIter history epoch agg.voterWindowSize).foldlM
    (fun map event =>
      match bitmapToVoters candidates event.previousBlockVotes with
      | .ok voters => voters.foldlM bump map
      | .error _ => pure map)
    []

/-- `count_proposals`. -/
def countProposals (agg : NewBlockEventAggregation) (epoch : Nat) (history : List (NewBlockEvent A)) :
    Except String (List (A × Nat)) :=
  (historyIter history epoch agg.proposerWindowSize).foldlM (fun map event => bump map event.proposer) []

/-- `count_failed_proposals`: the events with an index out of range are skipped. -/
def countFailedProposals (agg : NewBlockEventAggregation) (epoch : Nat) (candidates : List A)
    (history : List (NewBlockEvent A)) : Except String (List (A × Nat)) :=
  (historyIter history epoch agg.proposerWindowSize).foldlM
    (fun map event =>
      match indicesToValidators candidates event.failedProposerIndices with
      | .ok failedProposers => failedProposers.foldlM bump map
      | .error _ => pure map)
    []

/-- `get_aggregated_metrics`: the votes, proposals and failed proposals of each
author, after the `u32` sums it reports as a metric. -/
def getAggregatedMetrics (agg : NewBlockEventAggregation) (epoch : Nat) (candidates : List A)
    (history : List (NewBlockEvent A)) :
    Except String (List (A × Nat) × List (A × Nat) × List (A × Nat)) := do
  let votes ← agg.countVotes epoch candidates history
  let proposals ← agg.countProposals epoch history
  let failedProposals ← agg.countFailedProposals epoch candidates history
  let _ ← U32.sum (proposals.map Prod.snd)
  let _ ← U32.sum (failedProposals.map Prod.snd)
  pure (votes, proposals, failedProposals)

end NewBlockEventAggregation

/-- `ActiveInactiveHeuristic`. -/
structure ActiveInactiveHeuristic where
  activeWeight : Nat
  inactiveWeight : Nat
  aggregation : NewBlockEventAggregation

/-- `ProposerAndVoterHeuristic`. -/
structure ProposerAndVoterHeuristic where
  activeWeight : Nat
  inactiveWeight : Nat
  failedWeight : Nat
  failureThresholdPercent : Nat
  aggregation : NewBlockEventAggregation

/-- The two implementations of `ReputationHeuristic`. -/
inductive ReputationHeuristic where
  | activeInactive (heuristic : ActiveInactiveHeuristic)
  | proposerAndVoter (heuristic : ProposerAndVoterHeuristic)

variable {A : Type} [DecidableEq A]

/-- `ActiveInactiveHeuristic::get_weights`: a candidate that voted or proposed in
the window is active. -/
def ActiveInactiveHeuristic.getWeights (h : ActiveInactiveHeuristic) (epoch : Nat)
    (candidates : List A) (history : List (NewBlockEvent A)) : Except String (List Nat) := do
  let (votes, proposals, _) ← h.aggregation.getAggregatedMetrics epoch candidates history
  pure (candidates.map fun author =>
    if (votes.lookup author).isSome || (proposals.lookup author).isSome then h.activeWeight
    else h.inactiveWeight)

/-- The weight `ProposerAndVoterHeuristic::get_weights` gives one candidate, with
the `u32` failure test `failed * 100 > (proposals + failed) * threshold`. -/
def ProposerAndVoterHeuristic.weightOf (h : ProposerAndVoterHeuristic) (votes proposals failedProposals : List (A × Nat))
    (author : A) : Except String Nat := do
  let curVotes := (votes.lookup author).getD 0
  let curProposals := (proposals.lookup author).getD 0
  let curFailedProposals := (failedProposals.lookup author).getD 0
  let failed ← U32.mul curFailedProposals 100
  let attempts ← U32.add curProposals curFailedProposals
  let threshold ← U32.mul attempts h.failureThresholdPercent
  pure (if failed > threshold then h.failedWeight
    else if curProposals > 0 || curVotes > 0 then h.activeWeight
    else h.inactiveWeight)

/-- `ProposerAndVoterHeuristic::get_weights`. -/
def ProposerAndVoterHeuristic.getWeights (h : ProposerAndVoterHeuristic) (epoch : Nat)
    (candidates : List A) (history : List (NewBlockEvent A)) : Except String (List Nat) := do
  let (votes, proposals, failedProposals) ← h.aggregation.getAggregatedMetrics epoch candidates history
  candidates.mapM (h.weightOf votes proposals failedProposals)

/-- `ReputationHeuristic::get_weights`. -/
def ReputationHeuristic.getWeights : ReputationHeuristic → Nat → List A → List (NewBlockEvent A) →
    Except String (List Nat)
  | .activeInactive h => h.getWeights
  | .proposerAndVoter h => h.getWeights

/-- `LeaderReputation`; the backend gives the history to read for a round. -/
structure LeaderReputation (A : Type) where
  epoch : Nat
  proposers : List A
  backend : Nat → List (NewBlockEvent A)
  heuristic : ReputationHeuristic
  excludeRound : Nat

/-- The loop of `get_valid_proposer` that turns each weight into the running
total, in `u64`. -/
def accumulateWeights : List Nat → Nat → Except String (List Nat × Nat)
  | [], totalWeight => .ok ([], totalWeight)
  | w :: weights, totalWeight => do
    let totalWeight ← U64.add totalWeight w
    let (weights, total) ← accumulateWeights weights totalWeight
    pure (totalWeight :: weights, total)

namespace LeaderReputation

/-- `LeaderReputation::new`, with its check that the proposers are sorted. -/
def new [LinearOrder A] (epoch : Nat) (proposers : List A) (backend : Nat → List (NewBlockEvent A))
    (heuristic : ReputationHeuristic) (excludeRound : Nat) : Except String (LeaderReputation A) :=
  if (proposers.zip proposers.tail).all fun w => decide (w.1 ≤ w.2) then
    .ok ⟨epoch, proposers, backend, heuristic, excludeRound⟩
  else .error "assertion failed: proposers are sorted"

/-- `get_valid_proposer`, with `next round` the value drawn from the round's bytes. -/
def getValidProposer (lr : LeaderReputation A) (next : Nat → Nat) (round : Nat) : Except String A := do
  let targetRound := round - lr.excludeRound
  let slidingWindow := lr.backend targetRound
  let weights ← lr.heuristic.getWeights lr.epoch lr.proposers slidingWindow
  if weights.length ≠ lr.proposers.length then
    throw "assertion failed: weights.len() == self.proposers.len()"
  let (weights, totalWeight) ← accumulateWeights weights 0
  if totalWeight = 0 then throw "attempt to calculate the remainder with a divisor of zero"
  let chosenWeight := next round % totalWeight
  match BinarySearch.binarySearchBy (fun w => if w ≤ chosenWeight then Ordering.lt else Ordering.gt)
      weights with
  | .ok _ => throw "called Result::unwrap_err() on an Ok value"
  | .error chosenIndex =>
    match lr.proposers[chosenIndex]? with
    | some proposer => pure proposer
    | none => throw "index out of bounds"

/-! ### What the draw returns -/

/-- Weights whose total fits in `u64` accumulate into their running sums. -/
theorem accumulateWeights_of_lt :
    ∀ (weights : List Nat) (total : Nat), total + weights.sum < U64.size →
      accumulateWeights weights total =
        .ok (WeightedChoice.runningSums weights total, total + weights.sum)
  | [], total, _ => by simp [accumulateWeights, WeightedChoice.runningSums]
  | w :: weights, total, h => by
    rw [List.sum_cons] at h
    rw [accumulateWeights, U64.add_of_lt (by omega)]
    simp only [bind, Except.bind]
    rw [accumulateWeights_of_lt weights (total + w) (by omega)]
    simp [WeightedChoice.runningSums, pure, Except.pure, Nat.add_assoc]

/-- Weights whose total passes `u64::MAX` make the running total overflow. -/
theorem accumulateWeights_of_le :
    ∀ (weights : List Nat) (total : Nat), total < U64.size → U64.size ≤ total + weights.sum →
      accumulateWeights weights total = .error "attempt to add with overflow"
  | [], total, hlt, hle => absurd hle (by simpa using hlt)
  | w :: weights, total, hlt, hle => by
    rw [List.sum_cons] at hle
    rw [accumulateWeights]
    by_cases hw : total + w < U64.size
    · rw [U64.add_of_lt hw]
      simp only [bind, Except.bind]
      rw [accumulateWeights_of_le weights (total + w) hw (by omega)]
    · rw [U64.add_of_le (by omega)]
      rfl

/-- A heuristic gives one weight per candidate. -/
theorem length_getWeights {h : ReputationHeuristic} {epoch : Nat} {candidates : List A}
    {history : List (NewBlockEvent A)} {weights : List Nat}
    (hw : h.getWeights epoch candidates history = .ok weights) : weights.length = candidates.length := by
  cases h with
  | activeInactive h =>
    simp only [ReputationHeuristic.getWeights, ActiveInactiveHeuristic.getWeights,
      ExceptCheck.bind_eq_ok, ExceptCheck.pure_eq_ok] at hw
    obtain ⟨_, -, rfl⟩ := hw
    exact List.length_map _
  | proposerAndVoter h =>
    simp only [ReputationHeuristic.getWeights, ProposerAndVoterHeuristic.getWeights,
      ExceptCheck.bind_eq_ok] at hw
    obtain ⟨_, -, hw⟩ := hw
    exact ExceptCheck.length_of_mapM_eq_ok hw

section Draw

variable {lr : LeaderReputation A} {next : Nat → Nat} {round : Nat}

/-- A panic of the heuristic is a panic of the draw. -/
theorem getValidProposer_of_error {e : String}
    (he : lr.heuristic.getWeights lr.epoch lr.proposers (lr.backend (round - lr.excludeRound)) = .error e) :
    lr.getValidProposer next round = .error e := by
  simp only [getValidProposer, he]
  rfl

variable {weights : List Nat}
  (hw : lr.heuristic.getWeights lr.epoch lr.proposers (lr.backend (round - lr.excludeRound)) = .ok weights)
include hw

/-- Weights that sum to zero panic in the modulo. -/
theorem getValidProposer_of_sum_eq_zero (hzero : weights.sum = 0) :
    lr.getValidProposer next round = .error "attempt to calculate the remainder with a divisor of zero" := by
  have hacc := accumulateWeights_of_lt weights 0 (by simp [hzero, U64.size])
  simp [getValidProposer, hw, ExceptCheck.ok_bind, length_getWeights hw, hacc, hzero]
  rfl

/-- Weights past `u64::MAX` panic in the running total. -/
theorem getValidProposer_of_size_le (hsize : U64.size ≤ weights.sum) :
    lr.getValidProposer next round = .error "attempt to add with overflow" := by
  have hacc := accumulateWeights_of_le weights 0 (by simp [U64.size]) (by simpa using hsize)
  simp [getValidProposer, hw, ExceptCheck.ok_bind, ExceptCheck.error_bind, length_getWeights hw, hacc]

/-- Weights with a positive total that fits in `u64` draw the proposer whose
interval of running sums holds the drawn value modulo the total. -/
theorem getValidProposer_of_pos (hpos : 0 < weights.sum) (hsize : weights.sum < U64.size) :
    ∃ hi : WeightedChoice.pick weights (next round % weights.sum) < lr.proposers.length,
      lr.getValidProposer next round =
        .ok (lr.proposers.get ⟨WeightedChoice.pick weights (next round % weights.sum), hi⟩) := by
  have hlen := length_getWeights hw
  have hacc := accumulateWeights_of_lt weights 0 (by simpa using hsize)
  have hpick : WeightedChoice.pick weights (next round % weights.sum) < weights.length :=
    WeightedChoice.pick_lt_length (Nat.mod_lt _ hpos)
  refine ⟨hlen ▸ hpick, ?_⟩
  simp [getValidProposer, hw, ExceptCheck.ok_bind, hlen, hacc, Nat.pos_iff_ne_zero.mp hpos,
    WeightedChoice.binarySearchBy_runningSums]
  rw [List.getElem?_eq_getElem (hlen ▸ hpick)]
  rfl

end Draw

/-- The draw panics exactly when the heuristic panics, when the weights sum to zero,
or when their sum passes `u64::MAX`. Otherwise it returns the proposer whose
interval of running sums holds the drawn value modulo the total, the only such
one; each candidate is drawn by as many of the residues as its weight, so never
at weight zero. -/
theorem getValidProposer_weighted (lr : LeaderReputation A) (next : Nat → Nat) (round : Nat) :
    (∀ e, lr.heuristic.getWeights lr.epoch lr.proposers (lr.backend (round - lr.excludeRound)) = .error e →
      lr.getValidProposer next round = .error e) ∧
    ∀ weights,
      lr.heuristic.getWeights lr.epoch lr.proposers (lr.backend (round - lr.excludeRound)) = .ok weights →
      (weights.sum = 0 →
        lr.getValidProposer next round = .error "attempt to calculate the remainder with a divisor of zero") ∧
      (U64.size ≤ weights.sum → lr.getValidProposer next round = .error "attempt to add with overflow") ∧
      (0 < weights.sum → weights.sum < U64.size →
        ∃ i, ∃ hi : i < lr.proposers.length,
          lr.getValidProposer next round = .ok (lr.proposers.get ⟨i, hi⟩) ∧
          i = WeightedChoice.pick weights (next round % weights.sum) ∧
          (weights.take i).sum ≤ next round % weights.sum ∧
          next round % weights.sum < (weights.take (i + 1)).sum ∧
          (∀ j < weights.length, (weights.take j).sum ≤ next round % weights.sum →
            next round % weights.sum < (weights.take (j + 1)).sum → j = i) ∧
          ∀ j (hj : j < weights.length),
            ((Finset.range weights.sum).filter fun r => WeightedChoice.pick weights r = j).card =
              weights[j]) := by
  refine ⟨fun e he => getValidProposer_of_error he, fun weights hw =>
    ⟨getValidProposer_of_sum_eq_zero hw, getValidProposer_of_size_le hw, fun hpos hsize => ?_⟩⟩
  obtain ⟨hi, hdraw⟩ := getValidProposer_of_pos hw hpos hsize
  obtain ⟨hlo, hhi⟩ := WeightedChoice.pick_mem_interval (Nat.mod_lt (next round) hpos)
  exact ⟨_, hi, hdraw, rfl, hlo, hhi,
    fun j hj hjlo hjhi => WeightedChoice.pick_eq_of_mem_interval hj hjlo hjhi |>.symm,
    fun j hj => WeightedChoice.card_pick_eq hj⟩

/-- A block of epoch 0 proposed by validator 0, with no votes recorded and a
failed proposal by validator 0. -/
def sampleEvent : NewBlockEvent Nat := ⟨0, 0, [false, false], [0]⟩

/-- The draw panics for two configurations the heuristics accept: an inactive
weight of 0 with nobody in the window, and a failure threshold of `2 ^ 31`
percent, whose `u32` test overflows for a validator with one proposal and one
failure. -/
theorem getValidProposer_panics :
    (LeaderReputation.mk 0 [0, 1] (fun _ => []) (.activeInactive ⟨100, 0, ⟨10, 10⟩⟩) 0).getValidProposer
        (fun _ => 0) 1 = .error "attempt to calculate the remainder with a divisor of zero" ∧
    (LeaderReputation.mk 0 [0, 1] (fun _ => [sampleEvent])
        (.proposerAndVoter ⟨100, 10, 1, 2 ^ 31, ⟨10, 10⟩⟩) 0).getValidProposer
        (fun _ => 0) 1 = .error "attempt to multiply with overflow" :=
  ⟨rfl, rfl⟩

end LeaderReputation

end AptosCore.Consensus
