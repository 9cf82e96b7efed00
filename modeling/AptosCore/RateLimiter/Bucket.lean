import Mathlib

/-!
# Token buckets

`crates/aptos-rate-limiter/src/rate_limit.rs`. A bucket holds up to `size` tokens
and gains `rate` tokens for every whole second since its last refresh; `refill`
moves the refresh time by the whole seconds it paid for, so that no fraction of a
second is lost. `acquire_all_tokens` grants a request whole or not at all, and on
a refusal says when the request will pass: `time_of_tokens_needed` waits for the
missing tokens, at `rate` a second, in whole seconds counted by a float division
whose ceiling is cast to `u32`.

Times are `Instant`s as nanoseconds. Token counts are `usize`: every sum the code
saturates is capped at `size` right after, so the capped sum of naturals is the
same number. The wait hint is modelled with the exact ceiling of the quotient; the
float computation agrees with it below 2^53, where both conversions are exact and
the rounded quotient cannot cross an integer. The cast to `u32` saturates, and this
is where a hint can be too early (`bucket_wait_hint_early`).
-/

namespace AptosCore.RateLimiter

/-- `ONE_SEC`, in nanoseconds. -/
def oneSec : ℕ := 1000000000

/-- `u32::MAX`. -/
def u32Max : ℕ := 2 ^ 32 - 1

/-- `(a as f64 / b as f64).ceil() as u32`: the ceiling of the quotient, saturated at
`u32::MAX`. Dividing by zero gives infinity, which saturates too, or NaN for `0 / 0`,
which casts to zero. -/
def ceilDivAsU32 (a b : ℕ) : ℕ :=
  if b = 0 then (if a = 0 then 0 else u32Max) else min ((a + b - 1) / b) u32Max

/-- Unsaturated, the cast is the ceiling of the quotient. -/
theorem ceilDivAsU32_of_le {a b : ℕ} (hb : 0 < b) (h : (a + b - 1) / b ≤ u32Max) :
    ceilDivAsU32 a b = (a + b - 1) / b := by
  rw [ceilDivAsU32, if_neg (Nat.pos_iff_ne_zero.mp hb), Nat.min_eq_left h]

/-- `b` times the ceiling of `a / b` covers `a`... -/
theorem le_ceil_mul (a : ℕ) {b : ℕ} (hb : 0 < b) : a ≤ (a + b - 1) / b * b := by
  have hdiv := Nat.div_add_mod (a + b - 1) b
  have hmod := Nat.mod_lt (a + b - 1) hb
  rw [Nat.mul_comm] at hdiv
  omega

/-- ...and `b` times one less does not. -/
theorem pred_ceil_mul_lt {a b : ℕ} (ha : 0 < a) (hb : 0 < b) : ((a + b - 1) / b - 1) * b < a := by
  have hle := Nat.div_mul_le_self (a + b - 1) b
  rw [Nat.sub_mul, Nat.one_mul]
  omega

/-- Below `size <= rate * u32::MAX` the cast never saturates for what a bucket can miss. -/
theorem ceil_le_u32Max {a b size : ℕ} (hb : 0 < b) (ha : a ≤ size) (hsize : size ≤ b * u32Max) :
    (a + b - 1) / b ≤ u32Max := by
  rw [Nat.div_le_iff_le_mul_add_pred hb]
  have : a ≤ u32Max * b := by rw [Nat.mul_comm]; exact ha.trans hsize
  omega

/-- `Bucket`, without its labels and the counters it only logs. -/
structure Bucket where
  tokens : ℕ
  size : ℕ
  rate : ℕ
  lastRefreshTime : ℕ
  enabled : Bool
  deriving DecidableEq, Repr

namespace Bucket

/-- `Bucket::new` at time `now`. -/
def new (initial size rate now : ℕ) : Except String Bucket :=
  if rate ≤ size then .ok ⟨initial, size, rate, now, true⟩
  else .error "Bucket size must be greater than or equal to fill rate"

/-- `add_tokens`. -/
def addTokens (b : Bucket) (newTokens : ℕ) : Bucket :=
  { b with tokens := min b.size (b.tokens + newTokens) }

/-- `refill` at time `now`. -/
def refill (b : Bucket) (now : ℕ) : Bucket :=
  let numIntervals := (now - b.lastRefreshTime) / oneSec
  if 0 < numIntervals then
    { b.addTokens (numIntervals * b.rate) with
      lastRefreshTime := b.lastRefreshTime + numIntervals * oneSec }
  else b

/-- `deduct_tokens`: the bucket after it, and the tokens it allowed. -/
def deductTokens (b : Bucket) (requested : ℕ) : Bucket × ℕ :=
  ({ b with tokens := b.tokens - requested }, min b.tokens requested)

/-- `time_of_next_refill`. -/
def timeOfNextRefill (b : Bucket) : ℕ := b.lastRefreshTime + oneSec

/-- `time_of_tokens_needed` at time `now`. -/
def timeOfTokensNeeded (b : Bucket) (requested now : ℕ) : Option ℕ :=
  if !b.enabled then some now
  else if b.size < requested then none
  else some (b.lastRefreshTime + oneSec * ceilDivAsU32 (requested - b.tokens) b.rate)

/-- `acquire_all_tokens` at time `now`. -/
def acquireAllTokens (b : Bucket) (requested now : ℕ) : Bucket × Except (Option ℕ) Unit :=
  if !b.enabled || requested == 0 then (b, .ok ())
  else
    let b := b.refill now
    if requested ≤ b.tokens then ((b.deductTokens requested).1, .ok ())
    else (b, .error (b.timeOfTokensNeeded requested now))

/-- `acquire_tokens` at time `now`. -/
def acquireTokens (b : Bucket) (requested now : ℕ) : Bucket × Except ℕ ℕ :=
  if !b.enabled || requested == 0 then (b, .ok requested)
  else
    let b := (b.refill now).deductTokens requested
    if 0 < b.2 then (b.1, .ok b.2) else (b.1, .error b.1.timeOfNextRefill)

/-- `return_tokens`. -/
def returnTokens (b : Bucket) (newTokens : ℕ) : Bucket := b.addTokens newTokens

/-! ## What each operation does -/

variable (b : Bucket)

@[simp] theorem size_addTokens (n : ℕ) : (b.addTokens n).size = b.size := rfl
@[simp] theorem rate_addTokens (n : ℕ) : (b.addTokens n).rate = b.rate := rfl
@[simp] theorem enabled_addTokens (n : ℕ) : (b.addTokens n).enabled = b.enabled := rfl
@[simp] theorem lastRefreshTime_addTokens (n : ℕ) :
    (b.addTokens n).lastRefreshTime = b.lastRefreshTime := rfl
@[simp] theorem tokens_addTokens (n : ℕ) : (b.addTokens n).tokens = min b.size (b.tokens + n) := rfl

@[simp] theorem size_deductTokens (n : ℕ) : (b.deductTokens n).1.size = b.size := rfl
@[simp] theorem rate_deductTokens (n : ℕ) : (b.deductTokens n).1.rate = b.rate := rfl
@[simp] theorem enabled_deductTokens (n : ℕ) : (b.deductTokens n).1.enabled = b.enabled := rfl
@[simp] theorem lastRefreshTime_deductTokens (n : ℕ) :
    (b.deductTokens n).1.lastRefreshTime = b.lastRefreshTime := rfl
@[simp] theorem tokens_deductTokens (n : ℕ) : (b.deductTokens n).1.tokens = b.tokens - n := rfl
@[simp] theorem snd_deductTokens (n : ℕ) : (b.deductTokens n).2 = min b.tokens n := rfl

@[simp] theorem size_refill (now : ℕ) : (b.refill now).size = b.size := by
  unfold refill
  dsimp only
  split_ifs <;> rfl

@[simp] theorem rate_refill (now : ℕ) : (b.refill now).rate = b.rate := by
  unfold refill
  dsimp only
  split_ifs <;> rfl

@[simp] theorem enabled_refill (now : ℕ) : (b.refill now).enabled = b.enabled := by
  unfold refill
  dsimp only
  split_ifs <;> rfl

/-- `refill` moves the refresh time by the whole seconds since it. -/
theorem lastRefreshTime_refill (now : ℕ) :
    (b.refill now).lastRefreshTime =
      b.lastRefreshTime + (now - b.lastRefreshTime) / oneSec * oneSec := by
  unfold refill
  dsimp only
  split_ifs with h
  · rfl
  · rw [Nat.eq_zero_of_not_pos h, Nat.zero_mul, Nat.add_zero]

/-- The tokens the bucket would hold after a refill at time `t`. -/
def projected (t : ℕ) : ℕ := min b.size (b.tokens + (t - b.lastRefreshTime) / oneSec * b.rate)

/-- `refill` pays `rate` tokens for each of those seconds, up to the size. -/
theorem tokens_refill (h : b.tokens ≤ b.size) (now : ℕ) :
    (b.refill now).tokens = b.projected now := by
  unfold refill projected
  dsimp only
  split_ifs with hn
  · rfl
  · rw [Nat.eq_zero_of_not_pos hn, Nat.zero_mul, Nat.add_zero, Nat.min_eq_right h]

/-- A refill changes nothing of what a later refill would pay: it is based on the
original refresh time, so nothing drifts. -/
theorem projected_refill (h : b.tokens ≤ b.size) {now t : ℕ} (hnow : b.lastRefreshTime ≤ now)
    (ht : now ≤ t) : (b.refill now).projected t = b.projected t := by
  have hnm : (now - b.lastRefreshTime) / oneSec ≤ (t - b.lastRefreshTime) / oneSec :=
    Nat.div_le_div_right (by omega)
  -- the seconds still to be paid at `t` are those from `now` on
  have hrest : (t - (b.lastRefreshTime + (now - b.lastRefreshTime) / oneSec * oneSec)) / oneSec =
      (t - b.lastRefreshTime) / oneSec - (now - b.lastRefreshTime) / oneSec := by
    rw [Nat.sub_add_eq, Nat.mul_comm ((now - b.lastRefreshTime) / oneSec) oneSec, Nat.sub_mul_div]
  rw [projected, tokens_refill b h, lastRefreshTime_refill, size_refill, rate_refill, hrest]
  unfold projected
  generalize (now - b.lastRefreshTime) / oneSec = n at hnm ⊢
  generalize (t - b.lastRefreshTime) / oneSec = m at hnm ⊢
  have hrate : n * b.rate + (m - n) * b.rate = m * b.rate := by
    rw [← Nat.add_mul, Nat.add_sub_cancel' hnm]
  rw [← hrate, ← Nat.add_assoc]
  generalize n * b.rate = x
  generalize (m - n) * b.rate = y
  omega

/-- `acquire_all_tokens` on an enabled bucket asking for tokens: it refills, and takes all
the tokens asked for or none. -/
theorem acquireAllTokens_of_pos (hen : b.enabled = true) {requested : ℕ} (hr : 0 < requested)
    (now : ℕ) :
    b.acquireAllTokens requested now =
      if requested ≤ (b.refill now).tokens then (((b.refill now).deductTokens requested).1, .ok ())
      else (b.refill now, .error ((b.refill now).timeOfTokensNeeded requested now)) := by
  have hcond : (!b.enabled || requested == 0) = false := by
    rw [hen, Bool.not_true, Bool.false_or, beq_eq_false_iff_ne]
    exact Nat.pos_iff_ne_zero.mp hr
  rw [acquireAllTokens, if_neg (by rw [hcond]; exact Bool.false_ne_true)]

/-- `acquire_tokens` on an enabled bucket asking for tokens: it refills and deducts. -/
theorem acquireTokens_of_pos (hen : b.enabled = true) {requested : ℕ} (hr : 0 < requested)
    (now : ℕ) :
    b.acquireTokens requested now =
      if 0 < ((b.refill now).deductTokens requested).2 then
        (((b.refill now).deductTokens requested).1, .ok ((b.refill now).deductTokens requested).2)
      else (((b.refill now).deductTokens requested).1,
        .error ((b.refill now).deductTokens requested).1.timeOfNextRefill) := by
  have hcond : (!b.enabled || requested == 0) = false := by
    rw [hen, Bool.not_true, Bool.false_or, beq_eq_false_iff_ne]
    exact Nat.pos_iff_ne_zero.mp hr
  rw [acquireTokens, if_neg (by rw [hcond]; exact Bool.false_ne_true)]

/-- A request of no tokens changes nothing. -/
theorem acquireAllTokens_zero (now : ℕ) : b.acquireAllTokens 0 now = (b, .ok ()) := by
  simp [acquireAllTokens]

theorem acquireTokens_zero (now : ℕ) : b.acquireTokens 0 now = (b, .ok 0) := by
  simp [acquireTokens]

/-- The wait hint of an enabled bucket, for a request it can hold. -/
theorem timeOfTokensNeeded_of_le (hen : b.enabled = true) {requested : ℕ}
    (hr : requested ≤ b.size) (now : ℕ) :
    b.timeOfTokensNeeded requested now =
      some (b.lastRefreshTime + oneSec * ceilDivAsU32 (requested - b.tokens) b.rate) := by
  rw [timeOfTokensNeeded, if_neg (by rw [hen]; decide), if_neg (Nat.not_lt.mpr hr)]

theorem timeOfTokensNeeded_of_lt (hen : b.enabled = true) {requested : ℕ}
    (hr : b.size < requested) (now : ℕ) : b.timeOfTokensNeeded requested now = none := by
  rw [timeOfTokensNeeded, if_neg (by rw [hen]; decide), if_pos hr]

end Bucket

/-! ## Runs of calls -/

/-- A call on a bucket, with the time it is made at. -/
inductive Call
  | acquireTokens (requested now : ℕ)
  | acquireAllTokens (requested now : ℕ)
  | returnTokens (newTokens now : ℕ)
  deriving DecidableEq, Repr

namespace Call

/-- The time a call is made at. -/
def time : Call → ℕ
  | acquireTokens _ now => now
  | acquireAllTokens _ now => now
  | returnTokens _ now => now

/-- One call: the bucket after it, the tokens it granted and the tokens it gave back. -/
def apply : Call → Bucket → Bucket × ℕ × ℕ
  | acquireTokens requested now, b =>
    let r := b.acquireTokens requested now
    (r.1, (match r.2 with | .ok allowed => allowed | .error _ => 0), 0)
  | acquireAllTokens requested now, b =>
    let r := b.acquireAllTokens requested now
    (r.1, (match r.2 with | .ok () => requested | .error _ => 0), 0)
  | returnTokens newTokens _, b => (b.returnTokens newTokens, 0, newTokens)

end Call

/-- A call in a run, adding what it granted and what it gave back to the run's totals. -/
def step (s : Bucket × ℕ × ℕ) (call : Call) : Bucket × ℕ × ℕ :=
  ((call.apply s.1).1, s.2.1 + (call.apply s.1).2.1, s.2.2 + (call.apply s.1).2.2)

/-- A run of calls from a bucket: the bucket after them, and the tokens they granted and
gave back in all. -/
def run (calls : List Call) (b : Bucket) : Bucket × ℕ × ℕ := calls.foldl step (b, 0, 0)


theorem size_rate_apply (call : Call) (b : Bucket) :
    (call.apply b).1.size = b.size ∧ (call.apply b).1.rate = b.rate := by
  cases call with
  | acquireTokens requested now =>
    simp only [Call.apply, Bucket.acquireTokens]
    split_ifs <;> simp
  | acquireAllTokens requested now =>
    simp only [Call.apply, Bucket.acquireAllTokens]
    split_ifs <;> simp
  | returnTokens n now => exact ⟨rfl, rfl⟩

/-- No call changes the size or the rate of a bucket. -/
theorem size_rate_foldl_step :
    ∀ (calls : List Call) (s : Bucket × ℕ × ℕ),
      (calls.foldl step s).1.size = s.1.size ∧ (calls.foldl step s).1.rate = s.1.rate
  | [], _ => ⟨rfl, rfl⟩
  | call :: calls, s => by
    obtain ⟨h₁, h₂⟩ := size_rate_foldl_step calls (step s call)
    obtain ⟨h₃, h₄⟩ := size_rate_apply call s.1
    exact ⟨h₁.trans h₃, h₂.trans h₄⟩

/-- What holds of a bucket made by `Bucket::new` at time `c` with `initial` tokens, after
calls up to time `clock` that granted `s.2.1` tokens and gave `s.2.2` back. -/
structure Inv (c initial : ℕ) (s : Bucket × ℕ × ℕ) (clock : ℕ) : Prop where
  enabled : s.1.enabled = true
  tokens_le : s.1.tokens ≤ s.1.size
  refresh_ge : c ≤ s.1.lastRefreshTime
  refresh_whole : (s.1.lastRefreshTime - c) % oneSec = 0
  refresh_le : s.1.lastRefreshTime ≤ clock
  /-- what is held and what was granted was held at the start, paid for by whole seconds
  since, or given back -/
  budget : s.1.tokens + s.2.1 ≤ initial + s.1.rate * ((s.1.lastRefreshTime - c) / oneSec) + s.2.2

namespace Inv

variable {c initial : ℕ} {b : Bucket} {granted returned clock : ℕ}

theorem new {initial size rate c : ℕ} (hinit : initial ≤ size) :
    Inv c initial (⟨initial, size, rate, c, true⟩, 0, 0) c where
  enabled := rfl
  tokens_le := hinit
  refresh_ge := le_rfl
  refresh_whole := by simp
  refresh_le := le_rfl
  budget := by simp

theorem mono {s : Bucket × ℕ × ℕ} {clock' : ℕ} (h : Inv c initial s clock) (hle : clock ≤ clock') :
    Inv c initial s clock' :=
  { h with refresh_le := h.refresh_le.trans hle }

theorem refill (h : Inv c initial (b, granted, returned) clock) {now : ℕ} (hnow : clock ≤ now) :
    Inv c initial (b.refill now, granted, returned) now := by
  have hL : b.lastRefreshTime ≤ now := h.refresh_le.trans hnow
  have hc : c ≤ b.lastRefreshTime := h.refresh_ge
  have hpaid := Nat.div_mul_le_self (now - b.lastRefreshTime) oneSec
  have hsec : 0 < oneSec := by decide
  -- the refresh time moves by whole seconds, each paying `rate` tokens
  have hk : (b.lastRefreshTime + (now - b.lastRefreshTime) / oneSec * oneSec - c) / oneSec =
      (b.lastRefreshTime - c) / oneSec + (now - b.lastRefreshTime) / oneSec := by
    rw [Nat.sub_add_comm hc, Nat.add_mul_div_right _ _ hsec]
  have htokens : (b.refill now).tokens ≤ b.tokens + (now - b.lastRefreshTime) / oneSec * b.rate := by
    rw [Bucket.tokens_refill b h.tokens_le, Bucket.projected]
    exact Nat.min_le_right _ _
  refine ⟨?_, ?_, ?_, ?_, ?_, ?_⟩
  · rw [Bucket.enabled_refill]
    exact h.enabled
  · rw [Bucket.tokens_refill b h.tokens_le, Bucket.size_refill, Bucket.projected]
    exact Nat.min_le_left _ _
  · rw [Bucket.lastRefreshTime_refill]
    omega
  · rw [Bucket.lastRefreshTime_refill, Nat.sub_add_comm hc, Nat.add_mul_mod_self_right]
    exact h.refresh_whole
  · rw [Bucket.lastRefreshTime_refill]
    omega
  · have hb := h.budget
    dsimp only at hb ⊢
    rw [Bucket.lastRefreshTime_refill, hk, Bucket.rate_refill, Nat.mul_add, Nat.mul_comm b.rate
      ((now - b.lastRefreshTime) / oneSec)]
    omega

theorem deduct (h : Inv c initial (b, granted, returned) clock) (requested : ℕ) :
    Inv c initial ((b.deductTokens requested).1, granted + (b.deductTokens requested).2, returned)
      clock := by
  have hb := h.budget
  refine ⟨h.enabled, ?_, h.refresh_ge, h.refresh_whole, h.refresh_le, ?_⟩
  · exact (Nat.sub_le _ _).trans h.tokens_le
  · dsimp only at hb ⊢
    rw [Bucket.tokens_deductTokens, Bucket.snd_deductTokens, Bucket.rate_deductTokens, Bucket.lastRefreshTime_deductTokens]
    omega

theorem addTokens (h : Inv c initial (b, granted, returned) clock) (n : ℕ) :
    Inv c initial (b.addTokens n, granted, returned + n) clock := by
  have hb := h.budget
  refine ⟨h.enabled, ?_, h.refresh_ge, h.refresh_whole, h.refresh_le, ?_⟩
  · exact Nat.min_le_left _ _
  · dsimp only at hb ⊢
    rw [Bucket.tokens_addTokens, Bucket.rate_addTokens, Bucket.lastRefreshTime_addTokens]
    omega

/-- Every call keeps the invariant, made at its time. -/
theorem step (h : Inv c initial (b, granted, returned) clock) (call : Call)
    (hle : clock ≤ call.time) : Inv c initial (step (b, granted, returned) call) call.time := by
  cases call with
  | acquireTokens requested now =>
    dsimp only [Call.time] at hle ⊢
    rcases Nat.eq_zero_or_pos requested with rfl | hr
    · simpa [RateLimiter.step, Call.apply, Bucket.acquireTokens_zero] using h.mono hle
    · have h' := (h.refill hle).deduct requested
      simp only [RateLimiter.step, Call.apply, Bucket.acquireTokens_of_pos b h.enabled hr]
      split_ifs with hpos
      · exact h'
      · rw [Nat.eq_zero_of_not_pos hpos] at h'
        exact h'
  | acquireAllTokens requested now =>
    dsimp only [Call.time] at hle ⊢
    rcases Nat.eq_zero_or_pos requested with rfl | hr
    · simpa [RateLimiter.step, Call.apply, Bucket.acquireAllTokens_zero] using h.mono hle
    · simp only [RateLimiter.step, Call.apply, Bucket.acquireAllTokens_of_pos b h.enabled hr]
      split_ifs with henough
      · have h' := (h.refill hle).deduct requested
        rw [Bucket.snd_deductTokens, Nat.min_eq_right henough] at h'
        exact h'
      · exact h.refill hle
  | returnTokens n now =>
    dsimp only [Call.time] at hle ⊢
    exact (h.addTokens n).mono hle

/-- Every run of calls at times that do not go back keeps the invariant. -/
theorem run :
    ∀ (calls : List Call) (s : Bucket × ℕ × ℕ) (clock : ℕ), Inv c initial s clock →
      (clock :: calls.map Call.time).Pairwise (· ≤ ·) →
      ∀ t, clock ≤ t → (∀ call ∈ calls, call.time ≤ t) →
        Inv c initial (calls.foldl RateLimiter.step s) t
  | [], _, _, h, _, t, ht, _ => h.mono ht
  | call :: calls, s, clock, h, hp, t, _, hcalls => by
    rw [List.map_cons, List.pairwise_cons] at hp
    have h' := h.step call (hp.1 _ List.mem_cons_self)
    exact run calls _ call.time h' hp.2 t (hcalls call List.mem_cons_self)
      fun x hx => hcalls x (List.mem_cons_of_mem _ hx)

/-- `acquire_all_tokens` takes all the tokens asked for or none: what the bucket holds after
it, with what it granted, is what it held after the refill. It answers `Err(None)` exactly
for a request larger than the bucket. -/
theorem acquireAllTokens_all_or_none (h : Inv c initial (b, granted, returned) clock)
    (requested now : ℕ) :
    (((Call.acquireAllTokens requested now).apply b).2.1 = requested ∨
        ((Call.acquireAllTokens requested now).apply b).2.1 = 0) ∧
      ((Call.acquireAllTokens requested now).apply b).1.tokens +
          ((Call.acquireAllTokens requested now).apply b).2.1 =
        (if requested = 0 then b.tokens else b.projected now) ∧
      ((b.acquireAllTokens requested now).2 = .error none ↔ b.size < requested) := by
  rcases Nat.eq_zero_or_pos requested with rfl | hr
  · simp [Call.apply, Bucket.acquireAllTokens_zero]
  · have hrefill := Bucket.tokens_refill b h.tokens_le now
    simp only [Call.apply, Bucket.acquireAllTokens_of_pos b h.enabled hr, if_neg hr.ne']
    split_ifs with henough
    · refine ⟨.inl rfl, ?_, ?_⟩
      · rw [Bucket.tokens_deductTokens, Nat.sub_add_cancel henough, hrefill]
      · have : ¬ b.size < requested := by
          rw [hrefill, Bucket.projected] at henough
          exact Nat.not_lt.mpr (henough.trans (Nat.min_le_left _ _))
        simp [this]
    · refine ⟨.inr rfl, by rw [hrefill, Nat.add_zero], ?_⟩
      have hen : (b.refill now).enabled = true := by rw [Bucket.enabled_refill]; exact h.enabled
      by_cases hsize : b.size < requested
      · rw [Bucket.timeOfTokensNeeded_of_lt _ hen (by rwa [Bucket.size_refill]) now]
        simp [hsize]
      · rw [Bucket.timeOfTokensNeeded_of_le _ hen
          (by rw [Bucket.size_refill]; exact Nat.not_lt.mp hsize) now]
        simp [hsize]

/-- A call that grants nothing, made by time `t`, does not lower what a refill at `t` would
give, and raises it by at most what it gives back. -/
theorem projected_step (h : Inv c initial (b, granted, returned) clock) (call : Call)
    (hle : clock ≤ call.time) {t : ℕ} (ht : call.time ≤ t) (hzero : (call.apply b).2.1 = 0) :
    b.projected t ≤ (call.apply b).1.projected t ∧
      (call.apply b).1.projected t ≤ b.projected t + (call.apply b).2.2 := by
  have hL : b.lastRefreshTime ≤ call.time := h.refresh_le.trans hle
  cases call with
  | acquireTokens requested now =>
    dsimp only [Call.time] at hL ht
    rcases Nat.eq_zero_or_pos requested with rfl | hr
    · simp [Call.apply, Bucket.acquireTokens_zero]
    · have hsame := Bucket.projected_refill b h.tokens_le hL ht
      simp only [Call.apply, Bucket.acquireTokens_of_pos b h.enabled hr] at hzero ⊢
      split_ifs at hzero ⊢ with hpos
      · exact absurd hzero hpos.ne'
      · -- nothing was there to deduct, so the bucket is the refilled one
        have hempty : (b.refill now).tokens = 0 := by
          rw [Bucket.snd_deductTokens] at hpos
          omega
        have hded : ((b.refill now).deductTokens requested).1.projected t =
            (b.refill now).projected t := by
          simp only [Bucket.projected, Bucket.tokens_deductTokens, Bucket.size_deductTokens,
            Bucket.rate_deductTokens, Bucket.lastRefreshTime_deductTokens, hempty, Nat.zero_sub]
        rw [hded, hsame]
        omega
  | acquireAllTokens requested now =>
    dsimp only [Call.time] at hL ht
    rcases Nat.eq_zero_or_pos requested with rfl | hr
    · simp [Call.apply, Bucket.acquireAllTokens_zero]
    · have hsame := Bucket.projected_refill b h.tokens_le hL ht
      simp only [Call.apply, Bucket.acquireAllTokens_of_pos b h.enabled hr] at hzero ⊢
      split_ifs at hzero ⊢ with henough
      · exact absurd hzero hr.ne'
      · rw [hsame]
        omega
  | returnTokens n now =>
    simp only [Call.apply, Bucket.returnTokens, Bucket.projected, Bucket.tokens_addTokens,
      Bucket.size_addTokens, Bucket.rate_addTokens, Bucket.lastRefreshTime_addTokens]
    generalize (t - b.lastRefreshTime) / oneSec * b.rate = x
    omega

theorem le_foldl_step :
    ∀ (calls : List Call) (s : Bucket × ℕ × ℕ),
      s.2.1 ≤ (calls.foldl RateLimiter.step s).2.1 ∧ s.2.2 ≤ (calls.foldl RateLimiter.step s).2.2
  | [], _ => ⟨le_rfl, le_rfl⟩
  | call :: calls, s => by
    obtain ⟨h₁, h₂⟩ := le_foldl_step calls (RateLimiter.step s call)
    exact ⟨(Nat.le_add_right _ _).trans h₁, (Nat.le_add_right _ _).trans h₂⟩

/-- Calls that grant nothing, all by time `t`, do not lower what a refill at `t` would give,
and raise it by at most what they give back. -/
theorem projected_run :
    ∀ (calls : List Call) (b : Bucket) (granted returned clock : ℕ),
      Inv c initial (b, granted, returned) clock →
      (clock :: calls.map Call.time).Pairwise (· ≤ ·) →
      ∀ t, clock ≤ t → (∀ call ∈ calls, call.time ≤ t) →
      (calls.foldl RateLimiter.step (b, granted, returned)).2.1 = granted →
      b.projected t ≤ (calls.foldl RateLimiter.step (b, granted, returned)).1.projected t ∧
        (calls.foldl RateLimiter.step (b, granted, returned)).1.projected t ≤
          b.projected t + ((calls.foldl RateLimiter.step (b, granted, returned)).2.2 - returned)
  | [], _, _, _, _, _, _, _, _, _, _ => ⟨le_rfl, by simp⟩
  | call :: calls, b, granted, returned, clock, h, hp, t, ht, hcalls, hnone => by
    rw [List.map_cons, List.pairwise_cons] at hp
    have hle : clock ≤ call.time := hp.1 _ List.mem_cons_self
    have hct : call.time ≤ t := hcalls call List.mem_cons_self
    rw [List.foldl_cons] at hnone ⊢
    -- the first call granted nothing, since what the run granted only grows
    have hzero : (call.apply b).2.1 = 0 := by
      have := (le_foldl_step calls (RateLimiter.step (b, granted, returned) call)).1
      simp only [RateLimiter.step] at this hnone
      omega
    have hstep := h.projected_step call hle hct hzero
    have h' := h.step call hle
    have hrest := projected_run calls _ _ _ call.time h' hp.2 t hct
      (fun x hx => hcalls x (List.mem_cons_of_mem _ hx))
      (by simp only [RateLimiter.step] at hnone ⊢; omega)
    have hret := (le_foldl_step calls (RateLimiter.step (b, granted, returned) call)).2
    simp only [RateLimiter.step] at hrest hret ⊢
    constructor
    · exact hstep.1.trans hrest.1
    · omega

/-- A refusal with a time: the request fit the bucket, the refill did not cover it, and the
time is the new refresh time plus the whole seconds the missing tokens take. -/
theorem acquireAllTokens_eq_error_some (h : Inv c initial (b, granted, returned) clock)
    {requested now T : ℕ} (hres : (b.acquireAllTokens requested now).2 = .error (some T)) :
    0 < requested ∧ requested ≤ b.size ∧ b.projected now < requested ∧
      (b.acquireAllTokens requested now).1 = b.refill now ∧
      T = (b.refill now).lastRefreshTime +
        oneSec * ceilDivAsU32 (requested - b.projected now) b.rate := by
  rcases Nat.eq_zero_or_pos requested with rfl | hr
  · rw [Bucket.acquireAllTokens_zero] at hres
    cases hres
  · have hen : (b.refill now).enabled = true := by rw [Bucket.enabled_refill]; exact h.enabled
    have hacq := Bucket.acquireAllTokens_of_pos b h.enabled hr now
    by_cases henough : requested ≤ (b.refill now).tokens
    · rw [hacq, if_pos henough] at hres
      cases hres
    · rw [hacq, if_neg henough] at hres
      rw [hacq, if_neg henough]
      rw [Bucket.tokens_refill b h.tokens_le] at henough
      by_cases hsize : b.size < requested
      · rw [Bucket.timeOfTokensNeeded_of_lt _ hen (by rwa [Bucket.size_refill])] at hres
        cases hres
      · rw [Bucket.timeOfTokensNeeded_of_le _ hen
          (by rw [Bucket.size_refill]; exact Nat.not_lt.mp hsize),
          Bucket.tokens_refill b h.tokens_le, Bucket.rate_refill] at hres
        cases hres
        exact ⟨hr, Nat.not_lt.mp hsize, Nat.not_le.mp henough, rfl, rfl⟩

/-- After a refusal with time `T`, and calls that grant nothing, `acquire_all_tokens` of the
same request passes at any time from `T` on; before `T` it still fails unless tokens were
given back. This needs the wait not to saturate the `u32` cast. -/
theorem acquireAllTokens_after_hint (h : Inv c initial (b, granted, returned) clock)
    (hrate : 0 < b.rate) (hbound : b.size ≤ b.rate * u32Max) {requested t₁ T : ℕ}
    (ht₁ : clock ≤ t₁) (hres : (b.acquireAllTokens requested t₁).2 = .error (some T))
    (calls : List Call) (hp : (t₁ :: calls.map Call.time).Pairwise (· ≤ ·)) (t₂ : ℕ)
    (ht₂ : t₁ ≤ t₂) (hcalls : ∀ call ∈ calls, call.time ≤ t₂)
    (hnone : (calls.foldl RateLimiter.step
      (RateLimiter.step (b, granted, returned) (.acquireAllTokens requested t₁))).2.1 = granted) :
    (T ≤ t₂ → ((calls.foldl RateLimiter.step (RateLimiter.step (b, granted, returned)
        (.acquireAllTokens requested t₁))).1.acquireAllTokens requested t₂).2 = .ok ()) ∧
      (t₂ < T → (calls.foldl RateLimiter.step (RateLimiter.step (b, granted, returned)
          (.acquireAllTokens requested t₁))).2.2 = returned →
        ((calls.foldl RateLimiter.step (RateLimiter.step (b, granted, returned)
          (.acquireAllTokens requested t₁))).1.acquireAllTokens requested t₂).2 ≠ .ok ()) := by
  obtain ⟨hr, hsize, hshort, hb₁, hT⟩ := h.acquireAllTokens_eq_error_some hres
  -- the refused call leaves the refilled bucket and grants nothing
  have hfirst : RateLimiter.step (b, granted, returned) (.acquireAllTokens requested t₁) =
      (b.refill t₁, granted, returned) := by
    simp only [RateLimiter.step, Call.apply, hres, hb₁, Nat.add_zero]
  rw [hfirst] at hnone ⊢
  have h₁ : Inv c initial (b.refill t₁, granted, returned) t₁ := h.refill ht₁
  have hend := h₁.run calls _ t₁ hp t₂ ht₂ hcalls
  obtain ⟨hlow, hhigh⟩ := Inv.projected_run calls _ _ _ t₁ h₁ hp t₂ ht₂ hcalls hnone
  have hret := (Inv.le_foldl_step calls (b.refill t₁, granted, returned)).2
  -- the final call is a refill and a check against what it holds
  have hfinal := Bucket.acquireAllTokens_of_pos _ hend.enabled hr t₂
  rw [Bucket.tokens_refill _ hend.tokens_le] at hfinal
  -- the wait, in whole seconds, is the ceiling of what was missing over the rate
  have hL₁t : (b.refill t₁).lastRefreshTime ≤ t₁ := h₁.refresh_le
  have hq := ceilDivAsU32_of_le hrate
    (ceil_le_u32Max hrate ((Nat.sub_le requested (b.projected t₁)).trans hsize) hbound)
  rw [hq] at hT
  have hmiss := le_ceil_mul (requested - b.projected t₁) hrate
  have hless := pred_ceil_mul_lt (Nat.sub_pos_of_lt hshort) hrate
  generalize ((requested - b.projected t₁) + b.rate - 1) / b.rate = q at hT hmiss hless
  have hP₁ : (b.refill t₁).projected t₂ = min b.size
      (b.projected t₁ + (t₂ - (b.refill t₁).lastRefreshTime) / oneSec * b.rate) := by
    rw [Bucket.projected, Bucket.tokens_refill b h.tokens_le t₁, Bucket.size_refill,
      Bucket.rate_refill]
  rw [hP₁] at hlow hhigh
  generalize (b.refill t₁).lastRefreshTime = L₁ at hL₁t hT hlow hhigh
  refine ⟨fun hle => ?_, fun hlt hreturned => ?_⟩
  · -- from `T` on, at least `q` whole seconds were paid since the refresh
    have hsec : q ≤ (t₂ - L₁) / oneSec := by
      rw [Nat.le_div_iff_mul_le (by decide), Nat.mul_comm]
      omega
    have hpaid : q * b.rate ≤ (t₂ - L₁) / oneSec * b.rate := Nat.mul_le_mul_right _ hsec
    rw [hfinal, if_pos]
    refine le_trans ?_ hlow
    generalize (t₂ - L₁) / oneSec * b.rate = x at hpaid
    generalize q * b.rate = y at hpaid hmiss
    omega
  · -- before `T`, fewer than `q` whole seconds were paid
    have hsec : (t₂ - L₁) / oneSec ≤ q - 1 := by
      have : (t₂ - L₁) / oneSec < q := by
        rw [Nat.div_lt_iff_lt_mul (by decide)]
        rw [hT] at hlt
        rw [Nat.mul_comm] at hlt
        omega
      omega
    have hpaid : (t₂ - L₁) / oneSec * b.rate ≤ (q - 1) * b.rate := Nat.mul_le_mul_right _ hsec
    rw [hfinal, if_neg]
    · exact fun hok => by cases hok
    · rw [hreturned, Nat.sub_self, Nat.add_zero] at hhigh
      generalize (t₂ - L₁) / oneSec * b.rate = x at hpaid hhigh
      generalize (q - 1) * b.rate = y at hpaid hless
      omega

end Inv

end AptosCore.RateLimiter
