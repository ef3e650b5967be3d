import ThrottleKit.Algorithms.Conformance

/-!
# GCRA is a token bucket

With `capacity = burst` and `refillPerSec = 1000 * limit / period` the two report the same decision
at every check of every history, as long as the clock reads whole milliseconds and does not go back.

The arrival time is the instant at which the bucket is full again. Both limiters round instants and
durations up, GCRA the instant itself and the bucket the duration from `now`: that is where the
whole milliseconds are needed.

## Main definitions

* `bucketOf` — the bucket of a GCRA
* `FullAt` — the arrival time is when the bucket is full

## Main results

* `tokensAt_of_fullAt` — the tokens by the arrival time
* `decision_eq`, `fullAt_served` — one check decides the same and keeps the relation
* `gcra_eq_tokenBucket` — all checks decide the same
-/

namespace ThrottleKit

/-- The token bucket with the burst and the rate of a GCRA. -/
def bucketOf (cfg : Gcra.Config) : TokenBucket.Config where
  capacity := cfg.burst
  refillPerSec := 1000 * cfg.limit / cfg.periodMs
  capacity_pos := one_pos.trans_le cfg.one_le_burst
  refillPerSec_pos := div_pos (mul_pos second_pos cfg.limit_pos) cfg.periodMs_pos

/-- One token drips in per emission interval. -/
theorem refillPerMs_bucketOf (cfg : Gcra.Config) : (bucketOf cfg).refillPerMs = 1 / cfg.T := by
  have hlimit := cfg.limit_pos.ne'
  have hperiod := cfg.periodMs_pos.ne'
  show 1000 * cfg.limit / cfg.periodMs / 1000 = 1 / (cfg.periodMs / cfg.limit)
  field_simp

theorem div_refillPerMs_bucketOf (cfg : Gcra.Config) (x : ℚ) :
    x / (bucketOf cfg).refillPerMs = x * cfg.T := by
  rw [refillPerMs_bucketOf, div_div_eq_mul_div, div_one]

/-- The arrival time is the instant at which the bucket, counted by `now`, is full again. -/
inductive FullAt (cfg : Gcra.Config) (now : ℚ) : Option ℚ → Option TokenBucket.State → Prop
  | none : FullAt cfg now none none
  | some {tokens last : ℚ} (hlast : last ≤ now) :
      FullAt cfg now (some (last + (cfg.burst - tokens) * cfg.T)) (some ⟨tokens, last⟩)

section Step

variable {cfg : Gcra.Config} {now : ℚ} {tat : Option ℚ} {bucket : Option TokenBucket.State}

theorem FullAt.mono {now' : ℚ} (hle : now ≤ now') (h : FullAt cfg now tat bucket) :
    FullAt cfg now' tat bucket := by
  cases h with
  | none => exact .none
  | some hlast => exact .some (hlast.trans hle)

/-- **The tokens by the arrival time.** -/
theorem tokensAt_of_fullAt (h : FullAt cfg now tat bucket) :
    max (tat.getD now) now
      = now + (cfg.burst - TokenBucket.tokensAt (bucketOf cfg) bucket now) * cfg.T := by
  cases h with
  | none =>
    rw [TokenBucket.tokensAt_none, Option.getD_none, max_self]
    show now = now + (cfg.burst - cfg.burst) * cfg.T
    ring
  | @some tokens last hlast =>
    have hT := cfg.T_pos
    have htokens : TokenBucket.tokensAt (bucketOf cfg) (some ⟨tokens, last⟩) now
        = min cfg.burst (tokens + (now - last) / cfg.T) := by
      show min cfg.burst (tokens + max 0 (now - last) * (bucketOf cfg).refillPerMs) = _
      rw [max_eq_right (sub_nonneg.mpr hlast), refillPerMs_bucketOf, mul_one_div]
    rw [htokens, Option.getD_some]
    rcases le_total cfg.burst (tokens + (now - last) / cfg.T) with hfull | hshort
    · have hle : (cfg.burst - tokens) * cfg.T ≤ now - last := by
        rw [← le_div_iff₀ hT]
        linarith
      rw [min_eq_left hfull, max_eq_right (by linarith)]
      ring
    · have hle : now - last ≤ (cfg.burst - tokens) * cfg.T := by
        rw [← div_le_iff₀ hT]
        linarith
      rw [min_eq_right hshort, max_eq_left (by linarith)]
      field_simp
      ring

/-- A whole millisecond and a duration, rounded up. -/
theorem ceil_add_of_wholeMs (hnow : WholeMs now) (x : ℚ) : (⌈now + x⌉ : ℚ) = now + ⌈x⌉ := by
  have hcast : now + x = x + (⌊now⌋ : ℤ) := by rw [hnow, add_comm]
  rw [hcast, Int.ceil_add_intCast, Int.cast_add, hnow, add_comm]

/-- What GCRA measures, by the tokens: the arrival time pushed on for `c` units. -/
theorem pushed_eq {x tokens : ℚ} (hx : x = now + (cfg.burst - tokens) * cfg.T) (c : ℚ) :
    x + cfg.T * c - cfg.tau = now + (c - tokens) * cfg.T ∧
      (cfg.tau - (x + cfg.T * c - now)) / cfg.T = tokens - c := by
  have hT := cfg.T_pos.ne'
  rw [hx, Gcra.Config.tau, Rounding.fl_exact]
  refine ⟨by ring, ?_⟩
  field_simp
  ring

/-- GCRA denies exactly where there are too few tokens. -/
theorem lt_allowAt_iff {tokens cost : ℚ} :
    now < now + (cost - tokens) * cfg.T ↔ ¬ cost ≤ tokens := by
  rw [lt_add_iff_pos_right, mul_pos_iff_of_pos_right cfg.T_pos, sub_pos, not_le]

/-- **One check decides the same.** -/
theorem decision_eq (hnow : WholeMs now) (h : FullAt cfg now tat bucket) (cost : ℚ) :
    (Gcra.check cfg tat now cost).result
      = (TokenBucket.check (bucketOf cfg) bucket now cost).result := by
  have hx := tokensAt_of_fullAt h
  rw [Gcra.check_eq, TokenBucket.check_eq]
  generalize TokenBucket.tokensAt (bucketOf cfg) bucket now = tokens at hx ⊢
  generalize max (tat.getD now) now = x at hx ⊢
  obtain ⟨hallow, hleft⟩ := pushed_eq hx cost
  have hheld : (cfg.tau - (x - now)) / cfg.T = tokens := by
    simpa using (pushed_eq hx 0).2
  rw [hallow, hleft, hheld, div_refillPerMs_bucketOf, div_refillPerMs_bucketOf,
    div_refillPerMs_bucketOf]
  by_cases hfits : cost ≤ tokens
  · have hin : ¬ now < now + (cost - tokens) * cfg.T := fun hlt => lt_allowAt_iff.mp hlt hfits
    have hreset : (⌈x + cfg.T * cost⌉ : ℚ) = now + ⌈(cfg.burst - (tokens - cost)) * cfg.T⌉ := by
      rw [← ceil_add_of_wholeMs hnow, hx]
      congr 2
      ring
    rw [if_neg hin, if_pos hfits, hreset]
    rfl
  · rw [if_pos (lt_allowAt_iff.mpr hfits), if_neg hfits, add_sub_cancel_left, hx,
      ceil_add_of_wholeMs hnow]
    rfl

/-- One check keeps the relation. -/
theorem fullAt_served (h : FullAt cfg now tat bucket) (cost : ℚ) :
    FullAt cfg now (served (Gcra.check cfg) tat ⟨now, cost⟩).1
      (served (TokenBucket.check (bucketOf cfg)) bucket ⟨now, cost⟩).1 := by
  have hx := tokensAt_of_fullAt h
  unfold served
  dsimp only
  rw [Gcra.check_eq, TokenBucket.check_eq]
  generalize TokenBucket.tokensAt (bucketOf cfg) bucket now = tokens at hx ⊢
  generalize max (tat.getD now) now = x at hx ⊢
  rw [(pushed_eq hx cost).1]
  by_cases hfits : cost ≤ tokens
  · have hin : ¬ now < now + (cost - tokens) * cfg.T := fun hlt => lt_allowAt_iff.mp hlt hfits
    rw [if_neg hin, if_pos hfits]
    have hnext : x + cfg.T * cost = now + (cfg.burst - (tokens - cost)) * cfg.T := by
      rw [hx]
      ring
    rw [if_pos rfl, if_pos rfl, hnext]
    exact .some le_rfl
  · rw [if_pos (lt_allowAt_iff.mpr hfits), if_neg hfits]
    exact h

end Step

/-- **All checks decide the same**: `allowed`, `limit`, `remaining`, `resetAt` and
`retryAfterMs`. -/
theorem gcra_eq_tokenBucket (cfg : Gcra.Config) (calls : List Call)
    (hsorted : calls.Pairwise fun call call' => call.now ≤ call'.now)
    (hwhole : ∀ call ∈ calls, WholeMs call.now) :
    Lockstep.answers (served (Gcra.check cfg)) none calls
      = Lockstep.answers (served (TokenBucket.check (bucketOf cfg))) none calls := by
  rw [← List.forall₂_eq_eq_eq]
  refine Lockstep.forall₂_answers_of_start (R := FullAt cfg)
    (fun hle h => h.mono hle) ?_ (fun _ => .none) hsorted
    (Lockstep.allMet_of_forall calls hwhole)
  intro tat bucket call h hnow
  exact ⟨decision_eq hnow h call.cost, fullAt_served h call.cost⟩

/-- Three requests per second, two at once. -/
def threePerSecond : Gcra.Config where
  limit := 3
  periodMs := 1000
  burst := 2
  limit_pos := three_pos
  periodMs_pos := second_pos
  one_le_burst := one_le_pair

/-- The third check is denied for two thirds of an interval, the fourth comes when that is over. -/
theorem gcra_eq_tokenBucket_threePerSecond :
    Lockstep.answers (served (Gcra.check threePerSecond)) none
        [⟨0, 1⟩, ⟨0, 1⟩, ⟨111, 1⟩, ⟨334, 1⟩]
      = Lockstep.answers (served (TokenBucket.check (bucketOf threePerSecond))) none
        [⟨0, 1⟩, ⟨0, 1⟩, ⟨111, 1⟩, ⟨334, 1⟩] :=
  gcra_eq_tokenBucket threePerSecond [⟨0, 1⟩, ⟨0, 1⟩, ⟨111, 1⟩, ⟨334, 1⟩]
    (by decide +kernel) (by decide +kernel)

end ThrottleKit
