import Mathlib.Data.Rat.Floor
import Mathlib.Tactic.Common
import ThrottleKit.Lib.Rounding

/-!
# The bid-price filter

A request passes when its value is at least what its resources cost at the bid prices. The prices
may be learned: while a sample window fills, the filter prices with the prior and records what it
sees, then solves the fluid program for the observed mixture and adopts the learned prices if they
earn strictly more on the sample than the prior.

The solver is an option of the model. When it throws, the prior stays.

## Main definitions

* `replaySampleRevenue`, `refineWarmup` — the warm-up
* `gate` — the filter
-/

namespace ThrottleKit.JointLp

open Rounding

/-- Bid prices. -/
structure Duals where
  rate : ℚ
  cost : ℚ
  conc : Option ℚ
deriving DecidableEq

/-- An observed request. -/
structure Arrival where
  cost : ℚ
  value : ℚ
deriving DecidableEq

/-- A request archetype. -/
structure WorkloadType where
  cost : ℚ
  value : ℚ
  weight : ℚ

/-- The two-budget program. -/
structure FluidLpInput where
  types : List WorkloadType
  rateBudget : ℚ
  costBudget : ℚ

/-- How often an archetype was observed. -/
structure Bucket where
  cost : ℚ
  value : ℚ
  count : ℕ

/-- The state of the warm-up. -/
structure AdaptiveState where
  window : ℕ
  perArrivalRate : ℚ
  perArrivalCost : ℚ
  prior : Duals
  /-- The prices in force. -/
  active : Duals
  seen : ℕ
  frozen : Bool
  buf : List Arrival
  /-- In the order of their first observation. -/
  buckets : List Bucket

/-- `MAX_OBSERVED_TYPES`. -/
def maxObservedTypes : ℕ := 64

section

variable [Rounding]

/-- The loop of `replaySampleRevenue`, with what is left of the budgets. -/
def replay (duals : Duals) : List Arrival → ℚ → ℚ → ℚ → ℚ
  | [], _, _, rev => rev
  | a :: buf, rateRem, costRem, rev =>
    if rateRem ≥ 1 ∧ costRem ≥ a.cost ∧ a.value ≥ fl (duals.rate + fl (duals.cost * a.cost)) then
      replay duals buf (fl (rateRem - 1)) (fl (costRem - a.cost)) (fl (rev + a.value))
    else replay duals buf rateRem costRem rev

/-- `replaySampleRevenue(buf, duals, rateBudget, costBudget)`. -/
def replaySampleRevenue (buf : List Arrival) (duals : Duals) (rateBudget costBudget : ℚ) : ℚ :=
  replay duals buf rateBudget costBudget 0

/-- Count an arrival; a new archetype only while there is room. -/
def countArrival (buckets : List Bucket) (cost value : ℚ) : List Bucket :=
  if buckets.any fun b => b.cost = cost ∧ b.value = value then
    buckets.map fun b =>
      if b.cost = cost ∧ b.value = value then { b with count := b.count + 1 } else b
  else if buckets.length < maxObservedTypes then buckets ++ [⟨cost, value, 1⟩]
  else buckets

/-- The prices after the window: the learned ones if they beat the prior on the sample. -/
def choose (solve : FluidLpInput → Except String Duals) (st : AdaptiveState) : Duals :=
  let types := st.buckets.map fun b => ⟨b.cost, b.value, fl (b.count / st.seen)⟩
  match solve ⟨types, st.perArrivalRate, st.perArrivalCost⟩ with
  | .ok learned =>
    let scaledR := fl (st.perArrivalRate * st.buf.length)
    let scaledC := fl (st.perArrivalCost * st.buf.length)
    if replaySampleRevenue st.buf learned scaledR scaledC
        > replaySampleRevenue st.buf st.prior scaledR scaledC then learned
    else st.prior
  | .error _ => st.prior

/-- `refineWarmup(st, value, requestCost)`. -/
def refineWarmup (solve : FluidLpInput → Except String Duals) (st : AdaptiveState)
    (value requestCost : ℚ) : AdaptiveState :=
  let st := { st with
    seen := st.seen + 1
    buf := if st.buf.length < st.window then st.buf ++ [⟨requestCost, value⟩] else st.buf
    buckets := countArrival st.buckets requestCost value }
  if st.seen < st.window then st
  else { st with active := choose solve st, frozen := true, buf := [], buckets := [] }

/-- What a request has to be worth. -/
def bid (active : Duals) (requestCost hold : ℚ) : ℚ :=
  let bid := fl (active.rate + fl (active.cost * requestCost))
  match active.conc with
  | some conc => if hold > 0 then fl (bid + fl (conc * hold)) else bid
  | none => bid

/-- The filter: the warm-up it leaves, and whether the request passes. -/
def gate (solve : FluidLpInput → Except String Duals) (duals : Option Duals)
    (st : Option AdaptiveState) (value requestCost hold : ℚ) : Option AdaptiveState × Bool :=
  match duals with
  | none => (st, true)
  | some duals =>
    match st with
    | none => (none, value ≥ bid duals requestCost hold)
    | some st =>
      let st := if st.frozen then st else refineWarmup solve st value requestCost
      (some st, value ≥ bid st.active requestCost hold)

end

end ThrottleKit.JointLp
