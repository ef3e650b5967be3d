import Mathlib.Algebra.Order.Ring.Rat
import Mathlib.Data.Rat.Floor
import ThrottleKit.Lib.AlignedWindow

/-!
# The core domain model

The values every limiter shares: the decision a check returns, the validation of a cost, and the
namespacing of keys. Numbers of the source are read as exact rationals, instants as epoch
milliseconds.

## Main definitions

* `Decision`, `Forecast`, `ApplyOutcome` — the result of one check, of one forecast, and of one
  transition of a strategy
* `requireCost` — the one validation of a per-request cost
* `prefixer` — how a limiter namespaces its keys
-/

namespace ThrottleKit

/-- The immutable result of one rate-limit check. -/
structure Decision where
  /-- Whether the request is permitted. -/
  allowed : Bool
  /-- Effective ceiling. -/
  limit : ℚ
  /-- Units remaining before the next rejection. -/
  remaining : ℚ
  /-- When the limiter is fully replenished. -/
  resetAt : ℚ
  /-- Milliseconds to wait before retrying. -/
  retryAfterMs : ℚ
deriving DecidableEq

/-- A non-consuming projection of a key's near-future capacity. -/
structure Forecast where
  /-- Whole units of the given cost admissible right now before the next denial. -/
  spendableNow : ℚ
  /-- When capacity next increases by at least one unit. -/
  nextReplenishAt : ℚ
  /-- When the limiter is fully replenished. -/
  fullAt : ℚ
deriving DecidableEq

/-- What a transition computes: the next state, the result for the caller, and whether and how long
the state is kept. -/
structure ApplyOutcome (S R : Type) where
  state : Option S
  result : R
  /-- How long the persisted state lives. -/
  ttlMs : ℚ
  /-- Whether the state must be written. -/
  persist : Bool

/-- `Number.MAX_SAFE_INTEGER`. -/
def maxSafeInteger : ℚ := 9007199254740991

/-- The two ways `requireCost` fails. -/
inductive CostError
  | notPositive (cost : ℚ)
  | tooLarge (cost : ℚ)
deriving DecidableEq

/-- The message of the thrown `RangeError`. -/
def CostError.message : CostError → String
  | .notPositive cost => "cost must be a positive finite number, got " ++ toString cost
  | .tooLarge cost => "cost must be <= " ++ toString maxSafeInteger ++ ", got " ++ toString cost

/-- Validate a per-request `cost`: positive, and no larger than `MAX_SAFE_INTEGER`. -/
def requireCost (cost : ℚ) : Except CostError Unit :=
  if cost ≤ 0 then .error (.notPositive cost)
  else if maxSafeInteger < cost then .error (.tooLarge cost)
  else .ok ()

theorem pos_of_requireCost {cost : ℚ} (h : requireCost cost = .ok ()) : 0 < cost := by
  unfold requireCost at h
  split at h
  · cases h
  · rename_i hpos
    exact not_le.mp hpos

/-- The key a limiter with this `pre`fix uses for `key`. -/
def prefixer (pre : Option String) (key : String) : String :=
  match pre with
  | some p => if p.length > 0 then p ++ ":" ++ key else key
  | none => key

theorem prefixer_some {p : String} (h : 0 < p.length) (key : String) :
    prefixer (some p) key = p ++ ":" ++ key := if_pos h

/-- No two keys of a limiter share a key of its store. -/
theorem prefixer_injective (pre : Option String) : Function.Injective (prefixer pre) := by
  intro key key' h
  cases pre with
  | none => exact h
  | some p =>
    rw [prefixer, prefixer] at h
    split at h
    · exact (String.append_right_inj _).mp h
    · exact h

/-! ### Numbers cut off by a conditional -/

theorem ite_lt_eq_min (x y : ℚ) : (if y < x then y else x) = min y x := by
  split
  · rename_i h
    exact (min_eq_left h.le).symm
  · rename_i h
    exact (min_eq_right (not_lt.mp h)).symm

theorem ite_lt_eq_max (x y : ℚ) : (if x < y then y else x) = max y x := by
  split
  · rename_i h
    exact (max_eq_left h.le).symm
  · rename_i h
    exact (max_eq_right (not_lt.mp h)).symm

/-! ### Sizes the examples use -/

theorem second_pos : (0 : ℚ) < 1000 := by norm_num

theorem one_le_second : (1 : ℚ) ≤ 1000 := by norm_num

theorem unit_pos : (0 : ℚ) < 1 := by norm_num

theorem one_le_unit : (1 : ℚ) ≤ 1 := le_rfl

theorem pair_pos : (0 : ℚ) < 2 := by norm_num

theorem one_le_pair : (1 : ℚ) ≤ 2 := by norm_num

theorem three_pos : (0 : ℚ) < 3 := by norm_num

theorem ten_pos : (0 : ℚ) < 10 := by norm_num

theorem one_le_ten : (1 : ℚ) ≤ 10 := by norm_num

end ThrottleKit
