import ThrottleKit.Core.Strategy
import ThrottleKit.Lib.Rounding

/-!
# The leaky bucket

A shaper: the state is the instant at which the queue is next empty. A request is told how long to
wait for its turn, and is rejected only when that is longer than the queue may get.

## Main results

* `LeakyBucket.ttlTransparent` — an expired departure decides nothing
-/

namespace ThrottleKit.LeakyBucket

open Rounding

/-- The options of `leakyBucket`, validated. -/
structure Config where
  ratePerSec : ℚ
  maxQueueMs : ℚ
  ratePerSec_pos : 0 < ratePerSec
  maxQueueMs_nonneg : 0 ≤ maxQueueMs

/-- The outcome of reserving a slot. -/
structure Reservation where
  /-- Whether a slot was granted. -/
  accepted : Bool
  /-- How long to wait, or until the queue would have room. -/
  delayMs : ℚ
deriving DecidableEq

/-- Pacing interval (ms per unit). -/
def Config.T [Rounding] (cfg : Config) : ℚ := fl (1000 / cfg.ratePerSec)

/-- The transform of `reserve(key, cost)` at `now`. -/
def reserve [Rounding] (cfg : Config) (state : Option ℚ) (now cost : ℚ) :
    ApplyOutcome ℚ Reservation :=
  let inc := fl (cfg.T * cost)
  let departure := max (state.getD now) now
  let delay := fl (departure - now)
  if cfg.maxQueueMs < delay then
    { state := state
      result := ⟨false, ⌈fl (delay - cfg.maxQueueMs)⌉⟩
      ttlMs := cfg.maxQueueMs
      persist := false }
  else
    { state := some (fl (departure + inc))
      result := ⟨true, ⌈delay⌉⟩
      ttlMs := max 1 ⌈fl (fl (departure + inc) - now)⌉
      persist := true }

/-- The departure a request leaves passes within its TTL. -/
theorem le_of_persist {cfg : Config} {state : Option ℚ} {now cost s t : ℚ}
    (hpersist : (reserve cfg state now cost).persist = true)
    (hstate : (reserve cfg state now cost).state = some s)
    (hdue : now + (reserve cfg state now cost).ttlMs ≤ t) : s ≤ t := by
  simp only [reserve, fl_exact] at hpersist hstate hdue
  split at hpersist
  · cases hpersist
  · rename_i hroom
    rw [if_neg hroom] at hstate hdue
    obtain rfl := Option.some.inj hstate
    have hend := add_le_of_ttl hdue
    linarith

/-- A departure that has passed acts as none. -/
theorem seen_of_le [Rounding] {cfg : Config} {s now : ℚ} (h : s ≤ now) (cost : ℚ) :
    (reserve cfg (some s) now cost).seen = (reserve cfg none now cost).seen := by
  unfold reserve
  dsimp only
  rw [max_getD_of_le h]
  split <;> rfl

/-- **An expired departure decides nothing**, when it has passed by the instant it is due. -/
theorem ttlTransparent [Rounding] (cfg : Config) :
    TtlTransparent (LastsTo (· ≤ ·) (reserve cfg)) (reserve cfg) :=
  ttlTransparent_of_spent (fun hle h => h.trans hle) seen_of_le

/-- On exact rationals it always has. -/
theorem lasts (cfg : Config) (state : Option ℚ) (now cost : ℚ) :
    LastsTo (· ≤ ·) (reserve cfg) state now cost :=
  fun _ hstate hpersist => le_of_persist hpersist hstate le_rfl

end ThrottleKit.LeakyBucket
