import Mathlib.Order.Lattice
import ThrottleKit.Core.Types

/-!
# Combining decisions

The decision of several limiters together: all must allow, the client sees the tightest ceiling and
remainder and the longest waits. The laws let the decisions be combined in any order.

## Main definitions

* `combineDecisions`, `allowFull`
-/

namespace ThrottleKit

/-- The neutral element of `combineDecisions`, for limiters that are not there. -/
def allowFull : Decision := ⟨true, maxSafeInteger, maxSafeInteger, 0, 0⟩

/-- `combineDecisions(a, b)`. -/
def combineDecisions (a b : Decision) : Decision where
  allowed := a.allowed && b.allowed
  limit := min a.limit b.limit
  remaining := min a.remaining b.remaining
  resetAt := max a.resetAt b.resetAt
  retryAfterMs := max a.retryAfterMs b.retryAfterMs

theorem combineDecisions_comm (a b : Decision) : combineDecisions a b = combineDecisions b a := by
  simp only [combineDecisions, Bool.and_comm, min_comm, max_comm]

theorem combineDecisions_assoc (a b c : Decision) :
    combineDecisions (combineDecisions a b) c = combineDecisions a (combineDecisions b c) := by
  simp only [combineDecisions, Bool.and_assoc, min_assoc, max_assoc]

@[simp] theorem combineDecisions_self (a : Decision) : combineDecisions a a = a := by
  simp [combineDecisions]

/-- `allowFull` is neutral for decisions of whole-number size. -/
theorem combineDecisions_allowFull {d : Decision} (hlimit : d.limit ≤ maxSafeInteger)
    (hremaining : d.remaining ≤ maxSafeInteger) (hresetAt : 0 ≤ d.resetAt)
    (hretry : 0 ≤ d.retryAfterMs) : combineDecisions d allowFull = d := by
  simp [combineDecisions, allowFull, hlimit, hremaining, hresetAt, hretry]

end ThrottleKit
