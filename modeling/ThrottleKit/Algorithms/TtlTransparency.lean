import ThrottleKit.Algorithms.FixedWindow
import ThrottleKit.Algorithms.Gcra
import ThrottleKit.Algorithms.LeakyBucket
import ThrottleKit.Algorithms.Quota
import ThrottleKit.Algorithms.SlidingWindowLog
import ThrottleKit.Algorithms.TokenBucket

/-!
# Expiring stores against keeping ones, for the built-in strategies

Each built-in strategy derives its TTL from a formula of its own. A store that drops entries at
their TTL answers as one that never drops any as long as each state that is written is spent by the
instant at which it is due: the window or the period it counts is over, the arrival time or the
departure has passed, the bucket is full, every tick or stamp has left the window.

On exact rationals every state is spent by then, with one exception: a calendar month before 1 March
of year 0. `civilFromDays` rounds the number of a negative era down and also adjusts for a rounding
towards zero, and the month it then computes may have ended before the instant it is asked for. On
doubles a bucket may compute as less than full at the end of its TTL.

## Main results

* `ttlTransparent_of_lasts` — all strategies, where every written state is spent when it is due
* `ttlTransparent_of_inRange` — on exact rationals, calendar quotas in the range of their calendar
* `not_ttlTransparent` — a monthly quota before that range, and a bucket that is short of full
-/

namespace ThrottleKit

open Rounding

section

variable (fixedWindow : FixedWindow.Config) (slidingWindow : SlidingWindow.Config)
  (slidingWindowLog : SlidingWindowLog.Config) (gcra : Gcra.Config)
  (tokenBucket : TokenBucket.Config) (leakyBucket : LeakyBucket.Config) (quota : Quota.Config)
  (rolling : SlidingWindow.Config)

/-- **No decision of a built-in strategy depends on whether and when an expiring store drops its
state**, whatever the options and the arithmetic, where every state that is written is spent by the
instant at which it is due. -/
theorem ttlTransparent_of_lasts [Rounding] (hcapacity : Unrounded tokenBucket.capacity) :
    TtlTransparent
      (LastsTo (FixedWindow.Left fixedWindow) (FixedWindow.fixedWindow fixedWindow).check)
      (FixedWindow.fixedWindow fixedWindow).check ∧
    TtlTransparent (SlidingWindow.Lasts slidingWindow)
      (SlidingWindow.slidingWindow slidingWindow).check ∧
    TtlTransparent (fun _ now _ => SlidingWindowLog.Lasts slidingWindowLog now)
      (SlidingWindowLog.slidingWindowLog slidingWindowLog).check ∧
    TtlTransparent (LastsTo (· ≤ ·) (Gcra.gcra gcra).check) (Gcra.gcra gcra).check ∧
    TtlTransparent
      (LastsTo (TokenBucket.Full tokenBucket) (TokenBucket.tokenBucket tokenBucket).check)
      (TokenBucket.tokenBucket tokenBucket).check ∧
    TtlTransparent (LastsTo (· ≤ ·) (LeakyBucket.reserve leakyBucket))
      (LeakyBucket.reserve leakyBucket) ∧
    TtlTransparent (LastsTo (Quota.Over quota) (Quota.quota quota).check)
      (Quota.quota quota).check ∧
    TtlTransparent (SlidingWindow.Lasts rolling) (Quota.rolling rolling).check :=
  ⟨FixedWindow.ttlTransparent fixedWindow, SlidingWindow.ttlTransparent slidingWindow,
    SlidingWindowLog.ttlTransparent slidingWindowLog, Gcra.ttlTransparent gcra,
    TokenBucket.ttlTransparent hcapacity, LeakyBucket.ttlTransparent leakyBucket,
    Quota.ttlTransparent quota, Quota.rolling_ttlTransparent rolling⟩

/-- On exact rationals only a calendar out of its range can spoil it. -/
theorem ttlTransparent_of_inRange :
    TtlTransparent (fun _ _ _ => True) (FixedWindow.fixedWindow fixedWindow).check ∧
    TtlTransparent (fun _ _ _ => True) (SlidingWindow.slidingWindow slidingWindow).check ∧
    TtlTransparent (fun _ _ _ => True)
      (SlidingWindowLog.slidingWindowLog slidingWindowLog).check ∧
    TtlTransparent (fun _ _ _ => True) (Gcra.gcra gcra).check ∧
    TtlTransparent (fun _ _ _ => True) (TokenBucket.tokenBucket tokenBucket).check ∧
    TtlTransparent (fun _ _ _ => True) (LeakyBucket.reserve leakyBucket) ∧
    TtlTransparent (fun _ now _ => quota.resetCadence.InRange now) (Quota.quota quota).check ∧
    TtlTransparent (fun _ _ _ => True) (Quota.rolling rolling).check :=
  ⟨(FixedWindow.ttlTransparent fixedWindow).of_imp fun state now cost _ =>
      FixedWindow.lasts fixedWindow state now cost,
    (SlidingWindow.ttlTransparent slidingWindow).of_imp fun state now cost _ =>
      SlidingWindow.lasts slidingWindow state now cost,
    (SlidingWindowLog.ttlTransparent slidingWindowLog).of_imp fun _ now _ _ =>
      SlidingWindowLog.lasts slidingWindowLog now,
    (Gcra.ttlTransparent gcra).of_imp fun state now cost _ => Gcra.lasts gcra state now cost,
    (TokenBucket.ttlTransparent (unrounded_exact _)).of_imp fun state now cost _ =>
      TokenBucket.lasts tokenBucket state now cost,
    (LeakyBucket.ttlTransparent leakyBucket).of_imp fun state now cost _ =>
      LeakyBucket.lasts leakyBucket state now cost,
    (Quota.ttlTransparent quota).of_imp fun state _ cost hrange =>
      Quota.lasts quota state cost hrange,
    (Quota.rolling_ttlTransparent rolling).of_imp fun state now cost _ =>
      SlidingWindow.lasts rolling state now cost⟩

end

/-- Ten tokens, one a second. -/
def TokenBucket.tenAtOne : TokenBucket.Config := ⟨10, 1, ten_pos, unit_pos⟩

instance (cfg : TokenBucket.Config) (state : Option TokenBucket.State) (now cost : ℚ) :
    Decidable (@LastsTo _ _ doubles (@TokenBucket.Full doubles cfg)
      (@TokenBucket.tokenBucket doubles cfg).check state now cost) :=
  @LastsTo.decidable _ _ doubles _ (fun _ _ => inferInstanceAs (Decidable (_ = _))) _ _ _ _

/-- A bucket that is emptied, dropped when it is due and full, and emptied again. -/
theorem ttlTransparent_of_lasts_tenAtOne :
    Expiry.answers
        (@expiring _ _ doubles (@TokenBucket.tokenBucket doubles TokenBucket.tenAtOne).check)
        Expiry.Cells.empty [.call "acme" 0 10, .forget "acme" 10000, .call "acme" 10000 10]
      = Expiry.answers
        (@expiring _ _ doubles (@TokenBucket.tokenBucket doubles TokenBucket.tenAtOne).check)
        Expiry.Cells.empty [.call "acme" 0 10, .call "acme" 10000 10] :=
  (@ttlTransparent_of_lasts ⟨1, 1, one_pos, one_pos⟩ ⟨1, 1, 1, one_pos, one_pos, le_rfl⟩
    ⟨1, 1, one_pos, one_pos⟩ ⟨1, 1, 1, one_pos, one_pos, le_rfl⟩ TokenBucket.tenAtOne
    ⟨1, 1, one_pos, zero_le_one⟩ ⟨1, .fixed 1 0 one_pos, one_pos⟩
    ⟨1, 1, 1, one_pos, one_pos, le_rfl⟩ doubles (by decide +kernel)).2.2.2.2.1
    [.call "acme" 0 10, .forget "acme" 10000, .call "acme" 10000 10] (by decide +kernel)
    (by decide +kernel)

/-- A quota of one a month. -/
def Quota.monthly : Quota.Config where
  limit := 1
  resetCadence := .calendar .month 0 1
  limit_pos := unit_pos

theorem TokenBucket.twentySeven_pos : (0 : ℚ) < 27 := by norm_num

theorem TokenBucket.nine_pos : (0 : ℚ) < 9 := by norm_num

/-- Twenty-seven tokens, nine a second. -/
def TokenBucket.twentySevenAtNine : TokenBucket.Config := ⟨27, 9, twentySeven_pos, nine_pos⟩

/-- Two checks a millisecond apart, 720200 days before the epoch, and a store that drops the state
between them: it admits both, where one that keeps the state denies the second. And a bucket that
is emptied and asked for as much at the end of its TTL: three seconds of nine a second come to
26.999999999999996. -/
theorem not_ttlTransparent :
    (¬ ∀ cfg, @TtlTransparent _ _ doubles (fun _ _ _ => True) (@Quota.quota doubles cfg).check) ∧
    ¬ ∀ cfg, @TtlTransparent _ _ doubles (fun _ _ _ => True)
      (@TokenBucket.tokenBucket doubles cfg).check := by
  constructor
  · intro h
    have hrun := h Quota.monthly
      [.call "acme" (-62225280000000) 1, .forget "acme" (-62225279999999),
        .call "acme" (-62225279999999) 1] (by decide +kernel) (by decide +kernel)
    exact absurd (congrArg (List.map Decision.allowed) hrun) (by decide +kernel)
  · intro h
    have hrun := h TokenBucket.twentySevenAtNine
      [.call "acme" 0 27, .forget "acme" 3000, .call "acme" 3000 27] (by decide +kernel)
      (by decide +kernel)
    exact absurd (congrArg (List.map Decision.allowed) hrun) (by decide +kernel)

end ThrottleKit
