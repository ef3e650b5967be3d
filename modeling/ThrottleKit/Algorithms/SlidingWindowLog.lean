import Mathlib.Data.List.TakeWhile
import ThrottleKit.Core.Strategy
import ThrottleKit.Lib.Rounding

/-!
# The sliding window log

The state is the instant of every unit accepted, in ascending order. A check skips those that have
left the trailing window and counts the others; a fractional cost takes whole units.

## Main results

* `SlidingWindowLog.ttlTransparent` — a log whose every stamp has left the window decides nothing
-/

namespace ThrottleKit.SlidingWindowLog

open Rounding

/-- The options of `slidingWindowLog`, validated. -/
structure Config where
  limit : ℚ
  windowMs : ℚ
  limit_pos : 0 < limit
  windowMs_pos : 0 < windowMs

/-- The stamps still in the trailing window: the stale ones are a prefix. -/
def survivors [Rounding] (cfg : Config) (state : Option (List ℚ)) (now : ℚ) : List ℚ :=
  (state.getD []).dropWhile fun stamp => stamp ≤ fl (now - cfg.windowMs)

/-- When a denied check may be retried: once enough of the oldest stamps have left. -/
def retryAfter [Rounding] (cfg : Config) (live : List ℚ) (now : ℚ) (units : ℤ) : ℚ :=
  if live.length = 0 then cfg.windowMs
  else
    let kMin := min (max (fl (fl (live.length + units) - cfg.limit)) 1) live.length
    -- an index that is not whole finds no stamp
    let ref := if kMin.den = 1 then live.getD (kMin.num.toNat - 1) now else now
    max 1 ⌈fl (fl (ref + cfg.windowMs) - now)⌉

/-- `check(state, now, cost)`. -/
def check [Rounding] (cfg : Config) (state : Option (List ℚ)) (now cost : ℚ) :
    ApplyOutcome (List ℚ) Decision :=
  let live := survivors cfg state now
  let units := ⌈cost⌉
  if fl (live.length + units) ≤ cfg.limit then
    let newLog := live ++ List.replicate units.toNat now
    { state := some newLog
      result := ⟨true, cfg.limit, max 0 (fl (cfg.limit - fl (live.length + units))),
        ⌈fl (newLog.headD now + cfg.windowMs)⌉, 0⟩
      ttlMs := cfg.windowMs
      persist := true }
  else
    { state := state
      result := ⟨false, cfg.limit, max 0 (fl (cfg.limit - live.length)),
        ⌈fl (live.headD now + cfg.windowMs)⌉, retryAfter cfg live now units⟩
      ttlMs := cfg.windowMs
      persist := false }

/-- On exact rationals nothing is rounded. -/
theorem check_eq (cfg : Config) (state : Option (List ℚ)) (now cost : ℚ) :
    check cfg state now cost =
      if ((survivors cfg state now).length : ℚ) + ⌈cost⌉ ≤ cfg.limit then
        { state := some (survivors cfg state now ++ List.replicate ⌈cost⌉.toNat now)
          result := ⟨true, cfg.limit,
            max 0 (cfg.limit - ((survivors cfg state now).length + ⌈cost⌉)),
            ⌈(survivors cfg state now ++ List.replicate ⌈cost⌉.toNat now).headD now
              + cfg.windowMs⌉, 0⟩
          ttlMs := cfg.windowMs
          persist := true }
      else
        { state := state
          result := ⟨false, cfg.limit, max 0 (cfg.limit - (survivors cfg state now).length),
            ⌈(survivors cfg state now).headD now + cfg.windowMs⌉,
            retryAfter cfg (survivors cfg state now) now ⌈cost⌉⟩
          ttlMs := cfg.windowMs
          persist := false } :=
  rfl

/-- `slidingWindowLog(options)`. -/
def slidingWindowLog [Rounding] (cfg : Config) : Strategy (List ℚ) where
  name := "slidingWindowLog"
  limit := cfg.limit
  ttlMs := cfg.windowMs
  check := check cfg

/-- `peek(state, now)`. -/
def peek [Rounding] (cfg : Config) (state : Option (List ℚ)) (now : ℚ) : Decision :=
  let live := survivors cfg state now
  let resetAt := ⌈fl (live.headD now + cfg.windowMs)⌉
  let remaining := max 0 (fl (cfg.limit - live.length))
  if fl (live.length + 1) ≤ cfg.limit then ⟨true, cfg.limit, remaining, resetAt, 0⟩
  else ⟨false, cfg.limit, remaining, resetAt, retryAfter cfg live now 1⟩

/-- `forecast(state, now, cost)`. -/
def forecast [Rounding] (cfg : Config) (state : Option (List ℚ)) (now cost : ℚ) : Forecast :=
  let live := survivors cfg state now
  let available := max 0 (fl (cfg.limit - live.length))
  let hasLive := decide (0 < live.length)
  ⟨⌊fl (available / cost)⌋, if hasLive then ⌈fl (live.headD now + cfg.windowMs)⌉ else now,
    if hasLive then ⌈fl (live.getLastD now + cfg.windowMs)⌉ else now⟩

/-- `slidingWindowLog(options)` with its introspection. -/
def introspectable [Rounding] (cfg : Config) : Introspectable (List ℚ) :=
  { slidingWindowLog cfg with peek := peek cfg, forecast := forecast cfg }

/-- The units a cost takes are as many as stamps are kept for it. -/
theorem cast_units {units : ℤ} (h : 0 ≤ units) : (units.toNat : ℚ) = units := by
  rw [← Int.cast_natCast, Int.toNat_of_nonneg h]

theorem survivors_eq_nil [Rounding] {cfg : Config} {log : List ℚ} {now : ℚ}
    (h : ∀ stamp ∈ log, stamp ≤ fl (now - cfg.windowMs)) : survivors cfg (some log) now = [] := by
  rw [survivors, Option.getD_some, List.dropWhile_eq_nil_iff]
  exact fun stamp hstamp => decide_eq_true (h stamp hstamp)

/-- The log a check leaves has no stamp past `now`, when the one it found has none. -/
theorem le_of_persist [Rounding] {cfg : Config} {state : Option (List ℚ)} {now cost : ℚ}
    {log : List ℚ}
    (hlog : ∀ log' ∈ state, ∀ stamp ∈ log', stamp ≤ now)
    (hpersist : (check cfg state now cost).persist = true)
    (hstate : (check cfg state now cost).state = some log) :
    (∀ stamp ∈ log, stamp ≤ now) ∧ (check cfg state now cost).ttlMs = cfg.windowMs := by
  unfold check at hpersist hstate ⊢
  dsimp only at hpersist hstate ⊢
  split at hpersist
  · rename_i hfits
    rw [if_pos hfits] at hstate ⊢
    obtain rfl := Option.some.inj hstate
    refine ⟨fun stamp hstamp => ?_, rfl⟩
    rcases List.mem_append.mp hstamp with hold | hnew
    · have hmem : stamp ∈ state.getD [] := List.dropWhile_subset _ hold
      cases state with
      | none => simp at hmem
      | some log' => exact hlog log' rfl stamp hmem
    · exact (List.eq_of_mem_replicate hnew).le
  · cases hpersist

/-- A log without survivors acts as none. -/
theorem seen_of_survivors_eq_nil [Rounding] {cfg : Config} {log : List ℚ} {now : ℚ}
    (h : survivors cfg (some log) now = []) (cost : ℚ) :
    (check cfg (some log) now cost).seen = (check cfg none now cost).seen := by
  have hnone : survivors cfg none now = [] := rfl
  unfold check
  dsimp only
  rw [h, hnone]
  split <;> rfl

/-- An instant has left the window by the end of its TTL. -/
def Lasts [Rounding] (cfg : Config) (now : ℚ) : Prop :=
  now ≤ fl (fl (now + cfg.windowMs) - cfg.windowMs)

instance [Rounding] (cfg : Config) (now : ℚ) : Decidable (Lasts cfg now) :=
  inferInstanceAs (Decidable (_ ≤ _))

/-- **A log whose every stamp has left the window decides nothing.** -/
theorem ttlTransparent [Rounding] (cfg : Config) :
    TtlTransparent (fun _ now _ => Lasts cfg now) (check cfg) := by
  refine ttlTransparent_of_eq (fun t log => ∀ stamp ∈ log, stamp ≤ t)
    (fun hle h stamp hstamp => (h stamp hstamp).trans hle)
    (fun hlog hpersist hstate => (le_of_persist hlog hpersist hstate).1) ?_
  intro t state cost log hlog hlasts hpersist hstate t' hdue cost'
  obtain ⟨hle, httl⟩ := le_of_persist hlog hpersist hstate
  rw [httl] at hdue
  refine seen_of_survivors_eq_nil (survivors_eq_nil fun stamp hstamp => ?_) cost'
  calc stamp ≤ t := hle stamp hstamp
    _ ≤ fl (fl (t + cfg.windowMs) - cfg.windowMs) := hlasts
    _ ≤ fl (t' - cfg.windowMs) := mono (sub_le_sub_right hdue _)

/-- On exact rationals it always has. -/
theorem lasts (cfg : Config) (now : ℚ) : Lasts cfg now :=
  (add_sub_cancel_right now cfg.windowMs).ge

end ThrottleKit.SlidingWindowLog
