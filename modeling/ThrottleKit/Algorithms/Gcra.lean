import ThrottleKit.Core.Strategy
import ThrottleKit.Lib.Rounding

/-!
# GCRA

The state is a theoretical arrival time: the instant at which the burst is whole again. A check
pushes it on by an emission interval per unit, and is denied when that takes it more than the burst
tolerance past `now`.

## Main results

* `Gcra.ttlTransparent` — an expired arrival time decides nothing
* `Gcra.denialsLast` — a denial holds for its `retryAfterMs`
-/

namespace ThrottleKit.Gcra

open Rounding

/-- The options of `gcra`, validated. -/
structure Config where
  limit : ℚ
  periodMs : ℚ
  burst : ℚ
  limit_pos : 0 < limit
  periodMs_pos : 0 < periodMs
  one_le_burst : 1 ≤ burst

/-- Emission interval (ms per request). -/
def Config.T [Rounding] (cfg : Config) : ℚ := fl (cfg.periodMs / cfg.limit)

/-- Burst tolerance window. -/
def Config.tau [Rounding] (cfg : Config) : ℚ := fl (cfg.T * cfg.burst)

theorem Config.T_pos (cfg : Config) : 0 < cfg.T := div_pos cfg.periodMs_pos cfg.limit_pos

/-- `check(state, now, cost)`. -/
def check [Rounding] (cfg : Config) (state : Option ℚ) (now cost : ℚ) : ApplyOutcome ℚ Decision :=
  let inc := fl (cfg.T * cost)
  let tatEff := max (state.getD now) now
  let newTat := fl (tatEff + inc)
  let allowAt := fl (newTat - cfg.tau)
  if now < allowAt then
    { state := state
      result := ⟨false, cfg.burst, max 0 ⌊fl (fl (cfg.tau - fl (tatEff - now)) / cfg.T)⌋, ⌈tatEff⌉,
        ⌈fl (allowAt - now)⌉⟩
      ttlMs := ⌈cfg.tau⌉
      persist := false }
  else
    { state := some newTat
      result :=
        ⟨true, cfg.burst, max 0 ⌊fl (fl (cfg.tau - fl (newTat - now)) / cfg.T)⌋, ⌈newTat⌉, 0⟩
      ttlMs := max 1 ⌈fl (newTat - now)⌉
      persist := true }

/-- On exact rationals nothing is rounded. -/
theorem check_eq (cfg : Config) (state : Option ℚ) (now cost : ℚ) :
    check cfg state now cost =
      if now < max (state.getD now) now + cfg.T * cost - cfg.tau then
        { state := state
          result := ⟨false, cfg.burst, max 0 ⌊(cfg.tau - (max (state.getD now) now - now)) / cfg.T⌋,
            ⌈max (state.getD now) now⌉, ⌈max (state.getD now) now + cfg.T * cost - cfg.tau - now⌉⟩
          ttlMs := ⌈cfg.tau⌉
          persist := false }
      else
        { state := some (max (state.getD now) now + cfg.T * cost)
          result := ⟨true, cfg.burst,
            max 0 ⌊(cfg.tau - (max (state.getD now) now + cfg.T * cost - now)) / cfg.T⌋,
            ⌈max (state.getD now) now + cfg.T * cost⌉, 0⟩
          ttlMs := max 1 ⌈max (state.getD now) now + cfg.T * cost - now⌉
          persist := true } :=
  rfl

/-- `gcra(options)`. -/
def gcra [Rounding] (cfg : Config) : Strategy ℚ where
  name := "gcra"
  limit := cfg.burst
  ttlMs := ⌈cfg.tau⌉
  check := check cfg

/-- `peek(state, now)`. -/
def peek [Rounding] (cfg : Config) (state : Option ℚ) (now : ℚ) : Decision :=
  let tatEff := max (state.getD now) now
  let remaining := max 0 ⌊fl (fl (cfg.tau - fl (tatEff - now)) / cfg.T)⌋
  let allowed := decide (1 ≤ remaining)
  ⟨allowed, cfg.burst, remaining, ⌈tatEff⌉,
    if allowed then 0 else ⌈fl (fl (fl (tatEff + cfg.T) - cfg.tau) - now)⌉⟩

/-- `forecast(state, now, cost)`. -/
def forecast [Rounding] (cfg : Config) (state : Option ℚ) (now cost : ℚ) : Forecast :=
  let tatEff := max (state.getD now) now
  -- whole units available now
  let k : ℤ := max 0 ⌊fl (fl (cfg.tau - fl (tatEff - now)) / cfg.T)⌋
  let isFull := decide (tatEff ≤ now)
  ⟨⌊fl (k / cost)⌋, if isFull then now else ⌈fl (fl (tatEff - cfg.tau) + fl ((k + 1) * cfg.T))⌉,
    if isFull then now else ⌈tatEff⌉⟩

/-- `gcra(options)` with its introspection. -/
def introspectable [Rounding] (cfg : Config) : Introspectable ℚ :=
  { gcra cfg with peek := peek cfg, forecast := forecast cfg }

/-- The arrival time a check leaves passes within its TTL. -/
theorem le_of_persist {cfg : Config} {state : Option ℚ} {now cost s t : ℚ}
    (hpersist : (check cfg state now cost).persist = true)
    (hstate : (check cfg state now cost).state = some s)
    (hdue : now + (check cfg state now cost).ttlMs ≤ t) : s ≤ t := by
  rw [check_eq] at hpersist hstate hdue
  split at hpersist
  · cases hpersist
  · rename_i hfits
    rw [if_neg hfits] at hstate hdue
    obtain rfl := Option.some.inj hstate
    have hend := add_le_of_ttl hdue
    linarith

/-- An arrival time that has passed acts as none. -/
theorem seen_of_le [Rounding] {cfg : Config} {s now : ℚ} (h : s ≤ now) (cost : ℚ) :
    (check cfg (some s) now cost).seen = (check cfg none now cost).seen := by
  unfold check
  dsimp only
  rw [max_getD_of_le h]
  split <;> rfl

theorem dueIsNone (cfg : Config) : DueIsNone (fun _ => True) (check cfg) :=
  fun _ _ _ _ _ hpersist hstate _ _ hdue => seen_of_le (le_of_persist hpersist hstate hdue)

/-- **An expired arrival time decides nothing**, when it has passed by the instant it is due. -/
theorem ttlTransparent [Rounding] (cfg : Config) :
    TtlTransparent (LastsTo (· ≤ ·) (check cfg)) (check cfg) :=
  ttlTransparent_of_spent (fun hle h => h.trans hle) seen_of_le

/-- On exact rationals it always has. -/
theorem lasts (cfg : Config) (state : Option ℚ) (now cost : ℚ) :
    LastsTo (· ≤ ·) (check cfg) state now cost :=
  fun _ hstate hpersist => le_of_persist hpersist hstate le_rfl

/-- A check is denied before the instant that allows it. -/
theorem denied_iff [Rounding] {cfg : Config} {state : Option ℚ} {now cost : ℚ} :
    (check cfg state now cost).result.allowed = false ↔
      now < fl (fl (max (state.getD now) now + fl (cfg.T * cost)) - cfg.tau) := by
  unfold check
  dsimp only
  split <;> simp_all

/-- A denied check keeps nothing. -/
theorem keeps [Rounding] (cfg : Config) (state : Option ℚ) (now cost : ℚ)
    (h : (check cfg state now cost).result.allowed = false) :
    (check cfg state now cost).persist = false := by
  rw [denied_iff] at h
  rw [check, if_pos h]

/-- **A denial lasts for its `retryAfterMs`**, at whole milliseconds. -/
theorem denialsLast (cfg : Config) : DenialsLast WholeMs (check cfg) where
  keeps := keeps cfg
  denies state t t' c c' ht ht' hle hcost h hretry := by
    simp only [denied_iff, fl_exact] at h ⊢
    rw [check_eq, if_pos h] at hretry
    have hlt := lt_add_of_wholeMs ht ht' hretry
    have hinc := mul_le_mul_of_nonneg_left hcost cfg.T_pos.le
    have htat : max (state.getD t) t ≤ max (state.getD t') t' := by
      cases state with
      | none => simpa using hle
      | some tat => exact max_le_max le_rfl hle
    linarith

end ThrottleKit.Gcra
