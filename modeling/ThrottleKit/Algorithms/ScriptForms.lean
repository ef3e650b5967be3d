import ThrottleKit.Algorithms.ClockOrder
import ThrottleKit.Algorithms.Gcra
import ThrottleKit.Algorithms.Twin

/-!
# The scripts of the counters and of GCRA

The fixed window, the quota and GCRA as Redis scripts, beside their transforms in process. The two
counters reply their limit and the end of their window without rounding them, and GCRA its burst; in
process the end of a window is rounded up.

The quota script has the calendar in Lua: the same arithmetic over again.

## Main definitions

* `Quota.luaBounds`, `Quota.luaScript` — `QUOTA_LUA`
* `Gcra.luaScript` — `GCRA_LUA`
* `CounterRounds` — the reply of a counter is rounded to its decision
* `FixedWindow.twin`, `Quota.twin`, `Gcra.twin` — both forms of each

## Main results

* `Quota.luaBounds_args` — the calendar in Lua has the same periods
* `FixedWindow.reply_iff`, `Quota.reply_iff`, `Gcra.reply_iff` — when a reply is the decision
* `FixedWindow.kept`, `Quota.kept`, `Gcra.kept` — on one clock, in exact numbers, no key expires
  while it matters
-/

namespace ThrottleKit

open Redis Rounding

/-! ### The quota script -/

namespace Quota

/-- `days_from_civil(y, m, d)`. -/
def luaDaysFromCivil (y m d : ℤ) : ℤ :=
  let yy := y - if m ≤ 2 then 1 else 0
  let era := (if 0 ≤ yy then yy else yy - 399) / 400
  let yoe := yy - era * 400
  let doy := (153 * (m + if 2 < m then -3 else 9) + 2) / 5 + d - 1
  let doe := yoe * 365 + yoe / 4 - yoe / 100 + doy
  era * 146097 + doe - 719468

/-- `civil_from_days(z)`: the year and the month. -/
def luaCivilFromDays (z : ℤ) : ℤ × ℤ :=
  let zz := z + 719468
  let era := (if 0 ≤ zz then zz else zz - 146096) / 146097
  let doe := zz - era * 146097
  let yoe := (doe - doe / 1460 + doe / 36524 - doe / 146096) / 365
  let y := yoe + era * 400
  let doy := doe - (365 * yoe + yoe / 4 - yoe / 100)
  let mp := (5 * doy + 2) / 153
  let m := if mp < 10 then mp + 3 else mp - 9
  (if m ≤ 2 then y + 1 else y, m)

/-- The arguments that say how a budget resets. -/
structure Args where
  mode : ℤ
  periodMs : ℚ
  anchor : ℤ
  offsetMs : ℤ
  weekStartsOn : ℤ

/-- `MODE[cal]`, `periodMs`, `anchor`, `offsetMs` and `weekStartsOn`, with the defaults of those a
cadence has no use for. -/
def Cadence.args : Cadence → Args
  | .calendar .month offsetMinutes weekStartsOn =>
    ⟨1, 0, 0, Quota.offsetMs offsetMinutes, weekStartsOn⟩
  | .calendar .week offsetMinutes weekStartsOn =>
    ⟨2, 0, 0, Quota.offsetMs offsetMinutes, weekStartsOn⟩
  | .calendar .day offsetMinutes weekStartsOn =>
    ⟨3, 0, 0, Quota.offsetMs offsetMinutes, weekStartsOn⟩
  | .fixed periodMs anchor _ => ⟨4, periodMs, anchor, 0, 1⟩

/-- `period_start` and `reset_at`. -/
def luaBounds [Rounding] (args : Args) (now : ℚ) : Calendar.Period :=
  let DAY : ℤ := 86400000
  if args.mode = 4 then
    let k := ⌊fl (fl (now - args.anchor) / args.periodMs)⌋
    let periodStart := fl (args.anchor + fl (k * args.periodMs))
    ⟨periodStart, fl (periodStart + args.periodMs)⟩
  else
    let localnow := fl (now + args.offsetMs)
    let day := ⌊fl (localnow / DAY)⌋
    if args.mode = 3 then
      ⟨(day * DAY - args.offsetMs : ℤ), ((day + 1) * DAY - args.offsetMs : ℤ)⟩
    else if args.mode = 2 then
      let dow := (day + 4) % 7
      let shift := (dow - args.weekStartsOn) % 7
      let startDay := day - shift
      ⟨(startDay * DAY - args.offsetMs : ℤ), ((startDay + 7) * DAY - args.offsetMs : ℤ)⟩
    else
      let ym := luaCivilFromDays day
      let startDay := luaDaysFromCivil ym.1 ym.2 1
      let ny := if ym.2 = 12 then ym.1 + 1 else ym.1
      let nm := if ym.2 = 12 then 1 else ym.2 + 1
      let resetDay := luaDaysFromCivil ny nm 1
      ⟨(startDay * DAY - args.offsetMs : ℤ), (resetDay * DAY - args.offsetMs : ℤ)⟩

/-- `QUOTA_LUA`: the hash it leaves, how long it lives, and the reply. -/
def luaScript [Rounding] (cfg : Config) (hash : Option State) (now cost : ℚ) :
    ApplyOutcome State Decision :=
  let period := luaBounds cfg.resetCadence.args now
  let count := countIn hash period.start
  if fl (count + cost) ≤ cfg.limit then
    let newCount := fl (count + cost)
    { state := some ⟨period.start, newCount⟩
      result := ⟨true, luaInteger cfg.limit, luaInteger (fl (cfg.limit - newCount)),
        luaInteger period.reset, 0⟩
      ttlMs := max 1 ⌈fl (period.reset - now)⌉
      persist := true }
  else
    { state := hash
      result := ⟨false, luaInteger cfg.limit, luaInteger (max 0 (fl (cfg.limit - count))),
        luaInteger period.reset, ⌈fl (period.reset - now)⌉⟩
      ttlMs := cfg.resetCadence.ttlMs
      persist := false }

/-- **The calendar in Lua has the same periods.** -/
theorem luaBounds_args [Rounding] (cadence : Cadence) (now : ℚ) :
    luaBounds cadence.args now = cadence.bounds now := by
  cases cadence with
  | calendar cadence offsetMinutes weekStartsOn => cases cadence <;> rfl
  | fixed periodMs anchor hpos => rfl

end Quota

/-! ### Replies of the counters -/

/-- A time to live that was rounded up is whole. -/
theorem whole_ttl (x : ℚ) : Whole (max 1 (⌈x⌉ : ℚ)) := by
  rw [show max 1 (⌈x⌉ : ℚ) = ((max 1 ⌈x⌉ : ℤ) : ℚ) by push_cast; rfl]
  exact whole_intCast _

/-- The reply of a counter is rounded to its decision: the limit is whole, the end of the window is
whole or before the epoch, and 64 bits hold these, what is left and the time to wait. -/
def CounterRounds (limit left reset wait : ℚ) : Prop :=
  (Whole limit ∧ Fits limit) ∧ Fits (max 0 ⌊left⌋) ∧
    ((Whole reset ∨ reset < 0) ∧ Fits ⌈reset⌉) ∧ Fits wait

instance (limit left reset wait : ℚ) : Decidable (CounterRounds limit left reset wait) :=
  inferInstanceAs (Decidable (_ ∧ _))

theorem counter_reply_iff {allowed : Bool} {limit left reset wait : ℚ} :
    longLongs ⟨allowed, luaInteger limit, luaInteger (max 0 left), luaInteger reset, wait⟩
        = some ⟨allowed, limit, max (0 : ℚ) ⌊left⌋, ⌈reset⌉, wait⟩ ↔
      CounterRounds limit left reset wait := by
  rw [luaInteger_max_zero, longLongs_eq_some_iff, luaInteger_eq_ceil_iff]
  rfl

/-- The same where what is left is not cut off at zero, as the count is within the limit. -/
theorem counter_reply_iff_of_le [Rounding] {allowed : Bool} {limit count reset wait : ℚ}
    (hle : count ≤ limit) :
    longLongs ⟨allowed, luaInteger limit, luaInteger (fl (limit - count)), luaInteger reset, wait⟩
        = some ⟨allowed, limit, max (0 : ℚ) ⌊fl (limit - count)⌋, ⌈reset⌉, wait⟩ ↔
      CounterRounds limit (fl (limit - count)) reset wait := by
  rw [luaInteger_of_nonneg (fl_nonneg (sub_nonneg.mpr hle)), longLongs_eq_some_iff,
    luaInteger_eq_ceil_iff]
  rfl

namespace FixedWindow

/-- The reply to a check is rounded to its decision. -/
def Rounds [Rounding] (cfg : Config) (v : Option State) (now cost : ℚ) : Prop :=
  if fl (countIn v (startOf cfg.windowMs now) + cost) ≤ cfg.limit then
    CounterRounds cfg.limit (fl (cfg.limit - fl (countIn v (startOf cfg.windowMs now) + cost)))
      (endOf cfg.windowMs now) 0
  else
    CounterRounds cfg.limit (fl (cfg.limit - countIn v (startOf cfg.windowMs now)))
      (endOf cfg.windowMs now) ⌈fl (endOf cfg.windowMs now - now)⌉

instance Rounds.decidable [Rounding] (cfg : Config) (v : Option State) (now cost : ℚ) :
    Decidable (Rounds cfg v now cost) :=
  inferInstanceAs (Decidable (ite _ _ _))

theorem reply_iff [Rounding] (cfg : Config) (v : Option State) (now cost : ℚ) :
    longLongs (luaScript cfg v now cost).result = some (check cfg v now cost).result ↔
      Rounds cfg v now cost := by
  unfold luaScript check Rounds
  dsimp only
  split
  · rename_i hfits
    exact counter_reply_iff_of_le hfits
  · exact counter_reply_iff

/-- **Both forms of the fixed window.** -/
def twin [Rounding] (cfg : Config) : Twin State where
  check := check cfg
  script := luaScript cfg
  Stale st now := st.start ≠ startOf cfg.windowMs now
  Rounds := Rounds cfg
  script_persist v now cost := by
    unfold luaScript check
    dsimp only
    split <;> rfl
  script_state v now cost := by
    unfold luaScript check
    dsimp only
    split <;> rfl
  sameAt _ _ h := seen_of_start_ne h
  reply_iff := reply_iff cfg

/-- On one clock, in exact numbers, no hash expires while it counts. -/
theorem kept (cfg : Config) {ts : List Timed}
    (hsorted : ts.Pairwise fun t t' => t.call.now ≤ t'.call.now) (hclock : ∀ t ∈ ts, OneClock t) :
    Lockstep.AllMet (scripted (luaScript cfg)) (Kept (twin cfg).Stale) none ts := by
  refine kept_of_oneClock (fun _ => True) (fun _ _ => True) (fun _ _ => trivial) ?_ hsorted
    fun t ht => ⟨hclock t ht, trivial⟩
  intro v now cost st _ _ hpersist hstate
  unfold luaScript at hpersist hstate ⊢
  dsimp only at hpersist hstate ⊢
  split at hpersist
  · rename_i hfits
    rw [if_pos hfits] at hstate ⊢
    refine ⟨trivial, whole_ttl _, fun t _ hle => ne_of_lt ?_⟩
    have hend : AlignedWindow.alignedStart cfg.windowMs now + cfg.windowMs ≤ t := by
      linarith [show now + (AlignedWindow.alignedStart cfg.windowMs now + cfg.windowMs - now) ≤ t
        from add_le_of_ttl hle]
    rw [← Option.some.inj hstate]
    calc AlignedWindow.alignedStart cfg.windowMs now
        < AlignedWindow.alignedStart cfg.windowMs now + cfg.windowMs :=
          lt_add_of_pos_right _ cfg.windowMs_pos
      _ ≤ AlignedWindow.alignedStart cfg.windowMs t :=
          AlignedWindow.add_le_alignedStart cfg.windowMs_pos hend
  · cases hpersist

end FixedWindow

namespace Quota

/-- The reply to a check is rounded to its decision. -/
def Rounds [Rounding] (cfg : Config) (v : Option State) (now cost : ℚ) : Prop :=
  if fl (countIn v (cfg.resetCadence.bounds now).start + cost) ≤ cfg.limit then
    CounterRounds cfg.limit
      (fl (cfg.limit - fl (countIn v (cfg.resetCadence.bounds now).start + cost)))
      (cfg.resetCadence.bounds now).reset 0
  else
    CounterRounds cfg.limit (fl (cfg.limit - countIn v (cfg.resetCadence.bounds now).start))
      (cfg.resetCadence.bounds now).reset ⌈fl ((cfg.resetCadence.bounds now).reset - now)⌉

instance Rounds.decidable [Rounding] (cfg : Config) (v : Option State) (now cost : ℚ) :
    Decidable (Rounds cfg v now cost) :=
  inferInstanceAs (Decidable (ite _ _ _))

theorem reply_iff [Rounding] (cfg : Config) (v : Option State) (now cost : ℚ) :
    longLongs (luaScript cfg v now cost).result = some (check cfg v now cost).result ↔
      Rounds cfg v now cost := by
  unfold luaScript check Rounds
  dsimp only
  rw [luaBounds_args]
  split
  · rename_i hfits
    exact counter_reply_iff_of_le hfits
  · exact counter_reply_iff

/-- **Both forms of the quota**, but for the rolling cadence. -/
def twin [Rounding] (cfg : Config) : Twin State where
  check := check cfg
  script := luaScript cfg
  Stale st now := st.start ≠ (cfg.resetCadence.bounds now).start
  Rounds := Rounds cfg
  script_persist v now cost := by
    unfold luaScript check
    dsimp only
    rw [luaBounds_args]
    split <;> rfl
  script_state v now cost := by
    unfold luaScript check
    dsimp only
    rw [luaBounds_args]
    split <;> rfl
  sameAt _ _ h := seen_of_start_ne h
  reply_iff := reply_iff cfg

/-- On one clock, in exact numbers, no hash expires while it counts, where the calendar arithmetic
is in its range. -/
theorem kept (cfg : Config) {ts : List Timed}
    (hsorted : ts.Pairwise fun t t' => t.call.now ≤ t'.call.now)
    (hclock : ∀ t ∈ ts, OneClock t ∧ cfg.resetCadence.InRange t.call.now) :
    Lockstep.AllMet (scripted (luaScript cfg)) (Kept (twin cfg).Stale) none ts := by
  refine kept_of_oneClock (fun now => cfg.resetCadence.InRange now) (fun _ _ => True)
    (fun _ _ => trivial) ?_ hsorted hclock
  intro v now cost st hat _ hpersist hstate
  unfold luaScript at hpersist hstate ⊢
  dsimp only at hpersist hstate ⊢
  rw [luaBounds_args] at hpersist hstate ⊢
  split at hpersist
  · rename_i hfits
    rw [if_pos hfits] at hstate ⊢
    refine ⟨trivial, whole_ttl _, fun t hat' hle => ?_⟩
    have hend : (cfg.resetCadence.bounds now).reset ≤ t := by
      linarith [show now + ((cfg.resetCadence.bounds now).reset - now) ≤ t from add_le_of_ttl hle]
    rw [← Option.some.inj hstate]
    exact Cadence.bounds_start_ne hat hat' hend
  · cases hpersist

end Quota

/-! ### The GCRA script -/

namespace Gcra

/-- `GCRA_LUA`: the arrival time it leaves, how long it lives, and the reply. -/
def luaScript [Rounding] (cfg : Config) (string : Option ℚ) (now cost : ℚ) :
    ApplyOutcome ℚ Decision :=
  let T := fl (cfg.periodMs / cfg.limit)
  let tau := fl (T * cfg.burst)
  let inc := fl (T * cost)
  let tat := max (string.getD now) now
  let newTat := fl (tat + inc)
  let allowAt := fl (newTat - tau)
  if now < allowAt then
    let remaining : ℚ := max 0 ⌊fl (fl (tau - fl (tat - now)) / T)⌋
    { state := string
      result := ⟨false, luaInteger cfg.burst, remaining, luaInteger ⌈tat⌉, ⌈fl (allowAt - now)⌉⟩
      ttlMs := ⌈tau⌉
      persist := false }
  else
    let remaining : ℚ := max 0 ⌊fl (fl (tau - fl (newTat - now)) / T)⌋
    { state := some newTat
      result := ⟨true, luaInteger cfg.burst, remaining, luaInteger ⌈newTat⌉, 0⟩
      ttlMs := max 1 ⌈fl (newTat - now)⌉
      persist := true }

/-- The arrival time a check finds, from `now` on. -/
def tatOf (v : Option ℚ) (now : ℚ) : ℚ := max (v.getD now) now

/-- The arrival time a check would leave. -/
def newTatOf [Rounding] (cfg : Config) (v : Option ℚ) (now cost : ℚ) : ℚ :=
  fl (tatOf v now + fl (cfg.T * cost))

/-- What is left of the burst at an arrival time. -/
def leftOf [Rounding] (cfg : Config) (tat now : ℚ) : ℚ :=
  max 0 ⌊fl (fl (cfg.tau - fl (tat - now)) / cfg.T)⌋

/-- The reply to a check is rounded to its decision: the burst is whole, and 64 bits hold it, what
is left of it, the arrival time that is reported and the time to wait. -/
def Rounds [Rounding] (cfg : Config) (v : Option ℚ) (now cost : ℚ) : Prop :=
  (Whole cfg.burst ∧ Fits cfg.burst) ∧
    if now < fl (newTatOf cfg v now cost - cfg.tau) then
      Fits (leftOf cfg (tatOf v now) now) ∧ Fits ⌈tatOf v now⌉ ∧
        Fits ⌈fl (fl (newTatOf cfg v now cost - cfg.tau) - now)⌉
    else Fits (leftOf cfg (newTatOf cfg v now cost) now) ∧ Fits ⌈newTatOf cfg v now cost⌉

instance Rounds.decidable [Rounding] (cfg : Config) (v : Option ℚ) (now cost : ℚ) :
    Decidable (Rounds cfg v now cost) :=
  inferInstanceAs (Decidable (_ ∧ ite _ _ _))

theorem fits_zero : Fits 0 := by decide +kernel

theorem luaScript_eq [Rounding] (cfg : Config) (v : Option ℚ) (now cost : ℚ) :
    luaScript cfg v now cost =
      if now < fl (newTatOf cfg v now cost - cfg.tau) then
        ⟨v, ⟨false, luaInteger cfg.burst, leftOf cfg (tatOf v now) now, luaInteger ⌈tatOf v now⌉,
          ⌈fl (fl (newTatOf cfg v now cost - cfg.tau) - now)⌉⟩, ⌈cfg.tau⌉, false⟩
      else
        ⟨some (newTatOf cfg v now cost), ⟨true, luaInteger cfg.burst,
          leftOf cfg (newTatOf cfg v now cost) now, luaInteger ⌈newTatOf cfg v now cost⌉, 0⟩,
          max 1 ⌈fl (newTatOf cfg v now cost - now)⌉, true⟩ :=
  rfl

theorem check_eq_rounded [Rounding] (cfg : Config) (v : Option ℚ) (now cost : ℚ) :
    check cfg v now cost =
      if now < fl (newTatOf cfg v now cost - cfg.tau) then
        ⟨v, ⟨false, cfg.burst, leftOf cfg (tatOf v now) now, ⌈tatOf v now⌉,
          ⌈fl (fl (newTatOf cfg v now cost - cfg.tau) - now)⌉⟩, ⌈cfg.tau⌉, false⟩
      else
        ⟨some (newTatOf cfg v now cost), ⟨true, cfg.burst,
          leftOf cfg (newTatOf cfg v now cost) now, ⌈newTatOf cfg v now cost⌉, 0⟩,
          max 1 ⌈fl (newTatOf cfg v now cost - now)⌉, true⟩ :=
  rfl

theorem reply_iff [Rounding] (cfg : Config) (v : Option ℚ) (now cost : ℚ) :
    longLongs (luaScript cfg v now cost).result = some (check cfg v now cost).result ↔
      Rounds cfg v now cost := by
  rw [luaScript_eq, check_eq_rounded, Rounds]
  split
  · rw [longLongs_eq_some_iff, luaInteger_intCast]
    exact and_congr_right fun _ => and_congr_right fun _ => and_congr_left fun _ =>
      and_iff_right rfl
  · rw [longLongs_eq_some_iff, luaInteger_intCast]
    exact and_congr_right fun _ => and_congr_right fun _ =>
      (and_iff_left fits_zero).trans (and_iff_right rfl)

/-- **Both forms of GCRA.** -/
def twin [Rounding] (cfg : Config) : Twin ℚ where
  check := check cfg
  script := luaScript cfg
  Stale tat now := tat ≤ now
  Rounds := Rounds cfg
  script_persist v now cost := by
    rw [luaScript_eq, check_eq_rounded]
    split <;> rfl
  script_state v now cost := by
    rw [luaScript_eq, check_eq_rounded]
    split <;> rfl
  sameAt _ _ h := seen_of_le h
  reply_iff := reply_iff cfg

/-- On one clock, in exact numbers, no arrival time expires while it is ahead. -/
theorem kept (cfg : Config) {ts : List Timed}
    (hsorted : ts.Pairwise fun t t' => t.call.now ≤ t'.call.now) (hclock : ∀ t ∈ ts, OneClock t) :
    Lockstep.AllMet (scripted (luaScript cfg)) (Kept (twin cfg).Stale) none ts := by
  refine kept_of_oneClock (fun _ => True) (fun _ _ => True) (fun _ _ => trivial) ?_ hsorted
    fun t ht => ⟨hclock t ht, trivial⟩
  intro v now cost tat _ _ hpersist hstate
  rw [luaScript_eq] at hpersist hstate ⊢
  split at hpersist
  · cases hpersist
  · rename_i hfits
    rw [if_neg hfits] at hstate ⊢
    refine ⟨trivial, whole_ttl _, fun t _ hle => ?_⟩
    rw [← Option.some.inj hstate]
    have hend : now + (newTatOf cfg v now cost - now) ≤ t := add_le_of_ttl hle
    rwa [add_sub_cancel] at hend

end Gcra

end ThrottleKit
