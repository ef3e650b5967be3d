import ThrottleKit.Algorithms.Calendar
import ThrottleKit.Algorithms.SlidingWindow

/-!
# Billing-period quotas

A counter of the period that holds `now`, where a period is a calendar day, week or month at a fixed
offset, or one of a fixed width from an anchor. A rolling quota is a sliding window by another name.

## Main results

* `Quota.ttlTransparent` — the count of a period that does not come back decides nothing
* `Quota.lasts` — by the end of its TTL it does not, where the calendar arithmetic is in its range
-/

namespace ThrottleKit.Quota

open Calendar Rounding

/-- How a budget resets, but for the rolling cadence. -/
inductive Cadence
  | calendar (cadence : CalendarCadence) (offsetMinutes weekStartsOn : ℤ)
  | fixed (periodMs : ℚ) (anchor : ℤ) (periodMs_pos : 0 < periodMs)

/-- The options of `quota`, validated. -/
structure Config where
  limit : ℚ
  resetCadence : Cadence
  limit_pos : 0 < limit

/-- The counter of one key. -/
structure State where
  /-- Start of the period the count belongs to. -/
  start : ℚ
  /-- Units consumed in it. -/
  count : ℚ

/-- `offsetMs`. -/
def offsetMs (offsetMinutes : ℤ) : ℤ := offsetMinutes * 60000

/-- `bounds(now)`. -/
def Cadence.bounds [Rounding] (now : ℚ) : Cadence → Period
  | .fixed periodMs anchor _ =>
    let start := fl (anchor + fl (⌊fl (fl (now - anchor) / periodMs)⌋ * periodMs))
    ⟨start, fl (start + periodMs)⟩
  | .calendar cadence offsetMinutes weekStartsOn =>
    calendarPeriod cadence now (offsetMs offsetMinutes) weekStartsOn

/-- The longest a period can be. -/
def Cadence.ttlMs : Cadence → ℚ
  | .calendar .month _ _ => 31 * msPerDay
  | .calendar .week _ _ => 7 * msPerDay
  | .calendar .day _ _ => msPerDay
  | .fixed periodMs _ _ => periodMs

/-- The count of the period starting at `start`. -/
def countIn (state : Option State) (start : ℚ) : ℚ :=
  match state with
  | some st => if st.start = start then st.count else 0
  | none => 0

/-- `check(state, now, cost)`. -/
def check [Rounding] (cfg : Config) (state : Option State) (now cost : ℚ) :
    ApplyOutcome State Decision :=
  let period := cfg.resetCadence.bounds now
  let count := countIn state period.start
  if fl (count + cost) ≤ cfg.limit then
    let newCount := fl (count + cost)
    { state := some ⟨period.start, newCount⟩
      result := ⟨true, cfg.limit, max 0 ⌊fl (cfg.limit - newCount)⌋, ⌈period.reset⌉, 0⟩
      ttlMs := max 1 (fl (period.reset - now))
      persist := true }
  else
    { state := state
      result := ⟨false, cfg.limit, max 0 ⌊fl (cfg.limit - count)⌋, ⌈period.reset⌉,
        ⌈fl (period.reset - now)⌉⟩
      ttlMs := cfg.resetCadence.ttlMs
      persist := false }

/-- On exact rationals nothing is rounded. -/
theorem check_eq (cfg : Config) (state : Option State) (now cost : ℚ) :
    check cfg state now cost =
      if countIn state (cfg.resetCadence.bounds now).start + cost ≤ cfg.limit then
        { state := some ⟨(cfg.resetCadence.bounds now).start,
            countIn state (cfg.resetCadence.bounds now).start + cost⟩
          result := ⟨true, cfg.limit,
            max 0 ⌊cfg.limit - (countIn state (cfg.resetCadence.bounds now).start + cost)⌋,
            ⌈(cfg.resetCadence.bounds now).reset⌉, 0⟩
          ttlMs := max 1 ((cfg.resetCadence.bounds now).reset - now)
          persist := true }
      else
        { state := state
          result := ⟨false, cfg.limit,
            max 0 ⌊cfg.limit - countIn state (cfg.resetCadence.bounds now).start⌋,
            ⌈(cfg.resetCadence.bounds now).reset⌉, ⌈(cfg.resetCadence.bounds now).reset - now⌉⟩
          ttlMs := cfg.resetCadence.ttlMs
          persist := false } :=
  rfl

/-- `quota(options)` with a calendar or fixed cadence. -/
def quota [Rounding] (cfg : Config) : Strategy State where
  name := "quota"
  limit := cfg.limit
  ttlMs := cfg.resetCadence.ttlMs
  check := check cfg

/-- `quota(options)` with the rolling cadence. -/
def rolling [Rounding] (cfg : SlidingWindow.Config) : Strategy SlidingWindow.State :=
  { SlidingWindow.slidingWindow cfg with name := "quota" }

/-- `peek(state, now)`. -/
def peek [Rounding] (cfg : Config) (state : Option State) (now : ℚ) : Decision :=
  let period := cfg.resetCadence.bounds now
  let count := countIn state period.start
  let allowed := decide (fl (count + 1) ≤ cfg.limit)
  ⟨allowed, cfg.limit, max 0 ⌊fl (cfg.limit - count)⌋, ⌈period.reset⌉,
    if allowed then 0 else ⌈fl (period.reset - now)⌉⟩

/-- `forecast(state, now, cost)`. -/
def forecast [Rounding] (cfg : Config) (state : Option State) (now cost : ℚ) : Forecast :=
  let period := cfg.resetCadence.bounds now
  let resetAt := ⌈period.reset⌉
  let available := max 0 (fl (cfg.limit - countIn state period.start))
  ⟨⌊fl (available / cost)⌋, resetAt, resetAt⟩

/-- `quota(options)` with a calendar or fixed cadence, with its introspection. -/
def introspectable [Rounding] (cfg : Config) : Introspectable State :=
  { quota cfg with peek := peek cfg, forecast := forecast cfg }

/-- `quota(options)` with the rolling cadence, with its introspection. -/
def rollingIntrospectable [Rounding] (cfg : SlidingWindow.Config) :
    Introspectable SlidingWindow.State :=
  { SlidingWindow.introspectable cfg with name := "quota" }

/-- Whether the calendar arithmetic of the cadence is in its range at `now`. -/
def Cadence.InRange (now : ℚ) : Cadence → Prop
  | .fixed _ _ _ => True
  | .calendar cadence offsetMinutes _ => Calendar.InRange cadence now (offsetMs offsetMinutes)

theorem Cadence.inRange_mono {cadence : Cadence} {now now' : ℚ} (hle : now ≤ now')
    (h : cadence.InRange now) : cadence.InRange now' := by
  cases cadence with
  | fixed => trivial
  | calendar cadence offsetMinutes weekStartsOn =>
    exact fun hmonth => Calendar.le_dayOf.mpr ((Calendar.le_dayOf.mp (h hmonth)).trans hle)

/-- An instant past a period's end is in one that starts elsewhere. -/
theorem Cadence.bounds_start_ne {cadence : Cadence} {now now' : ℚ} (hnow : cadence.InRange now)
    (hnow' : cadence.InRange now') (hle : (cadence.bounds now).reset ≤ now') :
    (cadence.bounds now).start ≠ (cadence.bounds now').start := by
  cases cadence with
  | calendar cadence offsetMinutes weekStartsOn => exact calendarPeriod_start_ne hnow hnow' hle
  | fixed periodMs anchor hpos =>
    have hend : anchor + AlignedWindow.alignedStart periodMs (now - anchor) + periodMs ≤ now' := hle
    have hstep := AlignedWindow.add_le_alignedStart hpos
      (by linarith : AlignedWindow.alignedStart periodMs (now - anchor) + periodMs ≤ now' - anchor)
    refine ne_of_lt ?_
    show anchor + AlignedWindow.alignedStart periodMs (now - anchor)
      < anchor + AlignedWindow.alignedStart periodMs (now' - anchor)
    linarith

/-- The count of another period acts as none. -/
theorem seen_of_start_ne [Rounding] {cfg : Config} {s : State} {now : ℚ}
    (h : s.start ≠ (cfg.resetCadence.bounds now).start) (cost : ℚ) :
    (check cfg (some s) now cost).seen = (check cfg none now cost).seen := by
  have hcount : countIn (some s) (cfg.resetCadence.bounds now).start
      = countIn none (cfg.resetCadence.bounds now).start := if_neg h
  unfold check
  dsimp only
  rw [hcount]
  split <;> rfl

/-- The period counted does not come back. -/
def Over [Rounding] (cfg : Config) (s : State) (now : ℚ) : Prop :=
  ∀ t, now ≤ t → s.start ≠ (cfg.resetCadence.bounds t).start

/-- **The count of a period that does not come back decides nothing.** -/
theorem ttlTransparent [Rounding] (cfg : Config) :
    TtlTransparent (LastsTo (Over cfg) (check cfg)) (check cfg) :=
  ttlTransparent_of_spent (fun hle h t ht => h t (hle.trans ht))
    fun h => seen_of_start_ne (h _ le_rfl)

/-- On exact rationals it does not, as long as the calendar arithmetic is in its range. -/
theorem lasts (cfg : Config) (state : Option State) {now : ℚ} (cost : ℚ)
    (hrange : cfg.resetCadence.InRange now) : LastsTo (Over cfg) (check cfg) state now cost := by
  intro s hstate hpersist t hle
  rw [check_eq] at hpersist hstate hle
  split at hpersist
  · rename_i hfits
    rw [if_pos hfits] at hstate hle
    rw [← Option.some.inj hstate]
    rw [fl_exact] at hle
    have hend : (cfg.resetCadence.bounds now).reset ≤ t := by
      linarith [le_max_right 1 ((cfg.resetCadence.bounds now).reset - now)]
    have hnow : now ≤ t := by
      linarith [le_max_left 1 ((cfg.resetCadence.bounds now).reset - now)]
    exact Cadence.bounds_start_ne hrange (Cadence.inRange_mono hnow hrange) hend
  · cases hpersist

/-- A rolling quota is transparent as the sliding window it is. -/
theorem rolling_ttlTransparent [Rounding] (cfg : SlidingWindow.Config) :
    TtlTransparent (SlidingWindow.Lasts cfg) (rolling cfg).check := SlidingWindow.ttlTransparent cfg

end ThrottleKit.Quota
