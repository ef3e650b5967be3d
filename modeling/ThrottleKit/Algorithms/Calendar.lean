import Mathlib.Algebra.Order.Ring.Rat
import Mathlib.Data.Int.ConditionallyCompleteOrder
import Mathlib.Data.Rat.Floor
import Mathlib.Order.Monotone.Basic
import Mathlib.Tactic.Common
import ThrottleKit.Lib.Rounding

/-!
# Calendar periods

Civil dates by integer arithmetic on day numbers, day zero being 1 January 1970, and the period of
a calendar cadence that holds an instant. The arithmetic counts years from March, in eras of 400
years; `toMarch` is that count.

The two functions adjust the dividend of a negative era as for a division that truncates, but divide
with floor, so before 1 March of year 0 they are off. The results here are about the days from then
on, and about the cadences that do no civil arithmetic.

## Main definitions

* `daysFromCivil`, `civilFromDays` — civil dates and day numbers
* `calendarPeriod` — the period that holds an instant

## Main results

* `calendarPeriod_start_ne` — an instant past a period's end is in one that starts elsewhere
-/

namespace ThrottleKit.Calendar

open Rounding

/-- `MS_PER_DAY`. -/
def msPerDay : ℤ := 86400000

/-- Days since 1970-01-01 for a civil date. -/
def daysFromCivil (y m d : ℤ) : ℤ :=
  let yy := y - if m ≤ 2 then 1 else 0
  let era := (if 0 ≤ yy then yy else yy - 399) / 400
  let yoe := yy - era * 400
  let doy := (153 * (m + if 2 < m then -3 else 9) + 2) / 5 + d - 1
  let doe := yoe * 365 + yoe / 4 - yoe / 100 + doy
  era * 146097 + doe - 719468

/-- A civil date. -/
structure CivilDate where
  y : ℤ
  m : ℤ
  d : ℤ
deriving DecidableEq

/-- Civil date for `z` days since 1970-01-01. -/
def civilFromDays (z : ℤ) : CivilDate :=
  let zz := z + 719468
  let era := (if 0 ≤ zz then zz else zz - 146096) / 146097
  let doe := zz - era * 146097
  let yoe := (doe - doe / 1460 + doe / 36524 - doe / 146096) / 365
  let y := yoe + era * 400
  let doy := doe - (365 * yoe + yoe / 4 - yoe / 100)
  let mp := (5 * doy + 2) / 153
  let d := doy - (153 * mp + 2) / 5 + 1
  let m := if mp < 10 then mp + 3 else mp - 9
  ⟨if m ≤ 2 then y + 1 else y, m, d⟩

/-- A cadence whose boundary lands on a civil-calendar edge. -/
inductive CalendarCadence
  | month
  | week
  | day
deriving DecidableEq

/-- A half-open period of epoch-ms. -/
structure Period where
  start : ℚ
  reset : ℚ
deriving DecidableEq

/-- The first day of the month of `day`. -/
def startDay (day : ℤ) : ℤ :=
  daysFromCivil (civilFromDays day).y (civilFromDays day).m 1

/-- The first day of the month after that of `day`. -/
def resetDay (day : ℤ) : ℤ :=
  let c := civilFromDays day
  daysFromCivil (if c.m = 12 then c.y + 1 else c.y) (if c.m = 12 then 1 else c.m + 1) 1

/-- The day, at the offset, that holds `now`. -/
def dayOf [Rounding] (now : ℚ) (offsetMs : ℤ) : ℤ := ⌊fl (fl (now + offsetMs) / msPerDay)⌋

/-- The first day of the period of `day`, and the first day of the next one. -/
def periodDays (cadence : CalendarCadence) (weekStartsOn day : ℤ) : ℤ × ℤ :=
  match cadence with
  | .day => (day, day + 1)
  | .week =>
    -- 1970-01-01 is a Thursday
    let dow := (day + 4) % 7
    let shift := (dow - weekStartsOn) % 7
    (day - shift, day - shift + 7)
  | .month => (startDay day, resetDay day)

/-- `calendarPeriod(cadence, now, offsetMs, weekStartsOn)`. -/
def calendarPeriod [Rounding] (cadence : CalendarCadence) (now : ℚ) (offsetMs weekStartsOn : ℤ) :
    Period :=
  let days := periodDays cadence weekStartsOn (dayOf now offsetMs)
  ⟨(days.1 * msPerDay - offsetMs : ℤ), (days.2 * msPerDay - offsetMs : ℤ)⟩

/-! ### Counting from March -/

/-- 1 March of year 0. -/
def firstDay : ℤ := -719468

/-- The day number of 1 March of year `Y`. -/
def march (Y : ℤ) : ℤ := 365 * Y + Y / 4 - Y / 100 + Y / 400 - 719468

theorem march_add_le (Y : ℤ) : march Y + 365 ≤ march (Y + 1) := by
  unfold march
  omega

theorem march_strictMono : StrictMono march :=
  strictMono_int_of_lt_succ fun Y => by linarith [march_add_le Y]

/-- The first of month `k` of year `Y`, months counted from March. -/
theorem daysFromCivil_march {Y k : ℤ} (hY : 0 ≤ Y) (hk : 0 ≤ k) (hk' : k ≤ 11) :
    daysFromCivil (if k < 10 then Y else Y + 1) (if k < 10 then k + 3 else k - 9) 1
      = march Y + (153 * k + 2) / 5 := by
  unfold daysFromCivil march
  dsimp only
  split
  · rw [if_neg (by omega : ¬ k + 3 ≤ 2), if_pos (by omega : 2 < k + 3), sub_zero, if_pos hY]
    omega
  · rw [if_pos (by omega : k - 9 ≤ 2), if_neg (by omega : ¬ 2 < k - 9), add_sub_cancel_right,
      if_pos hY]
    omega

/-- A day of an era, by century, four-year cycle, year and day. -/
theorem era_split {doe : ℤ} (h0 : 0 ≤ doe) (h1 : doe < 146097) :
    ∃ c q y s : ℤ, 0 ≤ c ∧ c ≤ 3 ∧ 0 ≤ y ∧ y ≤ 3 ∧ 0 ≤ q ∧ q ≤ 24 ∧ 0 ≤ s ∧
      doe = 36524 * c + 1461 * q + 365 * y + s ∧
      (s < 365 ∨ s = 365 ∧ y = 3 ∧ (q < 24 ∨ c = 3)) := by
  obtain ⟨c, hc⟩ : ∃ c, c = min 3 (doe / 36524) := ⟨_, rfl⟩
  obtain ⟨r, hr⟩ : ∃ r, r = (doe - 36524 * c) % 1461 := ⟨_, rfl⟩
  refine ⟨c, (doe - 36524 * c) / 1461, min 3 (r / 365), r - 365 * min 3 (r / 365), ?_⟩
  omega

theorem century_of_era {c r doe : ℤ} (hc : 0 ≤ c) (hc' : c ≤ 3) (hr : 0 ≤ r)
    (hdoe : doe = 36524 * c + r) (hlast : r < 36524 ∨ r = 36524 ∧ c = 3) :
    doe / 36524 - doe / 146096 = c := by
  rcases hlast with hlt | ⟨rfl, rfl⟩
  · have hcentury : doe / 36524 = c := by omega
    have hera : doe / 146096 = 0 := by omega
    omega
  · subst hdoe
    decide

/-- The year of an era by its century, cycle and place in the cycle. -/
theorem yearOfEra_eq {c q y s doe : ℤ} (hc : 0 ≤ c) (hc' : c ≤ 3) (hy : 0 ≤ y) (hy' : y ≤ 3)
    (hq : 0 ≤ q) (hq' : q ≤ 24) (hs : 0 ≤ s) (hdoe : doe = 36524 * c + 1461 * q + 365 * y + s)
    (hlast : s < 365 ∨ s = 365 ∧ y = 3 ∧ (q < 24 ∨ c = 3)) :
    (doe - doe / 1460 + doe / 36524 - doe / 146096) / 365 = 100 * c + 4 * q + y := by
  have hcentury : doe / 36524 - doe / 146096 = c :=
    century_of_era hc hc' (r := 1461 * q + 365 * y + s) (by omega) (by omega) (by omega)
  -- only late in the last year of a cycle is `doe / 1460` one ahead, and on its leap day it is
  have hcycle : doe / 1460 = 25 * c + q ∧ s ≤ 364 ∨ doe / 1460 = 25 * c + q + 1 ∧ 1 ≤ s := by
    have h1460 : doe / 1460 = 25 * c + q ∨ doe / 1460 = 25 * c + q + 1 := by omega
    omega
  have hdays : doe - doe / 1460 + doe / 36524 - doe / 146096
      = 365 * (100 * c + 4 * q + y) + (s + (25 * c + q - doe / 1460)) := by omega
  rw [hdays]
  omega

/-- The year of an era a day lies in. -/
theorem yearOfEra {doe : ℤ} (h0 : 0 ≤ doe) (h1 : doe < 146097) :
    ∃ yoe, (doe - doe / 1460 + doe / 36524 - doe / 146096) / 365 = yoe ∧ 0 ≤ yoe ∧ yoe ≤ 399 ∧
      365 * yoe + yoe / 4 - yoe / 100 ≤ doe ∧
      doe < 365 * (yoe + 1) + (yoe + 1) / 4 - (yoe + 1) / 100 + (yoe + 1) / 400 := by
  obtain ⟨c, q, y, s, hc, hc', hy, hy', hq, hq', hs, hdoe, hlast⟩ := era_split h0 h1
  have hyear := yearOfEra_eq hc hc' hy hy' hq hq' hs hdoe hlast
  refine ⟨100 * c + 4 * q + y, hyear, by omega, by omega, ?_⟩
  clear hyear
  have h4 : (100 * c + 4 * q + y) / 4 = 25 * c + q := by omega
  have h100 : (100 * c + 4 * q + y) / 100 = c := by omega
  refine ⟨by omega, ?_⟩
  have hnext4 : y ≤ 2 ∧ (100 * c + 4 * q + y + 1) / 4 = 25 * c + q ∨
      y = 3 ∧ (100 * c + 4 * q + y + 1) / 4 = 25 * c + q + 1 := by omega
  have hnext100 : 4 * q + y < 99 ∧ (100 * c + 4 * q + y + 1) / 100 = c ∨
      (q = 24 ∧ y = 3) ∧ (100 * c + 4 * q + y + 1) / 100 = c + 1 := by omega
  have hnext400 : (100 * c + 4 * q + y + 1) / 400 = 0 ∨
      (c = 3 ∧ q = 24 ∧ y = 3) ∧ (100 * c + 4 * q + y + 1) / 400 = 1 := by omega
  omega

/-- March of a year of an era. -/
theorem march_era (yoe era : ℤ) : march (yoe + era * 400)
    = 365 * yoe + yoe / 4 - yoe / 100 + yoe / 400 + era * 146097 - 719468 := by
  have h4 : (yoe + era * 400) / 4 = yoe / 4 + era * 100 := by omega
  have h100 : (yoe + era * 400) / 100 = yoe / 100 + era * 4 := by omega
  have h400 : (yoe + era * 400) / 400 = yoe / 400 + era := by omega
  unfold march
  omega

/-- A day from 1 March of year 0 on: the year and the month that hold it, both from March, and the
civil date by them. -/
theorem civilFromDays_march {z : ℤ} (hz : firstDay ≤ z) :
    ∃ Y k : ℤ, 0 ≤ Y ∧ 0 ≤ k ∧ k ≤ 11 ∧ march Y + (153 * k + 2) / 5 ≤ z ∧ z < march (Y + 1) ∧
      z < march Y + (153 * (k + 1) + 2) / 5 ∧
      (civilFromDays z).y = (if k < 10 then Y else Y + 1) ∧
      (civilFromDays z).m = if k < 10 then k + 3 else k - 9 := by
  unfold firstDay at hz
  obtain ⟨era, hera⟩ : ∃ era, era = (z + 719468) / 146097 := ⟨_, rfl⟩
  obtain ⟨doe, hdoe⟩ : ∃ doe, doe = z + 719468 - era * 146097 := ⟨_, rfl⟩
  obtain ⟨yoe, hyoe, h0, h399, hle, hlt⟩ := @yearOfEra doe (by omega) (by omega)
  obtain ⟨doy, hdoy⟩ : ∃ doy, doy = doe - (365 * yoe + yoe / 4 - yoe / 100) := ⟨_, rfl⟩
  obtain ⟨k, hk⟩ : ∃ k, k = (5 * doy + 2) / 153 := ⟨_, rfl⟩
  have hcivil : civilFromDays z =
      ⟨if (if k < 10 then k + 3 else k - 9) ≤ 2 then yoe + era * 400 + 1 else yoe + era * 400,
        if k < 10 then k + 3 else k - 9, doy - (153 * k + 2) / 5 + 1⟩ := by
    unfold civilFromDays
    dsimp only
    rw [if_pos (by omega : 0 ≤ z + 719468), ← hera, ← hdoe, hyoe, ← hdoy, ← hk]
  clear hyoe
  have hyear := march_era yoe era
  have hnext := march_era (yoe + 1) era
  rw [show yoe + 1 + era * 400 = yoe + era * 400 + 1 by omega] at hnext
  have h400 : yoe / 400 = 0 := by omega
  refine ⟨yoe + era * 400, k, by omega, by omega, by omega, by omega, by omega, by omega, ?_, ?_⟩
  · rw [hcivil]
    dsimp only
    split_ifs <;> omega
  · rw [hcivil]

/-- The first day of month `k` of year `Y`, months counted from March. -/
def monthStart (Y k : ℤ) : ℤ := march Y + (153 * k + 2) / 5

/-- The first day after that month. -/
def monthEnd (Y k : ℤ) : ℤ := if k < 11 then monthStart Y (k + 1) else march (Y + 1)

/-- The month of a day, from 1 March of year 0 on. -/
theorem month_eq {z : ℤ} (hz : firstDay ≤ z) : ∃ Y k : ℤ, 0 ≤ Y ∧ 0 ≤ k ∧ k ≤ 11 ∧
    startDay z = monthStart Y k ∧ resetDay z = monthEnd Y k ∧
    monthStart Y k ≤ z ∧ z < monthEnd Y k := by
  obtain ⟨Y, k, hY, hk, hk', hle, hltYear, hltMonth, hy, hm⟩ := civilFromDays_march hz
  have hreset : resetDay z = monthEnd Y k := by
    rw [resetDay, monthEnd, monthStart, hy, hm]
    by_cases h11 : k < 11
    · rw [if_pos h11, ← daysFromCivil_march hY (by omega : 0 ≤ k + 1) (by omega)]
      congr 1 <;> split_ifs <;> omega
    · have hstart := daysFromCivil_march (by omega : 0 ≤ Y + 1) le_rfl (by norm_num)
      rw [if_neg h11]
      calc _ = daysFromCivil (Y + 1) 3 1 := by congr 1 <;> split_ifs <;> omega
        _ = march (Y + 1) := by rw [← add_zero (march (Y + 1))]; exact hstart
  refine ⟨Y, k, hY, hk, hk', ?_, hreset, hle, ?_⟩
  · rw [startDay, hy, hm, daysFromCivil_march hY hk hk', monthStart]
  · rw [monthEnd, monthStart]
    split
    · exact hltMonth
    · exact hltYear

/-- The month of a day, from 1 March of year 0 on: the day is before its end, and its start
determines its end. -/
theorem month_spec {z z' : ℤ} (hz : firstDay ≤ z) (hz' : firstDay ≤ z') :
    z < resetDay z ∧ (startDay z = startDay z' → resetDay z = resetDay z') := by
  obtain ⟨Y, k, hY, hk, hk', hstart, hreset, -, hlt⟩ := month_eq hz
  obtain ⟨Y', l, hY', hl, hl', hstart', hreset', -, -⟩ := month_eq hz'
  refine ⟨hlt.trans_eq hreset.symm, fun heq => ?_⟩
  have hgap := march_add_le Y
  have hgap' := march_add_le Y'
  rw [hstart, hstart', monthStart, monthStart] at heq
  -- the last month of a year starts well before the next year does
  have hYeq : Y = Y' := by
    rcases lt_trichotomy Y Y' with hlt' | heq' | hgt
    · have hmono := march_strictMono.monotone (by omega : Y + 1 ≤ Y')
      omega
    · exact heq'
    · have hmono := march_strictMono.monotone (by omega : Y' + 1 ≤ Y)
      omega
  subst hYeq
  have hkeq : k = l := by omega
  subst hkeq
  rw [hreset, hreset']

/-! ### Periods do not come back -/

/-- Whether the civil arithmetic of the cadence is in its range at `now`. -/
def InRange (cadence : CalendarCadence) (now : ℚ) (offsetMs : ℤ) : Prop :=
  cadence = .month → firstDay ≤ dayOf now offsetMs

/-- A day is before the end of its period, and a period's start determines its end. -/
theorem periodDays_spec {cadence : CalendarCadence} {weekStartsOn day day' : ℤ}
    (hday : cadence = .month → firstDay ≤ day) (hday' : cadence = .month → firstDay ≤ day') :
    day < (periodDays cadence weekStartsOn day).2 ∧
      ((periodDays cadence weekStartsOn day).1 = (periodDays cadence weekStartsOn day').1 →
        (periodDays cadence weekStartsOn day).2 = (periodDays cadence weekStartsOn day').2) := by
  cases cadence with
  | day => exact ⟨lt_add_one day, fun h => congrArg (· + 1) h⟩
  | week =>
    refine ⟨?_, fun h => congrArg (· + 7) h⟩
    show day < day - ((day + 4) % 7 - weekStartsOn) % 7 + 7
    omega
  | month => exact month_spec (hday rfl) (hday' rfl)

/-- A day has begun when its first instant is past. -/
theorem le_dayOf {d : ℤ} {now : ℚ} {offsetMs : ℤ} :
    d ≤ dayOf now offsetMs ↔ ((d * msPerDay - offsetMs : ℤ) : ℚ) ≤ now := by
  have hpos : (0 : ℚ) < msPerDay := by norm_num [msPerDay]
  rw [dayOf, fl_exact, fl_exact, Int.le_floor, le_div_iff₀ hpos]
  push_cast
  exact sub_le_iff_le_add.symm

/-- **An instant past a period's end is in one that starts elsewhere.** -/
theorem calendarPeriod_start_ne {cadence : CalendarCadence} {now now' : ℚ}
    {offsetMs weekStartsOn : ℤ} (hnow : InRange cadence now offsetMs)
    (hnow' : InRange cadence now' offsetMs)
    (hle : (calendarPeriod cadence now offsetMs weekStartsOn).reset ≤ now') :
    (calendarPeriod cadence now offsetMs weekStartsOn).start
      ≠ (calendarPeriod cadence now' offsetMs weekStartsOn).start := by
  intro heq
  have hday := le_dayOf.mpr hle
  obtain ⟨hlt, hdet⟩ := @periodDays_spec cadence weekStartsOn _ _ hnow' hnow
  have hstart : (periodDays cadence weekStartsOn (dayOf now offsetMs)).1
      = (periodDays cadence weekStartsOn (dayOf now' offsetMs)).1 := by
    have hms : (periodDays cadence weekStartsOn (dayOf now offsetMs)).1 * msPerDay - offsetMs
        = (periodDays cadence weekStartsOn (dayOf now' offsetMs)).1 * msPerDay - offsetMs :=
      Int.cast_injective heq
    unfold msPerDay at hms
    omega
  rw [hdet hstart.symm] at hlt
  exact absurd hlt (not_lt.mpr hday)

end ThrottleKit.Calendar
