import ThrottleKit.Algorithms.CivilDates
import ThrottleKit.Algorithms.Quota

/-!
# Calendar periods tile the time line

From the epoch on, and at every offset the constructor accepts, the period of an instant holds it,
starts at midnight of the first day of its unit, is the period of every instant it holds, and is
followed by the one that starts where it ends.

## Main definitions

* `AcceptsCalendar` — the offsets and week starts `quota` accepts
* `IsFirstDay` — the days a unit starts on
* `Tiles` — what the period of an instant has to be

## Main results

* `calendarPeriod_tiles` — and is
-/

namespace ThrottleKit.Calendar

/-- The offset in minutes and the week start are ones that `quota` accepts. -/
def AcceptsCalendar (offsetMinutes weekStartsOn : ℤ) : Prop :=
  (-840 ≤ offsetMinutes ∧ offsetMinutes ≤ 840) ∧ 0 ≤ weekStartsOn ∧ weekStartsOn ≤ 6

instance (offsetMinutes weekStartsOn : ℤ) :
    Decidable (AcceptsCalendar offsetMinutes weekStartsOn) := inferInstanceAs (Decidable (_ ∧ _))

/-- The weekday of a day, zero on a Sunday: day zero is a Thursday. -/
def weekday (day : ℤ) : ℤ := (day + 4) % 7

/-- The day is one that a unit of the calendar starts on. -/
def IsFirstDay (weekStartsOn day : ℤ) : CalendarCadence → Prop
  | .day => True
  | .week => weekday day = weekStartsOn
  | .month => (civilFromDays day).d = 1

/-- The period `p` of `now` holds it, starts at midnight of the first day of its unit, is the period
of all it holds, and is followed by one that starts where it ends. -/
structure Tiles (period : ℚ → Period) (cadence : CalendarCadence) (offsetMs weekStartsOn : ℤ)
    (now : ℚ) : Prop where
  start_le : (period now).start ≤ now
  lt_reset : now < (period now).reset
  midnight : (period now).start + offsetMs = dayOf (period now).start offsetMs * msPerDay
  first : IsFirstDay weekStartsOn (dayOf (period now).start offsetMs) cadence
  same : ∀ now', (period now).start ≤ now' → now' < (period now).reset → period now' = period now
  next : (period (period now).reset).start = (period now).reset

/-! ### Months -/

section Months

variable {Y k : ℤ}

theorem monthEnd_le : monthEnd Y k ≤ march (Y + 1) := by
  have hgap := march_add_le Y
  rw [monthEnd]
  split
  · rw [monthStart]
    omega
  · exact le_rfl

theorem monthStart_lt_monthEnd (hk : k ≤ 11) : monthStart Y k < monthEnd Y k := by
  have hgap := march_add_le Y
  rcases lt_or_eq_of_le hk with hlt | rfl
  · rw [monthEnd, if_pos hlt, monthStart, monthStart]
    omega
  · rw [monthEnd, if_neg (by norm_num), monthStart]
    omega

/-- **A month is that of all its days.** -/
theorem startDay_eq {z : ℤ} (hY : 0 ≤ Y) (hk : 0 ≤ k) (hk' : k ≤ 11) (hle : monthStart Y k ≤ z)
    (hlt : z < monthEnd Y k) : startDay z = monthStart Y k ∧ resetDay z = monthEnd Y k := by
  have hzero : march 0 ≤ march Y := march_strictMono.monotone hY
  have hfirst : firstDay ≤ z := by
    have hmarch : march 0 = firstDay := rfl
    rw [monthStart] at hle
    omega
  obtain ⟨Y', l, hY', hl, hl', hstart, hreset, hle', hlt'⟩ := month_eq hfirst
  have hend := monthEnd_le (Y := Y) (k := k)
  have hend' := monthEnd_le (Y := Y') (k := l)
  have hYeq : Y' = Y := by
    have hyear : marchYear z = Y := marchYear_eq (by rw [monthStart] at hle; omega) (by omega)
    have hyear' : marchYear z = Y' := marchYear_eq (by rw [monthStart] at hle'; omega) (by omega)
    rw [← hyear, hyear']
  subst hYeq
  have hmonth : l = k := by
    rcases lt_trichotomy l k with hless | heq | hmore
    · rw [monthEnd, if_pos (by omega)] at hlt'
      simp only [monthStart] at hle hlt'
      omega
    · exact heq
    · rw [monthEnd, if_pos (by omega)] at hlt
      simp only [monthStart] at hle' hlt
      omega
  subst hmonth
  exact ⟨hstart, hreset⟩

/-- The month after a month starts with its end. -/
theorem startDay_monthEnd (hY : 0 ≤ Y) (hk : 0 ≤ k) (hk' : k ≤ 11) :
    startDay (monthEnd Y k) = monthEnd Y k := by
  by_cases h11 : k < 11
  · have hstart : monthEnd Y k = monthStart Y (k + 1) := if_pos h11
    rw [hstart]
    exact (startDay_eq hY (by omega) (by omega) le_rfl (monthStart_lt_monthEnd (by omega))).1
  · have hstart : monthEnd Y k = monthStart (Y + 1) 0 := by
      rw [monthEnd, if_neg h11, monthStart]
      omega
    rw [hstart]
    exact (startDay_eq (by omega) le_rfl (by norm_num) le_rfl
      (monthStart_lt_monthEnd (by norm_num))).1

/-- A month starts on the first. -/
theorem civilFromDays_monthStart (hY : 0 ≤ Y) (hk : 0 ≤ k) (hk' : k ≤ 11) :
    (civilFromDays (monthStart Y k)).d = 1 := by
  have hend := monthEnd_le (Y := Y) (k := k)
  have hlt := monthStart_lt_monthEnd (Y := Y) hk'
  have hmarch : march Y ≤ monthStart Y k := by
    rw [monthStart]
    omega
  have hfirst : firstDay ≤ monthStart Y k :=
    (march_strictMono.monotone hY : march 0 ≤ march Y).trans hmarch
  rw [civilFromDays_of_le hfirst, marchYear_eq hmarch (by omega), monthStart, add_sub_cancel_left,
    marchDate]
  show (153 * k + 2) / 5 - (153 * ((5 * ((153 * k + 2) / 5) + 2) / 153) + 2) / 5 + 1 = 1
  have hmonth : (5 * ((153 * k + 2) / 5) + 2) / 153 = k := by omega
  rw [hmonth, sub_self, zero_add]

end Months

/-! ### Days -/

/-- What the days of the period of a day have to be. -/
theorem periodDays_tiles (cadence : CalendarCadence) {weekStartsOn day : ℤ}
    (hweek : 0 ≤ weekStartsOn ∧ weekStartsOn ≤ 6) (hday : firstDay ≤ day) :
    (periodDays cadence weekStartsOn day).1 ≤ day ∧ day < (periodDays cadence weekStartsOn day).2 ∧
      IsFirstDay weekStartsOn (periodDays cadence weekStartsOn day).1 cadence ∧
      (∀ day', (periodDays cadence weekStartsOn day).1 ≤ day' →
        day' < (periodDays cadence weekStartsOn day).2 →
          periodDays cadence weekStartsOn day' = periodDays cadence weekStartsOn day) ∧
      (periodDays cadence weekStartsOn (periodDays cadence weekStartsOn day).2).1
        = (periodDays cadence weekStartsOn day).2 := by
  cases cadence with
  | day =>
    refine ⟨le_rfl, lt_add_one day, trivial, fun day' hle hlt => ?_, rfl⟩
    obtain rfl : day' = day := le_antisymm (Int.lt_add_one_iff.mp hlt) hle
    rfl
  | week =>
    simp only [periodDays, IsFirstDay, weekday]
    refine ⟨by omega, by omega, by omega, fun day' hle hlt => ?_, by omega⟩
    have hsame : day' - ((day' + 4) % 7 - weekStartsOn) % 7
        = day - ((day + 4) % 7 - weekStartsOn) % 7 := by
      omega
    rw [hsame]
  | month =>
    obtain ⟨Y, k, hY, hk, hk', hstart, hreset, hle, hlt⟩ := month_eq hday
    simp only [periodDays, IsFirstDay, hstart, hreset]
    refine ⟨hle, hlt, civilFromDays_monthStart hY hk hk', fun day' hle' hlt' => ?_,
      startDay_monthEnd hY hk hk'⟩
    obtain ⟨hstart', hreset'⟩ := startDay_eq hY hk hk' hle' hlt'
    rw [hstart', hreset']

/-! ### Instants -/

theorem dayOf_lt {d : ℤ} {now : ℚ} {offsetMs : ℤ} :
    dayOf now offsetMs < d ↔ now < ((d * msPerDay - offsetMs : ℤ) : ℚ) := by
  rw [← not_le, ← not_le, le_dayOf]

/-- The day that starts at an instant. -/
theorem dayOf_midnight (d offsetMs : ℤ) :
    dayOf ((d * msPerDay - offsetMs : ℤ) : ℚ) offsetMs = d := by
  refine le_antisymm (Int.lt_add_one_iff.mp (dayOf_lt.mpr ?_)) (le_dayOf.mpr le_rfl)
  exact_mod_cast sub_lt_sub_right (Int.mul_lt_mul_of_pos_right (lt_add_one d) (by decide)) offsetMs

/-- At an accepted offset the epoch is not before its day minus one. -/
theorem firstDay_le_dayOf {offsetMinutes weekStartsOn : ℤ}
    (h : AcceptsCalendar offsetMinutes weekStartsOn) {now : ℚ} (hnow : 0 ≤ now) :
    firstDay ≤ dayOf now (Quota.offsetMs offsetMinutes) := by
  refine le_dayOf.mpr (le_trans ?_ hnow)
  have hoffset := h.1.1
  have hle : firstDay * msPerDay - Quota.offsetMs offsetMinutes ≤ 0 := by
    rw [firstDay, msPerDay, Quota.offsetMs]
    omega
  exact_mod_cast hle

/-- **Calendar periods tile the time line**: for every cadence, every offset and week start that is
accepted and every instant from the epoch on. -/
theorem calendarPeriod_tiles {offsetMinutes weekStartsOn : ℤ}
    (h : AcceptsCalendar offsetMinutes weekStartsOn) (cadence : CalendarCadence) {now : ℚ}
    (hnow : 0 ≤ now) :
    Tiles (fun t => (Quota.Cadence.calendar cadence offsetMinutes weekStartsOn).bounds t) cadence
      (Quota.offsetMs offsetMinutes) weekStartsOn now := by
  obtain ⟨hle, hlt, hfirst, hsame, hnext⟩ :=
    periodDays_tiles cadence h.2 (firstDay_le_dayOf h hnow)
  constructor
  case start_le => exact le_dayOf.mp hle
  case lt_reset => exact dayOf_lt.mp hlt
  case midnight =>
    simp only [Quota.Cadence.bounds, calendarPeriod, dayOf_midnight]
    push_cast
    exact sub_add_cancel _ _
  case first =>
    simp only [Quota.Cadence.bounds, calendarPeriod, dayOf_midnight]
    exact hfirst
  case same =>
    intro now' hle' hlt'
    simp only [Quota.Cadence.bounds, calendarPeriod]
    rw [hsame _ (le_dayOf.mpr hle') (dayOf_lt.mpr hlt')]
  case next =>
    simp only [Quota.Cadence.bounds, calendarPeriod, dayOf_midnight]
    rw [hnext]

/-- A leap day at noon, in a zone fourteen hours ahead. -/
theorem calendarPeriod_tiles_leapDay :
    Tiles (fun t => (Quota.Cadence.calendar .month 840 1).bounds t) .month (Quota.offsetMs 840) 1
      1709208000000 :=
  calendarPeriod_tiles (by decide) .month (by norm_num)

end ThrottleKit.Calendar
