import Mathlib.Tactic.IntervalCases
import ThrottleKit.Algorithms.Calendar

/-!
# The civil dates of all days

From 1 March of year 0 on, `civilFromDays` runs through the dates of the Gregorian calendar, and
`daysFromCivil` maps each back to its day. Before that both take an era of 400 years too far back,
except on its last day or in its last year, and lose a leap day in counting it: the dates are one
day late, which `daysFromCivil` makes up for except in the last year of an era, and years end on 29
February or 30 February.

## Main definitions

* `isLeap`, `daysInMonth`, `CivilDate.Valid`, `CivilDate.next` — the Gregorian calendar
* `marchYear`, `marchDate` — the year from March that holds a day, and the date of a day of it
* `Regular` — the days on which the two functions agree with each other and the calendar

## Main results

* `civilFromDays_eq`, `daysFromCivil_marchDate` — what the two functions compute on any day
* `civil_roundtrip_iff` — when they agree
-/

namespace ThrottleKit.Calendar

/-! ### The Gregorian calendar -/

/-- A leap year. -/
def isLeap (y : ℤ) : Prop := y % 4 = 0 ∧ (y % 100 ≠ 0 ∨ y % 400 = 0)

instance : DecidablePred isLeap := fun _ => inferInstanceAs (Decidable (_ ∧ _))

def daysInMonth (y m : ℤ) : ℤ :=
  if m = 2 then if isLeap y then 29 else 28
  else if m = 4 ∨ m = 6 ∨ m = 9 ∨ m = 11 then 30
  else 31

/-- A date of the calendar. -/
def CivilDate.Valid (c : CivilDate) : Prop :=
  (1 ≤ c.m ∧ c.m ≤ 12) ∧ 1 ≤ c.d ∧ c.d ≤ daysInMonth c.y c.m

instance (c : CivilDate) : Decidable c.Valid := inferInstanceAs (Decidable (_ ∧ _))

/-- The next date. -/
def CivilDate.next (c : CivilDate) : CivilDate :=
  if c.d < daysInMonth c.y c.m then ⟨c.y, c.m, c.d + 1⟩
  else if c.m < 12 then ⟨c.y, c.m + 1, 1⟩
  else ⟨c.y + 1, 1, 1⟩

/-! ### Days of a year from March -/

/-- Day `s`, from zero, of the year from March of year `Y`. -/
def marchDate (Y s : ℤ) : CivilDate :=
  let mp := (5 * s + 2) / 153
  let m := if mp < 10 then mp + 3 else mp - 9
  ⟨if m ≤ 2 then Y + 1 else Y, m, s - (153 * mp + 2) / 5 + 1⟩

/-- How long the year from March of year `Y` is. -/
theorem march_succ (Y : ℤ) : march (Y + 1) = march Y + if isLeap (Y + 1) then 366 else 365 := by
  rw [march, march]
  by_cases hleap : isLeap (Y + 1)
  · rw [if_pos hleap]
    rw [isLeap] at hleap
    omega
  · rw [if_neg hleap]
    rw [isLeap] at hleap
    omega

variable {Y s : ℤ}

/-- A day past February. -/
theorem marchDate_of_month {mp : ℤ} (h0 : 0 ≤ mp) (h1 : mp ≤ 10)
    (hs : (153 * mp + 2) / 5 ≤ s) (hs' : s < (153 * (mp + 1) + 2) / 5) :
    marchDate Y s = ⟨if mp < 10 then Y else Y + 1, if mp < 10 then mp + 3 else mp - 9,
      s - (153 * mp + 2) / 5 + 1⟩ := by
  have hmp : (5 * s + 2) / 153 = mp := by omega
  rw [marchDate, hmp]
  simp only [CivilDate.mk.injEq, and_true]
  split_ifs <;> omega

/-- A day of February, or what would be one. -/
theorem marchDate_of_february (hs : 337 ≤ s) (hs' : s ≤ 366) :
    marchDate Y s = ⟨Y + 1, 2, s - 336⟩ := by
  have hmp : (5 * s + 2) / 153 = 11 := by omega
  rw [marchDate, hmp]
  simp only [CivilDate.mk.injEq]
  norm_num
  omega

/-- How long a month past February is. -/
theorem daysInMonth_of_month (y : ℤ) {mp : ℤ} (h0 : 0 ≤ mp) (h1 : mp ≤ 10) :
    daysInMonth y (if mp < 10 then mp + 3 else mp - 9)
      = (153 * (mp + 1) + 2) / 5 - (153 * mp + 2) / 5 := by
  interval_cases mp <;> rfl

theorem valid_marchDate (h0 : 0 ≤ s) (h1 : march Y + s < march (Y + 1)) :
    (marchDate Y s).Valid := by
  have hlen := march_succ Y
  by_cases hfeb : s < 337
  · obtain ⟨mp, hmp⟩ : ∃ mp, mp = (5 * s + 2) / 153 := ⟨_, rfl⟩
    obtain ⟨hmp0, hmp1⟩ : 0 ≤ mp ∧ mp ≤ 10 := by omega
    rw [marchDate_of_month hmp0 hmp1 (by omega) (by omega), CivilDate.Valid]
    dsimp only
    rw [daysInMonth_of_month _ hmp0 hmp1]
    split <;> omega
  · have hs : s ≤ 366 := by split at hlen <;> omega
    rw [marchDate_of_february (by omega) hs, CivilDate.Valid, daysInMonth, if_pos rfl]
    dsimp only
    split at hlen <;> split <;> omega

/-- The date after a day of a year is that of the next day, or 1 March. -/
theorem next_marchDate (h0 : 0 ≤ s) (h1 : march Y + s < march (Y + 1)) :
    (marchDate Y s).next
      = if march Y + s + 1 < march (Y + 1) then marchDate Y (s + 1) else marchDate (Y + 1) 0 := by
  have hlen := march_succ Y
  by_cases hfeb : s < 337
  · obtain ⟨mp, hmp⟩ : ∃ mp, mp = (5 * s + 2) / 153 := ⟨_, rfl⟩
    obtain ⟨hmp0, hmp1⟩ : 0 ≤ mp ∧ mp ≤ 10 := by omega
    have hmore : march Y + s + 1 < march (Y + 1) := by split at hlen <;> omega
    rw [if_pos hmore, marchDate_of_month hmp0 hmp1 (by omega) (by omega), CivilDate.next]
    dsimp only
    rw [daysInMonth_of_month _ hmp0 hmp1]
    have hwithin : s < (153 * (mp + 1) + 2) / 5 := by omega
    by_cases hlast : s + 1 < (153 * (mp + 1) + 2) / 5
    · rw [if_pos (by omega), marchDate_of_month hmp0 hmp1 (by omega) hlast]
      congr 1
      omega
    · have hfirst : s + 1 = (153 * (mp + 1) + 2) / 5 := by omega
      rw [if_neg (by omega)]
      rcases lt_or_eq_of_le hmp1 with hlt | rfl
      · rw [marchDate_of_month (by omega : 0 ≤ mp + 1) (by omega) hfirst.ge (by omega), hfirst,
          sub_self, zero_add]
        -- after December the year goes up, too
        rcases lt_or_eq_of_le (by omega : mp ≤ 9) with hlt9 | rfl
        · rw [if_pos (by omega : mp < 10), if_pos (by omega : mp < 10), if_pos (by omega),
            if_pos (by omega : mp + 1 < 10), if_pos (by omega : mp + 1 < 10)]
          congr 1
          omega
        · rfl
      · rw [marchDate_of_february (by omega) (by omega)]
        norm_num
        omega
  · have hs : s ≤ 366 := by split at hlen <;> omega
    have hfebruary : s - 336 < (if isLeap (Y + 1) then 29 else 28) ↔
        march Y + s + 1 < march (Y + 1) := by
      by_cases hleap : isLeap (Y + 1) <;> simp only [hleap, if_true, if_false] at hlen ⊢ <;> omega
    rw [marchDate_of_february (by omega) hs, CivilDate.next, daysInMonth, if_pos rfl]
    by_cases hlast : march Y + s + 1 < march (Y + 1)
    · rw [if_pos hlast, if_pos (hfebruary.mpr hlast),
        marchDate_of_february (by omega) (by split at hlen <;> omega)]
      congr 1
      exact (add_sub_right_comm s 1 336).symm
    · rw [if_neg hlast, if_neg fun h => hlast (hfebruary.mp h)]
      rfl

/-! ### What the two functions compute -/

/-- The day of a date by its year from March: a day early in a negative year, but for the last ones
of their eras. -/
theorem daysFromCivil_marchDate (Y : ℤ) (h0 : 0 ≤ s) (h1 : s ≤ 366) :
    daysFromCivil (marchDate Y s).y (marchDate Y s).m (marchDate Y s).d
      = march Y + s - if Y < 0 ∧ Y % 400 ≠ 399 then 1 else 0 := by
  obtain ⟨mp, hmp⟩ : ∃ mp, mp = (5 * s + 2) / 153 := ⟨_, rfl⟩
  obtain ⟨hmp0, hmp1⟩ : 0 ≤ mp ∧ mp ≤ 11 := by omega
  have hyear : (marchDate Y s).y - (if (marchDate Y s).m ≤ 2 then 1 else 0) = Y := by
    rw [marchDate]
    dsimp only
    split <;> omega
  have hmonth : (marchDate Y s).m + (if 2 < (marchDate Y s).m then -3 else 9) = mp := by
    rw [marchDate, ← hmp]
    dsimp only
    split_ifs <;> omega
  have hday : (marchDate Y s).d = s - (153 * mp + 2) / 5 + 1 := by
    rw [marchDate, ← hmp]
  rw [daysFromCivil, hyear, hmonth, hday, march]
  by_cases hneg : 0 ≤ Y
  · rw [if_pos hneg, if_neg (by omega)]
    omega
  · rw [if_neg hneg]
    by_cases hlast : Y % 400 = 399
    · rw [if_neg (by omega)]
      omega
    · rw [if_pos (by omega)]
      omega

/-- The year of an era that holds a day, by the same division for the day 400 years later. -/
theorem yearOfEra_add {doe : ℤ} (h0 : 0 ≤ doe) (h1 : doe < 146096) :
    (doe + 146097 - (doe + 146097) / 1460 + (doe + 146097) / 36524 - (doe + 146097) / 146096) / 365
      = (doe - doe / 1460 + doe / 36524 - doe / 146096) / 365 + 400 := by
  obtain ⟨c, q, y, s, hc, hc', hy, hy', hq, hq', hs, hdoe, hlast⟩ := era_split h0 (by omega)
  rw [yearOfEra_eq hc hc' hy hy' hq hq' hs hdoe hlast]
  -- on the last day of a century but the fourth, the shifted day is in the next one already
  have hcentury : (doe + 1) / 36524 - (doe + 1) / 146096 = c ∨
      (doe + 1) / 36524 - (doe + 1) / 146096 = c + 1 ∧ q = 24 ∧ y = 3 ∧ s = 364 := by
    rcases lt_or_ge (1461 * q + 365 * y + s + 1) 36524 with hlt | hge
    · left
      exact century_of_era hc hc' (r := 1461 * q + 365 * y + s + 1) (by omega) (by omega) (.inl hlt)
    · obtain ⟨rfl, rfl, rfl⟩ : q = 24 ∧ y = 3 ∧ s = 364 := by omega
      subst hdoe
      interval_cases c <;> simp
  have hcycle : (doe + 97) / 1460 = 25 * c + q ∧ s ≤ 364 ∨
      (doe + 97) / 1460 = 25 * c + q + 1 ∧ 1 ≤ s ∧ y = 3 := by
    have h1460 : (doe + 97) / 1460 = 25 * c + q ∨ (doe + 97) / 1460 = 25 * c + q + 1 := by omega
    omega
  have hdays : doe + 146097 - (doe + 146097) / 1460 + (doe + 146097) / 36524
      - (doe + 146097) / 146096 = 365 * (100 * c + 4 * q + y + 400)
        + (s + (25 * c + q - (doe + 97) / 1460)
          + ((doe + 1) / 36524 - (doe + 1) / 146096 - c)) := by
    omega
  rw [hdays]
  omega

/-- The year from March that holds a day. -/
def marchYear (z : ℤ) : ℤ :=
  let doe := (z + 719468) % 146097
  (doe - doe / 1460 + doe / 36524 - doe / 146096) / 365 + (z + 719468) / 146097 * 400

theorem marchYear_spec (z : ℤ) : march (marchYear z) ≤ z ∧ z < march (marchYear z + 1) := by
  obtain ⟨yoe, hyoe, h0, h399, hle, hlt⟩ :=
    @yearOfEra ((z + 719468) % 146097) (by omega) (by omega)
  have hyear := march_era yoe ((z + 719468) / 146097)
  have hnext := march_era (yoe + 1) ((z + 719468) / 146097)
  rw [add_right_comm] at hnext
  rw [marchYear, hyoe]
  have h400 : yoe / 400 = 0 := by omega
  omega

/-- A year from March that holds a day is the one. -/
theorem marchYear_eq {z : ℤ} (h0 : march Y ≤ z) (h1 : z < march (Y + 1)) : marchYear z = Y := by
  obtain ⟨hle, hlt⟩ := marchYear_spec z
  rcases lt_trichotomy (marchYear z) Y with hless | heq | hmore
  · have hmono := march_strictMono.monotone (by omega : marchYear z + 1 ≤ Y)
    omega
  · exact heq
  · have hmono := march_strictMono.monotone (by omega : Y + 1 ≤ marchYear z)
    omega

/-- **The civil date of a day**: before year 0, but for the last day of an era, it is a day late. -/
theorem civilFromDays_eq (z : ℤ) : civilFromDays z = marchDate (marchYear z)
    (z - march (marchYear z)
      + if z < firstDay ∧ (z + 719468) % 146097 ≠ 146096 then 1 else 0) := by
  obtain ⟨era, hera⟩ : ∃ era, era = (z + 719468) / 146097 := ⟨_, rfl⟩
  obtain ⟨doe, hdoe⟩ : ∃ doe, doe = (z + 719468) % 146097 := ⟨_, rfl⟩
  have hday : z + 719468 = doe + era * 146097 := by omega
  obtain ⟨yoe, hyoe, h0, h399, -, -⟩ := @yearOfEra doe (by omega) (by omega)
  have hmarch : marchYear z = yoe + era * 400 := by rw [marchYear, ← hera, ← hdoe, hyoe]
  have hyear : march (yoe + era * 400)
      = 365 * yoe + yoe / 4 - yoe / 100 + era * 146097 - 719468 := by
    have h400 : yoe / 400 = 0 := by omega
    rw [march_era, h400, add_zero]
  -- the era that the code counts in, the day of it, and the year
  have hcivil : ∀ e d y, (if 0 ≤ z + 719468 then z + 719468 else z + 719468 - 146096) / 146097 = e →
      z + 719468 - e * 146097 = d → (d - d / 1460 + d / 36524 - d / 146096) / 365 = y →
      civilFromDays z = marchDate (y + e * 400) (d - (365 * y + y / 4 - y / 100)) := by
    rintro _ _ _ rfl rfl rfl
    rw [civilFromDays, marchDate]
  rw [hmarch, hyear, firstDay, ← hdoe]
  by_cases hback : z < -719468 ∧ doe ≠ 146096
  · have hera' : (if 0 ≤ z + 719468 then z + 719468 else z + 719468 - 146096) / 146097
        = era - 1 := by
      rw [if_neg (by omega)]
      clear hyoe
      omega
    have hdoe' : z + 719468 - (era - 1) * 146097 = doe + 146097 := by omega
    have hshift := @yearOfEra_add doe (by omega) (by omega)
    rw [hyoe] at hshift
    rw [if_pos hback, hcivil _ _ _ hera' hdoe' hshift]
    clear hshift hyoe hcivil
    congr 1 <;> omega
  · have hera' : (if 0 ≤ z + 719468 then z + 719468 else z + 719468 - 146096) / 146097 = era := by
      clear hyoe
      split <;> omega
    rw [if_neg hback, hcivil era doe yoe hera' (by omega) hyoe]
    clear hyoe hcivil
    congr 1
    omega

/-! ### When they agree -/

/-- The civil date of a day, from 1 March of year 0 on. -/
theorem civilFromDays_of_le {z : ℤ} (hz : firstDay ≤ z) :
    civilFromDays z = marchDate (marchYear z) (z - march (marchYear z)) := by
  rw [civilFromDays_eq, if_neg fun h => absurd hz (not_le.mpr h.1), add_zero]

theorem marchYear_nonneg {z : ℤ} (hz : firstDay ≤ z) : 0 ≤ marchYear z := by
  by_contra hneg
  have hmono := march_strictMono.monotone (by omega : marchYear z + 1 ≤ 0)
  have hspec := marchYear_spec z
  rw [firstDay] at hz
  have hzero : march 0 = -719468 := rfl
  omega

/-- The last year of an era, from March, ends with the last day of it. -/
theorem marchYear_emod (z : ℤ) :
    marchYear z % 400 = 399 ∧ march (marchYear z + 1) = z + 1 ↔
      (z + 719468) % 146097 = 146096 := by
  have hmarch : ∀ j, march (400 * j) = 146097 * j - 719468 := by
    intro j
    rw [march]
    omega
  constructor
  · rintro ⟨hera, hend⟩
    obtain ⟨j, hj⟩ : ∃ j, marchYear z + 1 = 400 * j := ⟨(marchYear z + 1) / 400, by omega⟩
    rw [hj, hmarch] at hend
    omega
  · intro hlast
    obtain ⟨j, hj⟩ : ∃ j, z + 1 = 146097 * j - 719468 := ⟨(z + 719469) / 146097, by omega⟩
    have hend : march (400 * j - 1 + 1) = z + 1 := by rw [sub_add_cancel, hmarch, hj]
    have hgap := march_add_le (400 * j - 1)
    rw [marchYear_eq (Y := 400 * j - 1) (by omega) (by omega)]
    exact ⟨by omega, hend⟩

/-- The functions and the calendar agree on day `z`: its civil date is one of the calendar, is
mapped back to it, and the next day has the next date. -/
def Agrees (z : ℤ) : Prop :=
  (civilFromDays z).Valid ∧
    daysFromCivil (civilFromDays z).y (civilFromDays z).m (civilFromDays z).d = z ∧
    civilFromDays (z + 1) = (civilFromDays z).next

/-- The day is 29 February of year 0 or later; or its year from March is not the last of an era, and
the day is not one of the last two of it. -/
def Regular (z : ℤ) : Prop :=
  firstDay ≤ z + 1 ∨ marchYear z % 400 ≠ 399 ∧ z + 2 < march (marchYear z + 1)

theorem agrees_of_le {z : ℤ} (hz : firstDay ≤ z) : Agrees z := by
  obtain ⟨hle, hlt⟩ := marchYear_spec z
  have hlen := march_succ (marchYear z)
  have hs : z - march (marchYear z) ≤ 366 := by split at hlen <;> omega
  have hnonneg := marchYear_nonneg hz
  rw [Agrees, civilFromDays_of_le hz, civilFromDays_of_le (by omega : firstDay ≤ z + 1)]
  refine ⟨valid_marchDate (by omega) (by omega), ?_, ?_⟩
  · rw [daysFromCivil_marchDate _ (by omega) hs, if_neg (by omega)]
    omega
  · rw [next_marchDate (by omega) (by omega)]
    by_cases hmore : z + 1 < march (marchYear z + 1)
    · rw [if_pos (by omega), marchYear_eq (by omega : march (marchYear z) ≤ z + 1) hmore]
      congr 1
      omega
    · have hnext := march_add_le (marchYear z + 1)
      rw [if_neg (by omega), marchYear_eq (by omega : march (marchYear z + 1) ≤ z + 1) (by omega)]
      congr 1
      omega

/-- Before the last day of an era, in a negative year, the date is a day late. -/
theorem civilFromDays_late {z : ℤ} (hz : z < firstDay) (hlast : (z + 719468) % 146097 ≠ 146096) :
    civilFromDays z = marchDate (marchYear z) (z - march (marchYear z) + 1) := by
  rw [civilFromDays_eq, if_pos ⟨hz, hlast⟩]

theorem agrees_iff_of_late {z : ℤ} (hz : z + 1 < firstDay)
    (hlast : (z + 719468) % 146097 ≠ 146096) :
    Agrees z ↔ marchYear z % 400 ≠ 399 ∧ z + 2 < march (marchYear z + 1) := by
  obtain ⟨hle, hlt⟩ := marchYear_spec z
  have hneg : marchYear z < 0 := by
    by_contra hnonneg
    have hmono := march_strictMono.monotone (not_lt.mp hnonneg)
    have hzero : march 0 = -719468 := rfl
    rw [firstDay] at hz
    omega
  have hlen := march_succ (marchYear z)
  have hs : z - march (marchYear z) + 1 ≤ 366 := by split at hlen <;> omega
  rw [Agrees, civilFromDays_late (by omega) hlast, daysFromCivil_marchDate _ (by omega) hs]
  by_cases hera : marchYear z % 400 = 399
  · -- the day back is one too late
    rw [if_neg (by omega)]
    constructor
    · rintro ⟨-, hback, -⟩
      omega
    · exact fun h => absurd hera h.1
  · rw [if_pos ⟨hneg, hera⟩]
    rcases lt_trichotomy (z + 2) (march (marchYear z + 1)) with hmore | heq | hless
    · have hsame : marchYear (z + 1) = marchYear z := marchYear_eq (by omega) (by omega)
      have hlast' : (z + 1 + 719468) % 146097 ≠ 146096 := by
        rw [Ne, ← marchYear_emod, hsame]
        exact fun h => hera h.1
      refine iff_of_true ⟨valid_marchDate (by omega) (by omega), by omega, ?_⟩ ⟨hera, hmore⟩
      rw [next_marchDate (by omega) (by omega), if_pos (by omega),
        civilFromDays_late hz hlast', hsame]
      congr 1
      omega
    · -- the last but one: the next date is 1 March, and the next day is not
      have hsame : marchYear (z + 1) = marchYear z := marchYear_eq (by omega) (by omega)
      have hlast' : (z + 1 + 719468) % 146097 ≠ 146096 := by
        rw [Ne, ← marchYear_emod, hsame]
        exact fun h => hera h.1
      refine iff_of_false (fun h => ?_) fun h => absurd heq h.2.ne
      have hnext := h.2.2
      rw [next_marchDate (by omega) (by omega), if_neg (by omega),
        civilFromDays_late hz hlast', hsame,
        marchDate_of_february (by split at hlen <;> omega) (by split at hlen <;> omega)] at hnext
      exact absurd (congrArg CivilDate.m hnext) (by show ¬ (2 : ℤ) = 3; decide)
    · -- the last: a date past the end of February
      refine iff_of_false (fun h => ?_) fun h => absurd hless (lt_asymm h.2)
      have hvalid := h.1.2.2
      rw [marchDate_of_february (by split at hlen <;> omega) hs, daysInMonth, if_pos rfl] at hvalid
      by_cases hleap : isLeap (marchYear z + 1) <;>
        simp only [hleap, if_true, if_false] at hlen hvalid <;> omega

/-- **When the two functions agree with each other and the calendar.** -/
theorem civil_roundtrip_iff (z : ℤ) : Agrees z ↔ Regular z := by
  rcases lt_trichotomy (z + 1) firstDay with hlt | heq | hgt
  · rw [Regular, or_iff_right (not_le.mpr hlt)]
    by_cases hlast : (z + 719468) % 146097 = 146096
    · -- the last day of an era before the last one: the next day is dated 2 March
      obtain ⟨hera, hend⟩ := (marchYear_emod z).mpr hlast
      refine iff_of_false (fun h => ?_) fun h => h.1 hera
      obtain ⟨hle, hlt'⟩ := marchYear_spec z
      have hlen := march_succ (marchYear z)
      have hs : z - march (marchYear z) ≤ 365 := by split at hlen <;> omega
      have hgap := march_add_le (marchYear z + 1)
      have hnext := h.2.2
      rw [civilFromDays_eq z, if_neg fun h => h.2 hlast, add_zero,
        next_marchDate (by omega) (by omega), if_neg (by omega),
        civilFromDays_late hlt (by omega),
        marchYear_eq (by omega : march (marchYear z + 1) ≤ z + 1) (by omega), hend,
        sub_self] at hnext
      exact absurd (congrArg CivilDate.d hnext) (by show ¬ (2 : ℤ) = 1; decide)
    · exact agrees_iff_of_late hlt hlast
  · have hz : z = -719469 := by
      rw [firstDay] at heq
      omega
    subst hz
    exact iff_of_true (by rw [Agrees]; decide +kernel) (.inl heq.ge)
  · exact iff_of_true (agrees_of_le (by omega)) (.inl hgt.le)

/-- **Two days before 1 March of year 0 they do not agree**: both have the date 29 February. -/
theorem not_forall_agrees : ¬ ∀ z, Agrees z := fun h =>
  absurd (h (-719470)).2.1 (by decide)

end ThrottleKit.Calendar
