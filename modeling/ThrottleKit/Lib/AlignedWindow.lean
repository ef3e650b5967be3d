import Mathlib.Algebra.Order.Floor.Ring
import Mathlib.Tactic.Linarith
import Mathlib.Tactic.Ring

/-!
# Windows aligned at zero

Time cut into windows of one width, the first starting at zero: the window holding `t` starts at
`⌊t / w⌋ * w`. Instants are ordered by window, and two instants less than a boundary apart share
one.

When window ends are rounded up to a whole instant, an instant may fall between an end and its
rounding; `ClearOfRounding` says that this one does not.

## Main results

* `alignedStart_le`, `lt_alignedStart_add` — an instant lies in its window
* `alignedStart_eq_of_lt`, `add_le_alignedStart` — staying in a window, and having left it
* `roundedEnd_le_iff` — for an instant clear of the rounding, having left a window is having
  reached its rounded end
-/

namespace AlignedWindow

variable {K : Type*} [Field K] [LinearOrder K] [IsStrictOrderedRing K] [FloorRing K]

/-- The start of the window of width `w` that holds `t`. -/
def alignedStart (w t : K) : K := ⌊t / w⌋ * w

variable {w s t : K}

theorem alignedStart_le (hw : 0 < w) : alignedStart w t ≤ t := by
  have h : (⌊t / w⌋ : K) ≤ t / w := Int.floor_le _
  calc alignedStart w t = ⌊t / w⌋ * w := rfl
    _ ≤ t / w * w := mul_le_mul_of_nonneg_right h hw.le
    _ = t := div_mul_cancel₀ t hw.ne'

theorem lt_alignedStart_add (hw : 0 < w) : t < alignedStart w t + w := by
  have h : t / w < ⌊t / w⌋ + 1 := Int.lt_floor_add_one _
  calc t = t / w * w := (div_mul_cancel₀ t hw.ne').symm
    _ < (⌊t / w⌋ + 1) * w := mul_lt_mul_of_pos_right h hw
    _ = alignedStart w t + w := by rw [alignedStart]; ring

theorem alignedStart_mono (hw : 0 < w) (h : s ≤ t) : alignedStart w s ≤ alignedStart w t := by
  refine mul_le_mul_of_nonneg_right ?_ hw.le
  exact_mod_cast Int.floor_le_floor (div_le_div_of_nonneg_right h hw.le)

/-- A later instant is past the end of an earlier window, or still in it. -/
theorem add_le_alignedStart (hw : 0 < w) (h : alignedStart w s + w ≤ t) :
    alignedStart w s + w ≤ alignedStart w t := by
  have hdiv : ((⌊s / w⌋ + 1 : ℤ) : K) ≤ t / w := by
    rw [le_div_iff₀ hw]
    push_cast
    calc ((⌊s / w⌋ : K) + 1) * w = alignedStart w s + w := by rw [alignedStart]; ring
      _ ≤ t := h
  have hfloor : ((⌊s / w⌋ + 1 : ℤ) : K) ≤ ⌊t / w⌋ := by exact_mod_cast Int.le_floor.mpr hdiv
  calc alignedStart w s + w = ((⌊s / w⌋ + 1 : ℤ) : K) * w := by rw [alignedStart]; push_cast; ring
    _ ≤ ⌊t / w⌋ * w := mul_le_mul_of_nonneg_right hfloor hw.le

theorem alignedStart_eq_of_lt (hw : 0 < w) (hle : s ≤ t) (hlt : t < alignedStart w s + w) :
    alignedStart w t = alignedStart w s := by
  refine le_antisymm ?_ (alignedStart_mono hw hle)
  by_contra hcon
  have hgt : ⌊s / w⌋ < ⌊t / w⌋ := by
    by_contra hle'
    exact hcon (mul_le_mul_of_nonneg_right (by exact_mod_cast not_lt.mp hle') hw.le)
  have hstep : alignedStart w s + w ≤ alignedStart w t := by
    calc alignedStart w s + w = ((⌊s / w⌋ + 1 : ℤ) : K) * w := by rw [alignedStart]; push_cast; ring
      _ ≤ ⌊t / w⌋ * w := mul_le_mul_of_nonneg_right (by exact_mod_cast hgt) hw.le
  linarith [alignedStart_le (t := t) hw]

/-- Two windows are the same, or the later one starts at or after the end of the earlier. -/
theorem alignedStart_eq_or_add_le (hw : 0 < w) (h : alignedStart w s ≤ alignedStart w t) :
    alignedStart w t = alignedStart w s ∨ alignedStart w s + w ≤ alignedStart w t := by
  rcases lt_or_ge t (alignedStart w s + w) with hlt | hge
  · rcases le_total s t with hle | hle
    · exact .inl (alignedStart_eq_of_lt hw hle hlt)
    · exact .inl (le_antisymm (alignedStart_mono hw hle) h)
  · exact .inr (add_le_alignedStart hw hge)

/-! ### Ends rounded up to a whole instant -/

/-- The end of the window holding `t`, rounded up to a whole instant. -/
def roundedEnd (w t : K) : K := ⌈alignedStart w t + w⌉

/-- The boundary before `t` is not rounded up past `t`. -/
def ClearOfRounding (w t : K) : Prop := (⌈alignedStart w t⌉ : K) ≤ t

instance (w t : K) : Decidable (ClearOfRounding w t) :=
  inferInstanceAs (Decidable ((⌈alignedStart w t⌉ : K) ≤ t))

/-- **Having left a window is having reached its rounded end.** -/
theorem roundedEnd_le_iff (hw : 0 < w) (hclear : ClearOfRounding w t) :
    roundedEnd w s ≤ t ↔ alignedStart w s + w ≤ t := by
  refine ⟨fun h => (Int.le_ceil _).trans h, fun h => le_trans ?_ hclear⟩
  rw [roundedEnd]
  exact_mod_cast Int.ceil_le_ceil (add_le_alignedStart hw h)

/-- An instant before the rounded end of a window is in it or in an earlier one. -/
theorem alignedStart_le_of_lt_roundedEnd (hw : 0 < w) (hclear : ClearOfRounding w t)
    (hlt : t < roundedEnd w s) : alignedStart w t ≤ alignedStart w s := by
  by_contra hcon
  rcases alignedStart_eq_or_add_le hw (not_le.mp hcon).le with heq | hadd
  · exact hcon heq.le
  · have hend : roundedEnd w s ≤ t :=
      (roundedEnd_le_iff hw hclear).mpr (hadd.trans (alignedStart_le hw))
    exact absurd hend (not_le.mpr hlt)

end AlignedWindow
