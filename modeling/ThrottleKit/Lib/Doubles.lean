import Mathlib.Algebra.Order.Archimedean.Basic
import Mathlib.Algebra.Order.Floor.Ring
import Mathlib.Algebra.Ring.Int.Parity
import Mathlib.Data.Int.Log
import Mathlib.Data.Rat.Floor
import Mathlib.Tactic.Linarith

/-!
# Double precision on rationals

The arithmetic of double precision as exact arithmetic followed by one rounding to the nearest
number of 53 bits, ties to even. A result from `overflow` on rounds to infinity. There is one zero,
and it counts as positive where a number is divided by it.

## Main definitions

* `Double` — the numbers, with the operations `add`, `sub`, `div`, `sum` and the comparisons
* `overflow` — the least number that rounds to infinity
* `Amount` — neither negative nor not a number

## Main results

* `amount_sum` — amounts sum up to an amount
* `div_finite_iff` — when a quotient of amounts is finite
* `roundRat_mono`, `roundRat_roundRat`, `roundRat_intCast` — rounding keeps the order, the numbers
  of 53 bits, and so the whole numbers up to `2 ^ 53`
* `add_le_of_le_roundRat_sub` — a difference does not round up to what was not there
* `floor_roundRat_div` — the rounded quotient of whole numbers has its floor
* `roundRat_div_lt` — the rounded quotients of a whole number and the next are apart
-/

/-- A number of double precision. -/
inductive Double
  | nan
  | negInfinity
  | infinity
  | finite (x : ℚ)
deriving DecidableEq

namespace Double

/-! ### Rounding -/

/-- The nearest integer, the even one of two. -/
def nearest (x : ℚ) : ℤ :=
  if x - ⌊x⌋ < 1 / 2 then ⌊x⌋
  else if 1 / 2 < x - ⌊x⌋ then ⌊x⌋ + 1
  else if Even ⌊x⌋ then ⌊x⌋
  else ⌊x⌋ + 1

/-- The distance of two neighbours of 53 bits. -/
def ulp (x : ℚ) : ℚ := 2 ^ max (-1074) (Int.log 2 |x| - 52)

/-- The nearest number of 53 bits. -/
def roundRat (x : ℚ) : ℚ := nearest (x / ulp x) * ulp x

/-- The least number that rounds to infinity. -/
def overflow : ℚ := 2 ^ 1024 - 2 ^ 970

/-- The rounded result of an operation. -/
def ofRat (x : ℚ) : Double :=
  if overflow ≤ x then infinity
  else if x ≤ -overflow then negInfinity
  else finite (roundRat x)

/-! ### Operations -/

/-- `-x`. -/
def neg : Double → Double
  | nan => nan
  | negInfinity => infinity
  | infinity => negInfinity
  | finite x => finite (-x)

/-- `x + y`. -/
def add : Double → Double → Double
  | finite x, finite y => ofRat (x + y)
  | nan, _ | _, nan | infinity, negInfinity | negInfinity, infinity => nan
  | infinity, _ | _, infinity => infinity
  | negInfinity, _ | _, negInfinity => negInfinity

/-- `x - y`. -/
def sub (x y : Double) : Double := add x (neg y)

/-- `x / y`. -/
def div : Double → Double → Double
  | finite x, finite y =>
    if y = 0 then if x = 0 then nan else if 0 < x then infinity else negInfinity
    else ofRat (x / y)
  | nan, _ | _, nan => nan
  | infinity, finite y => if 0 ≤ y then infinity else negInfinity
  | negInfinity, finite y => if 0 ≤ y then negInfinity else infinity
  | finite _, _ => finite 0
  | _, _ => nan

/-- `x < y`. -/
def lt : Double → Double → Bool
  | finite x, finite y => x < y
  | negInfinity, finite _ | negInfinity, infinity | finite _, infinity => true
  | _, _ => false

/-- `x <= y`. -/
def le : Double → Double → Bool
  | finite x, finite y => x ≤ y
  | negInfinity, y => y != nan
  | x, infinity => x != nan
  | _, _ => false

/-- `Math.max(0, x)`. -/
def maxZero : Double → Double
  | finite x => finite (max 0 x)
  | negInfinity => finite 0
  | x => x

/-- The sum of numbers, from the first on. -/
def sum (xs : List Double) : Double := xs.foldl add (finite 0)

/-! ### Rounding keeps signs -/

theorem nearest_nonneg {x : ℚ} (hx : 0 ≤ x) : 0 ≤ nearest x := by
  have hfloor : 0 ≤ ⌊x⌋ := Int.floor_nonneg.mpr hx
  rw [nearest]
  split_ifs <;> omega

theorem ulp_pos (x : ℚ) : 0 < ulp x := zpow_pos two_pos _

theorem roundRat_nonneg {x : ℚ} (hx : 0 ≤ x) : 0 ≤ roundRat x := by
  have hnearest := nearest_nonneg (div_nonneg hx (ulp_pos x).le)
  exact mul_nonneg (Int.cast_nonneg hnearest) (ulp_pos x).le

theorem overflow_pos : 0 < overflow :=
  sub_pos.mpr (pow_lt_pow_right₀ one_lt_two (by decide))

/-- What is not negative rounds to a finite number below `overflow`. -/
theorem ofRat_of_nonneg {x : ℚ} (hx : 0 ≤ x) :
    ofRat x = if overflow ≤ x then infinity else finite (roundRat x) := by
  have hneg : ¬ x ≤ -overflow := ((neg_lt_zero.mpr overflow_pos).trans_le hx).not_ge
  rw [ofRat, if_neg hneg]

/-! ### Amounts -/

/-- Neither negative nor not a number. -/
def Amount : Double → Prop
  | infinity => True
  | finite x => 0 ≤ x
  | _ => False

theorem amount_ofRat {x : ℚ} (hx : 0 ≤ x) : Amount (ofRat x) := by
  rw [ofRat_of_nonneg hx]
  split
  · trivial
  · exact roundRat_nonneg hx

theorem Amount.add {x y : Double} (hx : Amount x) (hy : Amount y) : Amount (x.add y) := by
  cases x <;> cases y <;> first
    | exact hx.elim
    | exact hy.elim
    | trivial
    | exact amount_ofRat (add_nonneg hx hy)

theorem amount_foldl_add {xs : List Double} (hxs : ∀ x ∈ xs, Amount x) {x : Double}
    (hx : Amount x) :
    Amount (xs.foldl add x) := by
  induction xs generalizing x with
  | nil => exact hx
  | cons y xs ih =>
    obtain ⟨hy, hxs⟩ := List.forall_mem_cons.mp hxs
    exact ih hxs (hx.add hy)

/-- **Amounts sum up to an amount.** -/
theorem amount_sum {xs : List Double} (hxs : ∀ x ∈ xs, Amount x) : Amount (sum xs) :=
  amount_foldl_add hxs le_rfl

/-- The difference of numbers is a number, and its positive part an amount. -/
theorem amount_maxZero_sub (x y : ℚ) : Amount (maxZero (sub (finite x) (finite y))) := by
  show Amount (maxZero (ofRat (x + -y)))
  rw [ofRat]
  split
  · trivial
  split
  · exact le_rfl
  · exact le_max_left _ _

/-- **When a quotient of amounts is finite.** -/
theorem div_finite_iff {x y : Double} (hx : Amount x) (hy : Amount y) :
    (∃ q, 0 ≤ q ∧ x.div y = finite q) ↔
      ∃ a, x = finite a ∧ ∀ b, y = finite b → a < overflow * b := by
  cases x with
  | nan => exact hx.elim
  | negInfinity => exact hx.elim
  | infinity =>
    refine ⟨?_, fun ⟨a, ha, _⟩ => by cases ha⟩
    rintro ⟨q, _, hq⟩
    cases y with
    | finite b =>
      have hb : (0 : ℚ) ≤ b := hy
      rw [div, if_pos hb] at hq
      cases hq
    | _ => cases hq
  | finite a =>
    cases y with
    | nan => exact hy.elim
    | negInfinity => exact hy.elim
    | infinity => exact ⟨fun _ => ⟨a, rfl, fun b hb => by cases hb⟩, fun _ => ⟨0, le_rfl, rfl⟩⟩
    | finite b =>
      have hright : (∃ a', finite a = finite a' ∧ ∀ b', finite b = finite b' → a' < overflow * b')
          ↔ a < overflow * b := by
        constructor
        · rintro ⟨a', ha, hb⟩
          cases ha
          exact hb b rfl
        · rintro h
          refine ⟨a, rfl, fun b' hb => ?_⟩
          cases hb
          exact h
      rw [hright, div]
      rcases eq_or_lt_of_le hy with hzero | hpos
      · rw [if_pos hzero.symm, ← hzero, mul_zero]
        refine ⟨fun ⟨q, _, hq⟩ => ?_, fun h => absurd h (not_lt.mpr hx)⟩
        split_ifs at hq
      · rw [if_neg hpos.ne', ofRat_of_nonneg (div_nonneg hx hy)]
        have hscale : overflow ≤ a / b ↔ overflow * b ≤ a := le_div_iff₀ hpos
        by_cases hover : overflow ≤ a / b
        · rw [if_pos hover]
          exact ⟨fun ⟨q, _, hq⟩ => Double.noConfusion hq,
            fun h => absurd (hscale.mp hover) h.not_ge⟩
        · rw [if_neg hover]
          exact ⟨fun _ => not_le.mp (mt hscale.mpr hover),
            fun _ => ⟨_, roundRat_nonneg (div_nonneg hx hy), rfl⟩⟩

/-! ### Rounding to neighbours -/

@[simp] theorem nearest_intCast (n : ℤ) : nearest n = n := by
  rw [nearest, Int.floor_intCast, sub_self, if_pos one_half_pos]

theorem nearest_le_floor_add_one (x : ℚ) : nearest x ≤ ⌊x⌋ + 1 := by
  rw [nearest]
  split_ifs <;> omega

theorem floor_le_nearest (x : ℚ) : ⌊x⌋ ≤ nearest x := by
  rw [nearest]
  split_ifs <;> omega

theorem nearest_mono {x y : ℚ} (h : x ≤ y) : nearest x ≤ nearest y := by
  rcases (Int.floor_le_floor h).eq_or_lt with heq | hlt
  · rw [nearest, nearest, heq]
    split_ifs <;> first | omega | linarith
  · calc nearest x ≤ ⌊x⌋ + 1 := nearest_le_floor_add_one x
      _ ≤ ⌊y⌋ := hlt
      _ ≤ nearest y := floor_le_nearest y

/-- The nearest integer is at most a half away. -/
theorem abs_nearest_sub_le (x : ℚ) : |nearest x - x| ≤ 1 / 2 := by
  have hle := Int.floor_le x
  have hlt := Int.lt_floor_add_one x
  rw [nearest, abs_le]
  split_ifs <;> push_cast <;> constructor <;> linarith

theorem nearest_neg (x : ℚ) : nearest (-x) = -nearest x := by
  rcases eq_or_ne x ⌊x⌋ with hint | hfrac
  · rw [hint, ← Int.cast_neg, nearest_intCast, nearest_intCast]
  · have hlt : (⌊x⌋ : ℚ) < x := lt_of_le_of_ne (Int.floor_le x) hfrac.symm
    have hfloor : ⌊-x⌋ = -⌊x⌋ - 1 := by
      rw [Int.floor_eq_iff]
      push_cast
      constructor <;> linarith [Int.lt_floor_add_one x]
    rw [nearest, nearest, hfloor]
    push_cast
    have heven : Even (-⌊x⌋ - 1) ↔ ¬ Even ⌊x⌋ := by
      rw [Int.even_sub_one, even_neg]
    split_ifs <;> first | omega | (exfalso; linarith) | (exfalso; tauto)

@[simp] theorem ulp_neg (x : ℚ) : ulp (-x) = ulp x := by rw [ulp, ulp, abs_neg]

@[simp] theorem roundRat_neg (x : ℚ) : roundRat (-x) = -roundRat x := by
  rw [roundRat, roundRat, ulp_neg, neg_div, nearest_neg, Int.cast_neg, neg_mul]

/-- Multiples of the distance of neighbours are exact. -/
theorem roundRat_of_mul_ulp {x : ℚ} {n : ℤ} (h : x = n * ulp x) : roundRat x = x := by
  have hdiv : x / ulp x = n := by rw [div_eq_iff (ulp_pos x).ne', ← h]
  rw [roundRat, hdiv, nearest_intCast, ← h]

@[simp] theorem roundRat_zero : roundRat 0 = 0 :=
  roundRat_of_mul_ulp (n := 0) (by rw [Int.cast_zero, zero_mul])

/-- A result is off by at most half the distance of its neighbours. -/
theorem abs_roundRat_sub_le (x : ℚ) : |roundRat x - x| ≤ ulp x / 2 := by
  have hulp := ulp_pos x
  have hsplit : roundRat x - x = (nearest (x / ulp x) - x / ulp x) * ulp x := by
    rw [roundRat, sub_mul, div_mul_cancel₀ x hulp.ne']
  rw [hsplit, abs_mul, abs_of_pos hulp]
  linarith [mul_le_mul_of_nonneg_right (abs_nearest_sub_le (x / ulp x)) hulp.le]


/-! ### Rounding keeps the order -/

theorem ulp_eq (x : ℚ) : ulp x = 2 ^ max (-1074) (Int.log 2 |x| - 52) := rfl

/-- A power of two that is no less than the distance of neighbours is a multiple of it. -/
theorem exists_two_zpow_eq {x : ℚ} {k : ℤ} (h : max (-1074) (Int.log 2 |x| - 52) ≤ k) :
    ∃ n : ℤ, (2 : ℚ) ^ k = n * ulp x := by
  obtain ⟨j, hj⟩ := Int.le.dest h
  refine ⟨2 ^ j, ?_⟩
  rw [ulp, ← hj, zpow_add₀ two_ne_zero, zpow_natCast, mul_comm]
  norm_cast

theorem roundRat_le {x p : ℚ} {n : ℤ} (hp : p = n * ulp x) (h : x ≤ p) : roundRat x ≤ p := by
  have hdiv : x / ulp x ≤ n := by rw [div_le_iff₀ (ulp_pos x), ← hp]; exact h
  have hnear : nearest (x / ulp x) ≤ n := (nearest_mono hdiv).trans_eq (nearest_intCast n)
  rw [roundRat, hp]
  exact mul_le_mul_of_nonneg_right (by exact_mod_cast hnear) (ulp_pos x).le

theorem le_roundRat {x p : ℚ} {n : ℤ} (hp : p = n * ulp x) (h : p ≤ x) : p ≤ roundRat x := by
  have hdiv : (n : ℚ) ≤ x / ulp x := by rw [le_div_iff₀ (ulp_pos x), ← hp]; exact h
  have hnear : n ≤ nearest (x / ulp x) := (nearest_intCast n).symm.trans_le (nearest_mono hdiv)
  rw [roundRat, hp]
  exact mul_le_mul_of_nonneg_right (by exact_mod_cast hnear) (ulp_pos x).le

theorem roundRat_mono_of_pos {x y : ℚ} (hx : 0 < x) (h : x ≤ y) : roundRat x ≤ roundRat y := by
  have hlog : Int.log 2 |x| ≤ Int.log 2 |y| := by
    rw [abs_of_pos hx, abs_of_pos (hx.trans_le h)]
    exact Int.log_mono_right hx h
  rcases (max_le_max (le_refl (-1074 : ℤ)) (sub_le_sub_right hlog 52)).eq_or_lt with heq | hlt
  · have hulp : ulp x = ulp y := by rw [ulp, ulp, heq]
    rw [roundRat, roundRat, hulp]
    refine mul_le_mul_of_nonneg_right ?_ (ulp_pos y).le
    exact_mod_cast nearest_mono (div_le_div_of_nonneg_right h (ulp_pos y).le)
  · -- A power of two lies between them.
    obtain ⟨n, hn⟩ := exists_two_zpow_eq (x := x) (k := Int.log 2 |y|) (by omega)
    obtain ⟨m, hm⟩ := exists_two_zpow_eq (x := y) (k := Int.log 2 |y|) (by omega)
    have hxp : x ≤ 2 ^ Int.log 2 |y| := by
      have hlt : |x| < (2 : ℕ) ^ (Int.log 2 |x| + 1) := Int.lt_zpow_succ_log_self one_lt_two |x|
      calc x ≤ |x| := le_abs_self x
        _ ≤ (2 : ℕ) ^ (Int.log 2 |x| + 1) := hlt.le
        _ ≤ 2 ^ Int.log 2 |y| := zpow_le_zpow_right₀ one_le_two (by omega)
    have hpy : (2 : ℚ) ^ Int.log 2 |y| ≤ y := by
      rw [abs_of_pos (hx.trans_le h)]
      exact_mod_cast Int.zpow_log_le_self one_lt_two (hx.trans_le h)
    exact (roundRat_le hn hxp).trans (le_roundRat hm hpy)

theorem roundRat_mono {x y : ℚ} (h : x ≤ y) : roundRat x ≤ roundRat y := by
  rcases lt_or_ge 0 x with hx | hx
  · exact roundRat_mono_of_pos hx h
  rcases lt_or_ge y 0 with hy | hy
  · have hneg := roundRat_mono_of_pos (neg_pos.mpr hy) (neg_le_neg h)
    rw [roundRat_neg, roundRat_neg] at hneg
    exact neg_le_neg_iff.mp hneg
  · have hneg := roundRat_nonneg (neg_nonneg.mpr hx)
    rw [roundRat_neg] at hneg
    exact (neg_nonneg.mp hneg).trans (roundRat_nonneg hy)

/-! ### Numbers that are exact -/

theorem roundRat_mul_two_zpow_of_lt {m e : ℤ} (hm : |m| < 2 ^ 53) (he : -1074 ≤ e) :
    roundRat (m * 2 ^ e) = m * 2 ^ e := by
  rcases eq_or_ne m 0 with rfl | hm0
  · simp
  have hpos : (0 : ℚ) < |(m : ℚ) * 2 ^ e| := abs_pos.mpr
    (mul_ne_zero (Int.cast_ne_zero.mpr hm0) (zpow_pos two_pos e).ne')
  have hlt : |(m : ℚ) * 2 ^ e| < (2 : ℕ) ^ (53 + e) := by
    push_cast
    rw [abs_mul, abs_of_pos (zpow_pos (two_pos (α := ℚ)) e), zpow_add₀ two_ne_zero]
    refine mul_lt_mul_of_pos_right ?_ (zpow_pos two_pos e)
    exact_mod_cast hm
  have hlog := (Int.lt_zpow_iff_log_lt one_lt_two hpos).mp hlt
  obtain ⟨n, hn⟩ := exists_two_zpow_eq (x := m * 2 ^ e) (k := e) (by omega)
  refine roundRat_of_mul_ulp (n := m * n) ?_
  push_cast
  rw [mul_assoc, ← hn]

/-- A number of 53 bits above the least exponent is exact. -/
theorem roundRat_mul_two_zpow {m e : ℤ} (hm : |m| ≤ 2 ^ 53) (he : -1074 ≤ e) :
    roundRat (m * 2 ^ e) = m * 2 ^ e := by
  rcases hm.lt_or_eq with hlt | heq
  · exact roundRat_mul_two_zpow_of_lt hlt he
  · have hhalf : ∀ s : ℤ, |s| = 1 → roundRat ((s * 2 ^ 53 : ℤ) * 2 ^ e)
        = (s * 2 ^ 53 : ℤ) * 2 ^ e := by
      intro s hs
      have hsplit : ((s * 2 ^ 53 : ℤ) : ℚ) * 2 ^ e = (s * 2 ^ 52 : ℤ) * 2 ^ (e + 1) := by
        rw [zpow_add_one₀ two_ne_zero]
        push_cast
        ring
      rw [hsplit]
      refine roundRat_mul_two_zpow_of_lt ?_ (by omega)
      rw [abs_mul, hs]
      norm_num
    rcases (abs_eq (by norm_num)).mp heq with rfl | rfl
    · simpa using hhalf 1 rfl
    · simpa using hhalf (-1) rfl

/-- **Whole numbers of up to 53 bits are exact.** -/
theorem roundRat_intCast {n : ℤ} (h : |n| ≤ 2 ^ 53) : roundRat n = n := by
  simpa using roundRat_mul_two_zpow (e := 0) h (by norm_num)

/-- A whole number rounds to a whole one. -/
theorem exists_roundRat_intCast (n : ℤ) : ∃ m : ℤ, roundRat n = m := by
  rcases le_or_gt |n| (2 ^ 53) with hle | hgt
  · exact ⟨n, roundRat_intCast hle⟩
  · have hlog : 53 ≤ Int.log 2 |(n : ℚ)| := by
      have hpos : (0 : ℚ) < |(n : ℚ)| := by
        exact_mod_cast (by norm_num : (0 : ℤ) < 2 ^ 53).trans hgt
      rw [← Int.zpow_le_iff_le_log one_lt_two hpos]
      exact_mod_cast hgt.le
    obtain ⟨k, hk⟩ : ∃ k : ℕ, max (-1074) (Int.log 2 |(n : ℚ)| - 52) = k :=
      ⟨(Int.log 2 |(n : ℚ)| - 52).toNat, by omega⟩
    refine ⟨nearest (n / ulp n) * 2 ^ k, ?_⟩
    rw [roundRat, ulp_eq, hk, zpow_natCast]
    push_cast
    rfl

/-- A rounded number has 53 bits above the least exponent. -/
theorem exists_roundRat_eq (x : ℚ) :
    ∃ m e : ℤ, |m| ≤ 2 ^ 53 ∧ -1074 ≤ e ∧ roundRat x = m * 2 ^ e := by
  have hulp := ulp_pos x
  have habs : |x / ulp x| ≤ (2 ^ 53 : ℤ) := by
    have hlt : |x| < (2 : ℕ) ^ (Int.log 2 |x| + 1) := Int.lt_zpow_succ_log_self one_lt_two |x|
    rw [abs_div, abs_of_pos hulp, div_le_iff₀ hulp]
    calc |x| ≤ (2 : ℕ) ^ (Int.log 2 |x| + 1) := hlt.le
      _ ≤ 2 ^ (53 + max (-1074) (Int.log 2 |x| - 52)) := zpow_le_zpow_right₀ one_le_two (by omega)
      _ = (2 ^ 53 : ℤ) * ulp x := by rw [ulp, zpow_add₀ two_ne_zero]; norm_num
  have hnear : |nearest (x / ulp x)| ≤ 2 ^ 53 := by
    obtain ⟨hlo, hhi⟩ := abs_le.mp habs
    have hneg := nearest_mono (by exact_mod_cast hlo : ((-2 ^ 53 : ℤ) : ℚ) ≤ x / ulp x)
    have hpos := nearest_mono hhi
    rw [nearest_intCast] at hneg hpos
    exact abs_le.mpr ⟨hneg, hpos⟩
  exact ⟨_, _, hnear, le_max_left _ _, rfl⟩

/-- **Rounding once more changes nothing.** -/
theorem roundRat_roundRat (x : ℚ) : roundRat (roundRat x) = roundRat x := by
  obtain ⟨m, e, hm, he, heq⟩ := exists_roundRat_eq x
  rw [heq, roundRat_mul_two_zpow hm he]

/-- Twice a double is a double. -/
theorem roundRat_add_self {x : ℚ} (hx : roundRat x = x) : roundRat (x + x) = x + x := by
  obtain ⟨m, e, hm, he, heq⟩ := exists_roundRat_eq x
  have hdouble : x + x = m * 2 ^ (e + 1) := by
    rw [← hx, heq, zpow_add_one₀ two_ne_zero]
    ring
  rw [hdouble, roundRat_mul_two_zpow hm (by omega)]

/-! ### Neighbours -/

theorem ulp_mono {x y : ℚ} (hx : 0 < x) (h : x ≤ y) : ulp x ≤ ulp y := by
  have hlog : Int.log 2 |x| ≤ Int.log 2 |y| := by
    rw [abs_of_pos hx, abs_of_pos (hx.trans_le h)]
    exact Int.log_mono_right hx h
  exact zpow_le_zpow_right₀ one_le_two (max_le_max le_rfl (sub_le_sub_right hlog 52))

/-- **A later number is at least the distance of neighbours away.** -/
theorem add_ulp_le {x y : ℚ} (hx : 0 < x) (hx' : roundRat x = x) (hy : roundRat y = y)
    (h : x < y) : x + ulp x ≤ y := by
  have hulp := ulp_pos x
  have hlog : Int.log 2 |x| ≤ Int.log 2 |y| := by
    rw [abs_of_pos hx, abs_of_pos (hx.trans h)]
    exact Int.log_mono_right hx h.le
  obtain ⟨n, hn⟩ := exists_two_zpow_eq (x := x) (k := max (-1074) (Int.log 2 |y| - 52)) (by omega)
  have hmx : (nearest (x / ulp x) : ℚ) * ulp x = x := hx'
  have hmy : ((nearest (y / ulp y) * n : ℤ) : ℚ) * ulp x = y := by
    have hexp : (n : ℚ) * ulp x = ulp y := hn.symm
    push_cast
    rw [mul_assoc, hexp]
    exact hy
  generalize nearest (x / ulp x) = m at hmx
  generalize nearest (y / ulp y) * n = m' at hmy
  have hlt : (m : ℚ) < m' := by
    rw [← hmx, ← hmy] at h
    exact lt_of_mul_lt_mul_right h hulp.le
  have hle : (m : ℚ) + 1 ≤ m' := by exact_mod_cast hlt
  calc x + ulp x = (m + 1) * ulp x := by rw [add_mul, one_mul, hmx]
    _ ≤ m' * ulp x := mul_le_mul_of_nonneg_right hle hulp.le
    _ = y := hmy

/-- **What is left by a difference was there**: `a - b` does not round up to `c` when `b + c` is a
double past `a`. -/
theorem add_le_of_le_roundRat_sub {a b c : ℚ} (ha : roundRat a = a)
    (hsum : roundRat (b + c) = b + c) (hb : 0 ≤ b) (hc : 0 < c) (h : c ≤ roundRat (a - b)) :
    b + c ≤ a := by
  by_contra hlt
  rw [not_le] at hlt
  rcases le_or_gt a b with hab | hab
  · have hneg : roundRat (a - b) ≤ 0 :=
      roundRat_zero ▸ roundRat_mono (sub_nonpos.mpr hab)
    linarith
  · have hpos : 0 < a - b := sub_pos.mpr hab
    have hgap := add_ulp_le (hb.trans_lt hab) ha hsum hlt
    have hulp : ulp (a - b) ≤ ulp a := ulp_mono hpos (sub_le_self a hb)
    have hoff := (abs_le.mp (abs_roundRat_sub_le (a - b))).2
    linarith [ulp_pos a]

/-! ### The floor of a quotient -/

theorem ulp_le (x : ℚ) (hx : x ≠ 0) : ulp x ≤ max (2 ^ (-1074 : ℤ)) (|x| / 2 ^ 52) := by
  have hlog : (2 : ℚ) ^ Int.log 2 |x| ≤ |x| := by
    exact_mod_cast Int.zpow_log_le_self one_lt_two (abs_pos.mpr hx)
  rw [ulp]
  rcases max_cases (-1074 : ℤ) (Int.log 2 |x| - 52) with ⟨heq, -⟩ | ⟨heq, -⟩
  · rw [heq]
    exact le_max_left _ _
  · rw [heq, zpow_sub₀ two_ne_zero]
    refine le_max_of_le_right (div_le_div_of_nonneg_right hlog ?_)
    positivity

/-- **The quotient of whole numbers has its floor**, though it is rounded before. -/
theorem floor_roundRat_div {n w : ℤ} (hn : |n| < 2 ^ 53) (hw : 0 < w) (hw' : w ≤ 2 ^ 53) :
    ⌊roundRat (n / w)⌋ = ⌊(n / w : ℚ)⌋ := by
  rcases eq_or_ne n 0 with rfl | hn0
  · simp
  have hwq : (0 : ℚ) < w := by exact_mod_cast hw
  have hle : ((⌊(n / w : ℚ)⌋ : ℤ) : ℚ) ≤ n / w := Int.floor_le _
  have hlt : (n : ℚ) / w + 1 / w ≤ ⌊(n / w : ℚ)⌋ + 1 := by
    have hint : n < (⌊(n / w : ℚ)⌋ + 1) * w := by
      have := (div_lt_iff₀ hwq).mp (Int.lt_floor_add_one (n / w : ℚ))
      exact_mod_cast this
    rw [← add_div, div_le_iff₀ hwq]
    exact_mod_cast hint
  have hsmall : ulp (n / w) / 2 < 1 / w := by
    have hulp := ulp_le ((n : ℚ) / w) (div_ne_zero (by exact_mod_cast hn0) hwq.ne')
    have hnq : |(n : ℚ)| < 2 ^ 53 := by exact_mod_cast hn
    have hfirst : (2 : ℚ) ^ (-1074 : ℤ) < 2 / w := by
      rw [lt_div_iff₀ hwq]
      have hw53 : (w : ℚ) ≤ 2 ^ 53 := by exact_mod_cast hw'
      have hleast : (2 : ℚ) ^ (-1074 : ℤ) ≤ 2 ^ (-53 : ℤ) :=
        zpow_le_zpow_right₀ one_le_two (by norm_num)
      calc (2 : ℚ) ^ (-1074 : ℤ) * w ≤ 2 ^ (-53 : ℤ) * 2 ^ 53 :=
            mul_le_mul hleast hw53 hwq.le (zpow_pos two_pos _).le
        _ < 2 := by norm_num
    have hsecond : |(n : ℚ) / w| / 2 ^ 52 < 2 / w := by
      rw [abs_div, abs_of_pos hwq, div_div, div_lt_div_iff₀ (by positivity) hwq]
      nlinarith
    have hmax := hulp.trans_lt (max_lt hfirst hsecond)
    rw [div_lt_iff₀ two_pos]
    linarith [div_mul_eq_mul_div (1 : ℚ) w 2]
  have herr := abs_le.mp (abs_roundRat_sub_le ((n : ℚ) / w))
  rw [Int.floor_eq_iff]
  refine ⟨?_, by linarith⟩
  have hfloor : |⌊(n / w : ℚ)⌋| ≤ 2 ^ 53 := by
    obtain ⟨hlo, hhi⟩ := abs_lt.mp hn
    rw [abs_le, Int.le_floor, Int.floor_le_iff, le_div_iff₀ hwq, div_lt_iff₀ hwq]
    constructor
    · exact_mod_cast (by nlinarith : -2 ^ 53 * w ≤ n)
    · exact_mod_cast (by nlinarith : n < (2 ^ 53 + 1) * w)
  exact (roundRat_intCast hfloor).symm.trans_le (roundRat_mono hle)

/-- **The quotients of a whole number of 52 bits and the next are apart**, though they are
rounded. -/
theorem roundRat_div_lt {n : ℕ} {w : ℚ} (hn : n + 1 < 2 ^ 52) (hw : 0 < w)
    (hw' : w ≤ 2 ^ (1024 : ℤ)) :
    roundRat (n / w) < roundRat ((n + 1) / w) := by
  have hgap : ((n : ℚ) + 1) / w - n / w = 1 / w := by
    rw [← sub_div, add_sub_cancel_left]
  have hpos : 0 < ((n : ℚ) + 1) / w := div_pos (Nat.cast_add_one_pos n) hw
  have hulp : ulp ((n + 1) / w) < 1 / w := by
    refine (ulp_le _ hpos.ne').trans_lt (max_lt ?_ ?_)
    · have hinv : (2 : ℚ) ^ (-1074 : ℤ) < 2 ^ (-1024 : ℤ) :=
        zpow_lt_zpow_right₀ one_lt_two (by norm_num)
      rw [zpow_neg 2 1024] at hinv
      generalize (2 : ℚ) ^ (1024 : ℤ) = b at hw' hinv
      rw [one_div]
      exact hinv.trans_le (inv_anti₀ hw hw')
    · have hlt : (n : ℚ) + 1 < 2 ^ 52 := by exact_mod_cast hn
      rw [abs_of_pos hpos, div_div, mul_comm w, ← div_div]
      exact div_lt_div_of_pos_right ((div_lt_one (pow_pos two_pos 52)).mpr hlt) hw
  have hup := (abs_le.mp (abs_roundRat_sub_le ((n + 1) / w))).1
  rcases Nat.eq_zero_or_pos n with rfl | hn0
  · rw [Nat.cast_zero, zero_div, sub_zero] at hgap
    rw [Nat.cast_zero, zero_div, roundRat_zero]
    linarith [ulp_pos ((((0 : ℕ) : ℚ) + 1) / w)]
  · have hle : ulp (n / w) ≤ ulp ((n + 1) / w) :=
      ulp_mono (div_pos (by exact_mod_cast hn0) hw)
        (div_le_div_of_nonneg_right (by linarith) hw.le)
    have hdown := (abs_le.mp (abs_roundRat_sub_le (n / w))).2
    linarith

end Double
