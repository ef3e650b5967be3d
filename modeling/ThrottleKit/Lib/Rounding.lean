import Mathlib.Algebra.Order.BigOperators.Group.List
import Mathlib.Data.List.Induction
import Mathlib.Data.List.Infix
import ThrottleKit.Lib.AlignedWindow
import ThrottleKit.Lib.Doubles

/-!
# Rounded arithmetic

A program over doubles rounds the result of every operation. Its definitions take the rounding `fl`
as an instance: `doubles` is what the program does, and `exact` reads its numbers as rationals. Both
keep the order and are exact on whole numbers of up to 53 bits, and what is proved of any rounding
is proved of both.

Time is cut into windows as in `AlignedWindow`, with each operation rounded. Rounded, the end of a
window may not be past an instant of the window.

## Main definitions

* `Rounding` — a rounding of results, with what is known of it
* `startOf`, `endOf` — the window that is computed for an instant
* `Inside` — the end that is computed for the window of an instant is past it
* `Clear` — the end that is computed for the window before that of an instant is not past it
* `Unrounded`, `FloorKept` — a result that is not rounded, or not past a whole number
* `sumFrom`, `sumOf` — sums that are rounded at each term
* `Meets` — a window is left for a later one at an instant, or is that of the instant
* `Follows` — a later instant, in the same window until that ends
* `IsWhole`, `WholeAt` — a whole number, and a window of whole numbers of up to 53 bits

## Main results

* `startOf_lt_of_ended` — having reached the end of one window, an instant is in a later one
* `startOf_le_of_lt_ceilEnd` — before the end of a window, a clear instant is in no later one
* `sumOf_eq_sum` — a sum is exact when none of its partial sums is rounded
* `WholeAt.startOf_eq`, `WholeAt.endOf_eq` — windows of whole numbers are cut exactly
-/

/-- A rounding of the results of arithmetic. -/
class Rounding where
  /-- The rounded result. -/
  fl : ℚ → ℚ
  mono : Monotone fl
  fl_fl : ∀ x, fl (fl x) = fl x
  fl_neg : ∀ x, fl (-x) = -fl x
  fl_intCast : ∀ n : ℤ, |n| ≤ 2 ^ 53 → fl n = n
  exists_fl_intCast : ∀ n : ℤ, ∃ m : ℤ, fl n = m
  fl_add_self : ∀ x, fl x = x → fl (x + x) = x + x
  floor_fl_div : ∀ n w : ℤ, |n| < 2 ^ 53 → 0 < w → w ≤ 2 ^ 53 → ⌊fl (n / w)⌋ = ⌊(n / w : ℚ)⌋
  add_le_of_le_fl_sub : ∀ a b c : ℚ, fl a = a → fl (b + c) = b + c → 0 ≤ b → 0 < c →
    c ≤ fl (a - b) → b + c ≤ a
  fl_div_lt : ∀ (n : ℕ) (w : ℚ), n + 1 < 2 ^ 52 → 0 < w → w ≤ 2 ^ (1024 : ℤ) →
    fl (n / w) < fl ((n + 1) / w)

namespace Rounding

/-- Numbers are rationals, and nothing is rounded. -/
instance (priority := low) exact : Rounding where
  fl := id
  mono := monotone_id
  fl_fl _ := rfl
  fl_neg _ := rfl
  fl_intCast _ _ := rfl
  exists_fl_intCast n := ⟨n, rfl⟩
  fl_add_self _ _ := rfl
  floor_fl_div _ _ _ _ _ := rfl
  add_le_of_le_fl_sub _ _ _ _ _ _ _ h := le_sub_iff_add_le'.mp h
  fl_div_lt n _ _ hw _ := div_lt_div_of_pos_right (lt_add_one (n : ℚ)) hw

@[simp] theorem fl_exact (x : ℚ) : fl x = x := rfl

/-- Numbers are doubles. -/
abbrev doubles : Rounding where
  fl := Double.roundRat
  mono _ _ := Double.roundRat_mono
  fl_fl := Double.roundRat_roundRat
  fl_neg := Double.roundRat_neg
  fl_intCast _ := Double.roundRat_intCast
  exists_fl_intCast := Double.exists_roundRat_intCast
  fl_add_self _ := Double.roundRat_add_self
  floor_fl_div _ _ := Double.floor_roundRat_div
  add_le_of_le_fl_sub _ _ _ := Double.add_le_of_le_roundRat_sub
  fl_div_lt _ _ := Double.roundRat_div_lt

/-! ### Whole numbers -/

/-- `Number.isInteger(x)`. -/
def IsWhole (x : ℚ) : Prop := x.den = 1

instance (x : ℚ) : Decidable (IsWhole x) := inferInstanceAs (Decidable (_ = _))

theorem isWhole_intCast (n : ℤ) : IsWhole n := Rat.den_intCast n

theorem IsWhole.exists_eq {x : ℚ} (h : IsWhole x) : ∃ n : ℤ, x = n :=
  ⟨x.num, (Rat.coe_int_num_of_den_eq_one h).symm⟩

theorem IsWhole.add {x y : ℚ} (hx : IsWhole x) (hy : IsWhole y) : IsWhole (x + y) := by
  obtain ⟨m, rfl⟩ := hx.exists_eq
  obtain ⟨n, rfl⟩ := hy.exists_eq
  exact_mod_cast isWhole_intCast (m + n)

theorem IsWhole.sub {x y : ℚ} (hx : IsWhole x) (hy : IsWhole y) : IsWhole (x - y) := by
  obtain ⟨m, rfl⟩ := hx.exists_eq
  obtain ⟨n, rfl⟩ := hy.exists_eq
  exact_mod_cast isWhole_intCast (m - n)

theorem IsWhole.mul {x y : ℚ} (hx : IsWhole x) (hy : IsWhole y) : IsWhole (x * y) := by
  obtain ⟨m, rfl⟩ := hx.exists_eq
  obtain ⟨n, rfl⟩ := hy.exists_eq
  exact_mod_cast isWhole_intCast (m * n)

theorem IsWhole.add_one_le {x y : ℚ} (hx : IsWhole x) (hy : IsWhole y) (h : x < y) :
    x + 1 ≤ y := by
  obtain ⟨m, rfl⟩ := hx.exists_eq
  obtain ⟨n, rfl⟩ := hy.exists_eq
  exact_mod_cast Int.add_one_le_of_lt (by exact_mod_cast h)

variable [Rounding] {w s t : ℚ}

/-- **A whole number of up to 53 bits is not rounded.** -/
theorem IsWhole.fl_eq {x : ℚ} (h : IsWhole x) (hx : |x| ≤ 2 ^ 53) : fl x = x := by
  obtain ⟨n, rfl⟩ := h.exists_eq
  exact fl_intCast n (by exact_mod_cast hx)

theorem fl_natCast {n : ℕ} (h : n ≤ 2 ^ 53) : fl n = n := by
  have habs : |(n : ℤ)| ≤ 2 ^ 53 := by
    rw [abs_of_nonneg (Int.natCast_nonneg n)]
    exact_mod_cast h
  exact_mod_cast fl_intCast (n : ℤ) habs

theorem fl_zero : fl 0 = 0 := by
  exact_mod_cast fl_natCast (Nat.zero_le (2 ^ 53))

theorem fl_one : fl 1 = 1 := by
  exact_mod_cast fl_natCast (n := 1) (by norm_num)

theorem fl_nonneg {x : ℚ} (h : 0 ≤ x) : 0 ≤ fl x := fl_zero.symm.trans_le (mono h)

/-- What is no more than the quotient of a whole number, as computed, is less than that of the
next. -/
theorem mul_lt_of_fl_le_div {v x : ℚ} {n : ℕ} (hn : n + 1 < 2 ^ 52) (hv : 0 < v)
    (hv' : v ≤ 2 ^ (1024 : ℤ)) (h : fl x ≤ fl (n / v)) : v * x < n + 1 := by
  by_contra hle
  have hnext : ((n : ℚ) + 1) / v ≤ x := (div_le_iff₀' hv).mpr (not_lt.mp hle)
  exact absurd ((mono hnext).trans h) (not_le.mpr (fl_div_lt n v hn hv hv'))

/-! ### Results that are not rounded -/

/-- The result `x` is a number of the arithmetic. -/
def Unrounded (x : ℚ) : Prop := fl x = x

instance (x : ℚ) : Decidable (Unrounded x) := inferInstanceAs (Decidable (_ = _))

omit [Rounding] in
theorem unrounded_exact (x : ℚ) : @Unrounded exact x := rfl

theorem Unrounded.min {x y : ℚ} (hx : Unrounded x) (hy : Unrounded y) : Unrounded (min x y) := by
  rcases min_choice x y with h | h <;> rwa [h]

theorem Unrounded.max {x y : ℚ} (hx : Unrounded x) (hy : Unrounded y) : Unrounded (max x y) := by
  rcases max_choice x y with h | h <;> rwa [h]

theorem IsWhole.unrounded {x : ℚ} (h : IsWhole x) (hx : |x| ≤ 2 ^ 53) : Unrounded x := h.fl_eq hx

/-- Rounding `x` leaves its whole part. -/
def FloorKept (x : ℚ) : Prop := ⌊fl x⌋ = ⌊x⌋

instance (x : ℚ) : Decidable (FloorKept x) := inferInstanceAs (Decidable (_ = _))

/-- Numbers added to `a`, from the first. -/
def sumFrom (a : ℚ) (xs : List ℚ) : ℚ := xs.foldl (fun acc x => fl (acc + x)) a

/-- The sum of numbers, added up from the first. -/
def sumOf (xs : List ℚ) : ℚ := sumFrom 0 xs

/-- **A sum is exact when none of its partial sums is rounded.** -/
theorem sumFrom_eq {a : ℚ} {xs : List ℚ} (h : ∀ ys ∈ xs.inits, Unrounded (a + ys.sum)) :
    sumFrom a xs = a + xs.sum := by
  induction xs using List.reverseRecOn with
  | nil => exact (add_zero a).symm
  | append_singleton xs x ih =>
    have hpre : ∀ ys ∈ xs.inits, Unrounded (a + ys.sum) := fun ys hys =>
      h ys (List.mem_inits _ _ |>.mpr
        (((List.mem_inits _ _).mp hys).trans (List.prefix_append xs [x])))
    have hsum := h _ ((List.mem_inits _ _).mpr (List.prefix_refl (xs ++ [x])))
    rw [List.sum_append, List.sum_singleton, ← add_assoc] at hsum ⊢
    rw [sumFrom, List.foldl_append, List.foldl_cons, List.foldl_nil, ← sumFrom, ih hpre]
    exact hsum

theorem sumOf_eq_sum {xs : List ℚ} (h : ∀ ys ∈ xs.inits, Unrounded ys.sum) :
    sumOf xs = xs.sum := by
  rw [sumOf, sumFrom_eq fun ys hys => by rw [zero_add]; exact h ys hys, zero_add]

omit [Rounding] in
@[simp] theorem sumFrom_exact (a : ℚ) (xs : List ℚ) : @sumFrom exact a xs = a + xs.sum :=
  @sumFrom_eq exact a xs fun _ _ => rfl

omit [Rounding] in
@[simp] theorem sumOf_exact (xs : List ℚ) : @sumOf exact xs = xs.sum :=
  @sumOf_eq_sum exact xs fun _ _ => rfl

/-- **A sum of whole numbers is exact** up to 53 bits. -/
theorem sumOf_of_isWhole {xs : List ℚ} (hxs : ∀ x ∈ xs, IsWhole x ∧ 0 ≤ x)
    (hsum : xs.sum ≤ 2 ^ 53) : sumOf xs = xs.sum := by
  refine sumOf_eq_sum fun ys hys => ?_
  obtain ⟨zs, rfl⟩ := (List.mem_inits _ _).mp hys
  have hnonneg (l : List ℚ) (hl : ∀ x ∈ l, IsWhole x ∧ 0 ≤ x) : 0 ≤ l.sum :=
    List.sum_nonneg fun x hx => (hl x hx).2
  have hwhole (l : List ℚ) (hl : ∀ x ∈ l, IsWhole x ∧ 0 ≤ x) : IsWhole l.sum := by
    induction l with
    | nil => exact isWhole_intCast 0
    | cons x l ih =>
      rw [List.forall_mem_cons] at hl
      exact hl.1.1.add (ih hl.2)
  have hpre := fun x hx => hxs x (List.mem_append_left zs hx)
  have hpost := hnonneg zs fun x hx => hxs x (List.mem_append_right ys hx)
  rw [List.sum_append] at hsum
  refine (hwhole ys hpre).unrounded ?_
  rw [abs_of_nonneg (hnonneg ys hpre)]
  linarith

theorem sumFrom_nonneg {a : ℚ} {xs : List ℚ} (ha : 0 ≤ a) (hxs : ∀ x ∈ xs, 0 ≤ x) :
    0 ≤ sumFrom a xs := by
  induction xs generalizing a with
  | nil => exact ha
  | cons x xs ih =>
    rw [List.forall_mem_cons] at hxs
    exact ih (fl_nonneg (add_nonneg ha hxs.1)) hxs.2

theorem sumOf_nonneg {xs : List ℚ} (hxs : ∀ x ∈ xs, 0 ≤ x) : 0 ≤ sumOf xs :=
  sumFrom_nonneg le_rfl hxs

theorem le_sumFrom {a y : ℚ} {xs : List ℚ} (hxs : ∀ x ∈ xs, 0 ≤ x) (hy : Unrounded y)
    (ha : y ≤ a) : y ≤ sumFrom a xs := by
  induction xs generalizing a with
  | nil => exact ha
  | cons x xs ih =>
    rw [List.forall_mem_cons] at hxs
    exact ih hxs.2 (hy.symm.trans_le (mono (ha.trans (le_add_of_nonneg_right hxs.1))))

/-- No term is more than the sum. -/
theorem le_sumFrom_of_mem {a y : ℚ} {xs : List ℚ} (hxs : ∀ x ∈ xs, 0 ≤ x) (hy : Unrounded y)
    (ha : 0 ≤ a) (hmem : y ∈ xs) : y ≤ sumFrom a xs := by
  induction xs generalizing a with
  | nil => cases hmem
  | cons x xs ih =>
    rw [List.forall_mem_cons] at hxs
    rcases List.mem_cons.mp hmem with rfl | hmem
    · show y ≤ sumFrom (fl (a + y)) xs
      exact le_sumFrom hxs.2 hy (hy.symm.trans_le (mono (le_add_of_nonneg_left ha)))
    · exact ih hxs.2 (fl_nonneg (add_nonneg ha hxs.1)) hmem

/-! ### Windows -/

/-- `Math.floor(t / w) * w`. -/
def startOf (w t : ℚ) : ℚ := fl (⌊fl (t / w)⌋ * w)

/-- The end of the window of `t`. -/
def endOf (w t : ℚ) : ℚ := fl (startOf w t + w)

omit [Rounding] in
@[simp] theorem startOf_exact (w t : ℚ) :
    @startOf exact w t = AlignedWindow.alignedStart w t :=
  rfl

/-- The window of `t` has not ended at `t`. -/
def Inside (w t : ℚ) : Prop := t < endOf w t

instance (w t : ℚ) : Decidable (Inside w t) := inferInstanceAs (Decidable (_ < _))

theorem startOf_mono (hw : 0 < w) (h : s ≤ t) : startOf w s ≤ startOf w t := by
  refine mono (mul_le_mul_of_nonneg_right ?_ hw.le)
  exact_mod_cast Int.floor_le_floor (mono (div_le_div_of_nonneg_right h hw.le))

/-- The window starting at `s` is left for a later one at `t`, or is that of `t`. -/
def Meets (w s t : ℚ) : Prop :=
  if fl (s + w) ≤ t then s < startOf w t else s = startOf w t

instance (w s t : ℚ) : Decidable (Meets w s t) := inferInstanceAs (Decidable (ite _ _ _))

theorem Meets.le (h : Meets w s t) : s ≤ startOf w t := by
  rw [Meets] at h
  split at h
  · exact h.le
  · exact h.le

/-- **Having reached the end of one window, an instant is in a later one.** -/
theorem startOf_lt_of_ended (hw : 0 < w) (hs : Inside w s) (ht : Inside w t)
    (hend : endOf w s ≤ t) : startOf w s < startOf w t := by
  refine lt_of_le_of_ne (startOf_mono hw (hs.le.trans hend)) fun heq => ?_
  have hsame : endOf w s = endOf w t := by rw [endOf, endOf, heq]
  exact absurd (hsame.symm.trans_le hend) (not_le.mpr ht)

/-- The instant `t` is not before `s`, and is in its window until that ends. -/
structure Follows (w s t : ℚ) : Prop where
  le : s ≤ t
  startOf_eq : t < endOf w s → startOf w t = startOf w s

instance Follows.decidable (w s t : ℚ) : Decidable (Follows w s t) :=
  decidable_of_iff (s ≤ t ∧ (t < endOf w s → startOf w t = startOf w s))
    ⟨fun ⟨h, h'⟩ => ⟨h, h'⟩, fun ⟨h, h'⟩ => ⟨h, h'⟩⟩

omit [Rounding] in
instance (w s t : ℚ) : Decidable (@Follows doubles w s t) := @Follows.decidable doubles w s t

theorem Follows.refl (w t : ℚ) : Follows w t t := ⟨le_rfl, fun _ => rfl⟩

theorem Follows.trans {u : ℚ} (h : Follows w s t) (h' : Follows w t u) : Follows w s u := by
  refine ⟨h.le.trans h'.le, fun hlt => ?_⟩
  have hsame := h.startOf_eq (h'.le.trans_lt hlt)
  rw [h'.startOf_eq (by rwa [endOf, hsame]), hsame]

/-- The end of the window of `t`, rounded up to a whole instant. -/
def ceilEnd (w t : ℚ) : ℚ := ⌈endOf w t⌉

omit [Rounding] in
@[simp] theorem ceilEnd_exact (w t : ℚ) : @ceilEnd exact w t = AlignedWindow.roundedEnd w t := rfl

theorem ceilEnd_mono (h : startOf w s ≤ startOf w t) : ceilEnd w s ≤ ceilEnd w t := by
  have hend : endOf w s ≤ endOf w t := mono (add_le_add_left h w)
  rw [ceilEnd, ceilEnd]
  exact_mod_cast Int.ceil_le_ceil hend

/-- The end of the window before that of `t`, rounded up to a whole instant, is not past `t`. -/
def Clear (w t : ℚ) : Prop := (⌈fl (fl ((⌊fl (t / w)⌋ - 1) * w) + w)⌉ : ℚ) ≤ t

instance (w t : ℚ) : Decidable (Clear w t) := inferInstanceAs (Decidable ((_ : ℚ) ≤ _))

/-- **An instant before the end of a window is in it or in an earlier one**, if it is clear. -/
theorem startOf_le_of_lt_ceilEnd (hw : 0 < w) (hclear : Clear w t) (hlt : t < ceilEnd w s) :
    startOf w t ≤ startOf w s := by
  rcases le_or_gt ⌊fl (t / w)⌋ ⌊fl (s / w)⌋ with hle | hgt
  · exact mono (mul_le_mul_of_nonneg_right (by exact_mod_cast hle) hw.le)
  -- an earlier window has ended when the last one before `t` has
  · have hprev : (⌊fl (s / w)⌋ : ℚ) ≤ ⌊fl (t / w)⌋ - 1 := by exact_mod_cast Int.le_sub_one_of_lt hgt
    have hend : endOf w s ≤ fl (fl ((⌊fl (t / w)⌋ - 1) * w) + w) :=
      mono (add_le_add_left (mono (mul_le_mul_of_nonneg_right hprev hw.le)) w)
    have hceil : ceilEnd w s ≤ t := by
      refine le_trans ?_ hclear
      rw [ceilEnd]
      exact_mod_cast Int.ceil_le_ceil hend
    exact absurd hceil (not_le.mpr hlt)

theorem clear_zero (hw : Unrounded w) : Clear w 0 := by
  have hstart : fl ((⌊fl (0 / w)⌋ - 1) * w) = -w := by
    rw [zero_div, fl_zero, Int.floor_zero, Int.cast_zero, zero_sub, neg_one_mul, fl_neg, hw]
  rw [Clear, hstart, neg_add_cancel, fl_zero, Int.ceil_zero, Int.cast_zero]

/-! ### Windows of whole numbers -/

/-- The window of width `w` at `t` is made of whole numbers of up to 53 bits. -/
structure WholeAt (w t : ℚ) : Prop where
  width : IsWhole w
  instant : IsWhole t
  small : |t| + w ≤ 2 ^ 53

instance (w t : ℚ) : Decidable (WholeAt w t) :=
  decidable_of_iff (IsWhole w ∧ IsWhole t ∧ |t| + w ≤ 2 ^ 53)
    ⟨fun ⟨h, h', h''⟩ => ⟨h, h', h''⟩, fun ⟨h, h', h''⟩ => ⟨h, h', h''⟩⟩

namespace WholeAt

open AlignedWindow

/-- **A window of whole numbers starts where it should.** -/
theorem startOf_eq (hw : 0 < w) (h : WholeAt w t) : startOf w t = alignedStart w t := by
  obtain ⟨n, rfl⟩ := h.instant.exists_eq
  obtain ⟨v, rfl⟩ := h.width.exists_eq
  have hv : 0 < v := by exact_mod_cast hw
  have hsmall : |n| + v ≤ 2 ^ 53 := by exact_mod_cast h.small
  have habs := abs_nonneg n
  rw [startOf, floor_fl_div n v (by omega) hv (by omega)]
  refine IsWhole.fl_eq ((isWhole_intCast _).mul (isWhole_intCast v)) ?_
  have hle : alignedStart (v : ℚ) n ≤ n := alignedStart_le hw
  have hlt : (n : ℚ) < alignedStart (v : ℚ) n + v := lt_alignedStart_add hw
  have hbound := h.small
  show |alignedStart (v : ℚ) n| ≤ 2 ^ 53
  rw [abs_le]
  constructor <;> linarith [neg_abs_le (n : ℚ), le_abs_self (n : ℚ)]

theorem endOf_eq (hw : 0 < w) (h : WholeAt w t) : endOf w t = alignedStart w t + w := by
  have hwhole : IsWhole (alignedStart w t) := (isWhole_intCast ⌊t / w⌋).mul h.width
  rw [endOf, h.startOf_eq hw]
  refine (hwhole.add h.width).fl_eq ?_
  have hle : alignedStart w t ≤ t := alignedStart_le hw
  have hlt : t < alignedStart w t + w := lt_alignedStart_add hw
  have hbound := h.small
  rw [abs_le]
  constructor <;> linarith [neg_abs_le t, le_abs_self t]

theorem isWhole_endOf (hw : 0 < w) (h : WholeAt w t) : IsWhole (endOf w t) := by
  rw [h.endOf_eq hw]
  exact ((isWhole_intCast ⌊t / w⌋).mul h.width).add h.width

/-- What is left of a window of whole numbers is not rounded. -/
theorem fl_endOf_sub (hw : 0 < w) (h : WholeAt w t) : fl (endOf w t - t) = endOf w t - t := by
  refine ((h.isWhole_endOf hw).sub h.instant).fl_eq ?_
  have hle : alignedStart w t ≤ t := alignedStart_le hw
  have hlt : t < alignedStart w t + w := lt_alignedStart_add hw
  have hbound := h.small
  rw [h.endOf_eq hw, abs_of_nonneg] <;> linarith [abs_nonneg t]

/-- A window of whole numbers has not ended before its end. -/
theorem inside (hw : 0 < w) (h : WholeAt w t) : Inside w t := by
  rw [Inside, h.endOf_eq hw]
  exact lt_alignedStart_add hw

theorem follows (hw : 0 < w) (hs : WholeAt w s) (ht : WholeAt w t) (hle : s ≤ t) :
    Follows w s t := by
  refine ⟨hle, fun hlt => ?_⟩
  rw [hs.endOf_eq hw] at hlt
  rw [hs.startOf_eq hw, ht.startOf_eq hw]
  exact alignedStart_eq_of_lt hw hle hlt

/-- **A window of whole numbers is left for a later one**, or is that of a later instant. -/
theorem meets (hw : 0 < w) (hs : WholeAt w s) (ht : WholeAt w t) (hle : s ≤ t) :
    Meets w (startOf w s) t := by
  rw [Meets]
  split
  · rename_i hend
    exact startOf_lt_of_ended hw (hs.inside hw) (ht.inside hw) hend
  · rename_i hstay
    have hlt : t < endOf w s := not_le.mp hstay
    rw [hs.endOf_eq hw] at hlt
    rw [hs.startOf_eq hw, ht.startOf_eq hw]
    exact (alignedStart_eq_of_lt hw hle hlt).symm

end WholeAt

end Rounding
