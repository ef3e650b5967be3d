import Mathlib.Algebra.BigOperators.Intervals
import Mathlib.Algebra.Order.Archimedean.Basic
import Mathlib.Algebra.Order.Floor.Ring
import Mathlib.Tactic.Linarith
import Mathlib.Tactic.Ring

/-!
# Splitting an amount into whole parts

An amount over `K` parts: every part gets the whole units that all of them can have, and the parts
that stand before what is left over get one more. Of an amount that is not whole, what is left over
is not whole either, and it is rounded up.

## Main definitions

* `part` — the part at an index

## Main results

* `sum_part` — the parts make up the amount rounded up
* `part_pos`, `part_le_part_add_one` — no part is empty, no two are more than one apart
-/

namespace EvenSplit

variable {α : Type*} [Field α] [LinearOrder α] [FloorRing α]

/-- The whole units that each of `K` parts can have. -/
def base (amount : α) (K : ℕ) : ℤ := ⌊amount / K⌋

/-- What is left over. -/
def remainder (amount : α) (K : ℕ) : α := amount - base amount K * K

/-- The part at index `i`. -/
def part (amount : α) (K i : ℕ) : ℤ :=
  base amount K + if (i : α) < remainder amount K then 1 else 0

variable {amount : α} {K : ℕ}

theorem base_le_part (amount : α) (K i : ℕ) : base amount K ≤ part amount K i := by
  rw [part]
  split_ifs <;> omega

theorem part_le_base_add_one (amount : α) (K i : ℕ) : part amount K i ≤ base amount K + 1 := by
  rw [part]
  split_ifs <;> omega

/-- No two parts are more than one apart. -/
theorem part_le_part_add_one (amount : α) (K i j : ℕ) : part amount K i ≤ part amount K j + 1 :=
  (part_le_base_add_one amount K i).trans (add_le_add_left (base_le_part amount K j) 1)

/-- Of the first `n` indices, those below `x` number as many as `x` rounded up leaves. -/
theorem sum_range_lt {x : α} (hx : 0 ≤ x) (n : ℕ) :
    ∑ i ∈ Finset.range n, (if (i : α) < x then (1 : ℤ) else 0) = min (n : ℤ) ⌈x⌉ := by
  have hceil : (0 : ℤ) ≤ ⌈x⌉ := Int.ceil_nonneg hx
  induction n with
  | zero => simp [hceil]
  | succ n ih =>
    have hlt : (n : α) < x ↔ (n : ℤ) < ⌈x⌉ := by
      rw [Int.lt_ceil, Int.cast_natCast]
    rw [Finset.sum_range_succ, ih]
    by_cases h : (n : α) < x
    · rw [if_pos h]
      have := hlt.mp h
      omega
    · rw [if_neg h]
      have := mt hlt.mpr h
      omega

/-! ### An ordered field -/

variable [IsStrictOrderedRing α]

theorem remainder_nonneg (amount : α) (hK : 0 < K) : 0 ≤ remainder amount K := by
  have hK' : (0 : α) < K := Nat.cast_pos.mpr hK
  have hbase : (base amount K : α) * K ≤ amount := (le_div_iff₀ hK').mp (Int.floor_le _)
  rw [remainder]
  linarith

theorem remainder_lt (amount : α) (hK : 0 < K) : remainder amount K < K := by
  have hK' : (0 : α) < K := Nat.cast_pos.mpr hK
  have hbase : amount < (base amount K + 1) * K := (div_lt_iff₀ hK').mp (Int.lt_floor_add_one _)
  rw [remainder]
  linarith

/-- The parts make up the amount rounded up. -/
theorem sum_part (amount : α) (hK : 0 < K) : ∑ i ∈ Finset.range K, part amount K i = ⌈amount⌉ := by
  have hrem : ⌈remainder amount K⌉ ≤ (K : ℤ) := by
    rw [Int.ceil_le, Int.cast_natCast]
    exact (remainder_lt amount hK).le
  have hceil : ⌈remainder amount K⌉ = ⌈amount⌉ - base amount K * K := by
    have hcast : remainder amount K = amount - ((base amount K * K : ℤ) : α) := by
      rw [remainder, Int.cast_mul, Int.cast_natCast]
    rw [hcast, Int.ceil_sub_intCast]
  calc ∑ i ∈ Finset.range K, part amount K i
      = K * base amount K
          + ∑ i ∈ Finset.range K, (if (i : α) < remainder amount K then (1 : ℤ) else 0) := by
        simp [part, Finset.sum_add_distrib]
    _ = K * base amount K + ⌈remainder amount K⌉ := by
        rw [sum_range_lt (remainder_nonneg amount hK), min_eq_right hrem]
    _ = ⌈amount⌉ := by
        rw [hceil]
        ring

/-- No part is empty where there are as many units as parts. -/
theorem part_pos (hK : 0 < K) (h : (K : α) ≤ amount) (i : ℕ) : 0 < part amount K i := by
  have hbase : 1 ≤ base amount K := by
    rw [base, Int.le_floor, Int.cast_one]
    exact (one_le_div (Nat.cast_pos.mpr hK)).mpr h
  have := base_le_part amount K i
  omega

end EvenSplit
