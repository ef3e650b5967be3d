import Mathlib.Logic.Function.Iterate
import Mathlib.Order.Lattice
import Mathlib.Tactic.Common

/-!
# Climbing to a need, up to a cap

A loop that raises a level to what it needs at that level, round by round: the need may grow with
the level. It stops where the level is good, at a cap, where the need does not rise above the level,
or out of rounds. Only the last two leave it below the cap at a level that is not good, and this
file says when that happens, without running the loop: it does not if and only if the needs, each of
the one before, rise up to the cap or to a good level within the rounds.

## Main definitions

* `climb` — the loop

## Main results

* `climb_reaches_iff` — when it ends at the cap or at a good level
-/

section Climb

variable {α : Type*} [LinearOrder α]

/-- Raise the level `x` to the need `f`, up to `cap`, for a number of rounds, until it is good. -/
def climb (f : α → α) (good : α → Bool) (cap : α) : ℕ → α → α
  | 0, x => x
  | n + 1, x =>
    if cap ≤ x ∨ good x then x
    else if min (f x) cap ≤ x then x else climb f good cap n (min (f x) cap)

variable {f : α → α} {good : α → Bool} {cap : α}

theorem climb_of_stop {x : α} (h : cap ≤ x ∨ good x) : ∀ n, climb f good cap n x = x
  | 0 => rfl
  | _ + 1 => by rw [climb, if_pos h]

theorem climb_succ_of_go {n : ℕ} {x : α} (hcap : x < cap) (hgood : good x = false)
    (hrise : x < f x) : climb f good cap (n + 1) x = climb f good cap n (min (f x) cap) := by
  rw [climb, if_neg (by simp [hcap, hgood]), if_neg (not_le.mpr (lt_min hrise hcap))]

theorem climb_succ_of_met {n : ℕ} {x : α} (hmet : f x ≤ x) : climb f good cap (n + 1) x = x := by
  rw [climb, if_pos ((min_le_left _ _).trans hmet), ite_self]

/-- **Where a climb ends.** It comes to the cap or to a level that is good if and only if the needs
rise to one within the rounds. -/
theorem climb_reaches_iff (n : ℕ) (x : α) :
    (cap ≤ climb f good cap n x ∨ good (climb f good cap n x) = true) ↔
      ∃ i ≤ n, (cap ≤ f^[i] x ∨ good (f^[i] x) = true) ∧ ∀ j < i, f^[j] x < f^[j + 1] x := by
  induction n generalizing x with
  | zero =>
    constructor
    · exact fun h => ⟨0, le_rfl, h, fun j hj => absurd hj (Nat.not_lt_zero j)⟩
    · rintro ⟨i, hi, h, -⟩
      obtain rfl := Nat.le_zero.mp hi
      exact h
  | succ n ih =>
    by_cases hstop : cap ≤ x ∨ good x = true
    · rw [climb_of_stop hstop]
      exact iff_of_true hstop ⟨0, Nat.zero_le _, hstop, fun j hj => absurd hj (Nat.not_lt_zero j)⟩
    · obtain ⟨hcap, hgood⟩ : x < cap ∧ good x = false := by simpa [not_or] using hstop
      by_cases hrise : x < f x
      · rw [climb_succ_of_go hcap hgood hrise]
        by_cases hcut : cap ≤ f x
        · rw [min_eq_right hcut, climb_of_stop (.inl le_rfl)]
          refine iff_of_true (.inl le_rfl) ⟨1, Nat.le_add_left 1 n, .inl hcut, fun j hj => ?_⟩
          obtain rfl := Nat.lt_one_iff.mp hj
          exact hrise
        · -- the first round is not cut off by the cap
          rw [min_eq_left (not_le.mp hcut).le, ih]
          constructor
          · rintro ⟨i, hi, hreach, hrises⟩
            refine ⟨i + 1, Nat.succ_le_succ hi, hreach, fun j hj => ?_⟩
            cases j with
            | zero => exact hrise
            | succ j => exact hrises j (Nat.lt_of_succ_lt_succ hj)
          · rintro ⟨i, hi, hreach, hrises⟩
            cases i with
            | zero => exact absurd hreach hstop
            | succ i =>
              exact ⟨i, Nat.le_of_succ_le_succ hi, hreach,
                fun j hj => hrises (j + 1) (Nat.succ_lt_succ hj)⟩
      · rw [climb_succ_of_met (not_lt.mp hrise)]
        refine iff_of_false hstop ?_
        rintro ⟨i, -, hreach, hrises⟩
        cases i with
        | zero => exact hstop hreach
        | succ i => exact hrise (hrises 0 (Nat.succ_pos i))

end Climb
