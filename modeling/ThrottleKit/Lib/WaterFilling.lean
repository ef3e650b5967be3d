import Mathlib.Algebra.BigOperators.Group.List.Basic
import Mathlib.Algebra.BigOperators.Ring.Finset
import Mathlib.Algebra.BigOperators.Ring.List
import Mathlib.Algebra.Order.BigOperators.Group.List
import Mathlib.Algebra.Order.Field.Basic
import Mathlib.Algebra.Order.Floor.Ring
import Mathlib.Tactic.FieldSimp
import Mathlib.Tactic.Linarith
import Mathlib.Tactic.Ring

/-!
# Water filling

Clients of different weights share an amount. Water that rises to one level fills each client to its
weight times the level, and no client past its demand.

The level is found client by client: one whose demand lies below the level of an even split is
served, and what is left is split over the rest, at a level that is no lower. In whole numbers the
clients are served to one level when it is right for each of them up to a unit. What the water gives
them, rounded down, is such a service; and it stays one, at a level that may rise, when a unit goes
to a client whose service for its weight is the least up to a unit.

## Main definitions

* `held` — what a client holds at a level
* `Served` — whole numbers that serve clients to one level, up to a unit

## Main results

* `level_le_of_full` — what a filled client leaves behind stands no lower
* `served_floor`, `Served.raise` — the service, unit by unit
-/

namespace WaterFilling

variable {ι K : Type*} [Field K] [LinearOrder K] [IsStrictOrderedRing K] {d w : ι → K}
  {l : List ι} {amount level : K}

/-- What a client holds when the water stands at `level`. -/
def held (d w : ι → K) (level : K) (i : ι) : K := min (d i) (w i * level)

omit [IsStrictOrderedRing K] in
theorem held_le (level : K) (i : ι) : held d w level i ≤ d i := min_le_left _ _

/-! ### The level, client by client -/

theorem sum_weights_pos (hw : ∀ i ∈ l, 0 < w i) (hl : l ≠ []) : 0 < (l.map w).sum := by
  refine List.sum_pos _ (fun x hx => ?_) (by simpa using hl)
  obtain ⟨i, hi, rfl⟩ := List.mem_map.mp hx
  exact hw i hi

/-- At the level of an even split the clients hold no more than there is. -/
theorem sum_held_le (hw : 0 < (l.map w).sum) :
    (l.map (held d w (amount / (l.map w).sum))).sum ≤ amount := by
  have hsum : (l.map fun i => w i * (amount / (l.map w).sum)).sum = amount := by
    rw [List.sum_map_mul_right, mul_div_cancel₀ _ hw.ne']
  calc (l.map (held d w (amount / (l.map w).sum))).sum
      ≤ (l.map fun i => w i * (amount / (l.map w).sum)).sum :=
        List.sum_le_sum fun _ _ => min_le_right _ _
    _ = amount := hsum

/-- Nobody gets more than the amount by an even split. -/
theorem mul_level_le (hw : ∀ i ∈ l, 0 < w i) (hamount : 0 ≤ amount) {i : ι} (hi : i ∈ l) :
    w i * (amount / (l.map w).sum) ≤ amount := by
  have hnonneg : ∀ x ∈ l.map w, 0 ≤ x := by
    intro x hx
    obtain ⟨j, hj, rfl⟩ := List.mem_map.mp hx
    exact (hw j hj).le
  have hle : w i ≤ (l.map w).sum := List.single_le_sum hnonneg _ (List.mem_map_of_mem hi)
  rw [mul_div_left_comm]
  exact mul_le_of_le_one_right hamount ((div_le_one ((hw i hi).trans_le hle)).mpr hle)

/-- What a filled client leaves behind stands no lower. -/
theorem level_le_of_full {a weight rest demand : K} (hweight : 0 < weight) (hrest : 0 < rest)
    (hfull : demand ≤ weight * (a / (weight + rest))) :
    a / (weight + rest) ≤ (a - demand) / rest := by
  have hsum : 0 < weight + rest := add_pos hweight hrest
  rw [le_div_iff₀ hrest]
  have hsplit : weight * (a / (weight + rest)) + rest * (a / (weight + rest)) = a := by
    field_simp
  linarith

/-! ### In whole numbers -/

section Whole

variable {a : ι → ℤ}

/-- Clients that are served to one level, up to a unit: none gets more than its demand or than a
unit above the level, and one that is below its demand is at most a unit below the level. -/
def Served (d : ι → ℤ) (w : ι → K) (level : K) (a : ι → ℤ) (l : List ι) : Prop :=
  ∀ i ∈ l, a i ≤ d i ∧ (a i : K) ≤ w i * level + 1 ∧ (a i < d i → w i * level ≤ a i + 1)

/-- **What the water gives, rounded down, serves the clients to its level.** -/
theorem served_floor [FloorRing K] {d : ι → ℤ}
    (ha : ∀ i ∈ l, a i = ⌊held (fun i => (d i : K)) w level i⌋) : Served d w level a l := by
  intro i hi
  have hfloor := Int.floor_le (held (fun i => (d i : K)) w level i)
  have hlt := Int.lt_floor_add_one (held (fun i => (d i : K)) w level i)
  rw [← ha i hi] at hfloor hlt
  have hdemand : (a i : K) ≤ d i := hfloor.trans (min_le_left _ _)
  refine ⟨by exact_mod_cast hdemand, ?_, fun hbelow => ?_⟩
  · linarith [hfloor.trans (min_le_right (d i : K) (w i * level))]
  · have hunit : (a i : K) + 1 ≤ d i := by exact_mod_cast hbelow
    rw [held] at hlt
    rcases min_lt_iff.mp hlt with h | h
    · linarith
    · exact h.le

/-- **One unit more for a client below its demand**, when the others are at most a unit below its
service for its weight. -/
theorem Served.raise [DecidableEq ι] {d : ι → ℤ} (h : Served d w level a l) {i : ι} (hw : 0 < w i)
    (hpos : ∀ j ∈ l, 0 < w j) (hbelow : a i < d i)
    (hleast : ∀ j ∈ l, a j < d j → w j * (a i / w i) ≤ a j + 1) :
    Served d w (max level (a i / w i)) (Function.update a i (a i + 1)) l := by
  intro j hj
  obtain ⟨hle, hup, hdown⟩ := h j hj
  have hrise : w j * level ≤ w j * max level (a i / w i) :=
    mul_le_mul_of_nonneg_left (le_max_left _ _) (hpos j hj).le
  have hmax : w j * max level (a i / w i) = max (w j * level) (w j * (a i / w i)) :=
    mul_max_of_nonneg _ _ (hpos j hj).le
  rw [Function.update_apply]
  split
  · rename_i heq
    subst heq
    have hown : w j * (a j / w j) = a j := mul_div_cancel₀ _ hw.ne'
    have hlevel := hdown hbelow
    refine ⟨by omega, ?_, fun _ => ?_⟩
    · rw [hmax, hown]
      push_cast
      linarith [le_max_right (w j * level) (a j : K)]
    · rw [hmax, hown]
      push_cast
      exact max_le (by linarith) (by linarith)
  · refine ⟨hle, by linarith, fun hlow => ?_⟩
    rw [hmax]
    exact max_le (hdown hlow) (hleast j hj hlow)

end Whole

end WaterFilling
