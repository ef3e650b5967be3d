import Mathlib

/-!
# Filling a budget greedily

Items are taken in a given order, each of them wholly as long as it fits. The first that does not
fit is taken in part, so that the budget is used up, and those behind it are left out. Whether an
item fits is judged up to a tolerance, and items that need no more than the tolerance do not count:
they are all given the same fraction.

Where the items come in the order of a key, the key of the one taken in part is a threshold: what
has a smaller key is taken wholly, and what has a larger one is left out.

## Main definitions

* `step` — one item
* `counted` — what the items that count take of the budget
* `Filled` — fractions below and above a threshold

## Main results

* `filled_foldl` — what the loop leaves
* `Filled.sum_bounds` — what all items take
-/

namespace GreedyFill

variable {ι 𝕜 : Type*} [DecidableEq ι] [Field 𝕜] [LinearOrder 𝕜]

/-- One item: the fractions, and what is taken so far. -/
def step (need : ι → 𝕜) (cap tol small : 𝕜) (s : (ι → 𝕜) × 𝕜) (i : ι) : (ι → 𝕜) × 𝕜 :=
  if need i ≤ tol then (Function.update s.1 i small, s.2)
  else if s.2 + need i ≤ cap + tol then (Function.update s.1 i 1, s.2 + need i)
  else (Function.update s.1 i (max 0 (min 1 ((cap - s.2) / need i))), cap)

/-- What the items that count take. -/
def counted (need : ι → 𝕜) (tol : 𝕜) (l : List ι) (x : ι → 𝕜) : 𝕜 :=
  (l.map fun i => if need i ≤ tol then 0 else need i * x i).sum

/-- Items of the list that count are taken wholly, and fit; or they are up to a threshold, and use
the budget up. Items that do not count have the fraction `small`. -/
structure Filled (need : ι → 𝕜) (cap tol small : 𝕜) (key : ι → 𝕜) (l : List ι) (x : ι → 𝕜) :
    Prop where
  unit : ∀ i ∈ l, 0 ≤ x i ∧ x i ≤ 1
  small_eq : ∀ i ∈ l, need i ≤ tol → x i = small
  counted_le : counted need tol l x ≤ cap + tol
  whole_or_threshold : (∀ i ∈ l, tol < need i → x i = 1) ∨
    cap ≤ counted need tol l x ∧ ∃ k ∈ l, tol < need k ∧
      (∀ i ∈ l, tol < need i → key i < key k → x i = 1) ∧
      ∀ i ∈ l, tol < need i → key k < key i → x i = 0

variable {need key : ι → 𝕜} {cap tol small : 𝕜} {l : List ι} {x : ι → 𝕜}

omit [DecidableEq ι] in
theorem counted_cons (i : ι) :
    counted need tol (i :: l) x
      = (if need i ≤ tol then 0 else need i * x i) + counted need tol l x := by
  rw [counted, counted, List.map_cons, List.sum_cons]

/-- The loop writes the fractions of its items only. -/
theorem foldl_step_of_notMem (r : 𝕜) {j : ι} (hj : j ∉ l) :
    (l.foldl (step need cap tol small) (x, r)).1 j = x j := by
  induction l generalizing x r with
  | nil => rfl
  | cons i l ih =>
    obtain ⟨hne, hj⟩ := not_or.mp (mt List.mem_cons.mpr hj)
    rw [List.foldl_cons, step]
    split
    · rw [ih _ hj, Function.update_of_ne hne]
    · split
      · rw [ih _ hj, Function.update_of_ne hne]
      · rw [ih _ hj, Function.update_of_ne hne]

variable [IsStrictOrderedRing 𝕜]

/-- Once the budget is used up, items that count are left out. -/
theorem foldl_step_of_full (x : ι → 𝕜) (hl : l.Nodup) :
    ∀ i ∈ l, (l.foldl (step need cap tol small) (x, cap)).1 i
      = if need i ≤ tol then small else 0 := by
  induction l generalizing x with
  | nil => exact fun i hi => absurd hi List.not_mem_nil
  | cons j l ih =>
    obtain ⟨hj, hl⟩ := List.nodup_cons.mp hl
    have hnext : ∃ y, step need cap tol small (x, cap) j = (Function.update x j y, cap) ∧
        y = if need j ≤ tol then small else 0 := by
      rw [step]
      split
      · exact ⟨small, rfl, rfl⟩
      · rename_i hneed
        rw [if_neg (by dsimp only; linarith)]
        refine ⟨_, rfl, ?_⟩
        dsimp only
        rw [sub_self, zero_div, min_eq_right zero_le_one, max_self]
    obtain ⟨y, hy, rfl⟩ := hnext
    rw [List.foldl_cons, hy]
    refine List.forall_mem_cons.mpr ⟨?_, ih _ hl⟩
    rw [foldl_step_of_notMem _ hj, Function.update_self]

theorem counted_foldl_of_full (x : ι → 𝕜) (hl : l.Nodup) :
    counted need tol l (l.foldl (step need cap tol small) (x, cap)).1 = 0 := by
  rw [counted]
  refine List.sum_eq_zero fun y hy => ?_
  obtain ⟨i, hi, rfl⟩ := List.mem_map.mp hy
  rw [foldl_step_of_full x hl i hi]
  split
  · rfl
  · rw [mul_zero]

/-- The item that does not fit uses the budget up. -/
theorem part_spec {r n : 𝕜} (htol : 0 ≤ tol) (hr : r ≤ cap + tol) (hn : tol < n)
    (hover : cap + tol < r + n) :
    (0 ≤ max 0 (min 1 ((cap - r) / n)) ∧ max 0 (min 1 ((cap - r) / n)) ≤ 1) ∧
      cap ≤ r + n * max 0 (min 1 ((cap - r) / n)) ∧
      r + n * max 0 (min 1 ((cap - r) / n)) ≤ cap + tol := by
  have hpos : 0 < n := lt_of_le_of_lt htol hn
  have hlt : (cap - r) / n < 1 := by
    rw [div_lt_one hpos]
    linarith
  refine ⟨⟨le_max_left _ _, max_le zero_le_one (min_le_left _ _)⟩, ?_⟩
  rw [min_eq_right hlt.le]
  rcases le_total r cap with h | h
  · have hnonneg : 0 ≤ (cap - r) / n := div_nonneg (by linarith) hpos.le
    rw [max_eq_right hnonneg, mul_div_cancel₀ _ hpos.ne']
    constructor <;> linarith
  · have hnonpos : (cap - r) / n ≤ 0 := div_nonpos_of_nonpos_of_nonneg (by linarith) hpos.le
    rw [max_eq_left hnonpos, mul_zero, add_zero]
    exact ⟨h, hr⟩

/-- **What the loop leaves**, from `r` on: the budget counts what is taken before as well. -/
theorem filled_foldl (htol : 0 ≤ tol) (hsmall : 0 ≤ small ∧ small ≤ 1) (hl : l.Nodup)
    (hsorted : l.Pairwise fun i j => key i ≤ key j) {r : 𝕜} (hr : r ≤ cap + tol) :
    Filled need (cap - r) tol small key l (l.foldl (step need cap tol small) (x, r)).1 := by
  induction l generalizing x r with
  | nil =>
    refine ⟨?_, ?_, ?_, ?_⟩
    · exact fun i hi => absurd hi List.not_mem_nil
    · exact fun i hi => absurd hi List.not_mem_nil
    · rw [counted, List.map_nil, List.sum_nil]
      linarith
    · exact .inl fun i hi => absurd hi List.not_mem_nil
  | cons j l ih =>
    obtain ⟨hj, hl⟩ := List.nodup_cons.mp hl
    obtain ⟨hfirst, hsorted⟩ := List.pairwise_cons.mp hsorted
    rw [List.foldl_cons]
    by_cases hneed : need j ≤ tol
    · rw [step, if_pos hneed]
      have hself : (l.foldl (step need cap tol small) (Function.update x j small, r)).1 j
          = small := by
        rw [foldl_step_of_notMem _ hj, Function.update_self]
      obtain ⟨hunit, hsmall_eq, hcounted, hthreshold⟩ := ih (x := Function.update x j small)
        hl hsorted hr
      refine ⟨List.forall_mem_cons.mpr ⟨by rwa [hself], hunit⟩,
        List.forall_mem_cons.mpr ⟨fun _ => hself, hsmall_eq⟩, ?_, ?_⟩
      · rwa [counted_cons, if_pos hneed, zero_add]
      · rw [counted_cons, if_pos hneed, zero_add]
        have hskip : ¬ tol < need j := not_lt.mpr hneed
        rcases hthreshold with hwhole | ⟨hcap, k, hk, hneedk, hbelow, habove⟩
        · exact .inl (List.forall_mem_cons.mpr ⟨fun h => absurd h hskip, hwhole⟩)
        · exact .inr ⟨hcap, k, List.mem_cons_of_mem _ hk, hneedk,
            List.forall_mem_cons.mpr ⟨fun h => absurd h hskip, hbelow⟩,
            List.forall_mem_cons.mpr ⟨fun h => absurd h hskip, habove⟩⟩
    · by_cases hfits : r + need j ≤ cap + tol
      · rw [step, if_neg hneed, if_pos hfits]
        have hself : (l.foldl (step need cap tol small) (Function.update x j 1, r + need j)).1 j
            = 1 := by
          rw [foldl_step_of_notMem _ hj, Function.update_self]
        obtain ⟨hunit, hsmall_eq, hcounted, hthreshold⟩ := ih (x := Function.update x j 1)
          hl hsorted hfits
        refine ⟨List.forall_mem_cons.mpr ⟨by rw [hself]; exact ⟨zero_le_one, le_rfl⟩, hunit⟩,
          List.forall_mem_cons.mpr ⟨fun h => absurd h hneed, hsmall_eq⟩, ?_, ?_⟩
        · rw [counted_cons, if_neg hneed, hself, mul_one]
          linarith
        · rw [counted_cons, if_neg hneed, hself, mul_one]
          rcases hthreshold with hwhole | ⟨hcap, k, hk, hneedk, hbelow, habove⟩
          · exact .inl (List.forall_mem_cons.mpr ⟨fun _ => hself, hwhole⟩)
          · exact .inr ⟨by linarith, k, List.mem_cons_of_mem _ hk, hneedk,
              List.forall_mem_cons.mpr ⟨fun _ _ => hself, hbelow⟩, List.forall_mem_cons.mpr
                ⟨fun _ h => absurd h (not_lt.mpr (hfirst k hk)), habove⟩⟩
      · rw [step, if_neg hneed, if_neg hfits]
        obtain ⟨hunit, hcap, hle⟩ := part_spec htol hr (not_le.mp hneed) (not_le.mp hfits)
        generalize max 0 (min 1 ((cap - r) / need j)) = part at hunit hcap hle ⊢
        obtain ⟨y, hy⟩ : ∃ y, y = (l.foldl (step need cap tol small)
          (Function.update x j part, cap)).1 := ⟨_, rfl⟩
        have hself : y j = part := by
          rw [hy, foldl_step_of_notMem _ hj, Function.update_self]
        have hrest : ∀ i ∈ l, y i = if need i ≤ tol then small else 0 := by
          rw [hy]
          exact foldl_step_of_full _ hl
        have hcounted : counted need tol l y = 0 := by
          rw [hy]
          exact counted_foldl_of_full _ hl
        dsimp only
        rw [← hy]
        refine ⟨List.forall_mem_cons.mpr ⟨by rwa [hself], fun i hi => ?_⟩,
          List.forall_mem_cons.mpr ⟨fun h => absurd h hneed, fun i hi h => ?_⟩, ?_,
          .inr ⟨?_, j, List.mem_cons_self, not_le.mp hneed, ?_, ?_⟩⟩
        · rw [hrest i hi]
          split
          · exact hsmall
          · exact ⟨le_rfl, zero_le_one⟩
        · rw [hrest i hi, if_pos h]
        · rw [counted_cons, if_neg hneed, hself, hcounted]
          linarith
        · rw [counted_cons, if_neg hneed, hself, hcounted]
          linarith
        · exact List.forall_mem_cons.mpr ⟨fun _ h => absurd h (lt_irrefl _), fun i hi _ h =>
            absurd h (not_lt.mpr (hfirst i hi))⟩
        · refine List.forall_mem_cons.mpr ⟨fun _ h => absurd h (lt_irrefl _), fun i hi h _ => ?_⟩
          rw [hrest i hi, if_neg (not_le.mpr h)]

/-! ### What all items take -/

omit [DecidableEq ι] [IsStrictOrderedRing 𝕜] in
/-- The order of the items does not show in the fractions. -/
theorem Filled.perm {l' : List ι} (h : Filled need cap tol small key l x) (hperm : l.Perm l') :
    Filled need cap tol small key l' x := by
  have hmem : ∀ i, i ∈ l' ↔ i ∈ l := fun i => hperm.mem_iff.symm
  have hcounted : counted need tol l' x = counted need tol l x := (hperm.map _).sum_eq.symm
  obtain ⟨hunit, hsmall, hle, hthreshold⟩ := h
  constructor
  · simpa only [hmem] using hunit
  · simpa only [hmem] using hsmall
  · rwa [hcounted]
  · simpa only [hmem, hcounted] using hthreshold

omit [DecidableEq ι] [IsStrictOrderedRing 𝕜] in
/-- What all items take: those that count, and those that do not. -/
theorem Filled.sum_eq (h : Filled need cap tol small key l x) :
    (l.map fun i => need i * x i).sum
      = counted need tol l x + (l.map fun i => if need i ≤ tol then need i * small else 0).sum := by
  rw [counted, ← List.sum_map_add]
  refine congrArg List.sum (List.map_congr_left fun i hi => ?_)
  split
  · rename_i hneed
    rw [h.small_eq i hi hneed, zero_add]
  · rw [add_zero]

omit [DecidableEq ι] in
/-- All items take no less than those that count, and little more. -/
theorem Filled.sum_bounds (h : Filled need cap tol small key l x) (hneed : ∀ i ∈ l, 0 ≤ need i)
    (htol : 0 ≤ tol) (hsmall : 0 ≤ small ∧ small ≤ 1) :
    counted need tol l x ≤ (l.map fun i => need i * x i).sum ∧
      (l.map fun i => need i * x i).sum ≤ cap + tol + l.length * tol := by
  have hterm : ∀ i ∈ l, 0 ≤ (if need i ≤ tol then need i * small else 0) ∧
      (if need i ≤ tol then need i * small else 0) ≤ tol := by
    intro i hi
    split
    · rename_i hle
      exact ⟨mul_nonneg (hneed i hi) hsmall.1,
        (mul_le_of_le_one_right (hneed i hi) hsmall.2).trans hle⟩
    · exact ⟨le_rfl, htol⟩
  have hnonneg : 0 ≤ (l.map fun i => if need i ≤ tol then need i * small else 0).sum := by
    refine List.sum_nonneg fun y hy => ?_
    obtain ⟨i, hi, rfl⟩ := List.mem_map.mp hy
    exact (hterm i hi).1
  have hle : (l.map fun i => if need i ≤ tol then need i * small else 0).sum ≤ l.length * tol := by
    have hlength : (l.map fun i => if need i ≤ tol then need i * small else 0).length = l.length :=
      List.length_map _
    rw [← nsmul_eq_mul, ← hlength]
    refine List.sum_le_card_nsmul _ _ fun y hy => ?_
    obtain ⟨i, hi, rfl⟩ := List.mem_map.mp hy
    exact (hterm i hi).2
  rw [h.sum_eq]
  constructor
  · linarith
  · linarith [h.counted_le]

end GreedyFill
