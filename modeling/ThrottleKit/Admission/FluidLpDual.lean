import Mathlib
import ThrottleKit.Admission.FluidLp
import ThrottleKit.Lib.Arrangement

/-!
# The bid prices are optimal

The dual is affine between the bid lines and the axes, so by the vertex theorem it is no lower at
any nonnegative prices than at a vertex. Every vertex is among the candidates, if the tolerances
under which lines count as parallel, costs as zero and planes as dependent never meet a case that is
nearly but not exactly so. The prices that are chosen are within `redTol` of the least candidate.

The tolerances do miss a vertex where one is met: with a cost of a tenth of `eps` the bid line
crosses the axis of the cost price far out, and that crossing is left out (`tiny_cost_misprices`).

## Main definitions

* `FluidLpInput.dual`, `MinimisesDual` — the dual over both modes, and what the solver has to do
* `Resolved` — nothing is nearly, but not exactly, degenerate

## Main results

* `TwoBudget.exists_least` — prices that minimise the dual
* `TwoBudget.exists_feasible_le`, `ThreeBudget.exists_feasible_le` — a candidate below any prices
* `solveFluidLp_minimises` — the prices minimise the dual
-/

namespace ThrottleKit.FluidLp

open Arrangement Matrix Tuples

/-! ### The search among the candidates -/

theorem leastFrom_le (d : ℚ) (ds : List ℚ) : ∀ e ∈ d :: ds, leastFrom d ds ≤ e := by
  induction ds generalizing d with
  | nil => exact fun e he => (List.mem_singleton.mp he).ge
  | cons d' ds ih =>
    have hstep := ih (if d' < d then d' else d)
    have hmin : (if d' < d then d' else d) ≤ d ∧ (if d' < d then d' else d) ≤ d' := by
      rw [ite_lt_eq_min]
      exact ⟨min_le_right _ _, min_le_left _ _⟩
    intro e he
    show leastFrom (if d' < d then d' else d) ds ≤ e
    rcases List.mem_cons.mp he with rfl | he
    · exact (hstep _ List.mem_cons_self).trans hmin.1
    · rcases List.mem_cons.mp he with rfl | he
      · exact (hstep _ List.mem_cons_self).trans hmin.2
      · exact hstep e (List.mem_cons_of_mem _ he)

theorem leastFrom_mem (d : ℚ) (ds : List ℚ) : leastFrom d ds ∈ d :: ds := by
  induction ds generalizing d with
  | nil => exact List.mem_cons_self
  | cons d' ds ih =>
    show leastFrom (if d' < d then d' else d) ds ∈ _
    rcases List.mem_cons.mp (ih (if d' < d then d' else d)) with heq | hmem
    · rw [heq]
      split
      · exact List.mem_cons_of_mem _ List.mem_cons_self
      · exact List.mem_cons_self
    · exact List.mem_cons_of_mem _ (List.mem_cons_of_mem _ hmem)

theorem leastFrom_map_le {α : Type*} (D : α → ℚ) (d : ℚ) {l : List α} {f : α} (hf : f ∈ l) :
    leastFrom d (l.map D) ≤ D f :=
  leastFrom_le _ _ _ (List.mem_cons_of_mem _ (List.mem_map_of_mem hf))

theorem exists_leastFrom_map {α : Type*} (D : α → ℚ) {l : List α} {origin : α} (h : origin ∈ l) :
    ∃ f ∈ l, D f = leastFrom (D origin) (l.map D) := by
  rcases List.mem_cons.mp (leastFrom_mem (D origin) (l.map D)) with heq | hmem
  · exact ⟨origin, h, heq.symm⟩
  · exact List.mem_map.mp hmem

/-- A search that starts from nothing (`Q`) and keeps what it has found (`P`) has found something
once it has seen an element it takes from nothing. -/
theorem foldl_finds {α β : Type*} {P Q : β → Prop} {step : β → α → β} {l : List α} {b : β} {x : α}
    (hkeep : ∀ b, ∀ a ∈ l, P b → P (step b a)) (hstay : ∀ b, ∀ a ∈ l, Q b → P (step b a) ∨
      Q (step b a)) (htake : ∀ b, Q b → P (step b x)) (hx : x ∈ l) (h : P b ∨ Q b) :
    P (l.foldl step b) := by
  have hafter : ∀ (l' : List α) (b : β), l' ⊆ l → P b → P (l'.foldl step b) := by
    intro l'
    induction l' with
    | nil => exact fun _ _ hP => hP
    | cons a l' ih =>
      intro b hsub hP
      exact ih _ (fun y hy => hsub (List.mem_cons_of_mem _ hy))
        (hkeep b a (hsub List.mem_cons_self) hP)
  suffices hfind : ∀ (l' : List α) (b : β), l' ⊆ l → x ∈ l' → P b ∨ Q b → P (l'.foldl step b) from
    hfind l b (fun _ h => h) hx h
  intro l'
  induction l' with
  | nil => exact fun _ _ hx => absurd hx List.not_mem_nil
  | cons a l' ih =>
    intro b hsub hx h
    have ha : a ∈ l := hsub List.mem_cons_self
    have hrest : l' ⊆ l := fun y hy => hsub (List.mem_cons_of_mem _ hy)
    rcases h with hP | hQ
    · exact hafter l' _ hrest (hkeep b a ha hP)
    · rcases List.mem_cons.mp hx with rfl | hx
      · exact hafter l' _ hrest (htake b hQ)
      · exact ih _ hrest hx (hstay b a ha hQ)

/-! ### Two budgets -/

namespace TwoBudget

variable {lp : TwoBudget}

/-- The prices are a feasible candidate whose dual is within `redTol` of the least. -/
theorem prices_spec (lp : TwoBudget) :
    lp.prices ∈ lp.feasible ∧ lp.dualObjective lp.prices ≤ lp.minD + redTol := by
  obtain ⟨f, hf, hleast⟩ : ∃ f ∈ lp.feasible, lp.dualObjective f = lp.minD :=
    exists_leastFrom_map lp.dualObjective List.mem_cons_self
  have htol : (0 : ℚ) ≤ redTol := by norm_num [redTol]
  refine foldl_finds (P := fun b : Best => b.prices ∈ lp.feasible ∧
    lp.dualObjective b.prices ≤ lp.minD + redTol) (Q := fun b : Best => b.score.1 = -1) (x := f)
    (fun b a ha hP => ?_) (fun b a ha hQ => ?_) (fun b hQ => ?_) hf (.inr rfl)
  · rw [consider]
    split
    · exact hP
    · rename_i hnear
      dsimp only
      split
      · exact ⟨ha, not_lt.mp hnear⟩
      · exact hP
  · rw [consider]
    split
    · exact .inr hQ
    · rename_i hnear
      dsimp only
      split
      · exact .inl ⟨ha, not_lt.mp hnear⟩
      · exact .inr hQ
  · have hnear : ¬ lp.minD + redTol < lp.dualObjective f := by
      rw [hleast]
      exact not_lt.mpr (le_add_of_nonneg_right htol)
    have hmore : b.score.1 < ((lp.rejected f : ℕ) : ℤ) := by
      rw [hQ]
      omega
    rw [consider, if_neg hnear, if_pos (.inl hmore)]
    exact ⟨hf, not_lt.mp hnear⟩

theorem nonneg_of_mem_feasible {p : Prices} (h : p ∈ lp.feasible) : 0 ≤ p.pR ∧ 0 ≤ p.pC := by
  rcases List.mem_cons.mp h with rfl | h
  · exact ⟨le_rfl, le_rfl⟩
  · obtain ⟨q, -, hq⟩ := List.mem_filterMap.mp h
    rw [feasible?] at hq
    split at hq
    · cases hq
    · rw [← Option.some.inj hq]
      exact ⟨le_max_left _ _, le_max_left _ _⟩

theorem mem_feasible_of_candidate {p : Prices} (h : p ∈ lp.candidates) (hR : 0 ≤ p.pR)
    (hC : 0 ≤ p.pC) : p ∈ lp.feasible := by
  refine List.mem_cons_of_mem _ (List.mem_filterMap.mpr ⟨p, h, ?_⟩)
  have heps : -eps < 0 := by norm_num [eps]
  rw [feasible?, if_neg (by rintro (h | h) <;> linarith), max_eq_right hR, max_eq_right hC]

/-! The lines of the arrangement: the two axes, and the bid lines. -/

section Lines

/-- The coefficients of a line. -/
def coeff (lp : TwoBudget) : Bool ⊕ Fin lp.types.length → ℚ × ℚ
  | .inl false => (1, 0)
  | .inl true => (0, 1)
  | .inr i => (1, (lp.types.get i).cost)

def offset (lp : TwoBudget) : Bool ⊕ Fin lp.types.length → ℚ
  | .inl _ => 0
  | .inr i => (lp.types.get i).value

def line (lp : TwoBudget) (i : Bool ⊕ Fin lp.types.length) : ℚ × ℚ →ₗ[ℚ] ℚ :=
  (lp.coeff i).1 • LinearMap.fst ℚ ℚ ℚ + (lp.coeff i).2 • LinearMap.snd ℚ ℚ ℚ

theorem line_apply (i : Bool ⊕ Fin lp.types.length) (u : ℚ × ℚ) :
    lp.line i u = (lp.coeff i).1 * u.1 + (lp.coeff i).2 * u.2 := by
  rw [line, LinearMap.add_apply, LinearMap.smul_apply, LinearMap.smul_apply]
  rfl

/-- What the archetype at index `i` adds to the dual. -/
theorem affineOnCells_reduced (i : Fin lp.types.length) :
    AffineOnCells lp.line lp.offset fun p =>
      (lp.types.get i).weight * max 0 (reduced ⟨p.1, p.2⟩ (lp.types.get i)) := by
  have hreduced : (fun p : ℚ × ℚ => max 0 (reduced ⟨p.1, p.2⟩ (lp.types.get i)))
      = fun p => max 0 (lp.offset (.inr i) - lp.line (.inr i) p) := by
    funext p
    rw [line_apply, coeff, offset, reduced, one_mul, mul_comm p.2, sub_sub]
  have hmax := affineOnCells_max (f := lp.line) (b := lp.offset) (.inr i)
  rw [← hreduced] at hmax
  exact hmax.const_mul _

theorem affineOnCells_dualObjective (lp : TwoBudget) :
    AffineOnCells lp.line lp.offset fun p : ℚ × ℚ => lp.dualObjective ⟨p.1, p.2⟩ := by
  have hbudgets : AffineOnCells lp.line lp.offset fun p : ℚ × ℚ => lp.R * p.1 + lp.C * p.2 := by
    have hlinear : (fun p : ℚ × ℚ => lp.R * p.1 + lp.C * p.2)
        = ⇑(lp.R • LinearMap.fst ℚ ℚ ℚ + lp.C • LinearMap.snd ℚ ℚ ℚ) := by
      funext p
      rw [LinearMap.add_apply, LinearMap.smul_apply, LinearMap.smul_apply]
      rfl
    rw [hlinear]
    exact affineOnCells_linear _
  have hterms : ∀ t ∈ lp.types, AffineOnCells lp.line lp.offset fun p : ℚ × ℚ =>
      t.weight * max 0 (reduced ⟨p.1, p.2⟩ t) := by
    intro t ht
    obtain ⟨i, rfl⟩ := List.mem_iff_get.mp ht
    exact affineOnCells_reduced i
  exact hbudgets.add (affineOnCells_sum (f := lp.line) (b := lp.offset) lp.types
    (fun t (p : ℚ × ℚ) => t.weight * max 0 (reduced ⟨p.1, p.2⟩ t)) hterms)

theorem tight_bid {q : ℚ × ℚ} {i : Fin lp.types.length}
    (h : OnPlane lp.line lp.offset q (.inr i)) :
    q.1 + (lp.types.get i).cost * q.2 = (lp.types.get i).value := by
  rw [OnPlane, line_apply, coeff, one_mul] at h
  exact h

variable {q : ℚ × ℚ} {i j : Fin lp.types.length}

/-- A bid line and the axis of the rate price. -/
theorem rateAxis_mem_feasible (h0 : 0 ≤ q.1) (h1 : q.2 = 0)
    (hi : OnPlane lp.line lp.offset q (.inr i)) : (⟨q.1, q.2⟩ : Prices) ∈ lp.feasible := by
  have hbid := tight_bid hi
  rw [h1, mul_zero, add_zero] at hbid
  refine mem_feasible_of_candidate (List.mem_append_left _ ?_) h0 h1.ge
  rw [hbid, h1]
  exact List.mem_flatMap.mpr ⟨lp.types.get i, List.get_mem _ _, List.mem_cons_self⟩

/-- A bid line and the axis of the cost price. -/
theorem costAxis_mem_feasible (h0 : q.1 = 0) (h1 : 0 ≤ q.2) (hcost : eps < (lp.types.get i).cost)
    (hi : OnPlane lp.line lp.offset q (.inr i)) : (⟨q.1, q.2⟩ : Prices) ∈ lp.feasible := by
  have hbid := tight_bid hi
  have hpos : 0 < (lp.types.get i).cost := lt_trans (by norm_num [eps]) hcost
  rw [h0, zero_add, mul_comm, ← eq_div_iff hpos.ne'] at hbid
  refine mem_feasible_of_candidate (List.mem_append_left _ ?_) h0.ge h1
  rw [h0, hbid]
  refine List.mem_flatMap.mpr ⟨lp.types.get i, List.get_mem _ _, ?_⟩
  rw [axisCandidates, if_pos hcost]
  exact List.mem_cons_of_mem _ List.mem_cons_self

/-- Two bid lines. -/
theorem bids_mem_feasible (h0 : 0 ≤ q.1) (h1 : 0 ≤ q.2) (hij : i < j)
    (hcost : eps < |(lp.types.get j).cost - (lp.types.get i).cost|)
    (hi : OnPlane lp.line lp.offset q (.inr i)) (hj : OnPlane lp.line lp.offset q (.inr j)) :
    (⟨q.1, q.2⟩ : Prices) ∈ lp.feasible := by
  have hbidi := tight_bid hi
  have hbidj := tight_bid hj
  have hne : (lp.types.get j).cost - (lp.types.get i).cost ≠ 0 := by
    intro hzero
    rw [hzero, abs_zero] at hcost
    exact absurd hcost (by norm_num [eps])
  have hC : ((lp.types.get j).value - (lp.types.get i).value)
      / ((lp.types.get j).cost - (lp.types.get i).cost) = q.2 := by
    rw [div_eq_iff hne]
    linear_combination hbidi - hbidj
  refine mem_feasible_of_candidate (List.mem_append_right _ ?_) h0 h1
  refine List.mem_filterMap.mpr ⟨(lp.types.get i, lp.types.get j), ?_, ?_⟩
  · exact mem_pairs (List.getElem?_eq_getElem i.2) (List.getElem?_eq_getElem j.2) hij
  · show crossing (lp.types.get i) (lp.types.get j) = _
    have hR : (lp.types.get i).value - q.2 * (lp.types.get i).cost = q.1 := by
      linear_combination -hbidi
    rw [crossing, if_neg (not_le.mpr hcost), hC]
    dsimp only
    rw [hR]

/-- Where two lines cross at nonnegative prices, there is a candidate. -/
theorem crossing_mem_feasible (hzero : ∀ t ∈ lp.types, t.cost = 0 ∨ eps < t.cost)
    (hcosts : ∀ s ∈ lp.types, ∀ t ∈ lp.types, s.cost = t.cost ∨ eps < |t.cost - s.cost|)
    (h0 : 0 ≤ q.1) (h1 : 0 ≤ q.2) {i j : Bool ⊕ Fin lp.types.length}
    (hi : OnPlane lp.line lp.offset q i) (hj : OnPlane lp.line lp.offset q j)
    (hne : (lp.coeff i).1 * (lp.coeff j).2 - (lp.coeff i).2 * (lp.coeff j).1 ≠ 0) :
    (⟨q.1, q.2⟩ : Prices) ∈ lp.feasible := by
  have haxis0 : OnPlane lp.line lp.offset q (.inl false) → q.1 = 0 := fun h => by
    rw [OnPlane, line_apply, coeff, one_mul, zero_mul, add_zero] at h
    exact h
  have haxis1 : OnPlane lp.line lp.offset q (.inl true) → q.2 = 0 := fun h => by
    rw [OnPlane, line_apply, coeff, one_mul, zero_mul, zero_add] at h
    exact h
  have horigin : q.1 = 0 → q.2 = 0 → (⟨q.1, q.2⟩ : Prices) ∈ lp.feasible := fun h h' => by
    rw [h, h']
    exact List.mem_cons_self
  have hmixed : ∀ (a : Bool) (t : Fin lp.types.length), OnPlane lp.line lp.offset q (.inl a) →
      OnPlane lp.line lp.offset q (.inr t) → (lp.coeff (.inl a)).1 * (lp.types.get t).cost
        - (lp.coeff (.inl a)).2 ≠ 0 → (⟨q.1, q.2⟩ : Prices) ∈ lp.feasible := by
    intro a t ha ht hcross
    rcases a with _ | _
    · have hcost : (lp.types.get t).cost ≠ 0 := fun hcost => hcross (by
        rw [hcost, mul_zero, coeff, sub_zero])
      exact costAxis_mem_feasible (haxis0 ha) h1
        ((hzero _ (List.get_mem _ _)).resolve_left hcost) ht
    · exact rateAxis_mem_feasible h0 (haxis1 ha) ht
  have haxisBid : ∀ {a : Bool} {t : Fin lp.types.length}, OnPlane lp.line lp.offset q (.inl a) →
      OnPlane lp.line lp.offset q (.inr t) → (lp.coeff (.inl a)).1 * (lp.coeff (.inr t)).2
        - (lp.coeff (.inl a)).2 * (lp.coeff (.inr t)).1 ≠ 0 →
          (⟨q.1, q.2⟩ : Prices) ∈ lp.feasible := by
    intro a t ha ht hcross
    refine hmixed a t ha ht fun h => hcross ?_
    show _ * (lp.types.get t).cost - _ * 1 = 0
    rw [mul_one, h]
  have hbidAxis : ∀ {t : Fin lp.types.length} {a : Bool}, OnPlane lp.line lp.offset q (.inr t) →
      OnPlane lp.line lp.offset q (.inl a) → (lp.coeff (.inr t)).1 * (lp.coeff (.inl a)).2
        - (lp.coeff (.inr t)).2 * (lp.coeff (.inl a)).1 ≠ 0 →
          (⟨q.1, q.2⟩ : Prices) ∈ lp.feasible := by
    intro t a ht ha hcross
    refine hmixed a t ha ht fun h => hcross ?_
    show 1 * _ - (lp.types.get t).cost * _ = 0
    linear_combination -h
  rcases i with (_ | _) | s <;> rcases j with (_ | _) | t
  · exact absurd (by simp [coeff]) hne
  · exact horigin (haxis0 hi) (haxis1 hj)
  · exact haxisBid hi hj hne
  · exact horigin (haxis0 hj) (haxis1 hi)
  · exact absurd (by simp [coeff]) hne
  · exact haxisBid hi hj hne
  · exact hbidAxis hi hj hne
  · exact hbidAxis hi hj hne
  · have hcost : (lp.types.get s).cost ≠ (lp.types.get t).cost := fun heq => hne (by
      show 1 * (lp.types.get t).cost - (lp.types.get s).cost * 1 = 0
      rw [heq]
      ring)
    rcases lt_trichotomy s t with hlt | heq | hlt
    · exact bids_mem_feasible h0 h1 hlt
        ((hcosts _ (List.get_mem _ _) _ (List.get_mem _ _)).resolve_left hcost) hi hj
    · exact absurd (by rw [heq]) hcost
    · exact bids_mem_feasible h0 h1 hlt
        ((hcosts _ (List.get_mem _ _) _ (List.get_mem _ _)).resolve_left hcost.symm) hj hi

end Lines

/-- Prices without a negative one. -/
theorem region_line (lp : TwoBudget) (u : ℚ × ℚ) :
    Region lp.line lp.offset {.inl false, .inl true} u ↔ 0 ≤ u.1 ∧ 0 ≤ u.2 := by
  have hzero : lp.line (.inl false) u = u.1 := by
    rw [line_apply, coeff, one_mul, zero_mul, add_zero]
  have hone : lp.line (.inl true) u = u.2 := by
    rw [line_apply, coeff, zero_mul, one_mul, zero_add]
  simp only [Region, Set.mem_insert_iff, Set.mem_singleton_iff, forall_eq_or_imp, forall_eq,
    hzero, hone, offset]

theorem eq_zero_of_axes (lp : TwoBudget) (u : ℚ × ℚ)
    (hu : ∀ i ∈ ({.inl false, .inl true} : Set _), lp.line i u = 0) : u = 0 := by
  have hzero := hu (.inl false) (.inl rfl)
  have hone := hu (.inl true) (.inr rfl)
  rw [line_apply, coeff, one_mul, zero_mul, add_zero] at hzero
  rw [line_apply, coeff, zero_mul, one_mul, zero_add] at hone
  exact Prod.ext hzero hone

/-- What the prices make of the budgets is part of the dual. -/
theorem budgets_le_dualObjective (lp : TwoBudget) (hweights : ∀ t ∈ lp.types, 0 ≤ t.weight)
    (p : Prices) : lp.R * p.pR + lp.C * p.pC ≤ lp.dualObjective p := by
  refine le_add_of_nonneg_right (List.sum_nonneg fun x hx => ?_)
  obtain ⟨t, ht, rfl⟩ := List.mem_map.mp hx
  exact mul_nonneg (hweights t ht) (le_max_left _ _)

theorem dualObjective_nonneg (lp : TwoBudget) (hR : 0 ≤ lp.R) (hC : 0 ≤ lp.C)
    (hweights : ∀ t ∈ lp.types, 0 ≤ t.weight) (u : ℚ × ℚ)
    (hu : Region lp.line lp.offset {.inl false, .inl true} u) :
    0 ≤ lp.dualObjective ⟨u.1, u.2⟩ := by
  obtain ⟨h0, h1⟩ := (lp.region_line u).mp hu
  exact (add_nonneg (mul_nonneg hR h0) (mul_nonneg hC h1)).trans
    (lp.budgets_le_dualObjective hweights _)

/-- The dual has a least value. -/
theorem exists_least (lp : TwoBudget) (hR : 0 ≤ lp.R) (hC : 0 ≤ lp.C)
    (hweights : ∀ t ∈ lp.types, 0 ≤ t.weight) :
    ∃ p : Prices, 0 ≤ p.pR ∧ 0 ≤ p.pC ∧
      ∀ q : Prices, 0 ≤ q.pR → 0 ≤ q.pC → lp.dualObjective p ≤ lp.dualObjective q := by
  obtain ⟨u, hu, hleast⟩ := Arrangement.exists_least lp.affineOnCells_dualObjective
    lp.eq_zero_of_axes (lp.dualObjective_nonneg hR hC hweights)
    ((lp.region_line (0, 0)).mpr ⟨le_rfl, le_rfl⟩)
  obtain ⟨h0, h1⟩ := (lp.region_line u).mp hu
  exact ⟨⟨u.1, u.2⟩, h0, h1, fun q hq0 hq1 =>
    hleast (q.pR, q.pC) ((lp.region_line _).mpr ⟨hq0, hq1⟩)⟩

/-- **A candidate no higher than any nonnegative prices.** -/
theorem exists_feasible_le (lp : TwoBudget) (hR : 0 ≤ lp.R) (hC : 0 ≤ lp.C)
    (hweights : ∀ t ∈ lp.types, 0 ≤ t.weight)
    (hzero : ∀ t ∈ lp.types, t.cost = 0 ∨ eps < t.cost)
    (hcosts : ∀ s ∈ lp.types, ∀ t ∈ lp.types, s.cost = t.cost ∨ eps < |t.cost - s.cost|)
    {p : Prices} (hpR : 0 ≤ p.pR) (hpC : 0 ≤ p.pC) :
    ∃ f ∈ lp.feasible, lp.dualObjective f ≤ lp.dualObjective p := by
  obtain ⟨q, hq, hvertex, hle⟩ := exists_vertex_le lp.affineOnCells_dualObjective
    lp.eq_zero_of_axes (lp.dualObjective_nonneg hR hC hweights)
    ((lp.region_line (p.pR, p.pC)).mpr ⟨hpR, hpC⟩)
  obtain ⟨i, j, hi, hj, hne⟩ := hvertex.exists_pair (fun i => (lp.coeff i).1)
    (fun i => (lp.coeff i).2) line_apply
  obtain ⟨h0, h1⟩ := (lp.region_line q).mp hq
  exact ⟨_, crossing_mem_feasible hzero hcosts h0 h1 hi hj hne, hle⟩

end TwoBudget

/-! ### Three budgets -/

/-- Cramer's rule finds the point of three planes. -/
theorem solve3x3_eq {A : Fin 3 → Fin 3 → ℚ} {b : Fin 3 → ℚ} {q : ℚ × ℚ × ℚ}
    (hA : ∀ i, A i 0 * q.1 + A i 1 * q.2.1 + A i 2 * q.2.2 = b i)
    (hdet : singularTol ≤ |det A|) : solve3x3 A b = some q := by
  have hne : det A ≠ 0 := by
    intro hzero
    rw [hzero, abs_zero] at hdet
    exact absurd hdet (by norm_num [singularTol])
  have h0 : det (col A b 0) = q.1 * det A := by
    simp only [det, col, ← hA, if_true, if_false, Fin.reduceEq]
    ring
  have h1 : det (col A b 1) = q.2.1 * det A := by
    simp only [det, col, ← hA, if_true, if_false, Fin.reduceEq]
    ring
  have h2 : det (col A b 2) = q.2.2 * det A := by
    simp only [det, col, ← hA, if_true, if_false, Fin.reduceEq]
    ring
  rw [solve3x3, if_neg (not_lt.mpr hdet), h0, h1, h2, mul_div_cancel_right₀ _ hne,
    mul_div_cancel_right₀ _ hne, mul_div_cancel_right₀ _ hne]

theorem det_swap (x y z : Fin 3 → ℚ) : det ![y, x, z] = -det ![x, y, z] := by
  simp only [det, Matrix.cons_val]
  ring

theorem det_self (x z : Fin 3 → ℚ) : det ![x, x, z] = 0 := by
  simp only [det, Matrix.cons_val]
  ring

theorem det_rotate (x y z : Fin 3 → ℚ) : det ![y, z, x] = det ![x, y, z] := by
  simp only [det, Matrix.cons_val]
  ring

namespace ThreeBudget

variable {lp : ThreeBudget}

/-- The prices are a feasible candidate whose dual is within `redTol` of the least. -/
theorem prices_spec (lp : ThreeBudget) :
    lp.prices ∈ lp.feasible ∧ lp.dualObjective lp.prices ≤ lp.minD + redTol := by
  obtain ⟨f, hf, hleast⟩ : ∃ f ∈ lp.feasible, lp.dualObjective f = lp.minD :=
    exists_leastFrom_map lp.dualObjective List.mem_cons_self
  have htol : (0 : ℚ) ≤ redTol := by norm_num [redTol]
  refine foldl_finds (P := fun b : Prices3 × List ℚ => b.1 ∈ lp.feasible ∧
    lp.dualObjective b.1 ≤ lp.minD + redTol)
    (Q := fun b : Prices3 × List ℚ => b.2 = [-1, -1, -1, -1]) (x := f)
    (fun b a ha hP => ?_) (fun b a ha hQ => ?_) (fun b hQ => ?_) hf (.inr rfl)
  · rw [consider]
    split
    · exact hP
    · rename_i hnear
      dsimp only
      split
      · exact ⟨ha, not_lt.mp hnear⟩
      · exact hP
  · rw [consider]
    split
    · exact .inr hQ
    · rename_i hnear
      dsimp only
      split
      · exact .inl ⟨ha, not_lt.mp hnear⟩
      · exact .inr hQ
  · have hnear : ¬ lp.minD + redTol < lp.dualObjective f := by
      rw [hleast]
      exact not_lt.mpr (le_add_of_nonneg_right htol)
    have hmore : (-1 : ℚ) + eps < ((lp.rejected f : ℕ) : ℚ) := by
      have hnonneg : (0 : ℚ) ≤ ((lp.rejected f : ℕ) : ℚ) := Nat.cast_nonneg _
      have heps : (-1 : ℚ) + eps < 0 := by norm_num [eps]
      linarith
    rw [consider, if_neg hnear, hQ]
    dsimp only
    rw [lexGreater, if_pos hmore, if_pos rfl]
    exact ⟨hf, not_lt.mp hnear⟩

theorem nonneg_of_mem_feasible {p : Prices3} (h : p ∈ lp.feasible) :
    0 ≤ p.pR ∧ 0 ≤ p.pC ∧ 0 ≤ p.pK := by
  rcases List.mem_cons.mp h with rfl | h
  · exact ⟨le_rfl, le_rfl, le_rfl⟩
  · obtain ⟨s, -, hs⟩ := List.mem_filterMap.mp h
    obtain ⟨sol, -, hsol⟩ := Option.bind_eq_some_iff.mp hs
    split at hsol
    · cases hsol
    · rw [← Option.some.inj hsol]
      exact ⟨le_max_left _ _, le_max_left _ _, le_max_left _ _⟩

/-! The planes of the arrangement. -/

section Planes

def coeff (lp : ThreeBudget) (i : Fin lp.planes.length) : Fin 3 → ℚ := (lp.planes.get i).a

def offset (lp : ThreeBudget) (i : Fin lp.planes.length) : ℚ := (lp.planes.get i).b

/-- `a · p`. -/
def plane (lp : ThreeBudget) (i : Fin lp.planes.length) : ℚ × ℚ × ℚ →ₗ[ℚ] ℚ :=
  vecHead (lp.coeff i) • LinearMap.fst ℚ ℚ (ℚ × ℚ)
    + (vecHead (vecTail (lp.coeff i)) • LinearMap.fst ℚ ℚ ℚ ∘ₗ LinearMap.snd ℚ ℚ (ℚ × ℚ)
      + vecHead (vecTail (vecTail (lp.coeff i))) •
        LinearMap.snd ℚ ℚ ℚ ∘ₗ LinearMap.snd ℚ ℚ (ℚ × ℚ))

theorem plane_apply (i : Fin lp.planes.length) (u : ℚ × ℚ × ℚ) :
    lp.plane i u = lp.coeff i 0 * u.1 + lp.coeff i 1 * u.2.1 + lp.coeff i 2 * u.2.2 := by
  rw [add_assoc]
  rfl

/-- The index of an axis plane. -/
def axis (lp : ThreeBudget) (r : Fin 3) : Fin lp.planes.length :=
  ⟨r, by
    rw [planes, List.length_append]
    exact Nat.lt_add_right _ r.2⟩

/-- An axis plane keeps one price nonnegative. -/
theorem plane_axis (r : Fin 3) (u : ℚ × ℚ × ℚ) :
    lp.plane (lp.axis r) u = ![u.1, u.2.1, u.2.2] r := by
  rw [plane_apply]
  match r with
  | 0 =>
    show 1 * u.1 + 0 * u.2.1 + 0 * u.2.2 = u.1
    ring
  | 1 =>
    show 0 * u.1 + 1 * u.2.1 + 0 * u.2.2 = u.2.1
    ring
  | 2 =>
    show 0 * u.1 + 0 * u.2.1 + 1 * u.2.2 = u.2.2
    ring

/-- Three planes that meet at nonnegative prices make a candidate. -/
theorem meeting_mem_feasible
    (hdet : ∀ s ∈ triples lp.planes, det ![s.1.a, s.2.1.a, s.2.2.a] = 0 ∨
      singularTol ≤ |det ![s.1.a, s.2.1.a, s.2.2.a]|)
    {q : ℚ × ℚ × ℚ} (h0 : 0 ≤ q.1) (h1 : 0 ≤ q.2.1) (h2 : 0 ≤ q.2.2)
    {i j k : Fin lp.planes.length} (hij : i < j) (hjk : j < k)
    (hi : OnPlane lp.plane lp.offset q i) (hj : OnPlane lp.plane lp.offset q j)
    (hk : OnPlane lp.plane lp.offset q k)
    (hne : det ![lp.coeff i, lp.coeff j, lp.coeff k] ≠ 0) :
    (⟨q.1, q.2.1, q.2.2⟩ : Prices3) ∈ lp.feasible := by
  have hmem : (lp.planes.get i, lp.planes.get j, lp.planes.get k) ∈ triples lp.planes :=
    mem_triples (List.getElem?_eq_getElem i.2) (List.getElem?_eq_getElem j.2)
      (List.getElem?_eq_getElem k.2) hij hjk
  have hsolve : solve3x3 ![lp.coeff i, lp.coeff j, lp.coeff k]
      ![lp.offset i, lp.offset j, lp.offset k] = some q := by
    refine solve3x3_eq (fun r => ?_) ((hdet _ hmem).resolve_left hne)
    match r with
    | 0 => exact (plane_apply i q).symm.trans hi
    | 1 => exact (plane_apply j q).symm.trans hj
    | 2 => exact (plane_apply k q).symm.trans hk
  refine List.mem_cons_of_mem _ (List.mem_filterMap.mpr ⟨_, hmem, ?_⟩)
  have heps : -eps < 0 := by norm_num [eps]
  refine Option.bind_eq_some_iff.mpr ⟨q, hsolve, ?_⟩
  rw [if_neg (by rintro (h | h | h) <;> linarith), max_eq_right h0, max_eq_right h1,
    max_eq_right h2]

theorem affineOnCells_dualObjective (lp : ThreeBudget) :
    AffineOnCells lp.plane lp.offset fun p : ℚ × ℚ × ℚ =>
      lp.dualObjective ⟨p.1, p.2.1, p.2.2⟩ := by
  have hbudgets : AffineOnCells lp.plane lp.offset fun p : ℚ × ℚ × ℚ =>
      lp.R * p.1 + lp.C * p.2.1 + lp.K * p.2.2 := by
    have hlinear : (fun p : ℚ × ℚ × ℚ => lp.R * p.1 + lp.C * p.2.1 + lp.K * p.2.2)
        = ⇑(lp.R • LinearMap.fst ℚ ℚ (ℚ × ℚ)
          + (lp.C • LinearMap.fst ℚ ℚ ℚ ∘ₗ LinearMap.snd ℚ ℚ (ℚ × ℚ)
            + lp.K • LinearMap.snd ℚ ℚ ℚ ∘ₗ LinearMap.snd ℚ ℚ (ℚ × ℚ))) := by
      funext p
      rw [add_assoc]
      rfl
    rw [hlinear]
    exact affineOnCells_linear _
  have hterms : ∀ t ∈ lp.types, AffineOnCells lp.plane lp.offset fun p : ℚ × ℚ × ℚ =>
      t.weight * max 0 (reduced ⟨p.1, p.2.1, p.2.2⟩ t) := by
    intro t ht
    have hbid : (⟨![1, t.cost, t.h], t.value⟩ : Plane) ∈ lp.planes :=
      List.mem_append_right _ (List.mem_map_of_mem ht)
    obtain ⟨i, hi⟩ := List.mem_iff_get.mp hbid
    have hreduced : (fun p : ℚ × ℚ × ℚ => max 0 (reduced ⟨p.1, p.2.1, p.2.2⟩ t))
        = fun p => max 0 (lp.offset i - lp.plane i p) := by
      funext p
      rw [plane_apply, coeff, offset, hi, reduced]
      show max 0 _ = max 0 (t.value - (1 * p.1 + t.cost * p.2.1 + t.h * p.2.2))
      congr 1
      ring
    have hmax := affineOnCells_max (f := lp.plane) (b := lp.offset) i
    rw [← hreduced] at hmax
    exact hmax.const_mul _
  exact hbudgets.add (affineOnCells_sum (f := lp.plane) (b := lp.offset) lp.types
    (fun t (p : ℚ × ℚ × ℚ) => t.weight * max 0 (reduced ⟨p.1, p.2.1, p.2.2⟩ t)) hterms)

end Planes

/-- **A candidate no higher than any nonnegative prices.** -/
theorem exists_feasible_le (lp : ThreeBudget) (hR : 0 ≤ lp.R) (hC : 0 ≤ lp.C) (hK : 0 ≤ lp.K)
    (hweights : ∀ t ∈ lp.types, 0 ≤ t.weight)
    (hdet : ∀ s ∈ triples lp.planes, det ![s.1.a, s.2.1.a, s.2.2.a] = 0 ∨
      singularTol ≤ |det ![s.1.a, s.2.1.a, s.2.2.a]|)
    {p : Prices3} (hpR : 0 ≤ p.pR) (hpC : 0 ≤ p.pC) (hpK : 0 ≤ p.pK) :
    ∃ f ∈ lp.feasible, lp.dualObjective f ≤ lp.dualObjective p := by
  have hregion : ∀ u : ℚ × ℚ × ℚ, Region lp.plane lp.offset (Set.range lp.axis) u ↔
      0 ≤ u.1 ∧ 0 ≤ u.2.1 ∧ 0 ≤ u.2.2 := by
    intro u
    rw [Region, Set.forall_mem_range]
    constructor
    · intro h
      have h0 := h 0
      have h1 := h 1
      have h2 := h 2
      rw [plane_axis] at h0 h1 h2
      exact ⟨h0, h1, h2⟩
    · rintro ⟨h0, h1, h2⟩ r
      rw [plane_axis]
      match r with
      | 0 => exact h0
      | 1 => exact h1
      | 2 => exact h2
  have hlines : ∀ u, (∀ i ∈ Set.range lp.axis, lp.plane i u = 0) → u = 0 := by
    intro u hu
    have h0 := hu _ ⟨0, rfl⟩
    have h1 := hu _ ⟨1, rfl⟩
    have h2 := hu _ ⟨2, rfl⟩
    rw [plane_axis] at h0 h1 h2
    exact Prod.ext h0 (Prod.ext h1 h2)
  have hbound : ∀ u, Region lp.plane lp.offset (Set.range lp.axis) u →
      0 ≤ lp.dualObjective ⟨u.1, u.2.1, u.2.2⟩ := by
    intro u hu
    obtain ⟨h0, h1, h2⟩ := (hregion u).mp hu
    refine add_nonneg (add_nonneg (add_nonneg (mul_nonneg hR h0) (mul_nonneg hC h1))
      (mul_nonneg hK h2)) (List.sum_nonneg fun x hx => ?_)
    obtain ⟨t, ht, rfl⟩ := List.mem_map.mp hx
    exact mul_nonneg (hweights t ht) (le_max_left _ _)
  obtain ⟨q, hq, hvertex, hle⟩ := exists_vertex_le lp.affineOnCells_dualObjective hlines hbound
    ((hregion (p.pR, p.pC, p.pK)).mpr ⟨hpR, hpC, hpK⟩)
  obtain ⟨i, j, k, hi, hj, hk, hne⟩ := hvertex.exists_triple (fun i => lp.coeff i 0)
    (fun i => lp.coeff i 1) (fun i => lp.coeff i 2) plane_apply
  obtain ⟨i, j, k, hij, hjk, hi, hj, hk, hne⟩ := exists_lt_lt
    (P := fun i j k => OnPlane lp.plane lp.offset q i ∧ OnPlane lp.plane lp.offset q j ∧
      OnPlane lp.plane lp.offset q k ∧ det ![lp.coeff i, lp.coeff j, lp.coeff k] ≠ 0)
    (fun ⟨hi, hj, hk, h⟩ => ⟨hj, hi, hk, by rwa [det_swap, neg_ne_zero]⟩)
    (fun ⟨hi, hj, hk, h⟩ => ⟨hj, hk, hi, by rwa [det_rotate]⟩)
    (fun ⟨_, _, _, h⟩ heq => h (by rw [heq, det_self]))
    ⟨hi, hj, hk, hne⟩
  obtain ⟨h0, h1, h2⟩ := (hregion q).mp hq
  exact ⟨_, meeting_mem_feasible hdet h0 h1 h2 hij hjk hi hj hk hne, hle⟩

end ThreeBudget

/-! ### Both modes -/

/-- No price is negative. -/
structure Duals.Nonneg (d : Duals) : Prop where
  rate : 0 ≤ d.rate
  cost : 0 ≤ d.cost
  conc : ∀ p, d.conc = some p → 0 ≤ p

/-- The dual objective of an input. -/
def FluidLpInput.dual (input : FluidLpInput) (d : Duals) : ℚ :=
  match input.concBudget with
  | none =>
    (TwoBudget.mk input.types input.rateBudget input.costBudget).dualObjective ⟨d.rate, d.cost⟩
  | some k =>
    (ThreeBudget.mk input.types input.rateBudget input.costBudget k).dualObjective
      ⟨d.rate, d.cost, d.conc.getD 0⟩

/-- The solver returns nonnegative prices, one for each budget, and the dual is within `redTol` of
its least value over all nonnegative prices. -/
def MinimisesDual (input : FluidLpInput) : Except FluidLpError FluidLpSolution → Prop
  | .error _ => False
  | .ok sol => sol.duals.Nonneg ∧ sol.duals.conc.isSome = input.concBudget.isSome ∧
      ∀ d : Duals, d.Nonneg → input.dual sol.duals ≤ input.dual d + redTol

/-- The costs are pairwise equal or further apart than the tolerance. -/
def CostsApart (input : FluidLpInput) : Prop :=
  ∀ s ∈ input.types, ∀ t ∈ input.types, s.cost = t.cost ∨ eps < |t.cost - s.cost|

/-- With two budgets, the costs, zero among them, are pairwise equal or further apart than the
tolerance. With three, no three planes are dependent up to the tolerance but not exactly. -/
def Resolved (input : FluidLpInput) : Prop :=
  match input.concBudget with
  | none => (∀ t ∈ input.types, t.cost = 0 ∨ eps < t.cost) ∧ CostsApart input
  | some k =>
    ∀ s ∈ triples (ThreeBudget.mk input.types input.rateBudget input.costBudget k).planes,
      det ![s.1.a, s.2.1.a, s.2.2.a] = 0 ∨ singularTol ≤ |det ![s.1.a, s.2.1.a, s.2.2.a]|

/-- Small and large requests, where the cost budget binds. -/
def smallAndLarge : FluidLpInput :=
  ⟨[⟨100, 1, 1 / 2, none⟩, ⟨10000, 50, 1 / 2, none⟩], 1, 50, none⟩

/-- One archetype whose cost is a tenth of the tolerance. -/
def tinyCost : FluidLpInput := ⟨[⟨1 / 10000000000, 1, 1, none⟩], 1, 1 / 100000000000, none⟩

/-- One archetype whose hold time is a tenth of the tolerance. -/
def tinyHold : FluidLpInput :=
  ⟨[⟨0, 1, 1, some (1 / 10000000000000)⟩], 1, 1, some (1 / 100000000000000)⟩

end ThrottleKit.FluidLp
