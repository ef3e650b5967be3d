import ThrottleKit.Admission.FluidLpDual
import ThrottleKit.Lib.GreedyFill

/-!
# The plan of the fluid program

The plan admits what is worth more than its bid and turns away what is worth less; the archetypes on
their bid lines fill the tight budgets. A fill in the order of costs uses a tight budget up and
keeps to the other, if any choice among those archetypes does. Where the prices minimise the dual
some choice does: no direction in which they can move makes the dual smaller, so what is forced in
and what is on the bid lines make up for what the budgets lose. The solver also takes prices that
are no minimiser, if their dual is within its tolerance of the least, and these may leave no choice.

With both budgets tight a split of two archetypes is looked for, and where none is found every
archetype on its bid line is admitted, whether it fits or not.

## Main definitions

* `Optimal` — prices that minimise the dual
* `used` — what a plan takes of a budget
* `PlanOk` — a plan that is feasible and worth the least of the dual, up to the tolerances
* `Splits` — some choice among the archetypes on their bid lines serves the tight budgets
* `AtRest` — the prices are steady in every direction in which they can move
* `Filling` — what the fill leaves

## Main results

* `Optimal.splits` — prices that minimise the dual leave a choice, unless both budgets are tight
* `solveFluidLp_plan_iff` — when the plan is feasible and worth the least of the dual
* `not_returnsPlan` — thirteen archetypes that do not fit
-/

namespace ThrottleKit.FluidLp

open ListEntries Tuples

/-! ### Sums over a part of a list -/

theorem sum_map_filter {α : Type*} (q : α → Bool) (g : α → ℚ) (l : List α) :
    ((l.filter q).map g).sum = (l.map fun a => if q a then g a else 0).sum := by
  induction l with
  | nil => rfl
  | cons a l ih =>
    rw [List.filter_cons, List.map_cons, List.sum_cons, ← ih]
    split
    · rw [List.map_cons, List.sum_cons]
    · rw [zero_add]

namespace TwoBudget

variable {lp : TwoBudget} {p : Prices}

/-- The archetype is on its bid line. -/
def onBid (p : Prices) (t : WorkloadType) : Bool := !forced p t && decide (-redTol ≤ reduced p t)

/-- What a plan takes of a budget, by what an archetype takes of it when it is wholly admitted. -/
def used (lp : TwoBudget) (f : WorkloadType → ℚ) (x : List ℚ) : ℚ :=
  (lp.types.zipIdx.map fun t => f t.1 * entry x t.2).sum

/-- The prices minimise the dual. -/
structure Optimal (lp : TwoBudget) (p : Prices) : Prop where
  rate : 0 ≤ p.pR
  cost : 0 ≤ p.pC
  le : ∀ q : Prices, 0 ≤ q.pR → 0 ≤ q.pC → lp.dualObjective p ≤ lp.dualObjective q

/-- No weight and no cost is below zero, and the budgets are above. -/
structure Proper (lp : TwoBudget) : Prop where
  weight : ∀ t ∈ lp.types, 0 ≤ t.weight
  cost : ∀ t ∈ lp.types, 0 ≤ t.cost
  rateBudget : 0 < lp.R
  costBudget : 0 < lp.C

/-- The plan admits what is worth more than its bid, turns away what is worth less, and admits
fractions of the rest. -/
structure Sorts (lp : TwoBudget) (p : Prices) (x : List ℚ) : Prop where
  length : x.length = lp.types.length
  admits : ∀ i t, lp.types[i]? = some t → forced p t = true → entry x i = 1
  refuses : ∀ i t, lp.types[i]? = some t → forced p t = false → onBid p t = false → entry x i = 0
  unit : ∀ i ∈ lp.marginal p, 0 ≤ entry x i ∧ entry x i ≤ 1

/-- How far a plan may overrun a budget: the tolerance of the fills, by the weights and costs they
fill with. -/
def slop (lp : TwoBudget) : ℚ :=
  eps * (2 * lp.types.length + 2)
    * (1 + (lp.types.map fun t => t.weight + t.weight * t.cost + t.cost + 1 / t.cost).sum)

/-- No prices that do nearly as well as none have a larger sum. -/
def priceBound (lp : TwoBudget) : ℚ :=
  (lp.dualObjective ⟨0, 0⟩ + redTol) * (1 / lp.R + 1 / lp.C)

/-- What the tolerance of the prices comes to. -/
def priceTol (lp : TwoBudget) : ℚ :=
  redTol * (lp.R + lp.C + (lp.types.map WorkloadType.weight).sum)

/-- How far what a plan is worth may be from the least of the dual. -/
def worthTol (lp : TwoBudget) : ℚ := 2 * (lp.priceBound * lp.slop) + 4 * lp.priceTol

/-- The solution is a plan of fractions that is within the budgets and worth the least of the dual,
up to the tolerances. -/
structure PlanOk (lp : TwoBudget) (sol : FluidLpSolution) : Prop where
  length : sol.admitFractions.length = lp.types.length
  unit : ∀ y ∈ sol.admitFractions, 0 ≤ y ∧ y ≤ 1
  rate : lp.used WorkloadType.weight sol.admitFractions ≤ lp.R + lp.slop
  cost : lp.used (fun t => t.weight * t.cost) sol.admitFractions ≤ lp.C + lp.slop
  worth : ∃ q, Optimal lp q ∧ |sol.objective - lp.dualObjective q| ≤ lp.worthTol

/-- With the archetypes of `mask` admitted wholly, the fractions of `a` and `b` that use both
budgets up are between zero and one. -/
def PairHits (lp : TwoBudget) (a b : ℕ) (others : List ℕ) (remR remC : ℚ) (mask : ℕ) : Prop :=
  let det := lp.w a * (lp.w b * lp.c b) - lp.w b * (lp.w a * lp.c a)
  let b1 := remR - ((chosen others mask).map lp.w).sum
  let b2 := remC - ((chosen others mask).map fun i => lp.w i * lp.c i).sum
  let xa := (b1 * (lp.w b * lp.c b) - lp.w b * b2) / det
  let xb := (lp.w a * b2 - b1 * (lp.w a * lp.c a)) / det;
  -eps ≤ xa ∧ xa ≤ 1 + eps ∧ -eps ≤ xb ∧ xb ≤ 1 + eps

/-- Two archetypes of different costs in part, and some of the others wholly, use both budgets up.
Past twelve archetypes, two archetypes alone. -/
def Hits (lp : TwoBudget) (M : List ℕ) (remR remC : ℚ) : Prop :=
  ∃ ab ∈ pairs M.zipIdx,
    eps < |lp.w ab.1.1 * (lp.w ab.2.1 * lp.c ab.2.1) - lp.w ab.2.1 * (lp.w ab.1.1 * lp.c ab.1.1)| ∧
    ∃ mask < if M.length ≤ 12 then
        2 ^ ((M.zipIdx.filter fun o => o.2 ≠ ab.1.2 && o.2 ≠ ab.2.2).map Prod.fst).length else 1,
      PairHits lp ab.1.1 ab.2.1
        ((M.zipIdx.filter fun o => o.2 ≠ ab.1.2 && o.2 ≠ ab.2.2).map Prod.fst) remR remC mask

/-- A plan by the prices that uses the tight budgets up and keeps to the others, up to `slack`. -/
structure Completes (lp : TwoBudget) (p : Prices) (slack : ℚ) (x : List ℚ) : Prop where
  sorts : Sorts lp p x
  rate : lp.used WorkloadType.weight x ≤ lp.R + slack
  cost : lp.used (fun t => t.weight * t.cost) x ≤ lp.C + slack
  rateTight : redTol < p.pR → lp.R - slack ≤ lp.used WorkloadType.weight x
  costTight : redTol < p.pC → lp.C - slack ≤ lp.used (fun t => t.weight * t.cost) x

/-- The archetype takes more than next to nothing of a tight budget. -/
def Counts (lp : TwoBudget) (p : Prices) (i : ℕ) : Prop :=
  redTol < p.pR ∧ eps < lp.w i ∨ redTol < p.pC ∧ eps < lp.w i * lp.c i

/-- A plan by the prices that admits all that counts on the bid lines, keeps to the budgets, up to
`slack`, and is worth the least of the dual, up to `tol`. -/
structure AllFits (lp : TwoBudget) (p : Prices) (slack tol : ℚ) (x : List ℚ) : Prop where
  sorts : Sorts lp p x
  all : ∀ i ∈ lp.marginal p, lp.Counts p i → entry x i = 1
  rate : lp.used WorkloadType.weight x ≤ lp.R + slack
  cost : lp.used (fun t => t.weight * t.cost) x ≤ lp.C + slack
  worth : ∃ q, Optimal lp q ∧ lp.dualObjective q ≤ lp.objective x + tol

/-- Some choice among the archetypes on their bid lines serves the tight budgets: all of them, or,
where both budgets are tight, a split that the search tries, or else any that uses the tight budget
up. -/
def Splits (lp : TwoBudget) (p : Prices) (slack tol : ℚ) : Prop :=
  (∃ x, AllFits lp p slack tol x) ∨
    if redTol < p.pR ∧ redTol < p.pC then
      lp.forcedRate p ≤ lp.R + slack ∧ lp.forcedCost p ≤ lp.C + slack ∧
        lp.Hits (lp.marginal p) (max 0 (lp.R - lp.forcedRate p)) (max 0 (lp.C - lp.forcedCost p))
    else ∃ x, Completes lp p slack x

/-- What is forced in and what is on the bid lines make up for what the budgets lose when the prices
move in the direction `(a, b)`. -/
def Steady (lp : TwoBudget) (p : Prices) (a b : ℚ) : Prop :=
  a * lp.forcedRate p + b * lp.forcedCost p ≤ a * lp.R + b * lp.C
    + ((lp.marginal p).map fun i => lp.w i * max 0 (-(a + b * lp.c i))).sum

/-- The prices are steady in every direction in which they can move. -/
def AtRest (lp : TwoBudget) (p : Prices) : Prop :=
  ∀ a b, redTol < p.pR ∨ 0 ≤ a → redTol < p.pC ∨ 0 ≤ b → lp.Steady p a b

/-! ### The archetypes on their bid lines -/

theorem mem_marginal {i : ℕ} :
    i ∈ lp.marginal p ↔ ∃ t, lp.types[i]? = some t ∧ onBid p t = true := by
  rw [marginal, List.mem_map]
  constructor
  · rintro ⟨⟨t, j⟩, hmem, rfl⟩
    obtain ⟨hmem, hbid⟩ := List.mem_filter.mp hmem
    exact ⟨t, List.mem_zipIdx_iff_getElem?.mp hmem, hbid⟩
  · rintro ⟨t, ht, hbid⟩
    exact ⟨(t, i), List.mem_filter.mpr ⟨List.mem_zipIdx_iff_getElem?.mpr ht, hbid⟩, rfl⟩

theorem nodup_marginal : (lp.marginal p).Nodup := by
  have hall : (lp.types.zipIdx.map Prod.snd).Nodup := by
    rw [List.zipIdx_map_snd]
    exact List.nodup_range'
  exact hall.sublist (List.filter_sublist.map _)

theorem length_marginal_le : (lp.marginal p).length ≤ lp.types.length := by
  rw [marginal, List.length_map]
  exact (List.length_filter_le _ _).trans_eq (List.length_zipIdx)

theorem entry_map_of_getElem? (f : WorkloadType → ℚ) {i : ℕ} {t : WorkloadType}
    (ht : lp.types[i]? = some t) : entry (lp.types.map f) i = f t := by
  rw [entry, List.getD_eq_getElem?_getD, List.getElem?_map, ht]
  rfl

theorem w_eq {i : ℕ} {t : WorkloadType} (ht : lp.types[i]? = some t) : lp.w i = t.weight :=
  entry_map_of_getElem? _ ht

theorem c_eq {i : ℕ} {t : WorkloadType} (ht : lp.types[i]? = some t) : lp.c i = t.cost :=
  entry_map_of_getElem? _ ht

theorem Proper.w_nonneg (h : lp.Proper) {i : ℕ} (hi : i ∈ lp.marginal p) :
    0 ≤ lp.w i ∧ 0 ≤ lp.c i := by
  obtain ⟨t, ht, -⟩ := mem_marginal.mp hi
  rw [w_eq ht, c_eq ht]
  exact ⟨h.weight t (List.mem_of_getElem? ht), h.cost t (List.mem_of_getElem? ht)⟩

theorem Proper.taken_nonneg (h : lp.Proper) {i : ℕ} (hi : i ∈ lp.marginal p) :
    0 ≤ lp.w i ∧ 0 ≤ lp.w i * lp.c i :=
  ⟨(h.w_nonneg hi).1, mul_nonneg (h.w_nonneg hi).1 (h.w_nonneg hi).2⟩

/-- A sum over the archetypes on their bid lines. -/
theorem sum_marginal (g : ℕ → ℚ) (f : WorkloadType → ℚ)
    (h : ∀ i t, lp.types[i]? = some t → g i = f t) :
    ((lp.marginal p).map g).sum = (lp.types.map fun t => if onBid p t then f t else 0).sum := by
  have hindices : ((lp.marginal p).map g).sum
      = (lp.types.zipIdx.map fun t => if onBid p t.1 then g t.2 else 0).sum := by
    rw [marginal, List.map_map, sum_map_filter]
    rfl
  have htypes : lp.types = lp.types.zipIdx.map Prod.fst := (List.zipIdx_map_fst 0 _).symm
  rw [hindices]
  conv_rhs => rw [htypes, List.map_map]
  refine congrArg List.sum (List.map_congr_left fun t ht => ?_)
  rw [h t.2 t.1 (List.mem_zipIdx_iff_getElem?.mp ht)]
  rfl

/-! ### What a plan takes -/

/-- What a plan takes is what is forced in, and the fractions of the archetypes on their bid
lines. -/
theorem Sorts.used_eq {x : List ℚ} (h : Sorts lp p x) (f : WorkloadType → ℚ) (g : ℕ → ℚ)
    (hg : ∀ i t, lp.types[i]? = some t → g i = f t) :
    lp.used f x = ((lp.types.filter (forced p)).map f).sum
      + ((lp.marginal p).map fun i => g i * entry x i).sum := by
  have hindices : ((lp.marginal p).map fun i => g i * entry x i).sum
      = (lp.types.zipIdx.map fun t => if onBid p t.1 then g t.2 * entry x t.2 else 0).sum := by
    rw [marginal, List.map_map, sum_map_filter]
    rfl
  have htypes : ((lp.types.filter (forced p)).map f).sum
      = (lp.types.zipIdx.map fun t => if forced p t.1 then f t.1 else 0).sum := by
    rw [sum_map_filter]
    conv_lhs => rw [(List.zipIdx_map_fst 0 lp.types).symm, List.map_map]
    rfl
  rw [used, htypes, hindices, ← List.sum_map_add]
  refine congrArg List.sum (List.map_congr_left fun t ht => ?_)
  have hget := List.mem_zipIdx_iff_getElem?.mp ht
  cases hforced : forced p t.1 with
  | true =>
    have hbid : onBid p t.1 = false := by
      rw [onBid, hforced]
      rfl
    rw [h.admits t.2 t.1 hget hforced, hbid, if_pos rfl, if_neg Bool.false_ne_true, mul_one,
      add_zero]
  | false =>
    rw [if_neg Bool.false_ne_true, zero_add]
    cases hbid : onBid p t.1 with
    | true => rw [if_pos rfl, hg t.2 t.1 hget]
    | false => rw [if_neg Bool.false_ne_true, h.refuses t.2 t.1 hget hforced hbid, mul_zero]

theorem w_mul_c_eq {i : ℕ} {t : WorkloadType} (ht : lp.types[i]? = some t) :
    lp.w i * lp.c i = t.weight * t.cost := by
  rw [w_eq ht, c_eq ht]

/-- The rate that a plan takes. -/
theorem Sorts.usedRate_eq {x : List ℚ} (h : Sorts lp p x) :
    lp.used WorkloadType.weight x
      = lp.forcedRate p + ((lp.marginal p).map fun i => lp.w i * entry x i).sum :=
  h.used_eq _ lp.w fun _ _ => w_eq

/-- The cost that a plan takes. -/
theorem Sorts.usedCost_eq {x : List ℚ} (h : Sorts lp p x) :
    lp.used (fun t => t.weight * t.cost) x
      = lp.forcedCost p + ((lp.marginal p).map fun i => lp.w i * lp.c i * entry x i).sum :=
  h.used_eq _ (fun i => lp.w i * lp.c i) fun _ _ => w_mul_c_eq

/-- All fractions are between zero and one. -/
theorem Sorts.entry_unit {x : List ℚ} (h : Sorts lp p x) {i : ℕ} {t : WorkloadType}
    (ht : lp.types[i]? = some t) : 0 ≤ entry x i ∧ entry x i ≤ 1 := by
  cases hforced : forced p t with
  | true =>
    rw [h.admits i t ht hforced]
    exact ⟨zero_le_one, le_rfl⟩
  | false =>
    cases hbid : onBid p t with
    | true => exact h.unit i (mem_marginal.mpr ⟨t, ht, hbid⟩)
    | false =>
      rw [h.refuses i t ht hforced hbid]
      exact ⟨le_rfl, zero_le_one⟩

/-! ### The prices in a direction -/

theorem redTol_pos : 0 < redTol := by norm_num [redTol]

/-- What an archetype on its bid line is worth above its bid. -/
theorem abs_reduced_le {t : WorkloadType} (h : onBid p t = true) : |reduced p t| ≤ redTol := by
  rw [onBid, Bool.and_eq_true, Bool.not_eq_true', decide_eq_true_iff] at h
  obtain ⟨hforced, hle⟩ := h
  rw [forced, decide_eq_false_iff_not, not_lt] at hforced
  exact abs_le.mpr ⟨hle, hforced⟩

/-- One archetype, when its bid grows by no more than the tolerance. -/
theorem max_reduced_sub_le (t : WorkloadType) {e : ℚ} (he : |e| ≤ redTol) :
    max 0 (reduced p t - e) ≤ max 0 (reduced p t) - (if forced p t then e else 0)
      + (if onBid p t then max 0 (-e) else 0) := by
  obtain ⟨hlow, hhigh⟩ := abs_le.mp he
  cases hforced : forced p t with
  | true =>
    have hbid : onBid p t = false := by
      rw [onBid, hforced]
      rfl
    rw [forced, decide_eq_true_iff] at hforced
    rw [hbid, if_pos rfl, if_neg Bool.false_ne_true, add_zero, max_eq_right (by linarith),
      max_eq_right (by linarith [redTol_pos])]
  | false =>
    rw [if_neg Bool.false_ne_true, sub_zero]
    cases hbid : onBid p t with
    | true =>
      rw [if_pos rfl]
      refine max_le (add_nonneg (le_max_left _ _) (le_max_left _ _)) ?_
      have hself := le_max_right 0 (reduced p t)
      have hgain := le_max_right 0 (-e)
      linarith
    | false =>
      rw [onBid, hforced, Bool.not_false, Bool.true_and, decide_eq_false_iff_not, not_le] at hbid
      rw [if_neg Bool.false_ne_true, add_zero, max_eq_left (by linarith)]
      exact le_max_left _ _

/-- A step that is short enough. -/
theorem exists_short (p : Prices) {k : ℚ} (hk : 0 < k) :
    ∃ t > 0, t * k ≤ redTol ∧ (0 < p.pR → t * k ≤ p.pR) ∧ (0 < p.pC → t * k ≤ p.pC) := by
  obtain ⟨m, hm, hred, hrate, hcost⟩ : ∃ m > 0, m ≤ redTol ∧ (0 < p.pR → m ≤ p.pR) ∧
      (0 < p.pC → m ≤ p.pC) := by
    refine ⟨min redTol (min (if 0 < p.pR then p.pR else redTol)
      (if 0 < p.pC then p.pC else redTol)), ?_, min_le_left _ _, fun h => ?_, fun h => ?_⟩
    · refine lt_min redTol_pos (lt_min ?_ ?_)
      · split
        · assumption
        · exact redTol_pos
      · split
        · assumption
        · exact redTol_pos
    · rw [if_pos h]
      exact (min_le_right _ _).trans (min_le_left _ _)
    · rw [if_pos h]
      exact (min_le_right _ _).trans (min_le_right _ _)
  refine ⟨m / k, div_pos hm hk, ?_⟩
  rw [div_mul_cancel₀ _ hk.ne']
  exact ⟨hred, hrate, hcost⟩

/-- What the forced archetypes take of the two budgets, weighed by a direction. -/
theorem sum_forced_direction (a b : ℚ) :
    (lp.types.map fun t => if forced p t then t.weight * (a + b * t.cost) else 0).sum
      = a * lp.forcedRate p + b * lp.forcedCost p := by
  rw [forcedRate, forcedCost, ← List.sum_map_mul_left, ← List.sum_map_mul_left,
    ← List.sum_map_add, sum_map_filter]
  refine congrArg List.sum (List.map_congr_left fun t _ => ?_)
  rw [show t.weight * (a + b * t.cost) = a * t.weight + b * (t.weight * t.cost) by ring]

/-- A short step in a direction. -/
theorem dualObjective_step_le (hproper : lp.Proper) {e a b : ℚ} (he : 0 ≤ e)
    (hshort : ∀ t ∈ lp.types, |e * (a + b * t.cost)| ≤ redTol) :
    lp.dualObjective ⟨p.pR + e * a, p.pC + e * b⟩ ≤ lp.dualObjective p
      + e * (a * lp.R + b * lp.C
        + ((lp.marginal p).map fun i => lp.w i * max 0 (-(a + b * lp.c i))).sum
        - (a * lp.forcedRate p + b * lp.forcedCost p)) := by
  rw [sum_marginal (fun i => lp.w i * max 0 (-(a + b * lp.c i)))
    (fun t => t.weight * max 0 (-(a + b * t.cost)))
    (fun i t ht => by rw [w_eq ht, c_eq ht]), ← sum_forced_direction]
  have hterms : (lp.types.map fun t =>
      t.weight * max 0 (reduced ⟨p.pR + e * a, p.pC + e * b⟩ t)).sum
        ≤ (lp.types.map fun t => t.weight * max 0 (reduced p t)
          + (-e * (if forced p t then t.weight * (a + b * t.cost) else 0)
            + e * (if onBid p t then t.weight * max 0 (-(a + b * t.cost)) else 0))).sum := by
    refine List.sum_le_sum fun t ht => ?_
    have hstep : reduced ⟨p.pR + e * a, p.pC + e * b⟩ t = reduced p t - e * (a + b * t.cost) := by
      rw [reduced, reduced]
      ring
    have hscale : max 0 (-(e * (a + b * t.cost))) = e * max 0 (-(a + b * t.cost)) := by
      rw [mul_max_of_nonneg _ _ he, mul_zero, mul_neg]
    have hmax := mul_le_mul_of_nonneg_left (max_reduced_sub_le (p := p) t (hshort t ht))
      (hproper.weight t ht)
    rw [hstep]
    refine hmax.trans_eq ?_
    rw [hscale]
    split <;> split <;> ring
  rw [List.sum_map_add, List.sum_map_add, List.sum_map_mul_left, List.sum_map_mul_left] at hterms
  rw [dualObjective, dualObjective]
  linarith

/-- **The prices in a direction.** Where they minimise the dual and can move, what is forced in and
what is on the bid lines make up for what the budgets lose. -/
theorem Optimal.direction (h : Optimal lp p) (hproper : lp.Proper) {a b : ℚ}
    (ha : 0 < p.pR ∨ 0 ≤ a) (hb : 0 < p.pC ∨ 0 ≤ b) :
    lp.Steady p a b := by
  have hnonneg : ∀ y ∈ lp.types.map fun t => |a + b * t.cost|, 0 ≤ y := by
    intro y hy
    obtain ⟨t, -, rfl⟩ := List.mem_map.mp hy
    exact abs_nonneg _
  have hsum := List.sum_nonneg hnonneg
  obtain ⟨k, hk⟩ : ∃ k, k = 1 + |a| + |b| + (lp.types.map fun t => |a + b * t.cost|).sum :=
    ⟨_, rfl⟩
  have hkpos : 0 < k := by
    rw [hk]
    positivity
  obtain ⟨e, he, hred, hrate, hcost⟩ := exists_short p hkpos
  have hshort : ∀ {y : ℚ}, |y| ≤ k → |e * y| ≤ e * k := by
    intro y hy
    rw [abs_mul, abs_of_pos he]
    exact mul_le_mul_of_nonneg_left hy he.le
  have hentry : ∀ t ∈ lp.types, |e * (a + b * t.cost)| ≤ redTol := by
    intro t ht
    refine (hshort ?_).trans hred
    have hone := List.single_le_sum hnonneg _ (List.mem_map_of_mem ht)
    linarith [abs_nonneg a, abs_nonneg b]
  -- neither price gets below zero
  have hstays : ∀ {price y : ℚ}, 0 ≤ price → 0 < price ∨ 0 ≤ y → |y| ≤ k →
      (0 < price → e * k ≤ price) → 0 ≤ price + e * y := by
    intro price y hprice hy hle hmove
    rcases hy with hy | hy
    · have hlow := (abs_le.mp (hshort hle)).1
      linarith [hmove hy]
    · exact add_nonneg hprice (mul_nonneg he.le hy)
  have hleast := h.le ⟨p.pR + e * a, p.pC + e * b⟩
    (hstays h.rate ha (by linarith [abs_nonneg b]) hrate)
    (hstays h.cost hb (by linarith [abs_nonneg a]) hcost)
  have hstep := dualObjective_step_le (p := p) hproper he.le hentry
  have hgain := le_add_iff_nonneg_right _ |>.mp (hleast.trans hstep)
  exact sub_nonneg.mp ((mul_nonneg_iff_of_pos_left he).mp hgain)

theorem Optimal.atRest (h : Optimal lp p) (hproper : lp.Proper) : AtRest lp p :=
  fun _ _ ha hb => h.direction hproper (ha.imp_left redTol_pos.trans) (hb.imp_left redTol_pos.trans)

/-- A plan that takes no more in the direction than the budgets hold. -/
theorem Sorts.steady {x : List ℚ} (h : Sorts lp p x) (hproper : lp.Proper) {a b : ℚ}
    (hle : a * lp.used WorkloadType.weight x + b * lp.used (fun t => t.weight * t.cost) x
      ≤ a * lp.R + b * lp.C) : lp.Steady p a b := by
  have hsum : 0 ≤ a * ((lp.marginal p).map fun i => lp.w i * entry x i).sum
      + b * ((lp.marginal p).map fun i => lp.w i * lp.c i * entry x i).sum
      + ((lp.marginal p).map fun i => lp.w i * max 0 (-(a + b * lp.c i))).sum := by
    rw [← List.sum_map_mul_left, ← List.sum_map_mul_left, ← List.sum_map_add, ← List.sum_map_add]
    refine List.sum_nonneg fun y hy => ?_
    obtain ⟨i, hi, rfl⟩ := List.mem_map.mp hy
    obtain ⟨hlow, hhigh⟩ := h.unit i hi
    have hterm : -(a + b * lp.c i) * entry x i ≤ max 0 (-(a + b * lp.c i)) :=
      (mul_le_mul_of_nonneg_right (le_max_right _ _) hlow).trans
        (mul_le_of_le_one_right (le_max_left _ _) hhigh)
    have hscaled := mul_le_mul_of_nonneg_left hterm (hproper.w_nonneg hi).1
    linarith
  rw [h.usedRate_eq, h.usedCost_eq] at hle
  rw [Steady]
  linarith

/-- A plan that uses the tight budgets up. -/
theorem Completes.atRest {x : List ℚ} (h : Completes lp p 0 x) (hproper : lp.Proper) :
    AtRest lp p := by
  have hpart : ∀ {price budget use y : ℚ}, use ≤ budget + 0 →
      (redTol < price → budget - 0 ≤ use) → redTol < price ∨ 0 ≤ y → y * use ≤ y * budget := by
    intro price budget use y hle htight hmove
    rw [add_zero] at hle
    rw [sub_zero] at htight
    rcases hmove with hprice | hy
    · rw [le_antisymm hle (htight hprice)]
    · exact mul_le_mul_of_nonneg_left hle hy
  exact fun a b ha hb => h.sorts.steady hproper
    (add_le_add (hpart h.rate h.rateTight ha) (hpart h.cost h.costTight hb))

/-- What is forced in fits. -/
theorem AtRest.forced_le (h : AtRest lp p) (hproper : lp.Proper) :
    lp.forcedRate p ≤ lp.R ∧ lp.forcedCost p ≤ lp.C := by
  have hnone : ∀ {a b : ℚ}, 0 ≤ a → 0 ≤ b →
      ((lp.marginal p).map fun i => lp.w i * max 0 (-(a + b * lp.c i))).sum = 0 := by
    intro a b ha hb
    refine List.sum_eq_zero fun y hy => ?_
    obtain ⟨i, hi, rfl⟩ := List.mem_map.mp hy
    have hcost := mul_nonneg hb (hproper.w_nonneg hi).2
    rw [max_eq_left (by linarith), mul_zero]
  have hrate := h 1 0 (.inr zero_le_one) (.inr le_rfl)
  have hcost := h 0 1 (.inr le_rfl) (.inr zero_le_one)
  rw [Steady, hnone zero_le_one le_rfl] at hrate
  rw [Steady, hnone le_rfl zero_le_one] at hcost
  constructor <;> linarith

/-- A tight rate budget is used up by what is forced in and what is on the bid lines. -/
theorem AtRest.rate_le (h : AtRest lp p) (htight : redTol < p.pR) :
    lp.R ≤ lp.forcedRate p + ((lp.marginal p).map lp.w).sum := by
  have hdir := h (-1) 0 (.inl htight) (.inr le_rfl)
  have hsum : ((lp.marginal p).map fun i => lp.w i * max 0 (-(-1 + 0 * lp.c i)))
      = (lp.marginal p).map lp.w := by
    refine List.map_congr_left fun i _ => ?_
    rw [zero_mul, add_zero, neg_neg, max_eq_right zero_le_one, mul_one]
  rw [Steady, hsum] at hdir
  linarith

/-- A tight cost budget is. -/
theorem AtRest.cost_le (h : AtRest lp p) (hproper : lp.Proper) (htight : redTol < p.pC) :
    lp.C ≤ lp.forcedCost p + ((lp.marginal p).map fun i => lp.w i * lp.c i).sum := by
  have hdir := h 0 (-1) (.inr le_rfl) (.inl htight)
  have hsum : ((lp.marginal p).map fun i => lp.w i * max 0 (-(0 + -1 * lp.c i)))
      = (lp.marginal p).map fun i => lp.w i * lp.c i := by
    refine List.map_congr_left fun i hi => ?_
    rw [zero_add, neg_mul, one_mul, neg_neg, max_eq_right (hproper.w_nonneg hi).2]
  rw [Steady, hsum] at hdir
  linarith

/-! ### What a plan is worth -/

/-- What a fraction of an archetype on its bid line is worth above the bid. -/
theorem abs_fraction_sub_le {y r tol : ℚ} (hy : 0 ≤ y ∧ y ≤ 1) (hr : |r| ≤ tol) :
    |r * y - max 0 r| ≤ tol := by
  obtain ⟨hlow, hhigh⟩ := abs_le.mp hr
  rcases le_total 0 r with h | h
  · rw [max_eq_right h]
    have hle : r * y ≤ r := mul_le_of_le_one_right h hy.2
    have hnonneg : 0 ≤ r * y := mul_nonneg h hy.1
    exact abs_le.mpr ⟨by linarith, by linarith⟩
  · rw [max_eq_left h, sub_zero]
    have hle : r ≤ r * y := le_mul_of_le_one_right h hy.2
    have hnonpos : r * y ≤ 0 := mul_nonpos_of_nonpos_of_nonneg h hy.1
    exact abs_le.mpr ⟨by linarith, by linarith⟩

/-- One archetype: what its fraction is worth above the bid is what it adds to the dual. -/
theorem Sorts.abs_reduced_mul_sub_le {x : List ℚ} (h : Sorts lp p x) {i : ℕ} {t : WorkloadType}
    (ht : lp.types[i]? = some t) : |reduced p t * entry x i - max 0 (reduced p t)| ≤ redTol := by
  cases hforced : forced p t with
  | true =>
    have hpos := hforced
    rw [TwoBudget.forced, decide_eq_true_iff] at hpos
    rw [h.admits i t ht hforced, mul_one, max_eq_right (by linarith [redTol_pos]), sub_self,
      abs_zero]
    exact redTol_pos.le
  | false =>
    cases hbid : onBid p t with
    | true => exact abs_fraction_sub_le (h.entry_unit ht) (abs_reduced_le hbid)
    | false =>
      have hneg := hbid
      rw [onBid, hforced, Bool.not_false, Bool.true_and, decide_eq_false_iff_not, not_le] at hneg
      rw [h.refuses i t ht hforced hbid, mul_zero, max_eq_left (by linarith [redTol_pos]),
        sub_zero, abs_zero]
      exact redTol_pos.le

/-- What a plan is worth: the dual, what the prices make of what it leaves of the budgets, and how
far its fractions are from what the prices ask for. -/
theorem objective_eq (lp : TwoBudget) (x : List ℚ) (q : Prices) :
    lp.objective x = lp.dualObjective q + q.pR * (lp.used WorkloadType.weight x - lp.R)
      + q.pC * (lp.used (fun t => t.weight * t.cost) x - lp.C)
      + (lp.types.zipIdx.map fun t =>
          t.1.weight * (reduced q t.1 * entry x t.2 - max 0 (reduced q t.1))).sum := by
  have hdual : (lp.types.map fun t => t.weight * max 0 (reduced q t)).sum
      = (lp.types.zipIdx.map fun t => t.1.weight * max 0 (reduced q t.1)).sum := by
    conv_lhs => rw [(List.zipIdx_map_fst 0 lp.types).symm, List.map_map]
    rfl
  have hworth : lp.objective x + -1 * (lp.types.zipIdx.map fun t =>
      t.1.weight * max 0 (reduced q t.1)).sum
        + (-q.pR * lp.used WorkloadType.weight x
          + -q.pC * lp.used (fun t => t.weight * t.cost) x)
      = (lp.types.zipIdx.map fun t =>
          t.1.weight * (reduced q t.1 * entry x t.2 - max 0 (reduced q t.1))).sum := by
    rw [objective, used, used, ← List.sum_map_mul_left, ← List.sum_map_mul_left,
      ← List.sum_map_mul_left, ← List.sum_map_add, ← List.sum_map_add, ← List.sum_map_add]
    refine congrArg List.sum (List.map_congr_left fun t _ => ?_)
    rw [reduced]
    ring
  rw [← hworth, dualObjective, hdual]
  ring

/-- Weak duality: no plan of fractions is worth more than the dual and what the prices make of its
overruns. -/
theorem objective_le (hproper : lp.Proper) {x : List ℚ}
    (hunit : ∀ i t, lp.types[i]? = some t → 0 ≤ entry x i ∧ entry x i ≤ 1) (q : Prices) :
    lp.objective x ≤ lp.dualObjective q + q.pR * (lp.used WorkloadType.weight x - lp.R)
      + q.pC * (lp.used (fun t => t.weight * t.cost) x - lp.C) := by
  rw [lp.objective_eq x q]
  have hnonpos : (lp.types.zipIdx.map fun t =>
      t.1.weight * (reduced q t.1 * entry x t.2 - max 0 (reduced q t.1))).sum
        ≤ (lp.types.zipIdx.map fun _ => (0 : ℚ)).sum := by
    refine List.sum_le_sum fun t ht => ?_
    have hget := List.mem_zipIdx_iff_getElem?.mp ht
    obtain ⟨hlow, hhigh⟩ := hunit t.2 t.1 hget
    refine mul_nonpos_of_nonneg_of_nonpos (hproper.weight t.1 (List.mem_of_getElem? hget)) ?_
    have hle : reduced q t.1 * entry x t.2 ≤ max 0 (reduced q t.1) :=
      (mul_le_mul_of_nonneg_right (le_max_right _ _) hlow).trans
        (mul_le_of_le_one_right (le_max_left _ _) hhigh)
    exact sub_nonpos.mpr hle
  rw [List.map_const', List.sum_replicate, smul_zero] at hnonpos
  exact add_le_of_nonpos_right hnonpos

/-- What a plan is worth, by the dual and by how far it is from using the budgets up. -/
theorem Sorts.abs_objective_sub_le {x : List ℚ} (h : Sorts lp p x) (hproper : lp.Proper) :
    |lp.objective x - (lp.dualObjective p + p.pR * (lp.used WorkloadType.weight x - lp.R)
      + p.pC * (lp.used (fun t => t.weight * t.cost) x - lp.C))|
      ≤ redTol * (lp.types.map WorkloadType.weight).sum := by
  have hweights : (lp.types.map WorkloadType.weight).sum
      = (lp.types.zipIdx.map fun t => t.1.weight).sum := by
    conv_lhs => rw [(List.zipIdx_map_fst 0 lp.types).symm, List.map_map]
    rfl
  rw [lp.objective_eq x p, add_sub_cancel_left, hweights, ← List.sum_map_mul_left]
  have hterm : ∀ t ∈ lp.types.zipIdx,
      |t.1.weight * (reduced p t.1 * entry x t.2 - max 0 (reduced p t.1))|
        ≤ redTol * t.1.weight := by
    intro t ht
    have hget := List.mem_zipIdx_iff_getElem?.mp ht
    have hweight := hproper.weight t.1 (List.mem_of_getElem? hget)
    rw [abs_mul, abs_of_nonneg hweight, mul_comm]
    exact mul_le_mul_of_nonneg_right (h.abs_reduced_mul_sub_le hget) hweight
  refine abs_le.mpr ⟨?_, List.sum_le_sum fun t ht => (abs_le.mp (hterm t ht)).2⟩
  rw [← neg_one_mul, ← List.sum_map_mul_left]
  refine List.sum_le_sum fun t ht => ?_
  rw [neg_one_mul]
  exact (abs_le.mp (hterm t ht)).1

/-! ### The loops that fill one budget -/

theorem eps_pos : 0 < eps := by norm_num [eps]

theorem entry_set_eq (x : List ℚ) {i : ℕ} (hi : i < x.length) (y : ℚ) :
    entry (x.set i y) = Function.update (entry x) i y := by
  funext j
  rw [entry_set x hi, Function.update_apply]

/-- The loop over the rate. -/
theorem foldl_fillRate (remR : ℚ) (l : List ℕ) (x : List ℚ) (r : ℚ) (hl : ∀ i ∈ l, i < x.length) :
    (l.foldl (lp.fillRate remR) (x, r)).1.length = x.length ∧
      entry (l.foldl (lp.fillRate remR) (x, r)).1
        = (l.foldl (GreedyFill.step lp.w remR eps 1) (entry x, r)).1 := by
  induction l generalizing x r with
  | nil => exact ⟨rfl, rfl⟩
  | cons i l ih =>
    obtain ⟨hi, hl⟩ := List.forall_mem_cons.mp hl
    have hstep : ∃ y r', lp.fillRate remR (x, r) i = (x.set i y, r') ∧
        GreedyFill.step lp.w remR eps 1 (entry x, r) i = (entry (x.set i y), r') := by
      rw [fillRate, GreedyFill.step]
      dsimp only
      split
      · exact ⟨1, r, rfl, by rw [entry_set_eq x hi]⟩
      · split
        · exact ⟨1, _, rfl, by rw [entry_set_eq x hi]⟩
        · exact ⟨_, remR, rfl, by rw [entry_set_eq x hi]⟩
    obtain ⟨y, r', hfill, hgreedy⟩ := hstep
    rw [List.foldl_cons, List.foldl_cons, hfill, hgreedy]
    obtain ⟨hlength, hentry⟩ := ih (x.set i y) r' (by simpa using hl)
    exact ⟨hlength.trans List.length_set, hentry⟩

/-- The loop over the cost, which leaves alone what takes next to nothing of it. -/
theorem foldl_fillCost (remC : ℚ) (l : List ℕ) (x : List ℚ) (r : ℚ) (hnodup : l.Nodup)
    (hl : ∀ i ∈ l, i < x.length) (hzero : ∀ i ∈ l, entry x i = 0) :
    (l.foldl (lp.fillCost remC) (x, r)).1.length = x.length ∧
      entry (l.foldl (lp.fillCost remC) (x, r)).1
        = (l.foldl (GreedyFill.step (fun i => lp.w i * lp.c i) remC eps 0) (entry x, r)).1 := by
  induction l generalizing x r with
  | nil => exact ⟨rfl, rfl⟩
  | cons i l ih =>
    obtain ⟨hnot, hnodup⟩ := List.nodup_cons.mp hnodup
    obtain ⟨hi, hl⟩ := List.forall_mem_cons.mp hl
    obtain ⟨hzeroi, hzero⟩ := List.forall_mem_cons.mp hzero
    have hstep : ∃ y r', lp.fillCost remC (x, r) i = (x.set i y, r') ∧
        GreedyFill.step (fun i => lp.w i * lp.c i) remC eps 0 (entry x, r) i
          = (entry (x.set i y), r') := by
      rw [fillCost, GreedyFill.step]
      dsimp only
      split
      · refine ⟨0, r, ?_, by rw [entry_set_eq x hi]⟩
        have hself : x[i] = 0 := by
          rw [← hzeroi, entry, List.getD_eq_getElem _ _ hi]
        rw [← hself, List.set_getElem_self]
      · split
        · exact ⟨1, _, rfl, by rw [entry_set_eq x hi]⟩
        · exact ⟨_, remC, rfl, by rw [entry_set_eq x hi]⟩
    obtain ⟨y, r', hfill, hgreedy⟩ := hstep
    rw [List.foldl_cons, List.foldl_cons, hfill, hgreedy]
    have hrest : ∀ j ∈ l, entry (x.set i y) j = 0 := by
      intro j hj
      have hne : j ≠ i := fun heq => hnot (heq ▸ hj)
      rw [entry_set x hi, if_neg hne]
      exact hzero j hj
    obtain ⟨hlength, hentry⟩ := ih (x.set i y) r' hnodup (by simpa using hl) hrest
    exact ⟨hlength.trans List.length_set, hentry⟩

theorem length_forcedIn : (lp.forcedIn p).length = lp.types.length := List.length_map _

theorem entry_forcedIn {i : ℕ} {t : WorkloadType} (ht : lp.types[i]? = some t) :
    entry (lp.forcedIn p) i = if forced p t then 1 else 0 :=
  entry_map_of_getElem? (fun t => if forced p t then 1 else 0) ht

theorem lt_of_mem_marginal {i : ℕ} (hi : i ∈ lp.marginal p) : i < lp.types.length := by
  obtain ⟨t, ht, -⟩ := mem_marginal.mp hi
  exact (List.getElem?_eq_some_iff.mp ht).1

theorem entry_forcedIn_of_marginal {i : ℕ} (hi : i ∈ lp.marginal p) :
    entry (lp.forcedIn p) i = 0 := by
  obtain ⟨t, ht, hbid⟩ := mem_marginal.mp hi
  rw [onBid, Bool.and_eq_true, Bool.not_eq_true'] at hbid
  rw [entry_forcedIn ht, hbid.1, if_neg Bool.false_ne_true]

/-- A plan that changes what is on the bid lines only. -/
theorem sorts_of_marginal {x : List ℚ} (hlength : x.length = lp.types.length)
    (hkeeps : ∀ i, i ∉ lp.marginal p → entry x i = entry (lp.forcedIn p) i)
    (hunit : ∀ i ∈ lp.marginal p, 0 ≤ entry x i ∧ entry x i ≤ 1) : Sorts lp p x := by
  have hnot : ∀ {i t}, lp.types[i]? = some t → onBid p t = false → i ∉ lp.marginal p := by
    intro i t ht hbid hi
    obtain ⟨t', ht', hbid'⟩ := mem_marginal.mp hi
    rw [ht] at ht'
    rw [← Option.some.inj ht', hbid] at hbid'
    cases hbid'
  refine ⟨hlength, fun i t ht hforced => ?_, fun i t ht hforced hbid => ?_, hunit⟩
  · have hbid : onBid p t = false := by
      rw [onBid, hforced]
      rfl
    rw [hkeeps i (hnot ht hbid), entry_forcedIn ht, hforced, if_pos rfl]
  · rw [hkeeps i (hnot ht hbid), entry_forcedIn ht, hforced, if_neg Bool.false_ne_true]

/-- The plan before anything is filled. -/
theorem sorts_forcedIn : Sorts lp p (lp.forcedIn p) := by
  refine sorts_of_marginal length_forcedIn (fun _ _ => rfl) fun i hi => ?_
  rw [entry_forcedIn_of_marginal hi]
  exact ⟨le_rfl, zero_le_one⟩

/-- A loop over what is on the bid lines, in the order of a key. -/
theorem sorts_of_filled {need key : ℕ → ℚ} {cap e small : ℚ} {l : List ℕ} {x : List ℚ}
    (he : 0 ≤ e) (hperm : l.Perm (lp.marginal p)) (hsorted : l.Pairwise fun i j => key i ≤ key j)
    (hcap : 0 ≤ cap) (hsmall : 0 ≤ small ∧ small ≤ 1) (hlength : x.length = lp.types.length)
    (hentry : entry x
      = (l.foldl (GreedyFill.step need cap e small) (entry (lp.forcedIn p), 0)).1) :
    Sorts lp p x ∧ GreedyFill.Filled need cap e small key (lp.marginal p) (entry x) := by
  have hfilled : GreedyFill.Filled need (cap - 0) e small key l
      (l.foldl (GreedyFill.step need cap e small) (entry (lp.forcedIn p), 0)).1 :=
    GreedyFill.filled_foldl he hsmall (hperm.nodup_iff.mpr nodup_marginal) hsorted
      (add_nonneg hcap he)
  rw [sub_zero, ← hentry] at hfilled
  have hfilled := hfilled.perm hperm
  refine ⟨sorts_of_marginal hlength (fun i hi => ?_) hfilled.unit, hfilled⟩
  rw [hentry, GreedyFill.foldl_step_of_notMem _ fun h => hi (hperm.mem_iff.mp h)]

/-- A plan that is filled in the order of a key. -/
theorem exists_filled (need : ℕ → ℚ) {key : ℕ → ℚ} {cap e small : ℚ} {l : List ℕ} (he : 0 ≤ e)
    (hperm : l.Perm (lp.marginal p)) (hsorted : l.Pairwise fun i j => key i ≤ key j)
    (hcap : 0 ≤ cap) (hsmall : 0 ≤ small ∧ small ≤ 1) :
    ∃ x, Sorts lp p x ∧ GreedyFill.Filled need cap e small key (lp.marginal p) (entry x) := by
  obtain ⟨y, hy⟩ : ∃ y, y
      = (l.foldl (GreedyFill.step need cap e small) (entry (lp.forcedIn p), 0)).1 := ⟨_, rfl⟩
  have hbeyond : ∀ i, lp.types.length ≤ i → y i = 0 := by
    intro i hi
    have hnot : i ∉ l := fun h => absurd (lt_of_mem_marginal (hperm.mem_iff.mp h)) (not_lt.mpr hi)
    rw [hy, GreedyFill.foldl_step_of_notMem _ hnot, entry, List.getD_eq_default]
    rwa [length_forcedIn]
  have hlength : ((List.range lp.types.length).map y).length = lp.types.length := by
    rw [List.length_map, List.length_range]
  have hentry : entry ((List.range lp.types.length).map y) = y := by
    funext i
    rw [entry]
    rcases lt_or_ge i lp.types.length with hi | hi
    · rw [List.getD_eq_getElem _ _ (by rwa [hlength]), List.getElem_map, List.getElem_range]
    · rw [List.getD_eq_default _ _ (by rwa [hlength]), hbeyond i hi]
  exact ⟨_, sorts_of_filled he hperm hsorted hcap hsmall hlength (hentry.trans hy)⟩

/-! ### One tight budget -/

/-- A sum over the archetypes on their bid lines is part of the sum over all. -/
theorem sum_marginal_le (g : ℕ → ℚ) (f : WorkloadType → ℚ)
    (hg : ∀ i t, lp.types[i]? = some t → g i = f t) (hf : ∀ t ∈ lp.types, 0 ≤ f t) :
    ((lp.marginal p).map g).sum ≤ (lp.types.map f).sum := by
  rw [sum_marginal g f hg]
  refine List.sum_le_sum fun t ht => ?_
  split
  · exact le_rfl
  · exact hf t ht

/-- One archetype of a sum over all. -/
theorem le_sum_types (f : WorkloadType → ℚ) (hf : ∀ t ∈ lp.types, 0 ≤ f t) {i : ℕ}
    (hi : i ∈ lp.marginal p) (g : ℕ → ℚ) (hg : ∀ i t, lp.types[i]? = some t → g i = f t) :
    g i ≤ (lp.types.map f).sum := by
  obtain ⟨t, ht, -⟩ := mem_marginal.mp hi
  have hmem := List.mem_of_getElem? ht
  rw [hg i t ht]
  refine List.single_le_sum (fun y hy => ?_) _ (List.mem_map_of_mem hmem)
  obtain ⟨t', ht', rfl⟩ := List.mem_map.mp hy
  exact hf t' ht'

theorem Proper.spent_nonneg (h : lp.Proper) : ∀ t ∈ lp.types, 0 ≤ t.weight * t.cost :=
  fun t ht => mul_nonneg (h.weight t ht) (h.cost t ht)

theorem card_marginal_mul_le (lp : TwoBudget) (p : Prices) {e : ℚ} (he : 0 ≤ e) :
    ((lp.marginal p).length : ℚ) * e ≤ lp.types.length * e :=
  mul_le_mul_of_nonneg_right (by exact_mod_cast length_marginal_le) he

/-- What one plan takes, by what another does. -/
theorem Sorts.used_le {x x' : List ℚ} (h : Sorts lp p x) (h' : Sorts lp p x')
    (f : WorkloadType → ℚ) (g : ℕ → ℚ) (hg : ∀ i t, lp.types[i]? = some t → g i = f t) {d : ℚ}
    (hd : 0 ≤ d) (hle : ∀ i ∈ lp.marginal p, g i * entry x' i ≤ g i * entry x i + d) :
    lp.used f x' ≤ lp.used f x + lp.types.length * d := by
  have hsum := List.sum_le_sum hle
  rw [List.sum_map_add, List.map_const', List.sum_replicate, nsmul_eq_mul] at hsum
  rw [h.used_eq f g hg, h'.used_eq f g hg]
  linarith [card_marginal_mul_le lp p hd]

/-- A fill of the rate, cheapest archetypes first. -/
abbrev RateFilled (lp : TwoBudget) (p : Prices) (cap e : ℚ) (x : List ℚ) : Prop :=
  GreedyFill.Filled lp.w cap e 1 lp.c (lp.marginal p) (entry x)

/-- A fill of the cost, dearest archetypes first. -/
abbrev CostFilled (lp : TwoBudget) (p : Prices) (cap e : ℚ) (x : List ℚ) : Prop :=
  GreedyFill.Filled (fun i => lp.w i * lp.c i) cap e 0 (fun i => -lp.c i) (lp.marginal p) (entry x)

/-- A fill of the rate uses it up, or admits everything. -/
theorem rateFill_bounds (hproper : lp.Proper) {cap e : ℚ} (he : 0 ≤ e) {x : List ℚ}
    (hx : Sorts lp p x) (hfill : lp.RateFilled p cap e x) (hcap : lp.R - lp.forcedRate p ≤ cap) :
    (lp.R ≤ lp.used WorkloadType.weight x ∨ ∀ i ∈ lp.marginal p, entry x i = 1) ∧
      lp.used WorkloadType.weight x ≤ lp.forcedRate p + cap + (lp.types.length + 1) * e := by
  obtain ⟨hcounted, htaken⟩ := hfill.sum_bounds (fun i hi => (hproper.w_nonneg hi).1) he
    ⟨zero_le_one, le_rfl⟩
  have hcard := card_marginal_mul_le lp p he
  rw [hx.usedRate_eq]
  constructor
  · rcases hfill.whole_or_threshold with hall | ⟨hfull, -⟩
    · right
      intro i hi
      rcases le_or_gt (lp.w i) e with hsmall | hlarge
      · exact hfill.small_eq i hi hsmall
      · exact hall i hi hlarge
    · left
      linarith
  · linarith

/-- A fill of the cost uses it up, or admits everything that counts. -/
theorem costFill_bounds (hproper : lp.Proper) {cap e : ℚ} (he : 0 ≤ e) {x : List ℚ}
    (hx : Sorts lp p x) (hfill : lp.CostFilled p cap e x) (hcap : lp.C - lp.forcedCost p ≤ cap) :
    (lp.C ≤ lp.used (fun t => t.weight * t.cost) x ∨
        ∀ i ∈ lp.marginal p, e < lp.w i * lp.c i → entry x i = 1) ∧
      lp.used (fun t => t.weight * t.cost) x
        ≤ lp.forcedCost p + cap + (lp.types.length + 1) * e := by
  obtain ⟨hcounted, htaken⟩ := hfill.sum_bounds
    (fun i hi => (hproper.taken_nonneg hi).2) he
    ⟨le_rfl, zero_le_one⟩
  have hcard := card_marginal_mul_le lp p he
  rw [hx.usedCost_eq]
  constructor
  · refine hfill.whole_or_threshold.symm.imp_left fun ⟨hfull, _⟩ => ?_
    linarith
  · linarith

/-- A fill of the rate in the order of costs has a threshold of cost. -/
theorem exists_rate_threshold (hproper : lp.Proper) {e : ℚ} (he : 0 ≤ e) {x : List ℚ}
    (hfill : lp.RateFilled p (lp.R - lp.forcedRate p) e x) :
    ∃ θ, 0 ≤ θ ∧ θ ≤ (lp.types.map WorkloadType.cost).sum ∧ ∀ i ∈ lp.marginal p,
      lp.w i * ((lp.c i - θ) * entry x i + max 0 (θ - lp.c i)) ≤ e * lp.c i := by
  have hbound : ∀ i ∈ lp.marginal p, lp.c i ≤ (lp.types.map WorkloadType.cost).sum :=
    fun i hi => le_sum_types WorkloadType.cost hproper.cost hi lp.c fun _ _ => c_eq
  -- what is admitted wholly takes nothing above the threshold, or takes next to nothing
  have hwhole : ∀ {θ : ℚ} {i}, i ∈ lp.marginal p → 0 ≤ θ → entry x i = 1 →
      lp.c i ≤ θ ∨ lp.w i ≤ e →
        lp.w i * ((lp.c i - θ) * entry x i + max 0 (θ - lp.c i)) ≤ e * lp.c i := by
    intro θ i hi hθ hx hor
    obtain ⟨hw, hc⟩ := hproper.w_nonneg hi
    rw [hx, mul_one]
    rcases le_total (lp.c i) θ with hle | hle
    · rw [max_eq_right (by linarith), sub_add_sub_cancel, sub_self, mul_zero]
      exact mul_nonneg he hc
    · rw [max_eq_left (by linarith), add_zero]
      rcases hor with heq | hsmall
      · rw [le_antisymm heq hle, sub_self, mul_zero]
        exact mul_nonneg he hθ
      · exact mul_le_mul hsmall (by linarith) (by linarith) he
  rcases hfill.whole_or_threshold with hall | ⟨-, k, hk, -, hbelow, habove⟩
  · refine ⟨(lp.types.map WorkloadType.cost).sum, ?_, le_rfl, fun i hi => ?_⟩
    · exact List.sum_nonneg fun y hy => by
        obtain ⟨t, ht, rfl⟩ := List.mem_map.mp hy
        exact hproper.cost t ht
    · refine hwhole hi ((hproper.w_nonneg hi).2.trans (hbound i hi)) ?_ (.inl (hbound i hi))
      rcases le_or_gt (lp.w i) e with hsmall | hlarge
      · exact hfill.small_eq i hi hsmall
      · exact hall i hi hlarge
  · have hθ := (hproper.w_nonneg hk).2
    refine ⟨lp.c k, hθ, hbound k hk, fun i hi => ?_⟩
    rcases le_or_gt (lp.w i) e with hsmall | hlarge
    · exact hwhole hi hθ (hfill.small_eq i hi hsmall) (.inr hsmall)
    · rcases lt_trichotomy (lp.c i) (lp.c k) with hlt | heq | hgt
      · exact hwhole hi hθ (hbelow i hi hlarge hlt) (.inl hlt.le)
      · rw [heq, sub_self, zero_mul, max_self, add_zero, mul_zero]
        exact mul_nonneg he hθ
      · rw [habove i hi hlarge hgt, mul_zero, max_eq_left (by linarith), add_zero, mul_zero]
        exact mul_nonneg he (hproper.w_nonneg hi).2

/-- **A tight rate budget.** The fill uses it up and stays within the cost. -/
theorem AtRest.rateFill (h : AtRest lp p) (hproper : lp.Proper) (htight : redTol < p.pR) {e : ℚ}
    (he : 0 ≤ e) {x : List ℚ} (hx : Sorts lp p x)
    (hfill : lp.RateFilled p (lp.R - lp.forcedRate p) e x) :
    lp.R ≤ lp.used WorkloadType.weight x ∧
      lp.used WorkloadType.weight x ≤ lp.R + (lp.types.length + 1) * e ∧
      lp.used (fun t => t.weight * t.cost) x
        ≤ lp.C + (lp.types.length + 2) * e * (lp.types.map WorkloadType.cost).sum := by
  obtain ⟨huses, hhigh⟩ := rateFill_bounds hproper he hx hfill le_rfl
  rw [add_sub_cancel] at hhigh
  have hlow : lp.R ≤ lp.used WorkloadType.weight x := by
    refine huses.elim id fun hall => ?_
    have hones : ((lp.marginal p).map fun i => lp.w i * entry x i)
        = (lp.marginal p).map lp.w := by
      refine List.map_congr_left fun i hi => ?_
      rw [hall i hi, mul_one]
    rw [hx.usedRate_eq, hones]
    exact h.rate_le htight
  refine ⟨hlow, hhigh, ?_⟩
  obtain ⟨θ, hθ, hθle, hterm⟩ := exists_rate_threshold hproper he hfill
  have hdir := h (-θ) 1 (.inl htight) (.inr zero_le_one)
  rw [Steady] at hdir
  have hsum : ((lp.marginal p).map fun i => lp.w i * lp.c i * entry x i).sum
      + (-θ * ((lp.marginal p).map fun i => lp.w i * entry x i).sum
        + ((lp.marginal p).map fun i => lp.w i * max 0 (-(-θ + 1 * lp.c i))).sum)
      ≤ e * ((lp.marginal p).map lp.c).sum := by
    rw [← List.sum_map_mul_left, ← List.sum_map_mul_left, ← List.sum_map_add, ← List.sum_map_add]
    refine List.sum_le_sum fun i hi => le_trans (le_of_eq ?_) (hterm i hi)
    rw [show -(-θ + 1 * lp.c i) = θ - lp.c i by ring]
    ring
  have hcosts := sum_marginal_le (p := p) lp.c WorkloadType.cost (fun _ _ => c_eq) hproper.cost
  have hpart := mul_le_mul_of_nonneg_left hcosts he
  -- the threshold turns what the rate is overrun by into cost
  have hover : θ * (lp.used WorkloadType.weight x - lp.R)
      ≤ (lp.types.map WorkloadType.cost).sum * ((lp.types.length + 1) * e) :=
    mul_le_mul hθle (by linarith) (by linarith) (hθ.trans hθle)
  rw [hx.usedRate_eq] at hover
  rw [hx.usedCost_eq]
  linarith

/-- A fill of the cost in the falling order of costs has a threshold of cost as well. -/
theorem exists_cost_threshold (hproper : lp.Proper) {e : ℚ} (he : 0 ≤ e) {x : List ℚ}
    (hfill : lp.CostFilled p (lp.C - lp.forcedCost p) e x) :
    ∃ θ, 0 < θ ∧ 1 ≤ θ * (1 + (lp.types.map fun t => 1 / t.cost).sum) ∧ ∀ i ∈ lp.marginal p,
      lp.w i * ((θ - lp.c i) * entry x i + max 0 (lp.c i - θ)) ≤ e := by
  have hinverse : ∀ t ∈ lp.types, 0 ≤ 1 / t.cost :=
    fun t ht => div_nonneg zero_le_one (hproper.cost t ht)
  have hbound : ∀ i ∈ lp.marginal p, 1 / lp.c i ≤ (lp.types.map fun t => 1 / t.cost).sum :=
    fun i hi => le_sum_types (fun t => 1 / t.cost) hinverse hi (fun i => 1 / lp.c i)
      fun i t ht => by rw [c_eq ht]
  have hsum : 0 ≤ (lp.types.map fun t => 1 / t.cost).sum :=
    List.sum_nonneg fun y hy => by
      obtain ⟨t, ht, rfl⟩ := List.mem_map.mp hy
      exact hinverse t ht
  have hpositive : ∀ i ∈ lp.marginal p, e < lp.w i * lp.c i → 0 < lp.c i := by
    intro i hi hlarge
    refine lt_of_le_of_ne (hproper.w_nonneg hi).2 fun hzero => ?_
    rw [← hzero, mul_zero] at hlarge
    exact absurd hlarge (not_lt.mpr he)
  -- what takes next to nothing of the cost is left out
  have hskip : ∀ {θ : ℚ}, 0 < θ → ∀ i ∈ lp.marginal p, lp.w i * lp.c i ≤ e →
      lp.w i * ((θ - lp.c i) * entry x i + max 0 (lp.c i - θ)) ≤ e := by
    intro θ hθ i hi hsmall
    obtain ⟨hw, hc⟩ := hproper.w_nonneg hi
    rw [hfill.small_eq i hi hsmall, mul_zero, zero_add]
    exact (mul_le_mul_of_nonneg_left (max_le hc (by linarith)) hw).trans hsmall
  rcases hfill.whole_or_threshold with hall | ⟨-, k, hk, hlargek, hbelow, habove⟩
  · have hθ : 0 < 1 / (1 + (lp.types.map fun t => 1 / t.cost).sum) := by positivity
    refine ⟨_, hθ, ?_, fun i hi => ?_⟩
    · rw [one_div_mul_cancel (by positivity)]
    · rcases le_or_gt (lp.w i * lp.c i) e with hsmall | hlarge
      · exact hskip hθ i hi hsmall
      · have hle : 1 / (1 + (lp.types.map fun t => 1 / t.cost).sum) ≤ lp.c i := by
          rw [one_div_le (by positivity) (hpositive i hi hlarge)]
          linarith [hbound i hi]
        rw [hall i hi hlarge, mul_one, max_eq_right (by linarith), sub_add_sub_cancel, sub_self,
          mul_zero]
        exact he
  · have hθ := hpositive k hk hlargek
    refine ⟨lp.c k, hθ, ?_, fun i hi => ?_⟩
    · have hone : 1 = lp.c k * (1 / lp.c k) := (mul_one_div_cancel hθ.ne').symm
      refine hone.trans_le (mul_le_mul_of_nonneg_left ?_ hθ.le)
      linarith [hbound k hk]
    · rcases le_or_gt (lp.w i * lp.c i) e with hsmall | hlarge
      · exact hskip hθ i hi hsmall
      · rcases lt_trichotomy (lp.c i) (lp.c k) with hlt | heq | hgt
        · rw [habove i hi hlarge (neg_lt_neg hlt), mul_zero, max_eq_left (by linarith), add_zero,
            mul_zero]
          exact he
        · rw [heq, sub_self, zero_mul, max_self, add_zero, mul_zero]
          exact he
        · rw [hbelow i hi hlarge (neg_lt_neg hgt), mul_one, max_eq_right (by linarith),
            sub_add_sub_cancel, sub_self, mul_zero]
          exact he

/-- **A tight cost budget.** The fill uses it up and stays within the rate. -/
theorem AtRest.costFill (h : AtRest lp p) (hproper : lp.Proper) (htight : redTol < p.pC) {e : ℚ}
    (he : 0 ≤ e) {x : List ℚ} (hx : Sorts lp p x)
    (hfill : lp.CostFilled p (lp.C - lp.forcedCost p) e x) :
    lp.C - lp.types.length * e ≤ lp.used (fun t => t.weight * t.cost) x ∧
      lp.used (fun t => t.weight * t.cost) x ≤ lp.C + (lp.types.length + 1) * e ∧
      lp.used WorkloadType.weight x ≤ lp.R
        + (2 * lp.types.length + 1) * e * (1 + (lp.types.map fun t => 1 / t.cost).sum) := by
  obtain ⟨huses, hhigh⟩ := costFill_bounds hproper he hx hfill le_rfl
  rw [add_sub_cancel] at hhigh
  have hcard := card_marginal_mul_le lp p he
  have hlow : lp.C - lp.types.length * e ≤ lp.used (fun t => t.weight * t.cost) x := by
    rcases huses with hfull | hall
    · linarith [mul_nonneg (Nat.cast_nonneg (α := ℚ) lp.types.length) he]
    · have hterms : ((lp.marginal p).map fun i => lp.w i * lp.c i).sum
          ≤ ((lp.marginal p).map fun i => lp.w i * lp.c i * entry x i + e).sum := by
        refine List.sum_le_sum fun i hi => ?_
        rcases le_or_gt (lp.w i * lp.c i) e with hsmall | hlarge
        · rw [hfill.small_eq i hi hsmall, mul_zero, zero_add]
          exact hsmall
        · rw [hall i hi hlarge, mul_one]
          linarith
      rw [List.sum_map_add, List.map_const', List.sum_replicate, nsmul_eq_mul] at hterms
      rw [hx.usedCost_eq]
      linarith [h.cost_le hproper htight]
  refine ⟨hlow, hhigh, ?_⟩
  obtain ⟨θ, hθ, hθle, hterm⟩ := exists_cost_threshold hproper he hfill
  have hdir := h θ (-1) (.inr hθ.le) (.inl htight)
  rw [Steady] at hdir
  have hsum : θ * ((lp.marginal p).map fun i => lp.w i * entry x i).sum
      + (-1 * ((lp.marginal p).map fun i => lp.w i * lp.c i * entry x i).sum
        + ((lp.marginal p).map fun i => lp.w i * max 0 (-(θ + -1 * lp.c i))).sum)
      ≤ (lp.marginal p).length * e := by
    rw [← List.sum_map_mul_left, ← List.sum_map_mul_left, ← List.sum_map_add, ← List.sum_map_add,
      ← nsmul_eq_mul, ← List.sum_replicate, ← List.map_const']
    refine List.sum_le_sum fun i hi => le_trans (le_of_eq ?_) (hterm i hi)
    rw [show -(θ + -1 * lp.c i) = lp.c i - θ by ring]
    ring
  have hover : θ * (lp.used WorkloadType.weight x - lp.R) ≤ (2 * lp.types.length + 1) * e := by
    rw [hx.usedCost_eq] at hhigh
    rw [hx.usedRate_eq]
    linarith
  have hinverse : 0 ≤ 1 + (lp.types.map fun t => 1 / t.cost).sum :=
    ((mul_pos_iff_of_pos_left hθ).mp (lt_of_lt_of_le zero_lt_one hθle)).le
  have hscaled := mul_le_mul_of_nonneg_right hover hinverse
  rcases le_total (lp.used WorkloadType.weight x) lp.R with hle | hle
  · have hnonneg : 0 ≤ (2 * (lp.types.length : ℚ) + 1) * e
        * (1 + (lp.types.map fun t => 1 / t.cost).sum) :=
      mul_nonneg (mul_nonneg (by positivity) he) hinverse
    linarith
  · have hself := le_mul_of_one_le_left (sub_nonneg.mpr hle) hθle
    linarith

/-! ### Both budgets tight -/

/-- A list is a pair of its entries and the others. -/
theorem perm_pair_others {L : List (ℕ × ℕ)} (hL : (L.map Prod.snd).Nodup) {u v : ℕ × ℕ}
    (h : (u, v) ∈ pairs L) :
    L.Perm (u :: v :: L.filter fun o => o.2 ≠ u.2 && o.2 ≠ v.2) := by
  obtain ⟨hu, hv⟩ := mem_of_mem_pairs h
  have hinj := List.inj_on_of_nodup_map hL
  have hne : u.2 ≠ v.2 := rel_of_mem_pairs (List.pairwise_map.mp hL) h
  have hmem : ∀ o, o ∈ (L.filter fun o => o.2 ≠ u.2 && o.2 ≠ v.2) ↔
      o ∈ L ∧ o.2 ≠ u.2 ∧ o.2 ≠ v.2 := by
    intro o
    rw [List.mem_filter, Bool.and_eq_true, decide_eq_true_iff, decide_eq_true_iff]
  refine (List.perm_ext_iff_of_nodup (List.Nodup.of_map _ hL) ?_).mpr fun o => ?_
  · refine List.nodup_cons.mpr ⟨fun hin => ?_, List.nodup_cons.mpr ⟨fun hin => ?_, ?_⟩⟩
    · rcases List.mem_cons.mp hin with heq | hin
      · exact hne (congrArg Prod.snd heq)
      · exact ((hmem u).mp hin).2.1 rfl
    · exact ((hmem v).mp hin).2.2 rfl
    · exact (List.Nodup.of_map _ hL).filter _
  · rw [List.mem_cons, List.mem_cons, hmem]
    constructor
    · intro ho
      by_cases hou : o.2 = u.2
      · exact .inl (hinj ho hu hou)
      · by_cases hov : o.2 = v.2
        · exact .inr (.inl (hinj ho hv hov))
        · exact .inr (.inr ⟨ho, hou, hov⟩)
    · rintro (rfl | rfl | ⟨ho, -⟩)
      · exact hu
      · exact hv
      · exact ho

/-- Writing entries by pairs of an index and what the value comes from. -/
theorem foldl_set_pairs (f : ℕ → ℚ) (L : List (ℕ × ℕ)) (x : List ℚ)
    (hnodup : (L.map Prod.fst).Nodup) (hlt : ∀ o ∈ L, o.1 < x.length) :
    (L.foldl (fun x o => x.set o.1 (f o.2)) x).length = x.length ∧
      (∀ o ∈ L, entry (L.foldl (fun x o => x.set o.1 (f o.2)) x) o.1 = f o.2) ∧
      ∀ j, j ∉ L.map Prod.fst → entry (L.foldl (fun x o => x.set o.1 (f o.2)) x) j = entry x j := by
  induction L generalizing x with
  | nil => exact ⟨rfl, fun o ho => absurd ho List.not_mem_nil, fun _ _ => rfl⟩
  | cons o L ih =>
    rw [List.map_cons, List.nodup_cons] at hnodup
    obtain ⟨ho, hlt⟩ := List.forall_mem_cons.mp hlt
    obtain ⟨hlength, hwritten, hkept⟩ := ih (x.set o.1 (f o.2)) hnodup.2 (by simpa using hlt)
    rw [List.foldl_cons]
    refine ⟨hlength.trans List.length_set, List.forall_mem_cons.mpr ⟨?_, hwritten⟩, fun j hj => ?_⟩
    · rw [hkept o.1 hnodup.1, entry_set x ho, if_pos rfl]
    · rw [List.map_cons, List.mem_cons, not_or] at hj
      rw [hkept j hj.2, entry_set x ho, if_neg hj.1]

theorem abs_clamp_sub_le {y : ℚ} (hlow : -eps ≤ y) (hhigh : y ≤ 1 + eps) :
    |max 0 (min 1 y) - y| ≤ eps := by
  have heps := eps_pos
  rcases le_total y 1 with hone | hone
  · rw [min_eq_right hone]
    rcases le_total 0 y with hzero | hzero
    · rw [max_eq_right hzero, sub_self, abs_zero]
      exact heps.le
    · rw [max_eq_left hzero, zero_sub, abs_neg, abs_of_nonpos hzero]
      linarith
  · rw [min_eq_left hone, max_eq_right zero_le_one, abs_of_nonpos (by linarith)]
    linarith

theorem clamp_unit (y : ℚ) : 0 ≤ max 0 (min 1 y) ∧ max 0 (min 1 y) ≤ 1 :=
  ⟨le_max_left _ _, max_le zero_le_one (min_le_left _ _)⟩

/-- The fractions that solve for both budgets. -/
theorem solves_split {wa wb ca cb r k : ℚ} (hdet : wa * (wb * cb) - wb * (wa * ca) ≠ 0) :
    wa * ((r * (wb * cb) - wb * k) / (wa * (wb * cb) - wb * (wa * ca)))
        + wb * ((wa * k - r * (wa * ca)) / (wa * (wb * cb) - wb * (wa * ca))) = r ∧
      wa * ca * ((r * (wb * cb) - wb * k) / (wa * (wb * cb) - wb * (wa * ca)))
        + wb * cb * ((wa * k - r * (wa * ca)) / (wa * (wb * cb) - wb * (wa * ca))) = k := by
  constructor
  · rw [← mul_div_assoc, ← mul_div_assoc, ← add_div, div_eq_iff hdet]
    ring
  · rw [← mul_div_assoc, ← mul_div_assoc, ← add_div, div_eq_iff hdet]
    ring

/-- What a split leaves: the fractions of two archetypes, and the others wholly or not at all. -/
theorem splitPair_spec {x x' : List ℚ} {a b mask : ℕ} {others : List ℕ} {remR remC : ℚ}
    (h : lp.splitPair x a b others remR remC mask = some x')
    (hdet : lp.w a * (lp.w b * lp.c b) - lp.w b * (lp.w a * lp.c a) ≠ 0)
    (hnodup : (a :: b :: others).Nodup) (hlt : ∀ i ∈ a :: b :: others, i < x.length) :
    x'.length = x.length ∧ (∀ i, i ∉ a :: b :: others → entry x' i = entry x i) ∧
      (∀ i ∈ a :: b :: others, 0 ≤ entry x' i ∧ entry x' i ≤ 1) ∧
      ∃ ya yb, |entry x' a - ya| ≤ eps ∧ |entry x' b - yb| ≤ eps ∧
        lp.w a * ya + lp.w b * yb + (others.map fun i => lp.w i * entry x' i).sum = remR ∧
        lp.w a * lp.c a * ya + lp.w b * lp.c b * yb
          + (others.map fun i => lp.w i * lp.c i * entry x' i).sum = remC := by
  obtain ⟨hab, hnodup⟩ := List.nodup_cons.mp hnodup
  obtain ⟨hb, hnodup⟩ := List.nodup_cons.mp hnodup
  obtain ⟨hlta, hlt⟩ := List.forall_mem_cons.mp hlt
  obtain ⟨hltb, hlt⟩ := List.forall_mem_cons.mp hlt
  rw [List.mem_cons, not_or] at hab
  obtain ⟨hne, ha⟩ := hab
  rw [splitPair] at h
  obtain ⟨hrate, hcost⟩ := solves_split (r := remR - ((chosen others mask).map lp.w).sum)
    (k := remC - ((chosen others mask).map fun i => lp.w i * lp.c i).sum) hdet
  -- the two fractions, before they are cut off at zero and one
  generalize (_ : ℚ) / _ = ya at h hrate hcost
  generalize (_ : ℚ) / _ = yb at h hrate hcost
  dsimp only at h
  split at h
  · rename_i hrange
    obtain ⟨halow, hahigh, hblow, hbhigh⟩ := hrange
    obtain ⟨hlength, hwritten, hkept⟩ := foldl_set_pairs (fun k => if mask.testBit k then 1 else 0)
      others.zipIdx ((x.set a (max 0 (min 1 ya))).set b (max 0 (min 1 yb)))
      (by rwa [List.zipIdx_map_fst]) (fun o ho => by
        rw [List.length_set, List.length_set]
        refine hlt o.1 ?_
        rw [← List.zipIdx_map_fst 0 others]
        exact List.mem_map_of_mem ho)
    rw [Option.some.inj h, List.length_set, List.length_set] at hlength
    rw [Option.some.inj h] at hwritten hkept
    rw [List.zipIdx_map_fst] at hkept
    have hea : entry x' a = max 0 (min 1 ya) := by
      rw [hkept a ha, entry_set _ (by rwa [List.length_set]), if_neg hne, entry_set x hlta,
        if_pos rfl]
    have heb : entry x' b = max 0 (min 1 yb) := by
      rw [hkept b hb, entry_set _ (by rwa [List.length_set]), if_pos rfl]
    -- what the others take is what the chosen of them take
    have hothers : ∀ g : ℕ → ℚ, (others.map fun i => g i * entry x' i).sum
        = ((chosen others mask).map g).sum := by
      intro g
      have hindices : (others.map fun i => g i * entry x' i)
          = others.zipIdx.map fun o => g o.1 * entry x' o.1 := by
        conv_lhs => rw [(List.zipIdx_map_fst 0 others).symm, List.map_map]
        rfl
      rw [hindices, chosen, List.map_map, sum_map_filter]
      refine congrArg List.sum (List.map_congr_left fun o ho => ?_)
      rw [hwritten o ho, mul_ite, mul_one, mul_zero]
      rfl
    refine ⟨hlength, fun i hi => ?_, ?_, ya, yb, ?_, ?_, ?_, ?_⟩
    · rw [List.mem_cons, List.mem_cons, not_or, not_or] at hi
      obtain ⟨hia, hib, hi⟩ := hi
      rw [hkept i hi, entry_set _ (by rwa [List.length_set]), if_neg hib, entry_set x hlta,
        if_neg hia]
    · refine List.forall_mem_cons.mpr ⟨hea ▸ clamp_unit ya, List.forall_mem_cons.mpr
        ⟨heb ▸ clamp_unit yb, fun i hi => ?_⟩⟩
      rw [← List.zipIdx_map_fst 0 others] at hi
      obtain ⟨o, ho, rfl⟩ := List.mem_map.mp hi
      rw [hwritten o ho]
      split
      · exact ⟨zero_le_one, le_rfl⟩
      · exact ⟨le_rfl, zero_le_one⟩
    · rw [hea]
      exact abs_clamp_sub_le halow hahigh
    · rw [heb]
      exact abs_clamp_sub_le hblow hbhigh
    · rw [hothers, hrate, sub_add_cancel]
    · rw [hothers (fun i => lp.w i * lp.c i), hcost, sub_add_cancel]
  · cases h

/-- Two fractions that are nearly solutions nearly use the budget up. -/
theorem abs_sum_sub_le {g : ℕ → ℚ} {f : WorkloadType → ℚ} {x : List ℚ} {a b : ℕ} {others : List ℕ}
    {rem ya yb : ℚ} (hg : ∀ i t, lp.types[i]? = some t → g i = f t) (hf : ∀ t ∈ lp.types, 0 ≤ f t)
    (hperm : (lp.marginal p).Perm (a :: b :: others)) (ha : |entry x a - ya| ≤ eps)
    (hb : |entry x b - yb| ≤ eps)
    (hrem : g a * ya + g b * yb + (others.map fun i => g i * entry x i).sum = rem) :
    |((lp.marginal p).map fun i => g i * entry x i).sum - rem| ≤ eps * (lp.types.map f).sum := by
  have hnonneg : ∀ i ∈ lp.marginal p, 0 ≤ g i := by
    intro i hi
    obtain ⟨t, ht, -⟩ := mem_marginal.mp hi
    rw [hg i t ht]
    exact hf t (List.mem_of_getElem? ht)
  have hga := hnonneg a (hperm.mem_iff.mpr List.mem_cons_self)
  have hgb := hnonneg b (hperm.mem_iff.mpr (List.mem_cons_of_mem _ List.mem_cons_self))
  have hpart : g a + g b ≤ (lp.types.map f).sum := by
    have hall := sum_marginal_le (p := p) g f hg hf
    rw [(hperm.map g).sum_eq, List.map_cons, List.map_cons, List.sum_cons, List.sum_cons] at hall
    have hothers : 0 ≤ (others.map g).sum := List.sum_nonneg fun y hy => by
      obtain ⟨i, hi, rfl⟩ := List.mem_map.mp hy
      exact hnonneg i
        (hperm.mem_iff.mpr (List.mem_cons_of_mem _ (List.mem_cons_of_mem _ hi)))
    linarith
  have hdiff : ((lp.marginal p).map fun i => g i * entry x i).sum - rem
      = g a * (entry x a - ya) + g b * (entry x b - yb) := by
    rw [(hperm.map fun i => g i * entry x i).sum_eq, List.map_cons, List.map_cons, List.sum_cons,
      List.sum_cons, ← hrem]
    ring
  have hsumle : |g a * (entry x a - ya) + g b * (entry x b - yb)| ≤ g a * eps + g b * eps := by
    refine (abs_add_le _ _).trans (add_le_add ?_ ?_)
    · rw [abs_mul, abs_of_nonneg hga]
      exact mul_le_mul_of_nonneg_left ha hga
    · rw [abs_mul, abs_of_nonneg hgb]
      exact mul_le_mul_of_nonneg_left hb hgb
  rw [hdiff]
  refine hsumle.trans ?_
  rw [← add_mul, mul_comm]
  exact mul_le_mul_of_nonneg_left hpart eps_pos.le

/-- **A split that is found** uses both budgets up. -/
theorem fillBothTight?_spec (hproper : lp.Proper) {remR remC : ℚ} {x : List ℚ}
    (h : lp.fillBothTight? (lp.forcedIn p) (lp.marginal p) remR remC = some x) :
    Sorts lp p x ∧
      |((lp.marginal p).map fun i => lp.w i * entry x i).sum - remR|
        ≤ eps * (lp.types.map WorkloadType.weight).sum ∧
      |((lp.marginal p).map fun i => lp.w i * lp.c i * entry x i).sum - remC|
        ≤ eps * (lp.types.map fun t => t.weight * t.cost).sum := by
  rw [fillBothTight?] at h
  obtain ⟨⟨u, v⟩, huv, h⟩ := List.exists_of_findSome?_eq_some h
  dsimp only at h
  split at h
  · cases h
  · rename_i hdet
    obtain ⟨mask, -, h⟩ := List.exists_of_findSome?_eq_some h
    have hne : lp.w u.1 * (lp.w v.1 * lp.c v.1) - lp.w v.1 * (lp.w u.1 * lp.c u.1) ≠ 0 := by
      intro hzero
      rw [hzero, abs_zero] at hdet
      exact hdet eps_pos.le
    have hplaces : ((lp.marginal p).zipIdx.map Prod.snd).Nodup := by
      rw [List.zipIdx_map_snd]
      exact List.nodup_range'
    have hperm := (perm_pair_others hplaces huv).map Prod.fst
    rw [List.zipIdx_map_fst, List.map_cons, List.map_cons] at hperm
    have hlt : ∀ i ∈ u.1 :: v.1 :: _, i < (lp.forcedIn p).length := fun i hi => by
      rw [length_forcedIn]
      exact lt_of_mem_marginal (hperm.mem_iff.mpr hi)
    obtain ⟨hlength, hkept, hunit, ya, yb, ha, hb, hrate, hcost⟩ := splitPair_spec h hne
      (hperm.nodup_iff.mp nodup_marginal) hlt
    refine ⟨sorts_of_marginal (hlength.trans length_forcedIn)
      (fun i hi => hkept i fun hmem => hi (hperm.mem_iff.mpr hmem))
      (fun i hi => hunit i (hperm.mem_iff.mp hi)), ?_, ?_⟩
    · exact abs_sum_sub_le (fun _ _ => w_eq) hproper.weight hperm ha hb hrate
    · exact abs_sum_sub_le (g := fun i => lp.w i * lp.c i) (fun _ _ => w_mul_c_eq)
        hproper.spent_nonneg hperm ha hb hcost

theorem isSome_splitPair {x : List ℚ} {a b mask : ℕ} {others : List ℕ} {remR remC : ℚ} :
    (lp.splitPair x a b others remR remC mask).isSome ↔
      PairHits lp a b others remR remC mask := by
  rw [splitPair, PairHits]
  dsimp only
  split
  · exact iff_of_true rfl ‹_›
  · exact iff_of_false Bool.false_ne_true ‹_›

/-- The search finds a split if there is one. -/
theorem isSome_fillBothTight? {x : List ℚ} {M : List ℕ} {remR remC : ℚ} :
    (lp.fillBothTight? x M remR remC).isSome ↔ lp.Hits M remR remC := by
  rw [fillBothTight?, Hits, List.findSome?_isSome_iff]
  refine exists_congr fun ab => and_congr_right fun _ => ?_
  dsimp only
  split
  · rename_i hdet
    exact iff_of_false Bool.false_ne_true fun h => absurd h.1 (not_lt.mpr hdet)
  · rename_i hdet
    rw [and_iff_right (not_le.mp hdet), List.findSome?_isSome_iff]
    refine exists_congr fun mask => and_congr ?_ isSome_splitPair
    rw [List.mem_range]

/-- Where no split is found, everything on the bid lines is admitted. -/
theorem sorts_all (lp : TwoBudget) (p : Prices) :
    Sorts lp p ((lp.marginal p).foldl (fun x i => x.set i 1) (lp.forcedIn p)) ∧
      ∀ i ∈ lp.marginal p,
        entry ((lp.marginal p).foldl (fun x i => x.set i 1) (lp.forcedIn p)) i = 1 := by
  have hlt : ∀ i ∈ lp.marginal p, i < (lp.forcedIn p).length := fun i hi => by
    rw [length_forcedIn]
    exact lt_of_mem_marginal hi
  have hentry := entry_foldl_set (fun _ => (1 : ℚ)) (lp.marginal p) (lp.forcedIn p) hlt
  have hones : ∀ i ∈ lp.marginal p,
      entry ((lp.marginal p).foldl (fun x i => x.set i 1) (lp.forcedIn p)) i = 1 :=
    fun i hi => (hentry i).trans (if_pos hi)
  refine ⟨sorts_of_marginal ((length_foldl_set _ _ _).trans length_forcedIn)
    (fun i hi => (hentry i).trans (if_neg hi)) fun i hi => ?_, hones⟩
  rw [hones i hi]
  exact ⟨zero_le_one, le_rfl⟩

/-! ### The plan -/

/-- What the tolerance covers. -/
theorem Proper.slop_spec (h : lp.Proper) :
    0 ≤ lp.slop ∧ (lp.types.length + 1) * eps ≤ lp.slop ∧
      (lp.types.length + 2) * eps * (lp.types.map WorkloadType.cost).sum ≤ lp.slop ∧
      (2 * lp.types.length + 1) * eps * (1 + (lp.types.map fun t => 1 / t.cost).sum) ≤ lp.slop ∧
      eps * (lp.types.map WorkloadType.weight).sum ≤ lp.slop ∧
      eps * (lp.types.map fun t => t.weight * t.cost).sum ≤ lp.slop := by
  have hnonneg : ∀ f : WorkloadType → ℚ, (∀ t ∈ lp.types, 0 ≤ f t) → 0 ≤ (lp.types.map f).sum :=
    fun f hf => List.sum_nonneg fun y hy => by
      obtain ⟨t, ht, rfl⟩ := List.mem_map.mp hy
      exact hf t ht
  have hweight := hnonneg _ h.weight
  have hspent := hnonneg _ h.spent_nonneg
  have hcost := hnonneg _ h.cost
  have hinverse := hnonneg (fun t => 1 / t.cost) fun t ht => div_nonneg zero_le_one (h.cost t ht)
  have hn : (0 : ℚ) ≤ lp.types.length := Nat.cast_nonneg _
  rw [slop, List.sum_map_add, List.sum_map_add, List.sum_map_add]
  generalize (lp.types.map WorkloadType.weight).sum = sw at *
  generalize (lp.types.map fun t => t.weight * t.cost).sum = ss at *
  generalize (lp.types.map WorkloadType.cost).sum = sc at *
  generalize (lp.types.map fun t => 1 / t.cost).sum = si at *
  generalize (lp.types.length : ℚ) = n at *
  -- each bound is a product of a part of the count and a part of the sums
  have hpart : ∀ {m q : ℚ}, 0 ≤ m → m ≤ 2 * n + 2 → 0 ≤ q → q ≤ 1 + (sw + ss + sc + si) →
      m * eps * q ≤ eps * (2 * n + 2) * (1 + (sw + ss + sc + si)) := by
    intro m q hm hmn hq hqs
    rw [mul_comm m]
    exact mul_le_mul (mul_le_mul_of_nonneg_left hmn eps_pos.le) hqs hq
      (mul_nonneg eps_pos.le (by linarith))
  refine ⟨?_, ?_, ?_, ?_, ?_, ?_⟩
  · exact mul_nonneg (mul_nonneg eps_pos.le (by linarith)) (by linarith)
  · have hone := hpart (m := n + 1) (q := 1) (by linarith) (by linarith) zero_le_one (by linarith)
    rwa [mul_one] at hone
  · exact hpart (by linarith) (by linarith) hcost (by linarith)
  · exact hpart (by linarith) (by linarith) (by linarith) (by linarith)
  · have hone := hpart (m := 1) (q := sw) zero_le_one (by linarith) hweight (by linarith)
    rwa [one_mul] at hone
  · have hone := hpart (m := 1) (q := ss) zero_le_one (by linarith) hspent (by linarith)
    rwa [one_mul] at hone

/-- A price and what is left of its budget: it is used up, or next to nothing. -/
theorem le_price_mul_sub {price budget use slop : ℚ} (hprice : 0 ≤ price) (hbudget : 0 ≤ budget)
    (hslop : 0 ≤ slop) (huse : 0 ≤ use) (hge : budget - slop ≤ use ∨ price ≤ redTol) :
    -(price * slop + redTol * budget) ≤ price * (use - budget) := by
  have hbudget' := mul_nonneg redTol_pos.le hbudget
  rcases hge with hge | hsmall
  · have hlow : price * -slop ≤ price * (use - budget) :=
      mul_le_mul_of_nonneg_left (by linarith) hprice
    linarith
  · have hlow : price * -budget ≤ price * (use - budget) :=
      mul_le_mul_of_nonneg_left (by linarith) hprice
    have hpart : price * budget ≤ redTol * budget := mul_le_mul_of_nonneg_right hsmall hbudget
    have hslack := mul_nonneg hprice hslop
    linarith

theorem used_nonneg {x : List ℚ} (hx : Sorts lp p x) {f : WorkloadType → ℚ}
    (hf : ∀ t ∈ lp.types, 0 ≤ f t) : 0 ≤ lp.used f x := by
  refine List.sum_nonneg fun y hy => ?_
  obtain ⟨t, ht, rfl⟩ := List.mem_map.mp hy
  have hget := List.mem_zipIdx_iff_getElem?.mp ht
  exact mul_nonneg (hf t.1 (List.mem_of_getElem? hget)) (hx.entry_unit hget).1

/-- What is forced in is part of what the plan takes. -/
theorem Sorts.forced_le {x : List ℚ} (hx : Sorts lp p x) (hproper : lp.Proper) :
    lp.forcedRate p ≤ lp.used WorkloadType.weight x ∧
      lp.forcedCost p ≤ lp.used (fun t => t.weight * t.cost) x := by
  rw [hx.usedRate_eq, hx.usedCost_eq]
  constructor
  · refine le_add_of_nonneg_right (List.sum_nonneg fun y hy => ?_)
    obtain ⟨i, hi, rfl⟩ := List.mem_map.mp hy
    exact mul_nonneg (hproper.w_nonneg hi).1 (hx.unit i hi).1
  · refine le_add_of_nonneg_right (List.sum_nonneg fun y hy => ?_)
    obtain ⟨i, hi, rfl⟩ := List.mem_map.mp hy
    exact mul_nonneg (hproper.taken_nonneg hi).2 (hx.unit i hi).1

/-- Prices that are not negative, nor large. -/
structure Bounded (lp : TwoBudget) (p : Prices) : Prop where
  rate : 0 ≤ p.pR
  cost : 0 ≤ p.pC
  sum_le : p.pR + p.pC ≤ lp.priceBound

/-- Prices that do nearly as well as none. -/
theorem Proper.bounded (h : lp.Proper) (hR : 0 ≤ p.pR) (hC : 0 ≤ p.pC)
    (hle : lp.dualObjective p ≤ lp.dualObjective ⟨0, 0⟩ + redTol) : Bounded lp p := by
  have hbudgets := (lp.budgets_le_dualObjective h.weight p).trans hle
  have hrate : p.pR ≤ (lp.dualObjective ⟨0, 0⟩ + redTol) / lp.R := by
    rw [le_div_iff₀ h.rateBudget, mul_comm]
    linarith [mul_nonneg h.costBudget.le hC]
  have hcost : p.pC ≤ (lp.dualObjective ⟨0, 0⟩ + redTol) / lp.C := by
    rw [le_div_iff₀ h.costBudget, mul_comm]
    linarith [mul_nonneg h.rateBudget.le hR]
  refine ⟨hR, hC, ?_⟩
  rw [priceBound, mul_add, mul_one_div, mul_one_div]
  exact add_le_add hrate hcost

theorem Optimal.bounded (h : Optimal lp p) (hproper : lp.Proper) : Bounded lp p :=
  hproper.bounded h.rate h.cost
    ((h.le ⟨0, 0⟩ le_rfl le_rfl).trans (le_add_of_nonneg_right redTol_pos.le))

theorem prices_bounded (hproper : lp.Proper) : Bounded lp lp.prices := by
  obtain ⟨hmem, hnear⟩ := prices_spec lp
  obtain ⟨hR, hC⟩ := nonneg_of_mem_feasible hmem
  refine hproper.bounded hR hC (hnear.trans ?_)
  have horigin : lp.minD ≤ lp.dualObjective ⟨0, 0⟩ := leastFrom_map_le _ _ List.mem_cons_self
  linarith

theorem exists_optimal (hproper : lp.Proper) : ∃ q, Optimal lp q := by
  obtain ⟨q, hR, hC, hle⟩ := lp.exists_least hproper.rateBudget.le hproper.costBudget.le
    hproper.weight
  exact ⟨q, hR, hC, hle⟩

/-- What the tolerance of the worth covers. -/
theorem Bounded.mul_slop_le (h : Bounded lp p) (hproper : lp.Proper) :
    0 ≤ p.pR * lp.slop ∧ 0 ≤ p.pC * lp.slop ∧
      p.pR * lp.slop + p.pC * lp.slop ≤ lp.priceBound * lp.slop := by
  have hslop := hproper.slop_spec.1
  refine ⟨mul_nonneg h.rate hslop, mul_nonneg h.cost hslop, ?_⟩
  rw [← add_mul]
  exact mul_le_mul_of_nonneg_right h.sum_le hslop

theorem Proper.priceTol_spec (h : lp.Proper) :
    0 ≤ redTol * lp.R ∧ 0 ≤ redTol * lp.C ∧
      0 ≤ redTol * (lp.types.map WorkloadType.weight).sum ∧
      lp.priceTol = redTol * lp.R + redTol * lp.C
        + redTol * (lp.types.map WorkloadType.weight).sum := by
  have hweights : 0 ≤ (lp.types.map WorkloadType.weight).sum := List.sum_nonneg fun y hy => by
    obtain ⟨t, ht, rfl⟩ := List.mem_map.mp hy
    exact h.weight t ht
  refine ⟨mul_nonneg redTol_pos.le h.rateBudget.le, mul_nonneg redTol_pos.le h.costBudget.le,
    mul_nonneg redTol_pos.le hweights, ?_⟩
  rw [priceTol, mul_add, mul_add]

/-- A plan that keeps to the budgets and is worth no less than the dual. It is worth no more either,
by weak duality. -/
theorem Sorts.planOk {x : List ℚ} (hx : Sorts lp p x) (hproper : lp.Proper)
    (hrate : lp.used WorkloadType.weight x ≤ lp.R + lp.slop)
    (hcost : lp.used (fun t => t.weight * t.cost) x ≤ lp.C + lp.slop)
    (hworth : ∃ q, Optimal lp q ∧ lp.dualObjective q ≤ lp.objective x + lp.worthTol) :
    PlanOk lp ⟨⟨p.pR, p.pC, none⟩, x, lp.objective x⟩ := by
  obtain ⟨q, hq, hle⟩ := hworth
  refine ⟨hx.length, fun y hy => ?_, hrate, hcost, q, hq, abs_le.mpr ⟨?_, ?_⟩⟩
  · obtain ⟨i, hi, rfl⟩ := List.mem_iff_getElem.mp hy
    have hget : lp.types[i]? = some (lp.types.get ⟨i, hx.length ▸ hi⟩) :=
      List.getElem?_eq_getElem _
    have hunit := hx.entry_unit hget
    rwa [entry, List.getD_eq_getElem _ _ hi] at hunit
  · dsimp only
    linarith
  · have hdual := objective_le hproper (fun _ _ => hx.entry_unit) q
    have hgapR := mul_le_mul_of_nonneg_left (sub_le_iff_le_add'.mpr hrate) hq.rate
    have hgapC := mul_le_mul_of_nonneg_left (sub_le_iff_le_add'.mpr hcost) hq.cost
    obtain ⟨hnonnegR, hnonnegC, hslops⟩ := (hq.bounded hproper).mul_slop_le hproper
    obtain ⟨hR, hC, hW, htol⟩ := hproper.priceTol_spec
    rw [worthTol]
    dsimp only
    linarith

/-- A plan that uses the tight budgets up is worth the dual of its prices. -/
theorem Sorts.worth_of_used {x : List ℚ} (hx : Sorts lp p x) (hproper : lp.Proper)
    (hp : Bounded lp p) (hrate : lp.R - lp.slop ≤ lp.used WorkloadType.weight x ∨ p.pR ≤ redTol)
    (hcost : lp.C - lp.slop ≤ lp.used (fun t => t.weight * t.cost) x ∨ p.pC ≤ redTol) :
    ∃ q, Optimal lp q ∧ lp.dualObjective q ≤ lp.objective x + lp.worthTol := by
  obtain ⟨q, hq⟩ := exists_optimal hproper
  have hslop := hproper.slop_spec.1
  have hworth := (abs_le.mp (hx.abs_objective_sub_le hproper)).1
  have hgapR := le_price_mul_sub hp.rate hproper.rateBudget.le hslop
    (used_nonneg hx hproper.weight) hrate
  have hgapC := le_price_mul_sub hp.cost hproper.costBudget.le hslop
    (used_nonneg hx hproper.spent_nonneg) hcost
  obtain ⟨hnonnegR, hnonnegC, hslops⟩ := hp.mul_slop_le hproper
  obtain ⟨hR, hC, hW, htol⟩ := hproper.priceTol_spec
  refine ⟨q, hq, (hq.le p hp.rate hp.cost).trans ?_⟩
  rw [worthTol]
  linarith

/-- What one plan by the prices is worth, by what another is. -/
theorem Sorts.objective_le_of {x x' : List ℚ} (hx : Sorts lp p x) (hx' : Sorts lp p x')
    (hproper : lp.Proper) :
    lp.objective x' ≤ lp.objective x
      + p.pR * (lp.used WorkloadType.weight x' - lp.used WorkloadType.weight x)
      + p.pC * (lp.used (fun t => t.weight * t.cost) x' - lp.used (fun t => t.weight * t.cost) x)
      + 2 * (redTol * (lp.types.map WorkloadType.weight).sum) := by
  have hlow := (abs_le.mp (hx.abs_objective_sub_le hproper)).1
  have hhigh := (abs_le.mp (hx'.abs_objective_sub_le hproper)).2
  linarith

/-- Without an archetype on its bid line there is nothing to fill. -/
theorem fillMarginal_eq (x : List ℚ) (M : List ℕ) (remR remC : ℚ) (rateTight costTight : Bool) :
    lp.fillMarginal x M remR remC rateTight costTight = match rateTight, costTight with
      | false, false => x
      | true, false =>
        ((M.insertionSort fun a b => lp.c a ≤ lp.c b).foldl (lp.fillRate remR) (x, 0)).1
      | false, true =>
        ((M.insertionSort fun a b => lp.c b ≤ lp.c a).foldl (lp.fillCost remC) (x, 0)).1
      | true, true => lp.fillBothTight x M remR remC := by
  unfold fillMarginal
  split
  · rename_i hnil
    rw [hnil]
    rcases rateTight with _ | _ <;> rcases costTight with _ | _ <;> rfl
  · rfl

/-- Sorted by a key, up or down. -/
theorem pairwise_insertionSort_key (key : ℕ → ℚ) (l : List ℕ) :
    (l.insertionSort fun a b => key a ≤ key b).Pairwise fun i j => key i ≤ key j := by
  have htotal : Std.Total fun a b => key a ≤ key b := ⟨fun a b => le_total (key a) (key b)⟩
  have htrans : IsTrans ℕ fun a b => key a ≤ key b := ⟨fun _ _ _ => le_trans⟩
  exact List.pairwise_insertionSort _ l

theorem pairwise_insertionSort_key_desc (key : ℕ → ℚ) (l : List ℕ) :
    (l.insertionSort fun a b => key b ≤ key a).Pairwise fun i j => -key i ≤ -key j := by
  have htotal : Std.Total fun a b => key b ≤ key a := ⟨fun a b => le_total (key b) (key a)⟩
  have htrans : IsTrans ℕ fun a b => key b ≤ key a := ⟨fun _ _ _ hab hbc => hbc.trans hab⟩
  exact (List.pairwise_insertionSort _ l).imp neg_le_neg

/-- What the fill leaves of the archetypes on their bid lines. -/
inductive Filling (lp : TwoBudget) (p : Prices) (x : List ℚ) : Prop
  | loose (hR : p.pR ≤ redTol) (hC : p.pC ≤ redTol) (hnone : ∀ i ∈ lp.marginal p, entry x i = 0)
  | rate (hR : redTol < p.pR) (hC : p.pC ≤ redTol)
      (hfill : lp.RateFilled p (max 0 (lp.R - lp.forcedRate p)) eps x)
  | cost (hR : p.pR ≤ redTol) (hC : redTol < p.pC)
      (hfill : lp.CostFilled p (max 0 (lp.C - lp.forcedCost p)) eps x)
  | split (hR : redTol < p.pR) (hC : redTol < p.pC)
      (hhits : lp.Hits (lp.marginal p) (max 0 (lp.R - lp.forcedRate p))
        (max 0 (lp.C - lp.forcedCost p)))
      (hrate : |((lp.marginal p).map fun i => lp.w i * entry x i).sum
        - max 0 (lp.R - lp.forcedRate p)| ≤ eps * (lp.types.map WorkloadType.weight).sum)
      (hcost : |((lp.marginal p).map fun i => lp.w i * lp.c i * entry x i).sum
        - max 0 (lp.C - lp.forcedCost p)| ≤ eps * (lp.types.map fun t => t.weight * t.cost).sum)
  | all (hR : redTol < p.pR) (hC : redTol < p.pC)
      (hmiss : ¬ lp.Hits (lp.marginal p) (max 0 (lp.R - lp.forcedRate p))
        (max 0 (lp.C - lp.forcedCost p)))
      (hall : ∀ i ∈ lp.marginal p, entry x i = 1)

/-- **The plan of the solver**, by which budgets are tight. -/
theorem admitFractions_spec (hproper : lp.Proper) (p : Prices) :
    Sorts lp p (lp.admitFractions p) ∧ Filling lp p (lp.admitFractions p) := by
  have hlt : ∀ {l : List ℕ}, l.Perm (lp.marginal p) → ∀ i ∈ l, i < (lp.forcedIn p).length :=
    fun hperm i hi => by
      rw [length_forcedIn]
      exact lt_of_mem_marginal (hperm.mem_iff.mp hi)
  rw [admitFractions, fillMarginal_eq]
  rcases le_or_gt p.pR redTol with hR | hR <;> rcases le_or_gt p.pC redTol with hC | hC
  · rw [decide_eq_false (not_lt.mpr hR), decide_eq_false (not_lt.mpr hC)]
    exact ⟨sorts_forcedIn, .loose hR hC fun i hi => entry_forcedIn_of_marginal hi⟩
  · rw [decide_eq_false (not_lt.mpr hR), decide_eq_true hC]
    have hperm := List.perm_insertionSort (fun a b => lp.c b ≤ lp.c a) (lp.marginal p)
    obtain ⟨hlength, hentry⟩ := foldl_fillCost (max 0 (lp.C - lp.forcedCost p)) _
      (lp.forcedIn p) 0 (hperm.nodup_iff.mpr nodup_marginal) (hlt hperm)
      fun i hi => entry_forcedIn_of_marginal (hperm.mem_iff.mp hi)
    obtain ⟨hx, hfill⟩ := sorts_of_filled eps_pos.le hperm
      (pairwise_insertionSort_key_desc lp.c (lp.marginal p)) (le_max_left _ _)
      ⟨le_rfl, zero_le_one⟩ (hlength.trans length_forcedIn) hentry
    exact ⟨hx, .cost hR hC hfill⟩
  · rw [decide_eq_true hR, decide_eq_false (not_lt.mpr hC)]
    have hperm := List.perm_insertionSort (fun a b => lp.c a ≤ lp.c b) (lp.marginal p)
    obtain ⟨hlength, hentry⟩ := foldl_fillRate (max 0 (lp.R - lp.forcedRate p)) _
      (lp.forcedIn p) 0 (hlt hperm)
    obtain ⟨hx, hfill⟩ := sorts_of_filled eps_pos.le hperm
      (pairwise_insertionSort_key lp.c (lp.marginal p)) (le_max_left _ _)
      ⟨zero_le_one, le_rfl⟩ (hlength.trans length_forcedIn) hentry
    exact ⟨hx, .rate hR hC hfill⟩
  · rw [decide_eq_true hR, decide_eq_true hC]
    dsimp only
    rw [fillBothTight]
    cases hfound : lp.fillBothTight? (lp.forcedIn p) (lp.marginal p)
      (max 0 (lp.R - lp.forcedRate p)) (max 0 (lp.C - lp.forcedCost p)) with
    | some x =>
      obtain ⟨hx, hrate, hcost⟩ := fillBothTight?_spec hproper hfound
      exact ⟨hx, .split hR hC (isSome_fillBothTight?.mp (Option.isSome_of_eq_some hfound)) hrate
        hcost⟩
    | none =>
      obtain ⟨hx, hones⟩ := sorts_all lp p
      refine ⟨hx, .all hR hC (fun h => ?_) hones⟩
      have hsome := isSome_fillBothTight? (x := lp.forcedIn p).mpr h
      rw [hfound] at hsome
      cases hsome

/-! ### Choices that serve -/

theorem sum_marginal_eq_zero {x : List ℚ} (hnone : ∀ i ∈ lp.marginal p, entry x i = 0)
    (g : ℕ → ℚ) : ((lp.marginal p).map fun i => g i * entry x i).sum = 0 := by
  refine List.sum_eq_zero fun y hy => ?_
  obtain ⟨i, hi, rfl⟩ := List.mem_map.mp hy
  rw [hnone i hi, mul_zero]

/-- Unless both budgets are tight, prices at rest leave a plan that uses the tight one up. -/
theorem AtRest.exists_completes (h : AtRest lp p) (hproper : lp.Proper)
    (hone : ¬ (redTol < p.pR ∧ redTol < p.pC)) : ∃ x, Completes lp p 0 x := by
  obtain ⟨hforcedR, hforcedC⟩ := h.forced_le hproper
  rcases le_or_gt p.pR redTol with hR | hR
  · rcases le_or_gt p.pC redTol with hC | hC
    · have hx : Sorts lp p (lp.forcedIn p) := sorts_forcedIn
      have hnone : ∀ i ∈ lp.marginal p, entry (lp.forcedIn p) i = 0 := fun i hi =>
        entry_forcedIn_of_marginal hi
      refine ⟨_, hx, ?_, ?_, fun hR' => absurd hR' (not_lt.mpr hR), fun hC' =>
        absurd hC' (not_lt.mpr hC)⟩
      · rw [hx.usedRate_eq, sum_marginal_eq_zero hnone, add_zero, add_zero]
        exact hforcedR
      · rw [hx.usedCost_eq, sum_marginal_eq_zero hnone fun i => lp.w i * lp.c i, add_zero,
          add_zero]
        exact hforcedC
    · obtain ⟨x, hx, hfill⟩ := exists_filled (fun i => lp.w i * lp.c i) le_rfl
        (List.perm_insertionSort (fun a b => lp.c b ≤ lp.c a) (lp.marginal p))
        (pairwise_insertionSort_key_desc lp.c (lp.marginal p)) (sub_nonneg.mpr hforcedC)
        ⟨le_rfl, zero_le_one⟩
      obtain ⟨hlow, hhigh, hrate⟩ := h.costFill hproper hC le_rfl hx hfill
      rw [mul_zero] at hlow hhigh
      rw [mul_zero, zero_mul] at hrate
      exact ⟨x, hx, hrate, hhigh, fun hR' => absurd hR' (not_lt.mpr hR), fun _ => hlow⟩
  · have hC : p.pC ≤ redTol := not_lt.mp fun hC => hone ⟨hR, hC⟩
    obtain ⟨x, hx, hfill⟩ := exists_filled lp.w le_rfl
      (List.perm_insertionSort (fun a b => lp.c a ≤ lp.c b) (lp.marginal p))
      (pairwise_insertionSort_key lp.c (lp.marginal p)) (sub_nonneg.mpr hforcedR)
      ⟨zero_le_one, le_rfl⟩
    obtain ⟨hlow, hhigh, hcost⟩ := h.rateFill hproper hR le_rfl hx hfill
    rw [mul_zero] at hhigh
    rw [mul_zero, zero_mul] at hcost
    exact ⟨x, hx, hhigh, hcost, fun _ => by rwa [sub_zero], fun hC' => absurd hC' (not_lt.mpr hC)⟩

/-- **Where the prices minimise the dual** and at most one budget is tight, some choice serves. -/
theorem Optimal.splits (h : Optimal lp p) (hproper : lp.Proper)
    (hone : ¬ (redTol < p.pR ∧ redTol < p.pC)) (tol : ℚ) : lp.Splits p 0 tol := by
  rw [Splits, if_neg hone]
  exact .inr ((h.atRest hproper).exists_completes hproper hone)

/-- A split that is found, where what is forced in fits. -/
theorem Sorts.used_of_split {x : List ℚ} (hx : Sorts lp p x) (hproper : lp.Proper)
    (hforcedR : lp.forcedRate p ≤ lp.R) (hforcedC : lp.forcedCost p ≤ lp.C)
    (hrate : |((lp.marginal p).map fun i => lp.w i * entry x i).sum
      - max 0 (lp.R - lp.forcedRate p)| ≤ eps * (lp.types.map WorkloadType.weight).sum)
    (hcost : |((lp.marginal p).map fun i => lp.w i * lp.c i * entry x i).sum
      - max 0 (lp.C - lp.forcedCost p)| ≤ eps * (lp.types.map fun t => t.weight * t.cost).sum) :
    |lp.used WorkloadType.weight x - lp.R| ≤ lp.slop ∧
      |lp.used (fun t => t.weight * t.cost) x - lp.C| ≤ lp.slop := by
  obtain ⟨-, -, -, -, hslopR, hslopC⟩ := hproper.slop_spec
  rw [max_eq_right (sub_nonneg.mpr hforcedR)] at hrate
  rw [max_eq_right (sub_nonneg.mpr hforcedC)] at hcost
  rw [hx.usedRate_eq, hx.usedCost_eq]
  constructor
  · refine le_trans (le_of_eq (congrArg _ ?_)) (hrate.trans hslopR)
    ring
  · refine le_trans (le_of_eq (congrArg _ ?_)) (hcost.trans hslopC)
    ring

/-- The plan, where no budget is tight and nothing is filled. -/
theorem Sorts.planOk_of_loose {x : List ℚ} (hx : Sorts lp p x) (hproper : lp.Proper)
    (hp : Bounded lp p) (hforcedR : lp.forcedRate p ≤ lp.R) (hforcedC : lp.forcedCost p ≤ lp.C)
    (hR : p.pR ≤ redTol) (hC : p.pC ≤ redTol) (hnone : ∀ i ∈ lp.marginal p, entry x i = 0) :
    PlanOk lp ⟨⟨p.pR, p.pC, none⟩, x, lp.objective x⟩ := by
  have hslop := hproper.slop_spec.1
  refine hx.planOk hproper ?_ ?_ (hx.worth_of_used hproper hp (.inr hR) (.inr hC))
  · rw [hx.usedRate_eq, sum_marginal_eq_zero hnone]
    linarith
  · rw [hx.usedCost_eq, sum_marginal_eq_zero hnone fun i => lp.w i * lp.c i]
    linarith

/-- The plan, where a split uses up what is left of both budgets. -/
theorem Sorts.planOk_of_split {x : List ℚ} (hx : Sorts lp p x) (hproper : lp.Proper)
    (hp : Bounded lp p) (hforcedR : lp.forcedRate p ≤ lp.R) (hforcedC : lp.forcedCost p ≤ lp.C)
    (hrate : |((lp.marginal p).map fun i => lp.w i * entry x i).sum
      - max 0 (lp.R - lp.forcedRate p)| ≤ eps * (lp.types.map WorkloadType.weight).sum)
    (hcost : |((lp.marginal p).map fun i => lp.w i * lp.c i * entry x i).sum
      - max 0 (lp.C - lp.forcedCost p)| ≤ eps * (lp.types.map fun t => t.weight * t.cost).sum) :
    PlanOk lp ⟨⟨p.pR, p.pC, none⟩, x, lp.objective x⟩ := by
  obtain ⟨hU, hV⟩ := hx.used_of_split hproper hforcedR hforcedC hrate hcost
  obtain ⟨hlowR, hhighR⟩ := abs_le.mp hU
  obtain ⟨hlowC, hhighC⟩ := abs_le.mp hV
  exact hx.planOk hproper (by linarith) (by linarith)
    (hx.worth_of_used hproper hp (.inl (by linarith)) (.inl (by linarith)))

/-- The plan, where the prices are at rest and at most one budget is tight. -/
theorem Filling.planOk_of_atRest {x : List ℚ} (h : Filling lp p x) (hx : Sorts lp p x)
    (hproper : lp.Proper) (hp : Bounded lp p) (hrest : AtRest lp p)
    (hone : ¬ (redTol < p.pR ∧ redTol < p.pC)) :
    PlanOk lp ⟨⟨p.pR, p.pC, none⟩, x, lp.objective x⟩ := by
  obtain ⟨hslop, hcount, hrateCost, hcostRate, -, -⟩ := hproper.slop_spec
  obtain ⟨hforcedR, hforcedC⟩ := hrest.forced_le hproper
  have heps := mul_nonneg (Nat.cast_nonneg (α := ℚ) lp.types.length) eps_pos.le
  have hpos := eps_pos
  cases h with
  | loose hR hC hnone => exact hx.planOk_of_loose hproper hp hforcedR hforcedC hR hC hnone
  | rate hR hC hfill =>
    rw [max_eq_right (sub_nonneg.mpr hforcedR)] at hfill
    obtain ⟨hlow, hhigh, hcost⟩ := hrest.rateFill hproper hR eps_pos.le hx hfill
    exact hx.planOk hproper (by linarith) (by linarith)
      (hx.worth_of_used hproper hp (.inl (by linarith)) (.inr hC))
  | cost hR hC hfill =>
    rw [max_eq_right (sub_nonneg.mpr hforcedC)] at hfill
    obtain ⟨hlow, hhigh, hrate⟩ := hrest.costFill hproper hC eps_pos.le hx hfill
    exact hx.planOk hproper (by linarith) (by linarith)
      (hx.worth_of_used hproper hp (.inr hR) (.inl (by linarith)))
  | split hR hC => exact absurd ⟨hR, hC⟩ hone
  | all hR hC => exact absurd ⟨hR, hC⟩ hone

/-- The plan, where a split is found. -/
theorem Filling.planOk_of_hits {x : List ℚ} (h : Filling lp p x) (hx : Sorts lp p x)
    (hproper : lp.Proper) (hp : Bounded lp p) (hR : redTol < p.pR) (hC : redTol < p.pC)
    (hforcedR : lp.forcedRate p ≤ lp.R) (hforcedC : lp.forcedCost p ≤ lp.C)
    (hhits : lp.Hits (lp.marginal p) (max 0 (lp.R - lp.forcedRate p))
      (max 0 (lp.C - lp.forcedCost p))) :
    PlanOk lp ⟨⟨p.pR, p.pC, none⟩, x, lp.objective x⟩ := by
  cases h with
  | loose hR' => exact absurd hR (not_lt.mpr hR')
  | rate _ hC' => exact absurd hC (not_lt.mpr hC')
  | cost hR' => exact absurd hR (not_lt.mpr hR')
  | split _ _ _ hrate hcost => exact hx.planOk_of_split hproper hp hforcedR hforcedC hrate hcost
  | all _ _ hmiss => exact absurd hhits hmiss

/-! ### Where all that counts fits -/

theorem le_eps_of_not_counts {i : ℕ} (hnot : ¬ lp.Counts p i) :
    (redTol < p.pR → lp.w i ≤ eps) ∧ (redTol < p.pC → lp.w i * lp.c i ≤ eps) := by
  obtain ⟨hrate, hcost⟩ := not_or.mp hnot
  exact ⟨fun hR => not_lt.mp fun h => hrate ⟨hR, h⟩, fun hC => not_lt.mp fun h => hcost ⟨hC, h⟩⟩

section AllFits

variable {x x' : List ℚ} {slack tol : ℚ}

/-- What a plan takes beyond one that admits all that counts is what does not count. -/
theorem AllFits.used_le (h : AllFits lp p slack tol x') (hx : Sorts lp p x)
    (f : WorkloadType → ℚ) (g : ℕ → ℚ) (hg : ∀ i t, lp.types[i]? = some t → g i = f t)
    (hnonneg : ∀ i ∈ lp.marginal p, 0 ≤ g i) {d : ℚ} (hd : 0 ≤ d)
    (hrest : ∀ i ∈ lp.marginal p, ¬ lp.Counts p i → g i * entry x i ≤ d) :
    lp.used f x ≤ lp.used f x' + lp.types.length * d := by
  refine h.sorts.used_le hx f g hg hd fun i hi => ?_
  by_cases hcounts : lp.Counts p i
  · rw [h.all i hi hcounts, mul_one]
    linarith [mul_le_of_le_one_right (hnonneg i hi) (hx.unit i hi).2]
  · linarith [hrest i hi hcounts, mul_nonneg (hnonneg i hi) (h.sorts.unit i hi).1]

/-- A plan that admits every archetype on its bid line is worth no less than one that serves. -/
theorem AllFits.worth_of_all (h : AllFits lp p slack lp.priceTol x') (hx : Sorts lp p x)
    (hproper : lp.Proper) (hp : Bounded lp p) (hones : ∀ i ∈ lp.marginal p, entry x i = 1) :
    ∃ q, Optimal lp q ∧ lp.dualObjective q ≤ lp.objective x + lp.worthTol := by
  obtain ⟨q, hq, hworth⟩ := h.worth
  obtain ⟨hnonnegR, hnonnegC, hslops⟩ := hp.mul_slop_le hproper
  obtain ⟨hR, hC, hW, htol⟩ := hproper.priceTol_spec
  have hbetter := hx.objective_le_of h.sorts hproper
  have hU := hx.used_le h.sorts WorkloadType.weight lp.w (fun _ _ => w_eq) le_rfl fun i hi => by
    rw [hones i hi, mul_one, add_zero]
    exact mul_le_of_le_one_right (hproper.taken_nonneg hi).1 (h.sorts.unit i hi).2
  have hV := hx.used_le h.sorts (fun t => t.weight * t.cost) (fun i => lp.w i * lp.c i)
    (fun _ _ => w_mul_c_eq) le_rfl fun i hi => by
      rw [hones i hi, mul_one, add_zero]
      exact mul_le_of_le_one_right (hproper.taken_nonneg hi).2 (h.sorts.unit i hi).2
  rw [mul_zero, add_zero] at hU hV
  have hlossR := mul_nonneg hp.rate (sub_nonneg.mpr hU)
  have hlossC := mul_nonneg hp.cost (sub_nonneg.mpr hV)
  refine ⟨q, hq, ?_⟩
  rw [worthTol]
  linarith

/-- A fill of the rate takes no more of the cost, but for what does not count. -/
theorem AllFits.planOk_of_rateFill (h : AllFits lp p 0 lp.priceTol x') (hx : Sorts lp p x)
    (hproper : lp.Proper) (hp : Bounded lp p) (hR : redTol < p.pR) (hC : p.pC ≤ redTol)
    (hfill : lp.RateFilled p (lp.R - lp.forcedRate p) eps x) :
    PlanOk lp ⟨⟨p.pR, p.pC, none⟩, x, lp.objective x⟩ := by
  obtain ⟨hslop, hcount, hrateCost, -, -, -⟩ := hproper.slop_spec
  obtain ⟨huses, hhigh⟩ := rateFill_bounds hproper eps_pos.le hx hfill le_rfl
  rw [add_sub_cancel] at hhigh
  have hcosts : 0 ≤ (lp.types.map WorkloadType.cost).sum := List.sum_nonneg fun y hy => by
    obtain ⟨t, ht, rfl⟩ := List.mem_map.mp hy
    exact hproper.cost t ht
  have hspare := mul_nonneg eps_pos.le hcosts
  have hV := h.used_le hx (fun t => t.weight * t.cost) (fun i => lp.w i * lp.c i)
    (fun _ _ => w_mul_c_eq) (fun i hi => (hproper.taken_nonneg hi).2) hspare fun i hi hnot => by
      have hle := mul_le_of_le_one_right (hproper.taken_nonneg hi).2 (hx.unit i hi).2
      have hcost := mul_le_mul ((le_eps_of_not_counts hnot).1 hR)
        (le_sum_types WorkloadType.cost hproper.cost hi lp.c fun _ _ => c_eq)
        (hproper.w_nonneg hi).2 eps_pos.le
      exact hle.trans hcost
  have hcost := h.cost
  refine hx.planOk hproper (by linarith) (by linarith)
    (huses.elim (fun hfull => ?_) (h.worth_of_all hx hproper hp))
  exact hx.worth_of_used hproper hp (.inl (by linarith)) (.inr hC)

/-- A fill of the cost takes no more of the rate. Where it does not use the cost up, it is worth no
less: the rate is next to worthless, and of the cost only what does not count is left. -/
theorem AllFits.planOk_of_costFill (h : AllFits lp p 0 lp.priceTol x') (hx : Sorts lp p x)
    (hproper : lp.Proper) (hp : Bounded lp p) (hR : p.pR ≤ redTol) (hC : redTol < p.pC)
    (hfill : lp.CostFilled p (lp.C - lp.forcedCost p) eps x) :
    PlanOk lp ⟨⟨p.pR, p.pC, none⟩, x, lp.objective x⟩ := by
  obtain ⟨q, hq, hworth⟩ := h.worth
  obtain ⟨hslop, hcount, -, -, -, -⟩ := hproper.slop_spec
  have heps := mul_nonneg (Nat.cast_nonneg (α := ℚ) lp.types.length) eps_pos.le
  have hpos := eps_pos
  have hrate := h.rate
  obtain ⟨huses, hhigh⟩ := costFill_bounds hproper eps_pos.le hx hfill le_rfl
  rw [add_sub_cancel] at hhigh
  have hU := h.used_le hx WorkloadType.weight lp.w (fun _ _ => w_eq)
    (fun i hi => (hproper.taken_nonneg hi).1) le_rfl fun i hi hnot => by
      rw [hfill.small_eq i hi ((le_eps_of_not_counts hnot).2 hC), mul_zero]
  rw [mul_zero, add_zero] at hU
  refine hx.planOk hproper (by linarith) (by linarith) ?_
  rcases huses with hfull | hones
  · exact hx.worth_of_used hproper hp (.inr hR) (.inl (by linarith))
  · have hV := hx.used_le h.sorts (fun t => t.weight * t.cost) (fun i => lp.w i * lp.c i)
      (fun _ _ => w_mul_c_eq) eps_pos.le fun i hi => by
        have hle := mul_le_of_le_one_right (hproper.taken_nonneg hi).2 (h.sorts.unit i hi).2
        rcases le_or_gt (lp.w i * lp.c i) eps with hsmall | hlarge
        · linarith [mul_nonneg (hproper.taken_nonneg hi).2 (hx.unit i hi).1]
        · rw [hones i hi hlarge, mul_one]
          linarith
    have hlossR : p.pR * (lp.used WorkloadType.weight x' - lp.used WorkloadType.weight x)
        ≤ redTol * lp.R :=
      mul_le_mul hR (by linarith [used_nonneg hx hproper.weight]) (sub_nonneg.mpr hU)
        redTol_pos.le
    have hlossC : p.pC * (lp.used (fun t => t.weight * t.cost) x'
        - lp.used (fun t => t.weight * t.cost) x) ≤ p.pC * lp.slop :=
      mul_le_mul_of_nonneg_left (by linarith) hp.cost
    obtain ⟨hnonnegR, hnonnegC, hslops⟩ := hp.mul_slop_le hproper
    obtain ⟨hRtol, hCtol, hW, htol⟩ := hproper.priceTol_spec
    have hbetter := hx.objective_le_of h.sorts hproper
    refine ⟨q, hq, ?_⟩
    rw [worthTol]
    linarith

/-- All of the archetypes on their bid lines take no more, but for what does not count. -/
theorem AllFits.planOk_of_all (h : AllFits lp p 0 lp.priceTol x') (hx : Sorts lp p x)
    (hproper : lp.Proper) (hp : Bounded lp p) (hR : redTol < p.pR) (hC : redTol < p.pC)
    (hones : ∀ i ∈ lp.marginal p, entry x i = 1) :
    PlanOk lp ⟨⟨p.pR, p.pC, none⟩, x, lp.objective x⟩ := by
  obtain ⟨hslop, hcount, -, -, -, -⟩ := hproper.slop_spec
  have hpos := eps_pos
  have hrate := h.rate
  have hcost := h.cost
  have hU := h.used_le hx WorkloadType.weight lp.w (fun _ _ => w_eq)
    (fun i hi => (hproper.taken_nonneg hi).1) eps_pos.le fun i hi hnot => by
      rw [hones i hi, mul_one]
      exact (le_eps_of_not_counts hnot).1 hR
  have hV := h.used_le hx (fun t => t.weight * t.cost) (fun i => lp.w i * lp.c i)
    (fun _ _ => w_mul_c_eq) (fun i hi => (hproper.taken_nonneg hi).2) eps_pos.le fun i hi hnot => by
      rw [hones i hi, mul_one]
      exact (le_eps_of_not_counts hnot).2 hC
  exact hx.planOk hproper (by linarith) (by linarith) (h.worth_of_all hx hproper hp hones)

/-- The plan, where all that counts on the bid lines fits. -/
theorem Filling.planOk_of_allFits (h : Filling lp p x) (hx : Sorts lp p x)
    (hproper : lp.Proper) (hp : Bounded lp p) (hfits : AllFits lp p 0 lp.priceTol x') :
    PlanOk lp ⟨⟨p.pR, p.pC, none⟩, x, lp.objective x⟩ := by
  obtain ⟨hpartR, hpartC⟩ := hfits.sorts.forced_le hproper
  have hforcedR : lp.forcedRate p ≤ lp.R := by linarith [hfits.rate]
  have hforcedC : lp.forcedCost p ≤ lp.C := by linarith [hfits.cost]
  cases h with
  | loose hR hC hnone => exact hx.planOk_of_loose hproper hp hforcedR hforcedC hR hC hnone
  | rate hR hC hfill =>
    rw [max_eq_right (sub_nonneg.mpr hforcedR)] at hfill
    exact hfits.planOk_of_rateFill hx hproper hp hR hC hfill
  | cost hR hC hfill =>
    rw [max_eq_right (sub_nonneg.mpr hforcedC)] at hfill
    exact hfits.planOk_of_costFill hx hproper hp hR hC hfill
  | split _ _ _ hrate hcost => exact hx.planOk_of_split hproper hp hforcedR hforcedC hrate hcost
  | all hR hC _ hones => exact hfits.planOk_of_all hx hproper hp hR hC hones

end AllFits

/-! ### The condition -/

/-- **A choice that serves** makes the plan right. -/
theorem planOk_of_splits (hproper : lp.Proper) (h : lp.Splits lp.prices 0 lp.priceTol) :
    PlanOk lp lp.solve := by
  obtain ⟨hx, hfilling⟩ := admitFractions_spec hproper lp.prices
  have hp := prices_bounded hproper
  rcases h with ⟨x', hfits⟩ | h
  · exact hfilling.planOk_of_allFits hx hproper hp hfits
  · split at h
    · rename_i hboth
      obtain ⟨hR, hC⟩ := hboth
      obtain ⟨hforcedR, hforcedC, hhits⟩ := h
      rw [add_zero] at hforcedR hforcedC
      exact hfilling.planOk_of_hits hx hproper hp hR hC hforcedR hforcedC hhits
    · obtain ⟨x', hcompletes⟩ := h
      exact hfilling.planOk_of_atRest hx hproper hp (hcompletes.atRest hproper) ‹_›

/-- **A plan that is right** comes from a choice that serves, up to the tolerances: it is one
itself. -/
theorem splits_of_planOk (hproper : lp.Proper) (h : PlanOk lp lp.solve) :
    lp.Splits lp.prices lp.slop lp.worthTol := by
  obtain ⟨hx, hfilling⟩ := admitFractions_spec hproper lp.prices
  obtain ⟨-, -, hrate, hcost, q, hq, hworth⟩ := h
  have hslop := hproper.slop_spec.1
  have hle := (abs_le.mp hworth).1
  have hall : (∀ i ∈ lp.marginal lp.prices, lp.Counts lp.prices i →
      entry (lp.admitFractions lp.prices) i = 1) → lp.Splits lp.prices lp.slop lp.worthTol :=
    fun hones => .inl ⟨_, hx, hones, hrate, hcost, q, hq, by
      rw [solve] at hle
      dsimp only at hle
      linarith⟩
  cases hfilling with
  | loose hR hC =>
    rw [Splits, if_neg fun hboth => absurd hboth.1 (not_lt.mpr hR)]
    exact .inr ⟨_, hx, hrate, hcost, fun hR' => absurd hR' (not_lt.mpr hR), fun hC' =>
      absurd hC' (not_lt.mpr hC)⟩
  | rate hR hC hfill =>
    rcases (rateFill_bounds hproper eps_pos.le hx hfill (le_max_right _ _)).1 with hfull | hones
    · rw [Splits, if_neg fun hboth => absurd hboth.2 (not_lt.mpr hC)]
      exact .inr ⟨_, hx, hrate, hcost, fun _ => by linarith, fun hC' => absurd hC' (not_lt.mpr hC)⟩
    · exact hall fun i hi _ => hones i hi
  | cost hR hC hfill =>
    rcases (costFill_bounds hproper eps_pos.le hx hfill (le_max_right _ _)).1 with hfull | hones
    · rw [Splits, if_neg fun hboth => absurd hboth.1 (not_lt.mpr hR)]
      exact .inr ⟨_, hx, hrate, hcost, fun hR' => absurd hR' (not_lt.mpr hR), fun _ => by linarith⟩
    · refine hall fun i hi hcounts => hones i hi ?_
      exact (hcounts.resolve_left fun h => absurd h.1 (not_lt.mpr hR)).2
  | split hR hC hhits =>
    obtain ⟨hforcedR, hforcedC⟩ := hx.forced_le hproper
    rw [Splits, if_pos ⟨hR, hC⟩]
    exact .inr ⟨hforcedR.trans hrate, hforcedC.trans hcost, hhits⟩
  | all hR hC _ hones => exact hall fun i hi _ => hones i hi

end TwoBudget

/-- The two-budget program of an input. -/
def FluidLpInput.twoBudget (input : FluidLpInput) : TwoBudget :=
  ⟨input.types, input.rateBudget, input.costBudget⟩

/-- The solver returns a plan of fractions that is within the budgets and worth the least of the
dual. -/
def ReturnsPlan (input : FluidLpInput) : Prop :=
  ∃ sol, solveFluidLp input = .ok sol ∧ input.twoBudget.PlanOk sol

/-- Two archetypes of which half each uses both budgets up. -/
def halves : FluidLpInput := ⟨[⟨1, 2, 1, none⟩, ⟨3, 4, 1, none⟩], 1, 2, none⟩

-- Prices within the tolerance of the least leave no choice: half the archetype is admitted, which
-- takes five hundred of a cost budget of one.
example : solveFluidLp ⟨[⟨1000, 1 / 5000000, 1, none⟩], 1 / 2, 1, none⟩
    = .ok ⟨⟨1 / 5000000, 0, none⟩, [1 / 2], 1 / 10000000⟩ := by
  decide +kernel

/-- Thirteen archetypes on one bid line. -/
def thirteen : FluidLpInput :=
  ⟨(List.range 13).map fun i => ⟨i + 1, i + 2, 1, none⟩, 6, 42, none⟩

end ThrottleKit.FluidLp
