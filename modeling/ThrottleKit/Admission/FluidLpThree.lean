import ThrottleKit.Admission.FluidLpPlan

/-!
# The plan with three budgets

With three budgets the plan admits what is worth more than its bid without a look at the budgets,
and lets the archetypes on their bid planes take no more than is left of any of them. So the plan
keeps to the budgets just where what is forced in does. At prices that minimise the dual it does,
since a short step up an axis would make the dual smaller otherwise. The solver settles on the most
selective of the candidates within `redTol` of the least, however, and at one of these that does not
minimise the dual nothing bounds what is forced in.

The objective is the least of the dual, and no feasible plan is worth more by weak duality.

## Main definitions

* `Budget` — the three budgets, by what an archetype takes of them
* `ThreeBudget.PlanOk` — a feasible plan, and an objective that no feasible plan is worth more than
* `ThreeBudget.TieFits` — the near tie that the solver settles on leaves room for what it forces in

## Main results

* `ThreeBudget.worth_le` — weak duality
* `ThreeBudget.admitFractions_within_iff` — the plan keeps to the budgets if what is forced in does
* `ThreeBudget.forcedUse_le` — what is forced in fits where the prices minimise the dual
* `solveFluidLp_threeBudget_iff` — when the plan is feasible
-/

namespace ThrottleKit.FluidLp

open ListEntries Tuples

/-! ### The three budgets -/

/-- The budgets of the program. -/
inductive Budget
  | rate
  | cost
  | conc
deriving DecidableEq

namespace Budget

instance : Fintype Budget where
  elems := {rate, cost, conc}
  complete := fun b => by cases b <;> decide

/-- What one admission takes. -/
def per : Budget → WorkloadType → ℚ
  | rate, _ => 1
  | cost, t => t.cost
  | conc, t => t.h

/-- What an archetype takes when it is wholly admitted. -/
def take (b : Budget) (t : WorkloadType) : ℚ := t.weight * b.per t

def price : Budget → Prices3 → ℚ
  | rate, p => p.pR
  | cost, p => p.pC
  | conc, p => p.pK

def size (lp : ThreeBudget) : Budget → ℚ
  | rate => lp.R
  | cost => lp.C
  | conc => lp.K

def left : Budget → ThreeBudget.Left → ℚ
  | rate, l => l.remR
  | cost, l => l.remC
  | conc, l => l.remK

/-- The prices with one of them raised. -/
def raise (p : Prices3) (s : ℚ) : Budget → Prices3
  | rate => { p with pR := p.pR + s }
  | cost => { p with pC := p.pC + s }
  | conc => { p with pK := p.pK + s }

theorem sum_eq (g : Budget → ℚ) : ∑ b, g b = g rate + g cost + g conc := by
  have huniv : (Finset.univ : Finset Budget) = {rate, cost, conc} := rfl
  rw [huniv, Finset.sum_insert (by decide), Finset.sum_insert (by decide), Finset.sum_singleton,
    add_assoc]

theorem left_use (b : Budget) (l : ThreeBudget.Left) (t : WorkloadType) (frac : ℚ) :
    b.left (l.use t frac) = b.left l - frac * b.take t := by
  cases b with
  | rate =>
    show l.remR - frac * t.weight = l.remR - frac * (t.weight * 1)
    rw [mul_one]
  | cost =>
    show l.remC - frac * t.weight * t.cost = l.remC - frac * (t.weight * t.cost)
    rw [mul_assoc]
  | conc =>
    show l.remK - frac * t.weight * t.h = l.remK - frac * (t.weight * t.h)
    rw [mul_assoc]

end Budget

namespace ThreeBudget

variable {lp : ThreeBudget} {p : Prices3}

theorem dualObjective_eq (lp : ThreeBudget) (p : Prices3) :
    lp.dualObjective p = ∑ b : Budget, b.price p * b.size lp
      + (lp.types.map fun t => t.weight * max 0 (reduced p t)).sum := by
  rw [Budget.sum_eq, dualObjective]
  show _ = p.pR * lp.R + p.pC * lp.C + p.pK * lp.K + _
  rw [mul_comm lp.R, mul_comm lp.C, mul_comm lp.K]

/-- No weight, cost or hold time is below zero. -/
structure Proper (lp : ThreeBudget) : Prop where
  weight : ∀ t ∈ lp.types, 0 ≤ t.weight
  cost : ∀ t ∈ lp.types, 0 ≤ t.cost
  hold : ∀ t ∈ lp.types, 0 ≤ t.h
  size : ∀ b : Budget, 0 < b.size lp

theorem Proper.per_nonneg (h : lp.Proper) (b : Budget) {t : WorkloadType} (ht : t ∈ lp.types) :
    0 ≤ b.per t := by
  cases b with
  | rate => exact zero_le_one
  | cost => exact h.cost t ht
  | conc => exact h.hold t ht

theorem Proper.take_nonneg (h : lp.Proper) (b : Budget) {t : WorkloadType} (ht : t ∈ lp.types) :
    0 ≤ b.take t :=
  mul_nonneg (h.weight t ht) (h.per_nonneg b ht)

/-- No price is negative. -/
def Nonneg (p : Prices3) : Prop := ∀ b : Budget, 0 ≤ b.price p

theorem nonneg_of_feasible (h : p ∈ lp.feasible) : Nonneg p := by
  obtain ⟨hR, hC, hK⟩ := nonneg_of_mem_feasible h
  intro b
  cases b with
  | rate => exact hR
  | cost => exact hC
  | conc => exact hK

/-! ### Plans -/

/-- What a plan takes of a budget. -/
def used (lp : ThreeBudget) (b : Budget) (x : List ℚ) : ℚ :=
  (lp.types.zipIdx.map fun t => b.take t.1 * entry x t.2).sum

/-- What a plan is worth. -/
def worth (lp : ThreeBudget) (x : List ℚ) : ℚ :=
  (lp.types.zipIdx.map fun t => t.1.weight * t.1.value * entry x t.2).sum

/-- A plan of fractions that overruns no budget by more than `tol`. -/
structure Within (lp : ThreeBudget) (tol : ℚ) (x : List ℚ) : Prop where
  length : x.length = lp.types.length
  unit : ∀ y ∈ x, 0 ≤ y ∧ y ≤ 1
  budget : ∀ b : Budget, lp.used b x ≤ b.size lp + tol

/-- The plan overruns no budget by more than `tol`, no plan that overruns none at all is worth more
than the objective, and the plan is worth no more than the objective either, but for what an overrun
is worth at prices that attain it. -/
structure PlanOk (lp : ThreeBudget) (tol : ℚ) (sol : FluidLpSolution) : Prop where
  within : lp.Within tol sol.admitFractions
  upper : ∀ x, lp.Within 0 x → lp.worth x ≤ sol.objective
  own : ∃ q, Nonneg q ∧ lp.dualObjective q = sol.objective ∧
    lp.worth sol.admitFractions ≤ sol.objective + tol * ∑ b : Budget, b.price q

/-- What is forced in takes of a budget. -/
def forcedUse (lp : ThreeBudget) (b : Budget) (p : Prices3) : ℚ :=
  ((lp.types.filter (forced p)).map b.take).sum

/-- What is forced in overruns no budget by more than `tol`. -/
def Fits (lp : ThreeBudget) (tol : ℚ) (p : Prices3) : Prop :=
  ∀ b : Budget, lp.forcedUse b p ≤ b.size lp + tol

/-! ### Weak duality -/

theorem entry_unit {x : List ℚ} (h : ∀ y ∈ x, 0 ≤ y ∧ y ≤ 1) (i : ℕ) :
    0 ≤ entry x i ∧ entry x i ≤ 1 := by
  rcases lt_or_ge i x.length with hi | hi
  · exact h _ (entry_mem hi)
  · rw [entry, List.getD_eq_default _ _ hi]
    exact ⟨le_rfl, zero_le_one⟩

theorem sum_map_types (lp : ThreeBudget) (g : WorkloadType → ℚ) :
    (lp.types.map g).sum = (lp.types.zipIdx.map fun t => g t.1).sum := by
  conv_lhs => rw [(List.zipIdx_map_fst 0 lp.types).symm, List.map_map]
  rfl

/-- **Weak duality.** A plan of fractions is worth no more than the dual at any prices, but for what
it overruns the budgets by, at these prices. -/
theorem worth_le (hproper : lp.Proper) {x : List ℚ} (hx : ∀ y ∈ x, 0 ≤ y ∧ y ≤ 1) (q : Prices3) :
    lp.worth x ≤ lp.dualObjective q + ∑ b : Budget, b.price q * (lp.used b x - b.size lp) := by
  have hterm : ∀ t ∈ lp.types.zipIdx, t.1.weight * t.1.value * entry x t.2
      ≤ t.1.weight * max 0 (reduced q t.1) + (q.pR * (Budget.rate.take t.1 * entry x t.2)
        + q.pC * (Budget.cost.take t.1 * entry x t.2)
        + q.pK * (Budget.conc.take t.1 * entry x t.2)) := by
    intro t ht
    have hmem := List.mem_of_getElem? (List.mem_zipIdx_iff_getElem?.mp ht)
    obtain ⟨hlow, hhigh⟩ := entry_unit hx t.2
    have hgain : reduced q t.1 * entry x t.2 ≤ max 0 (reduced q t.1) :=
      calc reduced q t.1 * entry x t.2
          ≤ max 0 (reduced q t.1) * entry x t.2 :=
            mul_le_mul_of_nonneg_right (le_max_right _ _) hlow
        _ ≤ max 0 (reduced q t.1) := mul_le_of_le_one_right (le_max_left _ _) hhigh
    have hweighed := mul_le_mul_of_nonneg_left hgain (hproper.weight t.1 hmem)
    rw [reduced] at hweighed ⊢
    simp only [Budget.take, Budget.per]
    linarith
  have hsum := List.sum_le_sum hterm
  rw [List.sum_map_add, List.sum_map_add, List.sum_map_add, List.sum_map_mul_left,
    List.sum_map_mul_left, List.sum_map_mul_left,
    ← lp.sum_map_types fun t => t.weight * max 0 (reduced q t)] at hsum
  rw [worth, dualObjective, Budget.sum_eq]
  refine hsum.trans (le_of_eq ?_)
  simp only [Budget.price, Budget.size, used]
  ring

/-! ### The fill -/

/-- What is left of the budgets is what the plan does not take. -/
structure Accounts (lp : ThreeBudget) (s : List ℚ × Left) : Prop where
  length : s.1.length = lp.types.length
  unit : ∀ y ∈ s.1, 0 ≤ y ∧ y ≤ 1
  left : ∀ b : Budget, b.left s.2 = b.size lp - lp.used b s.1

theorem room_unit (l : Left) (t : WorkloadType) : 0 ≤ l.room t ∧ l.room t ≤ 1 :=
  ⟨le_max_left _ _, max_le zero_le_one (min_le_left _ _)⟩

/-- An archetype takes no more of a budget than is left of it. -/
theorem room_mul_take_le (b : Budget) (l : Left) {t : WorkloadType} (ht : 0 ≤ b.take t) :
    l.room t * b.take t ≤ max 0 (b.left l) := by
  rcases ht.eq_or_lt with hzero | hpos
  · rw [← hzero, mul_zero]
    exact le_max_left _ _
  · rw [← le_div_iff₀ hpos, Left.room]
    refine max_le (div_nonneg (le_max_left _ _) hpos.le) ((min_le_right _ _).trans ?_)
    have hskip : ∀ {c : Prop} [Decidable c] (frac a : ℚ),
        (if c then min frac a else frac) ≤ frac := by
      intro c _ frac a
      split
      · exact min_le_left _ _
      · exact le_rfl
    cases b with
    | rate =>
      rw [Budget.take, Budget.per, mul_one] at hpos ⊢
      refine ((hskip _ _).trans (hskip _ _)).trans ?_
      rw [if_pos hpos]
      exact min_le_right _ _
    | cost =>
      rw [Budget.take, Budget.per] at hpos ⊢
      refine (hskip _ _).trans ?_
      rw [if_pos hpos]
      exact min_le_right _ _
    | conc =>
      rw [Budget.take, Budget.per] at hpos ⊢
      rw [if_pos hpos]
      exact min_le_right _ _

/-- What writing an entry does to what a plan takes. -/
theorem used_set (b : Budget) {x : List ℚ} {t : WorkloadType} {i : ℕ} (ht : lp.types[i]? = some t)
    (hi : i < x.length) (y : ℚ) :
    lp.used b (x.set i y) = lp.used b x + b.take t * (y - entry x i) := by
  obtain ⟨hlt, hget⟩ := List.getElem?_eq_some_iff.mp ht
  have hlen : i < (lp.types.zipIdx.map fun t => b.take t.1 * entry x t.2).length := by
    rwa [List.length_map, List.length_zipIdx]
  have hlist : (lp.types.zipIdx.map fun t => b.take t.1 * entry (x.set i y) t.2)
      = (lp.types.zipIdx.map fun t => b.take t.1 * entry x t.2).set i (b.take t * y) := by
    refine List.ext_getElem (by simp) fun j hj hj' => ?_
    rw [List.getElem_map, List.getElem_zipIdx, List.getElem_set, entry_set x hi, zero_add]
    by_cases hji : i = j
    · subst hji
      rw [if_pos rfl, if_pos rfl, hget]
    · rw [if_neg (Ne.symm hji), if_neg hji, List.getElem_map, List.getElem_zipIdx, zero_add]
  have hentry : entry (lp.types.zipIdx.map fun t => b.take t.1 * entry x t.2) i
      = b.take t * entry x i := by
    rw [entry, List.getD_eq_getElem _ _ hlen, List.getElem_map, List.getElem_zipIdx, zero_add, hget]
  rw [used, used, hlist, sum_set _ hlen, hentry, mul_sub]

/-- What one archetype on its bid plane leaves of a budget. -/
theorem left_fill_spec (b : Budget) (s : List ℚ × Left) {t : WorkloadType × ℕ}
    (ht : 0 ≤ b.take t.1) :
    min 0 (b.left s.2) ≤ b.left (fill s t).2 ∧ b.left (fill s t).2 ≤ b.left s.2 := by
  have htaken := room_mul_take_le b s.2 ht
  have hnonneg := mul_nonneg (room_unit s.2 t.1).1 ht
  rw [fill, Budget.left_use]
  refine ⟨?_, by linarith⟩
  rcases le_total 0 (b.left s.2) with hleft | hleft
  · rw [max_eq_right hleft] at htaken
    rw [min_eq_left hleft]
    linarith
  · rw [max_eq_left hleft] at htaken
    rw [min_eq_right hleft]
    linarith

/-- **One archetype keeps the accounts.** -/
theorem Accounts.fill {s : List ℚ × Left} (h : Accounts lp s) {t : WorkloadType × ℕ}
    (ht : lp.types[t.2]? = some t.1) (hzero : entry s.1 t.2 = 0) :
    Accounts lp (ThreeBudget.fill s t) := by
  have hlt : t.2 < s.1.length := by
    rw [h.length]
    exact (List.getElem?_eq_some_iff.mp ht).1
  refine ⟨?_, fun y hy => ?_, fun b => ?_⟩
  · rw [ThreeBudget.fill, List.length_set, h.length]
  · rcases List.mem_or_eq_of_mem_set hy with hy | rfl
    · exact h.unit y hy
    · exact room_unit s.2 t.1
  · rw [ThreeBudget.fill, Budget.left_use, used_set b ht hlt, h.left b, hzero]
    ring

/-- **The fill keeps the accounts**, and takes no more of a budget than is left of it. -/
theorem Accounts.foldl_fill (hproper : lp.Proper) {l : List (WorkloadType × ℕ)}
    {s : List ℚ × Left} (h : Accounts lp s) (hl : ∀ t ∈ l, lp.types[t.2]? = some t.1)
    (hzero : ∀ t ∈ l, entry s.1 t.2 = 0) (hnodup : (l.map Prod.snd).Nodup) :
    Accounts lp (l.foldl ThreeBudget.fill s) ∧ ∀ b : Budget,
      min 0 (b.left s.2) ≤ b.left (l.foldl ThreeBudget.fill s).2 ∧
        b.left (l.foldl ThreeBudget.fill s).2 ≤ b.left s.2 := by
  induction l generalizing s with
  | nil => exact ⟨h, fun b => ⟨min_le_right _ _, le_rfl⟩⟩
  | cons t l ih =>
    obtain ⟨ht, hl⟩ := List.forall_mem_cons.mp hl
    obtain ⟨hzero, hzeros⟩ := List.forall_mem_cons.mp hzero
    obtain ⟨hnew, hnodup⟩ := List.nodup_cons.mp hnodup
    have hlt : t.2 < s.1.length := by
      rw [h.length]
      exact (List.getElem?_eq_some_iff.mp ht).1
    obtain ⟨haccounts, hrest⟩ := ih (h.fill ht hzero) hl (fun u hu => by
      have hne : u.2 ≠ t.2 := fun heq => hnew (heq ▸ List.mem_map_of_mem hu)
      rw [ThreeBudget.fill, entry_set _ hlt, if_neg hne, hzeros u hu]) hnodup
    refine ⟨haccounts, fun b => ?_⟩
    obtain ⟨hlow, hhigh⟩ :=
      left_fill_spec b s (t := t) (hproper.take_nonneg b (List.mem_of_getElem? ht))
    exact ⟨(le_min (min_le_left _ _) hlow).trans (hrest b).1, (hrest b).2.trans hhigh⟩

/-! ### The plan -/

/-- What is left after what is forced in. -/
theorem left_foldl_use (b : Budget) (ts : List WorkloadType) (l : Left) :
    b.left (ts.foldl (fun l t => Left.use l t 1) l) = b.left l - (ts.map b.take).sum := by
  induction ts generalizing l with
  | nil => exact (sub_zero _).symm
  | cons t ts ih =>
    rw [List.foldl_cons, ih, Budget.left_use, List.map_cons, List.sum_cons, one_mul, sub_sub]

theorem entry_forcedIn {i : ℕ} {t : WorkloadType} (ht : lp.types[i]? = some t) :
    entry (lp.types.map fun t => if forced p t then (1 : ℚ) else 0) i
      = if forced p t then 1 else 0 := by
  rw [entry, List.getD_eq_getElem?_getD, List.getElem?_map, ht]
  rfl

/-- The accounts before the fill. -/
theorem accounts_forcedIn (lp : ThreeBudget) (p : Prices3) :
    Accounts lp (lp.types.map fun t => if forced p t then 1 else 0,
      (lp.types.filter (forced p)).foldl (fun l t => Left.use l t 1) ⟨lp.R, lp.C, lp.K⟩) := by
  refine ⟨List.length_map _, fun y hy => ?_, fun b => ?_⟩
  · obtain ⟨t, -, rfl⟩ := List.mem_map.mp hy
    split
    · exact ⟨zero_le_one, le_rfl⟩
    · exact ⟨le_rfl, zero_le_one⟩
  · have hsize : b.left ⟨lp.R, lp.C, lp.K⟩ = b.size lp := by cases b <;> rfl
    rw [left_foldl_use, hsize, sum_map_filter, sum_map_types, used]
    refine congrArg (b.size lp - ·) (congrArg List.sum (List.map_congr_left fun t ht => ?_))
    rw [entry_forcedIn (List.mem_zipIdx_iff_getElem?.mp ht)]
    split
    · rw [mul_one]
    · rw [mul_zero]

/-- The plan: what it leaves of a budget is no more than what is forced in leaves, and not below
zero unless that is. -/
theorem admitFractions_spec (hproper : lp.Proper) (p : Prices3) :
    ∃ l : Left, Accounts lp (lp.admitFractions p, l) ∧ ∀ b : Budget,
      min 0 (b.size lp - lp.forcedUse b p) ≤ b.left l ∧
        b.left l ≤ b.size lp - lp.forcedUse b p := by
  have hforced : ∀ b : Budget, b.left ((lp.types.filter (forced p)).foldl
      (fun l t => Left.use l t 1) ⟨lp.R, lp.C, lp.K⟩) = b.size lp - lp.forcedUse b p := by
    intro b
    rw [left_foldl_use, forcedUse]
    cases b <;> rfl
  rw [admitFractions]
  split
  · have hindices : ∀ t ∈ lp.types.zipIdx.filter fun t =>
        !forced p t.1 && decide (-redTol ≤ reduced p t.1), lp.types[t.2]? = some t.1 := fun t ht =>
      List.mem_zipIdx_iff_getElem?.mp (List.mem_filter.mp ht).1
    obtain ⟨haccounts, hleft⟩ := (accounts_forcedIn lp p).foldl_fill hproper hindices
      (fun t ht => by
        have hnot := (Bool.and_eq_true_iff.mp (List.mem_filter.mp ht).2).1
        rw [Bool.not_eq_true'] at hnot
        rw [entry_forcedIn (hindices t ht), hnot]
        rfl)
      (by
        have hall : (lp.types.zipIdx.map Prod.snd).Nodup := by
          rw [List.zipIdx_map_snd]
          exact List.nodup_range'
        exact hall.sublist (List.filter_sublist.map _))
    refine ⟨_, haccounts, fun b => ?_⟩
    rw [← hforced b]
    exact hleft b
  · refine ⟨_, accounts_forcedIn lp p, fun b => ?_⟩
    rw [← hforced b]
    exact ⟨min_le_right _ _, le_rfl⟩

/-- **The plan keeps to the budgets just where what is forced in does**, up to any tolerance. -/
theorem admitFractions_within_iff (hproper : lp.Proper) {tol : ℚ} (htol : 0 ≤ tol) (p : Prices3) :
    lp.Within tol (lp.admitFractions p) ↔ lp.Fits tol p := by
  obtain ⟨l, haccounts, hleft⟩ := admitFractions_spec hproper p
  constructor
  · intro h b
    have hused := h.budget b
    have heq := haccounts.left b
    have hhigh := (hleft b).2
    dsimp only at heq
    linarith
  · intro h
    refine ⟨haccounts.length, haccounts.unit, fun b => ?_⟩
    have heq := haccounts.left b
    have hlow := (hleft b).1
    have hmin : -tol ≤ min 0 (b.size lp - lp.forcedUse b p) :=
      le_min (neg_nonpos.mpr htol) (by linarith [h b])
    dsimp only at heq
    linarith

/-! ### Prices that minimise the dual -/

/-- One archetype when a price is raised by so little that it stays above its bid. -/
theorem max_reduced_raise_le (b : Budget) {s : ℚ} {t : WorkloadType} (hper : 0 ≤ s * b.per t)
    (hshort : s * b.per t ≤ redTol) :
    max 0 (reduced (b.raise p s) t)
      ≤ max 0 (reduced p t) - if forced p t then s * b.per t else 0 := by
  have hraise : reduced (b.raise p s) t = reduced p t - s * b.per t := by
    cases b <;> simp only [Budget.raise, Budget.per, reduced] <;> ring
  rw [hraise]
  cases hforced : forced p t with
  | true =>
    rw [forced, decide_eq_true_iff] at hforced
    have hpos := TwoBudget.redTol_pos.trans hforced
    rw [if_pos rfl, max_eq_right (by linarith), max_eq_right hpos.le]
  | false =>
    rw [if_neg Bool.false_ne_true, sub_zero]
    exact max_le_max_left 0 (by linarith)

/-- **What is forced in fits** where the prices minimise the dual: with a price raised by little,
the dual changes by what the budget has left after what is forced in. -/
theorem forcedUse_le (hproper : lp.Proper) (hp : Nonneg p)
    (hle : ∀ q, Nonneg q → lp.dualObjective p ≤ lp.dualObjective q) (b : Budget) :
    lp.forcedUse b p ≤ b.size lp := by
  have hnonneg : ∀ y ∈ lp.types.map b.per, 0 ≤ y := by
    intro y hy
    obtain ⟨t, ht, rfl⟩ := List.mem_map.mp hy
    exact hproper.per_nonneg b ht
  obtain ⟨s, hs, hshort⟩ : ∃ s > 0, ∀ t ∈ lp.types, s * b.per t ≤ redTol := by
    have hpos : 0 < 1 + (lp.types.map b.per).sum := by linarith [List.sum_nonneg hnonneg]
    refine ⟨redTol / (1 + (lp.types.map b.per).sum), div_pos TwoBudget.redTol_pos hpos,
      fun t ht => ?_⟩
    rw [div_mul_eq_mul_div, div_le_iff₀ hpos]
    refine mul_le_mul_of_nonneg_left ?_ TwoBudget.redTol_pos.le
    linarith [List.single_le_sum hnonneg _ (List.mem_map_of_mem ht)]
  have hterm : ∀ t ∈ lp.types, t.weight * max 0 (reduced (b.raise p s) t)
      ≤ t.weight * max 0 (reduced p t) + -s * if forced p t then b.take t else 0 := by
    intro t ht
    have hstep := mul_le_mul_of_nonneg_left (max_reduced_raise_le (p := p) b
      (mul_nonneg hs.le (hproper.per_nonneg b ht)) (hshort t ht)) (hproper.weight t ht)
    refine hstep.trans (le_of_eq ?_)
    rw [Budget.take]
    split <;> ring
  have hsum := List.sum_le_sum hterm
  rw [List.sum_map_add, List.sum_map_mul_left, ← sum_map_filter, ← forcedUse] at hsum
  have hraised : Nonneg (b.raise p s) := by
    intro c
    have hc := hp c
    cases b <;> cases c <;> first | exact hc | exact add_nonneg hc hs.le
  have hbudgets : ∑ c : Budget, c.price (b.raise p s) * c.size lp
      = ∑ c : Budget, c.price p * c.size lp + s * b.size lp := by
    rw [Budget.sum_eq, Budget.sum_eq]
    cases b <;> simp only [Budget.raise, Budget.price, Budget.size] <;> ring
  have hleast := hle _ hraised
  rw [dualObjective_eq, dualObjective_eq, hbudgets] at hleast
  have hgain : s * lp.forcedUse b p ≤ s * b.size lp := by linarith
  exact le_of_mul_le_mul_left hgain hs

/-! ### The search among near ties -/

/-- `score`. -/
def score (lp : ThreeBudget) (p : Prices3) : List ℚ := [(lp.rejected p : ℚ), p.pK, p.pC, p.pR]

/-- The candidates whose dual is within `redTol` of every candidate's. -/
def nearLeast (lp : ThreeBudget) : List Prices3 :=
  lp.feasible.filter fun f => ∀ g ∈ lp.feasible, lp.dualObjective f ≤ lp.dualObjective g + redTol

/-- The search that has come to `p` settles on `q` when it has seen the rest. -/
inductive Settles (lp : ThreeBudget) : Prices3 → List Prices3 → Prices3 → Prop
  | done (p : Prices3) : Settles lp p [] p
  | keep {p f q : Prices3} {fs : List Prices3} :
    lexGreater (lp.score f) (lp.score p) = false → Settles lp p fs q → Settles lp p (f :: fs) q
  | change {p f q : Prices3} {fs : List Prices3} :
    lexGreater (lp.score f) (lp.score p) = true → Settles lp f fs q → Settles lp p (f :: fs) q

/-- The most selective of the near ties, as it is searched for. -/
def MostSelective (lp : ThreeBudget) (p : Prices3) : Prop :=
  ∃ f fs, lp.nearLeast = f :: fs ∧ lp.Settles f fs p

/-- Where the most selective of the near ties is not the least of the candidates, what is forced in
at its prices fits all the same. -/
def TieFits (lp : ThreeBudget) (tol : ℚ) : Prop :=
  ∀ p, lp.MostSelective p → (∃ q ∈ lp.feasible, lp.dualObjective q < lp.dualObjective p) →
    lp.Fits tol p

theorem near_iff (f : Prices3) : ¬ lp.minD + redTol < lp.dualObjective f ↔
    ∀ g ∈ lp.feasible, lp.dualObjective f ≤ lp.dualObjective g + redTol := by
  rw [not_lt]
  constructor
  · intro h g hg
    exact h.trans (add_le_add_left (leastFrom_map_le lp.dualObjective _ hg) redTol)
  · intro h
    obtain ⟨g, hg, hleast⟩ : ∃ g ∈ lp.feasible, lp.dualObjective g = lp.minD :=
      exists_leastFrom_map lp.dualObjective List.mem_cons_self
    rw [← hleast]
    exact h g hg

/-- The search passes over what is not a near tie. -/
theorem foldl_consider_filter (fs : List Prices3) (best : Prices3 × List ℚ) :
    fs.foldl lp.consider best = (fs.filter fun f =>
      ∀ g ∈ lp.feasible, lp.dualObjective f ≤ lp.dualObjective g + redTol).foldl lp.consider
        best := by
  induction fs generalizing best with
  | nil => rfl
  | cons f fs ih =>
    rw [List.foldl_cons, ih, List.filter_cons]
    by_cases hnear : lp.minD + redTol < lp.dualObjective f
    · have hfar := fun h => (near_iff f).mpr h hnear
      rw [consider, if_pos hnear, if_neg (by simpa using hfar)]
    · rw [if_pos (by simpa using (near_iff f).mp hnear), List.foldl_cons]

theorem settles_foldl {fs : List Prices3} (p : Prices3)
    (hnear : ∀ f ∈ fs, ¬ lp.minD + redTol < lp.dualObjective f) :
    lp.Settles p fs (fs.foldl lp.consider (p, lp.score p)).1 := by
  induction fs generalizing p with
  | nil => exact .done p
  | cons f fs ih =>
    obtain ⟨hf, hfs⟩ := List.forall_mem_cons.mp hnear
    rw [List.foldl_cons, consider, if_neg hf]
    dsimp only
    rw [← score]
    cases hgreater : lexGreater (lp.score f) (lp.score p) with
    | true => exact .change hgreater (ih f hfs)
    | false => exact .keep hgreater (ih p hfs)

theorem Settles.unique {p q r : Prices3} {fs : List Prices3} (hq : lp.Settles p fs q)
    (hr : lp.Settles p fs r) : q = r := by
  induction hq with
  | done p =>
    cases hr
    rfl
  | keep hless _ ih =>
    cases hr with
    | keep _ hr => exact ih hr
    | change hgreater _ => exact absurd (hless.symm.trans hgreater) Bool.false_ne_true
  | change hgreater _ ih =>
    cases hr with
    | keep hless _ => exact absurd (hless.symm.trans hgreater) Bool.false_ne_true
    | change _ hr => exact ih hr

/-- **The solver takes the most selective of the near ties.** -/
theorem mostSelective_iff (lp : ThreeBudget) (p : Prices3) :
    lp.MostSelective p ↔ p = lp.prices := by
  obtain ⟨g, hg, hleast⟩ : ∃ g ∈ lp.feasible, lp.dualObjective g = lp.minD :=
    exists_leastFrom_map lp.dualObjective List.mem_cons_self
  have hmem : ∀ f, f ∈ lp.nearLeast ↔
      f ∈ lp.feasible ∧ ¬ lp.minD + redTol < lp.dualObjective f := by
    intro f
    rw [nearLeast, List.mem_filter, decide_eq_true_iff, near_iff]
  have hgnear : g ∈ lp.nearLeast := by
    refine (hmem g).mpr ⟨hg, ?_⟩
    rw [hleast, not_lt]
    exact le_add_of_nonneg_right TwoBudget.redTol_pos.le
  obtain ⟨f, fs, hcons⟩ := List.exists_cons_of_ne_nil (List.ne_nil_of_mem hgnear)
  have hnear : ∀ h ∈ f :: fs, ¬ lp.minD + redTol < lp.dualObjective h := fun h hh =>
    ((hmem h).mp (hcons ▸ hh)).2
  obtain ⟨hf, hfs⟩ := List.forall_mem_cons.mp hnear
  have hprices : lp.prices = (fs.foldl lp.consider (f, lp.score f)).1 := by
    have hfirst : (-1 : ℚ) + eps < ((lp.rejected f : ℕ) : ℚ) := by
      have hnonneg : (0 : ℚ) ≤ ((lp.rejected f : ℕ) : ℚ) := Nat.cast_nonneg _
      have heps : (-1 : ℚ) + eps < 0 := by norm_num [eps]
      linarith
    rw [prices, foldl_consider_filter, ← nearLeast, hcons, List.foldl_cons, consider, if_neg hf]
    dsimp only
    rw [← score, if_pos (by rw [score, lexGreater, if_pos hfirst])]
  have hsettles := settles_foldl f hfs
  rw [← hprices] at hsettles
  constructor
  · rintro ⟨f', fs', hcons', hp⟩
    obtain ⟨rfl, rfl⟩ := List.cons.inj (hcons.symm.trans hcons')
    exact hp.unique hsettles
  · rintro rfl
    exact ⟨f, fs, hcons, hsettles⟩

/-! ### The solver -/

/-- Where no three planes are nearly but not exactly dependent, what is forced in fits at a
candidate that no candidate is below. -/
theorem fits_of_least (hproper : lp.Proper)
    (hdet : ∀ s ∈ triples lp.planes, det ![s.1.a, s.2.1.a, s.2.2.a] = 0 ∨
      singularTol ≤ |det ![s.1.a, s.2.1.a, s.2.2.a]|)
    (hp : p ∈ lp.feasible) (hleast : ∀ q ∈ lp.feasible, lp.dualObjective p ≤ lp.dualObjective q)
    {tol : ℚ} (htol : 0 ≤ tol) : lp.Fits tol p := by
  have hle : ∀ q, Nonneg q → lp.dualObjective p ≤ lp.dualObjective q := by
    intro q hq
    obtain ⟨f, hf, hbelow⟩ := lp.exists_feasible_le (hproper.size .rate).le (hproper.size .cost).le
      (hproper.size .conc).le hproper.weight hdet (hq .rate) (hq .cost) (hq .conc)
    exact (hleast f hf).trans hbelow
  intro b
  exact (forcedUse_le hproper (nonneg_of_feasible hp) hle b).trans (le_add_of_nonneg_right htol)

/-- **The plan is feasible just where what is forced in fits** at the prices that are taken. -/
theorem solve_planOk_iff (hproper : lp.Proper) {tol : ℚ} (htol : 0 ≤ tol) :
    lp.PlanOk tol lp.solve ↔ lp.Fits tol lp.prices := by
  rw [← admitFractions_within_iff hproper htol]
  obtain ⟨q, hq, hleast⟩ : ∃ q ∈ lp.feasible, lp.dualObjective q = lp.minD :=
    exists_leastFrom_map lp.dualObjective List.mem_cons_self
  have hnonneg := nonneg_of_feasible hq
  have hbound : ∀ {slack : ℚ} {x : List ℚ}, lp.Within slack x →
      lp.worth x ≤ lp.minD + slack * ∑ b : Budget, b.price q := by
    intro slack x hx
    have hworth := worth_le hproper hx.unit q
    have hover : ∑ b : Budget, b.price q * (lp.used b x - b.size lp)
        ≤ ∑ b : Budget, b.price q * slack :=
      Finset.sum_le_sum fun b _ =>
        mul_le_mul_of_nonneg_left (by linarith [hx.budget b]) (hnonneg b)
    rw [← Finset.sum_mul, mul_comm] at hover
    rw [hleast] at hworth
    linarith
  constructor
  · exact fun h => h.within
  · intro h
    refine ⟨h, fun x hx => ?_, q, hnonneg, hleast, hbound h⟩
    have hworth := hbound hx
    rwa [zero_mul, add_zero] at hworth

theorem fits_prices_iff (hproper : lp.Proper)
    (hdet : ∀ s ∈ triples lp.planes, det ![s.1.a, s.2.1.a, s.2.2.a] = 0 ∨
      singularTol ≤ |det ![s.1.a, s.2.1.a, s.2.2.a]|)
    {tol : ℚ} (htol : 0 ≤ tol) : lp.Fits tol lp.prices ↔ lp.TieFits tol := by
  constructor
  · rintro h p hp -
    rwa [(lp.mostSelective_iff p).mp hp]
  · intro h
    by_cases htie : ∃ q ∈ lp.feasible, lp.dualObjective q < lp.dualObjective lp.prices
    · exact h _ ((lp.mostSelective_iff _).mpr rfl) htie
    · refine fits_of_least hproper hdet lp.prices_spec.1 (fun q hq => ?_) htol
      exact not_lt.mp fun hlt => htie ⟨q, hq, hlt⟩

/-- Without near ties nothing has to fit. -/
theorem tieFits_of_eq {tol : ℚ} (heq : ∀ f ∈ lp.nearLeast, ∀ g ∈ lp.feasible,
    lp.dualObjective f ≤ lp.dualObjective g) : lp.TieFits tol := by
  rintro p hp ⟨q, hq, hlt⟩
  have hmem : lp.prices ∈ lp.nearLeast := by
    obtain ⟨hfeasible, hnear⟩ := lp.prices_spec
    exact List.mem_filter.mpr ⟨hfeasible, decide_eq_true ((near_iff _).mp (not_lt.mpr hnear))⟩
  rw [(lp.mostSelective_iff p).mp hp] at hlt
  exact absurd (heq _ hmem q hq) (not_le.mpr hlt)

end ThreeBudget

/-- The three-budget program of an input. -/
def FluidLpInput.threeBudget (input : FluidLpInput) (k : ℚ) : ThreeBudget :=
  ⟨input.types, input.rateBudget, input.costBudget, k⟩

/-- The solver returns a plan that is feasible up to the tolerance, and an objective that no
feasible plan is worth more than, nor its own. -/
def ReturnsPlan3 (tol : ℚ) (input : FluidLpInput) (k : ℚ) : Prop :=
  ∃ sol, solveFluidLp input = .ok sol ∧ (input.threeBudget k).PlanOk tol sol

/-- In three-budget mode every hold time is a number that is not negative. -/
theorem hold_nonneg_of_validate {input : FluidLpInput} {k : ℚ} (hvalid : validate input = .ok ())
    (hconc : input.concBudget = some k) : ∀ t ∈ input.types, 0 ≤ t.h := by
  intro t ht
  obtain ⟨i, hi⟩ := List.mem_iff_getElem?.mp ht
  rw [validate, hconc] at hvalid
  dsimp only at hvalid
  split at hvalid
  · cases hvalid
  split at hvalid
  · cases hvalid
  split at hvalid
  · cases hvalid
  split at hvalid
  · cases hvalid
  split at hvalid
  · cases hvalid
  split at hvalid
  · cases hvalid
  split at hvalid
  · cases hvalid
  · rename_i hholds
    have hnone := List.findSome?_eq_none_iff.mp hholds (t, i)
      (List.mem_zipIdx_iff_getElem?.mpr hi)
    rw [holdError] at hnone
    rw [WorkloadType.h]
    cases hhold : t.hold with
    | none =>
      rw [hhold] at hnone
      cases hnone
    | some hold =>
      rw [hhold] at hnone
      dsimp only at hnone
      split at hnone
      · cases hnone
      · exact not_lt.mp ‹_›

/-- **The plan of the three-budget program.** Where no three planes are nearly but not exactly
dependent, the plan is feasible, no feasible plan is worth more than the objective, nor is its own,
just where the near tie that the solver settles on minimises the dual or leaves room for what it
forces in. -/
theorem solveFluidLp_threeBudget_iff (input : FluidLpInput) (k : ℚ)
    (hvalid : validate input = .ok ()) (hconc : input.concBudget = some k)
    (hresolved : Resolved input) (tol : ℚ) (htol : 0 ≤ tol) :
    ReturnsPlan3 tol input k ↔ (input.threeBudget k).TieFits tol := by
  have h := valid_of_validate hvalid
  have hproper : (input.threeBudget k).Proper := by
    refine ⟨h.weight_nonneg, h.cost_nonneg, hold_nonneg_of_validate hvalid hconc, fun b => ?_⟩
    cases b with
    | rate => exact h.rateBudget_pos
    | cost => exact h.costBudget_pos
    | conc => exact h.concBudget_pos k hconc
  have hdet : ∀ s ∈ triples (input.threeBudget k).planes, det ![s.1.a, s.2.1.a, s.2.2.a] = 0 ∨
      singularTol ≤ |det ![s.1.a, s.2.1.a, s.2.2.a]| := by
    rw [Resolved, hconc] at hresolved
    exact hresolved
  have hsolve : solveFluidLp input = .ok (input.threeBudget k).solve := by
    rw [solveFluidLp, hvalid, hconc]
    rfl
  rw [← ThreeBudget.fits_prices_iff hproper hdet htol,
    ← ThreeBudget.solve_planOk_iff hproper htol, ReturnsPlan3, hsolve]
  constructor
  · rintro ⟨sol, hsol, hok⟩
    rwa [Except.ok.inj hsol]
  · exact fun hok => ⟨_, rfl, hok⟩

/-- Short and long requests, where the concurrency budget binds. -/
def shortAndLong : FluidLpInput :=
  ⟨[⟨1, 2, 1, some 1⟩, ⟨1, 3, 1, some 4⟩], 2, 2, some 3⟩

/-- The plan of it is feasible: the short requests, and half of the long ones. -/
theorem solveFluidLp_threeBudget_shortAndLong : ReturnsPlan3 0 shortAndLong 3 :=
  (solveFluidLp_threeBudget_iff shortAndLong 3 (by decide +kernel) rfl
    (by
      show ∀ s ∈ _, _ ∨ _
      decide +kernel) 0 le_rfl).mpr
    (ThreeBudget.tieFits_of_eq (by decide +kernel))

/-- A candidate that turns the requests of a hold time away is within the tolerance of the least,
and forces in requests that take more than the rate budget. -/
def nearTie : FluidLpInput :=
  ⟨[⟨0, 1 / 10000000, 1 / 10, some 1⟩, ⟨0, 2 / 10000000, 1, some 0⟩], 3 / 5, 1, some (1 / 10)⟩

/-- **A near tie overruns the rate budget.** The plan takes a rate of one where there is three
fifths, and is worth more than the objective. -/
theorem not_returnsPlan3 :
    ¬ ∀ (input : FluidLpInput) (k : ℚ), validate input = .ok () → input.concBudget = some k →
      Resolved input → ReturnsPlan3 redTol input k := by
  intro hall
  obtain ⟨sol, hsol, hok⟩ := hall nearTie (1 / 10) (by decide +kernel) rfl (by
    show ∀ s ∈ _, _ ∨ _
    decide +kernel)
  have hplan : solveFluidLp nearTie
      = .ok ⟨⟨0, 0, some (1 / 10000000)⟩, [0, 1], 12 / 100000000⟩ := by decide +kernel
  rw [hplan] at hsol
  have hrate := hok.within.budget .rate
  rw [← Except.ok.inj hsol] at hrate
  exact absurd hrate (by decide +kernel)

end ThrottleKit.FluidLp
