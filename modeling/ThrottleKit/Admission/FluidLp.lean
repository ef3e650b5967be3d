import Mathlib.Data.Fin.VecNotation
import Mathlib.Data.List.Sort
import ThrottleKit.Core.Types
import ThrottleKit.Lib.Entries
import ThrottleKit.Lib.Tuples

/-!
# The fluid program of joint admission

Request archetypes of given values and weights share budgets of rate and cost, and of concurrency if
the input has one. The solver minimises the dual, a convex function of the bid prices that is affine
between the bid lines (planes, with three budgets) and the axes: it evaluates the dual at every
intersection of these that has no negative price, and among those within a tolerance of the least
value takes the most selective one.

The plan admits every archetype worth more than its bid, none worth less, and fills the tight
budgets with the archetypes on their bid lines. With both budgets tight, two archetypes of different
cost are admitted in part, and the others wholly or not at all.

## Main definitions

* `WorkloadType`, `FluidLpInput`, `FluidLpSolution`, `validate` — the program
* `TwoBudget`, `ThreeBudget` — the solver in its two modes
* `solveFluidLp` — the solver
-/

namespace ThrottleKit.FluidLp

open ListEntries Tuples

/-! ### The program -/

/-- One request archetype. -/
structure WorkloadType where
  /-- Cost-axis weight per admission. -/
  cost : ℚ
  /-- Business value of admitting one. -/
  value : ℚ
  /-- Arrival weight. -/
  weight : ℚ
  /-- Expected hold time, for the concurrency axis. -/
  hold : Option ℚ
deriving DecidableEq

/-- The workload mixture and the budgets. -/
structure FluidLpInput where
  types : List WorkloadType
  rateBudget : ℚ
  costBudget : ℚ
  /-- Set in three-budget mode only. -/
  concBudget : Option ℚ

/-- Bid prices. -/
structure Duals where
  rate : ℚ
  cost : ℚ
  conc : Option ℚ
deriving DecidableEq

structure FluidLpSolution where
  duals : Duals
  /-- How much of each archetype to admit. -/
  admitFractions : List ℚ
  objective : ℚ
deriving DecidableEq

/-- The ways `validate` throws. -/
inductive FluidLpError
  | types
  | field (i : ℕ) (name : String) (value : ℚ)
  | budget (name : String) (value : ℚ)
  | axis
  | concBudget (value : ℚ)
  | hold (i : ℕ) (value : Option ℚ)
deriving DecidableEq

/-- The message of the thrown error. -/
def FluidLpError.message : FluidLpError → String
  | .types => "solveFluidLp: `types` must be a non-empty array"
  | .field i name value =>
    "solveFluidLp: types[" ++ toString i ++ "]." ++ name ++ " must be a finite number ≥ 0 (got " ++
      toString value ++ ")"
  | .budget name value =>
    "solveFluidLp: " ++ name ++ " must be a finite number > 0 (got " ++ toString value ++ ")"
  | .axis =>
    "solveFluidLp: the concurrency axis needs BOTH `concBudget` and every type's `hold` " ++
      "(3-budget mode) — set both or neither"
  | .concBudget value =>
    "solveFluidLp: concBudget must be a finite number > 0 (got " ++ toString value ++ ")"
  | .hold i value =>
    "solveFluidLp: types[" ++ toString i ++
      "].hold must be a finite number ≥ 0 in 3-budget mode (got " ++
      (match value with
        | some value => toString value
        | none => "undefined") ++ ")"

/-- What is wrong with the fields of the archetype at index `i`. -/
def typeError (t : WorkloadType × ℕ) : Option FluidLpError :=
  if t.1.cost < 0 then some (.field t.2 "cost" t.1.cost)
  else if t.1.value < 0 then some (.field t.2 "value" t.1.value)
  else if t.1.weight < 0 then some (.field t.2 "weight" t.1.weight)
  else none

/-- What is wrong with the hold time of the archetype at index `i`. -/
def holdError (t : WorkloadType × ℕ) : Option FluidLpError :=
  match t.1.hold with
  | some hold => if hold < 0 then some (.hold t.2 hold) else none
  | none => some (.hold t.2 none)

/-- `validate(input)`. -/
def validate (input : FluidLpInput) : Except FluidLpError Unit :=
  if input.types.isEmpty then .error .types
  else match input.types.zipIdx.findSome? typeError with
    | some e => .error e
    | none =>
      if input.rateBudget ≤ 0 then .error (.budget "rateBudget" input.rateBudget)
      else if input.costBudget ≤ 0 then .error (.budget "costBudget" input.costBudget)
      else if input.concBudget.isSome ≠ input.types.any (·.hold.isSome) then .error .axis
      else match input.concBudget with
        | none => .ok ()
        | some k =>
          if k ≤ 0 then .error (.concBudget k)
          else match input.types.zipIdx.findSome? holdError with
            | some e => .error e
            | none => .ok ()

/-- `EPS`. -/
def eps : ℚ := 1 / 1000000000

/-- `RED_TOL`. -/
def redTol : ℚ := 1 / 10000000

/-- The least of `d` and the values of a list, as a loop finds it. -/
def leastFrom (d : ℚ) (ds : List ℚ) : ℚ := ds.foldl (fun minD d => if d < minD then d else minD) d

/-! ### Two budgets -/

/-- A pair of bid prices. -/
structure Prices where
  pR : ℚ
  pC : ℚ
deriving DecidableEq

/-- `types`, `R` and `C`. -/
structure TwoBudget where
  types : List WorkloadType
  R : ℚ
  C : ℚ

namespace TwoBudget

variable (lp : TwoBudget)

/-- What an archetype is worth above its bid. -/
def reduced (p : Prices) (t : WorkloadType) : ℚ := t.value - p.pR - p.pC * t.cost

/-- `dualObjective(pR, pC)`. -/
def dualObjective (p : Prices) : ℚ :=
  lp.R * p.pR + lp.C * p.pC + (lp.types.map fun t => t.weight * max 0 (reduced p t)).sum

/-- The bid line of an archetype crosses the axes. -/
def axisCandidates (t : WorkloadType) : List Prices :=
  ⟨t.value, 0⟩ :: if eps < t.cost then [⟨0, t.value / t.cost⟩] else []

/-- Two bid lines cross, unless they are parallel. -/
def crossing (s t : WorkloadType) : Option Prices :=
  let dc := t.cost - s.cost
  if |dc| ≤ eps then none
  else
    let pC := (t.value - s.value) / dc
    some ⟨s.value - pC * s.cost, pC⟩

/-- The candidates after the origin. -/
def candidates : List Prices :=
  lp.types.flatMap axisCandidates ++ (pairs lp.types).filterMap fun st => crossing st.1 st.2

/-- A candidate without a negative price, cut off at zero. -/
def feasible? (p : Prices) : Option Prices :=
  if p.pR < -eps ∨ p.pC < -eps then none else some ⟨max 0 p.pR, max 0 p.pC⟩

/-- The feasible candidates. The first is the origin. -/
def feasible : List Prices := ⟨0, 0⟩ :: lp.candidates.filterMap feasible?

/-- `minD`. -/
def minD : ℚ := leastFrom (lp.dualObjective ⟨0, 0⟩) (lp.feasible.map lp.dualObjective)

/-- The archetypes that the prices turn away. -/
def rejected (p : Prices) : ℕ := lp.types.countP fun t => reduced p t < -redTol

/-- `best` and `bestScore`. -/
structure Best where
  prices : Prices
  score : ℤ × ℚ × ℚ

/-- One candidate of the search for the most selective prices. -/
def consider (best : Best) (f : Prices) : Best :=
  if lp.minD + redTol < lp.dualObjective f then best
  else
    let score : ℤ × ℚ × ℚ := (lp.rejected f, f.pC, f.pR)
    if best.score.1 < score.1 ∨
        (score.1 = best.score.1 ∧ best.score.2.1 + eps < score.2.1) ∨
        (score.1 = best.score.1 ∧ |score.2.1 - best.score.2.1| ≤ eps ∧
          best.score.2.2 < score.2.2) then ⟨f, score⟩
    else best

/-- The bid prices. -/
def prices : Prices := (lp.feasible.foldl lp.consider ⟨⟨0, 0⟩, -1, -1, -1⟩).prices

/-! The plan -/

/-- The weight of the archetype at index `i`. -/
def w (i : ℕ) : ℚ := entry (lp.types.map WorkloadType.weight) i

/-- The cost of the archetype at index `i`. -/
def c (i : ℕ) : ℚ := entry (lp.types.map WorkloadType.cost) i

/-- Admitted for being worth more than the bid. -/
def forced (p : Prices) (t : WorkloadType) : Bool := redTol < reduced p t

/-- The plan before the marginal archetypes. -/
def forcedIn (p : Prices) : List ℚ := lp.types.map fun t => if forced p t then 1 else 0

/-- The indices of the archetypes on their bid lines. -/
def marginal (p : Prices) : List ℕ :=
  (lp.types.zipIdx.filter fun t => !forced p t.1 && decide (-redTol ≤ reduced p t.1)).map Prod.snd

def forcedRate (p : Prices) : ℚ := ((lp.types.filter (forced p)).map WorkloadType.weight).sum

def forcedCost (p : Prices) : ℚ :=
  ((lp.types.filter (forced p)).map fun t => t.weight * t.cost).sum

/-- Fill the rate budget, cheapest archetypes first: the plan and the rate so far. -/
def fillRate (remR : ℚ) (s : List ℚ × ℚ) (i : ℕ) : List ℚ × ℚ :=
  let need := lp.w i
  if need ≤ eps then (s.1.set i 1, s.2)
  else if s.2 + need ≤ remR + eps then (s.1.set i 1, s.2 + need)
  else (s.1.set i (max 0 (min 1 ((remR - s.2) / need))), remR)

/-- Fill the cost budget, dearest archetypes first: the plan and the cost so far. -/
def fillCost (remC : ℚ) (s : List ℚ × ℚ) (i : ℕ) : List ℚ × ℚ :=
  let need := lp.w i * lp.c i
  if need ≤ eps then s
  else if s.2 + need ≤ remC + eps then (s.1.set i 1, s.2 + need)
  else (s.1.set i (max 0 (min 1 ((remC - s.2) / need))), remC)

/-- The others of `mask`, admitted wholly. -/
def chosen (others : List ℕ) (mask : ℕ) : List ℕ :=
  (others.zipIdx.filter fun o => mask.testBit o.2).map Prod.fst

/-- Two archetypes in part, and the others of `mask` wholly, if that hits both budgets. -/
def splitPair (x : List ℚ) (a b : ℕ) (others : List ℕ) (remR remC : ℚ) (mask : ℕ) :
    Option (List ℚ) :=
  let det := lp.w a * (lp.w b * lp.c b) - lp.w b * (lp.w a * lp.c a)
  let fr := ((chosen others mask).map lp.w).sum
  let fc := ((chosen others mask).map fun i => lp.w i * lp.c i).sum
  let b1 := remR - fr
  let b2 := remC - fc
  let xa := (b1 * (lp.w b * lp.c b) - lp.w b * b2) / det
  let xb := (lp.w a * b2 - b1 * (lp.w a * lp.c a)) / det
  if -eps ≤ xa ∧ xa ≤ 1 + eps ∧ -eps ≤ xb ∧ xb ≤ 1 + eps then
    let x := (x.set a (max 0 (min 1 xa))).set b (max 0 (min 1 xb))
    some (others.zipIdx.foldl (fun x o => x.set o.1 (if mask.testBit o.2 then 1 else 0)) x)
  else none

/-- The pairs of `fillBothTight`, as positions of `M`, until one hits both budgets. -/
def fillBothTight? (x : List ℚ) (M : List ℕ) (remR remC : ℚ) : Option (List ℚ) :=
  -- past twelve marginal archetypes the others are not enumerated
  let exhaustive := M.length ≤ 12
  (pairs M.zipIdx).findSome? fun ab =>
    let a := ab.1.1
    let b := ab.2.1
    let det := lp.w a * (lp.w b * lp.c b) - lp.w b * (lp.w a * lp.c a)
    if |det| ≤ eps then none
    else
      let others := (M.zipIdx.filter fun o => o.2 ≠ ab.1.2 && o.2 ≠ ab.2.2).map Prod.fst
      let combos := if exhaustive then 2 ^ others.length else 1
      (List.range combos).findSome? (lp.splitPair x a b others remR remC)

/-- `fillBothTight`: where no pair hits both budgets, every marginal archetype is admitted. -/
def fillBothTight (x : List ℚ) (M : List ℕ) (remR remC : ℚ) : List ℚ :=
  match lp.fillBothTight? x M remR remC with
  | some x => x
  | none => M.foldl (fun x i => x.set i 1) x

/-- `fillMarginal`. -/
def fillMarginal (x : List ℚ) (M : List ℕ) (remR remC : ℚ) (rateTight costTight : Bool) :
    List ℚ :=
  if M = [] then x
  else match rateTight, costTight with
    | false, false => x
    | true, false =>
      ((M.insertionSort fun a b => lp.c a ≤ lp.c b).foldl (lp.fillRate remR) (x, 0)).1
    | false, true =>
      ((M.insertionSort fun a b => lp.c b ≤ lp.c a).foldl (lp.fillCost remC) (x, 0)).1
    | true, true => lp.fillBothTight x M remR remC

/-- `x`: the plan consistent with the prices. -/
def admitFractions (p : Prices) : List ℚ :=
  lp.fillMarginal (lp.forcedIn p) (lp.marginal p) (max 0 (lp.R - lp.forcedRate p))
    (max 0 (lp.C - lp.forcedCost p)) (redTol < p.pR) (redTol < p.pC)

/-- What a plan is worth. -/
def objective (x : List ℚ) : ℚ :=
  (lp.types.zipIdx.map fun t => t.1.weight * t.1.value * entry x t.2).sum

/-- The solution with two budgets. -/
def solve : FluidLpSolution where
  duals := ⟨lp.prices.pR, lp.prices.pC, none⟩
  admitFractions := lp.admitFractions lp.prices
  objective := lp.objective (lp.admitFractions lp.prices)

end TwoBudget

/-! ### Three budgets -/

/-- `det` of a matrix of three rows. -/
def det (m : Fin 3 → Fin 3 → ℚ) : ℚ :=
  m 0 0 * (m 1 1 * m 2 2 - m 1 2 * m 2 1) - m 0 1 * (m 1 0 * m 2 2 - m 1 2 * m 2 0)
    + m 0 2 * (m 1 0 * m 2 1 - m 1 1 * m 2 0)

/-- The matrix with column `j` replaced. -/
def col (A : Fin 3 → Fin 3 → ℚ) (b : Fin 3 → ℚ) (j i k : Fin 3) : ℚ := if k = j then b i else A i k

/-- Below this a matrix counts as singular. -/
def singularTol : ℚ := 1 / 1000000000000

/-- `solve3x3(A, b)`. -/
def solve3x3 (A : Fin 3 → Fin 3 → ℚ) (b : Fin 3 → ℚ) : Option (ℚ × ℚ × ℚ) :=
  let D := det A
  if |D| < singularTol then none
  else some (det (col A b 0) / D, det (col A b 1) / D, det (col A b 2) / D)

/-- `lexGreater(a, b)`. -/
def lexGreater : List ℚ → List ℚ → Bool
  | a :: as, b :: bs =>
    if b + eps < a then true else if a < b - eps then false else lexGreater as bs
  | _, _ => false

/-- Three bid prices. -/
structure Prices3 where
  pR : ℚ
  pC : ℚ
  pK : ℚ
deriving DecidableEq

/-- A plane `a · (pR, pC, pK) = b`. -/
structure Plane where
  a : Fin 3 → ℚ
  b : ℚ

/-- `types`, `R`, `C` and `K`. -/
structure ThreeBudget where
  types : List WorkloadType
  R : ℚ
  C : ℚ
  K : ℚ

/-- `t.hold as number`: in three-budget mode every archetype has one. -/
def WorkloadType.h (t : WorkloadType) : ℚ := t.hold.getD 0

namespace ThreeBudget

variable (lp : ThreeBudget)

/-- What an archetype is worth above its bid. -/
def reduced (p : Prices3) (t : WorkloadType) : ℚ := t.value - p.pR - p.pC * t.cost - p.pK * t.h

/-- `dualObjective(pR, pC, pK)`. -/
def dualObjective (p : Prices3) : ℚ :=
  lp.R * p.pR + lp.C * p.pC + lp.K * p.pK
    + (lp.types.map fun t => t.weight * max 0 (reduced p t)).sum

/-- The axis planes and the bid planes. -/
def planes : List Plane :=
  [⟨![1, 0, 0], 0⟩, ⟨![0, 1, 0], 0⟩, ⟨![0, 0, 1], 0⟩] ++
    lp.types.map fun t => ⟨![1, t.cost, t.h], t.value⟩

/-- Where three planes meet, without a negative price, cut off at zero. -/
def meeting (s : Plane × Plane × Plane) : Option Prices3 :=
  (solve3x3 ![s.1.a, s.2.1.a, s.2.2.a] ![s.1.b, s.2.1.b, s.2.2.b]).bind fun sol =>
    if sol.1 < -eps ∨ sol.2.1 < -eps ∨ sol.2.2 < -eps then none
    else some ⟨max 0 sol.1, max 0 sol.2.1, max 0 sol.2.2⟩

/-- The feasible candidates. The first is the origin. -/
def feasible : List Prices3 := ⟨0, 0, 0⟩ :: (triples lp.planes).filterMap meeting

/-- `minD`. -/
def minD : ℚ := leastFrom (lp.dualObjective ⟨0, 0, 0⟩) (lp.feasible.map lp.dualObjective)

/-- The archetypes that the prices turn away. -/
def rejected (p : Prices3) : ℕ := lp.types.countP fun t => reduced p t < -redTol

/-- One candidate of the search for the most selective prices: `best` and `bestScore`. -/
def consider (best : Prices3 × List ℚ) (f : Prices3) : Prices3 × List ℚ :=
  if lp.minD + redTol < lp.dualObjective f then best
  else
    let score := [(lp.rejected f : ℚ), f.pK, f.pC, f.pR]
    if lexGreater score best.2 then (f, score) else best

/-- The bid prices. -/
def prices : Prices3 := (lp.feasible.foldl lp.consider (⟨0, 0, 0⟩, [-1, -1, -1, -1])).1

/-- Admitted for being worth more than the bid. -/
def forced (p : Prices3) (t : WorkloadType) : Bool := redTol < reduced p t

/-- What is left of the three budgets. -/
structure Left where
  remR : ℚ
  remC : ℚ
  remK : ℚ

/-- What a fraction of an archetype uses up. -/
def Left.use (left : Left) (t : WorkloadType) (frac : ℚ) : Left where
  remR := left.remR - frac * t.weight
  remC := left.remC - frac * t.weight * t.cost
  remK := left.remK - frac * t.weight * t.h

/-- As much of an archetype as the three budgets leave room for. -/
def Left.room (left : Left) (t : WorkloadType) : ℚ :=
  let frac := 1
  let frac := if 0 < t.weight then min frac (max 0 left.remR / t.weight) else frac
  let frac :=
    if 0 < t.weight * t.cost then min frac (max 0 left.remC / (t.weight * t.cost)) else frac
  let frac := if 0 < t.weight * t.h then min frac (max 0 left.remK / (t.weight * t.h)) else frac
  max 0 (min 1 frac)

/-- One archetype on its bid plane: the plan and what is left. -/
def fill (s : List ℚ × Left) (t : WorkloadType × ℕ) : List ℚ × Left :=
  (s.1.set t.2 (s.2.room t.1), s.2.use t.1 (s.2.room t.1))

/-- The plan, greedy over the archetypes on their bid planes. -/
def admitFractions (p : Prices3) : List ℚ :=
  let x := lp.types.map fun t => if forced p t then 1 else 0
  let left : Left :=
    (lp.types.filter (forced p)).foldl (fun left t => Left.use left t 1) ⟨lp.R, lp.C, lp.K⟩
  if redTol < p.pR ∨ redTol < p.pC ∨ redTol < p.pK then
    ((lp.types.zipIdx.filter fun t => !forced p t.1 && decide (-redTol ≤ reduced p t.1)).foldl
      fill (x, left)).1
  else x

/-- The solution with three budgets. -/
def solve : FluidLpSolution where
  duals := ⟨lp.prices.pR, lp.prices.pC, some lp.prices.pK⟩
  admitFractions := lp.admitFractions lp.prices
  objective := lp.minD

end ThreeBudget

/-- `solveFluidLp(input)`. -/
def solveFluidLp (input : FluidLpInput) : Except FluidLpError FluidLpSolution :=
  match validate input with
  | .error e => .error e
  | .ok () =>
    match input.concBudget with
    | some k => .ok (ThreeBudget.mk input.types input.rateBudget input.costBudget k).solve
    | none => .ok (TwoBudget.mk input.types input.rateBudget input.costBudget).solve

/-! ### Valid input -/

/-- What `validate` lets through. -/
structure Valid (input : FluidLpInput) : Prop where
  nonempty : input.types ≠ []
  cost_nonneg : ∀ t ∈ input.types, 0 ≤ t.cost
  value_nonneg : ∀ t ∈ input.types, 0 ≤ t.value
  weight_nonneg : ∀ t ∈ input.types, 0 ≤ t.weight
  rateBudget_pos : 0 < input.rateBudget
  costBudget_pos : 0 < input.costBudget
  concBudget_pos : ∀ k, input.concBudget = some k → 0 < k

theorem valid_of_validate {input : FluidLpInput} (h : validate input = .ok ()) : Valid input := by
  rw [validate] at h
  split at h
  · cases h
  · rename_i hempty
    split at h
    · cases h
    · rename_i hfields
      have hfield : ∀ t ∈ input.types, 0 ≤ t.cost ∧ 0 ≤ t.value ∧ 0 ≤ t.weight := by
        intro t ht
        obtain ⟨i, hi⟩ := List.mem_iff_getElem?.mp ht
        have hnone := List.findSome?_eq_none_iff.mp hfields (t, i)
          (List.mem_zipIdx_iff_getElem?.mpr hi)
        rw [typeError] at hnone
        split at hnone
        · cases hnone
        · split at hnone
          · cases hnone
          · split at hnone
            · cases hnone
            · exact ⟨not_lt.mp ‹_›, not_lt.mp ‹_›, not_lt.mp ‹_›⟩
      split at h
      · cases h
      · rename_i hR
        split at h
        · cases h
        · rename_i hC
          split at h
          · cases h
          · refine ⟨fun hnil => hempty (by rw [hnil]; rfl), fun t ht => (hfield t ht).1,
              fun t ht => (hfield t ht).2.1, fun t ht => (hfield t ht).2.2, not_le.mp hR,
              not_le.mp hC, fun k hk => ?_⟩
            rw [hk] at h
            dsimp only at h
            split at h
            · cases h
            · exact not_le.mp ‹_›

end ThrottleKit.FluidLp
