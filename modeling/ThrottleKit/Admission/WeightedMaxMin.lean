import Mathlib.Data.List.Sort
import ThrottleKit.Core.Types
import ThrottleKit.Lib.Entries
import ThrottleKit.Lib.Rounding
import ThrottleKit.Lib.WaterFilling

/-!
# Weighted max-min fairness

An integer budget is split over tenants of different weights and demands. The continuous split
raises one water level: tenants are visited by demand per weight, those that the level of the moment
fills are served and leave the rest to the others, and the first that is not filled settles the
level for all that remain. The split is rounded down, and the units that rounding leaves over go one
by one to the tenant with the least service for its weight among those below their demand.

Each operation is rounded, so that a product of a weight and a level that is a whole number may
come out below it. A unit is then missing from the share of the tenant, and goes out with the units
that are left over, to whoever is first.

Arrays are lists, read and written at an index. Quotients and sums that overflow, and a remainder of
more than 53 bits, from which no unit can be taken, are left out.

## Main definitions

* `validateAllocation`, `waterfillContinuous`, `drip`, `weightedMaxMin` — the code
* `IsMaxMin` — what makes a whole allocation weighted max-min fair
* `SharesKept` — no share is rounded across a whole number

## Main results

* `waterfillContinuous_spec` — one level for every tenant
* `drip_spec` — the units left over
* `weightedMaxMin_isMaxMin` — the allocation
* `not_weightedMaxMin_isMaxMin` — and a share that loses a unit
-/

namespace ThrottleKit.WeightedMaxMin

open ListEntries WaterFilling Rounding

/-- The ways an allocation throws on its arguments. -/
inductive AllocationError
  | lengths (demands weights : ℕ)
  | limit (value : ℚ)
  | weight (value : ℚ)
  | demand (value : ℚ)
deriving DecidableEq

/-- The message of the thrown `RangeError`. -/
def AllocationError.message : AllocationError → String
  | .lengths demands weights =>
    "weightedMaxMin: demands/weights length mismatch (" ++ toString demands ++ " vs " ++
      toString weights ++ ")"
  | .limit value =>
    "weightedMaxMin.limit must be a finite number >= 0, got " ++ toString value
  | .weight value =>
    "weightedMaxMin.weight must be a positive finite number, got " ++ toString value
  | .demand value =>
    "weightedMaxMin.demand must be a finite number >= 0, got " ++ toString value

/-- `validateAllocation(demands, weights, limit)`. -/
def validateAllocation (demands weights : List ℚ) (limit : ℚ) : Except AllocationError Unit :=
  if demands.length ≠ weights.length then .error (.lengths demands.length weights.length)
  else if limit < 0 then .error (.limit limit)
  else match weights.find? (· ≤ 0) with
    | some w => .error (.weight w)
    | none =>
      match demands.find? (· < 0) with
      | some d => .error (.demand d)
      | none => .ok ()

section Code

variable [Rounding]

/-- The indices by ascending demand per weight. -/
def order (demands weights : List ℚ) : List ℕ :=
  (List.range demands.length).insertionSort fun a b =>
    fl (entry demands a / entry weights a) ≤ fl (entry demands b / entry weights b)

/-- The level of an even split of what remains. -/
def levelOf (rem activeWeight : ℚ) : ℚ := if 0 < activeWeight then fl (rem / activeWeight) else 0

/-- The loop of `waterfillContinuous` over what remains of the order. -/
def fill (demands weights : List ℚ) : List ℕ → ℚ → ℚ → List ℚ → List ℚ
  | [], _, _, alloc => alloc
  | i :: rest, rem, activeWeight, alloc =>
    let w := entry weights i
    let d := entry demands i
    let level := levelOf rem activeWeight
    if d ≤ fl (w * level) then
      fill demands weights rest (fl (rem - d)) (fl (activeWeight - w)) (alloc.set i d)
    else (i :: rest).foldl (fun alloc m => alloc.set m (fl (entry weights m * level))) alloc

/-- `waterfillContinuous(demands, weights, limit)`. -/
def waterfillContinuous (demands weights : List ℚ) (limit : ℚ) : List ℚ :=
  fill demands weights (order demands weights) limit (sumOf weights)
    (List.replicate demands.length 0)

/-- One tenant of the scan: `best` and `bestRatio`, which are `-1` and `Infinity` at first. -/
def consider (demands weights : List ℚ) (alloc : List ℤ) (best : Option (ℕ × ℚ)) (i : ℕ) :
    Option (ℕ × ℚ) :=
  if entry demands i ≤ (entry alloc i : ℤ) then best
  else
    let ratio := fl ((entry alloc i : ℤ) / entry weights i)
    match best with
    | none => some (i, ratio)
    | some (_, bestRatio) => if ratio < bestRatio then some (i, ratio) else best

/-- The scan for the tenant below its demand with the least service for its weight, among the first
`n`. -/
def best (demands weights : List ℚ) (alloc : List ℤ) (n : ℕ) : Option (ℕ × ℚ) :=
  (List.range n).foldl (consider demands weights alloc) none

/-- The loop that hands out what rounding has left over. -/
def drip (demands weights : List ℚ) : ℕ → List ℤ → List ℤ
  | 0, alloc => alloc
  | leftover + 1, alloc =>
    match best demands weights alloc alloc.length with
    | none => alloc
    | some (i, _) =>
      drip demands weights leftover (alloc.set i ⌊fl (((entry alloc i : ℤ) : ℚ) + 1)⌋)

/-- The allocation, past the checks of `weightedMaxMin`. -/
def allocate (demands weights : List ℚ) (limit : ℚ) : List ℤ :=
  let alloc := (waterfillContinuous demands weights limit).map Int.floor
  let leftover := fl (⌊limit⌋ - sumOf (alloc.map fun a : ℤ => (a : ℚ)))
  drip demands weights ⌊leftover⌋.toNat alloc

/-- `weightedMaxMin(demands, weights, limit)`. -/
def weightedMaxMin (demands weights : List ℚ) (limit : ℚ) : Except AllocationError (List ℤ) := do
  validateAllocation demands weights limit
  return allocate demands weights limit

/-- The shares of the tenants of `l`, as they are computed, have the whole parts that they should
have, where `left` is to be split over them: a tenant that the level fills is filled, and what the
last level gives the others is not rounded across a whole number. -/
def Kept (demands weights : List ℚ) : List ℕ → ℚ → ℚ → ℚ → Prop
  | [], _, _, _ => True
  | i :: rest, rem, activeWeight, left =>
    let w := entry weights i
    let d := entry demands i
    let level := left / ((i :: rest).map (entry weights)).sum
    if d ≤ w * level then
      d ≤ fl (w * levelOf rem activeWeight) ∧
        Kept demands weights rest (fl (rem - d)) (fl (activeWeight - w)) (left - d)
    else ∀ m ∈ i :: rest,
      ⌊fl (entry weights m * levelOf rem activeWeight)⌋ = ⌊entry weights m * level⌋

/-- **The condition on the split.** No sum or level overflows, whole numbers of the size of the
limit are told apart, and no share is rounded across a whole number. -/
structure SharesKept (demands weights : List ℚ) (limit : ℚ) : Prop where
  limit_lt : limit < 2 ^ 52
  weights_lt : weights.sum < 2 ^ (1023 : ℤ)
  level_lt : ∀ w ∈ weights, limit / w < 2 ^ (1023 : ℤ)
  kept : Kept demands weights (order demands weights) limit (sumOf weights) limit

instance Kept.decidable (demands weights : List ℚ) : ∀ (l : List ℕ) (rem activeWeight left : ℚ),
    Decidable (Kept demands weights l rem activeWeight left)
  | [], _, _, _ => isTrue trivial
  | i :: rest, rem, activeWeight, left =>
    have := Kept.decidable demands weights rest (fl (rem - entry demands i))
      (fl (activeWeight - entry weights i)) (left - entry demands i)
    inferInstanceAs (Decidable (ite _ (_ ∧ Kept _ _ _ _ _ _) (∀ m ∈ i :: rest, _ = _)))

instance SharesKept.decidable (demands weights : List ℚ) (limit : ℚ) :
    Decidable (SharesKept demands weights limit) :=
  decidable_of_iff (limit < 2 ^ 52 ∧ weights.sum < 2 ^ (1023 : ℤ) ∧
      (∀ w ∈ weights, limit / w < 2 ^ (1023 : ℤ)) ∧
      Kept demands weights (order demands weights) limit (sumOf weights) limit)
    ⟨fun ⟨h, h', h'', h'''⟩ => ⟨h, h', h'', h'''⟩, fun ⟨h, h', h'', h'''⟩ => ⟨h, h', h'', h'''⟩⟩

end Code

instance (demands weights : List ℚ) (limit : ℚ) :
    Decidable (@SharesKept doubles demands weights limit) :=
  @SharesKept.decidable doubles demands weights limit

/-- Whole demands, as numbers. -/
def numbers (demands : List ℕ) : List ℚ := demands.map fun n : ℕ => (n : ℚ)

/-- **A whole allocation is weighted max-min fair**: it gives no tenant more than it demands and
spends the budget as far as there is demand, every tenant gets what it demands or its guaranteed
share, and all are served to one level up to a unit. -/
structure IsMaxMin (demands : List ℕ) (weights : List ℚ) (limit : ℚ) (alloc : List ℤ) : Prop where
  length : alloc.length = demands.length
  nonneg : ∀ i < demands.length, 0 ≤ entry alloc i
  le_demand : ∀ i < demands.length, entry alloc i ≤ (entry demands i : ℕ)
  sum : alloc.sum = min ((demands.sum : ℕ) : ℤ) ⌊limit⌋
  guaranteed : ∀ i < demands.length,
    min ((entry demands i : ℕ) : ℤ) ⌊entry weights i * limit / weights.sum⌋ ≤ entry alloc i
  level : ∃ level : ℚ, ∀ i < demands.length,
    (entry alloc i < (entry demands i : ℕ) →
      |((entry alloc i : ℤ) : ℚ) - entry weights i * level| ≤ 1) ∧
    (entry alloc i = (entry demands i : ℕ) →
      ((entry demands i : ℕ) : ℚ) ≤ entry weights i * level + 1)

/-! ### The continuous split -/

section Continuous

variable [Rounding] {demands weights : List ℚ}

theorem SharesKept.weight_le {limit w : ℚ} (h : SharesKept demands weights limit)
    (hweights : ∀ w ∈ weights, 0 < w) (hw : w ∈ weights) : w ≤ 2 ^ (1024 : ℤ) := by
  have hle : w ≤ weights.sum := List.single_le_sum (fun v hv => (hweights v hv).le) w hw
  have hpow : (2 : ℚ) ^ (1023 : ℤ) ≤ 2 ^ (1024 : ℤ) :=
    zpow_le_zpow_right₀ one_le_two (by norm_num)
  exact (hle.trans h.weights_lt.le).trans hpow

/-- The tenants `l` were given shares whose whole parts are those of what the water gives them at
`level`, which is no more than there is. -/
structure Filled (demands weights : List ℚ) (l : List ℕ) (left level : ℚ) (alloc filled : List ℚ) :
    Prop where
  total : (l.map (held (entry demands) (entry weights) level)).sum ≤ left
  length : filled.length = alloc.length
  entries : ∀ j, ⌊entry filled j⌋
    = if j ∈ l then ⌊held (entry demands) (entry weights) level j⌋ else ⌊entry alloc j⌋

/-- The tenants that the even split does not fill. -/
theorem filled_of_kept {l : List ℕ} {left computed : ℚ} {alloc : List ℚ}
    (hsum : 0 < (l.map (entry weights)).sum) (hindex : ∀ i ∈ l, i < alloc.length)
    (hkept : ∀ m ∈ l, ⌊fl (entry weights m * computed)⌋
      = ⌊entry weights m * (left / (l.map (entry weights)).sum)⌋)
    (hdemand : ∀ m ∈ l, ⌊entry weights m * (left / (l.map (entry weights)).sum)⌋
      ≤ ⌊entry demands m⌋) :
    Filled demands weights l left (left / (l.map (entry weights)).sum) alloc
      (l.foldl (fun alloc m => alloc.set m (fl (entry weights m * computed))) alloc) where
  total := sum_held_le hsum
  length := length_foldl_set _ _ _
  entries j := by
    rw [entry_foldl_set (fun m => fl (entry weights m * computed)) _ _ hindex]
    by_cases hmem : j ∈ l
    · rw [if_pos hmem, if_pos hmem, hkept j hmem, held, Int.floor_mono.map_min,
        min_eq_right (hdemand j hmem)]
    · rw [if_neg hmem, if_neg hmem]

omit [Rounding] in
/-- A tenant that the level fills, before the others. -/
theorem Filled.cons {i : ℕ} {l : List ℕ} {left level : ℚ} {alloc filled : List ℚ}
    (hi : i < alloc.length) (hfull : entry demands i ≤ entry weights i * level)
    (h : Filled demands weights l (left - entry demands i) level (alloc.set i (entry demands i))
      filled) : Filled demands weights (i :: l) left level alloc filled where
  total := by
    have hheld : held (entry demands) (entry weights) level i = entry demands i :=
      min_eq_left hfull
    rw [List.map_cons, List.sum_cons, hheld]
    linarith [h.total]
  length := h.length.trans (List.length_set ..)
  entries j := by
    rw [h.entries j, entry_set alloc hi]
    by_cases hmem : j ∈ l
    · rw [if_pos hmem, if_pos (List.mem_cons_of_mem _ hmem)]
    · rw [if_neg hmem]
      by_cases hji : j = i
      · rw [if_pos hji, if_pos (hji ▸ List.mem_cons_self), hji, held, min_eq_left hfull]
      · rw [if_neg hji, if_neg fun h => (List.mem_cons.mp h).elim hji hmem]

/-- The order as it is computed puts nobody behind a tenant that the level does not fill whose
demand the level passes by a unit. -/
theorem floor_le_of_sorted {i m d : ℕ} {level : ℚ} (hi : 0 < entry weights i)
    (hm : 0 < entry weights m) (hm' : entry weights m ≤ 2 ^ (1024 : ℤ)) (hd : entry demands m = d)
    (hshort : ¬ entry demands i ≤ entry weights i * level)
    (hsorted : fl (entry demands i / entry weights i) ≤ fl (entry demands m / entry weights m))
    (hsmall : entry weights m * level < 2 ^ 52) :
    ⌊entry weights m * level⌋ ≤ ⌊entry demands m⌋ := by
  have hbelow : level ≤ entry demands i / entry weights i := by
    rw [le_div_iff₀' hi]
    exact (not_le.mp hshort).le
  rw [hd, Int.floor_natCast, Int.floor_le_iff, Int.cast_natCast]
  rcases lt_or_ge (d + 1) (2 ^ 52) with hlt | hge
  · rw [hd] at hsorted
    exact mul_lt_of_fl_le_div hlt hm hm' ((Rounding.mono hbelow).trans hsorted)
  · have hge' : (2 : ℚ) ^ 52 ≤ d + 1 := by exact_mod_cast hge
    exact hsmall.trans_le hge'

/-- **One level fills every tenant of the rest of the order**, no lower than the even split of what
remains. -/
theorem fill_spec {D : ℕ → ℕ} (hD : ∀ i, entry demands i = D i) :
    ∀ (l : List ℕ) (rem activeWeight left base : ℚ) (alloc : List ℚ), 0 ≤ left → left < 2 ^ 52 →
      (l ≠ [] → base ≤ left / (l.map (entry weights)).sum) →
      (∀ i ∈ l, 0 < entry weights i ∧ entry weights i ≤ 2 ^ (1024 : ℤ)) →
      (∀ i ∈ l, i < alloc.length) →
      (l.Pairwise fun a b =>
        fl (entry demands a / entry weights a) ≤ fl (entry demands b / entry weights b)) →
      Kept demands weights l rem activeWeight left →
    ∃ level, base ≤ level ∧
      Filled demands weights l left level alloc
        (fill demands weights l rem activeWeight alloc) := by
  intro l
  induction l with
  | nil =>
    intro rem activeWeight left base alloc hleft _ _ _ _ _ _
    refine ⟨base, le_rfl, hleft, rfl, fun j => ?_⟩
    rw [if_neg List.not_mem_nil, fill]
  | cons i rest ih =>
    intro rem activeWeight left base alloc hleft hsmall hbase hweights hindex hsorted hkept
    have hpos : ∀ j ∈ i :: rest, 0 < entry weights j := fun j hj => (hweights j hj).1
    have hsum : 0 < ((i :: rest).map (entry weights)).sum :=
      sum_weights_pos hpos (List.cons_ne_nil i rest)
    have hi : i < alloc.length := hindex i List.mem_cons_self
    have hw : 0 < entry weights i := hpos i List.mem_cons_self
    have hshare : ∀ j ∈ i :: rest,
        entry weights j * (left / ((i :: rest).map (entry weights)).sum) ≤ left :=
      fun j hj => mul_level_le hpos hleft hj
    obtain ⟨hhead, htail⟩ := List.pairwise_cons.mp hsorted
    have hbase' := hbase (List.cons_ne_nil i rest)
    rw [Kept] at hkept
    rw [fill]
    by_cases hfull : entry demands i
        ≤ entry weights i * (left / ((i :: rest).map (entry weights)).sum)
    · rw [if_pos hfull] at hkept
      have hdemand : 0 ≤ entry demands i := by
        rw [hD]
        exact Nat.cast_nonneg _
      have hrises : rest ≠ [] → left / ((i :: rest).map (entry weights)).sum
          ≤ (left - entry demands i) / (rest.map (entry weights)).sum := by
        intro hne
        rw [List.map_cons, List.sum_cons] at hfull ⊢
        exact level_le_of_full hw
          (sum_weights_pos (fun j hj => hpos j (List.mem_cons_of_mem _ hj)) hne) hfull
      have hset : ∀ j ∈ rest, j < (alloc.set i (entry demands i)).length := by
        intro j hj
        rw [List.length_set]
        exact hindex j (List.mem_cons_of_mem _ hj)
      rw [if_pos hkept.1]
      obtain ⟨next, hle, hfilled⟩ := ih _ _ (left - entry demands i)
        (left / ((i :: rest).map (entry weights)).sum) (alloc.set i (entry demands i))
        (sub_nonneg.mpr (hfull.trans (hshare i List.mem_cons_self))) (by linarith) hrises
        (fun j hj => hweights j (List.mem_cons_of_mem _ hj)) hset htail hkept.2
      have hserved : entry demands i ≤ entry weights i * next :=
        hfull.trans (mul_le_mul_of_nonneg_left hle hw.le)
      exact ⟨next, hbase'.trans hle, hfilled.cons hi hserved⟩
    · rw [if_neg hfull] at hkept
      -- the demand is whole, so that the tenant is not filled as computed either
      have hunfilled : ¬ entry demands i ≤ fl (entry weights i * levelOf rem activeWeight) := by
        rw [hD] at hfull ⊢
        intro hle
        have hfloor : (D i : ℤ) ≤ ⌊fl (entry weights i * levelOf rem activeWeight)⌋ :=
          Int.le_floor.mpr (by exact_mod_cast hle)
        rw [hkept i List.mem_cons_self, Int.le_floor] at hfloor
        exact hfull (by exact_mod_cast hfloor)
      have hdemand : ∀ m ∈ i :: rest,
          ⌊entry weights m * (left / ((i :: rest).map (entry weights)).sum)⌋
            ≤ ⌊entry demands m⌋ := by
        intro m hm
        rcases List.mem_cons.mp hm with rfl | hrest
        · exact Int.floor_le_floor (not_le.mp hfull).le
        · exact floor_le_of_sorted hw (hpos m hm) (hweights m hm).2 (hD m) hfull (hhead m hrest)
            ((hshare m hm).trans_lt hsmall)
      rw [if_neg hunfilled]
      exact ⟨_, hbase', filled_of_kept hsum hindex hkept hdemand⟩

theorem order_perm (demands weights : List ℚ) :
    (order demands weights).Perm (List.range demands.length) := List.perm_insertionSort _ _

theorem order_sorted (demands weights : List ℚ) :
    (order demands weights).Pairwise fun a b =>
      fl (entry demands a / entry weights a) ≤ fl (entry demands b / entry weights b) := by
  have htotal : Std.Total fun a b => fl (entry demands a / entry weights a)
      ≤ fl (entry demands b / entry weights b) := ⟨fun _ _ => le_total _ _⟩
  have htrans : IsTrans ℕ fun a b => fl (entry demands a / entry weights a)
      ≤ fl (entry demands b / entry weights b) := ⟨fun _ _ _ => le_trans⟩
  exact List.pairwise_insertionSort _ _

/-- **One level for every tenant**, no lower than the even split of the whole budget. -/
theorem waterfillContinuous_spec {D : ℕ → ℕ} (hD : ∀ i, entry demands i = D i) {limit : ℚ}
    (hlength : demands.length = weights.length) (hweights : ∀ w ∈ weights, 0 < w)
    (hlimit : 0 ≤ limit) (hkept : SharesKept demands weights limit) :
    ∃ level, limit / weights.sum ≤ level ∧
      Filled demands weights (List.range demands.length) limit level
        (List.replicate demands.length 0) (waterfillContinuous demands weights limit) := by
  have hperm := order_perm demands weights
  have hindex : ∀ i ∈ order demands weights, i < demands.length := fun i hi =>
    List.mem_range.mp (hperm.mem_iff.mp hi)
  have hsum : ((order demands weights).map (entry weights)).sum = weights.sum := by
    rw [(hperm.map _).sum_eq, hlength, map_entry_range]
  obtain ⟨level, hle, hfilled⟩ := fill_spec hD (order demands weights) limit (sumOf weights) limit
    (limit / weights.sum) (List.replicate demands.length 0) hlimit hkept.limit_lt
    (fun _ => by rw [hsum])
    (fun i hi => by
      have hmem : entry weights i ∈ weights := entry_mem (hlength ▸ hindex i hi)
      exact ⟨hweights _ hmem, hkept.weight_le hweights hmem⟩)
    (fun i hi => by
      rw [List.length_replicate]
      exact hindex i hi) (order_sorted demands weights) hkept.kept
  refine ⟨level, hle, ?_, hfilled.length, fun j => ?_⟩
  · rw [← (hperm.map _).sum_eq]
    exact hfilled.total
  · rw [waterfillContinuous, hfilled.entries j]
    simp only [hperm.mem_iff]

end Continuous

/-! ### The units left over -/

section Drip

variable [Rounding] {demands weights : List ℚ} {alloc : List ℤ}

/-- What the scan may have found among the first `n` tenants: nothing only if nobody is below its
demand, and otherwise a tenant below its demand with the least service for its weight. -/
def Found (demands weights : List ℚ) (alloc : List ℤ) (n : ℕ) : Option (ℕ × ℚ) → Prop
  | none => ∀ i < n, entry demands i ≤ ((entry alloc i : ℤ) : ℚ)
  | some (b, bestRatio) => b < n ∧ ((entry alloc b : ℤ) : ℚ) < entry demands b ∧
      bestRatio = fl ((entry alloc b : ℤ) / entry weights b) ∧
      ∀ i < n, ((entry alloc i : ℤ) : ℚ) < entry demands i →
        bestRatio ≤ fl ((entry alloc i : ℤ) / entry weights i)

theorem found_consider {n : ℕ} {found : Option (ℕ × ℚ)}
    (h : Found demands weights alloc n found) :
    Found demands weights alloc (n + 1) (consider demands weights alloc found n) := by
  by_cases hserved : entry demands n ≤ ((entry alloc n : ℤ) : ℚ)
  · rw [consider, if_pos hserved]
    cases found with
    | none =>
      intro i hi
      rcases Nat.lt_succ_iff_lt_or_eq.mp hi with hlt | rfl
      · exact h i hlt
      · exact hserved
    | some p =>
      obtain ⟨hb, hbelow, hratio, hleast⟩ := h
      refine ⟨Nat.lt_succ_of_lt hb, hbelow, hratio, fun i hi hlow => ?_⟩
      rcases Nat.lt_succ_iff_lt_or_eq.mp hi with hlt | rfl
      · exact hleast i hlt hlow
      · exact absurd hserved (not_le.mpr hlow)
  · have hlow : ((entry alloc n : ℤ) : ℚ) < entry demands n := not_le.mp hserved
    rw [consider, if_neg hserved]
    cases found with
    | none =>
      refine ⟨Nat.lt_succ_self n, hlow, rfl, fun i hi hlow' => ?_⟩
      rcases Nat.lt_succ_iff_lt_or_eq.mp hi with hlt | rfl
      · exact absurd (h i hlt) (not_le.mpr hlow')
      · exact le_rfl
    | some p =>
      obtain ⟨hb, hbelow, hratio, hleast⟩ := h
      show Found demands weights alloc (n + 1)
        (if fl (((entry alloc n : ℤ) : ℚ) / entry weights n) < p.2
          then some (n, fl (((entry alloc n : ℤ) : ℚ) / entry weights n)) else some p)
      split
      · rename_i hless
        refine ⟨Nat.lt_succ_self n, hlow, rfl, fun i hi hlow' => ?_⟩
        rcases Nat.lt_succ_iff_lt_or_eq.mp hi with hlt | rfl
        · exact hless.le.trans (hleast i hlt hlow')
        · exact le_rfl
      · rename_i hless
        refine ⟨Nat.lt_succ_of_lt hb, hbelow, hratio, fun i hi hlow' => ?_⟩
        rcases Nat.lt_succ_iff_lt_or_eq.mp hi with hlt | rfl
        · exact hleast i hlt hlow'
        · exact not_lt.mp hless

theorem best_spec (demands weights : List ℚ) (alloc : List ℤ) (n : ℕ) :
    Found demands weights alloc n (best demands weights alloc n) := by
  induction n with
  | zero => exact fun i hi => absurd hi (Nat.not_lt_zero i)
  | succ n ih =>
    rw [best, List.range_succ, List.foldl_append]
    exact found_consider ih

omit [Rounding] in
theorem sum_raise {i : ℕ} (hi : i < alloc.length) :
    (alloc.set i (entry alloc i + 1)).sum = alloc.sum + 1 := by
  rw [sum_set alloc hi]
  ring

/-- What is handed out serves the tenants to one level, and gives nobody less than `low`. -/
structure Dripped (weights : List ℚ) (D low : ℕ → ℤ) (n : ℕ) (alloc : List ℤ) : Prop where
  length : alloc.length = n
  low : ∀ i < n, low i ≤ entry alloc i
  served : ∃ level, Served D (entry weights) level (entry alloc) (List.range n)

variable {D low : ℕ → ℤ} {n : ℕ} {limit : ℚ}

omit [Rounding] in
theorem Dripped.sum_le (h : Dripped weights D low n alloc) :
    alloc.sum ≤ ((List.range n).map D).sum := by
  obtain ⟨level, hserved⟩ := h.served
  have hle : ((List.range n).map (entry alloc)).sum ≤ ((List.range n).map D).sum :=
    List.sum_le_sum fun i hi => (hserved i hi).1
  rwa [← h.length, map_entry_range, h.length] at hle

omit [Rounding] in
theorem Dripped.nonneg (h : Dripped weights D low n alloc) (hlow : ∀ i < n, 0 ≤ low i) {i : ℕ}
    (hi : i < n) : 0 ≤ entry alloc i := (hlow i hi).trans (h.low i hi)

omit [Rounding] in
theorem Dripped.entry_le_sum (h : Dripped weights D low n alloc) (hlow : ∀ i < n, 0 ≤ low i)
    {i : ℕ} (hi : i < n) : entry alloc i ≤ alloc.sum := by
  refine List.single_le_sum (fun x hx => ?_) _ (entry_mem (h.length ▸ hi))
  obtain ⟨j, hj, rfl⟩ := List.mem_iff_getElem.mp hx
  have hnonneg := h.nonneg hlow (h.length ▸ hj)
  rwa [entry, List.getD_eq_getElem _ _ hj] at hnonneg

/-- **A unit goes to the tenant that the scan finds**, and all are served to one level still. -/
theorem Dripped.raise (h : Dripped weights D low n alloc) (hlow : ∀ i < n, 0 ≤ low i)
    (hweights : ∀ i < n, 0 < entry weights i ∧ entry weights i ≤ 2 ^ (1024 : ℤ))
    (hD : ∀ i < n, entry demands i = D i) (hlimit : limit < 2 ^ 52) (hleft : alloc.sum < ⌊limit⌋)
    {i : ℕ} {ratio : ℚ} (hfound : Found demands weights alloc n (some (i, ratio))) :
    Dripped weights D low n (alloc.set i (entry alloc i + 1)) := by
  obtain ⟨hi, hbelow, rfl, hleast⟩ := hfound
  obtain ⟨level, hserved⟩ := h.served
  have hi' : i < alloc.length := h.length ▸ hi
  have hraise : entry (alloc.set i (entry alloc i + 1))
      = Function.update (entry alloc) i (entry alloc i + 1) := by
    funext j
    rw [entry_set alloc hi', Function.update_apply]
  have hclose : ∀ j ∈ List.range n, entry alloc j < D j →
      entry weights j * ((entry alloc i : ℤ) / entry weights i) ≤ (entry alloc j : ℤ) + 1 := by
    intro j hj hlow'
    have hj' := List.mem_range.mp hj
    have hratio := hleast j hj' (by rw [hD j hj']; exact_mod_cast hlow')
    obtain ⟨m, hm⟩ := Int.eq_ofNat_of_zero_le (h.nonneg hlow hj')
    have hsmall : m + 1 < 2 ^ 52 := by
      have hle := h.entry_le_sum hlow hj'
      have hunit : (((m : ℤ) + 1 : ℤ) : ℚ) ≤ ⌊limit⌋ := Int.cast_le.mpr (by omega)
      have hlt : (((m : ℤ) + 1 : ℤ) : ℚ) < 2 ^ 52 :=
        hunit.trans_lt ((Int.floor_le limit).trans_lt hlimit)
      exact_mod_cast hlt
    rw [hm] at hratio ⊢
    exact (mul_lt_of_fl_le_div hsmall (hweights j hj').1 (hweights j hj').2 hratio).le
  refine ⟨(List.length_set ..).trans h.length, fun j hj => ?_,
    max level ((entry alloc i : ℤ) / entry weights i), ?_⟩
  · rw [entry_set alloc hi']
    split
    · rename_i heq
      rw [heq]
      have hle := h.low i hi
      omega
    · exact h.low j hj
  · rw [hD i hi] at hbelow
    rw [hraise]
    exact hserved.raise (hweights i hi).1 (fun j hj => (hweights j (List.mem_range.mp hj)).1)
      (by exact_mod_cast hbelow) hclose

/-- **The units left over** go out until all are handed out or every demand is met. -/
theorem drip_spec (hlow : ∀ i < n, 0 ≤ low i)
    (hweights : ∀ i < n, 0 < entry weights i ∧ entry weights i ≤ 2 ^ (1024 : ℤ))
    (hD : ∀ i < n, entry demands i = D i) (hlimit : limit < 2 ^ 52) :
    ∀ (leftover : ℕ) (alloc : List ℤ), Dripped weights D low n alloc →
      alloc.sum + leftover = ⌊limit⌋ →
      Dripped weights D low n (drip demands weights leftover alloc) ∧
        (drip demands weights leftover alloc).sum = min ((List.range n).map D).sum ⌊limit⌋ := by
  intro leftover
  induction leftover with
  | zero =>
    intro alloc h hsum
    have hle := h.sum_le
    rw [drip, ← hsum, Nat.cast_zero, add_zero]
    exact ⟨h, (min_eq_right hle).symm⟩
  | succ leftover ih =>
    intro alloc h hsum
    have hfound := best_spec demands weights alloc n
    rw [drip, h.length]
    cases hbest : best demands weights alloc n with
    | none =>
      rw [hbest] at hfound
      have hmet : alloc.sum = ((List.range n).map D).sum := by
        refine le_antisymm h.sum_le ?_
        have hle : ((List.range n).map D).sum ≤ ((List.range n).map (entry alloc)).sum := by
          refine List.sum_le_sum fun i hi => ?_
          have hserved := hfound i (List.mem_range.mp hi)
          rw [hD i (List.mem_range.mp hi)] at hserved
          exact_mod_cast hserved
        rwa [← h.length, map_entry_range, h.length] at hle
      refine ⟨h, ?_⟩
      rw [← hmet, min_eq_left (by omega)]
    | some found =>
      rw [hbest] at hfound
      have hleft : alloc.sum < ⌊limit⌋ := by
        push_cast at hsum
        omega
      have hi : found.1 < alloc.length := h.length ▸ hfound.1
      have hunit : ⌊fl (((entry alloc found.1 : ℤ) : ℚ) + 1)⌋ = entry alloc found.1 + 1 := by
        have hnonneg := h.nonneg hlow hfound.1
        have hle := h.entry_le_sum hlow hfound.1
        have hbound : ⌊limit⌋ < 2 ^ 52 := by
          rw [Int.floor_lt]
          exact_mod_cast hlimit
        have hone : ((entry alloc found.1 : ℤ) : ℚ) + 1 = ((entry alloc found.1 + 1 : ℤ) : ℚ) := by
          push_cast
          rfl
        rw [hone, fl_intCast _ (by rw [abs_of_nonneg] <;> omega), Int.floor_intCast]
      dsimp only
      rw [hunit]
      refine ih _ (h.raise hlow hweights hD hlimit hleft hfound) ?_
      rw [sum_raise hi, ← hsum]
      push_cast
      ring

end Drip

/-! ### The allocation -/

section Allocation

variable {demands : List ℕ} {weights : List ℚ} {limit : ℚ}

theorem validateAllocation_ok {demands weights : List ℚ} {limit : ℚ}
    (hlength : demands.length = weights.length) (hlimit : 0 ≤ limit)
    (hweights : ∀ w ∈ weights, 0 < w) (hdemands : ∀ d ∈ demands, 0 ≤ d) :
    validateAllocation demands weights limit = .ok () := by
  have hw : weights.find? (· ≤ 0) = none := by
    refine List.find?_eq_none.mpr fun w hmem => ?_
    simpa using hweights w hmem
  have hd : demands.find? (· < 0) = none := by
    refine List.find?_eq_none.mpr fun d hmem => ?_
    simpa using hdemands d hmem
  rw [validateAllocation, if_neg (not_not.mpr hlength), if_neg (not_lt.mpr hlimit), hw, hd]

theorem entry_numbers (demands : List ℕ) (i : ℕ) :
    entry (numbers demands) i = ((entry demands i : ℕ) : ℚ) :=
  entry_map (fun n : ℕ => (n : ℚ)) Nat.cast_zero _ _

theorem sum_demands (demands : List ℕ) :
    ((List.range demands.length).map fun i => ((entry demands i : ℕ) : ℤ)).sum
      = ((demands.sum : ℕ) : ℤ) := by
  have hmap : ((List.range demands.length).map fun i => ((entry demands i : ℕ) : ℤ))
      = ((List.range demands.length).map (entry demands)).map (Nat.cast : ℕ → ℤ) := by
    rw [List.map_map]
    rfl
  rw [hmap, map_entry_range, Nat.cast_list_sum]

/-- A sum of whole numbers that fit is not rounded. -/
theorem sumOf_intCast [Rounding] {alloc : List ℤ} (hnonneg : ∀ a ∈ alloc, 0 ≤ a)
    (hsum : alloc.sum ≤ 2 ^ 53) : sumOf (alloc.map fun a : ℤ => (a : ℚ)) = alloc.sum := by
  have hcast : (alloc.map fun a : ℤ => (a : ℚ)).sum = alloc.sum := (Int.cast_list_sum alloc).symm
  rw [← hcast]
  refine sumOf_of_isWhole (fun x hx => ?_) ?_
  · obtain ⟨a, ha, rfl⟩ := List.mem_map.mp hx
    exact ⟨isWhole_intCast a, by exact_mod_cast hnonneg a ha⟩
  · rw [hcast]
    exact_mod_cast hsum

/-- What rounding leaves of the budget is not negative. -/
theorem sum_floor_le {n : ℕ} {x : ℕ → ℚ} (h : ((List.range n).map x).sum ≤ limit) :
    ((List.range n).map fun i => ⌊x i⌋).sum ≤ ⌊limit⌋ := by
  rw [Int.le_floor, Int.cast_list_sum, List.map_map]
  refine le_trans (List.sum_le_sum fun i _ => ?_) h
  exact Int.floor_le (x i)

/-- What is handed out makes the allocation, where nobody gets less than the whole part of what the
water gives at a level no lower than the even split. -/
theorem isMaxMin_of_dripped {alloc : List ℤ} {level : ℚ} (hweights : ∀ w ∈ weights, 0 < w)
    (hpos : ∀ i < demands.length, 0 < entry weights i) (hlimit : 0 ≤ limit)
    (hbase : limit / weights.sum ≤ level)
    (h : Dripped weights (fun i => (entry demands i : ℕ))
      (fun i => ⌊held (entry (numbers demands)) (entry weights) level i⌋) demands.length alloc)
    (hsum : alloc.sum = min ((demands.sum : ℕ) : ℤ) ⌊limit⌋) :
    IsMaxMin demands weights limit alloc := by
  have hlevel : 0 ≤ level :=
    (div_nonneg hlimit (List.sum_nonneg fun w hw => (hweights w hw).le)).trans hbase
  have hheld : ∀ i, held (entry (numbers demands)) (entry weights) level i
      = min ((entry demands i : ℕ) : ℚ) (entry weights i * level) := fun i => by
    rw [held, entry_numbers]
  obtain ⟨last, hserved⟩ := h.served
  refine ⟨h.length, fun i hi => ?_, fun i hi => (hserved i (List.mem_range.mpr hi)).1, hsum,
    fun i hi => ?_, last, fun i hi => ⟨fun hbelow => ?_, fun hmet => ?_⟩⟩
  · refine (Int.floor_nonneg.mpr ?_).trans (h.low i hi)
    rw [hheld]
    exact le_min (Nat.cast_nonneg _) (mul_nonneg (hpos i hi).le hlevel)
  · refine (Int.le_floor.mpr ?_).trans (h.low i hi)
    rw [hheld, Int.cast_min]
    refine min_le_min (Int.cast_natCast _).le ?_
    calc ((⌊entry weights i * limit / weights.sum⌋ : ℤ) : ℚ)
        ≤ entry weights i * limit / weights.sum := Int.floor_le _
      _ = entry weights i * (limit / weights.sum) := mul_div_assoc _ _ _
      _ ≤ entry weights i * level := mul_le_mul_of_nonneg_left hbase (hpos i hi).le
  · obtain ⟨-, hup, hdown⟩ := hserved i (List.mem_range.mpr hi)
    have hdown' := hdown hbelow
    rw [abs_le]
    constructor <;> linarith
  · have hup := (hserved i (List.mem_range.mpr hi)).2.1
    rw [hmet, Int.cast_natCast] at hup
    exact hup

/-- The shares rounded down. -/
theorem Filled.floored {ds filled : List ℚ} {n : ℕ} {level : ℚ}
    (h : Filled ds weights (List.range n) limit level (List.replicate n 0) filled) :
    (filled.map Int.floor).length = n ∧
      (∀ i < n, entry (filled.map Int.floor) i = ⌊held (entry ds) (entry weights) level i⌋) ∧
      (filled.map Int.floor).sum ≤ ⌊limit⌋ := by
  have hlength : (filled.map Int.floor).length = n := by
    rw [List.length_map, h.length, List.length_replicate]
  have hentry : ∀ i < n,
      entry (filled.map Int.floor) i = ⌊held (entry ds) (entry weights) level i⌋ := by
    intro i hi
    rw [entry_map _ Int.floor_zero, h.entries i, if_pos (List.mem_range.mpr hi)]
  refine ⟨hlength, hentry, ?_⟩
  rw [← map_entry_range (filled.map Int.floor), hlength,
    List.map_congr_left fun i hi => hentry i (List.mem_range.mp hi)]
  exact sum_floor_le h.total

/-- What the shares rounded down leave of the limit is a whole number, and not rounded. -/
theorem allocate_eq_drip [Rounding] {ds : List ℚ} {alloc : List ℤ}
    (halloc : (waterfillContinuous ds weights limit).map Int.floor = alloc)
    (hnonneg : ∀ a ∈ alloc, 0 ≤ a) (hsum : alloc.sum ≤ ⌊limit⌋) (hlimit : ⌊limit⌋ < 2 ^ 52) :
    allocate ds weights limit = drip ds weights (⌊limit⌋ - alloc.sum).toNat alloc := by
  have htotal : 0 ≤ alloc.sum := List.sum_nonneg hnonneg
  have hleft : fl (⌊limit⌋ - sumOf (alloc.map fun a : ℤ => (a : ℚ)))
      = ((⌊limit⌋ - alloc.sum : ℤ) : ℚ) := by
    rw [sumOf_intCast hnonneg (by omega), ← Int.cast_sub,
      fl_intCast _ (by rw [abs_of_nonneg] <;> omega)]
  rw [allocate, halloc, hleft, Int.floor_intCast]

example : @allocate doubles (numbers [2, 100, 100]) [1, 1, 2] (21 / 2) = [2, 3, 5] := by
  decide +kernel

end Allocation

end ThrottleKit.WeightedMaxMin
