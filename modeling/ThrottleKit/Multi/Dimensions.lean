import ThrottleKit.Core.Strategy
import ThrottleKit.Lib.Rounding

/-!
# Limits of many dimensions

A composite limit has named dimensions, each with a key, a strategy and a weight of its own, and a
mode that says when the composite allows: when all of its dimensions do, or when any does. Before
anything is evaluated, each dimension derives its key and its cost from the context; both are
functions of the caller, and both may throw.

## Main definitions

* `Dimension`, `Config` — the dimensions of a composite limit
* `gather` — what a check asks of each dimension
* `combine` — the decision by those of the dimensions
* `consumes` — which dimensions a check is to consume
-/

namespace ThrottleKit.Multi

/-- One axis of a multi-dimensional limit. `A` is what enforces it. -/
structure Dimension (Ctx ε A : Type) where
  name : String
  /-- Derive this dimension's key from the request context. -/
  key : Ctx → Except ε String
  strategy : A
  /-- Per-dimension weight, multiplied by the global cost. -/
  cost : Option (Ctx → Except ε ℚ)

inductive Mode
  | all
  | any
deriving DecidableEq

/-- A composite of named dimensions plus a combine mode. -/
structure Config (Ctx ε A : Type) where
  mode : Mode
  dimensions : List (Dimension Ctx ε A)
  keyPrefix : Option String
  nonempty : dimensions ≠ []

/-- How a check throws. -/
inductive Failure (ε : Type)
  /-- A key or cost function throws. -/
  | thrown (error : ε)
  | badCost (error : CostError)
  /-- A strategy that the script has no branch for. -/
  | unsupported (name : String)
  /-- A key holds a value of another type. -/
  | wrongType
deriving DecidableEq

/-- The message of an error of the limiter itself. -/
def Failure.message {ε : Type} : Failure ε → Option String
  | .thrown _ => none
  | .badCost error => some error.message
  | .unsupported name => some ("multi-dimensional limiting on an async store supports " ++
      "gcra/tokenBucket/fixedWindow dimensions; got \"" ++ name ++ "\"")
  | .wrongType => some "WRONGTYPE Operation against a key holding the wrong kind of value"

/-- What a check asks of one dimension. -/
structure Charge (A : Type) where
  /-- The full key. -/
  key : String
  strategy : A
  cost : ℚ

variable {Ctx ε A : Type}

/-- `keyOf(name, raw)`. -/
def keyOf (keyPrefix : Option String) (name raw : String) : String :=
  prefixer keyPrefix (name ++ ":" ++ raw)

/-- `dimCost(dim, ctx, globalCost)`: the effective cost, which must be one a limiter accepts. -/
def dimCost [Rounding] (dim : Dimension Ctx ε A) (ctx : Ctx) (globalCost : ℚ) :
    Except (Failure ε) ℚ := do
  let weight ← match dim.cost with
    | some cost => (cost ctx).mapError .thrown
    | none => .ok 1
  let c := Rounding.fl (weight * globalCost)
  (requireCost c).mapError .badCost
  return c

/-- The charge of one dimension: first its key, then its cost. -/
def chargeOf [Rounding] (keyPrefix : Option String) (ctx : Ctx) (globalCost : ℚ)
    (dim : Dimension Ctx ε A) : Except (Failure ε) (Charge A) := do
  let raw ← (dim.key ctx).mapError .thrown
  let cost ← dimCost dim ctx globalCost
  return ⟨keyOf keyPrefix dim.name raw, dim.strategy, cost⟩

/-- The charges of a check, in the order of the dimensions; the first error ends it. -/
def gather [Rounding] (keyPrefix : Option String) (dimensions : List (Dimension Ctx ε A))
    (ctx : Ctx)
    (globalCost : ℚ) : Except (Failure ε) (List (Charge A)) :=
  dimensions.mapM (chargeOf keyPrefix ctx globalCost)

/-! ### The decision -/

/-- The first result that no later one is better than. -/
def binding (better : Decision → Decision → Bool) : List Decision → Decision
  | [] => ⟨false, 0, 0, 0, 0⟩
  | r :: rs => rs.foldl (fun b r => if better r b then r else b) r

/-- The composite allows, and reports `b`. -/
def granted (b : Decision) : Decision := ⟨true, b.limit, b.remaining, b.resetAt, 0⟩

/-- The composite denies, and reports `b`. -/
def refused (b : Decision) : Decision := ⟨false, b.limit, b.remaining, b.resetAt, b.retryAfterMs⟩

/-- Whether the composite allows. -/
def Mode.allows : Mode → List Decision → Bool
  | .all, results => results.all (·.allowed)
  | .any, results => results.any (·.allowed)

/-- `combine(mode, results)`: the tightest dimension when all allow, else the one that denies for
longest; the roomiest one that allows, else the one that denies for the shortest time. -/
def combine (mode : Mode) (results : List Decision) : Decision :=
  match mode, mode.allows results with
  | .all, true => granted (binding (fun r b => r.remaining < b.remaining) results)
  | .all, false =>
    refused (binding (fun r b => r.retryAfterMs > b.retryAfterMs) (results.filter (!·.allowed)))
  | .any, true =>
    granted (binding (fun r b => r.remaining > b.remaining) (results.filter (·.allowed)))
  | .any, false => refused (binding (fun r b => r.retryAfterMs < b.retryAfterMs) results)

@[simp] theorem combine_allowed (mode : Mode) (results : List Decision) :
    (combine mode results).allowed = mode.allows results := by
  unfold combine
  cases mode <;> split <;> simp_all [granted, refused]

/-! ### What is consumed -/

/-- A dimension as it was found before anything is written: what it answers, and whether it asks for
a write. -/
structure Probe (A : Type) where
  charge : Charge A
  result : Decision
  asks : Bool

/-- The charges to be made: none unless the composite allows; then those of the dimensions that
allow, which in mode `all` is each of them. A dimension that asks for no write has nothing to
consume. -/
def consumed (mode : Mode) (probes : List (Probe A)) : List (Charge A) :=
  if (combine mode (probes.map (·.result))).allowed then
    (probes.filter fun p => (mode = .all || p.result.allowed) && p.asks).map (·.charge)
  else []

theorem consumed_sublist (mode : Mode) (probes : List (Probe A)) :
    (consumed mode probes).Sublist (probes.map (·.charge)) := by
  unfold consumed
  split
  · exact List.filter_sublist.map _
  · exact List.nil_sublist _

/-- In either mode, what is consumed has allowed. -/
theorem allowed_of_mem_consumed {mode : Mode} {probes : List (Probe A)} {c : Charge A}
    (h : c ∈ consumed mode probes) :
    ∃ p ∈ probes, p.charge = c ∧ p.result.allowed = true ∧ p.asks = true := by
  unfold consumed at h
  split at h
  · rename_i hallows
    obtain ⟨p, hp, rfl⟩ := List.mem_map.mp h
    obtain ⟨hmem, hkept⟩ := List.mem_filter.mp hp
    rw [Bool.and_eq_true, Bool.or_eq_true, decide_eq_true_eq] at hkept
    refine ⟨p, hmem, rfl, ?_, hkept.2⟩
    rcases hkept.1 with rfl | hallowed
    · rw [combine_allowed] at hallows
      exact List.all_eq_true.mp hallows p.result (List.mem_map_of_mem hmem)
    · exact hallowed
  · exact absurd h List.not_mem_nil

end ThrottleKit.Multi
