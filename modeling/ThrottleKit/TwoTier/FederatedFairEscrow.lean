import ThrottleKit.Core.Types
import ThrottleKit.Lib.Machine
import ThrottleKit.Lib.OrderedMap
import ThrottleKit.Lib.Rounding

/-!
# Federated weighted fair escrow

Two levels of weighted fair escrow. A pool shared by all regions grants each of them a part of the
budget of a window, by the total weight of its tenants; a region splits what it was granted over its
tenants by their weights. A check that its region's budget does not admit asks the pool for more,
until it is admitted or the pool caps the region.

The pool and each region roll their windows on their own, when a check reaches them. A check is one
step: the pool is in the process of its regions, and answers at once.

`fleet` takes checks alone; `service` also takes the two forms of `reset`, of a tenant and of a
region, which hands its grant back.

Every result is rounded, and every sum is added up in the order of its map.

## What is left out

The pool that is kept in a store.

`Pool.clock`, the last clock reading, is a ghost that no code reads, and `Event.leased` tells by how
much a grant was raised, which the code does not ask.

## Main definitions

* `Pool`, `grant` — the pool
* `RegionWindow`, `bootstrapTenant`, `verdict`, `ensureRegionBudget` — a region
* `checkSync`, `fleet` — one check, and regions around one pool
* `reset`, `service` — the same with resets
-/

namespace ThrottleKit.FederatedFairEscrow

open Rounding

/-! ### The pool -/

/-- The options of `regionFairPool`, validated. -/
structure PoolOptions where
  limit : ℚ
  windowMs : ℚ
  limit_pos : 0 < limit
  windowMs_pos : 0 < windowMs

/-- `L`, the floored limit. -/
def PoolOptions.budget (o : PoolOptions) : ℤ := ⌊o.limit⌋

/-- What a region was last seen to weigh, and what it was granted in this window. -/
structure RegionEntry where
  weight : ℚ
  granted : ℚ

/-- The window of the pool. -/
structure PoolWindow where
  windowStart : ℚ
  regions : OrderedMap String RegionEntry

/-- The pool; it has no window before the first grant. -/
structure Pool where
  window : Option PoolWindow
  /-- Ghost: the last clock reading. -/
  clock : ℚ

/-- What a region was granted in this window. -/
def PoolWindow.grantedTo (p : PoolWindow) (region : String) : ℚ :=
  (p.regions.lookup region).elim 0 (·.granted)

variable [Rounding]

/-- `rollWindow(now)` of the pool. -/
def Pool.rollWindow (o : PoolOptions) (pool : Pool) (now : ℚ) : PoolWindow :=
  match pool.window with
  | none => ⟨startOf o.windowMs now, .empty⟩
  | some p =>
    if fl (p.windowStart + o.windowMs) ≤ now then ⟨startOf o.windowMs now, .empty⟩ else p

/-- `Math.floor((weight * total) / totalWeight)`, the guaranteed share of `total`. -/
def flooredShare (weight total totalWeight : ℚ) : ℚ :=
  if 0 < totalWeight then ⌊fl (fl (weight * total) / totalWeight)⌋ else 0

/-- What is reserved for the regions other than `region`. -/
def othersHold (o : PoolOptions) (regions : OrderedMap String RegionEntry) (region : String) : ℚ :=
  let totalWeight := sumOf (regions.entries.map fun e => e.2.weight)
  sumOf ((regions.entries.filter fun e => e.1 ≠ region).map fun e =>
    max e.2.granted (flooredShare e.2.weight o.budget totalWeight))

/-- `grant(region, weight, wantTotal, now)`, with the window it leaves; `none` when it throws on the
weight. -/
def grant (o : PoolOptions) (pool : Pool) (region : String) (weight wantTotal now : ℚ) :
    Option (PoolWindow × ℚ) :=
  if 0 < weight then
    let p := pool.rollWindow o now
    let held := p.grantedTo region
    let regions := p.regions.set region ⟨weight, held⟩
    -- the region already holds enough
    if wantTotal ≤ held then some (⟨p.windowStart, regions⟩, held)
    else
      let ceiling := max held (fl (o.budget - othersHold o regions region))
      let granted := min wantTotal ceiling
      some (⟨p.windowStart, regions.set region ⟨weight, granted⟩⟩, granted)
  else none

/-! ### A region -/

structure TenantEntry where
  weight : ℚ
  used : ℚ

/-- The window of a region. -/
structure RegionWindow where
  windowStart : ℚ
  /-- What the pool has granted the region. -/
  regionBudget : ℚ
  /-- What tenants used that were evicted since. -/
  evictedUsed : ℚ
  tenants : OrderedMap String TenantEntry

/-- A region; it has no window before the first check. -/
abbrev Region : Type := Option RegionWindow

/-- `rollWindow(now)` of a region. -/
def rollRegion (o : PoolOptions) (s : Region) (now : ℚ) : RegionWindow :=
  match s with
  | none => ⟨startOf o.windowMs now, 0, 0, .empty⟩
  | some w =>
    if fl (w.windowStart + o.windowMs) ≤ now then ⟨startOf o.windowMs now, 0, 0, .empty⟩ else w

/-- The totals of the active tenants. -/
structure Totals where
  totalWeight : ℚ
  totalUsed : ℚ

/-- `aggregate()`. -/
def RegionWindow.aggregate (w : RegionWindow) : Totals where
  totalWeight := sumOf (w.tenants.entries.map fun e => e.2.weight)
  totalUsed := sumFrom w.evictedUsed (w.tenants.entries.map fun e => e.2.used)

/-- The eviction of `bootstrapTenant`: the oldest tenant goes when the map is full, and what it used
is kept. -/
def evict (maxKeys : Option ℚ) (w : RegionWindow) : RegionWindow :=
  if maxKeys.any fun m => m ≤ (w.tenants.size : ℚ) then
    match w.tenants.oldest? with
    | some oldest =>
      { w with
        evictedUsed := fl (w.evictedUsed + (w.tenants.lookup oldest).elim 0 (·.used))
        tenants := w.tenants.erase oldest }
    | none => w
  else w

/-- `bootstrapTenant(tenant, weight)`. -/
def bootstrapTenant (maxKeys : Option ℚ) (w : RegionWindow) (tenant : String) (weight : ℚ) :
    RegionWindow :=
  { evict maxKeys w with tenants := (evict maxKeys w).tenants.set tenant ⟨weight, 0⟩ }

/-- A check that has its entry. -/
structure Asker where
  tenant : String
  entry : TenantEntry
  cost : ℚ
  now : ℚ

section Decide

variable (o : PoolOptions) (w : RegionWindow) (k : Asker) (agg : Totals)

/-- `guaranteedShare(weight, totalWeight)`. -/
def guaranteedShare (weight totalWeight : ℚ) : ℚ := flooredShare weight w.regionBudget totalWeight

/-- What every other tenant has left of its guaranteed share. -/
def reserveOthers : ℚ :=
  sumOf ((w.tenants.entries.filter fun e => e.1 ≠ k.tenant).map fun e =>
    max 0 (fl (guaranteedShare w e.2.weight agg.totalWeight - e.2.used)))

/-- `wouldAdmit(entry, cost, agg)`. -/
def wouldAdmit : Bool :=
  let lRemaining := fl (w.regionBudget - agg.totalUsed)
  if lRemaining < k.cost then false
  else
    let gAsker := guaranteedShare w k.entry.weight agg.totalWeight
    if fl (k.entry.used + k.cost) ≤ gAsker then true
    else
      let borrowAvailable := max 0 (fl (lRemaining - reserveOthers w k agg))
      let wanted := fl (fl (k.entry.used + k.cost) - gAsker)
      let grantable := min (min (min wanted k.cost) borrowAvailable) lRemaining
      fl (k.entry.used + k.cost) ≤ fl (gAsker + grantable)

/-- The decision of `decide(entry, cost, now, agg)`. -/
def verdict : Decision :=
  let used := k.entry.used
  let charged := fl (used + k.cost)
  let resetAt : ℚ := ⌈fl (w.windowStart + o.windowMs)⌉
  let retryAfterMs : ℚ := max 0 ⌈fl (resetAt - k.now)⌉
  let gAsker := guaranteedShare w k.entry.weight agg.totalWeight
  let lRemaining := fl (w.regionBudget - agg.totalUsed)
  if lRemaining < k.cost then
    ⟨false, max gAsker used, max 0 (fl (gAsker - used)), resetAt, retryAfterMs⟩
  else if charged ≤ gAsker then ⟨true, gAsker, max 0 (fl (gAsker - charged)), resetAt, 0⟩
  else
    let borrowAvailable := max 0 (fl (lRemaining - reserveOthers w k agg))
    let wanted := fl (charged - gAsker)
    let grantable := min (min (min wanted k.cost) borrowAvailable) lRemaining
    let realizedCeiling := fl (gAsker + grantable)
    if charged ≤ realizedCeiling then
      ⟨true, realizedCeiling, max 0 (fl (realizedCeiling - charged)), resetAt, 0⟩
    else ⟨false, realizedCeiling, max 0 (fl (realizedCeiling - used)), resetAt, retryAfterMs⟩

/-- `entry.used += cost`. -/
def charge : RegionWindow :=
  { w with
    tenants := w.tenants.set k.tenant { k.entry with used := fl (k.entry.used + k.cost) } }

/-- Whether the loop of `ensureRegionBudget` goes on to ask the pool. -/
def asksPool : Bool := !(o.budget ≤ w.regionBudget || wouldAdmit w k agg)

/-- What the region asks for in total. -/
def need : ℚ := min o.budget (fl (fl (agg.totalUsed + reserveOthers w k agg) + k.cost))

end Decide

/-- The ways a check throws. -/
inductive CheckError
  | tenant
  | cost (e : CostError)
  | weight (value : ℚ)
  /-- The pool rejects the weight of the region. -/
  | regionWeight (value : ℚ)

/-- The message of the thrown error. -/
def CheckError.message : CheckError → String
  | .tenant => "federatedWeightedFairEscrow: tenant must be a non-empty string"
  | .cost e => e.message
  | .weight value =>
    "federatedWeightedFairEscrow.weight must be a positive finite number, got " ++ toString value
  | .regionWeight value =>
    "regionFairPool.weight must be a positive finite number, got " ++ toString value

/-- What a check makes visible. -/
inductive Event
  /-- The pool raised the region's grant in its window. -/
  | leased (window amount : ℚ)
  /-- The region decided in its window. -/
  | decided (window cost : ℚ) (decision : Decision)
  | threw (error : CheckError)

/-- Where `ensureRegionBudget` leaves the pool and the region, and the error it throws. -/
structure Leased where
  pool : Pool
  window : RegionWindow
  log : List Event
  error : Option CheckError

/-- `ensureRegionBudget(entry, cost, now, agg)`, for a number of rounds. -/
def ensureRegionBudget (o : PoolOptions) (region : String) (k : Asker) (agg : Totals) :
    ℕ → Pool → RegionWindow → Leased
  | 0, pool, w => ⟨pool, w, [], none⟩
  | iters + 1, pool, w =>
    if asksPool o w k agg then
      match grant o pool region agg.totalWeight (need o w k agg) k.now with
      | none => ⟨pool, w, [], some (.regionWeight agg.totalWeight)⟩
      | some (p, granted) =>
        let pool' := { pool with window := some p }
        let w' := { w with regionBudget := granted }
        let event :=
          Event.leased p.windowStart (granted - (pool.rollWindow o k.now).grantedTo region)
        -- the pool caps the region
        if granted ≤ w.regionBudget then ⟨pool', w', [event], none⟩
        else
          let rest := ensureRegionBudget o region k agg iters pool' w'
          { rest with log := event :: rest.log }
    else ⟨pool, w, [], none⟩

/-- `MAX_LEASE_ITERS`. -/
def maxLeaseIters : ℕ := 64

/-- The regions around one pool. -/
structure Config where
  pool : PoolOptions
  /-- `l1.maxKeys` of a region; unbounded when `none`. -/
  maxKeys : String → Option ℚ

/-- A check of a region, at a reading of the clock; `weight` is what `weightOf(tenant)` returns. -/
structure Check where
  tenant : String
  cost : ℚ
  weight : ℚ
  now : ℚ

/-- `validateInputs(tenant, cost)`. -/
def validateInputs (c : Check) : Except CheckError Unit :=
  if c.tenant.length = 0 then .error .tenant
  else match requireCost c.cost with
    | .error e => .error (.cost e)
    | .ok () => if 0 < c.weight then .ok () else .error (.weight c.weight)

/-- The prelude of a check, up to the entry of its tenant. -/
def arrive (cfg : Config) (region : String) (s : Region) (c : Check) : RegionWindow × Asker :=
  let w := rollRegion cfg.pool s c.now
  match w.tenants.lookup c.tenant with
  | some entry =>
    let entry := { entry with weight := c.weight }
    ({ w with tenants := w.tenants.set c.tenant entry }, ⟨c.tenant, entry, c.cost, c.now⟩)
  | none =>
    (bootstrapTenant (cfg.maxKeys region) w c.tenant c.weight,
      ⟨c.tenant, ⟨c.weight, 0⟩, c.cost, c.now⟩)

/-- `checkSync(tenant, cost)`. -/
def checkSync (cfg : Config) (region : String) (pool : Pool) (s : Region) (c : Check) :
    Pool × Region × List Event :=
  match validateInputs c with
  | .error e => (pool, s, [.threw e])
  | .ok () =>
    let (w, k) := arrive cfg region s c
    let agg := w.aggregate
    let leased := ensureRegionBudget cfg.pool region k agg maxLeaseIters
      { pool with clock := c.now } w
    match leased.error with
    | some e => (leased.pool, some leased.window, leased.log ++ [.threw e])
    | none =>
      let d := verdict cfg.pool leased.window k agg
      (leased.pool, some (if d.allowed then charge leased.window k else leased.window),
        leased.log ++ [.decided leased.window.windowStart c.cost d])

/-- Regions around one pool, one check at a time. -/
def fleet (cfg : Config) : Machine (Parties String Pool Region) (String × Check) (String × Event) :=
  Parties.machine fun region pool s c => some (checkSync cfg region pool s c)

/-- `release(region, now)` of the pool. -/
def Pool.release (o : PoolOptions) (pool : Pool) (region : String) (now : ℚ) : Pool :=
  let p := pool.rollWindow o now
  ⟨some { p with regions := p.regions.erase region }, now⟩

/-- `reset(tenant)`. -/
def resetTenant (s : Region) (tenant : String) : Region :=
  s.map fun w => { w with tenants := w.tenants.erase tenant }

/-- `reset()`, which releases the region if it has a window. -/
def reset (o : PoolOptions) (region : String) (pool : Pool) (s : Region) (now : ℚ) :
    Pool × Region :=
  match s with
  | none => ({ pool with clock := now }, none)
  | some _ => (pool.release o region now, none)

/-- What a caller asks of a region; `now` is the reading of the clock. -/
inductive Call
  | check (c : Check)
  | resetTenant (tenant : String)
  | reset (now : ℚ)

/-- A call of a region. -/
def call (cfg : Config) (region : String) (pool : Pool) (s : Region) :
    Call → Pool × Region × List Event
  | .check c => checkSync cfg region pool s c
  | .resetTenant tenant => (pool, FederatedFairEscrow.resetTenant s tenant, [])
  | .reset now =>
    ((FederatedFairEscrow.reset cfg.pool region pool s now).1,
      (FederatedFairEscrow.reset cfg.pool region pool s now).2, [])

/-- Regions around one pool, one call at a time. -/
def service (cfg : Config) :
    Machine (Parties String Pool Region) (String × Call) (String × Event) :=
  Parties.machine fun region pool s a => some (call cfg region pool s a)

/-- No region and no window yet. -/
def start (clock : ℚ) : Parties String Pool Region := ⟨⟨none, clock⟩, fun _ => none⟩

end ThrottleKit.FederatedFairEscrow
