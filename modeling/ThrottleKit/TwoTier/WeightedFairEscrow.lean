import Mathlib.Algebra.Order.Monoid.Unbundled.WithTop
import ThrottleKit.Algorithms.FixedWindow
import ThrottleKit.Lib.Machine
import ThrottleKit.Lib.OrderedMap

/-!
# Weighted fair escrow

A process splits the units of a window over its tenants by weight: a check within its tenant's
guaranteed share is admitted, one beyond it may borrow what the guarantees of the others leave, and
no check goes past the effective limit. Without `l2` that limit is the whole budget. With `l2` it
starts at zero and grows by leases from a store that runs a fixed window.

## Entries by reference

A check holds a reference to its tenant's entry across the `await` of a lease, and in that time the
map may lose the entry to an eviction, a reset or a roll. So an entry is a cell of a heap, and the
map holds references. Running totals of the weights and the used amounts stand for those of the map;
once a fractional weight or cost was seen, `aggregate` sums over the map instead.

## The asynchronous code as steps

One action is a stretch of code between two `await`s. The store applies a lease request in an action
of its own (`serve`), so request and reply may each be delayed, and either may be lost (`lose`).

Two ghosts, read by no branch of the code: `Process.clock`, the last clock reading, and
`Check.tenant`, the tenant a check is for.

## Rounding

Every result of the code is rounded: by doubles, or not at all.

## Main definitions

* `Budget`, `Config`, `Check`, `Call`, `Process` — the data of one process
* `decide`, `bootstrapTenant`, `check`, `checkL2`, `resume`, `reset` — the code
* `Act`, `Event`, `step`, `fleet` — one action of a process, and processes around a store
-/

namespace ThrottleKit.FairEscrow

open AlignedWindow Rounding

/-- A budget per window, and the key under which a store keeps it. -/
structure Budget where
  /-- `L`, the floored limit. -/
  limit : ℤ
  windowMs : ℚ
  l2Key : String
  limit_nonneg : 0 ≤ limit
  windowMs_pos : 0 < windowMs

/-- What a process needs to lease from a store. -/
structure Backing (b : Budget) where
  /-- The lease size. -/
  quantum : ℤ
  quantum_pos : 0 < quantum
  /-- `fixedWindow` takes a positive limit only. -/
  limit_pos : 0 < b.limit

/-- The other options of `weightedFairEscrow`, validated. -/
structure Config (b : Budget) where
  /-- `l1.maxKeys`, unbounded when `none`. -/
  maxKeys : Option ℚ
  l2 : Option (Backing b)

/-- The strategy every process leases against. -/
def Backing.sharedStrategy {b : Budget} (l2 : Backing b) : FixedWindow.Config where
  limit := b.limit
  windowMs := b.windowMs
  limit_pos := by exact_mod_cast l2.limit_pos
  windowMs_pos := b.windowMs_pos

/-- Per-tenant record: the weight last observed, and what was used in this window. -/
structure TenantEntry where
  weight : ℚ
  used : ℚ

/-- A decision whose ceiling may be `Infinity` and whose reset may be `-Infinity`. -/
structure ShareDecision where
  allowed : Bool
  limit : WithTop ℚ
  remaining : WithTop ℚ
  resetAt : WithBot ℚ
  retryAfterMs : ℚ

/-- The ways a check throws before it touches any state. -/
inductive CheckError
  | unavailable
  | tenant
  | cost (e : CostError)
  | weight (value : ℚ)

/-- The message of the thrown error. -/
def CheckError.message : CheckError → String
  | .unavailable =>
    "weightedFairEscrow.checkSync is unavailable when `l2` is configured " ++
      "(L2 lease is async); use check()"
  | .tenant => "weightedFairEscrow: tenant must be a non-empty string"
  | .cost e => e.message
  | .weight value =>
    "weightedFairEscrow.weight must be a positive finite number, got " ++ toString value

/-- The arguments of a check, validated. -/
structure Request where
  tenant : String
  cost : ℚ
  weight : ℚ
  cost_pos : 0 < cost
  weight_pos : 0 < weight

/-- `validateInputs(tenant, cost)`, where `weightOf(tenant)` returns `weight`. -/
def validateInputs (tenant : String) (cost weight : ℚ) : Except CheckError Request :=
  if tenant.length = 0 then .error .tenant
  else match hcost : requireCost cost with
    | .error e => .error (.cost e)
    | .ok () =>
      if hweight : 0 < weight then
        .ok ⟨tenant, cost, weight, pos_of_requireCost hcost, hweight⟩
      else .error (.weight weight)

/-- A check that has its entry: the arguments of `decide` and `checkL2`. -/
structure Check where
  /-- Ghost: the tenant it is for. -/
  tenant : String
  /-- The reference of its entry. -/
  entry : ℕ
  cost : ℚ
  /-- The clock reading at its start. -/
  now : ℚ
  cost_pos : 0 < cost

/-- How far a lease has come. -/
inductive Stage
  /-- On its way to the store. -/
  | requested
  /-- Applied by the store; the reply is on its way. -/
  | replied (leased : Decision)

/-- A check suspended on its lease. -/
structure Call where
  check : Check
  leaseAmount : ℚ
  stage : Stage
  leaseAmount_pos : 0 < leaseAmount

/-- The state of one process. -/
structure Process where
  /-- `-Infinity` before the first check. -/
  windowStart : WithBot ℚ
  /-- What the process sees as its budget in this window. -/
  lEffective : ℚ
  /-- The entries of the active tenants, by reference. -/
  tenants : OrderedMap String ℕ
  aggWeight : ℚ
  aggUsed : ℚ
  /-- A fractional weight or cost was seen. -/
  fractionalSeen : Bool
  /-- The entries created so far, and how many. -/
  heap : ℕ → TenantEntry
  allocated : ℕ
  calls : OrderedMap ℕ Call
  /-- Ghost: the last clock reading. -/
  clock : ℚ

/-- The totals of the active set. -/
structure Totals where
  totalWeight : ℚ
  totalUsed : ℚ

/-- `Number.isInteger(value)`. -/
def isInteger (value : ℚ) : Bool := value.den = 1

section Code

variable [Rounding] {b : Budget}

/-- What a window opens with: the whole budget, or nothing yet. -/
def Config.initial (cfg : Config b) : ℚ := if cfg.l2.isNone then b.limit else 0

/-- Whether the map holds `maxKeys` tenants. -/
def Config.full (cfg : Config b) (size : ℕ) : Bool :=
  match cfg.maxKeys with
  | some maxKeys => maxKeys ≤ size
  | none => false

/-- A process as constructed. -/
def Process.new (cfg : Config b) : Process where
  windowStart := ⊥
  lEffective := cfg.initial
  tenants := .empty
  aggWeight := 0
  aggUsed := 0
  fractionalSeen := false
  heap := fun _ => ⟨0, 0⟩
  allocated := 0
  calls := .empty
  clock := 0

namespace Process

/-- The clock was read. -/
def tick (s : Process) (now : ℚ) : Process := { s with clock := now }

/-- Call `id` is suspended, or its lease has moved on. -/
def setCall (s : Process) (id : ℕ) (c : Call) : Process := { s with calls := s.calls.set id c }

/-- Call `id` has returned. -/
def finish (s : Process) (id : ℕ) : Process := { s with calls := s.calls.erase id }

/-- `lEffective += leaseAmount`. -/
def grow (s : Process) (leaseAmount : ℚ) : Process :=
  { s with lEffective := fl (s.lEffective + leaseAmount) }

/-- An empty window starting at `windowStart`. -/
def opened (cfg : Config b) (s : Process) (windowStart : WithBot ℚ) : Process :=
  { s with
    windowStart := windowStart
    lEffective := cfg.initial
    tenants := .empty
    aggWeight := 0
    aggUsed := 0
    fractionalSeen := false }

/-- `now >= windowStart + windowMs`. -/
def rolls (b : Budget) (s : Process) (now : ℚ) : Bool :=
  s.windowStart.map (fun windowStart => fl (windowStart + b.windowMs)) ≤ (now : WithBot ℚ)

/-- `rollWindow(now)`. -/
def rollWindow (cfg : Config b) (s : Process) (now : ℚ) : Process :=
  if rolls b s now then opened cfg s (startOf b.windowMs now : ℚ) else s

/-- The weights of the active tenants, summed over the map. -/
def weightInMap (s : Process) : ℚ := s.tenants.sum fun _ ref => (s.heap ref).weight

/-- The used amounts of the active tenants, summed over the map. -/
def usedInMap (s : Process) : ℚ := s.tenants.sum fun _ ref => (s.heap ref).used

/-- The weights of the active tenants, in the order of the map. -/
def weights (s : Process) : List ℚ := s.tenants.entries.map fun e => (s.heap e.2).weight

/-- The used amounts of the active tenants, in the order of the map. -/
def useds (s : Process) : List ℚ := s.tenants.entries.map fun e => (s.heap e.2).used

/-- `aggregate()`. -/
def aggregate (s : Process) : Totals :=
  if s.fractionalSeen then ⟨sumOf s.weights, sumOf s.useds⟩ else ⟨s.aggWeight, s.aggUsed⟩

/-- `setWeight(entry, w)`. -/
def setWeight (s : Process) (ref : ℕ) (w : ℚ) : Process :=
  { s with
    aggWeight := fl (s.aggWeight + fl (w - (s.heap ref).weight))
    heap := Function.update s.heap ref { s.heap ref with weight := w }
    fractionalSeen := s.fractionalSeen || !isInteger w }

/-- `applyUsed(entry, cost)`. -/
def applyUsed (s : Process) (ref : ℕ) (cost : ℚ) : Process :=
  { s with
    heap := Function.update s.heap ref { s.heap ref with used := fl ((s.heap ref).used + cost) }
    aggUsed := fl (s.aggUsed + cost)
    fractionalSeen := s.fractionalSeen || !isInteger cost }

/-- `tenants.delete(tenant)`, with its weight and used amount off the running totals. -/
def deleteTenant (s : Process) (tenant : String) : Process :=
  match s.tenants.lookup tenant with
  | some ref =>
    { s with
      aggWeight := fl (s.aggWeight - (s.heap ref).weight)
      aggUsed := fl (s.aggUsed - (s.heap ref).used)
      tenants := s.tenants.erase tenant }
  | none => s

/-- A new entry of weight `w`, the next one in the heap. -/
def addTenant (s : Process) (tenant : String) (w : ℚ) : Process :=
  { s with
    heap := Function.update s.heap s.allocated ⟨w, 0⟩
    allocated := s.allocated + 1
    tenants := s.tenants.set tenant s.allocated
    aggWeight := fl (s.aggWeight + w)
    fractionalSeen := s.fractionalSeen || !isInteger w }

/-- The eviction of `bootstrapTenant`: the oldest tenant goes when the map is full. -/
def evict (cfg : Config b) (s : Process) : Process :=
  if cfg.full s.tenants.size then
    match s.tenants.oldest? with
    | some oldest => s.deleteTenant oldest
    | none => s
  else s

/-- `bootstrapTenant(tenant, w)`, with the reference of the entry. -/
def bootstrapTenant (cfg : Config b) (s : Process) (tenant : String) (w : ℚ) : Process × ℕ :=
  ((evict cfg s).addTenant tenant w, (evict cfg s).allocated)

/-- `⌊(weight * lEffective) / totalWeight⌋` over a positive total weight. -/
def flooredShare (s : Process) (weight totalWeight : ℚ) : ℚ :=
  ⌊fl (fl (weight * s.lEffective) / totalWeight)⌋

/-- `guaranteedShare(weight, totalWeight)`: over a total weight of zero, `Infinity`. -/
def guaranteedShare (s : Process) (weight totalWeight : ℚ) : WithTop ℚ :=
  if totalWeight = 0 then ⊤ else s.flooredShare weight totalWeight

/-- `Math.ceil(windowStart + windowMs)`. -/
def resetAt (b : Budget) (s : Process) : WithBot ℚ :=
  s.windowStart.map fun windowStart => (⌈fl (windowStart + b.windowMs)⌉ : ℚ)

end Process

/-- `Math.max(0, Math.ceil(resetAt - now))`. -/
def retryAfter (resetAt : WithBot ℚ) (now : ℚ) : ℚ :=
  match resetAt with
  | ⊥ => 0
  | (resetAt : ℚ) => max 0 ⌈fl (resetAt - now)⌉

namespace Process

/-- What every *other* active tenant has left of its guaranteed share, in the order of the map. -/
def reserves (s : Process) (entry : ℕ) (totalWeight : ℚ) : List ℚ :=
  (s.tenants.entries.filter fun e => e.2 ≠ entry).map fun e =>
    max 0 (fl (s.flooredShare (s.heap e.2).weight totalWeight - (s.heap e.2).used))

/-- What the others have left, in all. -/
def reserve (s : Process) (entry : ℕ) (totalWeight : ℚ) : ℚ := sumOf (s.reserves entry totalWeight)

/-- The decision of `decide(entry, cost, now)`. -/
def verdict (b : Budget) (s : Process) (k : Check) : ShareDecision :=
  let used := (s.heap k.entry).used
  let resetAt := s.resetAt b
  let totalWeight := s.aggregate.totalWeight
  let lRemaining := fl (s.lEffective - s.aggregate.totalUsed)
  match s.guaranteedShare (s.heap k.entry).weight totalWeight with
  | ⊤ =>
    -- no tenant is active any more: the cap alone decides
    if lRemaining < k.cost then ⟨false, ⊤, ⊤, resetAt, retryAfter resetAt k.now⟩
    else ⟨true, ⊤, ⊤, resetAt, 0⟩
  | (gAsker : ℚ) =>
    if lRemaining < k.cost then
      ⟨false, (max gAsker used : ℚ), (max 0 (fl (gAsker - used)) : ℚ), resetAt,
        retryAfter resetAt k.now⟩
    else if fl (used + k.cost) ≤ gAsker then
      ⟨true, gAsker, (max 0 (fl (gAsker - fl (used + k.cost))) : ℚ), resetAt, 0⟩
    else
      let borrowAvailable := max 0 (fl (lRemaining - s.reserve k.entry totalWeight))
      let wanted := fl (fl (used + k.cost) - gAsker)
      let grantable := min (min (min wanted k.cost) borrowAvailable) lRemaining
      let realizedCeiling := fl (gAsker + grantable)
      if fl (used + k.cost) ≤ realizedCeiling then
        ⟨true, realizedCeiling, (max 0 (fl (realizedCeiling - fl (used + k.cost))) : ℚ), resetAt,
          0⟩
      else
        ⟨false, realizedCeiling, (max 0 (fl (realizedCeiling - used)) : ℚ), resetAt,
          retryAfter resetAt k.now⟩

/-- `decide(entry, cost, now)`: an admission is charged to the entry. -/
def decide (b : Budget) (s : Process) (k : Check) : Process × ShareDecision :=
  (if (s.verdict b k).allowed then s.applyUsed k.entry k.cost else s, s.verdict b k)

end Process

/-- What a step makes visible. -/
inductive Event
  /-- `decide` ran in the window starting at `window`, with `divisor` as the total weight. -/
  | decided (call : ℕ) (check : Check) (window : WithBot ℚ) (divisor : ℚ) (decision : ShareDecision)
  /-- The store refused the lease of a check. -/
  | refused (call : ℕ) (check : Check) (decision : ShareDecision)
  /-- A call threw on its arguments. -/
  | threw (call : ℕ) (error : CheckError)
  /-- A call threw on its lease. -/
  | failed (call : ℕ)
  /-- The store charged a lease of a check made at `now`. -/
  | charged (now amount : ℚ)

/-- `decide` as the last thing call `id` does. -/
def conclude (b : Budget) (s : Process) (id : ℕ) (k : Check) : Process × List Event :=
  ((s.decide b k).1.finish id,
    [.decided id k s.windowStart s.aggregate.totalWeight (s.decide b k).2])

/-- One turn of the loop of `checkL2`: a decision, or the `await` of a lease. -/
def checkL2 (l2 : Backing b) (s : Process) (id : ℕ) (k : Check) : Process × List Event :=
  let lRem := fl (s.lEffective - s.aggregate.totalUsed)
  if k.cost ≤ lRem then conclude b s id k
  else
    let needed := fl (k.cost - lRem)
    (s.setCall id ⟨k, max needed l2.quantum, .requested,
      lt_max_of_lt_right (by exact_mod_cast l2.quantum_pos)⟩, [])

/-- The prelude of a check, up to the entry of its tenant. -/
def arrive (cfg : Config b) (s : Process) (r : Request) (now : ℚ) : Process × Check :=
  let s := (s.rollWindow cfg now).tick now
  match s.tenants.lookup r.tenant with
  | some ref => (s.setWeight ref r.weight, ⟨r.tenant, ref, r.cost, now, r.cost_pos⟩)
  | none =>
    let p := s.bootstrapTenant cfg r.tenant r.weight
    (p.1, ⟨r.tenant, p.2, r.cost, now, r.cost_pos⟩)

/-- `checkSync(tenant, cost)`. -/
def checkSync (cfg : Config b) (s : Process) (id : ℕ) (tenant : String) (cost weight now : ℚ) :
    Process × List Event :=
  if cfg.l2.isSome then (s, [.threw id .unavailable])
  else match validateInputs tenant cost weight with
    | .error e => (s, [.threw id e])
    | .ok r => conclude b (arrive cfg s r now).1 id (arrive cfg s r now).2

/-- `check(tenant, cost)` up to its first `await`. -/
def check (cfg : Config b) (s : Process) (id : ℕ) (tenant : String) (cost weight now : ℚ) :
    Process × List Event :=
  match validateInputs tenant cost weight with
  | .error e => (s, [.threw id e])
  | .ok r =>
    match cfg.l2 with
    | none => conclude b (arrive cfg s r now).1 id (arrive cfg s r now).2
    | some l2 => checkL2 l2 (arrive cfg s r now).1 id (arrive cfg s r now).2

/-- The decision of a check whose lease the store denied by `leased`. -/
def leaseDenied (b : Budget) (s : Process) (k : Check) (leased : Decision) : ShareDecision where
  allowed := false
  limit := (max 0 (s.heap k.entry).used : ℚ)
  remaining := (0 : ℚ)
  resetAt := s.resetAt b
  retryAfterMs := leased.retryAfterMs

/-- The code of call `id` after `await l2.apply(..)`. -/
def resume (l2 : Backing b) (s : Process) (id : ℕ) : Option (Process × List Event) :=
  (s.calls.lookup id).bind fun c =>
    match c.stage with
    | .requested => none
    | .replied leased =>
      if leased.allowed then
        let s := (s.grow c.leaseAmount).finish id
        if b.limit ≤ s.lEffective then some (conclude b s id c.check)
        else some (checkL2 l2 s id c.check)
      else some (s.finish id, [.refused id c.check (leaseDenied b s c.check leased)])

/-- `reset(tenant)`, or `reset()`. -/
def reset (cfg : Config b) (s : Process) : Option String → Process
  | none => s.opened cfg ⊥
  | some tenant => s.deleteTenant tenant

/-! ## The process against the store -/

/-- The shared store. -/
abbrev L2 : Type := Store FixedWindow.State

/-- What can happen at one process. `weight` is what `weightOf(tenant)` returns. -/
inductive Act
  | checkSync (call : ℕ) (tenant : String) (cost weight now : ℚ)
  | check (call : ℕ) (tenant : String) (cost weight now : ℚ)
  /-- The store applies the lease request of a call. -/
  | serve (call : ℕ)
  /-- The lease request of a call or its reply is lost. -/
  | lose (call : ℕ)
  | resume (call : ℕ)
  | reset (tenant : Option String)
  /-- The TTL of the shared state runs out at the store. -/
  | expire

/-- The store applies the lease request of call `id`. -/
def serve (l2 : Backing b) (store : L2) (s : Process) (id : ℕ) :
    Option (L2 × Process × List Event) :=
  (s.calls.lookup id).bind fun c =>
    match c.stage with
    | .requested =>
      let r := FixedWindow.applyCheck l2.sharedStrategy store b.l2Key c.check.now c.leaseAmount
      some (r.1, s.setCall id { c with stage := .replied r.2 },
        if r.2.allowed then [.charged c.check.now c.leaseAmount] else [])
    | .replied _ => none

/-- One action of a process. A call number names one call. -/
def step (cfg : Config b) (store : L2) (s : Process) :
    Act → Option (L2 × Process × List Event)
  | .checkSync id tenant cost weight now =>
    if (s.calls.lookup id).isSome then none
    else some (store, checkSync cfg s id tenant cost weight now)
  | .check id tenant cost weight now =>
    if (s.calls.lookup id).isSome then none
    else some (store, check cfg s id tenant cost weight now)
  | .serve id => cfg.l2.bind fun l2 => serve l2 store s id
  | .lose id =>
    if (s.calls.lookup id).isSome then some (store, s.finish id, [.failed id]) else none
  | .resume id => cfg.l2.bind fun l2 => (resume l2 s id).map fun r => (store, r)
  | .reset tenant => some (store, reset cfg s tenant, [])
  | .expire => some (store.expire b.l2Key, s, [])

/-- Processes `ι` that share one budget. -/
def fleet {ι : Type} [DecidableEq ι] (cfg : ι → Config b) :
    Machine (Parties ι L2 Process) (ι × Act) (ι × Event) :=
  Parties.machine fun i => step (cfg i)

/-- All processes as constructed, around an empty store. -/
def start {ι : Type} (cfg : ι → Config b) : Parties ι L2 Process := ⟨.empty, fun i => .new (cfg i)⟩

end Code

end ThrottleKit.FairEscrow
