import ThrottleKit.Algorithms.FixedWindow
import ThrottleKit.Lib.Machine
import ThrottleKit.Lib.OrderedMap

/-!
# The leased mode of the two-tier limiter

A node (L1) leases batches of tokens from a distributed store (L2) that runs a fixed window, and
serves checks from its local credits. A check that is short waits on the key's pending lease, or
issues one; with `lowWater` set, an admission may issue a refill that nobody waits on.

## The asynchronous code as steps

One action of a node is a stretch of its code between two `await`s, or one callback of a lease
promise: `deliver` is the `.then` of a lease or a refill, `clean` its `.finally`. A lease request
is applied by the store in an action of its own (`serve`), so the request and the reply may each
be delayed, and either may be lost (`lose`). A stretch reads the clock where it starts (`now`) and
again where it issues a lease (`leaseNow`).

Three ghosts, read by no branch of the code: `Node.clock`, the last clock reading, `Entry.leasedAt`,
the reading of the last lease that added credits, and `Lease.issuer`, the call that issued it.

## Main definitions

* `Config`, `Entry`, `Lease`, `Call`, `Node` — the data of one node
* `turn`, `check`, `resume`, `deliver`, `clean` — the code of a check and of the lease callbacks
* `Act`, `Event`, `step` — one action of a node against the store
-/

namespace ThrottleKit.Leased

open Rounding

variable [Rounding] {Sizer : Type}

/-- The options of `twoTier` in leased mode, validated. -/
structure Config (Sizer : Type) where
  batch : ℚ
  lowWater : ℚ
  returnIdleAfterMs : Option ℚ
  windowCoupled : Bool
  /-- What an adaptive limiter starts a key's learner with. -/
  makeSizer : Option Sizer
  /-- `sizer.size()`. -/
  size : Sizer → ℚ
  /-- `sizer.observe(demand)`. -/
  observe : Sizer → ℚ → Sizer
  /-- `l1.maxKeys`, unbounded when `none`. -/
  maxKeys : Option ℚ
  keyPrefix : Option String
  one_le_batch : 1 ≤ batch

/-- All per-key L1 state. -/
structure Entry (Sizer : Type) where
  credits : ℚ
  /-- The most recent L2 decision. -/
  lastDecision : Option Decision
  lastUse : ℚ
  /-- A proactive refill is in flight. -/
  refilling : Bool
  /-- The on-demand lease in flight, by its index. -/
  pending : Option ℕ
  sizer : Option Sizer
  windowDemand : ℚ
  windowEnd : Option ℚ
  /-- Ghost: the reading of the last lease that added credits. -/
  leasedAt : ℚ

/-- The record of a key seen for the first time. -/
def Entry.fresh (cfg : Config Sizer) : Entry Sizer where
  credits := 0
  lastDecision := none
  lastUse := 0
  refilling := false
  pending := none
  sizer := cfg.makeSizer
  windowDemand := 0
  windowEnd := none
  leasedAt := 0

/-- How far a lease has come. -/
inductive Stage
  /-- On its way to the store. -/
  | requested
  /-- Applied by the store; the reply is on its way. -/
  | replied (d : Decision)
  /-- The `.then` callback has run. -/
  | delivered (d : Decision)
  /-- Rejected. -/
  | failed
deriving DecidableEq

/-- The lease promise has settled. -/
def Stage.settled : Stage → Bool
  | .requested | .replied _ => false
  | .delivered _ | .failed => true

/-- A lease, on demand or proactive. -/
structure Lease where
  key : String
  amount : ℚ
  /-- The clock reading in the request. -/
  now : ℚ
  /-- Whether it is a proactive refill. -/
  refill : Bool
  stage : Stage
  /-- The `.finally` callback has run. -/
  cleaned : Bool
  /-- Ghost: the call that issued it. -/
  issuer : ℕ

/-- A suspended `check`. -/
structure Call where
  key : String
  cost : ℚ
  /-- The clock reading at its entry. -/
  now : ℚ
  /-- The lease it awaits. -/
  lease : ℕ

/-- The state of one node. -/
structure Node (Sizer : Type) where
  entries : OrderedMap String (Entry Sizer)
  leases : List Lease
  calls : ℕ → Option Call
  /-- Resets on their way to the store. -/
  resets : List String
  /-- Ghost: the last clock reading. -/
  clock : ℚ

/-- A node as constructed. -/
def Node.new : Node Sizer := ⟨.empty, [], fun _ => none, [], 0⟩

/-- What a step makes visible. -/
inductive Event
  /-- A call that entered at `entered` returned at `at'`. -/
  | decided (call : ℕ) (key : String) (cost entered at' : ℚ) (decision : Decision)
  /-- A call threw on its cost. -/
  | rejected (call : ℕ) (error : CostError)
  /-- A call threw on its lease. -/
  | failed (call : ℕ)
  /-- The store charged a lease made at `now`. -/
  | charged (key : String) (now amount : ℚ)

namespace Node

/-- `entries.set(key, e)`. -/
def setEntry (s : Node Sizer) (key : String) (e : Entry Sizer) : Node Sizer :=
  { s with entries := s.entries.set key e }

/-- The lease `l` has moved on. -/
def setLease (s : Node Sizer) (l : ℕ) (lease : Lease) : Node Sizer :=
  { s with leases := s.leases.set l lease }

/-- A new lease; its index is the number of those before it. -/
def addLease (s : Node Sizer) (lease : Lease) : Node Sizer :=
  { s with leases := s.leases ++ [lease] }

/-- Call `id` is suspended. -/
def suspend (s : Node Sizer) (id : ℕ) (c : Call) : Node Sizer :=
  { s with calls := Function.update s.calls id (some c) }

/-- Call `id` has returned. -/
def finish (s : Node Sizer) (id : ℕ) : Node Sizer :=
  { s with calls := Function.update s.calls id none }

/-- The clock was read. -/
def tick (s : Node Sizer) (now : ℚ) : Node Sizer := { s with clock := now }

/-- `entries.delete(key)` of every key that does not satisfy `keep`. -/
def retain (s : Node Sizer) (keep : String → Entry Sizer → Bool) : Node Sizer :=
  { s with entries := s.entries.filter keep }

end Node

/-- Whether the map holds `maxKeys` keys. -/
def Config.full (cfg : Config Sizer) (size : ℕ) : Bool :=
  match cfg.maxKeys with
  | some maxKeys => maxKeys ≤ size
  | none => false

/-- The eviction of `entryFor`: the oldest key goes when the map is full. -/
def evict (cfg : Config Sizer) (s : Node Sizer) : Node Sizer :=
  if cfg.full s.entries.size then
    match s.entries.oldest? with
    | some oldest => s.retain fun key _ => key ≠ oldest
    | none => s
  else s

/-- `entryFor(key)`. -/
def entryFor (cfg : Config Sizer) (s : Node Sizer) (key : String) : Node Sizer × Entry Sizer :=
  match s.entries.lookup key with
  | some e => (s, e)
  | none => ((evict cfg s).setEntry key (.fresh cfg), .fresh cfg)

/-- `leaseSizeFor(e)`. -/
def leaseSizeFor (cfg : Config Sizer) (e : Entry Sizer) : ℚ :=
  match e.sizer with
  | some sizer => max 1 (cfg.size sizer)
  | none => cfg.batch

/-- `synthAllow(e, now)`. -/
def synthAllow (win : FixedWindow.Config) (e : Entry Sizer) (now : ℚ) : Decision where
  allowed := true
  limit := win.limit
  remaining := max 0 ⌊e.credits⌋
  resetAt := match e.lastDecision with
    | some d => d.resetAt
    | none => fl (now + win.windowMs)
  retryAfterMs := 0

/-- `maybeRefill(key, e)`. -/
def maybeRefill (cfg : Config Sizer) (s : Node Sizer) (id : ℕ) (key : String) (e : Entry Sizer)
    (leaseNow : ℚ) : Node Sizer :=
  if cfg.lowWater ≤ 0 then s
  else if cfg.lowWater < e.credits then s
  else if e.refilling then s
  else
    ((s.tick leaseNow).setEntry key { e with refilling := true }).addLease
      ⟨key, leaseSizeFor cfg e, leaseNow, true, .requested, false, id⟩

/-- An entry after an admission of `cost`. -/
def Entry.spend (e : Entry Sizer) (cost : ℚ) : Entry Sizer :=
  { e with
    credits := fl (e.credits - cost)
    windowDemand := if e.sizer.isSome then fl (e.windowDemand + cost) else e.windowDemand }

/-- One turn of the loop: an admission from local credits, or an `await` of a lease. -/
def turn (win : FixedWindow.Config) (cfg : Config Sizer) (s : Node Sizer) (id : ℕ) (key : String)
    (cost entered leaseNow : ℚ) (e : Entry Sizer) : Node Sizer × List Event :=
  if cost ≤ e.credits then
    let e' := e.spend cost
    (maybeRefill cfg ((s.setEntry key e').finish id) id key e' leaseNow,
      [.decided id key cost entered s.clock (synthAllow win e' entered)])
  else match e.pending with
    | some l => (s.suspend id ⟨key, cost, entered, l⟩, [])
    | none =>
      let lease : Lease :=
        ⟨key, max (leaseSizeFor cfg e) cost, leaseNow, false, .requested, false, id⟩
      let l := s.leases.length
      ((((s.tick leaseNow).addLease lease).setEntry key { e with pending := some l }).suspend id
        ⟨key, cost, entered, l⟩, [])

/-- Feed the learner the demand of a window that has rolled. -/
def Entry.observeWindow (cfg : Config Sizer) (e : Entry Sizer) (now : ℚ) : Entry Sizer :=
  match e.sizer, e.windowEnd with
  | some sizer, some windowEnd =>
    if windowEnd ≤ now then
      { e with sizer := some (cfg.observe sizer e.windowDemand), windowDemand := 0,
               windowEnd := none }
    else e
  | _, _ => e

/-- Discard the credits of a window that has rolled. -/
def Entry.discardRolled (cfg : Config Sizer) (e : Entry Sizer) (now : ℚ) : Entry Sizer :=
  match e.lastDecision with
  | some d => if cfg.windowCoupled ∧ d.resetAt ≤ now ∧ 0 < e.credits then { e with credits := 0 }
    else e
  | none => e

/-- What `check` does to its entry before the loop. -/
def Entry.arrive (cfg : Config Sizer) (e : Entry Sizer) (now : ℚ) : Entry Sizer :=
  (({ e with lastUse := now } : Entry Sizer).observeWindow cfg now).discardRolled cfg now

/-- `check` on an already prefixed key, up to its first `await`. -/
def checkKey (win : FixedWindow.Config) (cfg : Config Sizer) (s : Node Sizer) (id : ℕ)
    (key : String) (cost now leaseNow : ℚ) : Node Sizer × List Event :=
  match requireCost cost with
  | .error err => (s.finish id, [.rejected id err])
  | .ok () =>
    let r := entryFor cfg (s.tick now) key
    let e := r.2.arrive cfg now
    turn win cfg (r.1.setEntry key e) id key cost now leaseNow e

/-- `check(rawKey, cost)` up to its first `await`. -/
def check (win : FixedWindow.Config) (cfg : Config Sizer) (s : Node Sizer) (id : ℕ)
    (rawKey : String) (cost now leaseNow : ℚ) : Node Sizer × List Event :=
  checkKey win cfg s id (prefixer cfg.keyPrefix rawKey) cost now leaseNow

/-- The code of call `id` after `await lease`. -/
def resume (win : FixedWindow.Config) (cfg : Config Sizer) (s : Node Sizer) (id : ℕ)
    (now leaseNow : ℚ) : Option (Node Sizer × List Event) :=
  (s.calls id).bind fun c =>
    (s.leases[c.lease]?).bind fun lease =>
      match lease.stage with
      | .delivered d =>
        let r := entryFor cfg (s.tick now) c.key
        if !d.allowed ∧ r.2.credits < c.cost then
          some (r.1.finish id, [.decided id c.key c.cost c.now now d])
        else some (turn win cfg r.1 id c.key c.cost c.now leaseNow r.2)
      | .failed => some (s.finish id, [.failed id])
      | _ => none

/-- An entry after the reply `d` to `lease` landed. -/
def Entry.land (e : Entry Sizer) (lease : Lease) (d : Decision) : Entry Sizer :=
  if d.allowed then
    { e with
      lastDecision := some d
      credits := fl (e.credits + lease.amount)
      windowEnd := if e.sizer.isSome ∧ e.windowEnd = none then some d.resetAt else e.windowEnd
      leasedAt := lease.now }
  else { e with lastDecision := some d }

/-- The `.then` callback of lease `l`. -/
def deliver (cfg : Config Sizer) (s : Node Sizer) (l : ℕ) (now : ℚ) : Option (Node Sizer) :=
  (s.leases[l]?).bind fun lease =>
    match lease.stage with
    | .replied d =>
      let s := (s.tick now).setLease l { lease with stage := .delivered d }
      match s.entries.lookup lease.key with
      | some e =>
        -- a refill that lands after its window is dropped; an on-demand lease has no such test
        if lease.refill ∧ cfg.windowCoupled ∧ d.resetAt ≤ now then some s
        else some (s.setEntry lease.key (e.land lease d))
      | none => some s
    | _ => none

/-- An entry after the `.finally` callback of lease `l`. -/
def Entry.clean (e : Entry Sizer) (l : ℕ) (refill : Bool) : Entry Sizer :=
  if refill then { e with refilling := false }
  else { e with pending := if e.pending = some l then none else e.pending }

/-- The `.finally` callback of lease `l`. -/
def clean (s : Node Sizer) (l : ℕ) : Option (Node Sizer) :=
  (s.leases[l]?).bind fun lease =>
    if lease.stage.settled ∧ !lease.cleaned then
      let s := s.setLease l { lease with cleaned := true }
      match s.entries.lookup lease.key with
      | some e => some (s.setEntry lease.key (e.clean l lease.refill))
      | none => some s
    else none

/-- The idle timer: forget the keys unused for longer than `returnIdleAfterMs`. -/
def reclaim (cfg : Config Sizer) (s : Node Sizer) (now : ℚ) : Option (Node Sizer) :=
  match cfg.returnIdleAfterMs with
  | some idle =>
    if 0 < idle then some ((s.tick now).retain fun _ e => ¬ idle < fl (now - e.lastUse)) else none
  | none => none

/-! ## The node against the store -/

/-- The store of the distributed tier. -/
abbrev L2 : Type := Store FixedWindow.State

/-- What can happen at one node. -/
inductive Act
  | check (call : ℕ) (rawKey : String) (cost now leaseNow : ℚ)
  | resume (call : ℕ) (now leaseNow : ℚ)
  /-- The store applies a lease request. -/
  | serve (lease : ℕ)
  /-- A lease request or its reply is lost. -/
  | lose (lease : ℕ)
  | deliver (lease : ℕ) (now : ℚ)
  | clean (lease : ℕ)
  | reclaim (now : ℚ)
  | reset (rawKey : String)
  /-- The store serves a reset. -/
  | serveReset (reset : ℕ)
  /-- The TTL of a key's state runs out at the store. -/
  | expire (key : String)

/-- The store applies the request of lease `l`. -/
def serve (win : FixedWindow.Config) (l2 : L2) (s : Node Sizer) (l : ℕ) :
    Option (L2 × Node Sizer × List Event) :=
  (s.leases[l]?).bind fun lease =>
    if lease.stage = .requested then
      let r := FixedWindow.applyCheck win l2 lease.key lease.now lease.amount
      some (r.1, s.setLease l { lease with stage := .replied r.2 },
        if r.2.allowed then [.charged lease.key lease.now lease.amount] else [])
    else none

/-- The request of lease `l`, or the reply to it, is lost. -/
def lose (s : Node Sizer) (l : ℕ) : Option (Node Sizer) :=
  (s.leases[l]?).bind fun lease =>
    match lease.stage with
    | .requested | .replied _ => some (s.setLease l { lease with stage := .failed })
    | _ => none

/-- One action of a node. A call number names one call. -/
def step (win : FixedWindow.Config) (cfg : Config Sizer) (l2 : L2) (s : Node Sizer) :
    Act → Option (L2 × Node Sizer × List Event)
  | .check id rawKey cost now leaseNow =>
    if (s.calls id).isSome then none
    else some (l2, check win cfg s id rawKey cost now leaseNow)
  | .resume id now leaseNow => (resume win cfg s id now leaseNow).map fun r => (l2, r)
  | .serve l => serve win l2 s l
  | .lose l => (lose s l).map fun s' => (l2, s', [])
  | .deliver l now => (deliver cfg s l now).map fun s' => (l2, s', [])
  | .clean l => (clean s l).map fun s' => (l2, s', [])
  | .reclaim now => (reclaim cfg s now).map fun s' => (l2, s', [])
  | .reset rawKey =>
    let key := prefixer cfg.keyPrefix rawKey
    some (l2, { s.retain fun k _ => k ≠ key with resets := s.resets ++ [key] }, [])
  | .serveReset i => (s.resets[i]?).map fun key =>
    (l2.reset key, { s with resets := s.resets.eraseIdx i }, [])
  | .expire key => some (l2.expire key, s, [])

/-- Nodes `ι` around one store. -/
def fleet {ι : Type} [DecidableEq ι] (win : FixedWindow.Config) (cfg : ι → Config Sizer) :
    Machine (Parties ι L2 (Node Sizer)) (ι × Act) (ι × Event) :=
  Parties.machine fun i => step win (cfg i)

/-- All nodes as constructed, around an empty store. -/
def start (ι : Type) : Parties ι L2 (Node Sizer) := ⟨.empty, fun _ => .new⟩

end ThrottleKit.Leased
