import ThrottleKit.Admission.Unified
import ThrottleKit.Lib.OrderedMap

/-!
# The lease table of the server

The service hands out the slots of its guards. An admission that is granted is kept in a table under
a random id, with a deadline; a release by the id or a sweep of what is past its deadline gives the
slot back and takes the entry away, and a heartbeat puts the deadline off.

An entry is made for whatever an admitter allows. An admitter without a concurrency axis allows
requests as well, holds no slot for them and still gets entries, although a lease id is documented
to be empty where no slot is held.

## The asynchronous code as steps

`admit` is taken apart at its awaits, those of the admitter it asks and its own one behind them. Any
number of admissions are under way at once. What the limiters of an admitter answer is open, and so
are the random ids. Admitters may share a guard.

## Main definitions

* `Admitter`, `Config`, `Call`, `Entry`, `State` — the data
* `Act`, `Event`, `step` — the code in any interleaving
-/

namespace ThrottleKit.LeaseTable

open ThrottleKit.Adaptive ThrottleKit.JointLp ThrottleKit.Admission ThrottleKit.Unified

variable {γ : Type}

/-- An admitter. -/
structure Admitter (γ : Type) where
  /-- The axes but for the guard. -/
  axes : Unified.Config
  /-- The guard, if there is a concurrency axis. -/
  concurrency : Option γ

/-- The options of the service. -/
structure Config (γ : Type) where
  guards : γ → Adaptive.Config
  /-- `admitters.get(policy)`. -/
  admitters : String → Option (Admitter γ)
  /-- The names of all policies, in the order of registration. -/
  order : List String
  leaseTtlMs : ℚ

/-- An admission the service has asked for. -/
structure Call (γ : Type) where
  admitter : Admitter γ
  admission : Unified.Admission
  /-- Whether the code behind the `await` of the admitter has run. -/
  answered : Bool

/-- An entry of the table. -/
structure Entry where
  /-- The admission whose `release` it keeps. -/
  call : ℕ
  expiresAt : ℚ
deriving DecidableEq

/-- The state of the service. -/
structure State (γ : Type) where
  guards : γ → Guard
  /-- The warm-up of each admitter's joint policy. -/
  warmup : String → Option AdaptiveState
  calls : List (Call γ)
  leases : OrderedMap String Entry
  /-- Ghost: what the clock of the service last read. -/
  clock : ℚ

/-- A service as constructed. -/
def State.new (cfg : Config γ) (now : ℚ) : State γ where
  guards g := .new (cfg.guards g) now
  warmup policy := (cfg.admitters policy).bind (·.axes.adaptive)
  calls := []
  leases := .empty
  clock := now

/-- The options of an `admit`. -/
structure AdmitOptions where
  cost : Option ℚ
  hold : Option ℚ
  value : Option ℚ

/-- What an `admit` returns. -/
structure AdmitResult where
  decision : Decision
  leaseId : String
  leaseExpiresAt : ℚ
  bindingAxis : String
  policyDenied : Bool
deriving DecidableEq

/-- What a `heartbeat` returns. -/
structure HeartbeatResult where
  liveIds : List String
  reclaimedIds : List String
  nextDeadline : ℚ
deriving DecidableEq

/-- What the service throws. -/
inductive ServiceError
  | operationNotSupported (op policy : String)
  | policyNotFound (policy : String) (known : List String)
deriving DecidableEq

/-- What can happen. Clock readings are part of the action. -/
inductive Act
  /-- `admit(policy, key, opts)`, up to its first await. -/
  | admitCall (policy key : String) (opts : AdmitOptions) (acquireAt shimAt releaseAt : ℚ)
  /-- The rate limiter answers admission `i`, or throws. -/
  | rateSettles (i : ℕ) (answer : Except String Decision) (now : ℚ)
  | costSettles (i : ℕ) (answer : Except String Decision) (now : ℚ)
  | fusedSettles (i : ℕ) (answer : Except String (AxisReply × AxisReply)) (now : ℚ)
  /-- `admit` goes on behind its await of admission `i`; `draws` are the random ids. -/
  | resume (i : ℕ) (draws : List String) (now : ℚ)
  | release (leaseId : String) (dropped : Bool) (now : ℚ)
  | heartbeat (leaseIds : List String) (now : ℚ)
  /-- `sweep()`, the guards reading their clocks at `releaseAt`. -/
  | sweep (now : ℚ) (releaseAt : String → ℚ)

/-- What a step makes visible. -/
inductive Event
  | failed (err : ServiceError)
  | threw (i : ℕ) (err : String)
  | admitted (i : ℕ) (result : AdmitResult)
  | beat (result : HeartbeatResult)
  /-- Admission `i` takes a slot of its guard. -/
  | granted (i : ℕ)
  /-- The slot of admission `i` goes back to its guard. -/
  | gaveBack (i : ℕ)
  | minted (leaseId : String) (now : ℚ)
  | renewed (leaseId : String) (now : ℚ)
  | swept (leaseId : String) (now : ℚ)
deriving DecidableEq

/-! ### The code -/

/-- `resolveAdmitter(policy)`. -/
def resolveAdmitter (cfg : Config γ) (policy : String) : Except ServiceError (Admitter γ) :=
  match cfg.admitters policy with
  | some admitter => .ok admitter
  | none =>
    if policy ∈ cfg.order then .error (.operationNotSupported "admit" policy)
    else .error (.policyNotFound policy cfg.order)

/-- `a.bindingAxis ?? ""`. -/
def bindingAxis : Option UnifiedAxis → String
  | some .rate => "rate"
  | some .concurrency => "concurrency"
  | some .cost => "cost"
  | none => ""

/-- The axes of an admitter with its guard. -/
def Admitter.withGuard (cfg : Config γ) (admitter : Admitter γ) (g : γ) : Unified.Config :=
  { admitter.axes with guard := cfg.guards g }

/-- `admit(opts)` of an admitter without a concurrency axis, up to its first await. -/
def beginUnguarded (axes : Unified.Config) (warmup : Option AdaptiveState)
    (opts : Unified.AdmitOptions) : Option AdaptiveState × Unified.Admission :=
  let snap : AxisSnap := ⟨none, none, none⟩
  let policy := gate axes.solve axes.duals warmup opts.value opts.cost opts.hold
  if policy.2 = false then
    (policy.1, ⟨opts, .returned ⟨denyByPolicy (combineSnapshot snap), .noop, none, true⟩, snap,
      none, 0⟩)
  else (policy.1, toAxes axes ⟨opts, .awaitsRate, snap, none, 0⟩)

/-- The events of a slot as its admission goes from `a` to `a'`: a guard settles a lease just where
the lease becomes released. -/
def slotEvents (i : ℕ) (a a' : Unified.Admission) : List Event :=
  if a.holds = true ∧ a'.holds = false then [.gaveBack i] else []

/-- The events of a slot as its admission begins. -/
def beginEvents (i : ℕ) (a : Unified.Admission) : List Event :=
  if a.lease.isSome then .granted i :: if a.holds then [] else [.gaveBack i] else []

/-- What is seen of an admission that has failed. -/
def seenThrow (i : ℕ) (a : Unified.Admission) : List Event :=
  match a.stage with
  | .threw err => [.threw i err]
  | _ => []

section Guards

variable [DecidableEq γ]

/-- The first part of `admit` on the admitter of `policy`. -/
def admitBegin (cfg : Config γ) (s : State γ) (policy : String) (admitter : Admitter γ)
    (opts : Unified.AdmitOptions) (acquireAt shimAt releaseAt : ℚ) :
    (γ → Guard) × Option AdaptiveState × Unified.Admission :=
  match admitter.concurrency with
  | some g =>
    let out := Unified.begin (admitter.withGuard cfg g)
      ⟨s.guards g, s.warmup policy, [], ⟨none, none, none⟩⟩ opts acquireAt shimAt releaseAt
    (Function.update s.guards g out.1, out.2)
  | none => (s.guards, beginUnguarded admitter.axes (s.warmup policy) opts)

/-- Code of an admission runs against the guard of its admitter. Without one there is no lease, and
the code reads no guard. -/
def onGuard (cfg : Config γ) (guards : γ → Guard) (admitter : Admitter γ)
    (code : Unified.Config → Guard → Guard × Unified.Admission) :
    (γ → Guard) × Unified.Admission :=
  match admitter.concurrency with
  | some g =>
    let out := code (admitter.withGuard cfg g) (guards g)
    (Function.update guards g out.1, out.2)
  | none => (guards, (code admitter.axes (.new admitter.axes.guard 0)).2)

/-- Admission `i` goes on. -/
def advance (cfg : Config γ) (s : State γ) (i : ℕ) (c : Call γ) (answered : Bool)
    (code : Unified.Config → Guard → Guard × Unified.Admission) : State γ × List Event :=
  let out := onGuard cfg s.guards c.admitter code
  ({ s with guards := out.1, calls := s.calls.set i ⟨c.admitter, out.2, answered⟩ },
    slotEvents i c.admission out.2 ++ if answered then [] else seenThrow i out.2)

/-- `a.release({ dropped })` of admission `i`. -/
def releaseCall (cfg : Config γ) (s : State γ) (i : ℕ) (c : Call γ) (result : UnifiedAdmission)
    (dropped : Bool) (now : ℚ) : State γ × List Event :=
  advance cfg s i c true fun axes g => onRelease axes g c.admission result dropped now

/-- The slot of an entry is given back, and the entry goes. -/
def releaseEntry (cfg : Config γ) (s : State γ) (leaseId : String) (e : Entry) (dropped : Bool)
    (now : ℚ) : State γ × List Event :=
  let out := match s.calls[e.call]? with
    | some c =>
      match c.admission.stage with
      | .returned result => releaseCall cfg s e.call c result dropped now
      | _ => (s, [])
    | none => (s, [])
  ({ out.1 with leases := out.1.leases.erase leaseId }, out.2)

/-- The code of `admit` behind its await, once admission `i` has returned. -/
def onReturned (cfg : Config γ) (s : State γ) (i : ℕ) (c : Call γ) (result : UnifiedAdmission)
    (draws : List String) (now : ℚ) : Option (State γ × List Event) :=
  if result.decision.allowed then
    (draws.find? fun leaseId => leaseId ∉ s.leases.keys).map fun leaseId =>
      let leaseExpiresAt := now + cfg.leaseTtlMs
      ({ s with
          calls := s.calls.set i { c with answered := true }
          leases := s.leases.set leaseId ⟨i, leaseExpiresAt⟩ },
        [.minted leaseId now, .admitted i ⟨result.decision, leaseId, leaseExpiresAt,
          bindingAxis result.bindingAxis, result.policyDenied⟩])
  else
    let out := releaseCall cfg s i c result false now
    some (out.1, out.2 ++ [.admitted i ⟨result.decision, "", 0, bindingAxis result.bindingAxis,
      result.policyDenied⟩])

/-- The loop of `heartbeat`: the table it leaves, the live ids and the reclaimed ones. -/
def renewAll (deadline : ℚ) : List String → OrderedMap String Entry →
    OrderedMap String Entry × List String × List String
  | [], leases => (leases, [], [])
  | id :: ids, leases =>
    match leases.lookup id with
    | some e =>
      let out := renewAll deadline ids (leases.set id { e with expiresAt := deadline })
      (out.1, id :: out.2.1, out.2.2)
    | none =>
      let out := renewAll deadline ids leases
      (out.1, out.2.1, id :: out.2.2)

/-- The loop of `sweep` over the entries of the table. -/
def sweepAll (cfg : Config γ) (now : ℚ) (releaseAt : String → ℚ) :
    List (String × Entry) → State γ → State γ × List Event
  | [], s => (s, [])
  | (leaseId, e) :: rest, s =>
    if e.expiresAt ≤ now then
      let out := releaseEntry cfg s leaseId e true (releaseAt leaseId)
      let next := sweepAll cfg now releaseAt rest out.1
      (next.1, out.2 ++ .swept leaseId now :: next.2)
    else sweepAll cfg now releaseAt rest s

/-- One step. -/
def step (cfg : Config γ) : Machine (State γ) Act Event
  | s, .admitCall policy key opts acquireAt shimAt releaseAt =>
    match resolveAdmitter cfg policy with
    | .error err => some (s, [.failed err])
    | .ok admitter =>
      let out := admitBegin cfg s policy admitter
        ⟨key, opts.cost.getD 1, opts.value.getD 1, opts.hold.getD 0⟩ acquireAt shimAt releaseAt
      some ({ s with
          guards := out.1
          warmup := Function.update s.warmup policy out.2.1
          calls := s.calls ++ [⟨admitter, out.2.2, false⟩] },
        beginEvents s.calls.length out.2.2)
  | s, .rateSettles i answer now =>
    s.calls[i]?.bind fun c =>
      match c.admission.stage with
      | .awaitsRate =>
        some (advance cfg s i c false fun axes g => onRate axes g c.admission answer now)
      | _ => none
  | s, .costSettles i answer now =>
    s.calls[i]?.bind fun c =>
      match c.admission.stage with
      | .awaitsCost =>
        some (advance cfg s i c false fun axes g => onCost axes g c.admission answer now)
      | _ => none
  | s, .fusedSettles i answer now =>
    s.calls[i]?.bind fun c =>
      match c.admission.stage, c.admitter.axes.fused with
      | .awaitsFused, some fused =>
        some (advance cfg s i c false fun axes g => onFused axes fused g c.admission answer now)
      | _, _ => none
  | s, .resume i draws now =>
    s.calls[i]?.bind fun c =>
      match c.answered, c.admission.stage with
      | false, .returned result => onReturned cfg { s with clock := now } i c result draws now
      | _, _ => none
  | s, .release leaseId dropped now =>
    match s.leases.lookup leaseId with
    | some e => some (releaseEntry cfg s leaseId e dropped now)
    | none => some (s, [])
  | s, .heartbeat leaseIds now =>
    let deadline := now + cfg.leaseTtlMs
    let out := renewAll deadline leaseIds s.leases
    some ({ s with leases := out.1, clock := now },
      out.2.1.map (Event.renewed · now) ++ [.beat ⟨out.2.1, out.2.2, deadline⟩])
  | s, .sweep now releaseAt =>
    some (sweepAll cfg now releaseAt s.leases.entries { s with clock := now })

end Guards

end ThrottleKit.LeaseTable
