import ThrottleKit.Core.Types
import ThrottleKit.Lib.JsonValue
import ThrottleKit.Lib.Lockstep
import ThrottleKit.Lib.OrderedMap

/-!
# The capture recorder

Decisions are kept in rings, one for a tenant and a policy, and handed out as segments. A ring that
is full counts what it drops. A tenant beyond the cap evicts the one that came first, with all of
its rings, and a fault within `record` is swallowed.

## Main definitions

* `redact` — redaction with the guard against collisions
* `record`, `register`, `segments`, `drain`, `recorder` — the recorder
* `projectToReplayTrace` — the trace of a segment

## What is left out

A recorder that is disabled. Of a policy's spec, all but the prefix is one value.
-/

namespace ThrottleKit.Capture

/-! ### Redaction -/

/-- How a key is redacted. -/
inductive RedactionMode
  | hmac
  | perTraceSalt
  | drop
deriving DecidableEq

/-- The digests: `hashKey` with the secret or the salt, and what `createHash` makes. -/
structure Digests where
  hashKey : String → String
  sha256 : String → String
  sha1 : String → String

/-- `DROP_PLACEHOLDER`. -/
def dropPlaceholder : String := "__redacted__"

/-- `COLLISION_GUARD_MAX`. -/
def collisionGuardMax : ℕ := 50000

/-- `derive(raw)`. -/
def deriveRef (dg : Digests) (mode : RedactionMode) (raw : String) : String :=
  if mode = .drop then dropPlaceholder else dg.hashKey raw

/-- The witnesses of the collision guard, by ref. -/
abbrev Guard : Type := OrderedMap String String

/-- `redact(raw)`, with the guard it leaves; `none` where it throws. -/
def redact (dg : Digests) (mode : RedactionMode) (seen : Guard) (raw : String) :
    Option (Guard × String) :=
  let ref := deriveRef dg mode raw
  if mode = .drop then some (seen, ref)
  else
    match seen.lookup ref with
    | some prev => if prev ≠ dg.sha256 raw then none else some (seen, ref)
    | none =>
      if seen.size < collisionGuardMax then some (seen.set ref (dg.sha256 raw), ref)
      else some (seen, ref)

theorem redact_ref {dg : Digests} {mode : RedactionMode} {seen seen' : Guard} {raw ref : String}
    (h : redact dg mode seen raw = some (seen', ref)) : ref = deriveRef dg mode raw := by
  unfold redact at h
  dsimp only at h
  split at h
  · exact (congrArg Prod.snd (Option.some.inj h)).symm
  split at h
  · split at h
    · cases h
    · exact (congrArg Prod.snd (Option.some.inj h)).symm
  · split at h
    · exact (congrArg Prod.snd (Option.some.inj h)).symm
    · exact (congrArg Prod.snd (Option.some.inj h)).symm

/-! ### What is recorded -/

/-- Which kind of policy produced a segment. -/
inductive PolicyKind
  | rate
  | twoTier
  | admitter
  | meter
  | fairEscrow
deriving DecidableEq

/-- The clock that decisions were made over. -/
inductive CaptureClock
  | manual
  | system
  | server
deriving DecidableEq

/-- A spec, with its `prefix` apart from its other fields. -/
structure CaptureSpec where
  keyPrefix : Option String
  fields : JsonValue

/-- The identity of a strategy. -/
structure StrategyIdentity where
  name : String
  limit : ℚ
  windowMs : Option ℚ
  ttlMs : ℚ

/-- What is registered of a policy. -/
structure CapturePolicyMeta where
  policyKind : PolicyKind
  spec : Option CaptureSpec
  strategy : Option StrategyIdentity
  luaScript : Option String

/-- What is kept of it. The digest of the script may be `null`. -/
structure StoredMeta where
  policyKind : PolicyKind
  spec : Option CaptureSpec
  strategy : Option StrategyIdentity
  luaSha1 : Option (Option String)

/-- A recorded decision. -/
structure CaptureEvent where
  keyRef : String
  cost : ℚ
  /-- `at`. -/
  instant : ℚ
  decision : Decision
deriving DecidableEq

/-- The events of a tenant and a policy. -/
structure Ring where
  scope : String
  policy : String
  createdAt : ℚ
  events : List CaptureEvent
  dropped : ℕ

/-- A segment. -/
structure CaptureSegment where
  policy : String
  policyKind : PolicyKind
  scope : String
  createdAt : ℚ
  redactionMode : RedactionMode
  clock : CaptureClock
  count : ℕ
  dropped : ℕ
  spec : Option CaptureSpec
  strategy : Option StrategyIdentity
  luaSha1 : Option (Option String)
  events : List CaptureEvent

/-- The configuration of a recorder. -/
structure CaptureConfig where
  mode : RedactionMode
  ringSize : ℕ
  maxScopes : ℕ
  /-- There is no `tenantOf`. -/
  countsOnly : Bool
  clockSource : CaptureClock

/-- What `tenantOf(policy, key)` does. -/
inductive Tenant
  | throws
  | undefined
  | of (rawScope : String)

/-- A decision that is recorded, with what `tenantOf` and the clock say of it. -/
structure RecordInput where
  policy : String
  key : String
  cost : ℚ
  decision : Decision
  /-- `at`. -/
  instant : Option ℚ
  tenant : Tenant
  /-- `clock.now()`, which may throw. -/
  now : Option ℚ

/-- `input.at ?? clock.now()`. -/
def RecordInput.at? (input : RecordInput) : Option ℚ := input.instant.orElse fun _ => input.now

/-! ### The recorder -/

/-- The rings, by tenant and policy. -/
abbrev Scopes : Type := OrderedMap String (OrderedMap String Ring)

/-- What a recorder keeps. -/
structure State where
  metas : OrderedMap String StoredMeta
  /-- `allowed` and `denied` of every policy. -/
  tallies : OrderedMap String (ℕ × ℕ)
  scopes : Scopes
  seen : Guard

/-- `tally(policy, allowed)`. -/
def tally (tallies : OrderedMap String (ℕ × ℕ)) (policy : String) (allowed : Bool) :
    OrderedMap String (ℕ × ℕ) :=
  let t := (tallies.lookup policy).getD (0, 0)
  tallies.set policy (if allowed then (t.1 + 1, t.2) else (t.1, t.2 + 1))

/-- Room for a new tenant: at the cap, the one that came first is evicted. -/
def evictOldest (maxScopes : ℕ) (scopes : Scopes) : Scopes :=
  if maxScopes ≤ scopes.size then
    match scopes.oldest? with
    | some oldest => scopes.erase oldest
    | none => scopes
  else scopes

/-- The end of `record`: an event goes into a ring, or is counted. -/
def Ring.push (ringSize : ℕ) (ring : Ring) (e : CaptureEvent) : Ring :=
  if ringSize ≤ ring.events.length then { ring with dropped := ring.dropped + 1 }
  else { ring with events := ring.events ++ [e] }

/-- `record`, once the tenant and the key are redacted. -/
def place (cfg : CaptureConfig) (scopes : Scopes) (scope policy : String) (e : CaptureEvent) :
    Scopes :=
  let scopes := match scopes.lookup scope with
    | some _ => scopes
    | none => (evictOldest cfg.maxScopes scopes).set scope .empty
  let policyMap := (scopes.lookup scope).getD .empty
  let ring := (policyMap.lookup policy).getD ⟨scope, policy, e.instant, [], 0⟩
  scopes.set scope (policyMap.set policy (ring.push cfg.ringSize e))

/-- `record(input)`. A fault ends it, with what was done before. -/
def record (dg : Digests) (cfg : CaptureConfig) (s : State) (input : RecordInput) : State :=
  let s := { s with tallies := tally s.tallies input.policy input.decision.allowed }
  if cfg.countsOnly then s
  else
    match input.tenant with
    | .throws => s
    | .undefined => s
    | .of rawScope =>
      match redact dg cfg.mode s.seen rawScope with
      | none => s
      | some (seen, scope) =>
        match redact dg cfg.mode seen input.key with
        | none => { s with seen := seen }
        | some (seen, keyRef) =>
          match input.at? with
          | none => { s with seen := seen }
          | some instant =>
            { s with
              seen := seen
              scopes := place cfg s.scopes scope input.policy
                ⟨keyRef, input.cost, instant, input.decision⟩ }

/-- `register(policy, meta)`; `none` where the redaction of the prefix throws. -/
def register (dg : Digests) (cfg : CaptureConfig) (s : State) (policy : String)
    (info : CapturePolicyMeta) : Option State := do
  let luaSha1 := match info.luaScript, info.strategy with
    | some script, _ => some (some (dg.sha1 script))
    | none, some _ => some none
    | none, none => none
  match info.spec.bind CaptureSpec.keyPrefix with
  | none =>
    return { s with
      metas := s.metas.set policy ⟨info.policyKind, info.spec, info.strategy, luaSha1⟩ }
  | some raw =>
    let (seen, ref) ← redact dg cfg.mode s.seen raw
    return { s with
      seen := seen
      metas := s.metas.set policy ⟨info.policyKind,
        info.spec.map fun spec => { spec with keyPrefix := some ref }, info.strategy, luaSha1⟩ }

/-- `buildSegment(ring, meta, redactionMode, clock)`. -/
def buildSegment (cfg : CaptureConfig) (info : Option StoredMeta) (ring : Ring) :
    CaptureSegment where
  policy := ring.policy
  policyKind := (info.map StoredMeta.policyKind).getD .rate
  scope := ring.scope
  createdAt := ring.createdAt
  redactionMode := cfg.mode
  clock := cfg.clockSource
  count := ring.events.length
  dropped := ring.dropped
  spec := info.bind StoredMeta.spec
  strategy := info.bind StoredMeta.strategy
  luaSha1 := info.bind StoredMeta.luaSha1
  events := ring.events

/-- `segments()`. -/
def segments (cfg : CaptureConfig) (s : State) : List CaptureSegment :=
  s.scopes.entries.flatMap fun e =>
    e.2.entries.map fun r => buildSegment cfg (s.metas.lookup r.2.policy) r.2

/-- `drain()`. -/
def drain (cfg : CaptureConfig) (s : State) : State × List CaptureSegment :=
  ({ s with scopes := .empty }, segments cfg s)

/-- A call of the recorder. -/
inductive Call
  | register (policy : String) (info : CapturePolicyMeta)
  | record (input : RecordInput)
  | segments
  | counts
  | drain

/-- What a call returns. -/
inductive Answer
  | done
  | throws
  | counts (tallies : List (String × ℕ × ℕ))
  | segments (segs : List CaptureSegment)

/-- A recorder. -/
def recorder (dg : Digests) (cfg : CaptureConfig) : Lockstep.Service State Call Answer
  | s, .register policy info =>
    match register dg cfg s policy info with
    | some s => (s, .done)
    | none => (s, .throws)
  | s, .record input => (record dg cfg s input, .done)
  | s, .segments => (s, .segments (segments cfg s))
  | s, .counts => (s, .counts s.tallies.entries)
  | s, .drain => ((drain cfg s).1, .segments (drain cfg s).2)

/-- A new recorder. -/
def start : State := ⟨.empty, .empty, .empty, .empty⟩

/-! ### Projected traces -/

/-- The fingerprint of a projected trace. -/
structure CaptureFingerprint where
  spec : CaptureSpec
  strategy : StrategyIdentity
  clock : CaptureClock
  luaSha1 : Option String
  /-- `prefix`. -/
  keyPrefix : Option String

/-- A projected trace. -/
structure ReplayTraceJson where
  fingerprint : CaptureFingerprint
  redacted : Bool
  truncated : Bool
  dropped : ℕ
  /-- Its steps, with the refs for their keys. -/
  steps : List CaptureEvent

/-- `projectToReplayTrace(segment)`. -/
def projectToReplayTrace (g : CaptureSegment) : Option ReplayTraceJson :=
  if g.policyKind ≠ .rate then none
  else
    match g.spec, g.strategy with
    | some spec, some strategy =>
      some ⟨⟨spec, strategy, g.clock, g.luaSha1.getD none, spec.keyPrefix⟩, true,
        decide (0 < g.dropped), g.dropped, g.events⟩
    | _, _ => none

end ThrottleKit.Capture
