import Mathlib.Logic.Function.Basic
import ThrottleKit.Federation.RegionalEscrow
import ThrottleKit.Lib.Machine

/-!
# The window-coupled federation engine

The engine behind `federate`: a process of a region serves checks out of an in-process escrow (L1)
that it leases from the global coordinator, through the regional escrow (L2) when one is
configured, and lets the escrow die at the window boundary.

## The asynchronous code as steps

A `check` runs without interruption up to its next `await`. One action of the machine is one such
stretch of code: the call itself up to its first `await`, or the code after an `await` up to the
next one or the return. Between two actions anything may happen, so a run over all action sequences
covers every delay of a reply and every order in which waiting calls resume. The lease promise that
several calls may wait on is an entry of `leases`; a call waits on it by its index.

A request to the regional escrow is served by one action and its reply is picked up by another, so
both legs may be delayed. A coordinator request is answered by the action in which its reply lands.

Two ghosts, read by no branch of the code: `Lease.claimant`, the call that issued the lease until
that call has resumed, and the `source` of escrowed tokens, the window their balance belonged to.

## Main definitions

* `Config`, `Entry`, `Call`, `Lease`, `Engine` — the engine's data
* `advance`, `leaseTurn`, `loopTurn`, `check`, `resume` — the code of a check
* `Act`, `Event`, `step` — one action of a process against the regional escrow
-/

namespace ThrottleKit.WindowCoupled

open AlignedWindow RegionalEscrow

/-- The options of `createFederationEngine`, validated. -/
structure Config where
  /-- `strategy.limit`. -/
  limit : ℚ
  /-- `strategy.windowMs`. -/
  windowMs : ℚ
  batch : ℚ
  /-- Whether a regional escrow is configured. -/
  regionalEscrow : Bool
  /-- Whether `onCoordinatorOutage` is `"regional-only"`. -/
  regionalOnly : Bool
  /-- Whether the coordinator exposes `isHealthy`. -/
  probes : Bool
  healthCheckMs : ℚ
  /-- The key namespace. -/
  keyPrefix : Option String
  windowMs_pos : 0 < windowMs
  one_le_batch : 1 ≤ batch
  one_le_healthCheckMs : 1 ≤ healthCheckMs

/-- `regional-only` outage mode means something only with an L2 to serve from. -/
def Config.regionalOnlyActive (cfg : Config) : Bool := cfg.regionalOnly && cfg.regionalEscrow

/-- Per-key in-process state. -/
structure Entry where
  /-- Escrow units this process holds in the current window. -/
  balance : ℚ
  /-- Start of the window `balance` belongs to. -/
  windowStart : ℚ
  windowExpiresAt : ℚ
  /-- The in-flight coordinator lease, by its index. -/
  pending : Option ℕ
  /-- The window the in-flight lease was issued against. -/
  pendingWindowStart : ℚ
  lastReconciledWindowStart : ℚ

/-- Where a suspended `check` waits. -/
inductive Await
  /-- `await maybeProbeHealth(now)`, on a probe or on nothing. -/
  | probe (probe : Option ℕ)
  /-- `await regionalEscrow.lease(key, wanted)`, not yet served. -/
  | escrow (wanted : ℚ)
  /-- The same, served with tokens of the window `source` (or thrown, served with none). -/
  | escrowReply (granted source : ℚ)
  /-- `await lease`, with the window captured before the `await`. -/
  | lease (lease : ℕ) (leaseWindowStart : ℚ)
deriving DecidableEq

/-- A suspended `check`: its prefixed key, cost and clock reading. -/
structure Call where
  key : String
  cost : ℚ
  now : ℚ
  waiting : Await

/-- How far the body of a lease promise has run. -/
inductive LeaseStage
  /-- `await coordinator.lease(key, tokens, expiresAt)`. -/
  | leasing
  /-- `await regionalEscrow.refill(key, granted, windowStart)`. -/
  | refilling (granted : ℚ)
  /-- `await regionalEscrow.lease(key, tokens)`. -/
  | leasingBack (granted : ℚ)
  /-- Resolved with tokens of the window `source`. -/
  | settled (grant source : ℚ)
deriving DecidableEq

/-- A lease promise and what its body captured. -/
structure Lease where
  key : String
  tokens : ℚ
  windowStart : ℚ
  expiresAt : ℚ
  /-- The clock reading of the check that issued it. -/
  now : ℚ
  stage : LeaseStage
  /-- Ghost: the call that issued the lease, until it has resumed. -/
  claimant : Option ℕ

/-- A `release` of the regional escrow that a roll has set off. -/
structure Release where
  key : String
  leftover : ℚ
  windowStart : ℚ

/-- The state of one process. -/
structure Engine where
  entries : String → Option Entry
  coordinatorHealthy : Bool
  lastHealthProbeAt : ℚ
  healthProbePending : Option ℕ
  /-- How many probes have been issued. -/
  probes : ℕ
  leases : List Lease
  releases : List Release
  calls : ℕ → Option Call

/-- The engine as constructed. -/
def Engine.new : Engine :=
  ⟨fun _ => none, true, 0, none, 0, [], [], fun _ => none⟩

/-- What a step makes visible. -/
inductive Event
  /-- A call returned. -/
  | decided (call : ℕ) (key : String) (cost : ℚ) (decision : Decision)
  /-- A call threw. -/
  | rejected (call : ℕ) (error : CostError)
  /-- A coordinator reply with a positive grant landed. -/
  | granted (key : String) (tokens expiresAt : ℚ)
  /-- Tokens of the window `source` were added to the balance of the window `windowStart`. -/
  | credited (key : String) (tokens source windowStart : ℚ) (lease : Option ℕ)
  /-- The key's entry rolled to a new window. -/
  | rolled (key : String) (windowStart : ℚ)
  /-- The key's entry was dropped. -/
  | dropped (key : String)
  /-- `close` dropped every entry. -/
  | cleared
  /-- `coordinator.reconcile` was called, with a roll's leftover or the grant of a late lease. -/
  | reconciled (key : String) (leftover windowStart : ℚ) (lease : Option ℕ)
deriving DecidableEq

namespace Engine

/-- `entries.set(key, e)`. -/
def setEntry (s : Engine) (key : String) (e : Entry) : Engine :=
  { s with entries := Function.update s.entries key (some e) }

/-- A new lease promise; its index is the number of those before it. -/
def addLease (s : Engine) (lease : Lease) : Engine := { s with leases := s.leases ++ [lease] }

/-- The lease promise `l` has moved on. -/
def setLease (s : Engine) (l : ℕ) (lease : Lease) : Engine :=
  { s with leases := s.leases.set l lease }

/-- Call `id` is suspended. -/
def suspend (s : Engine) (id : ℕ) (c : Call) : Engine :=
  { s with calls := Function.update s.calls id (some c) }

/-- Call `id` has returned. -/
def finish (s : Engine) (id : ℕ) : Engine :=
  { s with calls := Function.update s.calls id none }

end Engine

/-- The `denied` decision. -/
def denied (cfg : Config) (now expiresAt currentBalance : ℚ) : Decision where
  allowed := false
  limit := cfg.limit
  remaining := currentBalance
  resetAt := expiresAt
  retryAfterMs := max 1 (expiresAt - now)

/-- The decision of an admission that leaves `e`. -/
def admitted (cfg : Config) (e : Entry) : Decision where
  allowed := true
  limit := cfg.limit
  remaining := e.balance
  resetAt := e.windowExpiresAt
  retryAfterMs := 0

/-- `maybeProbeHealth(now)` up to its `await`: the probe to wait on, if any. -/
def maybeProbeHealth (cfg : Config) (s : Engine) (now : ℚ) : Engine × Option ℕ :=
  if !cfg.regionalOnlyActive then (s, none)
  else if s.coordinatorHealthy then (s, none)
  else if !cfg.probes then (s, none)
  else if now - s.lastHealthProbeAt < cfg.healthCheckMs then (s, none)
  else match s.healthProbePending with
    | some p => (s, some p)
    | none =>
      ({ s with lastHealthProbeAt := now, healthProbePending := some s.probes,
                probes := s.probes + 1 }, some s.probes)

/-- `advance(key, now)`: get or create the entry of `key`, rolled to the current window. -/
def advance (cfg : Config) (s : Engine) (key : String) (now : ℚ) :
    Engine × Entry × List Event :=
  let start := alignedStart cfg.windowMs now
  let expiresAt := start + cfg.windowMs
  match s.entries key with
  | none =>
    let e : Entry := ⟨0, start, expiresAt, none, start, -1⟩
    (s.setEntry key e, e, [])
  | some e =>
    if e.windowExpiresAt ≤ now then
      let reconcile := e.lastReconciledWindowStart ≠ e.windowStart
      let e' : Entry :=
        ⟨0, start, expiresAt, none, start,
          if reconcile then e.windowStart else e.lastReconciledWindowStart⟩
      let s' := s.setEntry key e'
      if reconcile ∧ cfg.regionalEscrow then
        ({ s' with releases := s'.releases ++ [⟨key, e.balance, e.windowStart⟩] }, e',
          [.rolled key start])
      else if reconcile ∧ 0 < e.balance then
        (s', e', [.rolled key start, .reconciled key e.balance e.windowStart none])
      else (s', e', [.rolled key start])
    else (s, e, [])

/-- The coordinator part of the loop body, up to `await lease` or the `regional-only` denial. -/
def leaseTurn (cfg : Config) (s : Engine) (id : ℕ) (key : String) (cost now : ℚ) (e : Entry) :
    Engine × List Event :=
  if cfg.regionalOnlyActive && !s.coordinatorHealthy then
    (s.finish id, [.decided id key cost (denied cfg now e.windowExpiresAt e.balance)])
  else match e.pending with
    | some l => (s.suspend id ⟨key, cost, now, .lease l e.pendingWindowStart⟩, [])
    | none =>
      let lease : Lease :=
        ⟨key, max cfg.batch cost, e.windowStart, e.windowExpiresAt, now, .leasing, some id⟩
      let l := s.leases.length
      let e' := { e with pending := some l, pendingWindowStart := e.windowStart }
      (((s.addLease lease).setEntry key e').suspend id ⟨key, cost, now, .lease l e.windowStart⟩, [])

/-- `while (e.balance < cost)`: the test and the loop body up to the next `await`, or the
admission after the loop. -/
def loopTurn (cfg : Config) (s : Engine) (id : ℕ) (key : String) (cost now : ℚ) (e : Entry) :
    Engine × List Event :=
  if e.balance < cost then
    let wanted := max cfg.batch cost - e.balance
    if cfg.regionalEscrow ∧ 0 < wanted then
      (s.suspend id ⟨key, cost, now, .escrow wanted⟩, [])
    else leaseTurn cfg s id key cost now e
  else
    let e' := { e with balance := e.balance - cost }
    ((s.setEntry key e').finish id, [.decided id key cost (admitted cfg e')])

/-- A check from `advance` on. -/
def enter (cfg : Config) (s : Engine) (id : ℕ) (key : String) (cost now : ℚ) :
    Engine × List Event :=
  let r := advance cfg s key now
  let t := loopTurn cfg r.1 id key cost now r.2.1
  (t.1, r.2.2 ++ t.2)

/-- `check` on an already prefixed key. -/
def checkKey (cfg : Config) (s : Engine) (id : ℕ) (key : String) (cost now : ℚ) :
    Engine × List Event :=
  match requireCost cost with
  | .error err => (s.finish id, [.rejected id err])
  | .ok () =>
    if cfg.regionalOnlyActive && !s.coordinatorHealthy then
      let p := maybeProbeHealth cfg s now
      (p.1.suspend id ⟨key, cost, now, .probe p.2⟩, [])
    else enter cfg s id key cost now

/-- `check(rawKey, cost)` with the clock at `now`. -/
def check (cfg : Config) (s : Engine) (id : ℕ) (rawKey : String) (cost now : ℚ) :
    Engine × List Event :=
  checkKey cfg s id (prefixer cfg.keyPrefix rawKey) cost now

/-- After `await regionalEscrow.lease`. A restarted check reads the clock again, at `now`. -/
def resumeEscrow (cfg : Config) (s : Engine) (id : ℕ) (c : Call) (granted source now : ℚ) :
    Engine × List Event :=
  match s.entries c.key with
  | none => checkKey cfg s id c.key c.cost now
  | some e =>
    if 0 < granted then
      -- no window check here
      let e' := { e with balance := e.balance + granted }
      let t := loopTurn cfg (s.setEntry c.key e') id c.key c.cost c.now e'
      (t.1, .credited c.key granted source e.windowStart none :: t.2)
    else leaseTurn cfg s id c.key c.cost c.now e

/-- The issuing call of lease `l` has resumed. -/
def Lease.claimedBy (lease : Lease) (id : ℕ) : Lease :=
  { lease with claimant := if lease.claimant = some id then none else lease.claimant }

/-- `if (e.pending === lease) e.pending = undefined`. -/
def Entry.clearPending (e : Entry) (l : ℕ) : Entry :=
  { e with pending := if e.pending = some l then none else e.pending }

/-- After `await lease`. -/
def resumeLease (cfg : Config) (s : Engine) (id : ℕ) (c : Call) (l : ℕ)
    (leaseWindowStart grant source now : ℚ) : Engine × List Event :=
  match s.entries c.key with
  | none => checkKey cfg s id c.key c.cost now
  | some e₀ =>
    let e := e₀.clearPending l
    let s := s.setEntry c.key e
    if 0 < grant then
      if e.windowStart ≠ leaseWindowStart then
        let t := loopTurn cfg s id c.key c.cost c.now e
        (t.1, .reconciled c.key grant leaseWindowStart (some l) :: t.2)
      else
        -- every call that waited on the lease comes through here
        let e' := { e with balance := e.balance + grant }
        let t := loopTurn cfg (s.setEntry c.key e') id c.key c.cost c.now e'
        (t.1, .credited c.key grant source e.windowStart (some l) :: t.2)
    else (s.finish id, [.decided id c.key c.cost (denied cfg c.now e.windowExpiresAt e.balance)])

/-- The code of call `id` after the `await` it is suspended at. -/
def resume (cfg : Config) (s : Engine) (id : ℕ) (now : ℚ) : Option (Engine × List Event) :=
  (s.calls id).bind fun c =>
    match c.waiting with
    | .probe p =>
      if p.isSome ∧ s.healthProbePending = p then none
      else some (enter cfg s id c.key c.cost c.now)
    | .escrow _ => none
    | .escrowReply granted source => some (resumeEscrow cfg s id c granted source now)
    | .lease l ws =>
      (s.leases[l]?).bind fun lease =>
        match lease.stage with
        | .settled grant source =>
          some (resumeLease cfg (s.setLease l (lease.claimedBy id)) id c l ws grant source now)
        | _ => none

/-- The reply to lease `l`'s `coordinator.lease`; `none` where it rejected. -/
def coordinatorReply (cfg : Config) (s : Engine) (l : ℕ) (reply : Option ℚ) :
    Option (Engine × List Event) :=
  (s.leases[l]?).bind fun lease =>
    if lease.stage ≠ .leasing then none
    else match reply with
      | none =>
        let s := if cfg.regionalOnlyActive then
            { s with coordinatorHealthy := false, lastHealthProbeAt := lease.now } else s
        some (s.setLease l { lease with stage := .settled 0 lease.windowStart }, [])
      | some granted =>
        let s := { s with coordinatorHealthy := true }
        if granted ≤ 0 then
          some (s.setLease l { lease with stage := .settled 0 lease.windowStart }, [])
        else
          let stage : LeaseStage := if cfg.regionalEscrow then .refilling granted
            else .settled granted lease.windowStart
          some (s.setLease l { lease with stage := stage },
            [.granted lease.key granted lease.expiresAt])

/-- The health probe's `isHealthy()` resolved, or rejected (`none`). -/
def probeReply (s : Engine) (reply : Option Bool) : Option (Engine × List Event) :=
  if s.healthProbePending = none then none
  else
    let healthy := if reply = some true then true else s.coordinatorHealthy
    some ({ s with coordinatorHealthy := healthy, healthProbePending := none }, [])

/-- `reset(rawKey)`. -/
def reset (cfg : Config) (s : Engine) (rawKey : String) : Engine × List Event :=
  let key := prefixer cfg.keyPrefix rawKey
  ({ s with entries := Function.update s.entries key none }, [.dropped key])

/-- `close()`. -/
def close (s : Engine) : Engine × List Event :=
  ({ s with entries := fun _ => none }, [.cleared])

/-! ## The process against the regional escrow -/

/-- What can happen at one process. -/
inductive Act
  | check (call : ℕ) (rawKey : String) (cost now : ℚ)
  | resume (call : ℕ) (now : ℚ)
  | coordinator (lease : ℕ) (reply : Option ℚ)
  | probed (reply : Option Bool)
  /-- The regional escrow serves a call's `lease` request. -/
  | escrowLease (call : ℕ) (now : ℚ)
  /-- The regional escrow serves a lease promise's `refill`. -/
  | escrowRefill (lease : ℕ) (now : ℚ)
  /-- The regional escrow serves a lease promise's `lease`. -/
  | escrowLeaseBack (lease : ℕ) (now : ℚ)
  /-- The regional escrow serves a roll's `release`. -/
  | escrowRelease (release : ℕ)
  /-- The regional store goes down or comes back. -/
  | escrowHealth (healthy : Bool)
  | reset (rawKey : String)
  | close

/-- The regional escrow serves call `id`'s `lease`. -/
def escrowLease (l2 : Escrow) (s : Engine) (id : ℕ) (now : ℚ) :
    Option (Escrow × Engine × List Event) :=
  (s.calls id).bind fun c =>
    match c.waiting with
    | .escrow wanted =>
      match l2.lease c.key wanted now with
      | some (l2', granted) =>
        some (l2', s.suspend id { c with waiting := .escrowReply granted (l2.sourceOf c.key) }, [])
      | none => some (l2, s.suspend id { c with waiting := .escrowReply 0 0 }, [])
    | _ => none

/-- The regional escrow serves lease `l`'s `refill`; on a throw the grant stays with L1. -/
def escrowRefill (l2 : Escrow) (s : Engine) (l : ℕ) (now : ℚ) :
    Option (Escrow × Engine × List Event) :=
  (s.leases[l]?).bind fun lease =>
    match lease.stage with
    | .refilling granted =>
      match l2.refill lease.key granted lease.windowStart now with
      | some (l2', _) => some (l2', s.setLease l { lease with stage := .leasingBack granted }, [])
      | none =>
        some (l2, s.setLease l { lease with stage := .settled granted lease.windowStart }, [])
    | _ => none

/-- The regional escrow serves lease `l`'s `lease`; on a throw the grant stays with L1. -/
def escrowLeaseBack (l2 : Escrow) (s : Engine) (l : ℕ) (now : ℚ) :
    Option (Escrow × Engine × List Event) :=
  (s.leases[l]?).bind fun lease =>
    match lease.stage with
    | .leasingBack granted =>
      match l2.lease lease.key lease.tokens now with
      | some (l2', back) =>
        some (l2', s.setLease l { lease with stage := .settled back (l2.sourceOf lease.key) }, [])
      | none =>
        some (l2, s.setLease l { lease with stage := .settled granted lease.windowStart }, [])
    | _ => none

/-- The regional escrow serves a `release`; the union of both leftovers is reconciled. -/
def escrowRelease (l2 : Escrow) (s : Engine) (i : ℕ) : Option (Escrow × Engine × List Event) :=
  (s.releases[i]?).bind fun r =>
    let s' := { s with releases := s.releases.eraseIdx i }
    match l2.release r.key r.windowStart with
    | some (l2', l2Leftover) =>
      if 0 < r.leftover + l2Leftover then
        some (l2', s', [.reconciled r.key (r.leftover + l2Leftover) r.windowStart none])
      else some (l2', s', [])
    | none => some (l2, s', [])

/-- One action of a process. A call number names one call. -/
def step (cfg : Config) (l2 : Escrow) (s : Engine) :
    Act → Option (Escrow × Engine × List Event)
  | .check id rawKey cost now =>
    if (s.calls id).isSome then none else some (l2, check cfg s id rawKey cost now)
  | .resume id now => (resume cfg s id now).map fun r => (l2, r)
  | .coordinator l reply => (coordinatorReply cfg s l reply).map fun r => (l2, r)
  | .probed reply => (probeReply s reply).map fun r => (l2, r)
  | .escrowLease id now => escrowLease l2 s id now
  | .escrowRefill l now => escrowRefill l2 s l now
  | .escrowLeaseBack l now => escrowLeaseBack l2 s l now
  | .escrowRelease i => escrowRelease l2 s i
  | .escrowHealth healthy => some ({ l2 with healthy := healthy }, s, [])
  | .reset rawKey => some (l2, reset cfg s rawKey)
  | .close => some (l2, close s)

/-- Processes `ι` around one regional escrow. -/
def fleet {ι : Type} [DecidableEq ι] (cfg : ι → Config) :
    Machine (Parties ι Escrow Engine) (ι × Act) (ι × Event) :=
  Parties.machine fun i => step (cfg i)

/-- All processes as constructed. -/
def start (ι : Type) (windowMs : ℚ) : Parties ι Escrow Engine :=
  ⟨Escrow.new windowMs, fun _ => .new⟩

end ThrottleKit.WindowCoupled
