import Mathlib.Tactic.NormNum
import ThrottleKit.Concurrency.HeartbeatCore
import ThrottleKit.Lib.Machine

/-!
# The distributed concurrency guard

A guard admits requests against `min(share, limit)`, the share being what the coordinator last
granted it. It reports its limit and in-flight count in heartbeats. A self-fencing guard stops
admitting a margin before the expiry it reported in its last successful heartbeat.

## The asynchronous code as steps

`runHeartbeat` is taken apart at its `await`: `sendHeartbeat` is the code before it, `applyGrant`
the code after it, `outage` the `catch`. The coordinator processes a heartbeat in an action of its
own, so requests and replies may each be delayed and reordered, and a heartbeat may throw whether
or not the coordinator has processed it or will. Eager handoff only chooses when to send, so `send`
is always enabled.

The private limiter counts the requests in flight. Its limit follows what it measures, which is
left open: `adapt` sets it to anything.

`Coordinator.clock`, the last clock reading anywhere, is a ghost that no code reads.

## Main definitions

* `Config`, `Limiter`, `Guard` — one guard
* `acquire`, `sendHeartbeat`, `applyGrant`, `outage` — its code
* `Beat`, `Node`, `Coordinator` — the guard with its heartbeats, and the other end
* `Act`, `Event`, `step`, `fleet` — one action, and all nodes around one coordinator
-/

namespace ThrottleKit.Concurrency

variable {ι : Type} [LinearOrder ι]

/-- The options of a guard, validated. -/
structure Config where
  /-- Whether an outage closes the guard or leaves it to its own limit. -/
  failClosed : Bool
  leaseTtlMs : ℚ
  selfFence : Bool
  fenceSafetyMargin : ℚ
  /-- The limit the private limiter starts with. -/
  initialLimit : ℤ
  one_le_initialLimit : 1 ≤ initialLimit
  margin_pos : selfFence = true → 0 < fenceSafetyMargin

/-- The default options: a heartbeat every 1000, a lease of two, fenced half a period before its
end. -/
def Config.defaults (initialLimit : ℤ) (h : 1 ≤ initialLimit) : Config where
  failClosed := true
  leaseTtlMs := 2000
  selfFence := true
  fenceSafetyMargin := 500
  initialLimit := initialLimit
  one_le_initialLimit := h
  margin_pos _ := by norm_num

/-- The default options, and a limit of four. -/
def limitFour : Config := .defaults 4 (by decide)

/-- The private limiter. -/
structure Limiter where
  limit : ℤ
  inflight : ℕ
  /-- The ceiling in force while the no-load baseline is measured again. -/
  probeLimit : Option ℤ

/-- `local.acquire()`. -/
def Limiter.acquire (l : Limiter) : Limiter × Bool :=
  let ceiling := l.probeLimit.elim l.limit (min · l.limit)
  if ceiling ≤ l.inflight then (l, false) else ({ l with inflight := l.inflight + 1 }, true)

/-- The state of a guard. -/
structure Guard where
  limiter : Limiter
  share : ℤ
  lGlobal : ℤ
  nodes : ℕ
  heartbeatSeq : ℤ
  appliedSeq : ℤ
  /-- The generation of the grant being enforced. -/
  appliedGen : ℤ
  /-- The expiry reported in the last successful heartbeat; `none` before the first. -/
  leaseExpiresAt : Option ℚ
  closed : Bool

/-- A guard as constructed. -/
def Guard.new (cfg : Config) : Guard where
  limiter := ⟨cfg.initialLimit, 0, none⟩
  share := if cfg.failClosed then 0 else cfg.initialLimit
  lGlobal := 0
  nodes := 0
  heartbeatSeq := 0
  appliedSeq := 0
  appliedGen := 0
  leaseExpiresAt := none
  closed := false

/-- The guard has passed its self-fence deadline. -/
def isFenced (cfg : Config) (g : Guard) (now : ℚ) : Bool :=
  cfg.selfFence && match g.leaseExpiresAt with
    | some expiresAt => expiresAt - cfg.fenceSafetyMargin ≤ now
    | none => false

/-- What `acquire` admits up to. -/
def ceiling (cfg : Config) (g : Guard) (now : ℚ) : ℤ :=
  if isFenced cfg g now then 0 else min g.share g.limiter.limit

/-- `acquire()`, and whether it admits. -/
def acquire (cfg : Config) (g : Guard) (now : ℚ) : Guard × Bool :=
  if g.closed then (g, false)
  else if ceiling cfg g now ≤ g.limiter.inflight then (g, false)
  else
    let r := g.limiter.acquire
    ({ g with limiter := r.1 }, r.2)

/-- `runHeartbeat` before its `await`. -/
def sendHeartbeat (cfg : Config) (nodeId : ι) (g : Guard) (now : ℚ) : Guard × Report ι :=
  let mySeq := g.heartbeatSeq + 1
  ({ g with heartbeatSeq := mySeq },
    ⟨nodeId, g.limiter.limit, g.limiter.inflight, now + cfg.leaseTtlMs, some mySeq,
      some g.appliedGen⟩)

/-- `runHeartbeat` after its `await`. -/
def applyGrant (g : Guard) (report : Report ι) (grant : Grant) : Guard :=
  let g := { g with leaseExpiresAt := some report.expiresAt }
  -- a fresher heartbeat has already landed
  if report.seqNo < g.appliedSeq then g
  else
    { g with
      appliedSeq := report.seqNo
      share := grant.share
      lGlobal := grant.lGlobal
      nodes := grant.nodes
      appliedGen := grant.gen.getD g.appliedGen }

/-- `runHeartbeat` where its `await` throws. -/
def outage (cfg : Config) (g : Guard) (report : Report ι) : Guard :=
  if report.seqNo < g.appliedSeq then g
  else
    { g with
      appliedSeq := report.seqNo
      share := if cfg.failClosed then 0 else g.limiter.limit }

/-- A heartbeat that was sent. -/
structure Beat (ι : Type) where
  report : Report ι
  /-- The coordinator's reply, once it has processed the report. -/
  grant : Option Grant
  /-- Whether the guard still awaits the reply. -/
  awaited : Bool

/-- A guard with the heartbeats it has sent. -/
structure Node (ι : Type) where
  guard : Guard
  beats : List (Beat ι)
  /-- A `leave` is on its way to the coordinator. -/
  leaving : Bool

/-- The coordinator's end. -/
structure Coordinator (ι : Type) where
  records : Records ι
  /-- Ghost: the last clock reading of any party. -/
  clock : ℚ

/-- What can happen at one node. -/
inductive Act
  | acquire (now : ℚ)
  /-- A request completes. -/
  | release
  /-- The private limiter's limit moves. -/
  | adapt (limit : ℤ) (probeLimit : Option ℤ)
  | send (now : ℚ)
  /-- The coordinator processes a heartbeat. -/
  | process (beat : ℕ) (now : ℚ)
  /-- The reply to a heartbeat lands. -/
  | deliver (beat : ℕ)
  /-- A heartbeat throws. -/
  | fail (beat : ℕ)
  | close
  /-- The coordinator serves the `leave` of a closed guard. -/
  | leave

/-- What a step makes visible. -/
inductive Event
  /-- Whether an `acquire` admitted. -/
  | acquired (ok : Bool)
  | granted (grant : Grant)
deriving DecidableEq

namespace Node

def setGuard (n : Node ι) (g : Guard) : Node ι := { n with guard := g }

/-- Heartbeat `b` has moved on. -/
def setBeat (n : Node ι) (b : ℕ) (beat : Beat ι) : Node ι := { n with beats := n.beats.set b beat }

end Node

/-- `close()`. -/
def close (n : Node ι) : Node ι :=
  { n with guard := { n.guard with closed := true }, leaving := n.leaving || !n.guard.closed }

/-- The coordinator processes heartbeat `b`. -/
def process (opts : HeartbeatOptions) (coord : Coordinator ι) (n : Node ι) (b : ℕ) (now : ℚ) :
    Option (Coordinator ι × Node ι × List Event) :=
  (n.beats[b]?).bind fun beat =>
    if beat.grant.isSome then none
    else
      let r := applyHeartbeat opts coord.records beat.report now
      some (⟨r.1, now⟩, n.setBeat b { beat with grant := some r.2 }, [.granted r.2])

/-- The reply to heartbeat `b` lands. -/
def deliver (n : Node ι) (b : ℕ) : Option (Node ι) :=
  (n.beats[b]?).bind fun beat =>
    beat.grant.bind fun grant =>
      if beat.awaited then
        some ((n.setGuard (applyGrant n.guard beat.report grant)).setBeat b
          { beat with awaited := false })
      else none

/-- Heartbeat `b` throws. -/
def fail (cfg : Config) (n : Node ι) (b : ℕ) : Option (Node ι) :=
  (n.beats[b]?).bind fun beat =>
    if beat.awaited then
      some ((n.setGuard (outage cfg n.guard beat.report)).setBeat b { beat with awaited := false })
    else none

/-- One action of node `i`. -/
def step (opts : HeartbeatOptions) (cfg : Config) (i : ι) (coord : Coordinator ι) (n : Node ι) :
    Act → Option (Coordinator ι × Node ι × List Event)
  | .acquire now =>
    let r := acquire cfg n.guard now
    some ({ coord with clock := now }, n.setGuard r.1, [.acquired r.2])
  | .release =>
    let l := n.guard.limiter
    if 0 < l.inflight then
      some (coord, n.setGuard { n.guard with limiter := { l with inflight := l.inflight - 1 } }, [])
    else none
  | .adapt limit probeLimit =>
    let l := n.guard.limiter
    some (coord, n.setGuard { n.guard with
      limiter := { l with limit := limit, probeLimit := probeLimit } }, [])
  | .send now =>
    let r := sendHeartbeat cfg i n.guard now
    some ({ coord with clock := now },
      { n.setGuard r.1 with beats := n.beats ++ [⟨r.2, none, true⟩] }, [])
  | .process b now => process opts coord n b now
  | .deliver b => (deliver n b).map fun n' => (coord, n', [])
  | .fail b => (fail cfg n b).map fun n' => (coord, n', [])
  | .close => some (coord, close n, [])
  | .leave =>
    if n.leaving then
      some ({ coord with records := coord.records.erase i }, { n with leaving := false }, [])
    else none

/-- Nodes `ι` around one coordinator. -/
def fleet (opts : HeartbeatOptions) (cfg : ι → Config) :
    Machine (Parties ι (Coordinator ι) (Node ι)) (ι × Act) (ι × Event) :=
  Parties.machine fun i => step opts (cfg i) i

/-- All guards as constructed, at time `clock`, around a coordinator without records. -/
def start (cfg : ι → Config) (clock : ℚ) : Parties ι (Coordinator ι) (Node ι) :=
  ⟨⟨.empty, clock⟩, fun i => ⟨.new (cfg i), [], false⟩⟩

/-! ### What the code of a guard does to it -/

section Guard

variable {cfg : Config} {g : Guard} {now : ℚ} {report : Report ι} {grant : Grant}

/-- Where there is room, the guard is not fenced and its share is above what is in flight. -/
theorem lt_share_of_ceiling (h : (g.limiter.inflight : ℤ) < ceiling cfg g now) :
    isFenced cfg g now = false ∧ (g.limiter.inflight : ℤ) < g.share := by
  unfold ceiling at h
  split at h
  · omega
  · rename_i hfenced
    exact ⟨by simpa using hfenced, lt_of_lt_of_le h (min_le_left _ _)⟩

/-- `acquire` counts at most one more request in flight, and only below the share. -/
theorem acquire_fst (cfg : Config) (g : Guard) (now : ℚ) :
    ∃ l, (acquire cfg g now).1 = { g with limiter := l } ∧ l.limit = g.limiter.limit ∧
      (l.inflight = g.limiter.inflight ∨
        (l.inflight = g.limiter.inflight + 1 ∧ (g.limiter.inflight : ℤ) < g.share)) := by
  unfold acquire
  split
  · exact ⟨g.limiter, rfl, rfl, .inl rfl⟩
  · split
    · exact ⟨g.limiter, rfl, rfl, .inl rfl⟩
    · rename_i hroom
      refine ⟨g.limiter.acquire.1, rfl, ?_⟩
      unfold Limiter.acquire
      dsimp only
      split
      · exact ⟨rfl, .inl rfl⟩
      · exact ⟨rfl, .inr ⟨rfl, (lt_share_of_ceiling (not_le.mp hroom)).2⟩⟩

/-- A guard that admits is open and not fenced, and its share is above what is in flight. -/
theorem acquire_admits (h : (acquire cfg g now).2 = true) : g.closed = false ∧
    isFenced cfg g now = false ∧ (g.limiter.inflight : ℤ) < g.share := by
  unfold acquire at h
  split at h
  · cases h
  · rename_i hclosed
    split at h
    · cases h
    · rename_i hroom
      exact ⟨by simpa using hclosed, lt_share_of_ceiling (not_le.mp hroom)⟩

omit [LinearOrder ι] in
theorem applyGrant_of_lt (h : report.seqNo < g.appliedSeq) :
    applyGrant g report grant = { g with leaseExpiresAt := some report.expiresAt } := if_pos h

omit [LinearOrder ι] in
theorem applyGrant_of_le (h : g.appliedSeq ≤ report.seqNo) : applyGrant g report grant =
    { g with
      leaseExpiresAt := some report.expiresAt
      appliedSeq := report.seqNo
      share := grant.share
      lGlobal := grant.lGlobal
      nodes := grant.nodes
      appliedGen := grant.gen.getD g.appliedGen } := if_neg (not_lt.mpr h)

omit [LinearOrder ι] in
theorem outage_of_lt (h : report.seqNo < g.appliedSeq) : outage cfg g report = g := if_pos h

omit [LinearOrder ι] in
theorem outage_of_le (hfail : cfg.failClosed = true) (h : g.appliedSeq ≤ report.seqNo) :
    outage cfg g report = { g with appliedSeq := report.seqNo, share := 0 } := by
  rw [outage, if_neg (not_lt.mpr h), if_pos hfail]

omit [LinearOrder ι] in
theorem applyGrant_leaseExpiresAt (g : Guard) (report : Report ι) (grant : Grant) :
    (applyGrant g report grant).leaseExpiresAt = some report.expiresAt := by
  rcases lt_or_ge report.seqNo g.appliedSeq with h | h
  · rw [applyGrant_of_lt h]
  · rw [applyGrant_of_le h]

omit [LinearOrder ι] in
theorem applyGrant_closed (g : Guard) (report : Report ι) (grant : Grant) :
    (applyGrant g report grant).closed = g.closed := by
  rcases lt_or_ge report.seqNo g.appliedSeq with h | h
  · rw [applyGrant_of_lt h]
  · rw [applyGrant_of_le h]

end Guard

/-! ### What becomes of a heartbeat -/

section Beats

variable {opts : HeartbeatOptions} {cfg : Config} {coord coord' : Coordinator ι} {n n' : Node ι}
  {i : ι} {b : ℕ} {now : ℚ} {evs : List Event}

theorem process_eq_some (h : process opts coord n b now = some (coord', n', evs)) :
    ∃ beat state grant, n.beats[b]? = some beat ∧ beat.grant = none ∧
      applyHeartbeat opts coord.records beat.report now = (state, grant) ∧
      coord' = ⟨state, now⟩ ∧ n' = n.setBeat b { beat with grant := some grant } := by
  obtain ⟨beat, hbeat, h⟩ := Option.bind_eq_some_iff.mp h
  split at h
  · cases h
  · rename_i hgrant
    obtain ⟨rfl, rfl, -⟩ : _ = coord' ∧ _ = n' ∧ _ = evs := by simpa [Prod.ext_iff] using h
    exact ⟨beat, _, _, hbeat, by simpa using hgrant, rfl, rfl, rfl⟩

theorem release_eq_some (h : step opts cfg i coord n .release = some (coord', n', evs)) :
    coord' = coord ∧ n' = n.setGuard { n.guard with
      limiter := { n.guard.limiter with inflight := n.guard.limiter.inflight - 1 } } := by
  simp only [step] at h
  split at h
  · cases h
    exact ⟨rfl, rfl⟩
  · cases h

theorem deliver_eq_some (h : step opts cfg i coord n (.deliver b) = some (coord', n', evs)) :
    coord' = coord ∧ ∃ beat grant, n.beats[b]? = some beat ∧ beat.grant = some grant ∧
      beat.awaited = true ∧ n' = (n.setGuard (applyGrant n.guard beat.report grant)).setBeat b
        { beat with awaited := false } := by
  obtain ⟨n₁, hn₁, heq⟩ := Option.map_eq_some_iff.mp h
  cases heq
  obtain ⟨beat, hbeat, hn₁⟩ := Option.bind_eq_some_iff.mp hn₁
  obtain ⟨grant, hgrant, hn₁⟩ := Option.bind_eq_some_iff.mp hn₁
  split at hn₁
  · rename_i hawaited
    exact ⟨rfl, beat, grant, hbeat, hgrant, hawaited, (Option.some.inj hn₁).symm⟩
  · cases hn₁

theorem fail_eq_some (h : step opts cfg i coord n (.fail b) = some (coord', n', evs)) :
    coord' = coord ∧ ∃ beat, n.beats[b]? = some beat ∧ beat.awaited = true ∧
      n' = (n.setGuard (outage cfg n.guard beat.report)).setBeat b
        { beat with awaited := false } := by
  obtain ⟨n₁, hn₁, heq⟩ := Option.map_eq_some_iff.mp h
  cases heq
  obtain ⟨beat, hbeat, hn₁⟩ := Option.bind_eq_some_iff.mp hn₁
  split at hn₁
  · rename_i hawaited
    exact ⟨rfl, beat, hbeat, hawaited, (Option.some.inj hn₁).symm⟩
  · cases hn₁

theorem leave_eq_some (h : step opts cfg i coord n .leave = some (coord', n', evs)) :
    n.leaving = true ∧ coord' = { coord with records := coord.records.erase i } ∧
      n' = { n with leaving := false } := by
  simp only [step] at h
  split at h
  · cases h
    exact ⟨‹_›, rfl, rfl⟩
  · cases h

/-- **What a step of node `i` can do to the coordinator**: nothing, a reading of the clock, the node
taken out, or a heartbeat processed. -/
theorem step_coord {a : Act} (h : step opts cfg i coord n a = some (coord', n', evs)) :
    coord' = coord ∨
    (∃ now, (a = .acquire now ∨ a = .send now) ∧ coord' = { coord with clock := now }) ∨
    (a = .leave ∧ coord' = { coord with records := coord.records.erase i }) ∨
    ∃ b now beat state grant, a = .process b now ∧ n.beats[b]? = some beat ∧ beat.grant = none ∧
      applyHeartbeat opts coord.records beat.report now = (state, grant) ∧
        coord' = ⟨state, now⟩ := by
  cases a with
  | acquire now =>
    cases h
    exact .inr (.inl ⟨now, .inl rfl, rfl⟩)
  | send now =>
    cases h
    exact .inr (.inl ⟨now, .inr rfl, rfl⟩)
  | process b now =>
    obtain ⟨beat, state, grant, hbeat, hgrant, happly, rfl, -⟩ := process_eq_some h
    exact .inr (.inr (.inr ⟨b, now, beat, state, grant, rfl, hbeat, hgrant, happly, rfl⟩))
  | leave => exact .inr (.inr (.inl ⟨rfl, (leave_eq_some h).2.1⟩))
  | release => exact .inl (release_eq_some h).1
  | deliver b => exact .inl (deliver_eq_some h).1
  | fail b => exact .inl (fail_eq_some h).1
  | adapt limit probeLimit =>
    cases h
    exact .inl rfl
  | close =>
    cases h
    exact .inl rfl

end Beats

end ThrottleKit.Concurrency
