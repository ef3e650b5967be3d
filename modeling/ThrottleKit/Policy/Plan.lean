import Mathlib.Data.Finset.Card
import Mathlib.Data.List.Lex
import Mathlib.Data.List.Sort
import ThrottleKit.Lib.OrderedMap
import ThrottleKit.Replay.Recorder

/-!
# Policy plans

A plan compares two sets of policies over recorded traffic. For each policy of both sets it records
what the current one decides on the arrivals from a clean start, replays the candidate over the same
arrivals, and counts the requests that the one admits and the other denies, one way and the other.

A corpus is an object with a property for every policy. Looking up a name in an object also finds
what every object inherits, so that a policy of such a name that was not recorded is taken for one
that was, and planning throws (`plan_throws`).

## What is left out

Of a refusal the reason is kept, and not its text, and of a policy its name and its spec. A corpus
whose prototype was set, by an assignment to a policy named `__proto__`, is none here.

## Main definitions

* `plan`, `diffPolicy`, `coldRecord`, `foldDivergence` — the code
* `coldDecisions`, `flipsOf` — what a spec decides on arrivals from a clean start, and the requests
  on which two of them differ

## Main results

* `coldRecord_eq`, `replay_coldRecord` — the baseline and the replay are the decisions of the specs
* `foldDivergence_eq` — the ledger counts the flips
* `plan_exact` — when a plan is made, and that its ledger is exact
-/

namespace ThrottleKit.PolicyPlans

open BuildStrategy JsonValue Replay

/-! ### Policies and traffic -/

/-- One recorded arrival. -/
structure Arrival where
  key : String
  cost : ℚ
  /-- `at`. -/
  instant : ℚ

/-- The traffic of a policy. -/
structure PolicyCorpus where
  arrivals : List Arrival
  truncated : Bool
  traces : ℕ

/-- Recorded traffic by policy name: an object, with its own properties. -/
abbrev TraceCorpus : Type := OrderedMap String PolicyCorpus

/-- The properties of `Object.prototype`. -/
def objectPrototype : List String :=
  ["constructor", "__defineGetter__", "__defineSetter__", "hasOwnProperty", "__lookupGetter__",
    "__lookupSetter__", "isPrototypeOf", "propertyIsEnumerable", "toString", "valueOf", "__proto__",
    "toLocaleString"]

/-- What `corpus[name]` is. -/
inductive CorpusEntry
  | undefined
  | recorded (pc : PolicyCorpus)
  /-- A property of `Object.prototype`, which has no `arrivals`. -/
  | inherited

/-- `corpus[name]`. -/
def corpusEntry (corpus : TraceCorpus) (name : String) : CorpusEntry :=
  match corpus.lookup name with
  | some pc => .recorded pc
  | none => if name ∈ objectPrototype then .inherited else .undefined

/-- A named policy. -/
structure Policy where
  name : String
  spec : LimiterSpec

/-- A policy that cannot be replayed. -/
structure UnreplayablePolicy where
  name : String
  reason : String

/-- A set of policies. -/
structure PolicySet where
  label : Option String
  policies : List Policy
  unreplayable : Option (List UnreplayablePolicy)
  contentHash : String

/-! ### Plans -/

/-- The outcome for one policy. -/
inductive PolicyDiffState
  | ok
  | empty
  | truncated
  | notReplayable
  | refused
deriving DecidableEq

/-- A key whose decisions flipped. -/
structure KeyFlip where
  key : String
  allowToDeny : ℕ
  denyToAllow : ℕ
  total : ℕ

/-- Why a policy was not replayed. -/
inductive PolicyDiffRefusal
  | notReplayable (message : String)
  | refused (cause : Refusal)

/-- The reason of a refusal, as `refusalOf(e)` gives it. -/
def reasonOf : Refusal → String
  | .traceFormatVersion => "trace-format-version"
  | .traceMalformed _ => "trace-malformed"
  | .traceEmpty => "trace-empty"
  | .traceTruncated => "trace-truncated"
  | .unrebuildableStrategy => "unrebuildable-strategy"
  | .nonManualClock => "non-manual-clock"
  | .luaSha1Mismatch => "lua-sha1-mismatch"
  | .strategyMismatch => "strategy-mismatch"
  | .unreplayableAxis => "unreplayable-axis"
  | .unreplayablePolicy => "unreplayable-policy"
  | .keyrefCollision _ => "keyref-collision"
  | .identityDivergence => "identity-divergence"
  | .config _ | .cost _ => "candidate-invalid"

/-- `refusal.reason`. -/
def PolicyDiffRefusal.reason : PolicyDiffRefusal → String
  | .notReplayable _ => "not-replayable"
  | .refused cause => reasonOf cause

/-- The row of a policy. -/
structure PolicyDiff where
  policy : String
  state : PolicyDiffState
  allowToDeny : ℕ
  denyToAllow : ℕ
  flippedTotal : ℕ
  divergent : ℕ
  steps : ℕ
  affectedKeys : ℕ
  topFlippedKeys : List KeyFlip
  refusal : Option PolicyDiffRefusal

/-- The totals of a plan. -/
structure PlanSummary where
  policies : ℕ
  replayable : ℕ
  allowToDeny : ℕ
  denyToAllow : ℕ
  flippedTotal : ℕ
  affectedKeys : ℕ
  added : List String
  removed : List String

/-- The traffic a plan was made over. -/
structure CorpusSummary where
  policies : ℕ
  steps : ℕ
  truncated : Bool

/-- A plan, with the content hash and the label of both sets. -/
structure Plan where
  current : String × Option String
  candidate : String × Option String
  corpus : CorpusSummary
  diffs : List PolicyDiff
  summary : PlanSummary

/-- The options of a plan. -/
structure PlanOptions where
  topFlippedKeys : Option ℤ

/-- `DEFAULT_TOP_FLIPPED_KEYS`. -/
def defaultTopFlippedKeys : ℤ := 10

/-- `TypeError: Cannot read properties of undefined`. -/
inductive PlanError
  /-- `pc.arrivals.length`, where `pc` has no `arrivals`. -/
  | arrivalsLength

/-- `zeroLedger(name, state)`. -/
def zeroLedger (name : String) (state : PolicyDiffState) : PolicyDiff :=
  ⟨name, state, 0, 0, 0, 0, 0, 0, [], none⟩

/-! ### The baseline -/

/-- The instant of the first arrival. -/
def firstArrival (arrivals : List Arrival) : ℚ := (arrivals.head?.map Arrival.instant).getD 0

/-- The loop of `coldRecord`. -/
def recordArrivals {m : Peekable} (o : RecordOptions) :
    Recorder m → List Arrival → Except Refusal (Recorder m)
  | r, [] => .ok r
  | r, a :: arrivals =>
    let c := recordCheck o { r with clock := a.instant } a.key a.cost
    match c.2 with
    | .error e => .error e
    | .ok _ => recordArrivals o c.1 arrivals

/-- `coldRecord(spec, arrivals)`. -/
def coldRecord (lib : Library) (spec : LimiterSpec) (arrivals : List Arrival) :
    Except Refusal Trace := do
  let o : RecordOptions := { clock := firstArrival arrivals, maxSteps := arrivals.length }
  let m ← rebuild o.name spec.1
  let r ← recordArrivals o (.start m o) arrivals
  return traceOf lib spec o r

/-! ### The ledger -/

/-- What `foldDivergence` keeps. -/
structure Movers where
  allowToDeny : ℕ
  denyToAllow : ℕ
  /-- `a2d` and `d2a` of every key. -/
  perKey : OrderedMap String (ℕ × ℕ)

/-- `step.diffs.find((d) => d.field === "allowed")`, as recorded and as replayed. -/
def allowedDiff (diffs : List FieldDiff) : Option (Bool × Bool) :=
  diffs.findSome? fun
    | .allowed recorded replayed => some (recorded, replayed)
    | .number .. => none

/-- One turn of the loop of `foldDivergence`. -/
def Movers.step (acc : Movers) (step : DivergenceStep) : Movers :=
  match allowedDiff step.diffs with
  | none => acc
  | some (recorded, replayed) =>
    let e := (acc.perKey.lookup step.key).getD (0, 0)
    if recorded = true ∧ replayed = false then
      ⟨acc.allowToDeny + 1, acc.denyToAllow, acc.perKey.set step.key (e.1 + 1, e.2)⟩
    else if recorded = false ∧ replayed = true then
      ⟨acc.allowToDeny, acc.denyToAllow + 1, acc.perKey.set step.key (e.1, e.2 + 1)⟩
    else ⟨acc.allowToDeny, acc.denyToAllow, acc.perKey.set step.key e⟩

/-- The accumulators of `foldDivergence` after the loop. -/
def movers (div : DivergenceReport) : Movers := div.steps.foldl Movers.step ⟨0, 0, .empty⟩

/-- `slice(0, end)`. -/
def sliceTo {α : Type} (stop : ℤ) (l : List α) : List α :=
  if 0 ≤ stop then l.take stop.toNat else l.take (l.length - stop.natAbs)

/-- What `foldDivergence` returns. -/
structure Folded where
  allowToDeny : ℕ
  denyToAllow : ℕ
  affectedKeys : ℕ
  topFlippedKeys : List KeyFlip

/-- `foldDivergence(div, topK)`. -/
def foldDivergence (div : DivergenceReport) (topK : ℤ) : Folded :=
  let perKey := (movers div).perKey
  let flips := perKey.entries.map fun e => (⟨e.1, e.2.1, e.2.2, e.2.1 + e.2.2⟩ : KeyFlip)
  ⟨(movers div).allowToDeny, (movers div).denyToAllow, perKey.size,
    sliceTo topK (flips.insertionSort fun a b => b.total ≤ a.total)⟩

/-! ### The plan -/

/-- A row for a policy that was refused. -/
def refusedRow (name : String) (e : Refusal) : PolicyDiff :=
  { zeroLedger name .refused with refusal := some (.refused e) }

/-- `diffPolicy(name, currentSpec, candidateSpec, pc, topK)`. -/
def diffPolicy (lib : Library) (name : String) (currentSpec candidateSpec : LimiterSpec)
    (pc : Option PolicyCorpus) (topK : ℤ) : PolicyDiff :=
  match pc with
  | none => zeroLedger name .empty
  | some pc =>
    if pc.arrivals.length = 0 then zeroLedger name .empty
    else match coldRecord lib currentSpec pc.arrivals with
      | .error e => refusedRow name e
      | .ok baseline =>
        match replay lib baseline.json ⟨some candidateSpec.1, true⟩ with
        | .error e => refusedRow name e
        | .ok result =>
          let folded := foldDivergence result.divergence topK
          { policy := name
            state := if pc.truncated then .truncated else .ok
            allowToDeny := folded.allowToDeny
            denyToAllow := folded.denyToAllow
            flippedTotal := result.divergence.flipped
            divergent := result.divergence.divergent
            steps := result.divergence.total
            affectedKeys := folded.affectedKeys
            topFlippedKeys := folded.topFlippedKeys
            refusal := none }

/-- `new Map(policies.map((p) => [p.name, p]))`. -/
def byName (policies : List Policy) : OrderedMap String Policy :=
  policies.foldl (fun m p => m.set p.name p) .empty

/-- The code units of a string. -/
def codeUnits (s : String) : List ℕ :=
  s.toList.flatMap fun c =>
    if c.toNat < 0x10000 then [c.toNat]
    else [0xD800 + (c.toNat - 0x10000) / 0x400, 0xDC00 + (c.toNat - 0x10000) % 0x400]

/-- Names in order. -/
def sortNames (names : List String) : List String :=
  names.insertionSort fun a b => codeUnits a ≤ codeUnits b

/-- `[...candByName.entries()]`, by name. -/
def sortedCandidates (candByName : OrderedMap String Policy) : List (String × Policy) :=
  candByName.entries.insertionSort fun a b => codeUnits a.1 ≤ codeUnits b.1

/-- What the loop of `plan` keeps. -/
structure Progress where
  corpusSteps : ℕ
  corpusTruncated : Bool
  diffs : List PolicyDiff

/-- One turn of the loop of `plan`. -/
def Progress.add (lib : Library) (currentByName : OrderedMap String Policy) (corpus : TraceCorpus)
    (topK : ℤ) (acc : Progress) (entry : String × Policy) : Except PlanError Progress :=
  match currentByName.lookup entry.1 with
  | none => .ok acc
  | some cur =>
    match corpusEntry corpus entry.1 with
    | .inherited => .error .arrivalsLength
    | .recorded pc =>
      .ok ⟨acc.corpusSteps + pc.arrivals.length, acc.corpusTruncated || pc.truncated,
        acc.diffs ++ [diffPolicy lib entry.1 cur.spec entry.2.spec (some pc) topK]⟩
    | .undefined =>
      .ok { acc with
        diffs := acc.diffs ++ [diffPolicy lib entry.1 cur.spec entry.2.spec none topK] }

/-- `state === "ok" || state === "truncated"`. -/
def PolicyDiff.ledgered (d : PolicyDiff) : Bool := d.state = .ok || d.state = .truncated

/-- The row of a policy that cannot be replayed. -/
def unreplayableRow (u : UnreplayablePolicy) : PolicyDiff :=
  { zeroLedger u.name .notReplayable with refusal := some (.notReplayable u.reason) }

/-- `plan(current, candidate, corpus, options)`. -/
def plan (lib : Library) (current candidate : PolicySet) (corpus : TraceCorpus)
    (options : PlanOptions) : Except PlanError Plan := do
  let topK := options.topFlippedKeys.getD defaultTopFlippedKeys
  let currentByName := byName current.policies
  let candByName := byName candidate.policies
  let added := sortNames (candByName.keys.filter fun n => (currentByName.lookup n).isNone)
  let removed := sortNames (currentByName.keys.filter fun n => (candByName.lookup n).isNone)
  let progress ← (sortedCandidates candByName).foldlM
    (Progress.add lib currentByName corpus topK) ⟨0, false, []⟩
  let diffs := progress.diffs ++ (candidate.unreplayable.getD []).map unreplayableRow
  let ledgered := diffs.filter PolicyDiff.ledgered
  return {
    current := (current.contentHash, current.label)
    candidate := (candidate.contentHash, candidate.label)
    corpus := ⟨corpus.size, progress.corpusSteps, progress.corpusTruncated⟩
    diffs := diffs
    summary := ⟨diffs.length, ledgered.length, (ledgered.map PolicyDiff.allowToDeny).sum,
      (ledgered.map PolicyDiff.denyToAllow).sum, (ledgered.map PolicyDiff.flippedTotal).sum,
      (ledgered.map PolicyDiff.affectedKeys).sum, added, removed⟩ }

/-! ### What a spec decides -/

/-- The decisions of a limiter on arrivals. -/
def decisionsOn (m : Peekable) (memory : Memory m) : List Arrival → Except CostError (List Decision)
  | [] => .ok []
  | a :: arrivals =>
    let r := checkSync m none memory a.key a.cost a.instant
    match r.2 with
    | .error err => .error err
    | .ok d => (decisionsOn m r.1 arrivals).map fun ds => d :: ds

/-- The decisions of a spec on arrivals, from a clean start. -/
def coldDecisions (spec : LimiterSpec) (arrivals : List Arrival) :
    Except Refusal (List Decision) := do
  let m ← rebuild "recorded" spec.1
  (decisionsOn m (newStore m (firstArrival arrivals)) arrivals).mapError .cost

/-- The arrivals that one admits and the other denies, by key and by whether the first admits. -/
def flipsOf : List Arrival → List Decision → List Decision → List (String × Bool)
  | a :: arrivals, d :: ds, e :: es =>
    if d.allowed ≠ e.allowed then (a.key, d.allowed) :: flipsOf arrivals ds es
    else flipsOf arrivals ds es
  | _, _, _ => []

/-- Arrivals as they are recorded. -/
def stepsOf (arrivals : List Arrival) (ds : List Decision) : List Step :=
  List.zipWith (fun a d => ⟨a.key, a.cost, a.instant, d⟩) arrivals ds

theorem length_decisionsOn {m : Peekable} {arrivals : List Arrival} {memory : Memory m}
    {ds : List Decision} (h : decisionsOn m memory arrivals = .ok ds) :
    ds.length = arrivals.length := by
  induction arrivals generalizing memory ds with
  | nil =>
    obtain rfl := Except.ok.inj h
    rfl
  | cons a arrivals ih =>
    rw [decisionsOn] at h
    split at h
    · cases h
    · rename_i d hd
      cases hrest : decisionsOn m (checkSync m none memory a.key a.cost a.instant).1 arrivals with
      | error err =>
        rw [hrest] at h
        cases h
      | ok ds' =>
        rw [hrest] at h
        obtain rfl := Except.ok.inj h
        rw [List.length_cons, List.length_cons, ih hrest]

section Record

variable {m : Peekable} {o : RecordOptions} {r : Recorder m} {arrivals : List Arrival}

/-- Without redaction a key stands for itself. -/
theorem redact_plain (hredact : o.redactKey = none)
    (hself : ∀ key prev, r.originalOf key = some prev → prev = key) (key : String) :
    o.redact key = key ∧ ∃ originalOf, redact o r key = .ok originalOf ∧
      ∀ key' prev, originalOf key' = some prev → prev = key' := by
  have hkey : o.redact key = key := by rw [RecordOptions.redact, hredact]
  refine ⟨hkey, ?_⟩
  rw [redact, hkey]
  cases hprev : r.originalOf key with
  | some prev =>
    refine ⟨r.originalOf, ?_, hself⟩
    dsimp only
    rw [if_neg (not_not.mpr (hself key prev hprev))]
  | none =>
    refine ⟨_, rfl, fun key' prev h => ?_⟩
    rw [Function.update_apply] at h
    split at h
    · rename_i heq
      rw [heq, ← Option.some.inj h]
    · exact hself key' prev h

/-- A recording without redaction that has room takes a check as the limiter decides it. -/
theorem recordCheck_plain ( hprefix : o.keyPrefix = none) (hredact : o.redactKey = none)
    (hself : ∀ key prev, r.originalOf key = some prev → prev = key)
    (hroom : (r.steps.length : ℚ) < o.maxSteps) (key : String) (cost : ℚ) :
    (∀ err, (checkSync m none r.memory key cost r.clock).2 = .error err →
      (recordCheck o r key cost).2 = .error (.cost err)) ∧
    ∀ d, (checkSync m none r.memory key cost r.clock).2 = .ok d →
      (recordCheck o r key cost).2 = .ok d ∧
      (recordCheck o r key cost).1.memory = (checkSync m none r.memory key cost r.clock).1 ∧
      (recordCheck o r key cost).1.steps = r.steps ++ [⟨key, cost, r.clock, d⟩] ∧
      (recordCheck o r key cost).1.dropped = r.dropped ∧
      ∀ key' prev, (recordCheck o r key cost).1.originalOf key' = some prev → prev = key' := by
  obtain ⟨hkey, originalOf, hok, hself'⟩ := redact_plain hredact hself key
  have hcap : atCap o r = false := decide_eq_false (not_le.mpr hroom)
  constructor
  · intro err herr
    rw [recordCheck, hcap, if_neg Bool.false_ne_true, hok, hprefix, hkey]
    dsimp only
    rw [herr]
  · intro d hd
    rw [recordCheck, hcap, if_neg Bool.false_ne_true, hok, hprefix, hkey]
    dsimp only
    rw [hd]
    exact ⟨rfl, rfl, rfl, rfl, hself'⟩

/-- **The loop of `coldRecord`** keeps the decisions of the limiter, or throws as it does. -/
theorem recordArrivals_eq ( hprefix : o.keyPrefix = none) (hredact : o.redactKey = none)
    (hself : ∀ key prev, r.originalOf key = some prev → prev = key)
    (hroom : ((r.steps.length + arrivals.length : ℕ) : ℚ) ≤ o.maxSteps) :
    (∀ err, decisionsOn m r.memory arrivals = .error err →
      recordArrivals o r arrivals = .error (.cost err)) ∧
    ∀ ds, decisionsOn m r.memory arrivals = .ok ds → ∃ r', recordArrivals o r arrivals = .ok r' ∧
      r'.steps = r.steps ++ stepsOf arrivals ds ∧ r'.dropped = r.dropped := by
  induction arrivals generalizing r with
  | nil =>
    constructor
    · rintro err ⟨⟩
    · rintro ds hds
      obtain rfl := Except.ok.inj hds
      exact ⟨r, rfl, (List.append_nil _).symm, rfl⟩
  | cons a arrivals ih =>
    rw [List.length_cons] at hroom
    have hless : (r.steps.length : ℚ) < o.maxSteps :=
      lt_of_lt_of_le (by exact_mod_cast (by omega)) hroom
    obtain ⟨herror, hok⟩ := recordCheck_plain (r := { r with clock := a.instant }) hprefix hredact
      hself hless a.key a.cost
    rw [recordArrivals, decisionsOn]
    cases hcheck : (checkSync m none r.memory a.key a.cost a.instant).2 with
    | error err =>
      rw [herror err hcheck]
      refine ⟨fun err' h => ?_, fun ds h => ?_⟩
      · obtain rfl := Except.error.inj h
        rfl
      · cases h
    | ok d =>
      obtain ⟨hreply, hmemory, hsteps, hdropped, hnext⟩ := hok d hcheck
      rw [hreply]
      dsimp only at hmemory hsteps hdropped hnext ⊢
      have hroom' : (((recordCheck o { r with clock := a.instant } a.key a.cost).1.steps.length
          + arrivals.length : ℕ) : ℚ) ≤ o.maxSteps := by
        rw [hsteps, List.length_append, List.length_singleton]
        exact_mod_cast (by rw [Nat.add_assoc, Nat.add_comm 1]; exact_mod_cast hroom)
      obtain ⟨ihError, ihOk⟩ := ih hnext hroom'
      rw [hmemory] at ihError ihOk
      cases hrest : decisionsOn m (checkSync m none r.memory a.key a.cost a.instant).1 arrivals with
      | error err =>
        refine ⟨fun err' h => ?_, fun ds h => ?_⟩
        · obtain rfl := Except.error.inj h
          exact ihError _ hrest
        · cases h
      | ok ds =>
        refine ⟨fun err' h => ?_, fun ds' h => ?_⟩
        · cases h
        · obtain rfl := Except.ok.inj h
          obtain ⟨r', hrun, hsteps', hdropped'⟩ := ihOk ds hrest
          refine ⟨r', hrun, ?_, hdropped'.trans hdropped⟩
          rw [hsteps', hsteps, List.append_assoc]
          rfl

end Record

/-! ### The baseline and the replay -/

section Replay

variable {m : Peekable} {memory : Memory m} {arrivals : List Arrival} {ds : List Decision}

theorem cost_pos_of_checkSync {key : String} {cost now : ℚ} {d : Decision}
    (h : (checkSync m none memory key cost now).2 = .ok d) : 0 < cost := by
  cases hcost : requireCost cost with
  | error err =>
    rw [checkSync_of_error hcost] at h
    cases h
  | ok u => exact pos_of_requireCost hcost

theorem costs_pos (h : decisionsOn m memory arrivals = .ok ds) :
    ∀ s ∈ stepsOf arrivals ds, 0 < s.cost := by
  induction arrivals generalizing memory ds with
  | nil =>
    intro s hs
    rw [stepsOf, List.zipWith_nil_left] at hs
    cases hs
  | cons a arrivals ih =>
    rw [decisionsOn] at h
    split at h
    · cases h
    · rename_i d hd
      cases hrest : decisionsOn m (checkSync m none memory a.key a.cost a.instant).1 arrivals with
      | error err =>
        rw [hrest] at h
        cases h
      | ok ds' =>
        rw [hrest] at h
        obtain rfl := Except.ok.inj h
        intro s hs
        rcases List.mem_cons.mp hs with rfl | hs
        · exact cost_pos_of_checkSync hd
        · exact ih hrest s hs

/-- A replay reads the arrivals of the steps, and not their decisions. -/
theorem driveSteps_stepsOf (hlen : ds.length = arrivals.length) :
    driveSteps m none memory (stepsOf arrivals ds)
      = (decisionsOn m memory arrivals).mapError .cost := by
  induction arrivals generalizing memory ds with
  | nil => rfl
  | cons a arrivals ih =>
    cases ds with
    | nil => cases hlen
    | cons d ds =>
      have hrest := @ih (checkSync m none memory a.key a.cost a.instant).1 ds (Nat.succ.inj hlen)
      rw [stepsOf, List.zipWith_cons_cons, driveSteps, decisionsOn]
      rw [stepsOf] at hrest
      cases (checkSync m none memory a.key a.cost a.instant).2 with
      | error err => rfl
      | ok d' =>
        dsimp only
        rw [hrest]
        cases decisionsOn m (checkSync m none memory a.key a.cost a.instant).1 arrivals with
        | error err => rfl
        | ok ds' => rfl

theorem firstInstant_stepsOf (hlen : ds.length = arrivals.length) :
    firstInstant (stepsOf arrivals ds) = firstArrival arrivals := by
  cases arrivals with
  | nil => rfl
  | cons a arrivals =>
    cases ds with
    | nil => cases hlen
    | cons d ds => rfl

/-- A trace of the decisions `ds` of a spec on arrivals. -/
structure Records (lib : Library) (spec : LimiterSpec) (arrivals : List Arrival)
    (ds : List Decision) (t : Trace) : Prop where
  built : ∃ m, rebuild "recorded" spec.1 = .ok m ∧ t.fingerprint = fingerprint lib spec m none
  truncated : t.truncated = false
  dropped : t.dropped = 0
  steps : t.steps = stepsOf arrivals ds
  length : ds.length = arrivals.length
  costs : ∀ s ∈ t.steps, 0 < s.cost

/-- **The baseline is what the current spec decides** on the arrivals. -/
theorem coldRecord_eq (lib : Library) (spec : LimiterSpec) (arrivals : List Arrival) :
    (∀ e, coldDecisions spec arrivals = .error e → coldRecord lib spec arrivals = .error e) ∧
    ∀ ds, coldDecisions spec arrivals = .ok ds → ∃ t, coldRecord lib spec arrivals = .ok t ∧
      Records lib spec arrivals ds t := by
  rw [coldDecisions, coldRecord]
  cases hbuild : rebuild "recorded" spec.1 with
  | error e =>
    refine ⟨fun e' h => ?_, fun ds h => ?_⟩
    · obtain rfl := Except.error.inj h
      rfl
    · cases h
  | ok m =>
    obtain ⟨herror, hok⟩ := @recordArrivals_eq m
      { clock := firstArrival arrivals, maxSteps := arrivals.length }
      (.start m { clock := firstArrival arrivals, maxSteps := arrivals.length }) arrivals rfl rfl
      (by rintro key prev ⟨⟩) (by rw [Recorder.start, List.length_nil, Nat.zero_add])
    simp only [bind, Except.bind]
    cases hds : decisionsOn m (newStore m (firstArrival arrivals)) arrivals with
    | error err =>
      refine ⟨fun e h => ?_, fun ds h => ?_⟩
      · obtain rfl := Except.error.inj h
        rw [herror err hds]
      · cases h
    | ok ds =>
      refine ⟨fun e h => ?_, fun ds' h => ?_⟩
      · cases h
      · obtain rfl := Except.ok.inj h
        obtain ⟨r, hrun, hsteps, hdropped⟩ := hok ds hds
        rw [hrun]
        have hnone : r.dropped = 0 := hdropped
        refine ⟨_, rfl, ⟨m, hbuild, rfl⟩, ?_, hnone, hsteps, length_decisionsOn hds, ?_⟩
        · show decide (0 < r.dropped) = false
          rw [hnone]
          rfl
        · show ∀ s ∈ r.steps, 0 < s.cost
          rw [hsteps]
          exact costs_pos hds

/-- **The replay of a baseline is what the candidate decides** on the arrivals. -/
theorem Records.replay {lib : Library} {spec candidate : LimiterSpec} {t : Trace}
    (h : Records lib spec arrivals ds t) (hne : arrivals ≠ []) :
    (∀ e, coldDecisions candidate arrivals = .error e →
      ∃ e', replay lib t.json ⟨some candidate.1, true⟩ = .error e') ∧
    ∀ es, coldDecisions candidate arrivals = .ok es →
      replay lib t.json ⟨some candidate.1, true⟩
        = .ok ⟨es, divergence (stepsOf arrivals ds) es, candidate.1, true⟩ := by
  obtain ⟨m, hbuild, hfp⟩ := h.built
  have hsome : t.steps ≠ [] := by
    rw [h.steps]
    intro hnil
    have hlen := congrArg List.length hnil
    rw [stepsOf, List.length_zipWith, h.length, min_self] at hlen
    exact hne (List.length_eq_zero_iff.mp hlen)
  have hguard := assertReplayableTrace_json lib hbuild hfp h.truncated h.dropped hsome h.costs
  have hdrive : ∀ m', driveSteps m' (prefixOf (fingerprintOf t.json))
      (newStore m' (firstInstant t.steps)) t.steps
        = (decisionsOn m' (newStore m' (firstArrival arrivals)) arrivals).mapError .cost := by
    intro m'
    rw [fingerprintOf_json, prefixOf_json, hfp, h.steps, firstInstant_stepsOf h.length]
    exact driveSteps_stepsOf h.length
  rw [Replay.replay, hguard]
  simp only [bind, Except.bind, pure, Except.pure, Bool.not_true, if_false, Bool.false_eq_true,
    drive, hdrive]
  rw [coldDecisions]
  cases hcand : rebuild "recorded" candidate.1 with
  | error e =>
    refine ⟨fun e' _ => ?_, fun es hes => ?_⟩
    · cases hnamed : rebuild (nameOf (fingerprintOf t.json)) candidate.1 with
      | error e'' => exact ⟨e'', rfl⟩
      | ok m' =>
        rw [rebuild_name "recorded" hnamed] at hcand
        cases hcand
    · cases hes
  | ok m' =>
    rw [rebuild_name _ hcand]
    simp only [bind, Except.bind]
    cases hes : (decisionsOn m' (newStore m' (firstArrival arrivals)) arrivals).mapError
        Refusal.cost with
    | error e =>
      refine ⟨fun e' _ => ⟨e, rfl⟩, fun es hok => ?_⟩
      cases hok
    | ok es =>
      refine ⟨fun e' herror => ?_, fun es' hok => ?_⟩
      · cases herror
      · obtain rfl := Except.ok.inj hok
        rw [h.steps]

end Replay

/-! ### The ledger -/

/-- A flip in the accumulators. -/
def Movers.flip (acc : Movers) (f : String × Bool) : Movers :=
  let e := (acc.perKey.lookup f.1).getD (0, 0)
  if f.2 then ⟨acc.allowToDeny + 1, acc.denyToAllow, acc.perKey.set f.1 (e.1 + 1, e.2)⟩
  else ⟨acc.allowToDeny, acc.denyToAllow + 1, acc.perKey.set f.1 (e.1, e.2 + 1)⟩

theorem allowedDiff_diffDecision (d e : Decision) :
    allowedDiff (diffDecision d e)
      = if d.allowed ≠ e.allowed then some (d.allowed, e.allowed) else none := by
  have hnumber : ∀ (field : String) (x y : ℚ), allowedDiff (diffNumber field x y) = none := by
    intro field x y
    rw [diffNumber]
    split <;> rfl
  have happend : ∀ l l' : List FieldDiff, allowedDiff (l ++ l')
      = (allowedDiff l).or (allowedDiff l') := fun l l' => List.findSome?_append
  rw [diffDecision, happend, happend, happend, happend, hnumber, hnumber, hnumber, hnumber]
  split <;> rfl

theorem flips_diffDecision (d e : Decision) :
    Replay.flips (diffDecision d e) = decide (d.allowed ≠ e.allowed) := by
  have hnumber : ∀ (field : String) (x y : ℚ), Replay.flips (diffNumber field x y) = false := by
    intro field x y
    rw [diffNumber]
    split <;> rfl
  have happend : ∀ l l' : List FieldDiff, Replay.flips (l ++ l')
      = (Replay.flips l || Replay.flips l') := fun l l' => List.any_append
  rw [diffDecision, happend, happend, happend, happend, hnumber, hnumber, hnumber, hnumber]
  by_cases h : d.allowed = e.allowed
  · rw [if_neg (not_not.mpr h)]
    simp [Replay.flips, h]
  · rw [if_pos h]
    simp [Replay.flips, h]

/-- **The divergent steps hold the flips.** -/
theorem foldl_divergentFrom (arrivals : List Arrival) (ds es : List Decision) (i : ℕ)
    (acc : Movers) :
    (divergentFrom i (stepsOf arrivals ds) es).foldl Movers.step acc
        = (flipsOf arrivals ds es).foldl Movers.flip acc ∧
      (divergentFrom i (stepsOf arrivals ds) es).countP DivergenceStep.flipped
        = (flipsOf arrivals ds es).length := by
  induction arrivals generalizing ds es i acc with
  | nil =>
    rw [stepsOf, List.zipWith_nil_left, divergentFrom.eq_def]
    exact ⟨rfl, rfl⟩
  | cons a arrivals ih =>
    cases ds with
    | nil =>
      rw [stepsOf, List.zipWith_nil_right, divergentFrom.eq_def]
      exact ⟨rfl, rfl⟩
    | cons d ds =>
      cases es with
      | nil => exact ⟨rfl, rfl⟩
      | cons e es =>
        have hsteps : stepsOf (a :: arrivals) (d :: ds)
            = ⟨a.key, a.cost, a.instant, d⟩ :: stepsOf arrivals ds := rfl
        rw [hsteps, divergentFrom, flipsOf]
        dsimp only
        have hallowed := allowedDiff_diffDecision d e
        have hflips := flips_diffDecision d e
        by_cases h : d.allowed = e.allowed
        · rw [if_neg (not_not.mpr h)] at hallowed ⊢
          rw [decide_eq_false (not_not.mpr h)] at hflips
          split
          · exact ih ds es (i + 1) acc
          · rw [List.foldl_cons, List.countP_cons_of_neg (by simp [hflips]), Movers.step, hallowed]
            exact ih ds es (i + 1) acc
        · rw [if_pos h] at hallowed ⊢
          rw [decide_eq_true h] at hflips
          have hsome : (diffDecision d e).isEmpty = false := by
            cases hdiff : diffDecision d e with
            | nil =>
              rw [hdiff] at hallowed
              cases hallowed
            | cons x l => rfl
          rw [hsome, if_neg Bool.false_ne_true, List.foldl_cons,
            List.countP_cons_of_pos (by simp [hflips]), Movers.step, hallowed, List.foldl_cons,
            List.length_cons]
          dsimp only
          have hone : (if d.allowed = true ∧ e.allowed = false then
                (⟨acc.allowToDeny + 1, acc.denyToAllow, acc.perKey.set a.key
                  (((acc.perKey.lookup a.key).getD (0, 0)).1 + 1,
                    ((acc.perKey.lookup a.key).getD (0, 0)).2)⟩ : Movers)
              else if d.allowed = false ∧ e.allowed = true then
                ⟨acc.allowToDeny, acc.denyToAllow + 1, acc.perKey.set a.key
                  (((acc.perKey.lookup a.key).getD (0, 0)).1,
                    ((acc.perKey.lookup a.key).getD (0, 0)).2 + 1)⟩
              else ⟨acc.allowToDeny, acc.denyToAllow,
                acc.perKey.set a.key ((acc.perKey.lookup a.key).getD (0, 0))⟩)
              = acc.flip (a.key, d.allowed) := by
            rw [Movers.flip]
            cases hd : d.allowed <;> cases he : e.allowed <;> rw [hd, he] at h <;>
              first | exact absurd rfl h | rfl
          rw [hone]
          obtain ⟨hfold, hcount⟩ := ih ds es (i + 1) (acc.flip (a.key, d.allowed))
          exact ⟨hfold, congrArg (· + 1) hcount⟩

/-- What the accumulators count. -/
theorem foldl_flip (fl : List (String × Bool)) (acc : Movers) :
    (fl.foldl Movers.flip acc).allowToDeny = acc.allowToDeny + fl.countP (fun f => f.2) ∧
    (fl.foldl Movers.flip acc).denyToAllow = acc.denyToAllow + fl.countP (fun f => !f.2) ∧
    ∀ key, key ∈ (fl.foldl Movers.flip acc).perKey.keys ↔
      key ∈ acc.perKey.keys ∨ key ∈ fl.map Prod.fst := by
  induction fl generalizing acc with
  | nil => simp
  | cons f fl ih =>
    obtain ⟨hallow, hdeny, hkeys⟩ := ih (acc.flip f)
    have hset : ∀ (v : ℕ × ℕ) key, key ∈ (acc.perKey.set f.1 v).keys ↔
        key = f.1 ∨ key ∈ acc.perKey.keys := fun v key => OrderedMap.mem_map_put acc.perKey.entries
    rw [List.foldl_cons, hallow, hdeny, List.map_cons]
    cases hf : f.2 with
    | true =>
      have hflip : acc.flip f = ⟨acc.allowToDeny + 1, acc.denyToAllow, acc.perKey.set f.1
          (((acc.perKey.lookup f.1).getD (0, 0)).1 + 1,
            ((acc.perKey.lookup f.1).getD (0, 0)).2)⟩ := by
        rw [Movers.flip, hf]
        rfl
      rw [List.countP_cons_of_pos (by exact hf), List.countP_cons_of_neg (by simp [hf]), hflip]
      refine ⟨by dsimp only; omega, rfl, fun key => ?_⟩
      rw [← hflip, hkeys, hflip, hset, List.mem_cons]
      tauto
    | false =>
      have hflip : acc.flip f = ⟨acc.allowToDeny, acc.denyToAllow + 1, acc.perKey.set f.1
          (((acc.perKey.lookup f.1).getD (0, 0)).1,
            ((acc.perKey.lookup f.1).getD (0, 0)).2 + 1)⟩ := by
        rw [Movers.flip, hf]
        rfl
      rw [List.countP_cons_of_neg (by simp [hf]), List.countP_cons_of_pos (by simp [hf]), hflip]
      refine ⟨rfl, by dsimp only; omega, fun key => ?_⟩
      rw [← hflip, hkeys, hflip, hset, List.mem_cons]
      tauto

/-- The ledger of flips. -/
structure Exact (d : PolicyDiff) (fl : List (String × Bool)) : Prop where
  allowToDeny : d.allowToDeny = fl.countP fun f => f.2
  denyToAllow : d.denyToAllow = fl.countP fun f => !f.2
  flippedTotal : d.flippedTotal = fl.length
  affectedKeys : d.affectedKeys = (fl.map Prod.fst).toFinset.card

/-- Every flip goes one way or the other. -/
theorem Exact.total {d : PolicyDiff} {fl : List (String × Bool)} (h : Exact d fl) :
    d.allowToDeny + d.denyToAllow = d.flippedTotal := by
  rw [h.allowToDeny, h.denyToAllow, h.flippedTotal, List.length_eq_countP_add_countP fun f => f.2]
  congr 2
  funext f
  cases f.2 <;> rfl

/-- **The ledger counts the flips.** -/
theorem foldDivergence_eq (arrivals : List Arrival) (ds es : List Decision) (topK : ℤ) :
    (foldDivergence (divergence (stepsOf arrivals ds) es) topK).allowToDeny
        = (flipsOf arrivals ds es).countP (fun f => f.2) ∧
    (foldDivergence (divergence (stepsOf arrivals ds) es) topK).denyToAllow
        = (flipsOf arrivals ds es).countP (fun f => !f.2) ∧
    (divergence (stepsOf arrivals ds) es).flipped = (flipsOf arrivals ds es).length ∧
    (foldDivergence (divergence (stepsOf arrivals ds) es) topK).affectedKeys
        = ((flipsOf arrivals ds es).map Prod.fst).toFinset.card := by
  obtain ⟨hfold, hcount⟩ := foldl_divergentFrom arrivals ds es 0 ⟨0, 0, .empty⟩
  obtain ⟨hallow, hdeny, hkeys⟩ := foldl_flip (flipsOf arrivals ds es) ⟨0, 0, .empty⟩
  have hmovers : movers (divergence (stepsOf arrivals ds) es)
      = (flipsOf arrivals ds es).foldl Movers.flip ⟨0, 0, .empty⟩ := hfold
  rw [foldDivergence, hmovers]
  refine ⟨hallow.trans (Nat.zero_add _), hdeny.trans (Nat.zero_add _), hcount, ?_⟩
  have hset : ((flipsOf arrivals ds es).foldl Movers.flip ⟨0, 0, .empty⟩).perKey.keys.toFinset
      = ((flipsOf arrivals ds es).map Prod.fst).toFinset := by
    ext key
    rw [List.mem_toFinset, List.mem_toFinset, hkeys]
    exact or_iff_right List.not_mem_nil
  have hcard : ((flipsOf arrivals ds es).foldl Movers.flip ⟨0, 0, .empty⟩).perKey.keys.toFinset.card
      = ((flipsOf arrivals ds es).foldl Movers.flip ⟨0, 0, .empty⟩).perKey.keys.length :=
    List.toFinset_card_of_nodup (OrderedMap.nodup _)
  rw [← hset, hcard, OrderedMap.keys, List.length_map]
  rfl

theorem flipsOf_self (arrivals : List Arrival) (ds : List Decision) :
    flipsOf arrivals ds ds = [] := by
  induction arrivals generalizing ds with
  | nil => rfl
  | cons a arrivals ih =>
    cases ds with
    | nil => rfl
    | cons d ds => rw [flipsOf, if_neg (not_not.mpr rfl), ih]

/-- The other way round, every flip goes the other way. -/
theorem flipsOf_swap (arrivals : List Arrival) (ds es : List Decision) :
    flipsOf arrivals es ds = (flipsOf arrivals ds es).map fun f => (f.1, !f.2) := by
  induction arrivals generalizing ds es with
  | nil =>
    rw [flipsOf.eq_def, flipsOf.eq_def]
    rfl
  | cons a arrivals ih =>
    cases ds with
    | nil => cases es <;> rfl
    | cons d ds =>
      cases es with
      | nil => rfl
      | cons e es =>
        rw [flipsOf, flipsOf]
        by_cases h : d.allowed = e.allowed
        · rw [if_neg (not_not.mpr h), if_neg (not_not.mpr h.symm), ih]
        · have hother : e.allowed = !d.allowed := Bool.eq_not.mpr (Ne.symm h)
          rw [if_pos h, if_pos (Ne.symm h), ih, List.map_cons, hother]

/-! ### Rows -/

/-- A row without a ledger has a ledger of nothing. -/
structure Blank (d : PolicyDiff) : Prop where
  ledgered : d.ledgered = false
  allowToDeny : d.allowToDeny = 0
  denyToAllow : d.denyToAllow = 0
  flippedTotal : d.flippedTotal = 0
  affectedKeys : d.affectedKeys = 0

theorem blank_zeroLedger (name : String) {state : PolicyDiffState} (hok : state ≠ .ok)
    (htruncated : state ≠ .truncated) (refusal : Option PolicyDiffRefusal) :
    Blank { zeroLedger name state with refusal := refusal } where
  ledgered := by
    show (decide (state = .ok) || decide (state = .truncated)) = false
    rw [decide_eq_false hok, decide_eq_false htruncated]
    rfl
  allowToDeny := rfl
  denyToAllow := rfl
  flippedTotal := rfl
  affectedKeys := rfl

/-- **The row of a policy** has the exact ledger, or none. -/
theorem diffPolicy_cases (lib : Library) (name : String) (cur cand : LimiterSpec)
    (pc : Option PolicyCorpus) (topK : ℤ) :
    Blank (diffPolicy lib name cur cand pc topK) ∨
      ∃ c ds es, pc = some c ∧ coldDecisions cur c.arrivals = .ok ds ∧
        coldDecisions cand c.arrivals = .ok es ∧
        (diffPolicy lib name cur cand pc topK).ledgered = true ∧
        Exact (diffPolicy lib name cur cand pc topK) (flipsOf c.arrivals ds es) := by
  rw [diffPolicy.eq_def]
  cases pc with
  | none => exact .inl (blank_zeroLedger name (by decide) (by decide) none)
  | some c =>
    dsimp only
    by_cases hnone : c.arrivals.length = 0
    · rw [if_pos hnone]
      exact .inl (blank_zeroLedger name (by decide) (by decide) none)
    rw [if_neg hnone]
    have hne : c.arrivals ≠ [] := fun h => hnone (congrArg List.length h)
    obtain ⟨herror, hok⟩ := coldRecord_eq lib cur c.arrivals
    cases hds : coldDecisions cur c.arrivals with
    | error e =>
      rw [herror e hds]
      exact .inl (blank_zeroLedger name (by decide) (by decide) _)
    | ok ds =>
      obtain ⟨t, hrecord, hrecords⟩ := hok ds hds
      obtain ⟨hrefused, hreplayed⟩ := @Records.replay _ _ _ _ cand _ hrecords hne
      rw [hrecord]
      dsimp only
      cases hes : coldDecisions cand c.arrivals with
      | error e =>
        obtain ⟨e', he'⟩ := hrefused e hes
        rw [he']
        exact .inl (blank_zeroLedger name (by decide) (by decide) _)
      | ok es =>
        rw [hreplayed es hes]
        obtain ⟨hallow, hdeny, htotal, hkeys⟩ := foldDivergence_eq c.arrivals ds es topK
        refine .inr ⟨c, ds, es, rfl, hds, hes, ?_, ⟨hallow, hdeny, htotal, hkeys⟩⟩
        show (decide ((if c.truncated then PolicyDiffState.truncated else .ok) = .ok) ||
          decide ((if c.truncated then PolicyDiffState.truncated else .ok) = .truncated)) = true
        cases c.truncated <;> rfl

theorem diffPolicy_policy (lib : Library) (name : String) (cur cand : LimiterSpec)
    (pc : Option PolicyCorpus) (topK : ℤ) :
    (diffPolicy lib name cur cand pc topK).policy = name := by
  rw [diffPolicy.eq_def]
  split
  · rfl
  split
  · rfl
  split
  · rfl
  split <;> rfl

/-- The flips of a policy, where both of its specs decide all of its arrivals. -/
def policyFlips (current candidate : PolicySet) (corpus : TraceCorpus) (name : String) :
    Option (List (String × Bool)) := do
  let cur ← (byName current.policies).lookup name
  let cand ← (byName candidate.policies).lookup name
  let pc ← corpus.lookup name
  let ds ← (coldDecisions cur.spec pc.arrivals).toOption
  let es ← (coldDecisions cand.spec pc.arrivals).toOption
  return flipsOf pc.arrivals ds es

theorem policyFlips_self {s : PolicySet} {corpus : TraceCorpus} {name : String}
    {fl : List (String × Bool)} (h : policyFlips s s corpus name = some fl) : fl = [] := by
  rw [policyFlips] at h
  cases hcur : (byName s.policies).lookup name with
  | none =>
    rw [hcur] at h
    cases h
  | some cur =>
    rw [hcur] at h
    cases hpc : corpus.lookup name with
    | none =>
      rw [hpc] at h
      cases h
    | some pc =>
      rw [hpc] at h
      simp only [Option.bind_eq_bind, Option.bind_some] at h
      cases hds : (coldDecisions cur.spec pc.arrivals).toOption with
      | none =>
        rw [hds] at h
        cases h
      | some ds =>
        rw [hds] at h
        rw [← Option.some.inj h]
        exact flipsOf_self pc.arrivals ds

theorem policyFlips_swap {current candidate : PolicySet} {corpus : TraceCorpus} {name : String}
    {fl : List (String × Bool)} (h : policyFlips current candidate corpus name = some fl) :
    policyFlips candidate current corpus name = some (fl.map fun f => (f.1, !f.2)) := by
  rw [policyFlips] at h ⊢
  cases hcur : (byName current.policies).lookup name with
  | none =>
    rw [hcur] at h
    cases h
  | some cur =>
    cases hcand : (byName candidate.policies).lookup name with
    | none =>
      rw [hcur, hcand] at h
      cases h
    | some cand =>
      cases hpc : corpus.lookup name with
      | none =>
        rw [hcur, hcand, hpc] at h
        cases h
      | some pc =>
        rw [hcur, hcand, hpc] at h
        simp only [Option.bind_eq_bind, Option.bind_some] at h ⊢
        cases hds : (coldDecisions cur.spec pc.arrivals).toOption with
        | none =>
          rw [hds] at h
          cases h
        | some ds =>
          cases hes : (coldDecisions cand.spec pc.arrivals).toOption with
          | none =>
            rw [hds, hes] at h
            cases h
          | some es =>
            rw [hds, hes] at h
            rw [← Option.some.inj h]
            exact congrArg some (flipsOf_swap pc.arrivals ds es)

/-! ### The loop over the policies -/

section Loop

variable {lib : Library} {currentByName : OrderedMap String Policy} {corpus : TraceCorpus}
  {topK : ℤ}

/-- The row of a candidate that has a baseline. -/
def rowOf (lib : Library) (currentByName : OrderedMap String Policy) (corpus : TraceCorpus)
    (topK : ℤ) (entry : String × Policy) : Option PolicyDiff :=
  (currentByName.lookup entry.1).map fun cur =>
    diffPolicy lib entry.1 cur.spec entry.2.spec (corpus.lookup entry.1) topK

/-- A candidate that has a baseline is recorded, or has no name that every object has. -/
def Found (currentByName : OrderedMap String Policy) (corpus : TraceCorpus) (name : String) :
    Prop :=
  name ∈ currentByName.keys → name ∈ corpus.keys ∨ name ∉ objectPrototype

theorem add_cases (acc : Progress) (entry : String × Policy) :
    (Found currentByName corpus entry.1 ∧
      ∃ acc', acc.add lib currentByName corpus topK entry = .ok acc' ∧
        acc'.diffs = acc.diffs ++ (rowOf lib currentByName corpus topK entry).toList) ∨
      ¬ Found currentByName corpus entry.1 ∧
        acc.add lib currentByName corpus topK entry = .error .arrivalsLength := by
  rw [Progress.add.eq_def, rowOf, Found, corpusEntry]
  cases hcur : currentByName.lookup entry.1 with
  | none =>
    have hnone : entry.1 ∉ currentByName.keys := OrderedMap.lookup_eq_none.mp hcur
    exact .inl ⟨fun hmem => absurd hmem hnone, acc, rfl, (List.append_nil _).symm⟩
  | some cur =>
    have hmem : entry.1 ∈ currentByName.keys := OrderedMap.mem_keys_of_lookup hcur
    cases hpc : corpus.lookup entry.1 with
    | some pc => exact .inl ⟨fun _ => .inl (OrderedMap.mem_keys_of_lookup hpc), _, rfl, rfl⟩
    | none =>
      have hnone : entry.1 ∉ corpus.keys := OrderedMap.lookup_eq_none.mp hpc
      by_cases hproto : entry.1 ∈ objectPrototype
      · right
        refine ⟨fun hfound => ?_, ?_⟩
        · exact (hfound hmem).elim hnone fun hnot => hnot hproto
        · dsimp only
          rw [if_pos hproto]
      · left
        refine ⟨fun _ => .inr hproto, ?_⟩
        dsimp only
        rw [if_neg hproto]
        exact ⟨_, rfl, rfl⟩

/-- **The loop ends where every candidate is found**, with a row for each that has a baseline. -/
theorem foldlM_add (entries : List (String × Policy)) (acc : Progress) :
    ((∃ p, entries.foldlM (Progress.add lib currentByName corpus topK) acc = .ok p) ↔
      ∀ entry ∈ entries, Found currentByName corpus entry.1) ∧
    ∀ p, entries.foldlM (Progress.add lib currentByName corpus topK) acc = .ok p →
      p.diffs = acc.diffs ++ entries.filterMap (rowOf lib currentByName corpus topK) := by
  induction entries generalizing acc with
  | nil =>
    refine ⟨⟨fun _ entry h => absurd h List.not_mem_nil, fun _ => ⟨acc, rfl⟩⟩, fun p h => ?_⟩
    obtain rfl := Except.ok.inj h
    exact (List.append_nil _).symm
  | cons entry entries ih =>
    rw [List.foldlM_cons]
    rcases @add_cases lib currentByName corpus topK acc entry with ⟨hfound, acc', hadd, hdiffs⟩ |
      ⟨hnot, hthrows⟩
    · obtain ⟨hends, hrows⟩ := ih acc'
      rw [hadd]
      refine ⟨hends.trans ⟨fun hall => ?_, fun hall => ?_⟩, fun p hp => ?_⟩
      · exact List.forall_mem_cons.mpr ⟨hfound, hall⟩
      · exact (List.forall_mem_cons.mp hall).2
      · rw [hrows p hp, hdiffs, List.append_assoc, List.filterMap_cons]
        cases rowOf lib currentByName corpus topK entry <;> rfl
    · rw [hthrows]
      refine ⟨⟨fun ⟨p, hp⟩ => ?_, fun hall => ?_⟩, fun p hp => ?_⟩
      · cases hp
      · exact absurd (hall entry List.mem_cons_self) hnot
      · cases hp

end Loop

/-! ### Every plan -/

/-- The policies of both sets. -/
def Common (current candidate : PolicySet) (name : String) : Prop :=
  name ∈ (byName current.policies).keys ∧ name ∈ (byName candidate.policies).keys

theorem mem_sortedCandidates {candByName : OrderedMap String Policy} {entry : String × Policy} :
    entry ∈ sortedCandidates candByName ↔ candByName.lookup entry.1 = some entry.2 := by
  rw [sortedCandidates, List.mem_insertionSort]
  exact ⟨OrderedMap.lookup_of_mem_entries, OrderedMap.mem_entries_of_lookup⟩

/-- When a plan is made, and the rows it has. -/
theorem plan_rows (lib : Library) (current candidate : PolicySet) (corpus : TraceCorpus)
    (options : PlanOptions) :
    ((∃ p, plan lib current candidate corpus options = .ok p) ↔
      ∀ name, Common current candidate name → name ∈ corpus.keys ∨ name ∉ objectPrototype) ∧
    ∀ p, plan lib current candidate corpus options = .ok p → p.diffs
      = (sortedCandidates (byName candidate.policies)).filterMap
          (rowOf lib (byName current.policies) corpus
            (options.topFlippedKeys.getD defaultTopFlippedKeys))
        ++ (candidate.unreplayable.getD []).map unreplayableRow := by
  obtain ⟨hends, hrows⟩ := @foldlM_add lib (byName current.policies) corpus
    (options.topFlippedKeys.getD defaultTopFlippedKeys)
      (sortedCandidates (byName candidate.policies)) ⟨0, false, []⟩
  have hfound : (∀ entry ∈ sortedCandidates (byName candidate.policies),
      Found (byName current.policies) corpus entry.1) ↔
        ∀ name, Common current candidate name → name ∈ corpus.keys ∨ name ∉ objectPrototype := by
    constructor
    · rintro hall name ⟨hcur, hcand⟩
      obtain ⟨cand, hlookup⟩ := OrderedMap.exists_lookup_of_mem_keys hcand
      exact hall (name, cand) (mem_sortedCandidates.mpr hlookup) hcur
    · intro hall entry hentry hcur
      exact hall entry.1 ⟨hcur, OrderedMap.mem_keys_of_lookup (mem_sortedCandidates.mp hentry)⟩
  rw [← hfound, ← hends, plan]
  cases hloop : (sortedCandidates (byName candidate.policies)).foldlM (Progress.add lib
      (byName current.policies) corpus (options.topFlippedKeys.getD defaultTopFlippedKeys))
      ⟨0, false, []⟩ with
  | error e =>
    refine ⟨⟨fun ⟨p, hp⟩ => ?_, fun ⟨p, hp⟩ => ?_⟩, fun p hp => ?_⟩
    · cases hp
    · cases hp
    · cases hp
  | ok progress =>
    refine ⟨⟨fun _ => ⟨_, rfl⟩, fun _ => ⟨_, rfl⟩⟩, fun p hp => ?_⟩
    rw [← Except.ok.inj hp, ← List.nil_append (List.filterMap _ _), ← hrows progress hloop]

/-- **The rows of a plan**: the exact ledger of a policy of both sets, or none. -/
theorem row_cases {lib : Library} {current candidate : PolicySet} {corpus : TraceCorpus}
    {options : PlanOptions} {p : Plan} (hplan : plan lib current candidate corpus options = .ok p)
    {d : PolicyDiff} (hd : d ∈ p.diffs) :
    Blank d ∨ d.ledgered = true ∧
      ∃ fl, policyFlips current candidate corpus d.policy = some fl ∧ Exact d fl := by
  rw [(plan_rows lib current candidate corpus options).2 p hplan] at hd
  rcases List.mem_append.mp hd with hrow | hrow
  · obtain ⟨entry, hentry, hrow⟩ := List.mem_filterMap.mp hrow
    obtain ⟨cur, hcur, rfl⟩ := Option.map_eq_some_iff.mp hrow
    have hcand := mem_sortedCandidates.mp hentry
    refine (diffPolicy_cases lib entry.1 cur.spec entry.2.spec (corpus.lookup entry.1) _).imp_right
      ?_
    rintro ⟨c, ds, es, hpc, hds, hes, hledgered, hexact⟩
    refine ⟨hledgered, _, ?_, hexact⟩
    rw [policyFlips, diffPolicy_policy, hcur, hcand, hpc]
    simp only [Option.bind_eq_bind, Option.bind_some, hds, hes, Except.toOption]
    rfl
  · obtain ⟨u, -, rfl⟩ := List.mem_map.mp hrow
    exact .inl (blank_zeroLedger u.name (by decide) (by decide) _)

/-- **A plan is made, and its ledger exact**, for any sets of policies with any specs, over any
traffic: it is made just where every policy of both sets was recorded or has no name that every
object has. It has a row for every policy of both sets and for every one that cannot be replayed. A
row without a ledger counts nothing; one that has a ledger counts the requests on which the
decisions of the two specs flip, one way and the other, and the keys of these. A set planned against
itself has no flips, and with the sets exchanged the flips go the other way. -/
theorem plan_exact (lib : Library) (current candidate : PolicySet) (corpus : TraceCorpus)
    (options : PlanOptions) :
    ((∃ p, plan lib current candidate corpus options = .ok p) ↔
      ∀ name, Common current candidate name → name ∈ corpus.keys ∨ name ∉ objectPrototype) ∧
    (∀ p, plan lib current candidate corpus options = .ok p →
      (∀ name, Common current candidate name → ∃ d ∈ p.diffs, d.policy = name) ∧
      (∀ u ∈ candidate.unreplayable.getD [], unreplayableRow u ∈ p.diffs) ∧
      ∀ d ∈ p.diffs, d.allowToDeny + d.denyToAllow = d.flippedTotal ∧
        (Blank d ∨ d.ledgered = true ∧
          ∃ fl, policyFlips current candidate corpus d.policy = some fl ∧ Exact d fl)) ∧
    (∀ p, plan lib current current corpus options = .ok p → ∀ d ∈ p.diffs,
      d.allowToDeny = 0 ∧ d.denyToAllow = 0 ∧ d.flippedTotal = 0 ∧ d.affectedKeys = 0) ∧
    ∀ p q, plan lib current candidate corpus options = .ok p →
      plan lib candidate current corpus options = .ok q →
      ∀ d ∈ p.diffs, ∀ d' ∈ q.diffs, d.policy = d'.policy →
        d.ledgered = true → d'.ledgered = true →
          d.allowToDeny = d'.denyToAllow ∧ d.denyToAllow = d'.allowToDeny ∧
            d.affectedKeys = d'.affectedKeys := by
  obtain ⟨hends, hrows⟩ := plan_rows lib current candidate corpus options
  refine ⟨hends, fun p hp => ⟨?_, ?_, fun d hd => ?_⟩, fun p hp d hd => ?_,
    fun p q hp hq d hd d' hd' hname hledgered hledgered' => ?_⟩
  · rintro name ⟨hcur, hcand⟩
    obtain ⟨cur, hcur⟩ := OrderedMap.exists_lookup_of_mem_keys hcur
    obtain ⟨cand, hcand⟩ := OrderedMap.exists_lookup_of_mem_keys hcand
    refine ⟨_, ?_, diffPolicy_policy lib name cur.spec cand.spec (corpus.lookup name)
      (options.topFlippedKeys.getD defaultTopFlippedKeys)⟩
    rw [hrows p hp]
    refine List.mem_append_left _ (List.mem_filterMap.mpr
      ⟨(name, cand), mem_sortedCandidates.mpr hcand, ?_⟩)
    exact Option.map_eq_some_iff.mpr ⟨cur, hcur, rfl⟩
  · intro u hu
    rw [hrows p hp]
    exact List.mem_append_right _ (List.mem_map_of_mem hu)
  · have hcases := row_cases hp hd
    refine ⟨?_, hcases⟩
    rcases hcases with hblank | ⟨-, fl, -, hexact⟩
    · rw [hblank.allowToDeny, hblank.denyToAllow, hblank.flippedTotal]
    · exact hexact.total
  · rcases row_cases hp hd with hblank | ⟨-, fl, hfl, hexact⟩
    · exact ⟨hblank.allowToDeny, hblank.denyToAllow, hblank.flippedTotal, hblank.affectedKeys⟩
    · rw [policyFlips_self hfl] at hexact
      exact ⟨hexact.allowToDeny, hexact.denyToAllow, hexact.flippedTotal, hexact.affectedKeys⟩
  · rcases row_cases hp hd with hblank | ⟨-, fl, hfl, hexact⟩
    · rw [hblank.ledgered] at hledgered
      cases hledgered
    rcases row_cases hq hd' with hblank | ⟨-, fl', hfl', hexact'⟩
    · rw [hblank.ledgered] at hledgered'
      cases hledgered'
    rw [hname] at hfl
    have hswap : fl' = fl.map fun f => (f.1, !f.2) :=
      Option.some.inj (hfl'.symm.trans (policyFlips_swap hfl))
    have hkeys : (fl.map fun f => (f.1, !f.2)).map Prod.fst = fl.map Prod.fst := by
      rw [List.map_map]
      rfl
    refine ⟨?_, ?_, ?_⟩
    · rw [hexact.allowToDeny, hexact'.denyToAllow, hswap, List.countP_map]
      refine List.countP_congr fun f _ => ?_
      rw [Function.comp_apply, Bool.not_not]
    · rw [hexact.denyToAllow, hexact'.allowToDeny, hswap, List.countP_map]
      rfl
    · rw [hexact.affectedKeys, hexact'.affectedKeys, hswap, hkeys]

/-- A policy of a name that every object has, in a set of its own. -/
def constructorSet : PolicySet := ⟨none, [⟨"constructor", oncePerSecond⟩], none, ""⟩

/-- **A plan over no traffic throws**, for a policy of a name that every object has. -/
theorem plan_throws :
    plan wholeLibrary constructorSet constructorSet .empty ⟨none⟩ = .error .arrivalsLength := by
  rfl

end ThrottleKit.PolicyPlans
