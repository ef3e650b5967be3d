import ThrottleKit.Config.BuildStrategy
import ThrottleKit.Lib.JsonText
import ThrottleKit.Stores.MemoryStore

/-!
# Replaying a decision trace

A trace has the spec of a limiter and the checks that were made of it, each with its instant and its
decision. Replaying it builds the limiter again over a new in-process store, sets the clock to the
instant of each check, makes the check and compares the decisions.

A trace is plain data. It may come out of a JSON text, and is looked at before it is trusted.

## What is left out

The hash of a script is a parameter, and so is how numbers are written. Of a refusal the reason is
kept, with the message where a trace is malformed.

## Main definitions

* `Library` — the parameters
* `Step`, `Fingerprint`, `Trace` — what is recorded, and the same as a JSON value
* `assertWellFormedTrace`, `assertReplayable`, `divergence` — the guards and the comparison
* `drive`, `replay` — the engine
* `serializeTrace`, `parseTrace` — traces as texts
-/

namespace ThrottleKit.Replay

open BuildStrategy JsonValue

/-- What the testkit is built on. -/
structure Library where
  /-- `luaSha1(strategy)`. -/
  luaSha1 : Peekable → Option String
  /-- How `JSON` writes and reads numbers. -/
  numerals : JsonText.Numerals

/-- A spec, as an object. -/
abbrev LimiterSpec := {spec : JsonValue // spec.Distinct}

/-- `strategy.windowMs`. -/
def windowMs : Peekable → Option ℚ
  | .gcra cfg => some cfg.periodMs
  | .tokenBucket cfg => some cfg.ttlMs
  | .fixedWindow cfg => some cfg.windowMs
  | .slidingWindow cfg => some cfg.windowMs
  | .slidingWindowLog cfg => some cfg.windowMs
  | .quota cfg =>
    match cfg.resetCadence with
    | .fixed periodMs _ _ => some periodMs
    | .calendar .. => none
  | .rollingQuota cfg => some cfg.windowMs

/-! ### Traces -/

/-- One recorded decision. -/
structure Step where
  key : String
  cost : ℚ
  /-- `at`, the reading of the clock. -/
  instant : ℚ
  decision : Decision

/-- The identity of the recorded strategy. -/
structure StrategyIdentity where
  name : String
  limit : ℚ
  windowMs : Option ℚ
  ttlMs : ℚ

/-- What the limiter is built from again, and what the result is checked against. -/
structure Fingerprint where
  spec : LimiterSpec
  strategy : StrategyIdentity
  clock : String
  axis : String
  policy : Option String
  luaSha1 : Option String
  /-- `prefix`. -/
  keyPrefix : Option String

/-- `fingerprint({ spec, strategy, clock: "manual", prefix })`. -/
def fingerprint (lib : Library) (spec : LimiterSpec) (m : Peekable) (keyPrefix : Option String) :
    Fingerprint where
  spec := spec
  strategy := ⟨m.strategy.name, m.strategy.limit, windowMs m, m.strategy.ttlMs⟩
  clock := "manual"
  axis := "rate"
  policy := none
  luaSha1 := lib.luaSha1 m
  keyPrefix := keyPrefix

/-- A trace. -/
structure Trace where
  fingerprint : Fingerprint
  redacted : Bool
  truncated : Bool
  dropped : ℕ
  steps : List Step

/-- `TRACE_FORMAT_VERSION`. -/
def traceFormatVersion : ℚ := 1

/-- A decision as a JSON value. -/
def decisionJson (d : Decision) : JsonValue :=
  .obj [("allowed", .bool d.allowed), ("limit", .num d.limit), ("remaining", .num d.remaining),
    ("resetAt", .num d.resetAt), ("retryAfterMs", .num d.retryAfterMs)]

def Step.json (s : Step) : JsonValue :=
  .obj [("key", .str s.key), ("cost", .num s.cost), ("at", .num s.instant),
    ("decision", decisionJson s.decision)]

def StrategyIdentity.json (i : StrategyIdentity) : JsonValue :=
  .obj ([("name", .str i.name), ("limit", .num i.limit)] ++
    (optional "windowMs" (i.windowMs.map .num) ++ [("ttlMs", .num i.ttlMs)]))

def Fingerprint.json (fp : Fingerprint) : JsonValue :=
  .obj ([("spec", fp.spec.1), ("strategy", fp.strategy.json), ("clock", .str fp.clock),
    ("axis", .str fp.axis), ("policy", ofOption (fp.policy.map .str)),
    ("luaSha1", ofOption (fp.luaSha1.map .str))] ++ optional "prefix" (fp.keyPrefix.map .str))

/-- The trace as a JSON value. -/
def Trace.json (t : Trace) : JsonValue :=
  .obj [("version", .num traceFormatVersion), ("fingerprint", t.fingerprint.json),
    ("redacted", .bool t.redacted), ("truncated", .bool t.truncated),
    ("dropped", .num t.dropped), ("steps", .arr (t.steps.map Step.json))]

/-! ### Guards -/

/-- How the testkit throws. -/
inductive Refusal
  | traceFormatVersion
  | traceMalformed (message : String)
  | traceEmpty
  | traceTruncated
  | unrebuildableStrategy
  | nonManualClock
  | luaSha1Mismatch
  | strategyMismatch
  | unreplayableAxis
  | unreplayablePolicy
  | keyrefCollision (redacted : String)
  | identityDivergence
  /-- `buildStrategy` throws. -/
  | config (err : BuildError)
  /-- A check throws. -/
  | cost (err : CostError)
deriving DecidableEq

/-- `malformed(detail)`. -/
def malformed (detail : String) : Refusal :=
  .traceMalformed ("replay: malformed trace — " ++ detail)

/-- A number of a decision. -/
def readField (i : ℕ) (d : JsonValue) (field : String) : Except Refusal ℚ :=
  match d.get field with
  | some (.num x) => .ok x
  | _ => .error (malformed
      ("step " ++ toString i ++ ".decision." ++ field ++ " is not a finite number"))

/-- Step `i`, as the loop over the steps looks at it. -/
def readStep (i : ℕ) (s : JsonValue) : Except Refusal Step := do
  let step := "step " ++ toString i
  if !s.isObject then throw (malformed (step ++ " is not an object"))
  let key ← match s.get "key" with
    | some (.str key) => pure key
    | _ => throw (malformed (step ++ ".key is not a string"))
  let cost ← match s.get "cost" with
    | some (.num cost) =>
      if cost ≤ 0 then throw (malformed (step ++ ".cost must be a positive finite number"))
      else pure cost
    | _ => throw (malformed (step ++ ".cost must be a positive finite number"))
  let instant ← match s.get "at" with
    | some (.num t) => pure t
    | _ => throw (malformed (step ++ ".at must be a finite number"))
  let d ← match s.get "decision" with
    | some d =>
      if d.isObject then pure d else throw (malformed (step ++ ".decision is missing"))
    | none => throw (malformed (step ++ ".decision is missing"))
  let allowed ← match d.get "allowed" with
    | some (.bool b) => pure b
    | _ => throw (malformed (step ++ ".decision.allowed is not a boolean"))
  let limit ← readField i d "limit"
  let remaining ← readField i d "remaining"
  let resetAt ← readField i d "resetAt"
  let retryAfterMs ← readField i d "retryAfterMs"
  return ⟨key, cost, instant, ⟨allowed, limit, remaining, resetAt, retryAfterMs⟩⟩

/-- The steps from number `i` on. -/
def readSteps (i : ℕ) : List JsonValue → Except Refusal (List Step)
  | [] => .ok []
  | s :: rest => do
    let step ← readStep i s
    let steps ← readSteps (i + 1) rest
    return step :: steps

/-- A property that has to be an object. -/
def readObject (j : JsonValue) (name what : String) : Except Refusal JsonValue :=
  match j.get name with
  | some p => if p.isObject then .ok p else .error (malformed what)
  | none => .error (malformed what)

/-- `assertWellFormedTrace(trace)`, with the steps it has looked at. -/
def assertWellFormedTrace (t : JsonValue) : Except Refusal (List Step) := do
  if !t.isObject then throw (malformed "not an object")
  let fp ← readObject t "fingerprint" "fingerprint is missing or not an object"
  let _ ← readObject fp "spec" "fingerprint.spec is missing or not an object"
  let _ ← readObject fp "strategy" "fingerprint.strategy is missing or not an object"
  match t.get "dropped" with
  | none | some (.num _) => pure ()
  | _ => throw (malformed "dropped is present but not a number")
  match t.get "steps" with
  | some (.arr steps) => readSteps 0 steps
  | _ => throw (malformed "steps is missing or not an array")

/-- `REBUILDABLE_STRATEGIES`. -/
def rebuildableStrategies : List String :=
  ["gcra", "tokenBucket", "fixedWindow", "slidingWindow", "slidingWindowLog", "quota"]

/-- `isRebuildableStrategy(spec.strategy)`. -/
def isRebuildable (spec : JsonValue) : Bool :=
  match spec.get "strategy" with
  | some (.str name) => name ∈ rebuildableStrategies
  | _ => false

/-- Whether a property is `x`, or missing where there is none. -/
def isOptionalNum (j : Option JsonValue) (x : Option ℚ) : Bool :=
  match x with
  | some y => isNum j y
  | none => j.isNone

/-- Whether a property is the string `s`, or `null` where there is none. -/
def isStrOrNull (j : Option JsonValue) (s : Option String) : Bool :=
  match s with
  | some t => isStr j t
  | none => isNull j

/-- The property of a property. -/
def get₂ (j : JsonValue) (name name' : String) : Option JsonValue :=
  (j.get name).bind fun p => p.get name'

/-- The spec of a fingerprint. -/
def specOf (fp : JsonValue) : JsonValue := (fp.get "spec").getD .null

/-- `assertReplayable(fp)`. -/
def assertReplayable (fp : JsonValue) : Except Refusal Unit :=
  if !isStr (fp.get "clock") "manual" then .error .nonManualClock
  else if !isStr (fp.get "axis") "rate" then .error .unreplayableAxis
  else if !isNull (fp.get "policy") then .error .unreplayablePolicy
  else if !isRebuildable (specOf fp) then .error .unrebuildableStrategy
  else .ok ()

/-- `assertReplayable(fp, rebuilt)`. -/
def assertReplayableAs (lib : Library) (fp : JsonValue) (rebuilt : Peekable) :
    Except Refusal Unit := do
  assertReplayable fp
  if !(isStr (get₂ fp "strategy" "name") rebuilt.strategy.name
      && isNum (get₂ fp "strategy" "limit") rebuilt.strategy.limit
      && isOptionalNum (get₂ fp "strategy" "windowMs") (windowMs rebuilt)) then
    throw .strategyMismatch
  if !isStrOrNull (fp.get "luaSha1") (lib.luaSha1 rebuilt) then throw .luaSha1Mismatch

/-- The fingerprint of a trace. -/
def fingerprintOf (t : JsonValue) : JsonValue := (t.get "fingerprint").getD .null

/-- Whether a trace says that steps are missing: its flag is set, or it has dropped some. -/
def saysTruncated (t : JsonValue) : Bool :=
  truthy (t.get "truncated") ||
  (match t.get "dropped" with
    | some (.num n) => 0 < n
    | _ => false)

/-- `assertReplayableTrace(trace)`, with the steps. -/
def assertReplayableTrace (t : JsonValue) : Except Refusal (List Step) := do
  let steps ← assertWellFormedTrace t
  if saysTruncated t then throw .traceTruncated
  if steps.isEmpty then throw .traceEmpty
  assertReplayable (fingerprintOf t)
  return steps

/-! ### Comparing decisions -/

/-- A field of a decision that differs. -/
inductive FieldDiff
  | allowed (recorded replayed : Bool)
  | number (field : String) (recorded replayed : ℚ)
deriving DecidableEq

/-- A number of two decisions. -/
def diffNumber (field : String) (recorded replayed : ℚ) : List FieldDiff :=
  if recorded ≠ replayed then [.number field recorded replayed] else []

/-- `diffDecision(recorded, replayed)`. -/
def diffDecision (recorded replayed : Decision) : List FieldDiff :=
  (if recorded.allowed ≠ replayed.allowed then [.allowed recorded.allowed replayed.allowed]
    else []) ++
  diffNumber "limit" recorded.limit replayed.limit ++
  diffNumber "remaining" recorded.remaining replayed.remaining ++
  diffNumber "resetAt" recorded.resetAt replayed.resetAt ++
  diffNumber "retryAfterMs" recorded.retryAfterMs replayed.retryAfterMs

/-- A step at which the replay diverged. -/
structure DivergenceStep where
  index : ℕ
  key : String
  cost : ℚ
  instant : ℚ
  diffs : List FieldDiff
  flipped : Bool
deriving DecidableEq

/-- `diffs.some((d) => d.field === "allowed")`. -/
def flips (diffs : List FieldDiff) : Bool :=
  diffs.any fun d => match d with
    | .allowed _ _ => true
    | .number _ _ _ => false

/-- The divergent steps, from number `i` on. -/
def divergentFrom (i : ℕ) : List Step → List Decision → List DivergenceStep
  | s :: steps, d :: decisions =>
    let diffs := diffDecision s.decision d
    let rest := divergentFrom (i + 1) steps decisions
    if diffs.isEmpty then rest else ⟨i, s.key, s.cost, s.instant, diffs, flips diffs⟩ :: rest
  | _, _ => []

/-- The comparison of a replay with the recording. -/
structure DivergenceReport where
  total : ℕ
  divergent : ℕ
  flipped : ℕ
  firstDivergenceIndex : ℤ
  steps : List DivergenceStep
deriving DecidableEq

/-- `divergence(recorded, replayed)`. -/
def divergence (recorded : List Step) (replayed : List Decision) : DivergenceReport :=
  let steps := divergentFrom 0 recorded replayed
  ⟨min recorded.length replayed.length, steps.length, steps.countP DivergenceStep.flipped,
    match steps.head? with
    | some s => s.index
    | none => -1, steps⟩

/-- `assertAcceptable(report)`. -/
def assertAcceptable (report : DivergenceReport) : Except Refusal Unit :=
  if report.divergent = 0 then .ok () else .error .identityDivergence

/-! ### The engine -/

/-- The wheel of a store that is built without options. -/
def storeOptions : TimingWheel.Options := ⟨1000, 512⟩

/-- What a limiter that was built from a spec keeps. -/
abbrev Memory (m : Peekable) := MemoryStore.Memory m.State

/-- `new MemoryStore({ clock, sweepIntervalMs: 0 })`, with the clock at `now`. -/
def newStore (m : Peekable) (now : ℚ) : Memory m := .start storeOptions now

/-- `rebuildLimiter(spec, { name })`, as the strategy of the limiter. -/
def rebuild (name : String) (spec : JsonValue) : Except Refusal Peekable :=
  if !isRebuildable spec then .error .unrebuildableStrategy
  else match buildStrategy name spec with
    | .ok m => .ok m
    | .error err => .error (.config err)

/-- `limiter.checkSync(key, cost)`, with the clock at `now`. -/
def checkSync (m : Peekable) (keyPrefix : Option String) (memory : Memory m) (key : String)
    (cost now : ℚ) : Memory m × Except CostError Decision :=
  match requireCost cost with
  | .error err => (memory, .error err)
  | .ok () =>
    let r := MemoryStore.applySync storeOptions memory (prefixer keyPrefix key)
      (fun state => MemoryStore.ofOutcome (m.strategy.check state now cost)) now
    (r.1, .ok r.2)

/-- The instant at which the clock of a replay starts. -/
def firstInstant (steps : List Step) : ℚ := (steps.head?.map Step.instant).getD 0

/-- The checks of `drive`, in order. -/
def driveSteps (m : Peekable) (keyPrefix : Option String) (memory : Memory m) :
    List Step → Except Refusal (List Decision)
  | [] => .ok []
  | s :: steps =>
    let r := checkSync m keyPrefix memory s.key s.cost s.instant
    match r.2 with
    | .error err => .error (.cost err)
    | .ok d => (driveSteps m keyPrefix r.1 steps).map fun ds => d :: ds

/-- The prefix of a fingerprint. -/
def prefixOf (fp : JsonValue) : Option String :=
  match fp.get "prefix" with
  | some (.str p) => some p
  | _ => none

/-- `fingerprint.strategy.name`. -/
def nameOf (fp : JsonValue) : String :=
  match get₂ fp "strategy" "name" with
  | some (.str name) => name
  | _ => "replay"

/-- `drive(trace, spec, verify)`. -/
def drive (lib : Library) (t : JsonValue) (steps : List Step) (spec : JsonValue) (verify : Bool) :
    Except Refusal (List Decision) := do
  let m ← rebuild (nameOf (fingerprintOf t)) spec
  if verify then assertReplayableAs lib (fingerprintOf t) m
  driveSteps m (prefixOf (fingerprintOf t)) (newStore m (firstInstant steps)) steps

/-- What `replay` takes besides the trace. -/
structure ReplayOptions where
  candidate : Option JsonValue
  skipIdentityCheck : Bool

/-- What it returns. -/
structure ReplayResult where
  replayed : List Decision
  divergence : DivergenceReport
  spec : JsonValue
  isCandidate : Bool

/-- `replay(trace, options)`. -/
def replay (lib : Library) (t : JsonValue) (options : ReplayOptions) :
    Except Refusal ReplayResult := do
  let steps ← assertReplayableTrace t
  let spec := specOf (fingerprintOf t)
  match options.candidate with
  | none =>
    let replayed ← drive lib t steps spec true
    let div := divergence steps replayed
    assertAcceptable div
    return ⟨replayed, div, spec, false⟩
  | some candidate =>
    if !options.skipIdentityCheck then
      let replayed ← drive lib t steps spec true
      assertAcceptable (divergence steps replayed)
    let replayed ← drive lib t steps candidate false
    return ⟨replayed, divergence steps replayed, candidate, true⟩

/-! ### Texts -/

/-- `serializeTrace(trace)`. -/
def serializeTrace (lib : Library) (t : JsonValue) : String :=
  JsonText.stringify lib.numerals t

/-- `parseTrace(text)`. -/
def parseTrace (lib : Library) (text : String) : Except Refusal JsonValue := do
  match JsonText.parse lib.numerals text with
  | some (.obj properties) =>
    if !isNum ((JsonValue.obj properties).get "version") traceFormatVersion then
      throw .traceFormatVersion
    let _ ← assertWellFormedTrace (.obj properties)
    return .obj properties
  | _ => throw .traceFormatVersion

/-! ### Traces as JSON values -/

theorem readStep_json {s : Step} (h : 0 < s.cost) (i : ℕ) : readStep i s.json = .ok s := by
  rw [readStep]
  simp [Step.json, decisionJson, readField, JsonValue.get, isObject, List.lookup_cons, not_le.mpr h,
    bind, Except.bind, pure, Except.pure]

theorem readSteps_json {steps : List Step} (h : ∀ s ∈ steps, 0 < s.cost) (i : ℕ) :
    readSteps i (steps.map Step.json) = .ok steps := by
  induction steps generalizing i with
  | nil => rfl
  | cons s steps ih =>
    have hrest := ih (fun s hs => h s (List.mem_cons_of_mem _ hs)) (i + 1)
    rw [List.map_cons, readSteps, readStep_json (h s List.mem_cons_self), hrest]
    rfl

theorem StrategyIdentity.get_windowMs (i : StrategyIdentity) :
    i.json.get "windowMs" = i.windowMs.map .num := by
  cases h : i.windowMs with
  | none => rw [StrategyIdentity.json, h]; rfl
  | some x => rw [StrategyIdentity.json, h]; rfl

theorem Fingerprint.get_prefix (fp : Fingerprint) :
    fp.json.get "prefix" = fp.keyPrefix.map .str := by
  cases h : fp.keyPrefix with
  | none => rw [Fingerprint.json, h]; rfl
  | some x => rw [Fingerprint.json, h]; rfl

theorem prefixOf_json (fp : Fingerprint) : prefixOf fp.json = fp.keyPrefix := by
  rw [prefixOf, fp.get_prefix]
  cases fp.keyPrefix <;> rfl

theorem specOf_json (fp : Fingerprint) : specOf fp.json = fp.spec.1 := rfl

theorem fingerprintOf_json (t : Trace) : fingerprintOf t.json = t.fingerprint.json := rfl

theorem isObject_of_isRebuildable {spec : JsonValue} (h : isRebuildable spec = true) :
    spec.isObject = true := by
  cases spec with
  | obj properties => rfl
  | _ => cases h

theorem assertWellFormedTrace_json {t : Trace} (hspec : isRebuildable t.fingerprint.spec.1 = true)
    (h : ∀ s ∈ t.steps, 0 < s.cost) : assertWellFormedTrace t.json = .ok t.steps := by
  have hobj := isObject_of_isRebuildable hspec
  have hfp : readObject t.json "fingerprint" "fingerprint is missing or not an object"
      = .ok t.fingerprint.json := rfl
  have hread : readObject t.fingerprint.json "spec" "fingerprint.spec is missing or not an object"
      = .ok t.fingerprint.spec.1 := if_pos hobj
  have hid : readObject t.fingerprint.json "strategy"
      "fingerprint.strategy is missing or not an object" = .ok t.fingerprint.strategy.json := rfl
  rw [assertWellFormedTrace, hfp]
  simp only [bind, Except.bind, hread, hid]
  exact readSteps_json h 0

theorem saysTruncated_json {t : Trace} (htruncated : t.truncated = false)
    (hdropped : t.dropped = 0) : saysTruncated t.json = false := by
  have ht : t.json.get "truncated" = some (.bool t.truncated) := rfl
  have hd : t.json.get "dropped" = some (.num t.dropped) := rfl
  rw [saysTruncated, ht, hd, htruncated, hdropped]
  simp [truthy]

theorem assertReplayable_json {fp : Fingerprint} (hspec : isRebuildable fp.spec.1 = true)
    (hclock : fp.clock = "manual") (haxis : fp.axis = "rate") (hpolicy : fp.policy = none) :
    assertReplayable fp.json = .ok () := by
  have hc : fp.json.get "clock" = some (.str fp.clock) := rfl
  have ha : fp.json.get "axis" = some (.str fp.axis) := rfl
  have hp : fp.json.get "policy" = some (ofOption (fp.policy.map .str)) := rfl
  rw [assertReplayable, hc, ha, hp, specOf_json, hspec, hclock, haxis, hpolicy]
  simp [ofOption]
/-- What a fingerprint says of the strategy it was taken of. -/
theorem assertReplayableAs_fingerprint (lib : Library) {spec : LimiterSpec} (m : Peekable)
    (keyPrefix : Option String) (hspec : isRebuildable spec.1 = true) :
    assertReplayableAs lib (fingerprint lib spec m keyPrefix).json m = .ok () := by
  have hguard : assertReplayable (fingerprint lib spec m keyPrefix).json = .ok () :=
    assertReplayable_json hspec rfl rfl rfl
  have hname : get₂ (fingerprint lib spec m keyPrefix).json "strategy" "name"
      = some (.str m.strategy.name) := rfl
  have hlimit : get₂ (fingerprint lib spec m keyPrefix).json "strategy" "limit"
      = some (.num m.strategy.limit) := rfl
  have hwindow : get₂ (fingerprint lib spec m keyPrefix).json "strategy" "windowMs"
      = (windowMs m).map .num := StrategyIdentity.get_windowMs _
  have hsha : (fingerprint lib spec m keyPrefix).json.get "luaSha1"
      = some (ofOption ((lib.luaSha1 m).map .str)) := rfl
  have hopt : isOptionalNum ((windowMs m).map .num) (windowMs m) = true := by
    cases windowMs m with
    | none => rfl
    | some x => exact isNum_self x
  have hnull : isStrOrNull (some (ofOption ((lib.luaSha1 m).map .str))) (lib.luaSha1 m) = true := by
    cases lib.luaSha1 m with
    | none => rfl
    | some s => exact isStr_self s
  rw [assertReplayableAs, hguard, hname, hlimit, hwindow, hsha, hopt, hnull]
  simp [bind, Except.bind, pure, Except.pure]

theorem allDistinct_steps (steps : List Step) : AllDistinct (steps.map Step.json) := by
  induction steps with
  | nil => trivial
  | cons s steps ih =>
    refine ⟨?_, ih⟩
    simp [Step.json, decisionJson, Distinct, PropertiesDistinct]

theorem distinct_strategyIdentity (i : StrategyIdentity) : i.json.Distinct := by
  cases h : i.windowMs with
  | none => simp [StrategyIdentity.json, h, JsonValue.optional, Distinct, PropertiesDistinct]
  | some x => simp [StrategyIdentity.json, h, JsonValue.optional, Distinct, PropertiesDistinct]

theorem distinct_ofOption {o : Option String} : (ofOption (o.map .str)).Distinct := by
  cases o <;> simp [ofOption, Distinct]

theorem distinct_fingerprint (fp : Fingerprint) : fp.json.Distinct := by
  cases h : fp.keyPrefix with
  | none =>
    simp [Fingerprint.json, h, JsonValue.optional, Distinct, PropertiesDistinct, fp.spec.2,
      distinct_strategyIdentity, distinct_ofOption]
  | some x =>
    simp [Fingerprint.json, h, JsonValue.optional, Distinct, PropertiesDistinct, fp.spec.2,
      distinct_strategyIdentity, distinct_ofOption]

/-- **A trace is written as an object.** -/
theorem distinct_trace (t : Trace) : t.json.Distinct := by
  simp [Trace.json, Distinct, PropertiesDistinct, distinct_fingerprint, allDistinct_steps]

/-- **A trace is read back.** -/
theorem parseTrace_serializeTrace (lib : Library) {t : Trace}
    (hspec : isRebuildable t.fingerprint.spec.1 = true) (hcosts : ∀ s ∈ t.steps, 0 < s.cost)
    (hnums : ∀ x ∈ t.json.numbers, lib.numerals.Faithful x) :
    parseTrace lib (serializeTrace lib t.json) = .ok t.json := by
  have hparse := JsonText.parse_stringify (distinct_trace t) hnums
  have hwell := assertWellFormedTrace_json hspec hcosts
  have hversion : isNum (t.json.get "version") traceFormatVersion = true :=
    isNum_self traceFormatVersion
  rw [parseTrace, serializeTrace, hparse]
  rw [Trace.json] at hwell hversion ⊢
  simp only [hversion, hwell, bind, Except.bind, pure, Except.pure]
  rfl

/-! ### Replaying what was decided -/

theorem diffDecision_self (d : Decision) : diffDecision d d = [] := by
  simp [diffDecision, diffNumber]

theorem divergentFrom_self (steps : List Step) (i : ℕ) :
    divergentFrom i steps (steps.map Step.decision) = [] := by
  induction steps generalizing i with
  | nil => rfl
  | cons s steps ih =>
    rw [List.map_cons, divergentFrom, diffDecision_self, ih]
    rfl

/-- The report on decisions that are all the recorded ones. -/
theorem divergence_self (steps : List Step) :
    divergence steps (steps.map Step.decision) = ⟨steps.length, 0, 0, -1, []⟩ := by
  rw [divergence, divergentFrom_self]
  simp

theorem isRebuildable_of_rebuild {name : String} {spec : JsonValue} {m : Peekable}
    (h : rebuild name spec = .ok m) : isRebuildable spec = true := by
  rw [rebuild] at h
  cases hspec : isRebuildable spec with
  | true => rfl
  | false =>
    rw [hspec] at h
    cases h

/-- The name makes no difference to what is built again. -/
theorem rebuild_name {name : String} (name' : String) {spec : JsonValue} {m : Peekable}
    (h : rebuild name spec = .ok m) : rebuild name' spec = .ok m := by
  have hspec := isRebuildable_of_rebuild h
  rw [rebuild, hspec] at h ⊢
  cases hbuild : buildStrategy name spec with
  | error err =>
    rw [hbuild] at h
    cases h
  | ok m' =>
    rw [hbuild] at h
    obtain rfl : m' = m := Except.ok.inj h
    rw [buildStrategy_name name' hbuild]
    rfl

/-- A trace that has steps, and none missing, passes the guards. -/
theorem assertReplayableTrace_json (lib : Library) {name : String} {spec : LimiterSpec}
    {m : Peekable} (hbuild : rebuild name spec.1 = .ok m) {t : Trace} {keyPrefix : Option String}
    (hfp : t.fingerprint = fingerprint lib spec m keyPrefix) (htruncated : t.truncated = false)
    (hdropped : t.dropped = 0) (hne : t.steps ≠ []) (hcosts : ∀ s ∈ t.steps, 0 < s.cost) :
    assertReplayableTrace t.json = .ok t.steps := by
  have hspec : isRebuildable t.fingerprint.spec.1 = true := by
    rw [hfp]
    exact isRebuildable_of_rebuild hbuild
  have hempty : t.steps.isEmpty = false := by simpa using hne
  rw [assertReplayableTrace, assertWellFormedTrace_json hspec hcosts,
    saysTruncated_json htruncated hdropped, fingerprintOf_json,
    assertReplayable_json hspec (by rw [hfp]; rfl) (by rw [hfp]; rfl) (by rw [hfp]; rfl)]
  simp [bind, Except.bind, pure, Except.pure, hempty]

/-- **A trace replays when the checks it has give the decisions it has**, on the strategy that its
spec builds. -/
theorem replay_of_driveSteps (lib : Library) {name : String} {spec : LimiterSpec} {m : Peekable}
    (hbuild : rebuild name spec.1 = .ok m) {t : Trace} {keyPrefix : Option String}
    (hfp : t.fingerprint = fingerprint lib spec m keyPrefix) (htruncated : t.truncated = false)
    (hdropped : t.dropped = 0) (hne : t.steps ≠ []) (hcosts : ∀ s ∈ t.steps, 0 < s.cost)
    (hdrive : driveSteps m keyPrefix (newStore m (firstInstant t.steps)) t.steps
      = .ok (t.steps.map Step.decision)) (skip : Bool) :
    replay lib t.json ⟨none, skip⟩ = .ok ⟨t.steps.map Step.decision,
      ⟨t.steps.length, 0, 0, -1, []⟩, spec.1, false⟩ := by
  have hspec := isRebuildable_of_rebuild hbuild
  have hspecOf : specOf (fingerprintOf t.json) = spec.1 := by
    rw [fingerprintOf_json, specOf_json, hfp]
    rfl
  have hguard := assertReplayableTrace_json lib hbuild hfp htruncated hdropped hne hcosts
  have hrun : drive lib t.json t.steps spec.1 true = .ok (t.steps.map Step.decision) := by
    have hverify := assertReplayableAs_fingerprint lib m keyPrefix hspec
    rw [drive, rebuild_name _ hbuild, fingerprintOf_json, prefixOf_json, hfp]
    simp only [bind, Except.bind, if_true, hverify]
    exact hdrive
  rw [replay, hguard]
  simp only [bind, Except.bind, pure, Except.pure, hspecOf, hrun, divergence_self,
    assertAcceptable, if_true]

end ThrottleKit.Replay
