import ThrottleKit.Algorithms.Forecast
import ThrottleKit.Lib.JsonValue

/-!
# Building a strategy from a declarative spec

A spec names a strategy and gives its options. It is plain data, and its fields are looked at when
the strategy is built: first for those that must be there, then by the constructor of the strategy.
The name under which a limiter is built is part of some messages and of nothing else.

## What is left out

An error has the field and the bound that its message mentions, and not the text of the value that
was given. A field of another kind than its type is refused, also where the language would make a
value of the right kind of it. The checks for arithmetic that overflows are left out. A quota of an
unknown cadence is refused; the source builds one, whose periods are calendar months and whose state
is stored for no time.

## Main definitions

* `parseDuration` — a duration in milliseconds, or with a unit
* `gcra`, `tokenBucket`, `fixedWindow`, `slidingWindow`, `slidingWindowLog`, `quota` — the
  constructors, with their checks
* `buildStrategy` — the constructor a spec names, applied to its fields

## Main results

* `buildStrategy_name` — the name makes no difference to what is built
-/

namespace ThrottleKit.BuildStrategy

open JsonValue

/-- How building throws. -/
inductive BuildError
  /-- `${field}: required`. -/
  | required (field : String)
  /-- `${field}: unknown strategy`. -/
  | unknownStrategy (field : String)
  | notPositive (field : String)
  | notAtLeast (field : String) (min : ℚ)
  | notAtMost (field : String) (max : ℚ)
  | notInteger (field : String)
  /-- `period: cannot parse`. -/
  | period
  /-- The derived emission interval is out of range. -/
  | emissionInterval
  /-- `quota.offsetMinutes must be within ±840 (±14h)`. -/
  | offsetMinutes
  /-- `quota.weekStartsOn must be 0..6 (0=Sun … 6=Sat)`. -/
  | weekStartsOn
  /-- A cadence of no known kind. -/
  | resetCadence
deriving DecidableEq

/-! ### Validators -/

/-- `requirePositive(field, value)`. -/
def requirePositive (field : String) (value : Option JsonValue) :
    Except BuildError {x : ℚ // 0 < x} :=
  match value with
  | some (.num x) => if h : 0 < x then .ok ⟨x, h⟩ else .error (.notPositive field)
  | _ => .error (.notPositive field)

/-- `requireAtLeast(field, value, min)`. -/
def requireAtLeast (field : String) (value : Option JsonValue) (min : ℚ) :
    Except BuildError {x : ℚ // min ≤ x} :=
  match value with
  | some (.num x) => if h : min ≤ x then .ok ⟨x, h⟩ else .error (.notAtLeast field min)
  | _ => .error (.notAtLeast field min)

/-- `requireInteger(field, value)`. -/
def requireInteger (field : String) (value : Option JsonValue) : Except BuildError ℤ :=
  match value with
  | some (.num x) => if x.den = 1 then .ok x.num else .error (.notInteger field)
  | _ => .error (.notInteger field)

/-- `required(field, value)`. -/
def required (field : String) (value : Option JsonValue) : Except BuildError JsonValue :=
  match value with
  | none | some .null => .error (.required field)
  | some j => .ok j

/-- `value ?? other`. -/
def orElse (value other : Option JsonValue) : Option JsonValue :=
  match value with
  | none | some .null => other
  | some j => some j

/-! ### Durations -/

/-- What `\s` matches. -/
def isSpace (c : Char) : Bool :=
  c.toNat ∈ [9, 10, 11, 12, 13, 32, 160, 0x1680, 0x2028, 0x2029, 0x202F, 0x205F, 0x3000, 0xFEFF] ||
    (0x2000 ≤ c.toNat && c.toNat ≤ 0x200A)

/-- The number that digits stand for. -/
def ofDigits (ds : List Char) : ℕ := ds.foldl (fun n d => n * 10 + (d.toNat - 48)) 0

/-- The milliseconds of a unit; `ms` if absent. -/
def unitMs : List Char → Option ℚ
  | [] | ['m', 's'] => some 1
  | ['s'] => some 1000
  | ['m'] => some 60000
  | ['h'] => some 3600000
  | ['d'] => some 86400000
  | _ => none

/-- The milliseconds of `"<n><unit>"`. -/
def durationMs (cs : List Char) : Option ℚ :=
  let cs := cs.dropWhile isSpace
  let whole := cs.takeWhile Char.isDigit
  let rest := cs.dropWhile Char.isDigit
  if whole = [] then none
  else
    let fraction := match rest with
      | '.' :: rest => rest.takeWhile Char.isDigit
      | _ => []
    let rest := if fraction = [] then rest else rest.drop (1 + fraction.length)
    let unit := ((rest.dropWhile isSpace).reverse.dropWhile isSpace).reverse
    (unitMs unit).map fun ms => ofDigits (whole ++ fraction) / 10 ^ fraction.length * ms

/-- `parseDuration(period)`. -/
def parseDuration (period : JsonValue) : Except BuildError {x : ℚ // 0 < x} :=
  match period with
  | .num x => requirePositive "period" (some (.num x))
  | .str s =>
    match durationMs s.toList with
    | some ms => requirePositive "period" (some (.num ms))
    | none => .error .period
  | _ => .error .period

/-! ### Constructors -/

/-- `gcra({ limit, periodMs, burst })`. -/
def gcra (limit periodMs burst : Option JsonValue) : Except BuildError Peekable := do
  let ⟨l, limit_pos⟩ ← requirePositive "gcra.limit" limit
  let ⟨p, periodMs_pos⟩ ← requirePositive "gcra.periodMs" periodMs
  let ⟨b, one_le_burst⟩ ← requireAtLeast "gcra.burst" (orElse burst limit) 1
  if maxSafeInteger < p / l then throw .emissionInterval
  return .gcra ⟨l, p, b, limit_pos, periodMs_pos, one_le_burst⟩

/-- `tokenBucket({ capacity, refillPerSec })`. -/
def tokenBucket (capacity refillPerSec : Option JsonValue) : Except BuildError Peekable := do
  let ⟨c, capacity_pos⟩ ← requirePositive "tokenBucket.capacity" capacity
  let ⟨r, refillPerSec_pos⟩ ← requirePositive "tokenBucket.refillPerSec" refillPerSec
  let cfg : TokenBucket.Config := ⟨c, r, capacity_pos, refillPerSec_pos⟩
  if maxSafeInteger < cfg.ttlMs then
    throw (.notAtMost "tokenBucket: the derived refill time capacity/refillPerMs (ms)"
      maxSafeInteger)
  return .tokenBucket cfg

/-- `fixedWindow({ limit, windowMs })`. -/
def fixedWindow (limit windowMs : Option JsonValue) : Except BuildError Peekable := do
  let ⟨l, limit_pos⟩ ← requirePositive "fixedWindow.limit" limit
  let ⟨w, windowMs_pos⟩ ← requirePositive "fixedWindow.windowMs" windowMs
  return .fixedWindow ⟨l, w, limit_pos, windowMs_pos⟩

/-- `slidingWindow({ limit, windowMs, buckets })`, validated. -/
def slidingWindowConfig (limit windowMs buckets : Option JsonValue) :
    Except BuildError SlidingWindow.Config := do
  let ⟨l, limit_pos⟩ ← requirePositive "slidingWindow.limit" limit
  let ⟨w, windowMs_pos⟩ ← requirePositive "slidingWindow.windowMs" windowMs
  let S ← requireInteger "slidingWindow.buckets" (orElse buckets (some (.num 10)))
  if h : 1 ≤ S then
    if 100000 < S then throw (.notAtMost "slidingWindow.buckets" 100000)
    return ⟨l, w, S.toNat, limit_pos, windowMs_pos, by omega⟩
  else throw (.notAtLeast "slidingWindow.buckets" 1)

/-- `slidingWindow({ limit, windowMs, buckets })`. -/
def slidingWindow (limit windowMs buckets : Option JsonValue) : Except BuildError Peekable := do
  let cfg ← slidingWindowConfig limit windowMs buckets
  return .slidingWindow cfg

/-- `slidingWindowLog({ limit, windowMs })`. -/
def slidingWindowLog (limit windowMs : Option JsonValue) : Except BuildError Peekable := do
  let ⟨l, limit_pos⟩ ← requirePositive "slidingWindowLog.limit" limit
  let ⟨w, windowMs_pos⟩ ← requirePositive "slidingWindowLog.windowMs" windowMs
  return .slidingWindowLog ⟨l, w, limit_pos, windowMs_pos⟩

/-- An integer option, or its default. -/
def integerOr (field : String) (value : Option JsonValue) (default : ℤ) : Except BuildError ℤ :=
  match value with
  | none => .ok default
  | some j => requireInteger field (some j)

/-- A calendar cadence. -/
def calendarCadence : JsonValue → Option Calendar.CalendarCadence
  | .str "calendar-month" => some .month
  | .str "calendar-week" => some .week
  | .str "calendar-day" => some .day
  | _ => none

/-- `quota({ limit, resetCadence, periodMs, anchor, offsetMinutes, weekStartsOn, buckets })`. -/
def quota (limit : Option JsonValue) (resetCadence : JsonValue)
    (periodMs anchor offsetMinutes weekStartsOn buckets : Option JsonValue) :
    Except BuildError Peekable := do
  let ⟨l, limit_pos⟩ ← requirePositive "quota.limit" limit
  if isStr (some resetCadence) "rolling" then
    let _ ← requirePositive "quota.periodMs" periodMs
    let cfg ← slidingWindowConfig limit periodMs buckets
    return .rollingQuota cfg
  let offset ← integerOr "quota.offsetMinutes" offsetMinutes 0
  if offset < -840 ∨ 840 < offset then throw .offsetMinutes
  let week ← integerOr "quota.weekStartsOn" weekStartsOn 1
  if week < 0 ∨ 6 < week then throw .weekStartsOn
  let anchor ← integerOr "quota.anchor" anchor 0
  if isStr (some resetCadence) "fixed" then
    let ⟨p, periodMs_pos⟩ ← requirePositive "quota.periodMs" periodMs
    return .quota ⟨l, .fixed p anchor periodMs_pos, limit_pos⟩
  match calendarCadence resetCadence with
  | some cadence => return .quota ⟨l, .calendar cadence offset week, limit_pos⟩
  | none => throw .resetCadence

/-! ### Specs -/

/-- `config.limiters[${name}].${field}`. -/
def where_ (name field : String) : String := "config.limiters[" ++ name ++ "]." ++ field

/-- `periodOrMs(msField, "period")`. -/
def periodOrMs (name : String) (period msField : Option JsonValue) :
    Except BuildError JsonValue :=
  match period with
  | some j => (parseDuration j).map fun ms => .num ms.1
  | none =>
    match msField with
    | some j => .ok j
    | none => .error (.required (where_ name "period"))

/-- The period of a quota. -/
def quotaPeriod (period periodMs : Option JsonValue) : Except BuildError (Option JsonValue) :=
  match period with
  | some j => (parseDuration j).map fun ms => some (.num ms.1)
  | none => .ok periodMs

/-- `buildStrategy(name, spec)`. -/
def buildStrategy (name : String) (spec : JsonValue) : Except BuildError Peekable :=
  match spec.get "strategy" with
  | some (.str "gcra") => do
    let limit ← required (where_ name "limit") (spec.get "limit")
    let periodMs ← periodOrMs name (spec.get "period")
      (orElse (spec.get "periodMs") (spec.get "windowMs"))
    gcra (some limit) (some periodMs) (spec.get "burst")
  | some (.str "tokenBucket") => do
    let capacity ← required (where_ name "capacity") (spec.get "capacity")
    let refillPerSec ← required (where_ name "refillPerSec") (spec.get "refillPerSec")
    tokenBucket (some capacity) (some refillPerSec)
  | some (.str "fixedWindow") => do
    let limit ← required (where_ name "limit") (spec.get "limit")
    let windowMs ← periodOrMs name (spec.get "period") (spec.get "windowMs")
    fixedWindow (some limit) (some windowMs)
  | some (.str "slidingWindow") => do
    let limit ← required (where_ name "limit") (spec.get "limit")
    let windowMs ← periodOrMs name (spec.get "period") (spec.get "windowMs")
    slidingWindow (some limit) (some windowMs) (spec.get "buckets")
  | some (.str "slidingWindowLog") => do
    let limit ← required (where_ name "limit") (spec.get "limit")
    let windowMs ← periodOrMs name (spec.get "period") (spec.get "windowMs")
    slidingWindowLog (some limit) (some windowMs)
  | some (.str "quota") =>
    match spec.get "resetCadence" with
    | none => .error (.required (where_ name "resetCadence"))
    | some resetCadence => do
      let periodMs ← quotaPeriod (spec.get "period") (spec.get "periodMs")
      let limit ← required (where_ name "limit") (spec.get "limit")
      quota (some limit) resetCadence periodMs (spec.get "anchor") (spec.get "offsetMinutes")
        (spec.get "weekStartsOn") (spec.get "buckets")
  | _ => .error (.unknownStrategy (where_ name "strategy"))

/-! ### The name -/

/-- `x` and `y` throw both, or give the same. -/
def SameValue {α : Type} (x y : Except BuildError α) : Prop := x.toOption = y.toOption

theorem SameValue.bind {α β : Type} {x y : Except BuildError α} (h : SameValue x y)
    (f : α → Except BuildError β) : SameValue (x >>= f) (y >>= f) := by
  cases x with
  | error e =>
    cases y with
    | error e' => rfl
    | ok b => cases h
  | ok a =>
    cases y with
    | error e' => cases h
    | ok b =>
      obtain rfl : a = b := Option.some.inj h
      rfl

theorem SameValue.bind_right {α β : Type} (x : Except BuildError α)
    {f g : α → Except BuildError β} (h : ∀ a, SameValue (f a) (g a)) :
    SameValue (x >>= f) (x >>= g) := by
  cases x with
  | error e => rfl
  | ok a => exact h a

theorem SameValue.trans {α : Type} {x y z : Except BuildError α} (h : SameValue x y)
    (h' : SameValue y z) : SameValue x z := Eq.trans h h'

/-- The first of two computations may be exchanged, and the second for each of its values. -/
theorem SameValue.bind_congr {α β : Type} {x y : Except BuildError α} (h : SameValue x y)
    {f g : α → Except BuildError β} (hfg : ∀ a, SameValue (f a) (g a)) :
    SameValue (x >>= f) (y >>= g) := (h.bind f).trans (bind_right y hfg)

theorem SameValue.eq_ok {α : Type} {x y : Except BuildError α} (h : SameValue x y) {a : α}
    (hx : x = .ok a) : y = .ok a := by
  subst hx
  cases y with
  | error e => cases h
  | ok b =>
    obtain rfl : a = b := Option.some.inj h
    rfl

theorem sameValue_required (field field' : String) (value : Option JsonValue) :
    SameValue (required field value) (required field' value) := by
  rw [SameValue, required.eq_def, required.eq_def]
  split <;> rfl

theorem sameValue_periodOrMs (name name' : String) (period msField : Option JsonValue) :
    SameValue (periodOrMs name period msField) (periodOrMs name' period msField) := by
  rw [SameValue, periodOrMs.eq_def, periodOrMs.eq_def]
  cases period with
  | some j => rfl
  | none => cases msField <;> rfl

theorem sameValue_buildStrategy (name name' : String) (spec : JsonValue) :
    SameValue (buildStrategy name spec) (buildStrategy name' spec) := by
  rw [buildStrategy.eq_def name, buildStrategy.eq_def name']
  split
  · exact (sameValue_required _ _ _).bind_congr fun limit =>
      (sameValue_periodOrMs _ _ _ _).bind _
  · exact (sameValue_required _ _ _).bind_congr fun capacity =>
      (sameValue_required _ _ _).bind _
  · exact (sameValue_required _ _ _).bind_congr fun limit =>
      (sameValue_periodOrMs _ _ _ _).bind _
  · exact (sameValue_required _ _ _).bind_congr fun limit =>
      (sameValue_periodOrMs _ _ _ _).bind _
  · exact (sameValue_required _ _ _).bind_congr fun limit =>
      (sameValue_periodOrMs _ _ _ _).bind _
  · cases spec.get "resetCadence" with
    | none => rfl
    | some resetCadence =>
      exact .bind_right _ fun periodMs => (sameValue_required _ _ _).bind _
  · rfl

/-- **The name makes no difference to what is built.** -/
theorem buildStrategy_name {name : String} (name' : String) {spec : JsonValue} {m : Peekable}
    (h : buildStrategy name spec = .ok m) : buildStrategy name' spec = .ok m :=
  (sameValue_buildStrategy name name' spec).eq_ok h

end ThrottleKit.BuildStrategy
