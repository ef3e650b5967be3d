import ThrottleKit.Core.Strategy
import ThrottleKit.Federation.RedisCoordinator
import ThrottleKit.Federation.WindowCoupled

/-!
# The policies of a configuration

A configuration names limiters. A plain one is a rate limit on the shared store, under a key
prefix that is its own, else the default one of the file, else its name. One with a `federated`
block leases from a coordinator on the same server, under the coordinator's prefix.

What a limiter calls `key`, the server knows by the limiter's *scope* followed by `key`. The scope
of a federated policy does not mention its name.

## What is left out

The strategy of a policy is what `buildStrategy` makes of its fields. Policies with a `twoTier`
block are limiters too, but of two tiers, and are left out; so are those with a block for a budget,
for fair shares or for concurrency, which are no limiters. The region of a federated policy is not
used by the engine.

## Main definitions

* `ConfigFile`, `Options` — the file, and what it is loaded with
* `BuiltLimiter`, `buildLimiter`, `buildFederated`, `buildServiceConfig` — the loader
* `BuiltLimiter.scope`, `Clash`, `Separated` — what the keys of a policy begin with, and when two
  policies may have one in common

## Main results

* `clash_iff` — scopes clash when some key under one is some key under the other
* `separated_iff` — so policies are separated when no two of them have a key in common
-/

namespace ThrottleKit.Policies

variable {S : Type}

/-- The `federated` block of a policy. -/
structure FederatedConfig where
  batch : Option ℚ
  /-- `prefix`. -/
  keyPrefix : Option String

/-- A named limiter in the file. -/
structure LimiterSpec (S : Type) where
  /-- What `buildStrategy` makes of the spec. -/
  strategy : Strategy S
  /-- `strategy.windowMs`. -/
  windowMs : Option ℚ
  /-- `prefix`. -/
  keyPrefix : Option String
  federated : Option FederatedConfig

/-- The file. Its limiters are the entries of a record, so no name comes twice. -/
structure ConfigFile (S : Type) where
  /-- `defaults.prefix`. -/
  defaultPrefix : Option String
  limiters : List (String × LimiterSpec S)
  nodup : (limiters.map Prod.fst).Nodup

/-- What the file is loaded with. -/
structure Options where
  /-- The key prefix of the shared store. -/
  storePrefix : Option String
  /-- Whether there is a `makeCoordinator`. -/
  coordinates : Bool
  /-- How Lua writes a number into a field name. -/
  luaText : ℚ → String

/-- How loading throws. -/
inductive LoadError
  | notFederatable (name strategy : String)
  | noCoordinator (name : String)
  | windowMs (got : ℚ)
  | budgetPerWindow (got : ℚ)
  | batch (got : ℚ)

/-- The message of the thrown error. -/
def LoadError.message : LoadError → String
  | .notFederatable name strategy =>
    "config.limiters[" ++ name ++ "].federated: requires a window-coupled strategy with a fixed " ++
      "window (fixedWindow / slidingWindow / a fixed-cadence quota); \"" ++ strategy ++
      "\" cannot be federated (a continuous-rate strategy like gcra / tokenBucket has no " ++
      "discrete window boundary)"
  | .noCoordinator name =>
    "config.limiters[" ++ name ++ "].federated: needs a shared coordinator store — run with " ++
      "--redis or --postgres (memory / dynamodb cannot federate)"
  | .windowMs got => "windowMs must be a finite number >= 1, got " ++ toString got
  | .budgetPerWindow got => "budgetPerWindow must be a finite number >= 1, got " ++ toString got
  | .batch got => "batch must be a finite number >= 1, got " ++ toString got

/-- A limiter as built. -/
inductive BuiltLimiter (S : Type)
  /-- `rateLimit({ strategy, store, prefix })`. -/
  | rateLimit (strategy : Strategy S) (keyPrefix : String)
  /-- `federate({ strategy, coordinator, .. })`, with the prefix of the coordinator. -/
  | federated (engine : WindowCoupled.Config) (coordinator : RedisCoordinator.Config)
    (keyPrefix : String)

/-- `FEDERATABLE_STRATEGIES`. -/
def federatableStrategies : List String := ["fixedWindow", "slidingWindow", "quota"]

/-- The default key prefix of a coordinator. -/
def defaultCoordinatorPrefix : String := "tk:fed"

theorem one_le_healthCheckMs : (1 : ℚ) ≤ 5000 := by norm_num

/-- `buildLimiter(name, spec, options, defaultPrefix)`. -/
def buildLimiter (defaultPrefix : Option String) (name : String) (spec : LimiterSpec S) :
    BuiltLimiter S :=
  .rateLimit spec.strategy ((spec.keyPrefix.orElse fun _ => defaultPrefix).getD name)

/-- `buildFederated(name, spec, options)`, with the coordinator and the engine it builds. -/
def buildFederated (o : Options) (name : String) (spec : LimiterSpec S) (fed : FederatedConfig) :
    Except LoadError (BuiltLimiter S) :=
  match spec.windowMs.filter fun w => 0 < w ∧ spec.strategy.name ∈ federatableStrategies with
  | none => .error (.notFederatable name spec.strategy.name)
  | some windowMs =>
    if !o.coordinates then .error (.noCoordinator name)
    else if hwindow : windowMs < 1 then .error (.windowMs windowMs)
    else if hbudget : spec.strategy.limit < 1 then .error (.budgetPerWindow spec.strategy.limit)
    else if hbatch : fed.batch.getD 16 < 1 then .error (.batch (fed.batch.getD 16))
    else .ok (.federated
      { limit := spec.strategy.limit
        windowMs := windowMs
        batch := fed.batch.getD 16
        regionalEscrow := false
        regionalOnly := false
        probes := true
        healthCheckMs := 5000
        keyPrefix := none
        windowMs_pos := one_pos.trans_le (not_lt.mp hwindow)
        one_le_batch := not_lt.mp hbatch
        one_le_healthCheckMs := one_le_healthCheckMs }
      { windowMs := windowMs
        budgetFor := fun _ => spec.strategy.limit
        luaText := o.luaText
        one_le_windowMs := not_lt.mp hwindow
        one_le_budget := fun _ => not_lt.mp hbudget }
      (fed.keyPrefix.getD defaultCoordinatorPrefix))

/-- A policy of the file. -/
def buildPolicy (o : Options) (defaultPrefix : Option String) (name : String)
    (spec : LimiterSpec S) : Except LoadError (BuiltLimiter S) :=
  match spec.federated with
  | some fed => buildFederated o name spec fed
  | none => .ok (buildLimiter defaultPrefix name spec)

/-- The policies of the file, one by one. -/
def buildPolicies (o : Options) (defaultPrefix : Option String) :
    List (String × LimiterSpec S) → Except LoadError (List (String × BuiltLimiter S))
  | [] => .ok []
  | (name, spec) :: rest => do
    let p ← buildPolicy o defaultPrefix name spec
    let ps ← buildPolicies o defaultPrefix rest
    return (name, p) :: ps

/-- `buildServiceConfig(text, options).limiters`, of the parsed file. -/
def buildServiceConfig (o : Options) (file : ConfigFile S) :
    Except LoadError (List (String × BuiltLimiter S)) :=
  buildPolicies o file.defaultPrefix file.limiters

/-! ### The keys of a policy -/

/-- The key that the server knows a limiter's `key` by. -/
def BuiltLimiter.fullKey (storePrefix : Option String) (p : BuiltLimiter S) (key : String) :
    String :=
  match p with
  | .rateLimit _ keyPrefix => prefixer storePrefix (prefixer (some keyPrefix) key)
  | .federated _ _ keyPrefix => keyPrefix ++ ":" ++ key

/-- What all these keys begin with. -/
def BuiltLimiter.scope (storePrefix : Option String) (p : BuiltLimiter S) : String :=
  p.fullKey storePrefix ""

theorem prefixer_eq_append (pre : Option String) (key : String) :
    prefixer pre key = prefixer pre "" ++ key := by
  rw [prefixer.eq_def, prefixer.eq_def]
  split
  · split
    · rw [String.append_empty]
    · rw [String.empty_append]
  · rw [String.empty_append]

theorem BuiltLimiter.fullKey_eq (storePrefix : Option String) (p : BuiltLimiter S) (key : String) :
    p.fullKey storePrefix key = p.scope storePrefix ++ key := by
  cases p with
  | rateLimit strategy keyPrefix =>
    show prefixer storePrefix (prefixer (some keyPrefix) key)
      = prefixer storePrefix (prefixer (some keyPrefix) "") ++ key
    rw [prefixer_eq_append storePrefix, prefixer_eq_append (some keyPrefix) key,
      prefixer_eq_append storePrefix (prefixer (some keyPrefix) ""), String.append_assoc]
  | federated engine coordinator keyPrefix =>
    show keyPrefix ++ ":" ++ key = keyPrefix ++ ":" ++ "" ++ key
    rw [String.append_empty]

/-- One scope begins with the other. -/
def Clash (s t : String) : Prop := s.toList <+: t.toList ∨ t.toList <+: s.toList

instance (s t : String) : Decidable (Clash s t) := inferInstanceAs (Decidable (_ ∨ _))

theorem Clash.symm {s t : String} (h : Clash s t) : Clash t s := Or.symm h

/-- **Scopes clash when they have a key in common.** -/
theorem clash_iff {s t : String} : Clash s t ↔ ∃ k k', s ++ k = t ++ k' := by
  constructor
  · rintro (⟨l, hl⟩ | ⟨l, hl⟩)
    · refine ⟨String.ofList l, "", String.toList_inj.mp ?_⟩
      simpa using hl
    · refine ⟨"", String.ofList l, String.toList_inj.mp ?_⟩
      simpa using hl.symm
  · rintro ⟨k, k', h⟩
    have hlist : s.toList ++ k.toList = t.toList ++ k'.toList := by
      rw [← String.toList_append, h, String.toList_append]
    have hs : s.toList <+: t.toList ++ k'.toList := by
      rw [← hlist]
      exact List.prefix_append _ _
    exact List.prefix_or_prefix_of_prefix hs (List.prefix_append _ _)

/-- **The condition.** No two policies have scopes that clash. -/
def Separated (o : Options) (ps : List (String × BuiltLimiter S)) : Prop :=
  ps.Pairwise fun p q => ¬ Clash (p.2.scope o.storePrefix) (q.2.scope o.storePrefix)

instance (o : Options) (ps : List (String × BuiltLimiter S)) : Decidable (Separated o ps) :=
  inferInstanceAs (Decidable (List.Pairwise _ _))

/-- **Policies are separated when no two of them have a key in common.** -/
theorem separated_iff {o : Options} {ps : List (String × BuiltLimiter S)} :
    Separated o ps ↔ ps.Pairwise fun p q => ∀ k k',
      p.2.fullKey o.storePrefix k ≠ q.2.fullKey o.storePrefix k' := by
  have hkeys : ∀ p q : String × BuiltLimiter S,
      ¬ Clash (p.2.scope o.storePrefix) (q.2.scope o.storePrefix) ↔ ∀ k k',
        p.2.fullKey o.storePrefix k ≠ q.2.fullKey o.storePrefix k' := by
    intro p q
    rw [clash_iff, not_exists]
    refine forall_congr' fun k => ?_
    rw [not_exists]
    refine forall_congr' fun k' => ?_
    rw [BuiltLimiter.fullKey_eq, BuiltLimiter.fullKey_eq]
  exact ⟨fun h => h.imp fun {p q} => (hkeys p q).mp, fun h => h.imp fun {p q} => (hkeys p q).mpr⟩

end ThrottleKit.Policies
