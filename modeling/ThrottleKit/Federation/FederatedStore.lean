import ThrottleKit.Federation.WindowCoupled

/-!
# The federation engine behind a store

`federate` is a limiter on the engine. A `FederatedStore` is a store on the same engine, and
`rateLimit` makes a limiter of it: it hands the store a transform, from which the store reads a cost
and nothing else. A transform that carries a Lua program carries a cost with it; for any other the
cost is taken to be one.

So the two limiters make the same checks of the engine as long as the cost gets through, which it
does for a strategy with a Lua form and for a cost of one. An introspection is no check at all. But
its transform has cost zero, or none, and the store makes a check of cost one of it
(`introspection_is_check`).

## Main definitions

* `Transform`, `decisionTransform`, `readOnlyTransform`, `readCostHint` — what the store is handed
* `overStore`, `federate` — what the two limiters ask of the engine
* `limiter` — a limiter on the engine, in its environment
* `GetsThrough` — the calls of which the store makes what is meant

## Main results

* `asMeant_iff` — the same checks of the engine, exactly where the cost gets through
* `store_limiter_agrees` — the same decisions, and introspections that consume nothing
* `peek_consumes` — without the condition they consume
-/

namespace ThrottleKit.FederatedStore

open Machine RegionalEscrow

/-- What a strategy offers beside `check`. -/
structure Offers where
  name : String
  /-- `strategy.lua`. -/
  lua : Bool
  /-- `strategy.readState`. -/
  readState : Bool
  /-- `strategy.peek`. -/
  peek : Bool
  /-- `strategy.forecast`. -/
  forecast : Bool

/-- The Lua program a transform carries, to a store that does not run it. -/
structure LuaInvocation where
  now : ℚ
  cost : ℚ
  readOnly : Bool

/-- A transform, to a store that does not run it. -/
structure Transform where
  lua : Option LuaInvocation

/-- `decisionTransform(strategy, now, cost)`. -/
def decisionTransform (strategy : Offers) (now cost : ℚ) : Transform :=
  ⟨if strategy.lua then some ⟨now, cost, false⟩ else none⟩

/-- `readOnlyTransform(strategy, project, now)`. -/
def readOnlyTransform (strategy : Offers) (now : ℚ) : Transform :=
  ⟨if strategy.readState then some ⟨now, 0, true⟩ else none⟩

/-- `readCostHint(transform)`. -/
def readCostHint (transform : Transform) : ℚ :=
  match transform.lua with
  | some lua => if 0 < lua.cost then lua.cost else 1
  | none => 1

/-! ### The two limiters -/

/-- A call of a limiter, with a call number and a clock reading for each check it makes of the
engine. -/
inductive Call
  | check (id : ℕ) (key : String) (cost now : ℚ)
  | checkMany (keys : List (ℕ × String × ℚ)) (cost : ℚ)
  | peek (id : ℕ) (key : String) (now : ℚ)
  | forecast (id : ℕ) (key : String) (cost now : ℚ)
  | reset (key : String)

/-- How a call rejects before it reaches the engine. -/
inductive CallError
  | cost (e : CostError)
  /-- The strategy has no such method. -/
  | unsupported (method strategy : String)
  /-- The limiter has no such method. -/
  | absent (method : String)

/-- The message of the error. -/
def CallError.message : CallError → String
  | .cost e => e.message
  | .unsupported method strategy =>
    method ++ "() is not supported by the \"" ++ strategy ++ "\" strategy"
  | .absent method => "limiter." ++ method ++ " is not a function"

/-- `apply(key, transform)`: the check it makes of the engine. -/
def apply (id : ℕ) (key : String) (transform : Transform) (now : ℚ) : WindowCoupled.Act :=
  .check id key (readCostHint transform) now

/-- What a call of `rateLimit({ strategy, store })` asks of the engine behind the store. -/
def overStore (strategy : Offers) : Call → Except CallError (List WindowCoupled.Act)
  | .check id key cost now =>
    match requireCost cost with
    | .error e => .error (.cost e)
    | .ok () => .ok [apply id key (decisionTransform strategy now cost) now]
  | .checkMany keys cost =>
    match requireCost cost with
    | .error e => .error (.cost e)
    | .ok () =>
      .ok (keys.map fun k => apply k.1 k.2.1 (decisionTransform strategy k.2.2 cost) k.2.2)
  | .peek id key now =>
    if strategy.peek then .ok [apply id key (readOnlyTransform strategy now) now]
    else .error (.unsupported "peek" strategy.name)
  | .forecast id key cost now =>
    if strategy.forecast then
      match requireCost cost with
      | .error e => .error (.cost e)
      | .ok () => .ok [apply id key (readOnlyTransform strategy now) now]
    else .error (.unsupported "forecast" strategy.name)
  | .reset key => .ok [.reset key]

/-- What a call of `federate` asks of its engine. -/
def federate : Call → Except CallError (List WindowCoupled.Act)
  | .check id key cost now => .ok [.check id key cost now]
  | .checkMany keys cost => .ok (keys.map fun k => .check k.1 k.2.1 cost k.2.2)
  | .peek _ _ _ => .error (.absent "peek")
  | .forecast _ _ _ _ => .error (.absent "forecast")
  | .reset key => .ok [.reset key]

/-- Whether an action of the engine is not for its limiter to take. -/
def environment : WindowCoupled.Act → Bool
  | .check _ _ _ _ | .reset _ | .close => false
  | _ => true

/-- What can happen to a limiter. -/
inductive Act
  | call (c : Call)
  /-- A reply arrives, or a suspended check goes on. -/
  | engine (a : WindowCoupled.Act)
  /-- Other processes of the region leave the escrow they share in another state. -/
  | escrow (l2 : Escrow)

/-- What becomes visible. -/
inductive Event
  | engine (ev : WindowCoupled.Event)
  | rejected (c : Call) (error : CallError)

/-- The engine and the escrow of its region. -/
def engine (cfg : WindowCoupled.Config) :
    Machine (Escrow × WindowCoupled.Engine) WindowCoupled.Act WindowCoupled.Event :=
  fun s a => (WindowCoupled.step cfg s.1 s.2 a).map fun r => ((r.1, r.2.1), r.2.2)

/-- A limiter on the engine, given by what its calls ask. -/
def limiter (cfg : WindowCoupled.Config) (asks : Call → Except CallError (List WindowCoupled.Act)) :
    Machine (Escrow × WindowCoupled.Engine) Act Event := fun s a =>
  match a with
  | .call c =>
    match asks c with
    | .error e => some (s, [.rejected c e])
    | .ok acts => ((engine cfg).exec s acts).map fun r => (r.1, r.2.map .engine)
  | .engine a =>
    if environment a then (engine cfg s a).map fun r => (r.1, r.2.map .engine) else none
  | .escrow l2 => some ((l2, s.2), [])

/-- The limiter and its region as constructed. -/
def start (windowMs : ℚ) : Escrow × WindowCoupled.Engine := (Escrow.new windowMs, .new)

/-- What the engine made visible: its decisions, and all it asked of the coordinator. -/
def engineLog (log : List Event) : List WindowCoupled.Event :=
  log.filterMap fun
    | .engine ev => some ev
    | .rejected _ _ => none

/-! ### The calls that get through -/

/-- The costs are accepted ones. -/
def Accepted : Act → Prop
  | .call (.check _ _ cost _) | .call (.checkMany _ cost) | .call (.forecast _ _ cost _) =>
    requireCost cost = .ok ()
  | _ => True

/-- Whether a call is an introspection. -/
def Call.introspects : Call → Bool
  | .peek _ _ _ | .forecast _ _ _ _ => true
  | _ => false

/-- **The condition.** The cost of a check is one or gets through with a Lua program, and an
introspection never reaches the store. -/
def GetsThrough (strategy : Offers) : Act → Prop
  | .call (.check _ _ cost _) => strategy.lua = true ∨ cost = 1
  | .call (.checkMany keys cost) => keys = [] ∨ strategy.lua = true ∨ cost = 1
  | .call (.peek _ _ _) => strategy.peek = false
  | .call (.forecast _ _ _ _) => strategy.forecast = false
  | _ => True

instance : ∀ a, Decidable (Accepted a)
  | .call (.check _ _ _ _) | .call (.checkMany _ _) | .call (.forecast _ _ _ _) =>
    inferInstanceAs (Decidable (_ = Except.ok ()))
  | .call (.peek _ _ _) | .call (.reset _) | .engine _ | .escrow _ => isTrue trivial

instance (strategy : Offers) : ∀ a, Decidable (GetsThrough strategy a)
  | .call (.check _ _ _ _) => inferInstanceAs (Decidable (_ ∨ _))
  | .call (.checkMany _ _) => inferInstanceAs (Decidable (_ ∨ _))
  | .call (.peek _ _ _) | .call (.forecast _ _ _ _) => inferInstanceAs (Decidable (_ = false))
  | .call (.reset _) | .engine _ | .escrow _ => isTrue trivial

/-- The call asks of the engine what it should: the checks that `federate` makes, and nothing when
it is an introspection. -/
def AsMeant (strategy : Offers) (c : Call) : Prop :=
  if c.introspects then ∃ e, overStore strategy c = .error e
  else overStore strategy c = federate c

theorem readCostHint_decisionTransform (strategy : Offers) {cost : ℚ} (now : ℚ) (hcost : 0 < cost) :
    readCostHint (decisionTransform strategy now cost) = if strategy.lua then cost else 1 := by
  rw [readCostHint, decisionTransform]
  split
  · rename_i lua hlua
    split at hlua
    · obtain rfl := Option.some.inj hlua
      rw [if_pos hcost, if_pos ‹_›]
    · cases hlua
  · rename_i hlua
    split at hlua
    · cases hlua
    · rw [if_neg ‹_›]

/-- The store takes the cost of an introspection to be one. -/
theorem readCostHint_readOnlyTransform (strategy : Offers) (now : ℚ) :
    readCostHint (readOnlyTransform strategy now) = 1 := by
  rw [readCostHint, readOnlyTransform]
  split
  · rename_i lua hlua
    split at hlua
    · obtain rfl := Option.some.inj hlua
      rw [if_neg (lt_irrefl _)]
    · cases hlua
  · rfl

/-- The check that the store makes of a check is the one `federate` makes. -/
theorem apply_decisionTransform_iff (strategy : Offers) (id : ℕ) (key : String) {cost : ℚ} (now : ℚ)
    (hcost : 0 < cost) :
    apply id key (decisionTransform strategy now cost) now = .check id key cost now ↔
      strategy.lua = true ∨ cost = 1 := by
  rw [apply, readCostHint_decisionTransform strategy now hcost]
  cases strategy.lua with
  | true => simp
  | false => simp [eq_comm]

/-- **The store makes what is meant of a call exactly where the cost gets through.** -/
theorem asMeant_iff (strategy : Offers) {c : Call} (h : Accepted (.call c)) :
    AsMeant strategy c ↔ GetsThrough strategy (.call c) := by
  cases c with
  | check id key cost now =>
    have hcost : requireCost cost = .ok () := h
    have hasks : overStore strategy (.check id key cost now)
        = .ok [apply id key (decisionTransform strategy now cost) now] := by
      rw [overStore, hcost]
    rw [AsMeant, if_neg (by simp [Call.introspects]), hasks, federate, Except.ok.injEq,
      List.cons.injEq, eq_self_iff_true, and_true,
      apply_decisionTransform_iff strategy id key now (pos_of_requireCost hcost)]
    rfl
  | checkMany keys cost =>
    have hcost : requireCost cost = .ok () := h
    have hasks : overStore strategy (.checkMany keys cost) = .ok (keys.map fun k =>
        apply k.1 k.2.1 (decisionTransform strategy k.2.2 cost) k.2.2) := by
      rw [overStore, hcost]
    rw [AsMeant, if_neg (by simp [Call.introspects]), hasks, federate, Except.ok.injEq,
      List.map_inj_left]
    constructor
    · intro hall
      cases keys with
      | nil => exact .inl rfl
      | cons k keys =>
        exact .inr ((apply_decisionTransform_iff strategy k.1 k.2.1 k.2.2
          (pos_of_requireCost hcost)).mp (hall k List.mem_cons_self))
    · rintro (rfl | hthrough) k hk
      · cases hk
      · exact (apply_decisionTransform_iff strategy k.1 k.2.1 k.2.2
          (pos_of_requireCost hcost)).mpr hthrough
  | peek id key now =>
    rw [AsMeant, if_pos (by simp [Call.introspects]), overStore, GetsThrough]
    cases strategy.peek with
    | true => simp
    | false => simp
  | forecast id key cost now =>
    have hcost : requireCost cost = .ok () := h
    rw [AsMeant, if_pos (by simp [Call.introspects]), overStore, hcost, GetsThrough]
    cases strategy.forecast with
    | true => simp
    | false => simp
  | reset key =>
    rw [AsMeant, if_neg (by simp [Call.introspects])]
    exact iff_of_true rfl trivial

/-- An introspection that reaches the store is a check of cost one. -/
theorem introspection_is_check (cfg : WindowCoupled.Config) (strategy : Offers)
    (hpeek : strategy.peek = true) (s : Escrow × WindowCoupled.Engine) (id : ℕ) (key : String)
    (now : ℚ) :
    limiter cfg (overStore strategy) s (.call (.peek id key now))
      = limiter cfg federate s (.call (.check id key 1 now)) := by
  have hasks : overStore strategy (.peek id key now) = federate (.check id key 1 now) := by
    rw [overStore, if_pos hpeek, federate, apply, readCostHint_readOnlyTransform]
  rw [limiter, limiter, hasks]
  rfl

/-! ### Runs -/

section Runs

variable {cfg : WindowCoupled.Config} {strategy : Offers} {s s' : Escrow × WindowCoupled.Engine}
  {new : List Event}

@[simp] theorem engineLog_append (l l' : List Event) :
    engineLog (l ++ l') = engineLog l ++ engineLog l' := List.filterMap_append

/-- An introspection of which the store makes what is meant leaves all as it is, and the engine asks
nothing of anyone. -/
theorem introspection_idle {c : Call} (hc : c.introspects = true) (hmeant : AsMeant strategy c)
    (h : limiter cfg (overStore strategy) s (.call c) = some (s', new)) :
    s' = s ∧ engineLog new = [] := by
  rw [AsMeant, if_pos hc] at hmeant
  obtain ⟨e, he⟩ := hmeant
  rw [limiter, he] at h
  obtain ⟨rfl, rfl⟩ := Prod.mk.inj (Option.some.inj h)
  exact ⟨rfl, rfl⟩

/-- A step over the store against one of `federate`. -/
theorem step_agrees {a : Act} (haccepted : Accepted a) (hthrough : GetsThrough strategy a)
    (h : limiter cfg (overStore strategy) s a = some (s', new)) :
    ∃ new', limiter cfg federate s a = some (s', new') ∧ engineLog new' = engineLog new := by
  cases a with
  | call c =>
    have hmeant := (asMeant_iff strategy haccepted).mpr hthrough
    cases hc : c.introspects with
    | true =>
      obtain ⟨rfl, hnew⟩ := introspection_idle hc hmeant h
      have habsent : ∃ e, federate c = .error e := by
        cases c with
        | peek id key now => exact ⟨_, rfl⟩
        | forecast id key cost now => exact ⟨_, rfl⟩
        | check id key cost now => cases hc
        | checkMany keys cost => cases hc
        | reset key => cases hc
      obtain ⟨e, he⟩ := habsent
      refine ⟨[.rejected c e], ?_, hnew.symm⟩
      rw [limiter, he]
    | false =>
      rw [AsMeant, if_neg (by simp [hc])] at hmeant
      refine ⟨new, ?_, rfl⟩
      rw [← h, limiter, limiter, hmeant]
  | engine a => exact ⟨new, h, rfl⟩
  | escrow l2 => exact ⟨new, h, rfl⟩

/-- **The same limiter, where the costs get through.** In every run whose calls all do, the engine
behind the store does what the one of `federate` does in a run of its own, so that the decisions are
the same; and no introspection changes anything. -/
theorem store_limiter_agrees (cfg : WindowCoupled.Config) (strategy : Offers)
    {s₀ s : Escrow × WindowCoupled.Engine} {log : List Event}
    (h : (limiter cfg (overStore strategy)).Run
      (fun _ a => Accepted a ∧ GetsThrough strategy a) s₀ log s) :
    (∃ log', (limiter cfg federate).Run (fun _ a => Accepted a) s₀ log' s ∧
        engineLog log' = engineLog log) ∧
      ∀ c : Call, c.introspects = true → Accepted (.call c) → GetsThrough strategy (.call c) →
        ∀ s' new, limiter cfg (overStore strategy) s (.call c) = some (s', new) →
          s' = s ∧ engineLog new = [] := by
  refine ⟨?_, fun c hc haccepted hthrough s' new hstep =>
    introspection_idle hc ((asMeant_iff strategy haccepted).mpr hthrough) hstep⟩
  induction h with
  | nil => exact ⟨[], .nil, rfl⟩
  | snoc _ hok hstep ih =>
    obtain ⟨log', hrun, hlog⟩ := ih
    obtain ⟨new', hstep', hnew⟩ := step_agrees hok.1 hok.2 hstep
    exact ⟨log' ++ new', hrun.snoc hok.1 hstep', by simp [hlog, hnew]⟩

end Runs

/-- What the built-in strategies offer. -/
def builtIn : Offers := ⟨"fixedWindow", true, true, true, true⟩

/-- Ten a second, leased in pairs. -/
def tenByPairs : WindowCoupled.Config where
  limit := 10
  windowMs := 1000
  batch := 2
  regionalEscrow := false
  regionalOnly := false
  probes := false
  healthCheckMs := 1000
  keyPrefix := none
  windowMs_pos := second_pos
  one_le_batch := one_le_pair
  one_le_healthCheckMs := one_le_second

/-- Two checks: the first leases, and the second is served by what is left. -/
def twoChecks : List Act :=
  [.call (.check 0 "k" 1 0), .engine (.coordinator 0 (some 2)), .engine (.resume 0 0),
    .call (.check 1 "k" 1 10)]

theorem store_limiter_agrees_two_checks :
    ∃ log', (limiter tenByPairs federate).Run (fun _ a => Accepted a) (start 1000) log'
        (((limiter tenByPairs (overStore builtIn)).exec (start 1000) twoChecks).get
          (by decide +kernel)).1 ∧
      engineLog log' = engineLog (((limiter tenByPairs (overStore builtIn)).exec (start 1000)
        twoChecks).get (by decide +kernel)).2 :=
  (store_limiter_agrees tenByPairs builtIn
    (run_of_isSome (p := fun _ a => Accepted a ∧ GetsThrough builtIn a) (by decide +kernel)
      (by decide +kernel))).1

/-- The region's balance of a key. -/
def balanceOf (s : Escrow × WindowCoupled.Engine) (key : String) : Option ℚ :=
  (s.2.entries key).map WindowCoupled.Entry.balance

/-- A check that leases two, with one left for later. -/
def oneCheck : List Act :=
  [.call (.check 0 "k" 1 0), .engine (.coordinator 0 (some 2)), .engine (.resume 0 0)]

/-- **Without the condition a peek spends.** One unit is left, and the peek takes it. -/
theorem peek_consumes :
    ¬ ∀ (cfg : WindowCoupled.Config) (strategy : Offers) (s₀ s : Escrow × WindowCoupled.Engine)
      (log : List Event),
      (limiter cfg (overStore strategy)).Run (fun _ a => Accepted a) s₀ log s →
        (∃ log', (limiter cfg federate).Run (fun _ a => Accepted a) s₀ log' s ∧
          engineLog log' = engineLog log) ∧
        ∀ c : Call, c.introspects = true → Accepted (.call c) →
          ∀ s' new, limiter cfg (overStore strategy) s (.call c) = some (s', new) →
            s' = s ∧ engineLog new = [] := by
  intro h
  have hrun := run_of_isSome (m := limiter tenByPairs (overStore builtIn))
    (p := fun _ a => Accepted a) (s := start 1000) (l := oneCheck) (by decide +kernel)
    (by decide +kernel)
  generalize hr : ((limiter tenByPairs (overStore builtIn)).exec (start 1000) oneCheck).get
    (by decide +kernel) = r at hrun
  have hpeek : (limiter tenByPairs (overStore builtIn) r.1 (.call (.peek 1 "k" 10))).isSome := by
    rw [← hr]
    decide +kernel
  obtain ⟨⟨s', new⟩, hstep⟩ := Option.isSome_iff_exists.mp hpeek
  have hsame := ((h _ _ _ _ _ hrun).2 (.peek 1 "k" 10) rfl trivial _ _ hstep).1
  have hspent : ((limiter tenByPairs (overStore builtIn) r.1 (.call (.peek 1 "k" 10))).map
      fun q => balanceOf q.1 "k") ≠ some (balanceOf r.1 "k") := by
    rw [← hr]
    decide +kernel
  rw [hstep] at hspent
  exact hspent (congrArg (fun q => some (balanceOf q "k")) hsame)

end ThrottleKit.FederatedStore
