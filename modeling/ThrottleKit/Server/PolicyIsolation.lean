import Mathlib.Data.List.Pairwise
import ThrottleKit.Algorithms.FixedWindow
import ThrottleKit.Core.Limiter
import ThrottleKit.Lib.Noninterference
import ThrottleKit.Server.Policies

/-!
# Policies on one server

All the policies of a service keep what they know on one Redis server: a rate limit the state of a
key, a federated policy the budget of a key. A policy whose keys no other policy has is not
interfered with, whatever is asked of the others.

Two policies may well have keys in common. A coordinator's keys begin with its prefix, which is the
same for every federated policy that does not set one, and the name of the policy is not in them. A
key prefix may be inherited from the defaults of the file, or end where another one goes on after a
colon.

## The steps

A check of a rate limit is one step. A check of a federated policy is one up to its first `await`,
and goes on in steps of its own; a lease or a reconcile that it asks for is served in another, or
fails, so all delays and all orders are covered.

What a script makes of a record that a script of another kind wrote depends on the commands in it.
It is a parameter, `Foreign`, of which nothing is assumed.

## Main definitions

* `Record`, `Party`, `Op`, `Answer` — what the server and a policy keep, and what may happen
* `service` — the policies around the server

## Main results

* `policies_isolated` — separated policies do not interfere
* `policies_interfere` — policies that inherit or continue a prefix do
-/

namespace ThrottleKit.PolicyIsolation

open Lockstep Noninterference Policies Redis

variable {S : Type}

/-- What the server keeps under a key. -/
inductive Record (S : Type)
  /-- The state of a rate limit, with its expiry. -/
  | entry (state : S) (expiresAt : ℚ)
  /-- The hash of a coordinator. -/
  | hash (k : Key RedisCoordinator.Hash)

/-- A record, if there is one. -/
abbrev Cell (S : Type) := Option (Record S)

/-- What scripts make of records of the other kind; a script that fails has no answer. -/
structure Foreign (S : Type) where
  check : Strategy S → Key RedisCoordinator.Hash → ℚ → ℚ → Cell S × Option Decision
  lease : RedisCoordinator.Config → S × ℚ → ℤ → ℚ → Cell S × Option ℚ
  reconcile : RedisCoordinator.Config → S × ℚ → ℤ → ℚ → ℚ → Cell S

/-- A call of `reconcile` that is under way. -/
structure Giveback where
  key : String
  leftover : ℚ
  windowStart : ℚ

/-- What the process keeps for a policy. A rate limit has no use for it. -/
structure Party where
  engine : WindowCoupled.Engine
  reconciling : List Giveback

/-- What may happen at a policy. -/
inductive Op
  /-- `check(key, cost)`, with the clock at `now`. -/
  | check (call : ℕ) (key : String) (cost now : ℚ)
  /-- A call goes on after an `await`. -/
  | resume (call : ℕ) (now : ℚ)
  /-- The server serves the `coordinator.lease` of a lease promise, at its own clock. -/
  | lease (lease : ℕ) (now : ℤ)
  | leaseFails (lease : ℕ)
  /-- The server serves a call of `reconcile` that is under way. -/
  | reconcile (n : ℕ) (now : ℤ)
  | reconcileFails (n : ℕ)

/-- What comes of it. -/
inductive Answer
  /-- There is nothing of the kind to do. -/
  | idle
  | decided (result : Except CostError Decision)
  /-- The script failed. -/
  | failed
  | events (es : List WindowCoupled.Event)
deriving DecidableEq

/-! ### A rate limit -/

/-- The state that a check at `now` finds. -/
def pending (c : Option (S × ℚ)) (now : ℚ) : Option S :=
  c.bind fun entry => if entry.2 ≤ now then none else some entry.1

/-- A check on the record of its key. -/
def checkRecord (F : Foreign S) (strategy : Strategy S) (c : Cell S) (cost now : ℚ) :
    Cell S × Answer :=
  let settle (found : Option (S × ℚ)) : Cell S × Answer :=
    let out := strategy.check (pending found now) now cost
    (if out.persist then out.state.map fun state => .entry state (now + max 0 out.ttlMs) else c,
      .decided (.ok out.result))
  match c with
  | none => settle none
  | some (.entry state expiresAt) => settle (some (state, expiresAt))
  | some (.hash k) =>
    let r := F.check strategy k now cost
    (r.1, match r.2 with | some d => .decided (.ok d) | none => .failed)

/-- `check(key, cost)` of a rate limit. -/
def rateLimitCheck (F : Foreign S) (storePrefix : Option String) (strategy : Strategy S)
    (keyPrefix key : String) (cost now : ℚ) : Access String (Cell S) Answer :=
  match requireCost cost with
  | .error err => .none (.decided (.error err))
  | .ok () => .cell (prefixer storePrefix (prefixer (some keyPrefix) key)) fun c =>
      checkRecord F strategy c cost now

/-! ### A federated policy -/

/-- A lease on the record of its key. -/
def leaseRecord (F : Foreign S) (cfg : RedisCoordinator.Config) (c : Cell S) (key : String)
    (tokens : ℚ) (now : ℤ) : Cell S × Option ℚ :=
  let run (found : Option (Key RedisCoordinator.Hash)) : Cell S × Option ℚ :=
    let out := RedisCoordinator.leaseLua cfg found now tokens (cfg.budgetFor key)
    (out.key.map .hash, out.reply.map fun r => (r.1 : ℚ))
  match c with
  | none => run none
  | some (.hash k) => run (some k)
  | some (.entry state expiresAt) => F.lease cfg (state, expiresAt) now tokens

/-- `coordinator.lease(key, tokens, expiresAt)`; without a result where it throws. -/
def coordinatorLease (F : Foreign S) (cfg : RedisCoordinator.Config) (keyPrefix key : String)
    (tokens : ℚ) (now : ℤ) : Access String (Cell S) (Option ℚ) :=
  if tokens < 0 then .none none
  else if tokens = 0 then .none (some 0)
  else .cell (keyPrefix ++ ":" ++ key) fun c => leaseRecord F cfg c key tokens now

/-- A reconcile on the record of its key. -/
def reconcileRecord (F : Foreign S) (cfg : RedisCoordinator.Config) (c : Cell S) (g : Giveback)
    (now : ℤ) : Cell S :=
  let run (found : Option (Key RedisCoordinator.Hash)) : Cell S :=
    (RedisCoordinator.reconcileLua cfg found now g.leftover g.windowStart
      (cfg.budgetFor g.key)).key.map .hash
  match c with
  | none => run none
  | some (.hash k) => run (some k)
  | some (.entry state expiresAt) =>
    F.reconcile cfg (state, expiresAt) now g.leftover g.windowStart

/-- `coordinator.reconcile(key, leftover, windowStart)`. -/
def coordinatorReconcile (F : Foreign S) (cfg : RedisCoordinator.Config) (keyPrefix : String)
    (g : Giveback) (now : ℤ) : Access String (Cell S) Unit :=
  if g.leftover < 0 then .none ()
  else if g.leftover = 0 then .none ()
  else .cell (keyPrefix ++ ":" ++ g.key) fun c => (reconcileRecord F cfg c g now, ())

/-- The call of `reconcile` that an event is. -/
def giveback : WindowCoupled.Event → Option Giveback
  | .reconciled key leftover windowStart _ => some ⟨key, leftover, windowStart⟩
  | _ => none

/-- The engine has run, and set off calls of `reconcile`. -/
def Party.after (st : Party) (r : WindowCoupled.Engine × List WindowCoupled.Event) :
    Party × Answer :=
  (⟨r.1, st.reconciling ++ r.2.filterMap giveback⟩, .events r.2)

/-- A step of a federated policy. -/
def federatedAct (F : Foreign S) (engine : WindowCoupled.Config) (cfg : RedisCoordinator.Config)
    (keyPrefix : String) (st : Party) : Op → Access String (Cell S) (Party × Answer)
  | .check call key cost now =>
    if (st.engine.calls call).isSome then .none (st, .idle)
    else .none (st.after (WindowCoupled.check engine st.engine call key cost now))
  | .resume call now =>
    match WindowCoupled.resume engine st.engine call now with
    | some r => .none (st.after r)
    | none => .none (st, .idle)
  | .lease l now =>
    match st.engine.leases[l]? with
    | some lease =>
      if lease.stage = .leasing then
        (coordinatorLease F cfg keyPrefix lease.key lease.tokens now).map fun reply =>
          match WindowCoupled.coordinatorReply engine st.engine l reply with
          | some r => st.after r
          | none => (st, .idle)
      else .none (st, .idle)
    | none => .none (st, .idle)
  | .leaseFails l =>
    match WindowCoupled.coordinatorReply engine st.engine l none with
    | some r => .none (st.after r)
    | none => .none (st, .idle)
  | .reconcile n now =>
    match st.reconciling[n]? with
    | some g => (coordinatorReconcile F cfg keyPrefix g now).map fun _ =>
        (⟨st.engine, st.reconciling.eraseIdx n⟩, .events [])
    | none => .none (st, .idle)
  | .reconcileFails n => .none (⟨st.engine, st.reconciling.eraseIdx n⟩, .events [])

/-! ### The service -/

/-- A step of a policy. -/
def policyAct (F : Foreign S) (storePrefix : Option String) (p : BuiltLimiter S) (st : Party)
    (op : Op) : Access String (Cell S) (Party × Answer) :=
  match p with
  | .rateLimit strategy keyPrefix =>
    match op with
    | .check _ key cost now =>
      (rateLimitCheck F storePrefix strategy keyPrefix key cost now).map fun answer => (st, answer)
    | _ => .none (st, .idle)
  | .federated engine cfg keyPrefix => federatedAct F engine cfg keyPrefix st op

/-- A step of the policy of a name. -/
def act (F : Foreign S) (o : Options) (ps : List (String × BuiltLimiter S)) (name : String)
    (st : Party) (op : Op) : Access String (Cell S) (Party × Answer) :=
  match ps.lookup name with
  | some p => policyAct F o.storePrefix p st op
  | none => .none (st, .idle)

/-- The policies around the server. -/
def service (F : Foreign S) (o : Options) (ps : List (String × BuiltLimiter S)) :
    Service (Parties String (String → Cell S) Party) (String × Op) Answer := around (act F o ps)

/-- The policies as built, on a server with the records `mem`. -/
def start (mem : String → Cell S) : Parties String (String → Cell S) Party :=
  ⟨mem, fun _ => ⟨.new, []⟩⟩

/-! ### Rate limits are limiters -/

/-- The records of a server that keeps states only. -/
def ofEntries (e : Entries S) : String → Cell S := fun key =>
  (e key).map fun entry => .entry entry.1 entry.2

theorem checkRecord_ofEntries (F : Foreign S) (strategy : Strategy S) (e : Entries S)
    (key : String) (cost now : ℚ) :
    checkRecord F strategy (ofEntries e key) cost now =
      (ofEntries (e.applySync key (fun state => strategy.check state now cost) now).1 key,
        .decided (.ok (e.applySync key (fun state => strategy.check state now cost) now).2)) := by
  have hsettle : ∀ found, e key = found → ∀ out,
      out = strategy.check (pending found now) now cost →
        ((if out.persist then out.state.map fun state => Record.entry state (now + max 0 out.ttlMs)
          else ofEntries e key), Answer.decided (.ok out.result))
        = (ofEntries (e.applySync key (fun state => strategy.check state now cost) now).1 key,
          .decided (.ok
            (e.applySync key (fun state => strategy.check state now cost) now).2)) := by
    rintro found rfl out rfl
    have hpending : pending (e key) now = e.pending key now := rfl
    rw [Entries.applySync_snd, hpending]
    cases hpersist : (strategy.check (e.pending key now) now cost).persist with
    | false =>
      rw [Entries.applySync_of_not_persist hpersist]
      rfl
    | true =>
      rw [Entries.applySync_of_persist hpersist, if_pos rfl]
      simp only [ofEntries, Function.update_self, Option.map_map]
      rfl
  cases hfound : e key with
  | none =>
    have hcell : ofEntries e key = none := by rw [ofEntries, hfound]; rfl
    have hdone := hsettle none hfound _ rfl
    rw [hcell] at hdone ⊢
    exact hdone
  | some entry =>
    have hcell : ofEntries e key = some (.entry entry.1 entry.2) := by rw [ofEntries, hfound]; rfl
    have hdone := hsettle (some entry) hfound _ rfl
    rw [hcell] at hdone ⊢
    exact hdone

/-- **On a server that keeps states only, a check is that of the limiter.** -/
theorem rateLimitCheck_run (F : Foreign S) (strategy : Strategy S) (keyPrefix : String)
    (e : Entries S) (key : String) (cost now : ℚ) :
    (rateLimitCheck F none strategy keyPrefix key cost now).run (ofEntries e) =
      (ofEntries (Limiter.check strategy (some keyPrefix) e key cost now).1,
        .decided (Limiter.check strategy (some keyPrefix) e key cost now).2) := by
  rw [rateLimitCheck, Limiter.check]
  cases requireCost cost with
  | error err => rfl
  | ok u =>
    dsimp only [Access.run]
    rw [show prefixer none (prefixer (some keyPrefix) key) = prefixer (some keyPrefix) key from rfl,
      checkRecord_ofEntries]
    generalize prefixer (some keyPrefix) key = k
    refine congrArg (fun mem => (mem, _)) (funext fun k' => ?_)
    rw [Function.update_apply]
    split
    · rename_i hk
      rw [hk]
    · rename_i hk
      rw [ofEntries, ofEntries]
      congr 1
      cases hpersist : (strategy.check (e.pending k now) now cost).persist with
      | false => rw [Entries.applySync_of_not_persist hpersist]
      | true => rw [Entries.applySync_of_persist hpersist, Function.update_of_ne hk]

/-! ### Regions -/

/-- The keys of the policy of a name. -/
def region (o : Options) (ps : List (String × BuiltLimiter S)) (name : String) : Set String :=
  {x | ∃ p key, ps.lookup name = some p ∧ x = p.fullKey o.storePrefix key}

variable {F : Foreign S} {o : Options} {ps : List (String × BuiltLimiter S)}

theorem within_rateLimitCheck {region : Set String} {storePrefix : Option String}
    {strategy : Strategy S} {keyPrefix : String}
    (h : ∀ key, prefixer storePrefix (prefixer (some keyPrefix) key) ∈ region) (key : String)
    (cost now : ℚ) :
    (rateLimitCheck F storePrefix strategy keyPrefix key cost now).Within region := by
  rw [rateLimitCheck]
  split
  · trivial
  · exact h key

theorem within_coordinatorLease {region : Set String} {cfg : RedisCoordinator.Config}
    {keyPrefix : String} (h : ∀ key, keyPrefix ++ ":" ++ key ∈ region) (key : String) (tokens : ℚ)
    (now : ℤ) : (coordinatorLease F cfg keyPrefix key tokens now).Within region := by
  rw [coordinatorLease]
  split
  · trivial
  split
  · trivial
  · exact h key

theorem within_coordinatorReconcile {region : Set String} {cfg : RedisCoordinator.Config}
    {keyPrefix : String} (h : ∀ key, keyPrefix ++ ":" ++ key ∈ region) (g : Giveback) (now : ℤ) :
    (coordinatorReconcile F cfg keyPrefix g now).Within region := by
  rw [coordinatorReconcile]
  split
  · trivial
  split
  · trivial
  · exact h g.key

/-- A federated policy stays with the keys of its coordinator. -/
theorem within_federatedAct {region : Set String} {engine : WindowCoupled.Config}
    {cfg : RedisCoordinator.Config} {keyPrefix : String}
    (h : ∀ key, keyPrefix ++ ":" ++ key ∈ region) (st : Party) (op : Op) :
    (federatedAct F engine cfg keyPrefix st op).Within region := by
  rw [federatedAct.eq_def]
  split
  · split <;> trivial
  · split <;> trivial
  · split
    · split
      · rw [Access.within_map]
        exact within_coordinatorLease h _ _ _
      · trivial
    · trivial
  · split <;> trivial
  · split
    · rw [Access.within_map]
      exact within_coordinatorReconcile h _ _
    · trivial
  · trivial

/-- **A policy stays with its keys.** -/
theorem within_act (name : String) (st : Party) (op : Op) :
    (act F o ps name st op).Within (region o ps name) := by
  rw [act]
  split
  · rename_i p hp
    cases p with
    | rateLimit strategy keyPrefix =>
      cases op with
      | check call key cost now =>
        refine (Access.within_map _ _ _).mpr (within_rateLimitCheck (fun key' => ?_) key cost now)
        exact ⟨_, key', hp, rfl⟩
      | _ => trivial
    | federated engine cfg keyPrefix =>
      refine within_federatedAct (fun key => ?_) st op
      exact ⟨_, key, hp, rfl⟩
  · trivial

theorem mem_of_lookup {name : String} {p : BuiltLimiter S} (h : ps.lookup name = some p) :
    (name, p) ∈ ps := by
  induction ps with
  | nil => cases h
  | cons entry ps ih =>
    obtain ⟨name', p'⟩ := entry
    rw [List.lookup_cons] at h
    cases heq : name == name' with
    | true =>
      rw [heq] at h
      obtain rfl := Option.some.inj h
      obtain rfl := eq_of_beq heq
      exact List.mem_cons_self
    | false =>
      rw [heq] at h
      exact List.mem_cons_of_mem _ (ih h)

/-- Separated policies have no key in common. -/
theorem disjoint_region (hsep : Separated o ps) {i j : String} (hij : j ≠ i) :
    ∀ x ∈ region o ps j, x ∉ region o ps i := by
  rintro x ⟨p, key, hp, rfl⟩ ⟨q, key', hq, heq⟩
  have hsymm : Std.Symm fun p q : String × BuiltLimiter S =>
      ¬ Clash (p.2.scope o.storePrefix) (q.2.scope o.storePrefix) := ⟨fun _ _ h h' => h h'.symm⟩
  have hne : ((j, p) : String × BuiltLimiter S) ≠ (i, q) := fun h => hij (congrArg Prod.fst h)
  refine List.Pairwise.forall hsep (mem_of_lookup hp) (mem_of_lookup hq) hne
    (clash_iff.mpr ⟨key, key', ?_⟩)
  rw [← BuiltLimiter.fullKey_eq, ← BuiltLimiter.fullKey_eq, heq]

/-- **Separated policies do not interfere.** For every file that loads to policies of which no two
have a key in common, and on whatever is on the server, the answers of a policy are a function of
what is asked of it. -/
theorem policies_isolated (F : Foreign S) (o : Options) (file : ConfigFile S) :
    ∀ ps, buildServiceConfig o file = .ok ps → Separated o ps →
      ∀ (mem : String → Cell S) (name : String) (rs rs' : List (String × Op)),
        own name rs = own name rs' →
          answersTo (service F o ps) name (start mem) rs
            = answersTo (service F o ps) name (start mem) rs' := by
  intro ps _ hsep mem name rs rs' hown
  have hunwinding : Unwinding (service F o ps) name (AgreeOn (region o ps name) name) :=
    unwinding_of_within within_act name fun j hj => disjoint_region hsep hj
  exact hunwinding.answersTo_congr hown (.refl _ name _)

/-! ### Runs -/

/-- Scripts that fail on a record of the other kind, and leave it. -/
def wrongType : Foreign S where
  check _ k _ _ := (some (.hash k), none)
  lease _ e _ _ := (some (.entry e.1 e.2), none)
  reconcile _ e _ _ _ := some (.entry e.1 e.2)

/-- Two requests a second. -/
def twoASecond : LimiterSpec FixedWindow.State where
  strategy := FixedWindow.fixedWindow ⟨2, 1000, pair_pos, second_pos⟩
  windowMs := some 1000
  keyPrefix := none
  federated := none

/-- The same across regions. -/
def federatedTwo (keyPrefix : Option String) : LimiterSpec FixedWindow.State :=
  { twoASecond with federated := some ⟨none, keyPrefix⟩ }

/-- A server without a store prefix. -/
def oneServer : Options := ⟨none, true, fun x => toString x.num⟩

/-- A check of a federated policy that is served at once. -/
def served (name : String) (cost now : ℚ) (clock : ℤ) : List (String × Op) :=
  [(name, .check 0 "alice" cost now), (name, .lease 0 clock), (name, .resume 0 now)]

/-- Two federated policies with prefixes of their own, and a plain one. -/
def apart : ConfigFile FixedWindow.State :=
  ⟨none, [("search", federatedTwo (some "fed:search")),
    ("export", federatedTwo (some "fed:export")), ("api", twoASecond)], by decide⟩

theorem policies_isolated_apart : ∃ ps, buildServiceConfig oneServer apart = .ok ps ∧
    answersTo (service wrongType oneServer ps) "export" (start fun _ => none)
        (served "search" 2 0 0 ++ ("api", .check 0 "fed:export:alice" 2 0) :: served "export" 1 1 1)
      = answersTo (service wrongType oneServer ps) "export" (start fun _ => none)
        (served "export" 1 1 1) :=
  ⟨_, rfl, policies_isolated wrongType oneServer apart _ rfl (by decide +kernel) (fun _ => none)
    "export" _ _ rfl⟩

/-- Two federated policies, neither of which sets a prefix. -/
def twoFederated : ConfigFile FixedWindow.State :=
  ⟨none, [("search", federatedTwo none), ("export", federatedTwo none)], by decide⟩

/-- Two plain policies; the name of one goes on after a colon. -/
def nested : ConfigFile FixedWindow.State :=
  ⟨none, [("api", twoASecond), ("api:v2", twoASecond)], by decide⟩

/-- Two plain policies under the default prefix of the file. -/
def inherited : ConfigFile FixedWindow.State :=
  ⟨some "svc", [("read", twoASecond), ("write", twoASecond)], by decide⟩

/-- The answers to a policy when `others` come before `mine`. -/
def answersAfter (ps : List (String × BuiltLimiter FixedWindow.State)) (name : String)
    (others mine : List (String × Op)) : List Answer :=
  answersTo (service wrongType oneServer ps) name (start fun _ => none) (others ++ mine)

theorem policies_interfere :
    (∃ ps, buildServiceConfig oneServer twoFederated = .ok ps ∧
      answersAfter ps "export" (served "search" 2 0 0) (served "export" 1 1 1)
        ≠ answersAfter ps "export" [] (served "export" 1 1 1)) ∧
    (∃ ps, buildServiceConfig oneServer nested = .ok ps ∧
      answersAfter ps "api:v2" [("api", .check 0 "v2:alice" 2 0)] [("api:v2", .check 0 "alice" 1 1)]
        ≠ answersAfter ps "api:v2" [] [("api:v2", .check 0 "alice" 1 1)]) ∧
    ∃ ps, buildServiceConfig oneServer inherited = .ok ps ∧
      answersAfter ps "write" [("read", .check 0 "alice" 2 0)] [("write", .check 0 "alice" 1 1)]
        ≠ answersAfter ps "write" [] [("write", .check 0 "alice" 1 1)] := by
  refine ⟨⟨_, rfl, ?_⟩, ⟨_, rfl, ?_⟩, ⟨_, rfl, ?_⟩⟩
  · decide +kernel
  · decide +kernel
  · decide +kernel

end ThrottleKit.PolicyIsolation
