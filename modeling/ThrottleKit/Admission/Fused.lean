import ThrottleKit.Algorithms.Gcra
import ThrottleKit.Algorithms.TokenBucket
import ThrottleKit.Core.Combine
import ThrottleKit.Core.Limiter
import ThrottleKit.Lib.Lockstep
import ThrottleKit.Redis.Key

/-!
# Admission by one script, and by limiters in turn

An admission with a rate and a cost dimension asks the rate limiter first and the cost limiter only
if that admits. With the fused backend both dimensions are evaluated by one script on Redis, a gcra
on one key and a token bucket on another, and the decisions of the two are combined.

The script evaluates and debits the cost dimension whatever the rate dimension says. A request that
the rate dimension denies thus takes tokens that the limiters in turn leave in the bucket, and a
later request may be denied for want of them.

## Main definitions

* `AxisSnap`, `combineSnapshot` — the decisions of an admission
* `rateAxis`, `costAxis`, `fusedScript`, `dispatchAt` — the fused path
* `admitSequential`, `admitFused` — one admission by either path
* `rateAdmits` — the rate dimension has room for a request

## Main results

* `fused_eq_sequential` — while the rate dimension admits, the two decide the same
* `fused_debits_denied` — without that they do not
-/

namespace ThrottleKit.Admission

open Lockstep Rounding

/-- The decisions of one admission; an axis that is not there or was not consulted has none. -/
structure AxisSnap where
  rate : Option Decision
  conc : Option Decision
  cost : Option Decision

/-- `combineSnapshot(snap)`. -/
def combineSnapshot (snap : AxisSnap) : Decision :=
  combineDecisions (combineDecisions (snap.conc.getD allowFull) (snap.rate.getD allowFull))
    (snap.cost.getD allowFull)

/-- The two dimensions, with the options of the dispatcher. -/
structure Config where
  rate : Gcra.Config
  cost : TokenBucket.Config
  ratePrefix : Option String
  costPrefix : Option String
  ttlFloorMs : ℚ

/-- The floor on the TTL of a key. -/
def Config.ttlFloor (cfg : Config) : ℤ := max 0 ⌊cfg.ttlFloorMs⌋

/-- The two namespaces have no key in common. -/
def Config.Apart (cfg : Config) : Prop :=
  ∀ k k', prefixer cfg.ratePrefix k ≠ prefixer cfg.costPrefix k'

/-- One admission, at the server's clock. -/
structure Request where
  key : String
  cost : ℚ
  now : ℤ

/-- How an admission throws. -/
inductive AdmitError
  /-- The cost limiter refuses the cost. -/
  | badCost (error : CostError)
  /-- The dispatcher refuses the cost. -/
  | badCostTokens (costTokens : ℚ)
  /-- A key holds a value of the other dimension. -/
  | wrongType
deriving DecidableEq

/-- The message of the thrown error. -/
def AdmitError.message : AdmitError → String
  | .badCost error => error.message
  | .badCostTokens costTokens =>
    "costTokens must be a positive finite number, got " ++ toString costTokens
  | .wrongType => "WRONGTYPE Operation against a key holding the wrong kind of value"

/-- The outcome of an admission. -/
inductive Outcome
  | decided (decision : Decision)
  | threw (error : AdmitError)
deriving DecidableEq

/-! ### The limiters in turn -/

/-- The stores of the two limiters. -/
structure Engine where
  rate : Entries ℚ
  cost : Entries TokenBucket.State

/-- Empty stores. -/
def Engine.new : Engine := ⟨.empty, .empty⟩

/-- `admit` with the sequential backend. An admission that the cost limiter denies and one that
nothing denies return the same combination. -/
def admitSequential [Rounding] (cfg : Config) (s : Engine) (r : Request) : Engine × Outcome :=
  let rate := Limiter.check (Gcra.gcra cfg.rate) cfg.ratePrefix s.rate r.key 1 r.now
  match rate.2 with
  | .error error => ({ s with rate := rate.1 }, .threw (.badCost error))
  | .ok d =>
    if d.allowed = false then
      ({ s with rate := rate.1 }, .decided (combineSnapshot ⟨some d, none, none⟩))
    else
      let cost := Limiter.check (TokenBucket.tokenBucket cfg.cost) cfg.costPrefix s.cost r.key
        r.cost r.now
      match cost.2 with
      | .error error => (⟨rate.1, cost.1⟩, .threw (.badCost error))
      | .ok d' => (⟨rate.1, cost.1⟩, .decided (combineSnapshot ⟨some d, none, some d'⟩))

/-! ### The script -/

/-- What a key holds: the string of an arrival time, or the hash of a bucket. -/
inductive Value
  | tat (tat : ℚ)
  | bucket (state : TokenBucket.State)

/-- The keys of the server. -/
abbrev Db := String → Option (Redis.Key Value)

/-- A server with no keys. -/
def Db.new : Db := fun _ => none

/-- `GET key`. -/
def getTat (db : Db) (key : String) (now : ℤ) : Except AdmitError (Option ℚ) :=
  match Redis.read (db key) now with
  | some (.tat tat) => .ok (some tat)
  | some (.bucket _) => .error .wrongType
  | none => .ok none

/-- `HMGET key t l`. -/
def getBucket (db : Db) (key : String) (now : ℤ) : Except AdmitError (Option TokenBucket.State) :=
  match Redis.read (db key) now with
  | some (.bucket state) => .ok (some state)
  | some (.tat _) => .error .wrongType
  | none => .ok none

/-- What an axis of the script replies. -/
structure AxisReply where
  allowed : Bool
  remaining : ℤ
  resetAt : ℤ
  retryAfterMs : ℤ

/-- The rate axis: the reply, and the arrival time to store with its TTL. -/
def rateAxis [Rounding] (cfg : Config) (stored : Option ℚ) (now : ℤ) : AxisReply × Option (ℚ × ℤ) :=
  let rateT := fl (cfg.rate.periodMs / cfg.rate.limit)
  let tau := fl (rateT * cfg.rate.burst)
  let inc := fl (rateT * 1)
  let tat := stored.getD now
  let tat := if tat < now then (now : ℚ) else tat
  let newTat := fl (tat + inc)
  let allowAt := fl (newTat - tau)
  if now < allowAt then
    let remaining := ⌊fl (fl (tau - fl (tat - now)) / rateT)⌋
    (⟨false, if remaining < 0 then 0 else remaining, ⌈tat⌉, ⌈fl (allowAt - now)⌉⟩, none)
  else
    let remaining := ⌊fl (fl (tau - fl (newTat - now)) / rateT)⌋
    let px := ⌈fl (newTat - now)⌉
    let px := if px < 1 then 1 else px
    let px := if px < cfg.ttlFloor then cfg.ttlFloor else px
    (⟨true, if remaining < 0 then 0 else remaining, ⌈newTat⌉, 0⟩, some (newTat, px))

/-- The cost axis: the reply, and the bucket to store with its TTL. -/
def costAxis [Rounding] (cfg : Config) (stored : Option TokenBucket.State) (now : ℤ) (cost : ℚ) :
    AxisReply × Option (TokenBucket.State × ℤ) :=
  let capacity := cfg.cost.capacity
  let refillPerMs := fl (cfg.cost.refillPerSec / 1000)
  let tokens := stored.elim capacity (·.tokens)
  let last := stored.elim (now : ℚ) (·.last)
  let elapsed := fl (now - last)
  let elapsed := if elapsed < 0 then 0 else elapsed
  let tokens := fl (tokens + fl (elapsed * refillPerMs))
  let tokens := if tokens > capacity then capacity else tokens
  let ttl := ⌈fl (capacity / refillPerMs)⌉
  let ttl := if ttl < 1 then 1 else ttl
  let ttl := if ttl < cfg.ttlFloor then cfg.ttlFloor else ttl
  if tokens ≥ cost then
    let newTokens := fl (tokens - cost)
    let remaining := ⌊newTokens⌋
    (⟨true, if remaining < 0 then 0 else remaining,
        Redis.luaInteger (fl (now + ⌈fl (fl (capacity - newTokens) / refillPerMs)⌉)), 0⟩,
      some (⟨newTokens, now⟩, ttl))
  else
    let remaining := ⌊tokens⌋
    (⟨false, if remaining < 0 then 0 else remaining,
      Redis.luaInteger (fl (now + ⌈fl (fl (capacity - tokens) / refillPerMs)⌉)),
      ⌈fl (fl (cost - tokens) / refillPerMs)⌉⟩, none)

/-- The reply of the script: the combination, then the axes. -/
structure Reply where
  allowed : Bool
  limit : ℤ
  remaining : ℤ
  resetAt : ℤ
  retryAfterMs : ℤ
  rate : AxisReply
  cost : AxisReply

/-- The combination in the script. -/
def combineAxes (cfg : Config) (rate cost : AxisReply) : Reply where
  allowed := rate.allowed && cost.allowed
  limit := Redis.luaInteger
    (if cfg.cost.capacity < cfg.rate.burst then cfg.cost.capacity else cfg.rate.burst)
  remaining := if cost.remaining < rate.remaining then cost.remaining else rate.remaining
  resetAt := if cost.resetAt > rate.resetAt then cost.resetAt else rate.resetAt
  retryAfterMs :=
    if cost.retryAfterMs > rate.retryAfterMs then cost.retryAfterMs else rate.retryAfterMs
  rate := rate
  cost := cost

/-- Store what an axis has to store. -/
def Db.store {S : Type} (db : Db) (key : String) (now : ℤ) (value : S → Value) :
    Option (S × ℤ) → Db
  | some (s, px) => Function.update db key (some (Redis.writePx now (value s) px))
  | none => db

/-- The fused script. An error aborts it, and what it has written stays. -/
def fusedScript [Rounding] (cfg : Config) (db : Db) (rateKey costKey : String) (now : ℤ)
    (cost : ℚ) :
    Db × Except AdmitError Reply :=
  match getTat db rateKey now with
  | .error error => (db, .error error)
  | .ok tat =>
    let rate := rateAxis cfg tat now
    let db := db.store rateKey now .tat rate.2
    match getBucket db costKey now with
    | .error error => (db, .error error)
    | .ok bucket =>
      let cost := costAxis cfg bucket now cost
      (db.store costKey now .bucket cost.2, .ok (combineAxes cfg rate.1 cost.1))

/-- The decision of an axis. -/
def AxisReply.decode (a : AxisReply) (limit : ℚ) : Decision :=
  ⟨a.allowed, limit, a.remaining, a.resetAt, a.retryAfterMs⟩

/-- The outcome of the dispatcher. -/
structure FusedAdmissionResult where
  combined : Decision
  rate : Decision
  cost : Decision

/-- `decode(raw, rateLimit, costLimit)`. -/
def decode (raw : Reply) (rateLimit costLimit : ℚ) : FusedAdmissionResult where
  combined := ⟨raw.allowed, raw.limit, raw.remaining, raw.resetAt, raw.retryAfterMs⟩
  rate := raw.rate.decode rateLimit
  cost := raw.cost.decode costLimit

/-- `dispatchAt(key, costTokens, now)`. -/
def dispatchAt [Rounding] (cfg : Config) (db : Db) (key : String) (costTokens : ℚ) (now : ℤ) :
    Db × Except AdmitError FusedAdmissionResult :=
  if costTokens ≤ 0 then (db, .error (.badCostTokens costTokens))
  else
    let out := fusedScript cfg db (prefixer cfg.ratePrefix key) (prefixer cfg.costPrefix key) now
      costTokens
    (out.1, out.2.map (decode · cfg.rate.burst cfg.cost.capacity))

/-- `admit` with the fused backend. A denied admission and one that nothing denies return the same
combination of the decisions of the axes. -/
def admitFused [Rounding] (cfg : Config) (db : Db) (r : Request) : Db × Outcome :=
  let out := dispatchAt cfg db r.key r.cost r.now
  match out.2 with
  | .error error => (out.1, .threw error)
  | .ok result => (out.1, .decided (combineSnapshot ⟨some result.rate, none, some result.cost⟩))

/-! ### The axes of the script against the strategies -/

variable {S : Type}

/-- What an axis of the script does is what a transition of its strategy does, with a TTL no
shorter. -/
structure Runs (axis : AxisReply × Option (S × ℤ)) (limit : ℚ) (out : ApplyOutcome S Decision) :
    Prop where
  reply : axis.1.decode limit = out.result
  stored : ∀ s px, axis.2 = some (s, px) → out.persist = true ∧ out.state = some s ∧ out.ttlMs ≤ px
  kept : axis.2 = none → out.persist = false

/-- `if remaining < 0 then remaining = 0`. -/
theorem cast_clamp (z : ℤ) : ((if z < 0 then 0 else z : ℤ) : ℚ) = max 0 (z : ℚ) := by
  rw [← max_def_lt]
  push_cast
  exact max_comm _ _

/-- A TTL that is raised to one and to the floor. -/
theorem le_cast_ttl (z floor : ℤ) : max 1 (z : ℚ) ≤
    ((if (if z < 1 then 1 else z) < floor then floor else if z < 1 then 1 else z : ℤ) : ℚ) := by
  rw [← max_def_lt, ← max_def_lt]
  push_cast
  rw [max_comm 1 (z : ℚ)]
  exact le_max_left _ _

theorem runs_rateAxis [Rounding] (cfg : Config) (stored : Option ℚ) (now : ℤ) :
    Runs (rateAxis cfg stored now) cfg.rate.burst (Gcra.check cfg.rate stored now 1) := by
  have htat : (if stored.getD (now : ℚ) < now then (now : ℚ) else stored.getD now)
      = max (stored.getD now) now := (max_def_lt _ _).symm
  unfold rateAxis Gcra.check Gcra.Config.tau Gcra.Config.T
  dsimp only
  rw [htat]
  split
  · exact ⟨by simp only [AxisReply.decode, cast_clamp], by simp, fun _ => rfl⟩
  · refine ⟨by simp only [AxisReply.decode, cast_clamp, Int.cast_zero], ?_, by simp⟩
    rintro s px ⟨⟩
    exact ⟨rfl, rfl, le_cast_ttl _ _⟩

/-- The sum of whole numbers is replied as it is rounded. -/
theorem cast_luaInteger_fl_add [Rounding] (now z : ℤ) :
    ((Redis.luaInteger (fl (now + z)) : ℤ) : ℚ) = fl (now + z) := by
  obtain ⟨m, hm⟩ := exists_fl_intCast (now + z)
  rw [Int.cast_add] at hm
  rw [hm, Redis.luaInteger_intCast]

theorem runs_costAxis [Rounding] (cfg : Config) (stored : Option TokenBucket.State) (now : ℤ)
    (cost : ℚ) :
    Runs (costAxis cfg stored now cost) cfg.cost.capacity
      (TokenBucket.check cfg.cost stored now cost) := by
  have helapsed (x : ℚ) : (if x < 0 then 0 else x) = max 0 x := by
    rw [← max_def_lt, max_comm]
  have htokens (x : ℚ) : (if x > cfg.cost.capacity then cfg.cost.capacity else x)
      = min cfg.cost.capacity x := (min_def_lt _ _).symm
  unfold costAxis TokenBucket.check TokenBucket.tokensAt TokenBucket.Config.ttlMs
    TokenBucket.Config.refillPerMs
  simp only [helapsed, htokens, ge_iff_le]
  split
  · refine ⟨?_, ?_, by simp⟩
    · simp only [AxisReply.decode, cast_clamp, Int.cast_zero, cast_luaInteger_fl_add]
    · rintro s px ⟨⟩
      exact ⟨rfl, rfl, le_cast_ttl _ _⟩
  · exact ⟨by simp only [AxisReply.decode, cast_clamp, cast_luaInteger_fl_add], by simp,
      fun _ => rfl⟩

/-! ### The two paths in step -/

/-- From `now` on, no check tells what the script finds from what the limiter of the axis finds. -/
def AxisAgree [Rounding] (check : Option S → ℚ → ℚ → ApplyOutcome S Decision) (now : ℤ)
    (found : ℤ → Except AdmitError (Option S)) (e : Entries S) (key : String) : Prop :=
  ∀ t : ℤ, now ≤ t → Unrounded t → ∃ v, found t = .ok v ∧ SameAt check t (e.pending key t) v

variable [Rounding] {check : Option S → ℚ → ℚ → ApplyOutcome S Decision} {now : ℤ}
  {cost limit : ℚ} {spent : S → ℚ → Prop} {found found' : ℤ → Except AdmitError (Option S)}
  {e : Entries S} {key : String} {v : Option S}
  {axis : AxisReply × Option (S × ℤ)}

/-- One axis of one admission, on the key `key`. -/
theorem AxisAgree.step (h : AxisAgree check now found e key) (hnow : Unrounded now)
    (hmono : ∀ {s t t'}, t ≤ t' → spent s t → spent s t')
    (hspent : ∀ {s t}, spent s t → ∀ cost, (check (some s) t cost).seen = (check none t cost).seen)
    (hv : found now = .ok v) (hlast : LastsTo spent check v now cost)
    (hruns : Runs axis limit (check v now cost)) (hkept : axis.2 = none → found' = found)
    (hstored : ∀ s px, axis.2 = some (s, px) →
      ∀ t, found' t = .ok (if t ≤ now + px then some s else none)) :
    axis.1.decode limit = (check (e.pending key now) now cost).result ∧
      AxisAgree check now found'
        (e.applySync key (fun state => check state now cost) now).1 key := by
  obtain ⟨v', hv', hsame⟩ := h now le_rfl hnow
  obtain rfl : v' = v := Except.ok.inj (hv'.symm.trans hv)
  refine ⟨hruns.reply.trans (hsame.result_eq cost).symm, ?_⟩
  cases haxis : axis.2 with
  | none =>
    have hpersist := (hsame.persist_eq cost).trans (hruns.kept haxis)
    rw [Entries.applySync_of_not_persist hpersist, hkept haxis]
    exact h
  | some w =>
    obtain ⟨s, px⟩ := w
    obtain ⟨hpersist, hstate, httl⟩ := hruns.stored s px haxis
    obtain ⟨hpersist', hstate', httl'⟩ := hsame.write_eq hpersist hstate
    have hdue := hlast s hstate hpersist
    intro t _ ht
    refine ⟨_, hstored s px haxis t, ?_⟩
    rw [Entries.pending_applySync hpersist' hstate', httl']
    refine sameAt_of_spent (s := s) (by split <;> simp) (by split <;> simp) ?_
    -- whichever side has dropped the state, its TTL has run out
    rintro (hnone | hnone)
    · split at hnone
      · rename_i hend
        exact hspent (hmono ((mono (add_le_add_right (le_max_right 0 _) _)).trans hend) hdue)
      · cases hnone
    · split at hnone
      · cases hnone
      · rename_i hend
        have hend' : ((now + px : ℤ) : ℚ) < t := by exact_mod_cast not_le.mp hend
        push_cast at hend'
        refine hspent (hmono (le_trans (mono ?_) (ht : fl _ = _).le) hdue)
        linarith

/-- One axis of one admission, on the keys `name k`. -/
theorem axisAgree_step {name : String → String} {k : String}
    {found : String → ℤ → Except AdmitError (Option S)}
    (found' : String → ℤ → Except AdmitError (Option S))
    (h : ∀ k, AxisAgree check now (found (name k)) e (name k)) (hnow : Unrounded now)
    (hmono : ∀ {s t t'}, t ≤ t' → spent s t → spent s t')
    (hspent : ∀ {s t}, spent s t → ∀ cost, (check (some s) t cost).seen = (check none t cost).seen)
    (hv : found (name k) now = .ok v) (hlast : LastsTo spent check v now cost)
    (hruns : Runs axis limit (check v now cost))
    (hother : ∀ k', name k' ≠ name k → found' (name k') = found (name k'))
    (hkept : axis.2 = none → found' (name k) = found (name k))
    (hstored : ∀ s px, axis.2 = some (s, px) →
      ∀ t, found' (name k) t = .ok (if t ≤ now + px then some s else none)) :
    axis.1.decode limit = (check (e.pending (name k) now) now cost).result ∧
      ∀ k', AxisAgree check now (found' (name k'))
        (e.applySync (name k) (fun state => check state now cost) now).1 (name k') := by
  obtain ⟨hreply, hagree⟩ :=
    AxisAgree.step (h k) hnow @hmono @hspent hv hlast hruns hkept hstored
  refine ⟨hreply, fun k' t hle ht => ?_⟩
  by_cases hk : name k' = name k
  · rw [hk]
    exact hagree t hle ht
  · rw [Entries.pending_applySync_of_ne hk, hother k' hk]
    exact h k' t hle ht

omit [Rounding] in
theorem store_of_ne (db : Db) (value : S → Value) (now : ℤ) (w : Option (S × ℤ)) {key k : String}
    (hk : k ≠ key) : db.store key now value w k = db k := by
  cases w with
  | none => rfl
  | some w => exact Function.update_of_ne hk _ _

omit [Rounding] in
theorem getTat_congr {db db' : Db} (h : db' key = db key) : getTat db' key = getTat db key := by
  funext t
  rw [getTat, getTat, h]

omit [Rounding] in
theorem getBucket_congr {db db' : Db} (h : db' key = db key) :
    getBucket db' key = getBucket db key := by
  funext t
  rw [getBucket, getBucket, h]

omit [Rounding] in
theorem getTat_store (db : Db) (key : String) (now : ℤ) (s : ℚ) (px t : ℤ) :
    getTat (db.store key now .tat (some (s, px))) key t
      = .ok (if t ≤ now + px then some s else none) := by
  rw [getTat, Db.store, Function.update_self, Redis.read_writePx]
  split <;> simp_all

omit [Rounding] in
theorem getBucket_store (db : Db) (key : String) (now : ℤ) (s : TokenBucket.State) (px t : ℤ) :
    getBucket (db.store key now .bucket (some (s, px))) key t
      = .ok (if t ≤ now + px then some s else none) := by
  rw [getBucket, Db.store, Function.update_self, Redis.read_writePx]
  split <;> simp_all

/-- From `now` on, the two paths find the same on every key. -/
structure InStep (cfg : Config) (now : ℤ) (db : Db) (s : Engine) : Prop where
  rate : ∀ key, AxisAgree (Gcra.check cfg.rate) now (getTat db (prefixer cfg.ratePrefix key)) s.rate
    (prefixer cfg.ratePrefix key)
  cost : ∀ key, AxisAgree (TokenBucket.check cfg.cost) now
    (getBucket db (prefixer cfg.costPrefix key)) s.cost (prefixer cfg.costPrefix key)

theorem inStep_new (cfg : Config) (now : ℤ) : InStep cfg now Db.new Engine.new where
  rate _ _ _ _ := ⟨none, rfl, fun _ => rfl⟩
  cost _ _ _ _ := ⟨none, rfl, fun _ => rfl⟩

theorem InStep.mono {cfg : Config} {now now' : ℤ} {db : Db} {s : Engine} (hle : now ≤ now')
    (h : InStep cfg now db s) : InStep cfg now' db s where
  rate key t ht := h.rate key t (hle.trans ht)
  cost key t ht := h.cost key t (hle.trans ht)

/-- The rate dimension has room for a request: one more emission interval fits the burst. -/
def rateAdmits (cfg : Config) (db : Db) (r : Request) : Bool :=
  match getTat db (prefixer cfg.ratePrefix r.key) r.now with
  | .ok stored =>
    fl (fl (max (stored.getD r.now) r.now + fl (cfg.rate.T * 1)) - cfg.rate.tau) ≤ r.now
  | .error _ => false

/-- What a request writes is spent by the instant at which it is due: the arrival time has passed,
the bucket computes as full. -/
def LeavesSpent (cfg : Config) (db : Db) (r : Request) : Prop :=
  (∀ tat ∈ (getTat db (prefixer cfg.ratePrefix r.key) r.now).toOption,
    LastsTo (· ≤ ·) (Gcra.check cfg.rate) tat r.now 1) ∧
  ∀ bucket ∈ (getBucket db (prefixer cfg.costPrefix r.key) r.now).toOption,
    LastsTo (TokenBucket.Full cfg.cost) (TokenBucket.check cfg.cost) bucket r.now r.cost

instance LeavesSpent.decidable (cfg : Config) (db : Db) (r : Request) :
    Decidable (LeavesSpent cfg db r) :=
  inferInstanceAs (Decidable (_ ∧ _))

/-- The rate dimension has room for a request, its cost is one that limiters accept, the clock reads
a number, and what it writes is spent when it is due. -/
def RateAdmits (cfg : Config) (db : Db) (r : Request) : Prop :=
  rateAdmits cfg db r = true ∧ (0 < r.cost ∧ r.cost ≤ maxSafeInteger) ∧ Unrounded r.now ∧
    LeavesSpent cfg db r

instance RateAdmits.decidable (cfg : Config) (db : Db) (r : Request) :
    Decidable (RateAdmits cfg db r) :=
  inferInstanceAs (Decidable (_ ∧ _))

omit [Rounding] in
instance (cfg : Config) (db : Db) (r : Request) : Decidable (@RateAdmits doubles cfg db r) :=
  @RateAdmits.decidable doubles cfg db r

section Step

variable {cfg : Config} {db : Db} {s : Engine} {r : Request} {tat : Option ℚ}
  {bucket : Option TokenBucket.State}

omit [Rounding] in
theorem requireCost_of_pos (hpos : 0 < cost) (hle : cost ≤ maxSafeInteger) :
    requireCost cost = .ok () := by
  rw [requireCost, if_neg (not_le.mpr hpos), if_neg (not_lt.mpr hle)]

/-- The server after an admission, from what its two reads find. -/
def Db.admitted (cfg : Config) (db : Db) (r : Request) (tat : Option ℚ)
    (bucket : Option TokenBucket.State) : Db :=
  (db.store (prefixer cfg.ratePrefix r.key) r.now .tat (rateAxis cfg tat r.now).2).store
    (prefixer cfg.costPrefix r.key) r.now .bucket (costAxis cfg bucket r.now r.cost).2

/-- An admission by the script, from what its two reads find. -/
theorem admitFused_eq (hapart : cfg.Apart) (hpos : 0 < r.cost)
    (htat : getTat db (prefixer cfg.ratePrefix r.key) r.now = .ok tat)
    (hbucket : getBucket db (prefixer cfg.costPrefix r.key) r.now = .ok bucket) :
    admitFused cfg db r = (db.admitted cfg r tat bucket, .decided (combineSnapshot
      ⟨some ((rateAxis cfg tat r.now).1.decode cfg.rate.burst), none,
        some ((costAxis cfg bucket r.now r.cost).1.decode cfg.cost.capacity)⟩)) := by
  have hbucket' : getBucket (db.store (prefixer cfg.ratePrefix r.key) r.now .tat
      (rateAxis cfg tat r.now).2) (prefixer cfg.costPrefix r.key) r.now = .ok bucket := by
    rw [getBucket_congr (store_of_ne db _ _ _ (hapart r.key r.key).symm), hbucket]
  unfold admitFused dispatchAt fusedScript
  rw [if_neg (not_le.mpr hpos), htat]
  dsimp only
  rw [hbucket']
  rfl

/-- An admission by the limiters, when the rate limiter admits. -/
theorem admitSequential_eq
    (hrate : (Gcra.check cfg.rate (s.rate.pending (prefixer cfg.ratePrefix r.key) r.now) r.now
      1).result.allowed = true) (hcost : requireCost r.cost = .ok ()) :
    admitSequential cfg s r =
      (⟨(s.rate.applySync (prefixer cfg.ratePrefix r.key)
          (fun state => Gcra.check cfg.rate state r.now 1) r.now).1,
        (s.cost.applySync (prefixer cfg.costPrefix r.key)
          (fun state => TokenBucket.check cfg.cost state r.now r.cost) r.now).1⟩,
        .decided (combineSnapshot ⟨some (Gcra.check cfg.rate
            (s.rate.pending (prefixer cfg.ratePrefix r.key) r.now) r.now 1).result, none,
          some (TokenBucket.check cfg.cost
            (s.cost.pending (prefixer cfg.costPrefix r.key) r.now) r.now r.cost).result⟩)) := by
  have hone : requireCost 1 = .ok () := requireCost_of_pos one_pos (by norm_num [maxSafeInteger])
  unfold admitSequential
  rw [Limiter.check_of_requireCost hone, Limiter.check_of_requireCost hcost]
  simp only [Gcra.gcra, TokenBucket.tokenBucket, hrate]
  rfl

theorem Gcra.allowed_of_fits {cfg : Gcra.Config} {stored : Option ℚ} {now : ℚ}
    (h : fl (fl (max (stored.getD now) now + fl (cfg.T * 1)) - cfg.tau) ≤ now) :
    (Gcra.check cfg stored now 1).result.allowed = true := by
  rw [Gcra.check, if_neg (not_lt.mpr h)]

/-- The two paths after one admission that the rate dimension has room for. -/
theorem InStep.answered (h : InStep cfg r.now db s) (hapart : cfg.Apart)
    (hcapacity : Unrounded cfg.cost.capacity) (hok : RateAdmits cfg db r) :
    (admitFused cfg db r).2 = (admitSequential cfg s r).2 ∧
      InStep cfg r.now (admitFused cfg db r).1 (admitSequential cfg s r).1 := by
  obtain ⟨hadmits, ⟨hpos, hle⟩, hnow, hlastRate, hlastCost⟩ := hok
  obtain ⟨tat, htat, hrate⟩ := h.rate r.key r.now le_rfl hnow
  obtain ⟨bucket, hbucket, -⟩ := h.cost r.key r.now le_rfl hnow
  have hallowed : (Gcra.check cfg.rate (s.rate.pending (prefixer cfg.ratePrefix r.key) r.now) r.now
      1).result.allowed = true := by
    rw [hrate.result_eq]
    rw [rateAdmits, htat] at hadmits
    exact Gcra.allowed_of_fits (of_decide_eq_true hadmits)
  rw [admitFused_eq hapart hpos htat hbucket,
    admitSequential_eq hallowed (requireCost_of_pos hpos hle)]
  -- Each axis writes its own key, which is no key of the other.
  have htat' (k : String) : getTat (db.admitted cfg r tat bucket) (prefixer cfg.ratePrefix k)
      = getTat (db.store (prefixer cfg.ratePrefix r.key) r.now .tat (rateAxis cfg tat r.now).2)
        (prefixer cfg.ratePrefix k) :=
    getTat_congr (store_of_ne _ _ _ _ (hapart k r.key))
  have hbucket' (k : String) : (db.store (prefixer cfg.ratePrefix r.key) r.now .tat
      (rateAxis cfg tat r.now).2) (prefixer cfg.costPrefix k) = db (prefixer cfg.costPrefix k) :=
    store_of_ne _ _ _ _ (hapart r.key k).symm
  obtain ⟨hrateReply, hrateAgree⟩ := axisAgree_step (getTat (db.admitted cfg r tat bucket)) h.rate
    hnow (fun hle' h' => h'.trans hle') Gcra.seen_of_le htat (hlastRate tat (by rw [htat]; rfl))
    (runs_rateAxis cfg tat r.now)
    (fun k hk => (htat' k).trans (getTat_congr (store_of_ne _ _ _ _ hk)))
    (fun hnone => by rw [htat', hnone]; rfl)
    (fun s px hsome t => by rw [htat', hsome, getTat_store])
  obtain ⟨hcostReply, hcostAgree⟩ := axisAgree_step
    (getBucket (db.admitted cfg r tat bucket)) h.cost hnow (fun hle' h' => h'.mono hle')
    (TokenBucket.seen_of_full hcapacity) hbucket (hlastCost bucket (by rw [hbucket]; rfl))
    (runs_costAxis cfg bucket r.now r.cost)
    (fun k hk => getBucket_congr ((store_of_ne _ _ _ _ hk).trans (hbucket' k)))
    (fun hnone => getBucket_congr (by rw [Db.admitted, hnone]; exact hbucket' r.key))
    (fun s px hsome t => by rw [Db.admitted, hsome, getBucket_store])
  refine ⟨?_, hrateAgree, hcostAgree⟩
  rw [hrateReply, hcostReply]

/-- The limiters in turn leave the bucket alone when the rate limiter denies. -/
theorem admitSequential_of_denied
    (hrate : (Gcra.check cfg.rate (s.rate.pending (prefixer cfg.ratePrefix r.key) r.now) r.now
      1).result.allowed = false) : (admitSequential cfg s r).1.cost = s.cost := by
  have hone : requireCost 1 = .ok () := requireCost_of_pos one_pos (by norm_num [maxSafeInteger])
  unfold admitSequential
  rw [Limiter.check_of_requireCost hone]
  simp only [Gcra.gcra, hrate, if_true]

/-- The script takes the tokens if they are there, whatever the rate dimension says. -/
theorem admitFused_debits (hapart : cfg.Apart) (hpos : 0 < r.cost)
    (htat : getTat db (prefixer cfg.ratePrefix r.key) r.now = .ok tat)
    (hbucket : getBucket db (prefixer cfg.costPrefix r.key) r.now = .ok bucket)
    (hfits : r.cost ≤ TokenBucket.tokensAt cfg.cost bucket r.now) :
    getBucket (admitFused cfg db r).1 (prefixer cfg.costPrefix r.key) r.now
      = .ok (some ⟨fl (TokenBucket.tokensAt cfg.cost bucket r.now - r.cost), r.now⟩) := by
  have hruns := runs_costAxis cfg bucket r.now r.cost
  rw [TokenBucket.check, if_pos hfits] at hruns
  rw [admitFused_eq hapart hpos htat hbucket, Db.admitted]
  cases haxis : (costAxis cfg bucket r.now r.cost).2 with
  | none => cases hruns.kept haxis
  | some w =>
    obtain ⟨state, px⟩ := w
    obtain ⟨-, hstate, httl⟩ := hruns.stored state px haxis
    have hpx : 0 ≤ px := by
      have hone : (1 : ℚ) ≤ px := (le_max_left _ _).trans httl
      exact_mod_cast zero_le_one.trans hone
    rw [getBucket_store, if_pos (by omega), ← hstate]

end Step

/-- **The script and the limiters in turn decide the same**, request by request, in every run in
which the rate dimension has room for each request and what it writes is spent when it is due. The
cost dimension may deny any of them. -/
theorem fused_eq_sequential {cfg : Config} (hapart : cfg.Apart)
    (hcapacity : Unrounded cfg.cost.capacity) {rs : List Request}
    (hsorted : rs.Pairwise fun r r' => r.now ≤ r'.now)
    (hadmits : AllMet (admitFused cfg) (RateAdmits cfg) Db.new rs) :
    answers (admitFused cfg) Db.new rs = answers (admitSequential cfg) Engine.new rs := by
  rw [← List.forall₂_eq_eq_eq]
  exact forall₂_answers_of_start (R := InStep cfg) (fun hle => InStep.mono hle)
    (fun _ _ _ h hok => h.answered hapart hcapacity hok) (inStep_new cfg) hsorted hadmits

omit [Rounding]

theorem ten_pos : (0 : ℚ) < 10 := by norm_num

/-- One request a second, and a bucket of ten tokens that drips one a second. -/
def onePerSecond : Config where
  rate := ⟨1, 1000, 1, unit_pos, second_pos, one_le_unit⟩
  cost := ⟨10, 1, ten_pos, unit_pos⟩
  ratePrefix := some "rate"
  costPrefix := some "cost"
  ttlFloorMs := 0

theorem onePerSecond_apart : onePerSecond.Apart := by
  intro k k' h
  rw [onePerSecond, prefixer_some (by decide), prefixer_some (by decide)] at h
  have hlist := congrArg String.toList h
  simp at hlist

/-- Three requests at the rate of the rate dimension, the last denied by the cost dimension. -/
theorem fused_eq_sequential_three :
    answers (@admitFused doubles onePerSecond) Db.new
        [⟨"acme", 6, 1000⟩, ⟨"acme", 4, 2000⟩, ⟨"acme", 9, 3000⟩]
      = answers (@admitSequential doubles onePerSecond) Engine.new
        [⟨"acme", 6, 1000⟩, ⟨"acme", 4, 2000⟩, ⟨"acme", 9, 3000⟩] :=
  @fused_eq_sequential doubles onePerSecond onePerSecond_apart (by decide +kernel) _
    (by decide +kernel) (by decide +kernel)

/-- Two requests of five tokens at once, and a third a second later. The rate dimension denies the
second. The script has taken its tokens and denies the third, which the limiters in turn admit. -/
theorem fused_debits_denied :
    ¬ ∀ cfg : Config, cfg.Apart → ∀ rs : List Request, rs.Pairwise (fun r r' => r.now ≤ r'.now) →
      (∀ r ∈ rs, 0 < r.cost ∧ r.cost ≤ maxSafeInteger) →
        answers (@admitFused doubles cfg) Db.new rs
          = answers (@admitSequential doubles cfg) Engine.new rs := by
  intro h
  have hrun := h onePerSecond onePerSecond_apart
    [⟨"acme", 5, 1000⟩, ⟨"acme", 5, 1000⟩, ⟨"acme", 5, 2000⟩] (by decide +kernel)
    (by decide +kernel)
  exact absurd (congrArg List.getLast? hrun) (by decide +kernel)

end ThrottleKit.Admission
