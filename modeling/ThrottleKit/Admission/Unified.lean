import ThrottleKit.Admission.Fused
import ThrottleKit.Admission.JointLp
import ThrottleKit.Concurrency.Adaptive
import ThrottleKit.Lib.Machine

/-!
# Slots of unified admission

An admission takes a concurrency slot first, then passes the bid-price filter, then asks the rate
and cost limiters or the fused script. It gives the slot back on every exit but an admission, which
hands it to the caller with a `release` that may be called any number of times.

## The asynchronous code as steps

`admit` is taken apart at its awaits: `admit` is the code up to the first, `rateSettles`,
`costSettles` and `fusedSettles` the code from one to the next, with the answer of the limiter or
what it threw. Any number of admissions are under way at once. `admitSync` is the same code with
no step in between. What a limiter answers is open.

`releaseCalls` counts the calls the caller has made and is read by no code.

## Main definitions

* `Config`, `Admission`, `State` — the data
* `Act`, `Event`, `step` — the code in any interleaving

## Main results

* `slots_accounted` — the in-flight count in every reachable state
-/

namespace ThrottleKit.Unified

open ThrottleKit.Admission ThrottleKit.Adaptive ThrottleKit.JointLp

/-- The options of `unifiedAdmission` with a concurrency axis. -/
structure Config where
  guard : Adaptive.Config
  /-- Whether there is a rate limiter. -/
  rate : Bool
  /-- Whether there is a cost limiter. -/
  cost : Bool
  /-- The options of the dispatcher with the fused backend. -/
  fused : Option Admission.Config
  /-- The bid prices of the joint policy. -/
  duals : Option Duals
  /-- The warm-up of the joint policy. -/
  adaptive : Option AdaptiveState
  /-- `solveFluidLp`. -/
  solve : FluidLpInput → Except String Duals

/-- The axes an admission can be bound by. -/
inductive UnifiedAxis
  | rate
  | concurrency
  | cost
deriving DecidableEq

/-- What the `release` of an admission does. -/
inductive Release
  | noop
  | lease
deriving DecidableEq

/-- The result of an admission. -/
structure UnifiedAdmission where
  decision : Decision
  release : Release
  bindingAxis : Option UnifiedAxis
  policyDenied : Bool

/-- How far an admission has come. -/
inductive Stage
  | awaitsRate
  | awaitsCost
  | awaitsFused
  | returned (result : UnifiedAdmission)
  | threw (err : String)

/-- The arguments of `admit`. -/
structure AdmitOptions where
  key : String
  cost : ℚ
  value : ℚ
  hold : ℚ

/-- An admission. -/
structure Admission where
  opts : AdmitOptions
  stage : Stage
  snap : AxisSnap
  lease : Option Lease
  /-- Ghost: how often the caller has called `release`. -/
  releaseCalls : ℕ

/-- The state of an admitter and its guard. -/
structure State where
  guard : Guard
  adaptive : Option AdaptiveState
  admissions : List Admission
  lastSnap : AxisSnap

/-- An admitter as constructed. -/
def State.new (cfg : Config) (now : ℚ) : State :=
  ⟨.new cfg.guard now, cfg.adaptive, [], ⟨none, none, none⟩⟩

/-- What can happen. Clock readings are part of the action. -/
inductive Act
  /-- `admit(opts)`, up to its first await. -/
  | admission (opts : AdmitOptions) (acquireAt shimAt releaseAt : ℚ)
  /-- The rate limiter answers admission `i`, or throws. -/
  | rateSettles (i : ℕ) (answer : Except String Decision) (now : ℚ)
  | costSettles (i : ℕ) (answer : Except String Decision) (now : ℚ)
  /-- The script answers with its two axes, or throws. -/
  | fusedSettles (i : ℕ) (answer : Except String (AxisReply × AxisReply)) (now : ℚ)
  /-- The caller calls the `release` of admission `i`. -/
  | release (i : ℕ) (dropped : Bool) (now : ℚ)

/-- What a step makes visible. -/
inductive Event
  | rateCheck (key : String) (cost : ℚ)
  | costCheck (key : String) (cost : ℚ)
  | dispatch (key : String) (costTokens : ℚ)
  | returned (i : ℕ) (result : UnifiedAdmission)
  | threw (i : ℕ) (err : String)

/-! ### The code -/

/-- `leaseRelease?.({ dropped })`. -/
def leaseRelease (cfg : Config) (g : Guard) (lease : Option Lease) (dropped : Bool) (now : ℚ) :
    Guard × Option Lease :=
  match lease with
  | some lease =>
    let out := lease.doRelease cfg.guard g dropped now
    (out.1, some out.2)
  | none => (g, none)

/-- `deriveBindingAxis(snap)`: the first denial in the order of evaluation. -/
def deriveBindingAxis (snap : AxisSnap) : Option UnifiedAxis :=
  if snap.conc.any (!·.allowed) then some .concurrency
  else if snap.rate.any (!·.allowed) then some .rate
  else if snap.cost.any (!·.allowed) then some .cost
  else none

/-- `denyResult(decision, snap)`. -/
def denyResult (decision : Decision) (snap : AxisSnap) : UnifiedAdmission :=
  ⟨decision, .noop, deriveBindingAxis snap, false⟩

/-- `finalize(leaseRelease, snap)`. -/
def finalize (snap : AxisSnap) : UnifiedAdmission := ⟨combineSnapshot snap, .lease, none, false⟩

/-- `denyByPolicy(d)`. -/
def denyByPolicy (d : Decision) : Decision :=
  { d with allowed := false, remaining := 0, retryAfterMs := 0 }

namespace State

/-- A new admission, with the guard it leaves. -/
def push (s : State) (guard : Guard) (a : Admission) : State :=
  { s with guard := guard, admissions := s.admissions ++ [a] }

/-- Admission `i` has moved on, with the guard it leaves. -/
def put (s : State) (i : ℕ) (guard : Guard) (a : Admission) : State :=
  { s with guard := guard, admissions := s.admissions.set i a }

end State

/-- The code of an admission once the rate axis is done: the cost check, or the end. -/
def toCost (cfg : Config) (a : Admission) : Admission :=
  { a with stage := if cfg.cost then .awaitsCost else .returned (finalize a.snap) }

/-- The code of an admission behind the filter. -/
def toAxes (cfg : Config) (a : Admission) : Admission :=
  if cfg.fused.isSome then { a with stage := .awaitsFused }
  else if cfg.rate then { a with stage := .awaitsRate }
  else toCost cfg a

/-- What is seen of an admission that has come to its stage. -/
def seen (i : ℕ) (a : Admission) : List Event :=
  match a.stage with
  | .awaitsRate => [.rateCheck a.opts.key 1]
  | .awaitsCost => [.costCheck a.opts.key a.opts.cost]
  | .awaitsFused => [.dispatch a.opts.key a.opts.cost]
  | .returned result => [.returned i result]
  | .threw err => [.threw i err]

/-- `lastSnap = snap` on every return. -/
def lastSnapAfter (s : State) (a : Admission) : AxisSnap :=
  match a.stage with
  | .returned _ => a.snap
  | _ => s.lastSnap

/-- The slot goes back, and the admission ends at `stage`. -/
def giveBack (cfg : Config) (g : Guard) (a : Admission) (stage : Stage) (now : ℚ) :
    Guard × Admission :=
  let out := leaseRelease cfg g a.lease false now
  (out.1, { a with stage := stage, lease := out.2 })

/-- `admit(opts)` up to its first await: the guard, the warm-up and the new admission. -/
def begin (cfg : Config) (s : State) (opts : AdmitOptions) (acquireAt shimAt releaseAt : ℚ) :
    Guard × Option AdaptiveState × Admission :=
  let conc := leaseAsAdmission cfg.guard s.guard acquireAt shimAt
  let snap : AxisSnap := ⟨none, some conc.2.2, none⟩
  match conc.2.1 with
  | none => (conc.1, s.adaptive, ⟨opts, .returned (denyResult conc.2.2 snap), snap, none, 0⟩)
  | some lease =>
    let policy := gate cfg.solve cfg.duals s.adaptive opts.value opts.cost opts.hold
    if policy.2 = false then
      let result := ⟨denyByPolicy (combineSnapshot snap), .noop, none, true⟩
      let out := giveBack cfg conc.1 ⟨opts, .awaitsRate, snap, some lease, 0⟩ (.returned result)
        releaseAt
      (out.1, policy.1, out.2)
    else (conc.1, policy.1, toAxes cfg ⟨opts, .awaitsRate, snap, some lease, 0⟩)

/-- The code behind `await rate.check(key, 1)`. -/
def onRate (cfg : Config) (g : Guard) (a : Admission) (answer : Except String Decision) (now : ℚ) :
    Guard × Admission :=
  match answer with
  | .error err => giveBack cfg g a (.threw err) now
  | .ok d =>
    let a := { a with snap := { a.snap with rate := some d } }
    if d.allowed = false then
      giveBack cfg g a (.returned (denyResult (combineSnapshot a.snap) a.snap)) now
    else (g, toCost cfg a)

/-- The code behind `await cost.check(key, requestCost)`. -/
def onCost (cfg : Config) (g : Guard) (a : Admission) (answer : Except String Decision) (now : ℚ) :
    Guard × Admission :=
  match answer with
  | .error err => giveBack cfg g a (.threw err) now
  | .ok d =>
    let a := { a with snap := { a.snap with cost := some d } }
    if d.allowed = false then
      giveBack cfg g a (.returned (denyResult (combineSnapshot a.snap) a.snap)) now
    else (g, { a with stage := .returned (finalize a.snap) })

/-- The code behind `await fusedDispatcher.dispatch(key, requestCost)`. -/
def onFused (cfg : Config) (fused : Admission.Config) (g : Guard) (a : Admission)
    (answer : Except String (AxisReply × AxisReply)) (now : ℚ) : Guard × Admission :=
  match answer with
  | .error err => giveBack cfg g a (.threw err) now
  | .ok axes =>
    let result := decode (combineAxes fused axes.1 axes.2) fused.rate.burst fused.cost.capacity
    let a := { a with snap := { a.snap with rate := some result.rate, cost := some result.cost } }
    if result.combined.allowed = false then
      giveBack cfg g a (.returned (denyResult (combineSnapshot a.snap) a.snap)) now
    else (g, { a with stage := .returned (finalize a.snap) })

/-- `release({ dropped })` of a returned admission. -/
def onRelease (cfg : Config) (g : Guard) (a : Admission) (result : UnifiedAdmission)
    (dropped : Bool) (now : ℚ) : Guard × Admission :=
  let a := { a with releaseCalls := a.releaseCalls + 1 }
  match result.release with
  | .noop => (g, a)
  | .lease =>
    let out := leaseRelease cfg g a.lease dropped now
    (out.1, { a with lease := out.2 })

/-- Admission `i` resumes. -/
def resume (s : State) (i : ℕ) (out : Guard × Admission) : State × List Event :=
  ({ s.put i out.1 out.2 with lastSnap := lastSnapAfter s out.2 }, seen i out.2)

/-- One step. -/
def step (cfg : Config) : Machine State Act Event
  | s, .admission opts acquireAt shimAt releaseAt =>
    let out := begin cfg s opts acquireAt shimAt releaseAt
    some ({ s.push out.1 out.2.2 with
      adaptive := out.2.1, lastSnap := lastSnapAfter s out.2.2 }, seen s.admissions.length out.2.2)
  | s, .rateSettles i answer now =>
    s.admissions[i]?.bind fun a =>
      match a.stage with
      | .awaitsRate => some (resume s i (onRate cfg s.guard a answer now))
      | _ => none
  | s, .costSettles i answer now =>
    s.admissions[i]?.bind fun a =>
      match a.stage with
      | .awaitsCost => some (resume s i (onCost cfg s.guard a answer now))
      | _ => none
  | s, .fusedSettles i answer now =>
    s.admissions[i]?.bind fun a =>
      match a.stage, cfg.fused with
      | .awaitsFused, some fused => some (resume s i (onFused cfg fused s.guard a answer now))
      | _, _ => none
  | s, .release i dropped now =>
    s.admissions[i]?.bind fun a =>
      match a.stage with
      | .returned result =>
        let out := onRelease cfg s.guard a result dropped now
        some (s.put i out.1 out.2, [])
      | _ => none

/-! ### Who holds a slot -/

namespace Admission

/-- It is past the concurrency step and has not returned. -/
def inProgress (a : Admission) : Bool :=
  match a.stage with
  | .awaitsRate | .awaitsCost | .awaitsFused => true
  | .returned _ | .threw _ => false

/-- It was allowed, and the caller has not called its `release`. -/
def unreleased (a : Admission) : Bool :=
  match a.stage with
  | .returned result => result.decision.allowed && a.releaseCalls == 0
  | _ => false

/-- It was denied, or it threw. -/
def failed (a : Admission) : Bool :=
  match a.stage with
  | .returned result => !result.decision.allowed
  | .threw _ => true
  | _ => false

/-- It has a slot of the guard. -/
def holds (a : Admission) : Bool := a.lease.any (!·.released)

/-- What holds of every admission of a reachable state. -/
structure Ok (a : Admission) : Prop where
  inProgress : a.inProgress = true →
    a.holds = true ∧ (combineSnapshot a.snap).allowed = true ∧ a.releaseCalls = 0
  returned : ∀ result, a.stage = .returned result → match result.release with
    | .lease => result.decision.allowed = true ∧ a.holds = (a.releaseCalls == 0)
    | .noop => result.decision.allowed = false ∧ a.holds = false
  threw : ∀ err, a.stage = .threw err → a.holds = false

/-- An admission has a slot just as long as it should. -/
theorem Ok.holds_eq {a : Admission} (h : a.Ok) : a.holds = (a.unreleased || a.inProgress) := by
  obtain ⟨hprogress, hreturned, hthrew⟩ := h
  unfold Admission.inProgress at hprogress
  unfold unreleased Admission.inProgress
  cases hstage : a.stage with
  | returned result =>
    have hret := hreturned result hstage
    cases hrelease : result.release with
    | lease => rw [hrelease] at hret; simp [hret.1, hret.2]
    | noop => rw [hrelease] at hret; simp [hret.1, hret.2]
  | threw err => simpa using hthrew err hstage
  | awaitsRate => rw [hstage] at hprogress; simpa using (hprogress rfl).1
  | awaitsCost => rw [hstage] at hprogress; simpa using (hprogress rfl).1
  | awaitsFused => rw [hstage] at hprogress; simpa using (hprogress rfl).1

theorem not_unreleased_and_inProgress (a : Admission) :
    ¬ (a.unreleased = true ∧ a.inProgress = true) := by
  unfold unreleased inProgress
  cases a.stage <;> simp

theorem Ok.not_holds_of_failed {a : Admission} (h : a.Ok) (hfailed : a.failed = true) :
    a.holds = false := by
  rw [h.holds_eq]
  unfold failed at hfailed
  unfold unreleased Admission.inProgress
  cases hstage : a.stage <;> simp_all

end Admission

/-- The guard counts the admissions that have a slot. -/
structure Accounted (s : State) : Prop where
  inflight : s.guard.inflightCount = s.admissions.countP Admission.holds
  ok : ∀ a ∈ s.admissions, a.Ok

theorem Accounted.push {s : State} {g : Guard} {a : Admission} (h : Accounted s) (ha : a.Ok)
    (hg : g.inflightCount = s.guard.inflightCount + if a.holds then 1 else 0) :
    Accounted (s.push g a) where
  inflight := by
    show g.inflightCount = ((s.admissions ++ [a]).countP Admission.holds : ℕ)
    rw [List.countP_append, hg, h.inflight, List.countP_singleton]
    split <;> simp
  ok b hb := by
    rcases List.mem_append.mp hb with hold | hnew
    · exact h.ok b hold
    · rw [List.mem_singleton.mp hnew]
      exact ha

theorem Accounted.put {s : State} {i : ℕ} {g : Guard} {a a' : Admission} (h : Accounted s)
    (hi : s.admissions[i]? = some a) (ha : a'.Ok)
    (hg : g.inflightCount = s.guard.inflightCount - (if a.holds then 1 else 0)
      + if a'.holds then 1 else 0) : Accounted (s.put i g a') where
  inflight := by
    obtain ⟨hlt, hget⟩ := List.getElem?_eq_some_iff.mp hi
    show g.inflightCount = ((s.admissions.set i a').countP Admission.holds : ℕ)
    rw [List.countP_set hlt, hget, hg, h.inflight]
    have hpos : a.holds = true → 0 < s.admissions.countP Admission.holds := fun hholds =>
      List.countP_pos_iff.mpr ⟨a, List.mem_of_getElem? hi, hholds⟩
    split <;> split <;> simp_all
  ok b hb := by
    rcases List.mem_or_eq_of_mem_set hb with hold | rfl
    · exact h.ok b hold
    · exact ha

theorem accounted_new (cfg : Config) (now : ℚ) : Accounted (State.new cfg now) where
  inflight := rfl
  ok _ ha := absurd ha List.not_mem_nil

/-! ### One step -/

variable {cfg : Config} {s : State} {g : Guard} {a : Admission} {i : ℕ} {now : ℚ}

/-- A slot that is given back is free once. -/
theorem leaseRelease_inflight (lease : Option Lease) (dropped : Bool) :
    (leaseRelease cfg g lease dropped now).1.inflightCount
      = g.inflightCount - if lease.any (!·.released) then 1 else 0 := by
  cases lease with
  | none => simp [leaseRelease]
  | some lease =>
    show (lease.doRelease cfg.guard g dropped now).1.inflightCount = _
    rw [doRelease_inflight]
    cases hreleased : lease.released <;> simp [hreleased]

@[simp] theorem leaseRelease_any (lease : Option Lease) (dropped : Bool) :
    (leaseRelease cfg g lease dropped now).2.any (!·.released) = false := by
  cases lease <;> simp [leaseRelease]

theorem leaseRelease_of_not_any {lease : Option Lease} {dropped : Bool}
    (h : lease.any (!·.released) = false) : (leaseRelease cfg g lease dropped now).1 = g := by
  cases lease with
  | none => rfl
  | some lease =>
    have hreleased : lease.released = true := by simpa using h
    rw [leaseRelease, doRelease_of_released hreleased]

theorem combineSnapshot_allowed (snap : AxisSnap) : (combineSnapshot snap).allowed =
    ((snap.conc.getD allowFull).allowed && (snap.rate.getD allowFull).allowed
      && (snap.cost.getD allowFull).allowed) := rfl

theorem giveBack_holds (stage : Stage) : (giveBack cfg g a stage now).2.holds = false :=
  leaseRelease_any a.lease false

theorem giveBack_inflight (stage : Stage) : (giveBack cfg g a stage now).1.inflightCount
    = g.inflightCount - if a.holds then 1 else 0 := leaseRelease_inflight a.lease false

/-- An admission that was denied after its slot was taken. -/
theorem giveBack_denied_ok {result : UnifiedAdmission} (hrelease : result.release = .noop)
    (hdenied : result.decision.allowed = false) :
    (giveBack cfg g a (.returned result) now).2.Ok where
  inProgress h := by cases h
  returned result' h := by
    obtain rfl := Stage.returned.inj h
    rw [hrelease]
    exact ⟨hdenied, giveBack_holds _⟩
  threw err h := by cases h

/-- An admission that threw after its slot was taken. -/
theorem giveBack_threw_ok (err : String) : (giveBack cfg g a (.threw err) now).2.Ok where
  inProgress h := by cases h
  returned result h := by cases h
  threw err' _ := giveBack_holds _

/-- An admission on its way, or one that nothing denied: it has its slot. -/
theorem ok_of_allowed (hholds : a.holds = true) (hallowed : (combineSnapshot a.snap).allowed = true)
    (hcalls : a.releaseCalls = 0)
    (hstage : a.inProgress = true ∨ a.stage = .returned (finalize a.snap)) : a.Ok where
  inProgress _ := ⟨hholds, hallowed, hcalls⟩
  returned result h := by
    rcases hstage with hprogress | hreturned
    · rw [Admission.inProgress, h] at hprogress
      cases hprogress
    · obtain rfl := Stage.returned.inj (hreturned.symm.trans h)
      exact ⟨hallowed, by rw [hholds, hcalls]; rfl⟩
  threw err h := by
    rcases hstage with hprogress | hreturned
    · rw [Admission.inProgress, h] at hprogress
      cases hprogress
    · rw [h] at hreturned
      cases hreturned

/-- A step takes admission `a` and the guard to `out`, and the guard has counted it. -/
structure Counted (g : Guard) (a : Admission) (out : Guard × Admission) : Prop where
  ok : out.2.Ok
  inflight : out.1.inflightCount = g.inflightCount - (if a.holds then 1 else 0)
    + if out.2.holds then 1 else 0

theorem counted_giveBack {a' : Admission} {stage : Stage} (hok : (giveBack cfg g a' stage now).2.Ok)
    (h : a'.holds = a.holds) : Counted g a (giveBack cfg g a' stage now) := by
  refine ⟨hok, ?_⟩
  rw [giveBack_inflight, giveBack_holds, h]
  simp

theorem counted_of_holds {a' : Admission} (hok : a'.Ok) (h : a'.holds = a.holds) :
    Counted g a (g, a') := by
  refine ⟨hok, ?_⟩
  rw [h]
  simp

theorem Admission.Ok.toCost (hholds : a.holds = true)
    (hallowed : (combineSnapshot a.snap).allowed = true) (hcalls : a.releaseCalls = 0) :
    (toCost cfg a).Ok := by
  refine ok_of_allowed hholds hallowed hcalls ?_
  unfold Unified.toCost
  split
  · exact .inl rfl
  · exact .inr rfl

theorem Admission.Ok.toAxes (hholds : a.holds = true)
    (hallowed : (combineSnapshot a.snap).allowed = true) (hcalls : a.releaseCalls = 0) :
    (toAxes cfg a).Ok ∧ (toAxes cfg a).holds = true := by
  unfold Unified.toAxes
  split
  · exact ⟨ok_of_allowed hholds hallowed hcalls (.inl rfl), hholds⟩
  · split
    · exact ⟨ok_of_allowed hholds hallowed hcalls (.inl rfl), hholds⟩
    · exact ⟨Admission.Ok.toCost hholds hallowed hcalls, hholds⟩

/-- The admission begins: it takes a slot and keeps it, or has none. -/
theorem counted_begin (cfg : Config) (s : State) (opts : AdmitOptions)
    (acquireAt shimAt releaseAt : ℚ) :
    (begin cfg s opts acquireAt shimAt releaseAt).2.2.Ok ∧
      (begin cfg s opts acquireAt shimAt releaseAt).1.inflightCount = s.guard.inflightCount
        + if (begin cfg s opts acquireAt shimAt releaseAt).2.2.holds then 1 else 0 := by
  unfold begin
  rcases leaseAsAdmission_cases cfg.guard s.guard acquireAt shimAt with
    ⟨g, lease, d, hconc, hinflight, hreleased, hallowed⟩ | ⟨d, hconc, hdenied⟩
  · rw [hconc]
    dsimp only
    have hholds :
        Admission.holds ⟨opts, .awaitsRate, ⟨none, some d, none⟩, some lease, 0⟩ = true := by
      simp [Admission.holds, hreleased]
    have hsnap : (combineSnapshot ⟨none, some d, none⟩).allowed = true := by
      simp [combineSnapshot_allowed, hallowed, allowFull]
    split
    · -- The filter rejects: what was taken is given back.
      refine ⟨giveBack_denied_ok rfl rfl, ?_⟩
      rw [giveBack_inflight, giveBack_holds, hholds, hinflight]
      simp
    · obtain ⟨hok, hkeeps⟩ :
          (toAxes cfg ⟨opts, .awaitsRate, ⟨none, some d, none⟩, some lease, 0⟩).Ok ∧
          (toAxes cfg ⟨opts, .awaitsRate, ⟨none, some d, none⟩, some lease, 0⟩).holds = true :=
        Admission.Ok.toAxes hholds hsnap rfl
      refine ⟨hok, ?_⟩
      rw [hkeeps, hinflight]
      rfl
  · rw [hconc]
    dsimp only
    refine ⟨⟨fun h => ?_, fun result h => ?_, fun err h => ?_⟩, ?_⟩
    · cases h
    · obtain rfl := Stage.returned.inj h
      exact ⟨hdenied, rfl⟩
    · cases h
    · simp [Admission.holds]

/-- The rate limiter has answered. -/
theorem counted_onRate (hok : a.Ok) (hprogress : a.inProgress = true)
    (answer : Except String Decision) : Counted g a (onRate cfg g a answer now) := by
  obtain ⟨hholds, hallowed, hcalls⟩ := hok.inProgress hprogress
  unfold onRate
  split
  · exact counted_giveBack (giveBack_threw_ok _) rfl
  · rename_i d
    dsimp only
    split
    · rename_i hd
      have hdenied : (combineSnapshot { a.snap with rate := some d }).allowed = false := by
        simp [combineSnapshot_allowed, hd]
      refine counted_giveBack (giveBack_denied_ok ?_ ?_) rfl
      · rfl
      · exact hdenied
    · rename_i hd
      rw [combineSnapshot_allowed] at hallowed
      simp only [Bool.and_eq_true] at hallowed
      refine counted_of_holds (Admission.Ok.toCost hholds ?_ hcalls) rfl
      simp [combineSnapshot_allowed, hallowed, hd]

/-- The cost limiter has answered. -/
theorem counted_onCost (hok : a.Ok) (hprogress : a.inProgress = true)
    (answer : Except String Decision) : Counted g a (onCost cfg g a answer now) := by
  obtain ⟨hholds, hallowed, hcalls⟩ := hok.inProgress hprogress
  unfold onCost
  split
  · exact counted_giveBack (giveBack_threw_ok _) rfl
  · rename_i d
    dsimp only
    split
    · rename_i hd
      have hdenied : (combineSnapshot { a.snap with cost := some d }).allowed = false := by
        simp [combineSnapshot_allowed, hd]
      refine counted_giveBack (giveBack_denied_ok ?_ ?_) rfl
      · rfl
      · exact hdenied
    · rename_i hd
      rw [combineSnapshot_allowed] at hallowed
      simp only [Bool.and_eq_true] at hallowed
      refine counted_of_holds (ok_of_allowed hholds ?_ hcalls (.inr rfl)) rfl
      simp [combineSnapshot_allowed, hallowed, hd]

/-- The script has answered. -/
theorem counted_onFused (fused : Admission.Config) (hok : a.Ok) (hprogress : a.inProgress = true)
    (answer : Except String (AxisReply × AxisReply)) :
    Counted g a (onFused cfg fused g a answer now) := by
  obtain ⟨hholds, hallowed, hcalls⟩ := hok.inProgress hprogress
  unfold onFused
  split
  · exact counted_giveBack (giveBack_threw_ok _) rfl
  · rename_i axes
    rw [combineSnapshot_allowed] at hallowed
    simp only [Bool.and_eq_true] at hallowed
    have hcombined : (combineSnapshot { a.snap with
        rate := some (axes.1.decode fused.rate.burst),
        cost := some (axes.2.decode fused.cost.capacity) }).allowed
          = (axes.1.allowed && axes.2.allowed) := by
      simp [combineSnapshot_allowed, hallowed, AxisReply.decode]
    dsimp only
    split
    · rename_i hd
      refine counted_giveBack (giveBack_denied_ok ?_ ?_) rfl
      · rfl
      · exact hcombined.trans hd
    · rename_i hd
      exact counted_of_holds (ok_of_allowed hholds
        (hcombined.trans (Bool.eq_true_of_not_eq_false hd)) hcalls (.inr rfl)) rfl

/-- An admission that has returned, after any number of calls of its `release`. -/
theorem ok_of_returned {result : UnifiedAdmission} (hstage : a.stage = .returned result)
    (h : match result.release with
      | .lease => result.decision.allowed = true ∧ a.holds = (a.releaseCalls == 0)
      | .noop => result.decision.allowed = false ∧ a.holds = false) : a.Ok where
  inProgress hprogress := by
    rw [Admission.inProgress, hstage] at hprogress
    cases hprogress
  returned result' hstage' := by
    obtain rfl := Stage.returned.inj (hstage.symm.trans hstage')
    exact h
  threw err hthrew := by
    rw [hstage] at hthrew
    cases hthrew

/-- The caller has called the `release` of an admission. -/
theorem counted_onRelease {result : UnifiedAdmission} (hok : a.Ok)
    (hstage : a.stage = .returned result) (dropped : Bool) :
    Counted g a (onRelease cfg g a result dropped now) := by
  have hreturned := hok.returned result hstage
  unfold onRelease
  dsimp only
  cases hrelease : result.release with
  | noop =>
    rw [hrelease] at hreturned
    refine counted_of_holds (ok_of_returned hstage ?_) rfl
    rw [hrelease]
    exact hreturned
  | lease =>
    rw [hrelease] at hreturned
    have hholds : Admission.holds { a with
        releaseCalls := a.releaseCalls + 1
        lease := (leaseRelease cfg g a.lease dropped now).2 } = false :=
      leaseRelease_any a.lease dropped
    refine ⟨ok_of_returned hstage ?_, ?_⟩
    · rw [hrelease]
      exact ⟨hreturned.1, hholds⟩
    · dsimp only
      rw [hholds, leaseRelease_inflight, if_neg Bool.false_ne_true, add_zero]
      rfl

/-- A `release` of an admission without a slot does nothing to the guard. -/
theorem onRelease_of_not_holds {result : UnifiedAdmission} {dropped : Bool}
    (h : a.holds = false) : (onRelease cfg g a result dropped now).1 = g := by
  unfold onRelease
  dsimp only
  cases result.release with
  | noop => rfl
  | lease => exact leaseRelease_of_not_any h

/-- **One step keeps the account.** -/
theorem Accounted.step (h : Accounted s) {act : Act} {s' : State} {new : List Event}
    (hstep : step cfg s act = some (s', new)) : Accounted s' := by
  -- A step of an admission that has begun takes it and the guard to `out`.
  have hput {i : ℕ} {a : Admission} {out : Guard × Admission} (hi : s.admissions[i]? = some a)
      (hcounted : Counted s.guard a out) : Accounted (s.put i out.1 out.2) :=
    h.put hi hcounted.ok hcounted.inflight
  have hresume {i : ℕ} {a : Admission} {out : Guard × Admission} (hi : s.admissions[i]? = some a)
      (hcounted : Counted s.guard a out) : Accounted (resume s i out).1 :=
    ⟨(hput hi hcounted).inflight, (hput hi hcounted).ok⟩
  cases act with
  | admission opts acquireAt shimAt releaseAt =>
    obtain ⟨rfl, -⟩ := Prod.mk.inj (Option.some.inj hstep)
    obtain ⟨hok, hinflight⟩ := counted_begin cfg s opts acquireAt shimAt releaseAt
    have hpush := h.push hok hinflight
    exact ⟨hpush.inflight, hpush.ok⟩
  | rateSettles i answer now =>
    obtain ⟨a, hi, hstep⟩ := Option.bind_eq_some_iff.mp hstep
    have hok := h.ok a (List.mem_of_getElem? hi)
    split at hstep
    · rename_i hstage
      obtain ⟨rfl, -⟩ := Prod.mk.inj (Option.some.inj hstep)
      exact hresume hi (counted_onRate hok (by rw [Admission.inProgress, hstage]) answer)
    · cases hstep
  | costSettles i answer now =>
    obtain ⟨a, hi, hstep⟩ := Option.bind_eq_some_iff.mp hstep
    have hok := h.ok a (List.mem_of_getElem? hi)
    split at hstep
    · rename_i hstage
      obtain ⟨rfl, -⟩ := Prod.mk.inj (Option.some.inj hstep)
      exact hresume hi (counted_onCost hok (by rw [Admission.inProgress, hstage]) answer)
    · cases hstep
  | fusedSettles i answer now =>
    obtain ⟨a, hi, hstep⟩ := Option.bind_eq_some_iff.mp hstep
    have hok := h.ok a (List.mem_of_getElem? hi)
    split at hstep
    · rename_i fused hstage _
      obtain ⟨rfl, -⟩ := Prod.mk.inj (Option.some.inj hstep)
      exact hresume hi (counted_onFused fused hok (by rw [Admission.inProgress, hstage]) answer)
    · cases hstep
  | release i dropped now =>
    obtain ⟨a, hi, hstep⟩ := Option.bind_eq_some_iff.mp hstep
    have hok := h.ok a (List.mem_of_getElem? hi)
    split at hstep
    · rename_i result hstage
      obtain ⟨rfl, -⟩ := Prod.mk.inj (Option.some.inj hstep)
      exact hput hi (counted_onRelease hok hstage dropped)
    · cases hstep

theorem countP_holds : ∀ l : List Admission, (∀ a ∈ l, a.Ok) →
    l.countP Admission.holds = l.countP Admission.unreleased + l.countP Admission.inProgress
  | [], _ => rfl
  | a :: l, h => by
    have htail := countP_holds l fun b hb => h b (List.mem_cons_of_mem a hb)
    have hhead := (h a List.mem_cons_self).holds_eq
    have hnot := a.not_unreleased_and_inProgress
    rw [List.countP_cons, List.countP_cons, List.countP_cons, htail, hhead]
    cases hu : a.unreleased <;> cases hp : a.inProgress <;> simp_all <;> omega

/-- **The in-flight count is the number of allowed admissions not yet released, plus those still in
progress**, in every reachable state. An admission that was denied or threw has no slot, and a
`release` of it, or a repeated one, leaves the guard as it is. -/
theorem slots_accounted {start : ℚ} {log : List Event}
    (h : (step cfg).Run (fun _ _ => True) (.new cfg start) log s) :
    s.guard.inflightCount
        = s.admissions.countP Admission.unreleased + s.admissions.countP Admission.inProgress ∧
      (∀ a ∈ s.admissions, a.failed = true → a.holds = false) ∧
      ∀ i a dropped now s' new, s.admissions[i]? = some a →
        (a.failed = true ∨ 0 < a.releaseCalls) →
          step cfg s (.release i dropped now) = some (s', new) → s'.guard = s.guard := by
  have hacc : Accounted s := h.invariant (I := fun s _ => Accounted s) (accounted_new cfg start)
    fun s _ act s' new hacc _ hstep => hacc.step hstep
  refine ⟨?_, fun a ha hfailed => (hacc.ok a ha).not_holds_of_failed hfailed, ?_⟩
  · rw [hacc.inflight, countP_holds _ hacc.ok]
    push_cast
    rfl
  · intro i a dropped now s' new hi hdone hstep
    obtain ⟨a', hi', hstep⟩ := Option.bind_eq_some_iff.mp hstep
    obtain rfl := Option.some.inj (hi.symm.trans hi')
    have hok := hacc.ok a (List.mem_of_getElem? hi)
    split at hstep
    · rename_i result hstage
      obtain ⟨rfl, -⟩ := Prod.mk.inj (Option.some.inj hstep)
      refine onRelease_of_not_holds ?_
      rcases hdone with hfailed | hcalls
      · exact hok.not_holds_of_failed hfailed
      · have hreturned := hok.returned result hstage
        cases hrelease : result.release with
        | noop => rw [hrelease] at hreturned; exact hreturned.2
        | lease =>
          rw [hrelease] at hreturned
          rw [hreturned.2, beq_eq_false_iff_ne]
          omega
    · cases hstep

/-- A rate and a cost limiter behind a filter that asks for a value of one, and a guard with the
default options. -/
def priced : Config where
  guard := .defaults
  rate := true
  cost := true
  fused := none
  duals := some ⟨1, 0, none⟩
  adaptive := none
  solve _ := .error "unused"

/-- A decision of a limiter of ten. -/
def answer (allowed : Bool) : Decision := ⟨allowed, 10, 5, 2000, 0⟩

/-- Four admissions: one is allowed and released twice, one throws, one is denied by the filter and
one is still in progress. -/
def fourAdmissions : List Act :=
  [.admission ⟨"a", 1, 1, 0⟩ 1 1 1, .admission ⟨"b", 1, 1, 0⟩ 2 2 2,
    .admission ⟨"c", 1, 0, 0⟩ 3 3 3, .rateSettles 1 (.error "down") 4,
    .admission ⟨"d", 2, 5, 0⟩ 5 5 5, .rateSettles 0 (.ok (answer true)) 6,
    .costSettles 0 (.ok (answer true)) 7, .release 0 true 8, .release 0 false 9,
    .rateSettles 3 (.ok (answer true)) 10]

theorem slots_accounted_four :
    (((step priced).exec (.new priced 0) fourAdmissions).get
        (by decide +kernel)).1.guard.inflightCount
      = (((step priced).exec (.new priced 0) fourAdmissions).get
          (by decide +kernel)).1.admissions.countP Admission.unreleased
        + (((step priced).exec (.new priced 0) fourAdmissions).get
          (by decide +kernel)).1.admissions.countP Admission.inProgress :=
  (slots_accounted (Machine.run_of_isSome (by decide +kernel) (by decide +kernel))).1

end ThrottleKit.Unified
