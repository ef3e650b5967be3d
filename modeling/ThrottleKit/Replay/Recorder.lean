import ThrottleKit.Replay.Engine
import ThrottleKit.Stores.TwoMemories

/-!
# Recording decisions

A recording limiter is a rate limit over an in-process store and a clock that is set by hand. Every
check that is decided is kept with the instant and the decision; looking at a key without a check is
not. What was kept is the trace, and it is replayed on a store of its own.

The two stores do not drop the same entries. That of the recording was made earlier, and was also
looked at. As long as the clock does not go back nobody can tell; when it does, the one may still
have an entry that the other has dropped.

## What is left out

`check`, `checkMany` and `reset` throw. A redaction hook that throws is none.

## Main definitions

* `RecordOptions`, `Recorder` — the options, and what a recording keeps
* `recorder` — the recording limiter and its clock
* `traceOf` — the trace
* `InStep` — the store finds the key of a check exactly if that of a replay of the trace does

## Main results

* `Faithful.recorder` — a call in step leaves a trace that replays to the same decisions
* `recordThenReplay` — so does a recording, with its trace written to JSON and read back
-/

namespace ThrottleKit.Replay

open BuildStrategy JsonValue

/-- What `recordLimiter` takes besides the spec. -/
structure RecordOptions where
  /-- The reading of the clock at the start. -/
  clock : ℚ := 0
  /-- `prefix`. -/
  keyPrefix : Option String := none
  name : String := "recorded"
  maxSteps : ℚ := 1000000
  redactKey : Option (String → String) := none

/-- What a recording keeps, with the clock. -/
structure Recorder (m : Peekable) where
  memory : Memory m
  clock : ℚ
  steps : List Step
  dropped : ℕ
  originalOf : String → Option String

/-- A new recording. -/
def Recorder.start (m : Peekable) (o : RecordOptions) : Recorder m :=
  ⟨newStore m o.clock, o.clock, [], 0, fun _ => none⟩

/-- `redactKey(key)`. -/
def RecordOptions.redact (o : RecordOptions) (key : String) : String :=
  match o.redactKey with
  | some redactKey => redactKey key
  | none => key

/-- What a limiter calls a key in its store. -/
def RecordOptions.storeKey (o : RecordOptions) (key : String) : String :=
  prefixer o.keyPrefix (o.redact key)

section Calls

variable {m : Peekable} (o : RecordOptions)

/-- `atCap()`. -/
def atCap (r : Recorder m) : Bool := o.maxSteps ≤ r.steps.length

/-- `redact(key)`, as what it leaves of `originalOf`. -/
def redact (r : Recorder m) (key : String) : Except Refusal (String → Option String) :=
  match r.originalOf (o.redact key) with
  | some prev =>
    if prev ≠ key then .error (.keyrefCollision (o.redact key)) else .ok r.originalOf
  | none => .ok (Function.update r.originalOf (o.redact key) (some key))

/-- The decision on a check at the cap. -/
def droppedDecision : Decision := ⟨false, 0, 0, 0, 0⟩

/-- `checkSync(key, cost)`. -/
def recordCheck (r : Recorder m) (key : String) (cost : ℚ) :
    Recorder m × Except Refusal Decision :=
  if atCap o r then ({ r with dropped := r.dropped + 1 }, .ok droppedDecision)
  else match redact o r key with
    | .error refusal => (r, .error refusal)
    | .ok originalOf =>
      let c := checkSync m o.keyPrefix r.memory (o.redact key) cost r.clock
      match c.2 with
      | .error err => ({ r with memory := c.1, originalOf := originalOf }, .error (.cost err))
      | .ok d =>
        ({ r with
            memory := c.1
            steps := r.steps ++ [⟨o.redact key, cost, r.clock, d⟩]
            originalOf := originalOf }, .ok d)

/-- `checkManySync(keys, cost)`. What is decided before a key is refused stays. -/
def recordMany (cost : ℚ) : Recorder m → List String → Recorder m × Except Refusal (List Decision)
  | r, [] => (r, .ok [])
  | r, key :: keys =>
    let c := recordCheck o r key cost
    match c.2 with
    | .error refusal => (c.1, .error refusal)
    | .ok d =>
      let cs := recordMany cost c.1 keys
      (cs.1, cs.2.map fun ds => d :: ds)

/-- A look at a key that keeps nothing. -/
def inspect {R : Type} (r : Recorder m) (key : String) (project : Option m.State → ℚ → R) :
    Recorder m × R :=
  let c := MemoryStore.applySync storeOptions r.memory (o.storeKey key)
    (fun state => MemoryStore.ofOutcome (readOnlyTransform project r.clock state)) r.clock
  ({ r with memory := c.1 }, c.2)

/-- `forecastSync(key, cost)`. -/
def forecastSync (r : Recorder m) (key : String) (cost : ℚ) :
    Recorder m × Except Refusal Forecast :=
  match requireCost cost with
  | .error err => (r, .error (.cost err))
  | .ok () =>
    let c := inspect o r key fun state now => m.strategy.forecast state now cost
    (c.1, .ok c.2)

end Calls

/-- A call of the recording limiter, or a setting of its clock. -/
inductive RecorderCall
  | set (ms : ℚ)
  | checkSync (key : String) (cost : ℚ)
  | checkManySync (keys : List String) (cost : ℚ)
  | peekSync (key : String)
  | forecastSync (key : String) (cost : ℚ)

/-- What a call gives. -/
inductive RecorderReply
  | done
  | decision (d : Except Refusal Decision)
  | decisions (ds : Except Refusal (List Decision))
  | peek (d : Decision)
  | forecast (f : Except Refusal Forecast)

/-- The recording limiter and its clock. -/
def recorder (m : Peekable) (o : RecordOptions) :
    Lockstep.Service (Recorder m) RecorderCall RecorderReply := fun r call =>
  match call with
  | .set ms => ({ r with clock := ms }, .done)
  | .checkSync key cost =>
    let c := recordCheck o r key cost
    (c.1, .decision c.2)
  | .checkManySync keys cost =>
    let c := recordMany o cost r keys
    (c.1, .decisions c.2)
  | .peekSync key =>
    let c := inspect o r key m.strategy.peek
    (c.1, .peek c.2)
  | .forecastSync key cost =>
    let c := forecastSync o r key cost
    (c.1, .forecast c.2)

/-- `trace()`. -/
def traceOf (lib : Library) (spec : LimiterSpec) {m : Peekable} (o : RecordOptions)
    (r : Recorder m) : Trace where
  fingerprint := fingerprint lib spec m o.keyPrefix
  redacted := o.redactKey.isSome
  truncated := 0 < r.dropped
  dropped := r.dropped
  steps := r.steps

/-! ### In step -/

section InStep

variable {m : Peekable} (o : RecordOptions)

/-- What a replay of the steps leaves. -/
def afterSteps (m : Peekable) (keyPrefix : Option String) (memory : Memory m)
    (steps : List Step) : Memory m :=
  steps.foldl (fun memory s => (checkSync m keyPrefix memory s.key s.cost s.instant).1) memory

/-- The store of a replay of what has been recorded. -/
def replica (r : Recorder m) : Memory m :=
  afterSteps m o.keyPrefix (newStore m (firstInstant r.steps)) r.steps

/-- Whether a check comes to the store. -/
def reaches (r : Recorder m) (key : String) (cost : ℚ) : Bool :=
  !atCap o r && (redact o r key).isOk && (requireCost cost).isOk

/-- Whether the store has the key of a check that comes to it, exactly if the store of a replay has
it. -/
def checkInStep (r : Recorder m) (key : String) (cost : ℚ) : Bool :=
  !reaches o r key cost ||
    MemoryStore.has r.memory.map (o.storeKey key) r.clock
      == MemoryStore.has (replica o r).map (o.storeKey key) r.clock

/-- The same of every check of a batch that is made. -/
def manyInStep (cost : ℚ) : Recorder m → List String → Bool
  | _, [] => true
  | r, key :: keys =>
    checkInStep o r key cost &&
      (!(recordCheck o r key cost).2.isOk || manyInStep cost (recordCheck o r key cost).1 keys)

/-- The store finds the key of a check exactly if that of a replay does. -/
def InStep (r : Recorder m) : RecorderCall → Prop
  | .checkSync key cost => checkInStep o r key cost = true
  | .checkManySync keys cost => manyInStep o cost r keys = true
  | .set _ | .peekSync _ | .forecastSync _ _ => True

instance InStep.decidable (r : Recorder m) : ∀ call, Decidable (InStep o r call)
  | .checkSync _ _ | .checkManySync _ _ => inferInstanceAs (Decidable (_ = true))
  | .set _ | .peekSync _ | .forecastSync _ _ => isTrue trivial

end InStep

/-! ### What is kept of it -/

section Run

variable {m : Peekable} {o : RecordOptions} {r : Recorder m} {keyPrefix : Option String}
  {memory memory' : Memory m} {key : String} {cost now : ℚ}

theorem checkSync_of_requireCost (hcost : requireCost cost = .ok ()) :
    checkSync m keyPrefix memory key cost now =
      ((MemoryStore.applySync storeOptions memory (prefixer keyPrefix key)
          (fun state => MemoryStore.ofOutcome (m.strategy.check state now cost)) now).1,
        .ok (MemoryStore.applySync storeOptions memory (prefixer keyPrefix key)
          (fun state => MemoryStore.ofOutcome (m.strategy.check state now cost)) now).2) := by
  rw [checkSync, hcost]

/-- A check whose cost is refused does not come to the store. -/
theorem checkSync_of_error {err : CostError} (hcost : requireCost cost = .error err) :
    checkSync m keyPrefix memory key cost now = (memory, .error err) := by
  rw [checkSync, hcost]

/-- **A check decides the same on two stores that both have its key, or neither.** -/
theorem checkSync_eq (h : MemoryStore.Shares memory memory') (hcost : requireCost cost = .ok ())
    (hhas : MemoryStore.has memory.map (prefixer keyPrefix key) now
      = MemoryStore.has memory'.map (prefixer keyPrefix key) now) :
    ∃ d, (checkSync m keyPrefix memory key cost now).2 = .ok d ∧
      (checkSync m keyPrefix memory' key cost now).2 = .ok d ∧
      MemoryStore.Shares (checkSync m keyPrefix memory key cost now).1
        (checkSync m keyPrefix memory' key cost now).1 := by
  obtain ⟨hresult, hshares⟩ := h.applySync storeOptions storeOptions hhas
    fun state => MemoryStore.ofOutcome (m.strategy.check state now cost)
  rw [checkSync_of_requireCost hcost, checkSync_of_requireCost hcost]
  exact ⟨_, rfl, congrArg Except.ok hresult.symm, hshares⟩

theorem afterSteps_concat (steps : List Step) (s : Step) :
    afterSteps m keyPrefix memory (steps ++ [s])
      = (checkSync m keyPrefix (afterSteps m keyPrefix memory steps) s.key s.cost s.instant).1 := by
  rw [afterSteps, List.foldl_append]
  rfl

/-- One more check of a replay. -/
theorem driveSteps_concat {steps : List Step} {ds : List Decision} {s : Step} {d : Decision}
    (h : driveSteps m keyPrefix memory steps = .ok ds)
    (hd : (checkSync m keyPrefix (afterSteps m keyPrefix memory steps) s.key s.cost s.instant).2
      = .ok d) : driveSteps m keyPrefix memory (steps ++ [s]) = .ok (ds ++ [d]) := by
  induction steps generalizing memory ds with
  | nil =>
    obtain rfl : [] = ds := Except.ok.inj h
    have hd' : (checkSync m keyPrefix memory s.key s.cost s.instant).2 = .ok d := hd
    rw [List.nil_append, driveSteps, hd']
    rfl
  | cons s' steps ih =>
    rw [driveSteps] at h
    rw [List.cons_append, driveSteps]
    cases hs : (checkSync m keyPrefix memory s'.key s'.cost s'.instant).2 with
    | error err =>
      rw [hs] at h
      cases h
    | ok d' =>
      rw [hs] at h
      cases hrest : driveSteps m keyPrefix
          (checkSync m keyPrefix memory s'.key s'.cost s'.instant).1 steps with
      | error refusal =>
        simp only [hrest, Except.map] at h
        cases h
      | ok ds' =>
        simp only [hrest, Except.map] at h
        obtain rfl : d' :: ds' = ds := Except.ok.inj h
        simp only [ih hrest hd, Except.map]
        rfl

/-- The steps that are recorded replay to their decisions, and leave a store that shares with the
recording's. -/
structure Faithful (o : RecordOptions) (r : Recorder m) : Prop where
  shares : MemoryStore.Shares r.memory (replica o r)
  drive : driveSteps m o.keyPrefix (newStore m (firstInstant r.steps)) r.steps
    = .ok (r.steps.map Step.decision)
  costs : ∀ s ∈ r.steps, 0 < s.cost

theorem faithful_start (m : Peekable) (o : RecordOptions) : Faithful o (Recorder.start m o) where
  shares := MemoryStore.shares_start (MemoryStore.scheduled_start storeOptions o.clock) _ _
  drive := rfl
  costs s hs := by cases hs

/-- The steps decide where a replay of them starts, but for the first one. -/
theorem firstInstant_concat {steps : List Step} (h : steps ≠ []) (s : Step) :
    firstInstant (steps ++ [s]) = firstInstant steps := by
  cases steps with
  | nil => exact absurd rfl h
  | cons s' steps => rfl

/-- What a replay of one more step has before it: what a replay had of the steps until then, also
when it starts at another instant for it. -/
theorem before_concat (o : RecordOptions) (r : Recorder m) (s : Step) :
    (afterSteps m o.keyPrefix (newStore m (firstInstant (r.steps ++ [s]))) r.steps).map
        = (replica o r).map ∧
      (afterSteps m o.keyPrefix (newStore m (firstInstant (r.steps ++ [s]))) r.steps).wheel.entries
        = (replica o r).wheel.entries := by
  by_cases hne : r.steps = []
  · rw [replica, hne]
    exact ⟨rfl, rfl⟩
  · rw [replica, firstInstant_concat hne]
    exact ⟨rfl, rfl⟩

theorem driveSteps_before_concat (h : Faithful o r) (s : Step) :
    driveSteps m o.keyPrefix (newStore m (firstInstant (r.steps ++ [s]))) r.steps
      = .ok (r.steps.map Step.decision) := by
  by_cases hne : r.steps = []
  · rw [hne]
    rfl
  · rw [firstInstant_concat hne]
    exact h.drive

/-- **A check in step is recorded faithfully.** -/
theorem Faithful.append (h : Faithful o r) (hcost : requireCost cost = .ok ())
    (hhas : MemoryStore.has r.memory.map (prefixer o.keyPrefix key) r.clock
      = MemoryStore.has (replica o r).map (prefixer o.keyPrefix key) r.clock)
    {d : Decision} (hd : (checkSync m o.keyPrefix r.memory key cost r.clock).2 = .ok d)
    (originalOf : String → Option String) :
    Faithful o { r with
      memory := (checkSync m o.keyPrefix r.memory key cost r.clock).1
      steps := r.steps ++ [⟨key, cost, r.clock, d⟩]
      originalOf := originalOf } := by
  obtain ⟨hmap, hentries⟩ := before_concat o r ⟨key, cost, r.clock, d⟩
  have hshares : MemoryStore.Shares r.memory _ := h.shares.congr_right hmap hentries
  obtain ⟨d', hd', hreplayed, hnext⟩ := checkSync_eq hshares hcost (by rw [hmap]; exact hhas)
  obtain rfl : d' = d := Except.ok.inj (hd'.symm.trans hd)
  refine ⟨?_, ?_, ?_⟩
  · rw [replica, afterSteps_concat]
    exact hnext
  · rw [List.map_append]
    exact driveSteps_concat (driveSteps_before_concat h _) hreplayed
  · intro s hs
    rcases List.mem_append.mp hs with hs | hs
    · exact h.costs s hs
    · obtain rfl := List.mem_singleton.mp hs
      exact pos_of_requireCost hcost

/-- A recording whose store shares as before, and whose steps are the same. -/
theorem Faithful.of_steps_eq {r' : Recorder m} (h : Faithful o r) (hsteps : r'.steps = r.steps)
    (hmemory : MemoryStore.Shares r'.memory (replica o r)) : Faithful o r' where
  shares := by rwa [replica, hsteps]
  drive := by rw [hsteps]; exact h.drive
  costs := by rw [hsteps]; exact h.costs

theorem Faithful.recordCheck (h : Faithful o r) (hstep : checkInStep o r key cost = true) :
    Faithful o (recordCheck o r key cost).1 := by
  rw [Replay.recordCheck]
  split
  · exact h.of_steps_eq rfl h.shares
  rename_i hcap
  split
  · exact h
  rename_i originalOf hredact
  cases hcost : requireCost cost with
  | error err =>
    rw [checkSync_of_error hcost]
    exact h.of_steps_eq rfl h.shares
  | ok u =>
    have hreaches : reaches o r key cost = true := by
      rw [reaches, hredact, hcost, Bool.eq_false_of_not_eq_true hcap]
      rfl
    rw [checkInStep, hreaches, Bool.not_true, Bool.false_or, beq_iff_eq] at hstep
    obtain ⟨d, hd⟩ : ∃ d, (checkSync m o.keyPrefix r.memory (o.redact key) cost r.clock).2
        = .ok d := ⟨_, by rw [checkSync_of_requireCost hcost]⟩
    dsimp only
    rw [hd]
    exact h.append hcost hstep hd originalOf

theorem Faithful.recordMany {keys : List String} :
    ∀ {r : Recorder m}, Faithful o r → manyInStep o cost r keys = true →
      Faithful o (recordMany o cost r keys).1 := by
  induction keys with
  | nil => exact fun h _ => h
  | cons key keys ih =>
    intro r h hstep
    rw [manyInStep, Bool.and_eq_true] at hstep
    have hnext := h.recordCheck hstep.1
    rw [Replay.recordMany]
    split
    · exact hnext
    · rename_i d hd
      have hrest := hstep.2
      rw [hd] at hrest
      exact ih hnext hrest

/-- Looking at a key drops entries of the store, and records nothing. -/
theorem Faithful.inspect {R : Type} (h : Faithful o r) (key : String)
    (project : Option m.State → ℚ → R) : Faithful o (inspect o r key project).1 :=
  h.of_steps_eq rfl (h.shares.readOnly storeOptions _ fun _ => rfl)

/-- **A call in step leaves a recording faithful.** -/
theorem Faithful.recorder (h : Faithful o r) (call : RecorderCall) (hstep : InStep o r call) :
    Faithful o (recorder m o r call).1 := by
  cases call with
  | set ms => exact h.of_steps_eq rfl h.shares
  | checkSync key cost => exact h.recordCheck hstep
  | checkManySync keys cost => exact h.recordMany hstep
  | peekSync key => exact h.inspect key _
  | forecastSync key cost =>
    show Faithful o (forecastSync o r key cost).1
    rw [forecastSync]
    split
    · exact h
    · exact h.inspect key _

/-- So do calls that are all in step. -/
theorem faithful_after {calls : List RecorderCall}
    (hsteps : Lockstep.AllMet (Replay.recorder m o) (InStep o) (.start m o) calls) :
    Faithful o (Lockstep.after (Replay.recorder m o) (.start m o) calls) :=
  Lockstep.after_of_allMet (I := Faithful o) (fun _ call h hok => h.recorder call hok) calls
    (faithful_start m o) hsteps

/-! ### A clock that does not go back -/

/-- The clock is not set back. -/
def Forward (r : Recorder m) : RecorderCall → Prop
  | .set ms => r.clock ≤ ms
  | .checkSync _ _ | .checkManySync _ _ | .peekSync _ | .forecastSync _ _ => True

/-- Both stores have what has not expired of the same entries. -/
def Tracks (o : RecordOptions) (r : Recorder m) : Prop :=
  ∃ t, MemoryStore.Agree r.clock r.memory t ∧ MemoryStore.Agree r.clock (replica o r) t

theorem tracks_start (m : Peekable) (o : RecordOptions) : Tracks o (Recorder.start m o) :=
  ⟨fun _ => none, MemoryStore.agree_start _ _ _, MemoryStore.agree_start _ _ _⟩

theorem Tracks.checkInStep (h : Tracks o r) (key : String) (cost : ℚ) :
    checkInStep o r key cost = true := by
  obtain ⟨t, hagree, hagree'⟩ := h
  rw [Replay.checkInStep, hagree.has_eq, hagree'.has_eq, beq_self_eq_true, Bool.or_true]

theorem Tracks.recordCheck (h : Tracks o r) (key : String) (cost : ℚ) :
    Tracks o (recordCheck o r key cost).1 := by
  obtain ⟨t, hagree, hagree'⟩ := h
  rw [Replay.recordCheck]
  split
  · exact ⟨t, hagree, hagree'⟩
  split
  · exact ⟨t, hagree, hagree'⟩
  cases hcost : requireCost cost with
  | error err =>
    rw [checkSync_of_error hcost]
    exact ⟨t, hagree, hagree'⟩
  | ok u =>
    rw [checkSync_of_requireCost hcost]
    refine ⟨_, (hagree.applySync storeOptions _ _).2, ?_⟩
    obtain ⟨hmap, hentries⟩ := before_concat o r ⟨o.redact key, cost, r.clock,
      (MemoryStore.applySync storeOptions r.memory (prefixer o.keyPrefix (o.redact key))
        (fun state => MemoryStore.ofOutcome (m.strategy.check state r.clock cost)) r.clock).2⟩
    have hbefore : MemoryStore.Agree r.clock _ t := hagree'.congr hmap hentries
    rw [replica, afterSteps_concat, checkSync_of_requireCost hcost]
    exact (hbefore.applySync storeOptions _ _).2

theorem Tracks.recordMany (cost : ℚ) (keys : List String) :
    ∀ {r : Recorder m}, Tracks o r → manyInStep o cost r keys = true ∧
      Tracks o (recordMany o cost r keys).1 := by
  induction keys with
  | nil => exact fun h => ⟨rfl, h⟩
  | cons key keys ih =>
    intro r h
    have hnext := h.recordCheck key cost
    obtain ⟨hrest, hafter⟩ := ih hnext
    constructor
    · rw [manyInStep, h.checkInStep key cost, hrest, Bool.or_true, Bool.true_and]
    · rw [Replay.recordMany]
      split
      · exact hnext
      · exact hafter

theorem Tracks.inspect {R : Type} (h : Tracks o r) (key : String)
    (project : Option m.State → ℚ → R) : Tracks o (inspect o r key project).1 := by
  obtain ⟨t, hagree, hagree'⟩ := h
  exact ⟨t, (hagree.applySync storeOptions _ _).2, hagree'⟩

/-- As long as the clock is not set back, every call is in step. -/
theorem Tracks.recorder (h : Tracks o r) (call : RecorderCall) (hforward : Forward r call) :
    InStep o r call ∧ Tracks o (recorder m o r call).1 := by
  cases call with
  | set ms =>
    obtain ⟨t, hagree, hagree'⟩ := h
    exact ⟨trivial, t, hagree.mono hforward, hagree'.mono hforward⟩
  | checkSync key cost => exact ⟨h.checkInStep key cost, h.recordCheck key cost⟩
  | checkManySync keys cost => exact h.recordMany cost keys
  | peekSync key => exact ⟨trivial, h.inspect key _⟩
  | forecastSync key cost =>
    refine ⟨trivial, ?_⟩
    show Tracks o (forecastSync o r key cost).1
    rw [forecastSync]
    split
    · exact h
    · exact h.inspect key _

/-- **Calls are in step while the clock is not set back**, whatever is looked at between them. -/
theorem inStep_of_forward {calls : List RecorderCall}
    (hforward : Lockstep.AllMet (Replay.recorder m o) Forward (.start m o) calls) :
    Lockstep.AllMet (Replay.recorder m o) (InStep o) (.start m o) calls :=
  hforward.imp_of_invariant (I := Tracks o) (fun _ call h hok => h.recorder call hok)
    (tracks_start m o)

end Run

/-! ### Record, then replay -/

/-- The trace that calls leave. -/
def recorded (lib : Library) (spec : LimiterSpec) (m : Peekable) (o : RecordOptions)
    (calls : List RecorderCall) : Trace :=
  traceOf lib spec o (Lockstep.after (recorder m o) (.start m o) calls)

/-- **Recording and then replaying is the identity**, where the calls are in step. The trace gives
the recorded decisions again, and so does the one that its text is read back as. -/
theorem recordThenReplay (lib : Library) {spec : LimiterSpec} {m : Peekable} {o : RecordOptions}
    (hbuild : rebuild o.name spec.1 = .ok m) {calls : List RecorderCall}
    (hsteps : Lockstep.AllMet (recorder m o) (InStep o) (.start m o) calls)
    (hne : (recorded lib spec m o calls).steps ≠ [])
    (htruncated : (recorded lib spec m o calls).truncated = false)
    (hnums : ∀ x ∈ (recorded lib spec m o calls).json.numbers, lib.numerals.Faithful x) :
    ∃ result, replay lib (recorded lib spec m o calls).json ⟨none, false⟩ = .ok result ∧
      result.replayed = (recorded lib spec m o calls).steps.map Step.decision ∧
      result.divergence.divergent = 0 ∧ result.spec = spec.1 ∧
      ∃ t, parseTrace lib (serializeTrace lib (recorded lib spec m o calls).json) = .ok t ∧
        replay lib t ⟨none, false⟩ = .ok result := by
  have hfaithful := faithful_after hsteps
  have hdropped : (recorded lib spec m o calls).dropped = 0 := by
    simpa [recorded, traceOf] using htruncated
  have hreplay := replay_of_driveSteps lib hbuild (t := recorded lib spec m o calls) rfl
    htruncated hdropped hne hfaithful.costs hfaithful.drive false
  have hparse := parseTrace_serializeTrace lib (t := recorded lib spec m o calls)
    (isRebuildable_of_rebuild hbuild) hfaithful.costs hnums
  exact ⟨_, hreplay, rfl, rfl, rfl, _, hparse, hreplay⟩

/-! ### Runs -/

/-- Whole numbers, as they are written. -/
def wholeNumerals : JsonText.Numerals where
  print x := (if x < 0 then ['-'] else []) ++ Nat.toDigits 10 x.num.natAbs
  read cs :=
    match cs with
    | '-' :: ds => -(ofDigits ds : ℚ)
    | ds => ofDigits ds

/-- With the hash of the script of fixed windows. -/
def wholeLibrary : Library where
  luaSha1 _ := some "370dc44fa500c3b52cb41ae3772037992158bd72"
  numerals := wholeNumerals

theorem distinct_oncePerSecond : (JsonValue.obj [("strategy", .str "fixedWindow"),
    ("limit", .num 1), ("windowMs", .num 1000)]).Distinct := by
  simp [Distinct, PropertiesDistinct]

/-- One unit a second. -/
def oncePerSecond : LimiterSpec := ⟨_, distinct_oncePerSecond⟩

/-- What it builds. -/
def oncePerSecondWindow : Peekable := .fixedWindow ⟨1, 1000, unit_pos, second_pos⟩

/-- Two keys of the same person. -/
def oneName : RecordOptions where
  redactKey := some fun key => if key = "A" then "a" else key

/-- Looks, a batch and a check that throw, and a clock that is set back. -/
def backAndForth : List RecorderCall :=
  [.checkSync "a" 1, .set 500, .checkManySync ["b", "A", "c"] 1, .peekSync "a",
    .forecastSync "b" 1, .checkSync "a" 0, .set 200, .checkSync "a" 1, .checkSync "b" 1]

theorem recordThenReplay_backAndForth :
    ∃ result, replay wholeLibrary
        (recorded wholeLibrary oncePerSecond oncePerSecondWindow oneName backAndForth).json
        ⟨none, false⟩ = .ok result ∧
      result.replayed = (recorded wholeLibrary oncePerSecond oncePerSecondWindow oneName
        backAndForth).steps.map Step.decision ∧
      result.divergence.divergent = 0 ∧ result.spec = oncePerSecond.1 ∧
      ∃ t, parseTrace wholeLibrary (serializeTrace wholeLibrary
          (recorded wholeLibrary oncePerSecond oncePerSecondWindow oneName backAndForth).json)
            = .ok t ∧
        replay wholeLibrary t ⟨none, false⟩ = .ok result :=
  recordThenReplay wholeLibrary (m := oncePerSecondWindow) rfl (by decide +kernel)
    (by decide +kernel) (by decide +kernel) (by decide +kernel)

/-- A look at an expired entry drops it, before the clock is set back. -/
def lookBehind : List RecorderCall :=
  [.checkSync "a" 1, .set 1000, .peekSync "a", .set 500, .checkSync "a" 1]

/-- The recording admits the second check, as it has no entry for it. The replay has. -/
theorem replay_diverges : ¬ ∀ (lib : Library) (spec : LimiterSpec) (m : Peekable)
    (o : RecordOptions) (calls : List RecorderCall), rebuild o.name spec.1 = .ok m →
      (recorded lib spec m o calls).steps ≠ [] →
      (recorded lib spec m o calls).truncated = false →
      (∀ x ∈ (recorded lib spec m o calls).json.numbers, lib.numerals.Faithful x) →
      ∃ result, replay lib (recorded lib spec m o calls).json ⟨none, false⟩ = .ok result ∧
        result.divergence.divergent = 0 := by
  intro h
  obtain ⟨result, hok, -⟩ := h wholeLibrary oncePerSecond oncePerSecondWindow {} lookBehind rfl
    (by decide +kernel) (by decide +kernel) (by decide +kernel)
  have hrefused : (replay wholeLibrary (recorded wholeLibrary oncePerSecond oncePerSecondWindow {}
      lookBehind).json ⟨none, false⟩).isOk = false := by decide +kernel
  rw [hok] at hrefused
  cases hrefused

end ThrottleKit.Replay
