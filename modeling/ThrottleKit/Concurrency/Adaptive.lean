import Mathlib.Data.Rat.Floor
import Mathlib.Logic.Function.Basic
import ThrottleKit.Core.Types

/-!
# The adaptive concurrency guard

A guard grants leases up to a limit that it infers from how long the leases are held. Each release
is a sample: the smallest of the last samples is the no-load latency, and the limit grows or shrinks
with the ratio of the two, by one of two laws. From time to time the guard may hold its ceiling down
and measure the no-load latency anew.

Square roots are those of the machine, so `Math.sqrt` is an option of the model.

## Main definitions

* `Config`, `Guard`, `acquire`, `settle` — the guard
* `Lease`, `Lease.doRelease` — a granted slot
* `leaseAsAdmission` — an acquisition as a decision

## Main results

* `doRelease_inflight` — a lease gives back its slot once
* `doRelease_inRange` — the estimate stays between the configured limits
-/

namespace ThrottleKit.Adaptive

/-- `clamp(value, lo, hi)`. -/
def clamp (value lo hi : ℚ) : ℚ := min hi (max lo value)

/-- The law the limit follows. -/
inductive Algorithm
  | gradient2
  | aimd
deriving DecidableEq

/-- The options of the recalibration. -/
structure RecalibrationConfig where
  intervalMs : ℚ
  probeLimit : ℚ
  probeSamples : ℤ

/-- The options of `adaptiveConcurrency`. -/
structure Config where
  minLimit : ℚ
  maxLimit : ℚ
  initialLimit : ℚ
  algorithm : Algorithm
  window : ℕ
  smoothing : ℚ
  tolerance : ℚ
  backoffRatio : ℚ
  recal : Option RecalibrationConfig
  /-- `Math.sqrt`. -/
  sqrt : ℚ → ℚ

/-- The default options. -/
def Config.defaults : Config where
  minLimit := 4
  maxLimit := 512
  initialLimit := 4
  algorithm := .gradient2
  window := 100
  smoothing := 1 / 5
  tolerance := 2
  backoffRatio := 9 / 10
  recal := none
  sqrt x := Nat.sqrt ⌊x⌋₊

/-- The capacity of the deque. -/
def Config.cap (cfg : Config) : ℕ := cfg.window + 1

/-- The ceiling of a probe. -/
def Config.probeLimit (cfg : Config) : ℚ := cfg.recal.elim cfg.minLimit (·.probeLimit)

/-- The clean samples a probe takes. -/
def Config.probeSamples (cfg : Config) : ℤ := cfg.recal.elim 0 (·.probeSamples)

/-- The state of a guard. -/
structure Guard where
  /-- The limit is its integer part. -/
  estimate : ℚ
  inflightCount : ℤ
  /-- The smallest of the last samples; zero before the first. -/
  rttNoload : ℚ
  lastRtt : ℚ
  /-- The index of the next sample. -/
  nextSeq : ℕ
  dqSeq : ℕ → ℤ
  dqVal : ℕ → ℚ
  dqHead : ℕ
  dqTail : ℕ
  probing : Bool
  /-- The smallest clean sample of the probe; `none` is infinite. -/
  probeMin : Option ℚ
  probeCount : ℤ
  lastRecalEnd : ℚ

/-- A guard as constructed at `now`. -/
def Guard.new (cfg : Config) (now : ℚ) : Guard where
  estimate := cfg.initialLimit
  inflightCount := 0
  rttNoload := 0
  lastRtt := 0
  nextSeq := 0
  dqSeq _ := 0
  dqVal _ := 0
  dqHead := 0
  dqTail := 0
  probing := false
  probeMin := none
  probeCount := 0
  lastRecalEnd := if cfg.recal.isSome then now else 0

namespace Guard

/-- `guard.limit`. -/
def limit (g : Guard) : ℤ := ⌊g.estimate⌋

/-- What `acquire` admits up to. -/
def ceiling (cfg : Config) (g : Guard) : ℚ :=
  if g.probing = true ∧ cfg.probeLimit < g.limit then cfg.probeLimit else g.limit

/-- The entries at the back of the deque that are no smaller than `rtt` go. -/
def popBack (dqVal : ℕ → ℚ) (cap head : ℕ) (rtt : ℚ) : ℕ → ℕ
  | 0 => 0
  | tail + 1 =>
    if head < tail + 1 ∧ dqVal (tail % cap) ≥ rtt then popBack dqVal cap head rtt tail else tail + 1

/-- `#recordRtt(rtt)`. -/
def recordRtt (cfg : Config) (g : Guard) (rtt : ℚ) : Guard :=
  let seq := g.nextSeq
  let expired := g.dqTail > g.dqHead ∧ g.dqSeq (g.dqHead % cfg.cap) ≤ (seq : ℤ) - cfg.window
  let head := if expired then g.dqHead + 1 else g.dqHead
  let tail := popBack g.dqVal cfg.cap head rtt g.dqTail
  let dqVal := Function.update g.dqVal (tail % cfg.cap) rtt
  { g with
    nextSeq := seq + 1
    dqHead := head
    dqVal := dqVal
    dqSeq := Function.update g.dqSeq (tail % cfg.cap) seq
    dqTail := tail + 1
    rttNoload := dqVal (head % cfg.cap) }

/-- `#updateGradient2(rtt, dropped, inflightAtAcquire)`. -/
def updateGradient2 (cfg : Config) (g : Guard) (rtt : ℚ) (dropped : Bool)
    (inflightAtAcquire : ℤ) : Guard :=
  let gradient :=
    if dropped then 1 / 2
    else if rtt ≤ 0 then 1
    else clamp (cfg.tolerance * g.rttNoload / rtt) (1 / 2) 1
  -- A healthy sample taken far below the ceiling says nothing about a higher one.
  if dropped = false ∧ (inflightAtAcquire : ℚ) * 2 < g.estimate then g
  else
    let queueSize := cfg.sqrt g.estimate
    let newLimit := g.estimate * gradient + queueSize
    let newLimit := g.estimate * (1 - cfg.smoothing) + newLimit * cfg.smoothing
    { g with estimate := clamp newLimit cfg.minLimit cfg.maxLimit }

/-- `#updateAimd(rtt, dropped, inflightAtAcquire)`. -/
def updateAimd (cfg : Config) (g : Guard) (rtt : ℚ) (dropped : Bool) (inflightAtAcquire : ℤ) :
    Guard :=
  if dropped = true ∨ rtt > g.rttNoload * cfg.tolerance then
    { g with estimate := max cfg.minLimit ⌊g.estimate * cfg.backoffRatio⌋ }
  else if (inflightAtAcquire : ℚ) * 2 ≥ g.estimate then
    { g with estimate := min cfg.maxLimit (g.estimate + 1) }
  else g

/-- `#startProbe()`. -/
def startProbe (g : Guard) : Guard := { g with probing := true, probeMin := none, probeCount := 0 }

/-- `#finishProbe(now)`: the deque starts anew from what the probe measured. -/
def finishProbe (g : Guard) (now : ℚ) : Guard :=
  let fresh := g.probeMin.getD g.rttNoload
  { g with
    dqHead := 0
    dqVal := Function.update g.dqVal 0 fresh
    dqSeq := Function.update g.dqSeq 0 g.nextSeq
    nextSeq := g.nextSeq + 1
    dqTail := 1
    rttNoload := fresh
    probing := false
    lastRecalEnd := now }

/-- A sample of a probe: only a clean one of low concurrency counts. -/
def probeSample (cfg : Config) (g : Guard) (now rtt : ℚ) (dropped : Bool)
    (inflightAtAcquire : ℤ) : Guard :=
  if dropped = false ∧ inflightAtAcquire ≤ cfg.probeLimit then
    let probeMin := if g.probeMin.all (rtt < ·) then some rtt else g.probeMin
    let g := { g with probeMin := probeMin, probeCount := g.probeCount + 1 }
    if g.probeCount ≥ cfg.probeSamples then g.finishProbe now else g
  else g

/-- The law for one completed request. -/
def infer (cfg : Config) (g : Guard) (rtt : ℚ) (dropped : Bool) (inflightAtAcquire : ℤ) : Guard :=
  match cfg.algorithm with
  | .gradient2 => g.updateGradient2 cfg rtt dropped inflightAtAcquire
  | .aimd => g.updateAimd cfg rtt dropped inflightAtAcquire

/-- A sample of normal operation. -/
def sample (cfg : Config) (g : Guard) (now rtt : ℚ) (dropped : Bool) (inflightAtAcquire : ℤ) :
    Guard :=
  let g := (g.recordRtt cfg rtt).infer cfg rtt dropped inflightAtAcquire
  if cfg.recal.any fun recal => now - g.lastRecalEnd ≥ recal.intervalMs then g.startProbe else g

/-- `settle(startTime, inflightAtAcquire, dropped)` at `now`. -/
def settle (cfg : Config) (g : Guard) (startTime : ℚ) (inflightAtAcquire : ℤ) (dropped : Bool)
    (now : ℚ) : Guard :=
  let rtt := max 0 (now - startTime)
  let g := { g with inflightCount := g.inflightCount - 1, lastRtt := rtt }
  if g.probing then g.probeSample cfg now rtt dropped inflightAtAcquire
  else g.sample cfg now rtt dropped inflightAtAcquire

end Guard

/-- A granted lease. -/
structure Lease where
  startTime : ℚ
  inflightAtAcquire : ℤ
  released : Bool

/-- `acquire()` at `now`; a rejected lease is `none`. -/
def acquire (cfg : Config) (g : Guard) (now : ℚ) : Guard × Option Lease :=
  if (g.inflightCount : ℚ) ≥ g.ceiling cfg then (g, none)
  else
    let inflightCount := g.inflightCount + 1
    ({ g with inflightCount := inflightCount }, some ⟨now, inflightCount, false⟩)

/-- `lease.release({ dropped })` at `now`. -/
def Lease.doRelease (cfg : Config) (g : Guard) (lease : Lease) (dropped : Bool) (now : ℚ) :
    Guard × Lease :=
  if lease.released then (g, lease)
  else
    (g.settle cfg lease.startTime lease.inflightAtAcquire dropped now,
      { lease with released := true })

/-- `Math.round(x)`. -/
def round (x : ℚ) : ℤ := ⌊x + 1 / 2⌋

/-- `leaseAsAdmission(guard).acquire()`, the guard reading its clock at `acquireAt` and the shim its
own at `now`. -/
def leaseAsAdmission (cfg : Config) (g : Guard) (acquireAt now : ℚ) :
    Guard × Option Lease × Decision :=
  let out := acquire cfg g acquireAt
  match out.2 with
  | some lease =>
    (out.1, some lease,
      ⟨true, out.1.limit, max 0 (out.1.limit - out.1.inflightCount : ℤ), now, 0⟩)
  | none =>
    let lastRtt := if out.1.lastRtt = 0 then 1 else out.1.lastRtt
    (out.1, none, ⟨false, out.1.limit, 0, now, max 1 (round lastRtt)⟩)

/-! ### What the in-flight count follows -/

variable {cfg : Config} {g : Guard} {now rtt startTime : ℚ} {dropped : Bool} {n : ℤ}

theorem probeSample_inflight :
    (g.probeSample cfg now rtt dropped n).inflightCount = g.inflightCount := by
  unfold Guard.probeSample
  split
  · dsimp only
    split <;> rfl
  · rfl

theorem updateGradient2_inflight :
    (g.updateGradient2 cfg rtt dropped n).inflightCount = g.inflightCount := by
  unfold Guard.updateGradient2
  dsimp only
  split <;> rfl

theorem updateAimd_inflight :
    (g.updateAimd cfg rtt dropped n).inflightCount = g.inflightCount := by
  unfold Guard.updateAimd
  split
  · rfl
  · split <;> rfl

theorem infer_inflight : (g.infer cfg rtt dropped n).inflightCount = g.inflightCount := by
  unfold Guard.infer
  split
  · exact updateGradient2_inflight
  · exact updateAimd_inflight

theorem sample_inflight : (g.sample cfg now rtt dropped n).inflightCount = g.inflightCount := by
  have hlaw : ((g.recordRtt cfg rtt).infer cfg rtt dropped n).inflightCount = g.inflightCount :=
    infer_inflight
  unfold Guard.sample
  dsimp only
  split
  · exact hlaw
  · exact hlaw

/-- **A sample frees one slot**, whatever the law makes of it. -/
theorem settle_inflight :
    (g.settle cfg startTime n dropped now).inflightCount = g.inflightCount - 1 := by
  unfold Guard.settle
  dsimp only
  split
  · exact probeSample_inflight
  · exact sample_inflight

/-- A lease gives back its slot once. -/
theorem doRelease_inflight {lease : Lease} : (lease.doRelease cfg g dropped now).1.inflightCount
    = g.inflightCount - if lease.released then 0 else 1 := by
  unfold Lease.doRelease
  split
  · simp
  · exact settle_inflight

@[simp] theorem doRelease_released {lease : Lease} :
    (lease.doRelease cfg g dropped now).2.released = true := by
  unfold Lease.doRelease
  split
  · assumption
  · rfl

theorem doRelease_of_released {lease : Lease} (h : lease.released = true) :
    lease.doRelease cfg g dropped now = (g, lease) := if_pos h

/-- What an acquisition does: it takes a slot and holds it, or leaves the guard as it is. -/
theorem leaseAsAdmission_cases (cfg : Config) (g : Guard) (acquireAt now : ℚ) :
    (∃ g' lease d, leaseAsAdmission cfg g acquireAt now = (g', some lease, d) ∧
      g'.inflightCount = g.inflightCount + 1 ∧ lease.released = false ∧ d.allowed = true) ∨
    ∃ d, leaseAsAdmission cfg g acquireAt now = (g, none, d) ∧ d.allowed = false := by
  unfold leaseAsAdmission acquire
  by_cases hfull : (g.inflightCount : ℚ) ≥ g.ceiling cfg
  · rw [if_pos hfull]
    exact .inr ⟨_, rfl, rfl⟩
  · rw [if_neg hfull]
    exact .inl ⟨_, _, _, rfl, rfl, rfl, rfl⟩

/-! ### What bounds the estimate -/

/-- The options that `adaptiveConcurrency` lets through. -/
structure Config.Valid (cfg : Config) : Prop where
  one_le_minLimit : 1 ≤ cfg.minLimit
  minLimit_le_initialLimit : cfg.minLimit ≤ cfg.initialLimit
  initialLimit_le_maxLimit : cfg.initialLimit ≤ cfg.maxLimit
  smoothing : 0 < cfg.smoothing ∧ cfg.smoothing ≤ 1
  one_le_tolerance : 1 ≤ cfg.tolerance
  backoffRatio : 1 / 2 ≤ cfg.backoffRatio ∧ cfg.backoffRatio < 1
  recal : ∀ recal, cfg.recal = some recal → 0 < recal.intervalMs ∧ 1 ≤ recal.probeLimit ∧
    recal.probeLimit ≤ cfg.maxLimit ∧ 1 ≤ recal.probeSamples

theorem Config.Valid.minLimit_le_maxLimit (h : cfg.Valid) : cfg.minLimit ≤ cfg.maxLimit :=
  h.minLimit_le_initialLimit.trans h.initialLimit_le_maxLimit

/-- The estimate is between the configured limits. -/
def Guard.InRange (cfg : Config) (g : Guard) : Prop :=
  cfg.minLimit ≤ g.estimate ∧ g.estimate ≤ cfg.maxLimit

theorem clamp_mem {value lo hi : ℚ} (h : lo ≤ hi) :
    lo ≤ clamp value lo hi ∧ clamp value lo hi ≤ hi :=
  ⟨le_min h (le_max_left _ _), min_le_left _ _⟩

theorem updateGradient2_inRange (hvalid : cfg.Valid) (h : g.InRange cfg) :
    (g.updateGradient2 cfg rtt dropped n).InRange cfg := by
  rw [Guard.updateGradient2]
  dsimp only
  split
  · exact h
  · exact clamp_mem hvalid.minLimit_le_maxLimit

theorem updateAimd_inRange (hvalid : cfg.Valid) (h : g.InRange cfg) :
    (g.updateAimd cfg rtt dropped n).InRange cfg := by
  obtain ⟨hmin, hmax⟩ := h
  rw [Guard.updateAimd]
  split
  · have hnonneg : 0 ≤ g.estimate := zero_le_one.trans (hvalid.one_le_minLimit.trans hmin)
    have hback : g.estimate * cfg.backoffRatio ≤ g.estimate :=
      mul_le_of_le_one_right hnonneg hvalid.backoffRatio.2.le
    refine ⟨le_max_left _ _, max_le hvalid.minLimit_le_maxLimit ?_⟩
    exact (Int.floor_le _).trans (hback.trans hmax)
  · split
    · exact ⟨le_min hvalid.minLimit_le_maxLimit (hmin.trans (le_add_of_nonneg_right zero_le_one)),
        min_le_left _ _⟩
    · exact ⟨hmin, hmax⟩

theorem sample_inRange (hvalid : cfg.Valid) (h : g.InRange cfg) :
    (g.sample cfg now rtt dropped n).InRange cfg := by
  have hrecord : (g.recordRtt cfg rtt).InRange cfg := h
  have hlaw : ((g.recordRtt cfg rtt).infer cfg rtt dropped n).InRange cfg := by
    rw [Guard.infer]
    split
    · exact updateGradient2_inRange hvalid hrecord
    · exact updateAimd_inRange hvalid hrecord
  rw [Guard.sample]
  split
  · exact hlaw
  · exact hlaw

/-- A sample of a probe leaves the estimate alone. -/
theorem probeSample_estimate : (g.probeSample cfg now rtt dropped n).estimate = g.estimate := by
  rw [Guard.probeSample]
  split
  · dsimp only
    split <;> rfl
  · rfl

/-- **A release keeps the estimate between the configured limits.** -/
theorem doRelease_inRange {lease : Lease} (hvalid : cfg.Valid) (h : g.InRange cfg) :
    (lease.doRelease cfg g dropped now).1.InRange cfg := by
  rw [Lease.doRelease]
  split
  · exact h
  · rw [Guard.settle]
    dsimp only
    split
    · rw [Guard.InRange, probeSample_estimate]
      exact h
    · exact sample_inRange hvalid h

end ThrottleKit.Adaptive
