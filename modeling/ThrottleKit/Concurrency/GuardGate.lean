import Mathlib.Data.List.Count
import Mathlib.Tactic.Linarith
import ThrottleKit.Concurrency.Adaptive
import ThrottleKit.Concurrency.Distributed

/-!
# The two gates of the distributed guard

The distributed guard asks its private limiter only after its own gate, `min(share, local.limit)`,
has let a request pass, and counts on the private limiter to grant it. That is so except while the
private limiter measures its no-load latency anew: it then admits up to its probe limit, which the
gate does not know of (`probe_refuses`).

## Main definitions

* `Options`, `DistributedGuard` — the guard with the adaptive guard as its private limiter
* `gateStep` — its actions
* `HeldDown` — the private limiter admits nothing more

## Main results

* `acquireLocal_outer` — the fleet model's private limiter is this one
* `gates_agree_iff` — what the counts and the estimate are, and when no request is refused
-/

namespace ThrottleKit.Concurrency

open Machine

variable {ι : Type}

/-- The options of the guard, validated, and those of its private limiter. -/
structure Options where
  outer : Config
  inner : Adaptive.Config
  valid : inner.Valid
  initialLimit_eq : outer.initialLimit = ⌊inner.initialLimit⌋

/-- What the guard reads of its private limiter. -/
def limiterOf (cfg : Adaptive.Config) (g : Adaptive.Guard) : Limiter :=
  ⟨g.limit, g.inflightCount.toNat, if g.probing then some ⌈cfg.probeLimit⌉ else none⟩

/-- The guard, with the heartbeats it has sent and the leases it has granted. -/
structure DistributedGuard (ι : Type) where
  /-- The state but for the private limiter: what it reads of that is never kept. -/
  rest : Guard
  /-- `local`. -/
  limiter : Adaptive.Guard
  sent : List (Report ι)
  leases : List Adaptive.Lease

/-- The guard as its own code sees it. -/
def DistributedGuard.outer (cfg : Options) (g : DistributedGuard ι) : Guard :=
  { g.rest with limiter := limiterOf cfg.inner g.limiter }

/-- A guard as constructed at `now`. -/
def DistributedGuard.new (cfg : Options) (now : ℚ) : DistributedGuard ι where
  rest := .new cfg.outer
  limiter := .new cfg.inner now
  sent := []
  leases := []

/-- What becomes of an `acquire`. -/
inductive Outcome
  /-- The guard's own gate is closed. -/
  | gated
  /-- The gate lets it pass, and the private limiter does not grant it. -/
  | refused
  | granted
deriving DecidableEq

/-- The guard's own gate lets a request pass. -/
def passesGate (cfg : Options) (g : DistributedGuard ι) (now : ℚ) : Bool :=
  !g.rest.closed && decide (g.limiter.inflightCount < ceiling cfg.outer (g.outer cfg) now)

/-- `acquire()`: the gate at `now`, and the private limiter at `acquireAt`. -/
def acquireLocal (cfg : Options) (g : DistributedGuard ι) (now acquireAt : ℚ) :
    DistributedGuard ι × Outcome :=
  if passesGate cfg g now then
    match Adaptive.acquire cfg.inner g.limiter acquireAt with
    | (limiter, some lease) =>
      ({ g with limiter := limiter, leases := g.leases ++ [lease] }, .granted)
    | (limiter, none) => ({ g with limiter := limiter }, .refused)
  else (g, .gated)

/-- What can happen to the guard. -/
inductive GateAct
  | acquire (now acquireAt : ℚ)
  /-- Lease `k` is released, for the first time or again. -/
  | release (k : ℕ) (dropped : Bool) (now : ℚ)
  | send (now : ℚ)
  /-- A reply to heartbeat `b` lands. -/
  | deliver (b : ℕ) (grant : Grant)
  /-- Heartbeat `b` throws. -/
  | fail (b : ℕ)
  | close

/-- One action of the guard of node `i`. -/
def gateStep (cfg : Options) (i : ι) : Machine (DistributedGuard ι) GateAct Outcome := fun g a =>
  match a with
  | .acquire now acquireAt =>
    let r := acquireLocal cfg g now acquireAt
    some (r.1, [r.2])
  | .release k dropped now => (g.leases[k]?).map fun lease =>
    let r := lease.doRelease cfg.inner g.limiter dropped now
    ({ g with limiter := r.1, leases := g.leases.set k r.2 }, [])
  | .send now =>
    let r := sendHeartbeat cfg.outer i (g.outer cfg) now
    some ({ g with rest := r.1, sent := g.sent ++ [r.2] }, [])
  | .deliver b grant => (g.sent[b]?).map fun report =>
    ({ g with rest := applyGrant (g.outer cfg) report grant }, [])
  | .fail b => (g.sent[b]?).map fun report =>
    ({ g with rest := outage cfg.outer (g.outer cfg) report }, [])
  | .close => some ({ g with rest := { g.rest with closed := true } }, [])

/-- The leases that are not released. -/
def outstanding (g : DistributedGuard ι) : ℕ := g.leases.countP fun lease => !lease.released

/-- The private limiter measures its no-load latency, and as much is in flight as it admits
meanwhile. -/
def HeldDown (cfg : Options) (g : DistributedGuard ι) : Prop :=
  g.limiter.probing = true ∧ cfg.inner.probeLimit ≤ g.limiter.inflightCount

/-- The action is not an `acquire` that passes the gate while the private limiter is held down. -/
def Clear (cfg : Options) (g : DistributedGuard ι) : GateAct → Prop
  | .acquire now _ => passesGate cfg g now = true → ¬ HeldDown cfg g
  | _ => True

/-! ### An acquisition -/

section Acquire

variable {cfg : Options} {g : DistributedGuard ι} {now acquireAt : ℚ}

theorem lt_limit_of_passesGate (hnonneg : 0 ≤ g.limiter.inflightCount)
    (h : passesGate cfg g now = true) : g.limiter.inflightCount < g.limiter.limit := by
  have hlt : g.limiter.inflightCount < ceiling cfg.outer (g.outer cfg) now := by
    rw [passesGate, Bool.and_eq_true, decide_eq_true_eq] at h
    exact h.2
  rw [ceiling] at hlt
  split at hlt
  · omega
  · exact lt_of_lt_of_le hlt (min_le_right _ _)

/-- Below its limit the private limiter grants, unless it is held down. -/
theorem ceiling_le_iff (cfg : Options) (hlt : g.limiter.inflightCount < g.limiter.limit) :
    g.limiter.ceiling cfg.inner ≤ g.limiter.inflightCount ↔ HeldDown cfg g := by
  have hlt' : (g.limiter.inflightCount : ℚ) < g.limiter.limit := by exact_mod_cast hlt
  rw [Adaptive.Guard.ceiling, HeldDown]
  split
  · rename_i hprobing
    exact ⟨fun hle => ⟨hprobing.1, hle⟩, fun hle => hle.2⟩
  · rename_i hprobing
    constructor
    · intro hle
      exact absurd hle (not_le.mpr hlt')
    · rintro ⟨hon, hle⟩
      exact absurd ⟨hon, lt_of_le_of_lt hle hlt'⟩ hprobing

/-- **What an acquisition does**: the gate is closed; or the private limiter is held down; or a
lease is granted and counted. -/
theorem acquireLocal_cases (cfg : Options) (now acquireAt : ℚ)
    (hnonneg : 0 ≤ g.limiter.inflightCount) :
    (passesGate cfg g now = false ∧ acquireLocal cfg g now acquireAt = (g, .gated)) ∨
    (passesGate cfg g now = true ∧ HeldDown cfg g ∧
      acquireLocal cfg g now acquireAt = (g, .refused)) ∨
    (passesGate cfg g now = true ∧ ¬ HeldDown cfg g ∧ ∃ lease, lease.released = false ∧
      acquireLocal cfg g now acquireAt =
        ({ g with
            limiter := { g.limiter with inflightCount := g.limiter.inflightCount + 1 }
            leases := g.leases ++ [lease] }, .granted)) := by
  by_cases hpass : passesGate cfg g now = true
  · have hiff := ceiling_le_iff cfg (lt_limit_of_passesGate hnonneg hpass)
    rw [acquireLocal, if_pos hpass, Adaptive.acquire]
    by_cases hheld : HeldDown cfg g
    · rw [if_pos (hiff.mpr hheld)]
      exact .inr (.inl ⟨hpass, hheld, rfl⟩)
    · rw [if_neg fun hle => hheld (hiff.mp hle)]
      exact .inr (.inr ⟨hpass, hheld, _, rfl, rfl⟩)
  · rw [acquireLocal, if_neg hpass]
    exact .inl ⟨by simpa using hpass, rfl⟩

/-- **The fleet model's private limiter is this one**: its guard acquires as the view of this guard
does. -/
theorem acquireLocal_outer (hnonneg : 0 ≤ g.limiter.inflightCount) :
    acquire cfg.outer (g.outer cfg) now = ((acquireLocal cfg g now acquireAt).1.outer cfg,
      decide ((acquireLocal cfg g now acquireAt).2 = .granted)) := by
  have hcount : ((g.outer cfg).limiter.inflight : ℤ) = g.limiter.inflightCount :=
    Int.toNat_of_nonneg hnonneg
  have hgate : passesGate cfg g now = true ↔ (g.outer cfg).closed = false ∧
      ¬ ceiling cfg.outer (g.outer cfg) now ≤ (g.outer cfg).limiter.inflight := by
    rw [passesGate, Bool.and_eq_true, decide_eq_true_eq, hcount, not_le, Bool.not_eq_true']
    rfl
  have hheld : passesGate cfg g now = true → (HeldDown cfg g ↔
      (g.outer cfg).limiter.probeLimit.elim (g.outer cfg).limiter.limit
        (min · (g.outer cfg).limiter.limit) ≤ (g.outer cfg).limiter.inflight) := by
    intro hpass
    have hlt := lt_limit_of_passesGate hnonneg hpass
    have hlimit : (g.outer cfg).limiter.limit = g.limiter.limit := rfl
    have hprobe : (g.outer cfg).limiter.probeLimit
        = if g.limiter.probing then some ⌈cfg.inner.probeLimit⌉ else none := rfl
    rw [HeldDown, hcount, hprobe, hlimit]
    cases g.limiter.probing with
    | false => simpa using hlt
    | true =>
      rw [if_pos rfl, Option.elim_some, min_le_iff, Int.ceil_le]
      exact ⟨fun h => .inl h.2, fun h => ⟨rfl, h.resolve_right (not_le.mpr hlt)⟩⟩
  rw [acquire]
  rcases acquireLocal_cases cfg now acquireAt hnonneg with
    ⟨hpass, heq⟩ | ⟨hpass, hdown, heq⟩ | ⟨hpass, hdown, lease, -, heq⟩
  all_goals rw [heq]
  · by_cases hclosed : (g.outer cfg).closed = true
    · rw [if_pos hclosed]
      rfl
    · rw [if_neg hclosed, if_pos ?_]
      · rfl
      · by_contra hle
        exact absurd (hgate.mpr ⟨by simpa using hclosed, hle⟩) (by simp [hpass])
  · obtain ⟨hopen, hle⟩ := hgate.mp hpass
    rw [if_neg (Bool.eq_false_iff.mp hopen), if_neg hle, Limiter.acquire,
      if_pos ((hheld hpass).mp hdown)]
    rfl
  · obtain ⟨hopen, hle⟩ := hgate.mp hpass
    rw [if_neg (Bool.eq_false_iff.mp hopen), if_neg hle, Limiter.acquire,
      if_neg fun h => hdown ((hheld hpass).mpr h)]
    have hsucc : (g.limiter.inflightCount + 1).toNat = g.limiter.inflightCount.toNat + 1 := by
      omega
    show _ = (Guard.mk (limiterOf cfg.inner _) _ _ _ _ _ _ _ _, true)
    rw [limiterOf, hsucc]
    rfl

end Acquire

/-! ### Runs -/

section Run

variable {cfg : Options} {i : ι} {g g' : DistributedGuard ι} {a : GateAct} {out : List Outcome}

/-- What is in flight is what is outstanding, and the estimate is between the limits. -/
structure Tallied (cfg : Options) (g : DistributedGuard ι) : Prop where
  inflight : g.limiter.inflightCount = outstanding g
  inRange : g.limiter.InRange cfg.inner

theorem tallied_new (cfg : Options) (now : ℚ) :
    Tallied cfg (DistributedGuard.new cfg now : DistributedGuard ι) :=
  ⟨rfl, cfg.valid.minLimit_le_initialLimit, cfg.valid.initialLimit_le_maxLimit⟩

theorem Tallied.nonneg (h : Tallied cfg g) : 0 ≤ g.limiter.inflightCount := by
  rw [h.inflight]
  exact Int.natCast_nonneg _

/-- A release takes one off both counts, or neither. -/
theorem Tallied.release (h : Tallied cfg g) {k : ℕ} {lease : Adaptive.Lease}
    (hlease : g.leases[k]? = some lease) (dropped : Bool) (now : ℚ) :
    Tallied cfg { g with
      limiter := (lease.doRelease cfg.inner g.limiter dropped now).1
      leases := g.leases.set k (lease.doRelease cfg.inner g.limiter dropped now).2 } := by
  obtain ⟨hlt, hk⟩ := List.getElem?_eq_some_iff.mp hlease
  refine ⟨?_, Adaptive.doRelease_inRange cfg.valid h.inRange⟩
  have hinflight := h.inflight
  have hle : (if !lease.released then 1 else 0) ≤ outstanding g := by
    rw [outstanding, ← hk]
    split
    · exact List.countP_pos_iff.mpr ⟨_, List.getElem_mem hlt, by assumption⟩
    · exact Nat.zero_le _
  have hcount : outstanding { g with
      limiter := (lease.doRelease cfg.inner g.limiter dropped now).1
      leases := g.leases.set k (lease.doRelease cfg.inner g.limiter dropped now).2 }
        = outstanding g - if !lease.released then 1 else 0 := by
    rw [outstanding, outstanding, List.countP_set hlt, hk, Adaptive.doRelease_released]
    rfl
  show (lease.doRelease cfg.inner g.limiter dropped now).1.inflightCount = _
  rw [hcount, Adaptive.doRelease_inflight, hinflight]
  cases hreleased : lease.released with
  | false =>
    rw [hreleased] at hle
    have hpos : 1 ≤ outstanding g := hle
    show (outstanding g : ℤ) - 1 = ((outstanding g - 1 : ℕ) : ℤ)
    omega
  | true => rw [if_pos rfl, sub_zero, Bool.not_true, if_neg Bool.false_ne_true, Nat.sub_zero]

/-- **Every step keeps the counts and the estimate**, and refuses a request exactly where the
private limiter is held down. -/
theorem Tallied.step (h : Tallied cfg g) (hstep : gateStep cfg i g a = some (g', out)) :
    Tallied cfg g' ∧ (Outcome.refused ∉ out ↔ Clear cfg g a) := by
  cases a with
  | acquire now acquireAt =>
    obtain ⟨rfl, rfl⟩ := Prod.mk.inj (Option.some.inj hstep)
    rcases acquireLocal_cases cfg now acquireAt h.nonneg with
      ⟨hpass, heq⟩ | ⟨hpass, hdown, heq⟩ | ⟨hpass, hdown, lease, hlease, heq⟩
    all_goals rw [heq]
    · exact ⟨h, by simp [Clear, hpass]⟩
    · exact ⟨h, by simp [Clear, hpass, hdown]⟩
    · refine ⟨⟨?_, h.inRange⟩, by simp [Clear, hdown]⟩
      have hinflight := h.inflight
      have hcount : outstanding { g with
          limiter := { g.limiter with inflightCount := g.limiter.inflightCount + 1 }
          leases := g.leases ++ [lease] } = outstanding g + 1 := by
        rw [outstanding, outstanding, List.countP_append, List.countP_singleton, hlease]
        rfl
      show g.limiter.inflightCount + 1 = _
      rw [hcount, hinflight]
      push_cast
      rfl
  | release k dropped now =>
    obtain ⟨lease, hlease, heq⟩ := Option.map_eq_some_iff.mp hstep
    obtain ⟨rfl, rfl⟩ := Prod.mk.inj heq
    exact ⟨h.release hlease dropped now, by simp [Clear]⟩
  | send now =>
    obtain ⟨rfl, rfl⟩ := Prod.mk.inj (Option.some.inj hstep)
    exact ⟨⟨h.inflight, h.inRange⟩, by simp [Clear]⟩
  | deliver b grant =>
    obtain ⟨report, -, heq⟩ := Option.map_eq_some_iff.mp hstep
    obtain ⟨rfl, rfl⟩ := Prod.mk.inj heq
    exact ⟨⟨h.inflight, h.inRange⟩, by simp [Clear]⟩
  | fail b =>
    obtain ⟨report, -, heq⟩ := Option.map_eq_some_iff.mp hstep
    obtain ⟨rfl, rfl⟩ := Prod.mk.inj heq
    exact ⟨⟨h.inflight, h.inRange⟩, by simp [Clear]⟩
  | close =>
    obtain ⟨rfl, rfl⟩ := Prod.mk.inj (Option.some.inj hstep)
    exact ⟨⟨h.inflight, h.inRange⟩, by simp [Clear]⟩

/-- A run from a state whose counts are right. -/
theorem Tallied.exec (l : List GateAct) (h : Tallied cfg g)
    (hrun : (gateStep cfg i).exec g l = some (g', out)) :
    Tallied cfg g' ∧ (Outcome.refused ∉ out ↔ (gateStep cfg i).AllOk (Clear cfg) g l) := by
  induction l generalizing g out with
  | nil =>
    obtain ⟨rfl, rfl⟩ := Prod.mk.inj (Option.some.inj hrun)
    exact ⟨h, by simp [AllOk]⟩
  | cons a l ih =>
    obtain ⟨⟨g₁, out₁⟩, hstep, hrest⟩ := Option.bind_eq_some_iff.mp hrun
    obtain ⟨⟨g₂, out₂⟩, hlater, heq⟩ := Option.map_eq_some_iff.mp hrest
    obtain ⟨rfl, rfl⟩ := Prod.mk.inj heq
    obtain ⟨hnext, hclear⟩ := h.step hstep
    obtain ⟨hlast, hclears⟩ := ih hnext hlater
    refine ⟨hlast, ?_⟩
    rw [List.mem_append, not_or, hclear, hclears, AllOk, hstep]
    simp

end Run

/-- **When the two gates agree.** In every run of a guard, whatever the grants and the clock: what
is in flight is what is outstanding, the estimate is between the configured limits, and a request
that passes the guard's own gate is never refused if and only if none comes while the private
limiter is held down. -/
theorem gates_agree_iff (cfg : Options) (i : ι) (now : ℚ) (l : List GateAct)
    {g : DistributedGuard ι} {out : List Outcome}
    (h : (gateStep cfg i).exec (.new cfg now) l = some (g, out)) :
    (g.limiter.inflightCount = outstanding g ∧ cfg.inner.minLimit ≤ g.limiter.estimate ∧
      g.limiter.estimate ≤ cfg.inner.maxLimit) ∧
    (Outcome.refused ∉ out ↔ (gateStep cfg i).AllOk (Clear cfg) (.new cfg now) l) := by
  obtain ⟨htallied, hclear⟩ := (tallied_new cfg now).exec l h
  exact ⟨⟨htallied.inflight, htallied.inRange⟩, hclear⟩

/-- A limit of eight, measured anew every ten milliseconds at four requests in flight. -/
def recalibrating : Options where
  outer := .defaults 8 (by decide)
  inner := { Adaptive.Config.defaults with initialLimit := 8, recal := some ⟨10, 4, 5⟩ }
  valid := by
    constructor <;> norm_num [Adaptive.Config.defaults]
  initialLimit_eq := by decide +kernel

/-- A share of eight is granted, six requests are let in, and one of them is released. -/
def measures : List GateAct :=
  [.send 0, .deliver 0 ⟨8, 8, 1, none⟩] ++ List.replicate 6 (.acquire 20 20) ++
    [.release 0 false 30]

theorem gates_agree_iff_measures :
    Outcome.refused ∉ (((gateStep recalibrating ()).exec (.new recalibrating 0) measures).get
      (by decide +kernel)).2 ↔
        (gateStep recalibrating ()).AllOk (Clear recalibrating) (.new recalibrating 0) measures :=
  (gates_agree_iff recalibrating () 0 measures (Option.some_get _).symm).2

/-- **A probe refuses what the gate lets pass.** With five requests in flight the gate admits up to
eight, and the private limiter, measuring anew, up to four. -/
theorem probe_refuses :
    ¬ ∀ (cfg : Options) (l : List GateAct) (g : DistributedGuard Unit) (out : List Outcome),
      (gateStep cfg ()).exec (.new cfg 0) l = some (g, out) → Outcome.refused ∉ out := by
  intro hall
  have hrun : ((gateStep recalibrating ()).exec (.new recalibrating 0)
      (measures ++ [.acquire 40 40])).isSome := by
    decide +kernel
  refine absurd (hall recalibrating _ _ _ (Option.some_get hrun).symm) ?_
  revert hrun
  decide +kernel

end ThrottleKit.Concurrency
