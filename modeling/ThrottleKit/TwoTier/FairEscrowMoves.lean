import ThrottleKit.TwoTier.WeightedFairEscrow

/-!
# The moves of a weighted fair escrow

A step of a process is a sequence of moves, each with one effect on the state. What a move does that
the guarantees do not survive is marked as a lapse; which lapses a step has is decided by the state
before it. Two lapses are of the rounding alone: a check that does not meet the process in the
window of its reading, and a total or a difference of totals that is not exact.

## Main definitions

* `Cuts`, `PlainStep` — the window of a reading, and totals, that rounding does not change
* `Move`, `Moves` — the effects of a step
* `Lapses`, `lapses` — what the guarantees do not survive, and which of it a step does

## Main results

* `step_moves` — every step is a sequence of moves with the step's lapses
-/

namespace ThrottleKit.FairEscrow

open Machine Rounding

variable {b : Budget}

namespace Process

variable {s : Process} {now w cost : ℚ} {id ref : ℕ} {c : Call} {tenant : String}

@[simp] theorem tick_tenants : (s.tick now).tenants = s.tenants := rfl
@[simp] theorem tick_calls : (s.tick now).calls = s.calls := rfl
@[simp] theorem tick_heap : (s.tick now).heap = s.heap := rfl
@[simp] theorem tick_clock : (s.tick now).clock = now := rfl
@[simp] theorem tick_windowStart : (s.tick now).windowStart = s.windowStart := rfl
@[simp] theorem finish_tenants : (s.finish id).tenants = s.tenants := rfl
@[simp] theorem finish_windowStart : (s.finish id).windowStart = s.windowStart := rfl
@[simp] theorem finish_calls : (s.finish id).calls = s.calls.erase id := rfl

variable [Rounding]

@[simp] theorem grow_tenants : (s.grow w).tenants = s.tenants := rfl
@[simp] theorem grow_windowStart : (s.grow w).windowStart = s.windowStart := rfl
@[simp] theorem setWeight_tenants : (s.setWeight ref w).tenants = s.tenants := rfl
@[simp] theorem setWeight_calls : (s.setWeight ref w).calls = s.calls := rfl
@[simp] theorem setWeight_clock : (s.setWeight ref w).clock = s.clock := rfl
@[simp] theorem setWeight_windowStart : (s.setWeight ref w).windowStart = s.windowStart := rfl
@[simp] theorem addTenant_calls : (s.addTenant tenant w).calls = s.calls := rfl
@[simp] theorem addTenant_clock : (s.addTenant tenant w).clock = s.clock := rfl
@[simp] theorem addTenant_windowStart : (s.addTenant tenant w).windowStart = s.windowStart := rfl

@[simp] theorem addTenant_tenants :
    (s.addTenant tenant w).tenants = s.tenants.set tenant s.allocated := rfl

theorem deleteTenant_of_lookup (h : s.tenants.lookup tenant = some ref) :
    s.deleteTenant tenant = { s with
      aggWeight := fl (s.aggWeight - (s.heap ref).weight)
      aggUsed := fl (s.aggUsed - (s.heap ref).used)
      tenants := s.tenants.erase tenant } := by
  simp [deleteTenant, h]

end Process

variable [Rounding]

/-! ### What is not rounded -/

/-- The window that the process is in for a check at `now` is that of `now`, and it is later than
the one before if the check opens it. -/
def Cuts (b : Budget) (s : Process) (now : ℚ) : Prop :=
  if s.rolls b now then s.windowStart < (startOf b.windowMs now : ℚ)
  else s.windowStart = (startOf b.windowMs now : ℚ)

instance (s : Process) (now : ℚ) : Decidable (Cuts b s now) :=
  inferInstanceAs (Decidable (ite _ _ _))

/-- Observing a weight again does not round the total weight. -/
def PlainWeigh (s : Process) (ref : ℕ) (w : ℚ) : Prop :=
  Unrounded (w - (s.heap ref).weight) ∧ Unrounded (s.aggWeight + (w - (s.heap ref).weight))

/-- Taking an entry off the totals does not round them. -/
def PlainDelete (s : Process) (ref : ℕ) : Prop :=
  Unrounded (s.aggWeight - (s.heap ref).weight) ∧ Unrounded (s.aggUsed - (s.heap ref).used)

/-- Where totals are summed over the map, no partial sum is rounded. -/
def PlainTotals (s : Process) : Prop :=
  s.fractionalSeen = true →
    (∀ ws ∈ s.weights.inits, Unrounded ws.sum) ∧ ∀ us ∈ s.useds.inits, Unrounded us.sum

/-- Where a check may be admitted, what is left and what is used with it are not rounded. -/
def PlainDecide (s : Process) (k : Check) : Prop :=
  PlainTotals s ∧ (k.cost ≤ fl (s.lEffective - s.aggregate.totalUsed) →
    Unrounded (s.lEffective - s.aggregate.totalUsed) ∧
      Unrounded ((s.heap k.entry).used + k.cost) ∧ Unrounded (s.aggUsed + k.cost))

instance (s : Process) (ref : ℕ) (w : ℚ) : Decidable (PlainWeigh s ref w) :=
  inferInstanceAs (Decidable (_ ∧ _))

instance (s : Process) (ref : ℕ) : Decidable (PlainDelete s ref) :=
  inferInstanceAs (Decidable (_ ∧ _))

instance (s : Process) : Decidable (PlainTotals s) := inferInstanceAs (Decidable (_ → _))

instance (s : Process) (k : Check) : Decidable (PlainDecide s k) :=
  inferInstanceAs (Decidable (_ ∧ (_ → _)))

omit [Rounding] in
theorem plainTotals_exact (s : Process) : @PlainTotals exact s :=
  fun _ => ⟨fun _ _ => rfl, fun _ _ => rfl⟩

/-- Windows of whole numbers are never cut apart, by a clock that does not go back. -/
theorem cuts_of_whole {s : Process} {t now : ℚ} (hs : s.windowStart = (startOf b.windowMs t : ℚ))
    (hle : t ≤ now) (ht : WholeAt b.windowMs t) (hnow : WholeAt b.windowMs now) : Cuts b s now := by
  have hrolls : s.rolls b now = true ↔ endOf b.windowMs t ≤ now := by
    rw [Process.rolls, hs, decide_eq_true_iff]
    exact WithBot.coe_le_coe
  rw [Cuts, hs]
  by_cases hend : endOf b.windowMs t ≤ now
  · rw [if_pos (hrolls.mpr hend), WithBot.coe_lt_coe]
    exact startOf_lt_of_ended b.windowMs_pos (ht.inside b.windowMs_pos)
      (hnow.inside b.windowMs_pos) hend
  · rw [if_neg (mt hrolls.mp hend), WithBot.coe_inj, ht.startOf_eq b.windowMs_pos,
      hnow.startOf_eq b.windowMs_pos]
    rw [ht.endOf_eq b.windowMs_pos, not_le] at hend
    exact (AlignedWindow.alignedStart_eq_of_lt b.windowMs_pos hle hend).symm

/-! ### The moves -/

/-- What a step may do that the guarantees do not survive. -/
structure Lapses where
  /-- A check does not meet the process in the window of its reading. -/
  miscuts : Prop
  /-- A total is rounded. -/
  rounds : Prop
  /-- A tenant that has used units of the window is evicted. -/
  evictsUsed : Prop
  /-- A tenant is evicted while a suspended check holds its entry. -/
  evictsHeld : Prop
  /-- A check with a granted lease goes on with an entry that is no longer its tenant's. -/
  strays : Prop
  /-- Such a check decides. -/
  detached : Prop
  /-- A granted lease is resumed in another window than that of its check. -/
  late : Prop
  /-- A tenant or the window is reset. -/
  resets : Prop

/-- Where a check comes from: it has just entered, or resumes from a granted lease. -/
def Origin (b : Budget) (x : Lapses) (stray : Prop) (s : Process) (k : Check) : Prop :=
  (s.tenants.lookup k.tenant = some k.entry ∧ k.now = s.clock ∧ s.windowStart ≠ ⊥) ∨
  ((s.tenants.lookup k.tenant = some k.entry ∨ stray) ∧
    (s.windowStart = (startOf b.windowMs k.now : ℚ) ∨ x.late))

/-- No suspended check holds the entry `ref`. -/
def Unheld (s : Process) (ref : ℕ) : Prop :=
  ∀ id c, s.calls.lookup id = some c → c.check.entry ≠ ref

/-- One effect on the state of a process. -/
inductive Move (cfg : Config b) (x : Lapses) : Process → List Event → Process → Prop
  /-- A check enters the window. -/
  | stay {s : Process} (now : ℚ)
      (hcuts : s.windowStart = (startOf b.windowMs now : ℚ) ∨ x.miscuts) :
      Move cfg x s [] (s.tick now)
  /-- A check opens a window. -/
  | roll {s : Process} (now : ℚ)
      (hcuts : s.windowStart < (startOf b.windowMs now : ℚ) ∨ x.miscuts) :
      Move cfg x s [] ((s.opened cfg (startOf b.windowMs now : ℚ)).tick now)
  /-- The weight of a tenant is observed again. -/
  | weigh {s : Process} (tenant : String) (ref : ℕ) (w : ℚ)
      (hlookup : s.tenants.lookup tenant = some ref) (hw : 0 < w)
      (hplain : PlainWeigh s ref w ∨ x.rounds) : Move cfg x s [] (s.setWeight ref w)
  /-- A tenant is evicted. -/
  | evict {s : Process} (tenant : String) (ref : ℕ) (hlookup : s.tenants.lookup tenant = some ref)
      (hused : (s.heap ref).used ≤ 0 ∨ x.evictsUsed) (hheld : Unheld s ref ∨ x.evictsHeld)
      (hplain : PlainDelete s ref ∨ x.rounds) : Move cfg x s [] (s.deleteTenant tenant)
  /-- A tenant is added. -/
  | create {s : Process} (tenant : String) (w : ℚ) (hnone : s.tenants.lookup tenant = none)
      (hw : 0 < w) (hplain : Unrounded (s.aggWeight + w) ∨ x.rounds) :
      Move cfg x s [] (s.addTenant tenant w)
  /-- A check decides. -/
  | decide {s : Process} (id : ℕ) (k : Check) (horigin : Origin b x x.detached s k)
      (hplain : PlainDecide s k ∨ x.rounds) :
      Move cfg x s (conclude b s id k).2 (conclude b s id k).1
  /-- A check asks for a lease. -/
  | suspend {s : Process} (id : ℕ) (c : Call) (hl2 : cfg.l2.isSome = true)
      (horigin : Origin b x x.strays s c.check) (hfree : s.calls.lookup id = none)
      (hstage : c.stage = .requested) :
      Move cfg x s [] (s.setCall id c)
  /-- A check throws on its arguments. -/
  | threw {s : Process} (id : ℕ) (e : CheckError) : Move cfg x s [.threw id e] s
  /-- The store applies a lease. -/
  | serve {s : Process} (id : ℕ) (c : Call) (leased : Decision)
      (hcall : s.calls.lookup id = some c) (hstage : c.stage = .requested) :
      Move cfg x s (if leased.allowed then [.charged c.check.now c.leaseAmount] else [])
        (s.setCall id { c with stage := .replied leased })
  /-- A lease is lost. -/
  | lose {s : Process} (id : ℕ) : Move cfg x s [.failed id] (s.finish id)
  /-- A lease was denied. -/
  | refuse {s : Process} (id : ℕ) (k : Check) (d : ShareDecision) :
      Move cfg x s [.refused id k d] (s.finish id)
  /-- A lease was granted. -/
  | grow {s : Process} (id : ℕ) (c : Call) (leased : Decision)
      (hcall : s.calls.lookup id = some c) (hstage : c.stage = .replied leased)
      (hallowed : leased.allowed = true)
      (hlate : s.windowStart = (startOf b.windowMs c.check.now : ℚ) ∨ x.late)
      (hplain : Unrounded (s.lEffective + c.leaseAmount) ∨ x.rounds) :
      Move cfg x s [] ((s.grow c.leaseAmount).finish id)
  /-- A tenant or the window is reset. -/
  | reset {s : Process} (tenant : Option String) (hresets : x.resets)
      (hplain : (∀ t ∈ tenant, ∀ ref ∈ s.tenants.lookup t, PlainDelete s ref) ∨ x.rounds) :
      Move cfg x s [] (reset cfg s tenant)

/-- A sequence of moves. -/
abbrev Moves (cfg : Config b) (x : Lapses) : Process → List Event → Process → Prop :=
  Chain (Move cfg x)

/-! ### The lapses of a step -/

/-- The tenant and the clock reading of a check that gets past its validation. -/
def arrival (cfg : Config b) : Act → Option (String × ℚ)
  | .checkSync _ tenant cost weight now =>
    if cfg.l2.isNone && (validateInputs tenant cost weight).isOk then some (tenant, now) else none
  | .check _ tenant cost weight now =>
    if (validateInputs tenant cost weight).isOk then some (tenant, now) else none
  | _ => none

/-- The entry that a check of `tenant` at `now` evicts. -/
def evicted (cfg : Config b) (s : Process) (tenant : String) (now : ℚ) : Option ℕ :=
  let s := s.rollWindow cfg now
  if (s.tenants.lookup tenant).isNone && cfg.full s.tenants.size then
    s.tenants.oldest?.bind s.tenants.lookup
  else none

/-- The check is made at a clock reading before the last one. -/
def setsBack (cfg : Config b) (s : Process) (a : Act) : Bool :=
  (arrival cfg a).any fun r => r.2 < s.clock

/-- The check evicts a tenant that has used units of the window. -/
def evictsUsed (cfg : Config b) (s : Process) (a : Act) : Bool :=
  (arrival cfg a).any fun r =>
    (evicted cfg s r.1 r.2).any fun ref => 0 < (s.heap ref).used

/-- The check evicts a tenant whose entry a suspended check holds. -/
def evictsHeld (cfg : Config b) (s : Process) (a : Act) : Bool :=
  (arrival cfg a).any fun r =>
    (evicted cfg s r.1 r.2).any fun ref => s.calls.entries.any fun e => e.2.check.entry = ref

/-- The call that goes on with a granted lease. -/
def granted (s : Process) : Act → Option Call
  | .resume id => (s.calls.lookup id).filter fun c =>
    match c.stage with
    | .replied leased => leased.allowed
    | .requested => false
  | _ => none

/-- The call goes on with an entry that is no longer its tenant's. -/
def strays (s : Process) (a : Act) : Bool :=
  (granted s a).any fun c => s.tenants.lookup c.check.tenant ≠ some c.check.entry

/-- With its lease, the call need not ask for another. -/
def decides (b : Budget) (s : Process) (c : Call) : Bool :=
  b.limit ≤ (s.grow c.leaseAmount).lEffective ||
    c.check.cost ≤ fl ((s.grow c.leaseAmount).lEffective - s.aggregate.totalUsed)

/-- The call decides on an entry that is no longer its tenant's. -/
def decidesDetached (b : Budget) (s : Process) (a : Act) : Bool :=
  strays s a && (granted s a).any (decides b s)

/-- The call resumes in another window than that of its check. -/
def resumesLate (b : Budget) (s : Process) (a : Act) : Bool :=
  (granted s a).any fun c => s.windowStart ≠ (startOf b.windowMs c.check.now : ℚ)

/-- The step is a reset. -/
def isReset : Act → Bool
  | .reset _ => true
  | _ => false

/-- The prelude of a check does not round the totals. -/
def PlainArrive (cfg : Config b) (s : Process) (tenant : String) (weight now : ℚ) : Prop :=
  let rolled := (s.rollWindow cfg now).tick now
  (∀ ref ∈ rolled.tenants.lookup tenant, PlainWeigh rolled ref weight) ∧
    (rolled.tenants.lookup tenant = none →
      (∀ ref ∈ evicted cfg s tenant now, PlainDelete rolled ref) ∧
        Unrounded ((rolled.evict cfg).aggWeight + weight))

instance (cfg : Config b) (s : Process) (tenant : String) (weight now : ℚ) :
    Decidable (PlainArrive cfg s tenant weight now) :=
  inferInstanceAs (Decidable (_ ∧ (_ → _ ∧ _)))

/-- A check from its start rounds no total. -/
def PlainCheck (cfg : Config b) (s : Process) (r : Request) (now : ℚ) : Prop :=
  PlainArrive cfg s r.tenant r.weight now ∧
    PlainDecide (arrive cfg s r now).1 (arrive cfg s r now).2

instance (cfg : Config b) (s : Process) (r : Request) (now : ℚ) :
    Decidable (PlainCheck cfg s r now) :=
  inferInstanceAs (Decidable (_ ∧ _))

/-- A step rounds no total. -/
def PlainStep (cfg : Config b) (s : Process) : Act → Prop
  | .checkSync _ tenant cost weight now | .check _ tenant cost weight now =>
    ∀ r ∈ (validateInputs tenant cost weight).toOption, PlainCheck cfg s r now
  | .resume id => ∀ c ∈ granted s (.resume id),
    Unrounded (s.lEffective + c.leaseAmount) ∧
      PlainDecide ((s.grow c.leaseAmount).finish id) c.check
  | .reset tenant => ∀ t ∈ tenant, ∀ ref ∈ s.tenants.lookup t, PlainDelete s ref
  | _ => True

instance (cfg : Config b) (s : Process) : ∀ a, Decidable (PlainStep cfg s a)
  | .checkSync _ _ _ _ _ | .check _ _ _ _ _ | .resume _ | .reset _ =>
    inferInstanceAs (Decidable (∀ _ ∈ _, _))
  | .serve _ | .lose _ | .expire => isTrue trivial

/-- A check meets the process in the window of its reading. -/
def CutsStep (cfg : Config b) (s : Process) (a : Act) : Prop :=
  ∀ r ∈ arrival cfg a, Cuts b s r.2

instance (cfg : Config b) (s : Process) (a : Act) : Decidable (CutsStep cfg s a) :=
  inferInstanceAs (Decidable (∀ _ ∈ _, _))

/-- The lapses of a step. -/
def lapses (cfg : Config b) (s : Process) (a : Act) : Lapses where
  miscuts := ¬ CutsStep cfg s a
  rounds := ¬ PlainStep cfg s a
  evictsUsed := evictsUsed cfg s a = true
  evictsHeld := evictsHeld cfg s a = true
  strays := strays s a = true
  detached := decidesDetached b s a = true
  late := resumesLate b s a = true
  resets := isReset a = true

/-! ### Every step is a sequence of moves -/

section Steps

variable {cfg : Config b} {x : Lapses} {s s' : Process}

theorem rollWindow_moves (now : ℚ) (hcuts : Cuts b s now ∨ x.miscuts) :
    Moves cfg x s [] ((s.rollWindow cfg now).tick now) ∧
      (s.rollWindow cfg now).windowStart ≠ ⊥ ∧ (s.rollWindow cfg now).calls = s.calls ∧
      (s.rollWindow cfg now).heap = s.heap := by
  unfold Process.rollWindow
  split
  · rename_i hrolls
    rw [Cuts, if_pos hrolls] at hcuts
    exact ⟨.single (.roll now hcuts), WithBot.coe_ne_bot, rfl, rfl⟩
  · rename_i hrolls
    rw [Cuts, if_neg hrolls] at hcuts
    refine ⟨.single (.stay now hcuts), fun hbot => hrolls ?_, rfl, rfl⟩
    simp [Process.rolls, hbot]

/-- What the eviction drops is the oldest entry. -/
theorem evict_moves {tenant : String} {now : ℚ}
    (hnone : (s.rollWindow cfg now).tenants.lookup tenant = none)
    (hevict : ∀ ref, evicted cfg s tenant now = some ref →
      ((s.heap ref).used ≤ 0 ∨ x.evictsUsed) ∧ (Unheld s ref ∨ x.evictsHeld) ∧
        (PlainDelete ((s.rollWindow cfg now).tick now) ref ∨ x.rounds))
    (hcalls : (s.rollWindow cfg now).calls = s.calls)
    (hheap : (s.rollWindow cfg now).heap = s.heap) :
    Moves cfg x ((s.rollWindow cfg now).tick now) []
        (((s.rollWindow cfg now).tick now).evict cfg) ∧
      (((s.rollWindow cfg now).tick now).evict cfg).tenants.lookup tenant = none ∧
      (((s.rollWindow cfg now).tick now).evict cfg).calls = s.calls ∧
      (((s.rollWindow cfg now).tick now).evict cfg).clock = now ∧
      (((s.rollWindow cfg now).tick now).evict cfg).windowStart
        = (s.rollWindow cfg now).windowStart := by
  unfold Process.evict
  by_cases hfull : cfg.full (s.rollWindow cfg now).tenants.size
  · cases hold : (s.rollWindow cfg now).tenants.oldest? with
    | none => simp [hold, hnone, hcalls, Chain.nil]
    | some oldest =>
      have hmem : oldest ∈ (s.rollWindow cfg now).tenants.keys := List.mem_of_head? hold
      obtain ⟨ref, href⟩ := OrderedMap.exists_lookup_of_mem_keys hmem
      have hevicted : evicted cfg s tenant now = some ref := by
        simp [evicted, hnone, hfull, hold, href]
      obtain ⟨hused, hheld, hplain⟩ := hevict ref hevicted
      simp only [Process.tick_tenants, hfull, if_true, hold]
      have hlookup : ((s.rollWindow cfg now).tick now).tenants.lookup oldest = some ref := href
      refine ⟨.single (.evict oldest ref hlookup ?_ ?_ hplain), ?_⟩
      · rwa [Process.tick_heap, hheap]
      · rwa [Unheld, Process.tick_calls, hcalls]
      · rw [Process.deleteTenant_of_lookup hlookup]
        refine ⟨?_, hcalls, rfl, rfl⟩
        show ((s.rollWindow cfg now).tenants.erase oldest).lookup tenant = none
        rw [OrderedMap.lookup_erase, hnone, ite_self]
  · simp [hfull, hnone, hcalls, Chain.nil]

/-- The prelude of a check ends with its tenant's entry. -/
theorem arrive_moves (r : Request) (now : ℚ) (hcuts : Cuts b s now ∨ x.miscuts)
    (hevict : ∀ ref, evicted cfg s r.tenant now = some ref →
      ((s.heap ref).used ≤ 0 ∨ x.evictsUsed) ∧ (Unheld s ref ∨ x.evictsHeld))
    (hplain : PlainArrive cfg s r.tenant r.weight now ∨ x.rounds) (stray : Prop) :
    Moves cfg x s [] (arrive cfg s r now).1 ∧
      Origin b x stray (arrive cfg s r now).1 (arrive cfg s r now).2 ∧
      (arrive cfg s r now).1.calls = s.calls := by
  obtain ⟨hroll, hopen, hcalls, hheap⟩ := @rollWindow_moves b _ cfg x s now hcuts
  unfold arrive
  cases hlookup : (s.rollWindow cfg now).tenants.lookup r.tenant with
  | some ref =>
    simp only [Process.tick_tenants, hlookup]
    have hweigh := hplain.imp_left fun h => h.1 ref hlookup
    refine ⟨hroll.append (.single (.weigh r.tenant ref r.weight hlookup r.weight_pos hweigh)),
      .inl ?_, ?_⟩
    · exact ⟨hlookup, rfl, hopen⟩
    · exact hcalls
  | none =>
    simp only [Process.tick_tenants, hlookup]
    have hadd := hplain.imp_left fun h => (h.2 hlookup).2
    obtain ⟨hmoves, hnone, hcalls', hclock', hwindow⟩ := evict_moves hlookup
      (fun ref href => ⟨(hevict ref href).1, (hevict ref href).2,
        hplain.imp_left fun h => (h.2 hlookup).1 ref href⟩) hcalls hheap
    refine ⟨hroll.append (hmoves.append
      (.single (.create r.tenant r.weight hnone r.weight_pos hadd))), .inl ⟨?_, ?_, ?_⟩, ?_⟩
    · simp [Process.bootstrapTenant]
    · simp [Process.bootstrapTenant, hclock']
    · simpa [Process.bootstrapTenant, hwindow] using hopen
    · simpa [Process.bootstrapTenant] using hcalls'

theorem conclude_moves {id : ℕ} {k : Check} (horigin : Origin b x x.detached s k)
    (hplain : PlainDecide s k ∨ x.rounds) :
    Moves cfg x s (conclude b s id k).2 (conclude b s id k).1 :=
  .single (.decide id k horigin hplain)

theorem checkL2_moves {l2 : Backing b} {id : ℕ} {k : Check} (hl2 : cfg.l2 = some l2)
    (hdecide : k.cost ≤ fl (s.lEffective - s.aggregate.totalUsed) → Origin b x x.detached s k)
    (hplain : PlainDecide s k ∨ x.rounds) (hsuspend : Origin b x x.strays s k)
    (hfree : s.calls.lookup id = none) :
    Moves cfg x s (checkL2 l2 s id k).2 (checkL2 l2 s id k).1 := by
  unfold checkL2
  dsimp only
  split
  · rename_i hfits
    exact conclude_moves (hdecide hfits) hplain
  · exact .single (.suspend id _ (by simp [hl2]) hsuspend hfree rfl)

/-- The lapses of a check that arrives are those its prelude may have. -/
theorem lapses_of_arrival {a : Act} {tenant : String} {now : ℚ}
    (harrival : arrival cfg a = some (tenant, now)) :
    (Cuts b s now ∨ (lapses cfg s a).miscuts) ∧
      ∀ ref, evicted cfg s tenant now = some ref →
        ((s.heap ref).used ≤ 0 ∨ (lapses cfg s a).evictsUsed) ∧
          (Unheld s ref ∨ (lapses cfg s a).evictsHeld) := by
  refine ⟨?_, fun ref href => ⟨?_, ?_⟩⟩
  · by_cases hcuts : Cuts b s now
    · exact .inl hcuts
    · exact .inr fun hstep => hcuts (hstep _ harrival)
  · rcases le_or_gt (s.heap ref).used 0 with hle | hlt
    · exact .inl hle
    · exact .inr (by simp [lapses, evictsUsed, harrival, href, hlt])
  · by_cases hheld : s.calls.entries.any fun e => e.2.check.entry = ref
    · exact .inr (by simpa [lapses, evictsHeld, harrival, href] using hheld)
    · refine .inl fun id c hc hentry => hheld (List.any_eq_true.mpr ⟨(id, c), ?_, ?_⟩)
      · exact OrderedMap.mem_entries_of_lookup hc
      · exact decide_eq_true hentry

omit [Rounding] in
theorem request_of_validateInputs {tenant : String} {cost weight : ℚ} {r : Request}
    (h : validateInputs tenant cost weight = .ok r) : r.tenant = tenant ∧ r.cost = cost := by
  unfold validateInputs at h
  split at h
  · cases h
  · split at h
    · cases h
    · split at h
      · cases h
        exact ⟨rfl, rfl⟩
      · cases h

/-- A check that arrives rounds a total only where its step has that lapse. -/
theorem plainCheck_of_arrival {a : Act} {r : Request} {now : ℚ}
    (ha : PlainStep cfg s a → PlainCheck cfg s r now) :
    PlainCheck cfg s r now ∨ (lapses cfg s a).rounds := by
  by_cases hplain : PlainStep cfg s a
  · exact .inl (ha hplain)
  · exact .inr hplain

theorem checkSync_moves {id : ℕ} {tenant : String} {cost weight now : ℚ} :
    Moves cfg (lapses cfg s (.checkSync id tenant cost weight now)) s
      (checkSync cfg s id tenant cost weight now).2
      (checkSync cfg s id tenant cost weight now).1 := by
  unfold checkSync
  split
  · exact .single (.threw id _)
  · rename_i hl2
    cases hvalid : validateInputs tenant cost weight with
    | error e => exact .single (.threw id e)
    | ok r =>
      have harrival :
          arrival cfg (.checkSync id tenant cost weight now) = some (r.tenant, now) := by
        simp [arrival, hvalid, Except.isOk, Except.toBool, Option.not_isSome_iff_eq_none.mp hl2,
          (request_of_validateInputs hvalid).1]
      obtain ⟨hcuts, hevict⟩ := lapses_of_arrival (s := s) harrival
      have hplain := @plainCheck_of_arrival b _ cfg s
        (.checkSync id tenant cost weight now) r now fun h => h r (by rw [hvalid]; rfl)
      obtain ⟨hmoves, horigin, -⟩ := arrive_moves r now hcuts hevict
        (hplain.imp_left And.left) _
      exact hmoves.append (conclude_moves horigin (hplain.imp_left And.right))

theorem check_moves {id : ℕ} {tenant : String} {cost weight now : ℚ}
    (hfree : s.calls.lookup id = none) :
    Moves cfg (lapses cfg s (.check id tenant cost weight now)) s
      (check cfg s id tenant cost weight now).2 (check cfg s id tenant cost weight now).1 := by
  unfold check
  cases hvalid : validateInputs tenant cost weight with
  | error e => exact .single (.threw id e)
  | ok r =>
    have harrival : arrival cfg (.check id tenant cost weight now) = some (r.tenant, now) := by
      simp [arrival, hvalid, Except.isOk, Except.toBool, (request_of_validateInputs hvalid).1]
    obtain ⟨hcuts, hevict⟩ := lapses_of_arrival (s := s) harrival
    have hplain := @plainCheck_of_arrival b _ cfg s (.check id tenant cost weight now) r
      now fun h => h r (by rw [hvalid]; rfl)
    cases hl2 : cfg.l2 with
    | none =>
      obtain ⟨hmoves, horigin, -⟩ := arrive_moves r now hcuts hevict
        (hplain.imp_left And.left) _
      exact hmoves.append (conclude_moves horigin (hplain.imp_left And.right))
    | some l2 =>
      obtain ⟨hmoves, horigin, hcalls⟩ := arrive_moves r now hcuts hevict
        (hplain.imp_left And.left) (lapses cfg s (.check id tenant cost weight now)).strays
      obtain ⟨-, hdecide, -⟩ := arrive_moves r now hcuts hevict
        (hplain.imp_left And.left) (lapses cfg s (.check id tenant cost weight now)).detached
      exact hmoves.append (checkL2_moves hl2 (fun _ => hdecide) (hplain.imp_left And.right) horigin
        (by rw [hcalls, hfree]))

theorem resume_moves {l2 : Backing b} {id : ℕ} {r : Process × List Event} (hl2 : cfg.l2 = some l2)
    (h : resume l2 s id = some r) : Moves cfg (lapses cfg s (.resume id)) s r.2 r.1 := by
  obtain ⟨c, hcall, h⟩ := Option.bind_eq_some_iff.mp h
  cases hstage : c.stage with
  | requested => simp [hstage] at h
  | replied leased =>
    simp only [hstage] at h
    split at h
    · rename_i hallowed
      have hgranted : granted s (.resume id) = some c := by simp [granted, hcall, hstage, hallowed]
      have hlate : s.windowStart = (startOf b.windowMs c.check.now : ℚ) ∨
          (lapses cfg s (.resume id)).late := by
        by_cases heq : s.windowStart = (startOf b.windowMs c.check.now : ℚ)
        · exact .inl heq
        · exact .inr (by simp [lapses, resumesLate, hgranted, heq])
      have hstray : s.tenants.lookup c.check.tenant = some c.check.entry ∨
          (lapses cfg s (.resume id)).strays := by
        by_cases heq : s.tenants.lookup c.check.tenant = some c.check.entry
        · exact .inl heq
        · exact .inr (by simp [lapses, strays, hgranted, heq])
      have hdecides : decides b s c = true →
          s.tenants.lookup c.check.tenant = some c.check.entry ∨
            (lapses cfg s (.resume id)).detached := by
        intro hd
        refine hstray.imp_right fun hstrays => ?_
        simpa [lapses, decidesDetached, hgranted, hd] using hstrays
      have hplain : (Unrounded (s.lEffective + c.leaseAmount) ∧
          PlainDecide ((s.grow c.leaseAmount).finish id) c.check) ∨
            (lapses cfg s (.resume id)).rounds := by
        by_cases hstep : PlainStep cfg s (.resume id)
        · exact .inl (hstep c hgranted)
        · exact .inr hstep
      refine .append (l := []) (.single (.grow id c leased hcall hstage hallowed hlate
        (hplain.imp_left And.left))) ?_
      split at h
      · rename_i hfull
        obtain rfl := Option.some.inj h
        exact conclude_moves (.inr ⟨hdecides (by simpa [decides] using .inl hfull), hlate⟩)
          (hplain.imp_left And.right)
      · obtain rfl := Option.some.inj h
        refine checkL2_moves hl2 (fun hfits => .inr ⟨hdecides ?_, hlate⟩)
          (hplain.imp_left And.right) (.inr ⟨hstray, hlate⟩) ?_
        · simpa [decides] using .inr hfits
        · simp
    · obtain rfl := Option.some.inj h
      exact .single (.refuse id c.check _)

/-- **Every step is a sequence of moves.** -/
theorem step_moves {store store' : L2} {a : Act} {evs : List Event}
    (h : step cfg store s a = some (store', s', evs)) : Moves cfg (lapses cfg s a) s evs s' := by
  cases a with
  | checkSync id tenant cost weight now =>
    simp only [step] at h
    split at h
    · cases h
    · obtain ⟨-, heq⟩ := Prod.mk.inj (Option.some.inj h)
      have hmoves : Moves cfg (lapses cfg s (.checkSync id tenant cost weight now)) s
        (checkSync cfg s id tenant cost weight now).2 _ := checkSync_moves
      rwa [heq] at hmoves
  | check id tenant cost weight now =>
    simp only [step] at h
    split at h
    · cases h
    · rename_i hfree
      obtain ⟨-, heq⟩ := Prod.mk.inj (Option.some.inj h)
      have hmoves : Moves cfg (lapses cfg s (.check id tenant cost weight now)) s
        (check cfg s id tenant cost weight now).2 _ := check_moves (by simpa using hfree)
      rwa [heq] at hmoves
  | serve id =>
    obtain ⟨l2, hl2, h⟩ := Option.bind_eq_some_iff.mp h
    obtain ⟨c, hcall, h⟩ := Option.bind_eq_some_iff.mp h
    cases hstage : c.stage with
    | requested =>
      simp only [hstage, Option.some.injEq, Prod.mk.injEq] at h
      obtain ⟨-, rfl, rfl⟩ := h
      exact .single (.serve id c _ hcall hstage)
    | replied leased => simp [hstage] at h
  | lose id =>
    simp only [step] at h
    split at h
    · cases h
      exact .single (.lose id)
    · cases h
  | resume id =>
    obtain ⟨l2, hl2, h⟩ := Option.bind_eq_some_iff.mp h
    obtain ⟨r, hr, heq⟩ := Option.map_eq_some_iff.mp h
    cases heq
    exact resume_moves hl2 hr
  | reset tenant =>
    cases h
    refine .single (.reset tenant rfl ?_)
    by_cases hplain : PlainStep cfg s (.reset tenant)
    · exact .inl hplain
    · exact .inr hplain
  | expire =>
    cases h
    exact .nil

end Steps

end ThrottleKit.FairEscrow
